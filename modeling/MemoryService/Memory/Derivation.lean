import MemoryService.Memory.Repository

/-!
# When a derived memory does not outlive its sources

The rows' ids, tenants and audiences never change, and every derived memory was added after its
sources.
-/

namespace MemoryService.Memory

open Domain Foundation List

def Stands (state : State) (d : MemoryDependencyRow) : Prop :=
  ∃ s ∈ state.memories, s.memoryId = d.sourceId ∧ s.temporalStatus = .current ∧
    s.deletedAt = none ∧ s.revision = d.sourceRevision
deriving Decidable

def State.DerivedFrom (state : State) (derived source : String) : Prop :=
  ∃ d ∈ state.dependencies, d.derivedId = derived ∧ d.sourceId = source

/-- A current memory has sources that are current, at any remove, with at least its audience. -/
structure Supported (state : State) : Prop where
  recorded : ∀ r ∈ state.memories, r.temporalStatus = .current →
    ∀ d ∈ state.dependencies, d.derivedId = r.memoryId →
      ∃ s ∈ state.memories, s.memoryId = d.sourceId ∧ s.temporalStatus = .current ∧
        s.deletedAt = none ∧ s.revision = d.sourceRevision ∧
        r.visibilityKeys ⊆ s.visibilityKeys
  transitive : ∀ r ∈ state.memories, r.temporalStatus = .current →
    ∀ source, Relation.TransGen state.DerivedFrom r.memoryId source →
      ∃ s ∈ state.memories, s.memoryId = source ∧ s.temporalStatus = .current ∧
        s.deletedAt = none ∧ r.visibilityKeys ⊆ s.visibilityKeys

structure MemoryIdentity where
  memoryId : String
  tenantId : String
  visibilityKeys : List String

def MemoryRow.identity (r : MemoryRow) : MemoryIdentity :=
  ⟨r.memoryId, r.tenantId, r.visibilityKeys⟩

/-- A dependency leads from a memory to one that was added before it, in the same tenant
and with at least its audience. -/
structure Linked (identities : List MemoryIdentity)
    (dependencies : List MemoryDependencyRow) : Prop where
  unique : (identities.map MemoryIdentity.memoryId).Nodup
  linked : ∀ d ∈ dependencies, ∃ before after derived source,
    identities = before ++ derived :: after ∧ source ∈ before ∧
      derived.memoryId = d.derivedId ∧ source.memoryId = d.sourceId ∧
      derived.tenantId = d.tenantId ∧ source.tenantId = d.tenantId ∧
      derived.visibilityKeys ⊆ source.visibilityKeys

def WellLinked (state : State) : Prop :=
  Linked (state.memories.map MemoryRow.identity) state.dependencies

variable {tenantId memoryId : String} {changed : MemoryDependencyRow → Prop}
  {ids visibilityKeys : List String} {memory : CanonicalMemory} {now : Instant}
  {next state : State}

section

variable {state : State} {d : MemoryDependencyRow} {r s : MemoryRow}

section

variable (linked : WellLinked state)
include linked

theorem WellLinked.unique : (state.memories.map MemoryRow.memoryId).Nodup := by
  have unique := Linked.unique linked
  rw [map_map] at unique
  exact unique

theorem row_unique (rStored : r ∈ state.memories)
    (sStored : s ∈ state.memories) (same : r.memoryId = s.memoryId) : r = s :=
  inj_on_of_nodup_map linked.unique rStored sStored same

variable (recorded : d ∈ state.dependencies)
include recorded

theorem WellLinked.rows :
    ∃ r ∈ state.memories, ∃ s ∈ state.memories,
      r.memoryId = d.derivedId ∧ s.memoryId = d.sourceId ∧
        r.tenantId = d.tenantId ∧ s.tenantId = d.tenantId ∧
        r.visibilityKeys ⊆ s.visibilityKeys := by
  obtain ⟨before, after, derived, source, isSplit, inBefore, facts⟩ :=
    Linked.linked linked d recorded
  have derivedStored : derived ∈ state.memories.map MemoryRow.identity := by
    rw [isSplit]
    simp
  have sourceStored : source ∈ state.memories.map MemoryRow.identity := by
    rw [isSplit]
    exact mem_append_left _ inBefore
  obtain ⟨r, rStored, rfl⟩ := mem_map.mp derivedStored
  obtain ⟨s, sStored, rfl⟩ := mem_map.mp sourceStored
  exact ⟨r, rStored, s, sStored, facts⟩

theorem WellLinked.derived_tenant (stored : r ∈ state.memories)
    (isDerived : r.memoryId = d.derivedId) : r.tenantId = d.tenantId := by
  obtain ⟨derived, derivedStored, -, -, sameId, -, tenant, -⟩ := linked.rows recorded
  have same := row_unique linked stored derivedStored (by rw [isDerived, sameId])
  rw [same]
  exact tenant

theorem WellLinked.source_tenant (stored : s ∈ state.memories)
    (isSource : s.memoryId = d.sourceId) : s.tenantId = d.tenantId := by
  obtain ⟨-, -, source, sourceStored, -, sameId, -, tenant, -⟩ := linked.rows recorded
  have same := row_unique linked stored sourceStored (by rw [isSource, sameId])
  rw [same]
  exact tenant

theorem WellLinked.keys (rStored : r ∈ state.memories)
    (sStored : s ∈ state.memories) (isDerived : r.memoryId = d.derivedId)
    (isSource : s.memoryId = d.sourceId) : r.visibilityKeys ⊆ s.visibilityKeys := by
  obtain ⟨derived, derivedStored, source, sourceStored, derivedId, sourceId, -, -, keys⟩ :=
    linked.rows recorded
  have sameDerived := row_unique linked rStored derivedStored (by rw [isDerived, derivedId])
  have sameSource := row_unique linked sStored sourceStored (by rw [isSource, sourceId])
  rw [sameDerived, sameSource]
  exact keys

theorem idxOf_lt : (state.memories.map MemoryRow.memoryId).idxOf d.sourceId <
      (state.memories.map MemoryRow.memoryId).idxOf d.derivedId := by
  obtain ⟨before, after, derived, source, isSplit, inBefore, derivedId, sourceId, -⟩ :=
    Linked.linked linked d recorded
  have ids :
      state.memories.map MemoryRow.memoryId =
        before.map MemoryIdentity.memoryId ++ d.derivedId :: after.map MemoryIdentity.memoryId := by
    have mapped := congrArg (List.map MemoryIdentity.memoryId) isSplit
    rw [map_map, map_append, map_cons, derivedId] at mapped
    exact mapped
  have isBefore : d.sourceId ∈ before.map MemoryIdentity.memoryId := by
    rw [← sourceId]
    exact mem_map_of_mem inBefore
  have notBefore : d.derivedId ∉ before.map MemoryIdentity.memoryId := by
    have unique := linked.unique
    rw [ids] at unique
    intro isBefore
    exact (nodup_append.mp unique).2.2 _ isBefore _ mem_cons_self rfl
  rw [ids, idxOf_append_of_mem isBefore, idxOf_append_of_notMem notBefore,
    idxOf_cons_self, Nat.add_zero]
  exact idxOf_lt_length_of_mem isBefore

end

theorem edge_iff {source derived : String} :
    Edge (state.edges tenantId) source derived ↔
      ∃ d ∈ state.dependencies, d.tenantId = tenantId ∧ d.sourceId = source ∧
        d.derivedId = derived := by
  simp [Edge, State.edges, and_assoc]

theorem not_mem_reach_self (linked : WellLinked state) (tenantId memoryId : String) :
    memoryId ∉ reach (state.edges tenantId) [memoryId] := by
  intro isReached
  obtain ⟨first, isStart, path⟩ := mem_reach_iff.mp isReached
  have later :
      ∀ derived, Relation.TransGen (Edge (state.edges tenantId)) first derived →
        (state.memories.map MemoryRow.memoryId).idxOf first <
          (state.memories.map MemoryRow.memoryId).idxOf derived := by
    intro derived path
    induction path with
    | single isEdge =>
      obtain ⟨d, recorded, -, rfl, rfl⟩ := edge_iff.mp isEdge
      exact idxOf_lt linked recorded
    | tail path isEdge ih =>
      obtain ⟨d, recorded, -, rfl, rfl⟩ := edge_iff.mp isEdge
      exact Nat.lt_trans ih (idxOf_lt linked recorded)
  have notLess := later memoryId path
  rw [mem_singleton.mp isStart] at notLess
  omega

/-- Every CURRENT memory is supported, but for the dependencies in `changed`. -/
def GroundedBut (changed : MemoryDependencyRow → Prop) (state : State) : Prop :=
  ∀ d ∈ state.dependencies, ∀ r ∈ state.memories, r.memoryId = d.derivedId →
    r.temporalStatus = .current → changed d ∨ Stands state d

def Grounded (state : State) : Prop := GroundedBut (fun _ => False) state

theorem GroundedBut.weaken {more : MemoryDependencyRow → Prop}
    (grounded : GroundedBut changed state)
    (implies : ∀ d ∈ state.dependencies, changed d → more d) : GroundedBut more state := by
  intro d recorded r stored isDerived isCurrent
  rcases grounded d recorded r stored isDerived isCurrent with isChanged | stands
  · exact .inl (implies d recorded isChanged)
  · exact .inr stands

theorem supported_iff (linked : WellLinked state) : Supported state ↔ Grounded state := by
  constructor
  · intro supported d recorded r stored isDerived isCurrent
    obtain ⟨s, sStored, isSource, sCurrent, sLive, sRevision, -⟩ :=
      supported.recorded r stored isCurrent d recorded isDerived.symm
    exact .inr ⟨s, sStored, isSource, sCurrent, sLive, sRevision⟩
  · intro grounded
    have direct :
        ∀ r ∈ state.memories, r.temporalStatus = .current →
          ∀ d ∈ state.dependencies, d.derivedId = r.memoryId →
            ∃ s ∈ state.memories, s.memoryId = d.sourceId ∧
              s.temporalStatus = .current ∧ s.deletedAt = none ∧
              s.revision = d.sourceRevision ∧ r.visibilityKeys ⊆ s.visibilityKeys := by
      intro r stored isCurrent d recorded isDerived
      rcases grounded d recorded r stored isDerived.symm isCurrent with isChanged | stands
      · exact isChanged.elim
      · obtain ⟨s, sStored, isSource, sCurrent, sLive, sRevision⟩ := stands
        have keys := linked.keys recorded stored sStored isDerived.symm isSource
        exact ⟨s, sStored, isSource, sCurrent, sLive, sRevision, keys⟩
    refine ⟨direct, ?_⟩
    intro r stored isCurrent source path
    induction path with
    | single link =>
      obtain ⟨d, recorded, isDerived, rfl⟩ := link
      obtain ⟨s, sStored, isSource, sCurrent, sLive, -, keys⟩ :=
        direct r stored isCurrent d recorded isDerived
      exact ⟨s, sStored, isSource, sCurrent, sLive, keys⟩
    | tail path link ih =>
      obtain ⟨middle, mStored, isMiddle, mCurrent, -, mKeys⟩ := ih
      obtain ⟨d, recorded, isDerived, rfl⟩ := link
      obtain ⟨s, sStored, isSource, sCurrent, sLive, -, sKeys⟩ :=
        direct middle mStored mCurrent d recorded (by rw [isDerived, isMiddle])
      exact ⟨s, sStored, isSource, sCurrent, sLive, List.Subset.trans mKeys sKeys⟩

theorem WellLinked.assign (linked : WellLinked state) (selects : MemoryRow → Bool)
    {assign : MemoryRow → MemoryRow}
    (unassigned : ∀ r, (assign r).identity = r.identity) :
    WellLinked (state.assign selects assign) := by
  rw [WellLinked, State.assign, map_updateWhere unassigned]
  exact linked

theorem grounded_assign (grounded : Grounded state) (selects : MemoryRow → Bool)
    {assign : MemoryRow → MemoryRow}
    (unassigned : ∀ r, (assign r).identity = r.identity)
    (written : ∀ r ∈ state.memories, selects r = true →
      (assign r).temporalStatus = .current →
        ∀ d ∈ state.dependencies, d.derivedId = r.memoryId → Stands state d) :
    GroundedBut
      (fun d => ∃ s ∈ state.memories, selects s = true ∧ s.memoryId = d.sourceId)
      (state.assign selects assign) := by
  intro d recorded r stored isDerived isCurrent
  have stands : Stands state d := by
    rcases mem_updateWhere_cases stored with ⟨old, oldStored, isSelected, rfl⟩ | ⟨kept, -⟩
    · have sameId : (assign old).memoryId = old.memoryId :=
        congrArg MemoryIdentity.memoryId (unassigned old)
      exact written old oldStored isSelected isCurrent d recorded (by rw [← isDerived, sameId])
    · rcases grounded d recorded r kept isDerived isCurrent with isChanged | stands
      · exact isChanged.elim
      · exact stands
  obtain ⟨s, sStored, isSource, sourceStands⟩ := stands
  cases isSelected : selects s with
  | true => exact .inl ⟨s, sStored, isSelected, isSource⟩
  | false => exact .inr ⟨s, kept_mem sStored isSelected, isSource, sourceStands⟩

theorem named_iff : r.named tenantId ids = true ↔ r.tenantId = tenantId ∧ r.memoryId ∈ ids := by
  simp [MemoryRow.named]

theorem WellLinked.invalidate (linked : WellLinked state) (tenantId : String)
    (ids : List String) : WellLinked (invalidateDependents tenantId ids state) := by
  apply linked.assign
  intro r
  rfl

theorem current_of_invalidate
    (stored : r ∈ (invalidateDependents tenantId ids state).memories)
    (isCurrent : r.temporalStatus = .current) :
    r ∈ state.memories ∧
      ¬(r.tenantId = tenantId ∧ r.memoryId ∈ reach (state.edges tenantId) ids) := by
  rcases mem_updateWhere_cases stored with ⟨old, -, -, rfl⟩ | ⟨kept, notSelected⟩
  · cases isCurrent
  · refine ⟨kept, ?_⟩
    intro isAffected
    rw [State.affected, named_iff.mpr isAffected, isCurrent] at notSelected
    simp at notSelected

theorem mem_invalidate (stored : r ∈ state.memories)
    (notAffected : ¬(r.tenantId = tenantId ∧ r.memoryId ∈ reach (state.edges tenantId) ids)) :
    r ∈ (invalidateDependents tenantId ids state).memories := by
  apply kept_mem stored
  rw [State.affected, Bool.and_eq_false_iff]
  apply Or.inl
  rw [← Bool.not_eq_true, named_iff]
  exact notAffected

theorem grounded_invalidate
    (linked : WellLinked state) (grounded : GroundedBut changed state) (tenantId : String)
    (ids : List String) :
    GroundedBut (fun d => changed d ∧ ¬(d.tenantId = tenantId ∧ d.sourceId ∈ ids))
      (invalidateDependents tenantId ids state) := by
  intro d recorded r stored isDerived isCurrent
  obtain ⟨kept, notAffected⟩ := current_of_invalidate stored isCurrent
  have tenant := linked.derived_tenant recorded kept isDerived
  rcases grounded d recorded r kept isDerived isCurrent with isChanged | stands
  · refine .inl ⟨isChanged, ?_⟩
    intro named
    apply notAffected
    refine ⟨by rw [tenant, named.1], ?_⟩
    apply mem_reach_of_edge named.2
    exact edge_iff.mpr ⟨d, recorded, named.1, rfl, isDerived.symm⟩
  · obtain ⟨s, sStored, isSource, sourceStands⟩ := stands
    have sourceTenant := linked.source_tenant recorded sStored isSource
    refine .inr ⟨s, mem_invalidate sStored ?_, isSource, sourceStands⟩
    intro isAffected
    apply notAffected
    refine ⟨by rw [tenant, ← sourceTenant, isAffected.1], ?_⟩
    apply reach_closed isAffected.2
    rw [isSource]
    exact edge_iff.mpr ⟨d, recorded, by rw [← sourceTenant, isAffected.1], rfl, isDerived.symm⟩

section

variable (linked : WellLinked state) {selects : MemoryRow → Bool} {assign : MemoryRow → MemoryRow}
  (unassigned : ∀ r, (assign r).identity = r.identity)
  (named : ∀ r, selects r = true → r.tenantId = tenantId ∧ r.memoryId = memoryId)
include linked unassigned named

theorem grounded_write (grounded : Grounded state)
    (written : ∀ r ∈ state.memories, selects r = true →
      (assign r).temporalStatus = .current →
        ∀ d ∈ state.dependencies, d.derivedId = memoryId → Stands state d) :
    Grounded (invalidateDependents tenantId [memoryId] (state.assign selects assign)) := by
  have but :=
    grounded_assign grounded selects unassigned fun r stored isSelected isCurrent d recorded
      isDerived => written r stored isSelected isCurrent d recorded
        (by rw [isDerived, (named r isSelected).2])
  apply (grounded_invalidate (linked.assign selects unassigned) but tenantId [memoryId]).weaken
  intro d recorded isChanged
  obtain ⟨⟨s, stored, isSelected, isSource⟩, notNamed⟩ := isChanged
  apply notNamed
  have isNamed := named s isSelected
  have tenant := linked.source_tenant recorded stored isSource
  exact ⟨by rw [← tenant, isNamed.1], by rw [← isSource, isNamed.2]; simp⟩

theorem stands_of_write
    (stored : r ∈ state.memories) (isSelected : selects r = true)
    (isCurrent : (assign r).temporalStatus = .current)
    (grounded : Grounded (invalidateDependents tenantId [memoryId] (state.assign selects assign)))
    (recorded : d ∈ state.dependencies) (isDerived : d.derivedId = memoryId) :
    Stands state d := by
  have linkedAfter := linked.assign selects unassigned
  have sameId : (assign r).memoryId = memoryId := by
    have kept : (assign r).memoryId = r.memoryId := congrArg MemoryIdentity.memoryId (unassigned r)
    rw [kept, (named r isSelected).2]
  have storedAfter :
      assign r ∈
        (invalidateDependents tenantId [memoryId] (state.assign selects assign)).memories := by
    apply mem_invalidate (updated_mem stored isSelected)
    intro isAffected
    rw [sameId] at isAffected
    exact not_mem_reach_self linkedAfter tenantId memoryId isAffected.2
  rcases grounded d recorded (assign r) storedAfter (by rw [sameId, isDerived]) isCurrent with
    isChanged | stands
  · exact isChanged.elim
  · obtain ⟨s, sStored, isSource, sCurrent, sourceStands⟩ := stands
    obtain ⟨kept, -⟩ := current_of_invalidate sStored sCurrent
    rcases mem_updateWhere_cases kept with ⟨old, -, oldSelected, rfl⟩ | ⟨isOld, -⟩
    · -- the row itself is not among its sources
      have earlier := idxOf_lt linked recorded
      have kept : (assign old).memoryId = old.memoryId :=
        congrArg MemoryIdentity.memoryId (unassigned old)
      rw [← isSource, kept, (named old oldSelected).2, isDerived] at earlier
      omega
    · exact ⟨s, isOld, isSource, sCurrent, sourceStands⟩

end

def SourcesStand (state : State) (memoryId : String) : Prop :=
  ∀ d ∈ state.dependencies, d.derivedId = memoryId → Stands state d
deriving Decidable

/-- A memory is made current again only where its sources stand. -/
def Admitted (state : State) : Action → Prop
  | .update memory => memory.temporal.status = .current → SourcesStand state memory.memoryId
  | .setStatus tenantId memoryId status =>
    status = .current →
      (∃ r ∈ state.memories,
        r.live tenantId memoryId = true ∧ r.temporalStatus ≠ status) →
        SourcesStand state memoryId
  | _ => True

instance (action : Action) : Decidable (Admitted state action) := by
  unfold Admitted
  split <;> exact inferInstance

private theorem live_iff :
    r.live tenantId memoryId = true ↔
      (r.tenantId = tenantId ∧ r.memoryId = memoryId) ∧ r.deletedAt = none := by
  simp [MemoryRow.live, named_iff]

theorem named_of_named (isNamed : r.named tenantId [memoryId] = true) :
    r.tenantId = tenantId ∧ r.memoryId = memoryId := by
  simpa using named_iff.mp isNamed

theorem live_of_turn {status : TemporalStatus}
    (isSelected : (r.live tenantId memoryId && r.temporalStatus ≠ status) = true) :
    r.live tenantId memoryId = true ∧ r.temporalStatus ≠ status := by
  simpa using isSelected

theorem sourceRows_stand {sources : List MemoryRow}
    (found : sourceRows memory visibilityKeys now state = some sources) :
    ∀ s ∈ sources, s ∈ state.memories ∧ s.tenantId = memory.tenantId ∧
      s.temporalStatus = .current ∧ s.deletedAt = none ∧
      visibilityKeys ⊆ s.visibilityKeys := by
  intro s isSource
  simp only [sourceRows] at found
  split at found
  case isTrue =>
    cases found
    cases isSource
  case isFalse =>
    obtain ⟨checked, found⟩ := Option.ite_none_left_eq_some.mp found
    obtain ⟨-, found⟩ := Option.ite_none_left_eq_some.mp found
    cases found
    obtain ⟨stored, isNamed⟩ := mem_filter.mp isSource
    have allStand := not_not.mp (not_or.mp checked).2
    have stands := all_eq_true.mp allStand s isSource
    simp only [sourceStands, decide_eq_true_eq, all_eq_true, contains_iff_mem] at stands
    exact ⟨stored, (named_iff.mp isNamed).1, stands.2.1, stands.1, stands.2.2.2.2⟩

theorem add_eq_some (added : add memory visibilityKeys now state = some next) :
    memory.memoryId ∉ state.memories.map MemoryRow.memoryId ∧
      ∃ sources, sourceRows memory visibilityKeys now state = some sources ∧
        next = { memories := state.memories ++ [newRow memory visibilityKeys]
                 dependencies := state.dependencies ++ sources.map (dependencyOn memory) } := by
  rw [add] at added
  obtain ⟨fresh, added⟩ := Option.ite_none_left_eq_some.mp added
  obtain ⟨sources, found, isNext⟩ := Option.map_eq_some_iff.mp added
  exact ⟨fresh, sources, found, isNext.symm⟩

theorem add_linked (linked : WellLinked state)
    (added : add memory visibilityKeys now state = some next) : WellLinked next := by
  obtain ⟨fresh, sources, found, rfl⟩ := add_eq_some added
  constructor
  · rw [map_map]
    exact nodup_map_insert fresh linked.unique
  · intro d recorded
    rw [map_append, map_singleton]
    rcases mem_append.mp recorded with isOld | isNew
    · obtain ⟨before, after, derived, source, isSplit, facts⟩ := Linked.linked linked d isOld
      refine ⟨before, after ++ [(newRow memory visibilityKeys).identity], derived, source, ?_,
        facts⟩
      rw [isSplit]
      simp
    · obtain ⟨s, isSource, rfl⟩ := mem_map.mp isNew
      obtain ⟨stored, tenant, -, -, keys⟩ := sourceRows_stand found s isSource
      refine ⟨state.memories.map MemoryRow.identity, [],
        (newRow memory visibilityKeys).identity, s.identity, by simp,
        mem_map_of_mem stored, ?_⟩
      exact ⟨rfl, rfl, rfl, tenant, keys⟩

theorem add_grounded (linked : WellLinked state) (grounded : Grounded state)
    (added : add memory visibilityKeys now state = some next) : Grounded next := by
  obtain ⟨fresh, sources, found, rfl⟩ := add_eq_some added
  intro d recorded r stored isDerived isCurrent
  have kept : ∀ {d}, Stands state d →
      Stands
        { memories := state.memories ++ [newRow memory visibilityKeys]
          dependencies := state.dependencies ++ sources.map (dependencyOn memory) } d := by
    intro d stands
    obtain ⟨s, sStored, facts⟩ := stands
    exact ⟨s, mem_append_left _ sStored, facts⟩
  rcases mem_append.mp recorded with isOld | isNew
  · obtain ⟨derived, derivedStored, -, -, derivedId, -⟩ := linked.rows isOld
    rcases mem_append.mp stored with rOld | rNew
    · rcases grounded d isOld r rOld isDerived isCurrent with isChanged | stands
      · exact isChanged.elim
      · exact .inr (kept stands)
    · have sameId : derived.memoryId = memory.memoryId := by
        rw [derivedId, ← isDerived, mem_singleton.mp rNew]
        rfl
      apply absurd _ fresh
      rw [← sameId]
      exact mem_map_of_mem derivedStored
  · obtain ⟨s, isSource, rfl⟩ := mem_map.mp isNew
    obtain ⟨sStored, -, sCurrent, sLive, -⟩ := sourceRows_stand found s isSource
    exact .inr ⟨s, mem_append_left _ sStored, rfl, sCurrent, sLive, rfl⟩

theorem grounded_foldl (ids : String → List String) :
    ∀ (tenants : List String) (state : State) (changed : MemoryDependencyRow → Prop),
      WellLinked state → GroundedBut changed state →
      let last :=
        tenants.foldl
          (fun state tenantId => invalidateDependents tenantId (ids tenantId) state) state
      WellLinked last ∧ last.dependencies = state.dependencies ∧
        GroundedBut (fun d => changed d ∧
          ∀ tenantId ∈ tenants, ¬(d.tenantId = tenantId ∧ d.sourceId ∈ ids tenantId))
          last := by
  intro tenants
  induction tenants with
  | nil =>
    intro state changed linked grounded
    exact ⟨linked, rfl, grounded.weaken fun d _ isChanged => ⟨isChanged, by simp⟩⟩
  | cons tenantId tenants ih =>
    intro state changed linked grounded
    have rest :=
      ih _ _ (linked.invalidate tenantId (ids tenantId))
        (grounded_invalidate linked grounded tenantId (ids tenantId))
    refine ⟨rest.1, rest.2.1, rest.2.2.weaken ?_⟩
    intro d _ isChanged
    refine ⟨isChanged.1.1, ?_⟩
    intro other isOther
    rcases mem_cons.mp isOther with rfl | isLater
    · exact isChanged.1.2
    · exact isChanged.2 other isLater

theorem expire_identity (r : MemoryRow) : r.expire.identity = r.identity := by
  rfl

theorem expireDue_linked (linked : WellLinked state) (chosen : List String) :
    WellLinked (expireDue chosen state) := by
  have nothing :
      GroundedBut (fun _ => True)
        (state.assign (fun r => r.memoryId ∈ chosen) MemoryRow.expire) := by
    intro d recorded r stored isDerived isCurrent
    exact .inl trivial
  exact (grounded_foldl _ _ _ _ (linked.assign _ expire_identity) nothing).1

theorem expireDue_grounded (linked : WellLinked state) (grounded : Grounded state)
    (chosen : List String) : Grounded (expireDue chosen state) := by
  have but :=
    grounded_assign grounded (fun r => r.memoryId ∈ chosen) expire_identity
      (by intro r _ _ isCurrent; cases isCurrent)
  have last := grounded_foldl (fun tenantId =>
        (((state.memories.filter fun r => r.memoryId ∈ chosen).filter
          fun r => r.tenantId = tenantId).map MemoryRow.memoryId))
      (((state.memories.filter fun r => r.memoryId ∈ chosen).map MemoryRow.tenantId).dedup)
      _ _ (linked.assign (fun r => r.memoryId ∈ chosen) expire_identity) but
  apply last.2.2.weaken
  intro d recorded isChanged
  obtain ⟨⟨s, stored, isChosen, isSource⟩, notInvalidated⟩ := isChanged
  have recordedBefore : d ∈ state.dependencies := by
    rw [last.2.1] at recorded
    exact recorded
  have out : s ∈ state.memories.filter fun r => r.memoryId ∈ chosen :=
    mem_filter.mpr ⟨stored, isChosen⟩
  apply notInvalidated s.tenantId
  · exact mem_dedup.mpr (mem_map_of_mem out)
  · have tenant := linked.source_tenant recordedBefore stored isSource
    refine ⟨tenant.symm, ?_⟩
    rw [← isSource]
    exact mem_map_of_mem (mem_filter.mpr ⟨out, by simp⟩)

theorem forget_eq (state : State) (tenantId memoryId : String) (now : Instant) :
    forget tenantId memoryId now state = state ∨
      forget tenantId memoryId now state =
        invalidateDependents tenantId [memoryId]
          (state.assign (MemoryRow.live tenantId memoryId) (MemoryRow.forgotten now)) := by
  simp only [forget]
  split
  · exact .inr rfl
  · exact .inl rfl

theorem setStatus_eq (state : State) (tenantId memoryId : String) (status : TemporalStatus) :
    ((∀ r ∈ state.memories, ¬(r.live tenantId memoryId = true ∧ r.temporalStatus ≠ status)) ∧
        setStatus tenantId memoryId status state = state) ∨
      ((∃ r ∈ state.memories, r.live tenantId memoryId = true ∧ r.temporalStatus ≠ status) ∧
        setStatus tenantId memoryId status state =
          invalidateDependents tenantId [memoryId]
            (state.assign
              (fun r => MemoryRow.live tenantId memoryId r && r.temporalStatus ≠ status)
              (MemoryRow.turned status))) := by
  simp only [setStatus]
  split
  case isTrue exists_ =>
    obtain ⟨r, stored, isSelected⟩ := any_eq_true.mp exists_
    exact .inr ⟨⟨r, stored, live_of_turn isSelected⟩, rfl⟩
  case isFalse none_ =>
    refine .inl ⟨?_, rfl⟩
    intro r stored isSelected
    apply none_
    apply any_eq_true.mpr
    exact ⟨r, stored, by simpa using isSelected⟩

theorem step_keeps {next : State} {action : Action}
    (stepped : step state action = some next) (linked : WellLinked state) :
    WellLinked next ∧ (Admitted state action → Grounded state → Grounded next) := by
  cases action with
  | add memory visibilityKeys now =>
    exact ⟨add_linked linked stepped, fun _ grounded => add_grounded linked grounded stepped⟩
  | update memory =>
    obtain ⟨-, rfl⟩ := writeRow_eq_some stepped
    have unassigned : ∀ r, (MemoryRow.written memory r).identity = r.identity := by
      intro r
      rfl
    refine ⟨(linked.assign _ unassigned).invalidate _ _, ?_⟩
    intro admitted grounded
    refine grounded_write linked unassigned ?_ grounded ?_
    · intro r isNamed
      exact named_of_named isNamed
    · intro r _ _ isCurrent
      exact admitted isCurrent
  | forget tenantId memoryId now =>
    have isNext : forget tenantId memoryId now state = next := Option.some.inj stepped
    have unassigned : ∀ r, (MemoryRow.forgotten now r).identity = r.identity := by
      intro r
      rfl
    rcases forget_eq state tenantId memoryId now with same | forgotten
    · rw [← isNext, same]
      exact ⟨linked, fun _ grounded => grounded⟩
    · rw [← isNext, forgotten]
      refine ⟨(linked.assign _ unassigned).invalidate _ _, ?_⟩
      intro _ grounded
      refine grounded_write linked unassigned ?_ grounded ?_
      · intro r isLive
        exact (live_iff.mp isLive).1
      · intro r _ _ isCurrent
        cases isCurrent
  | setStatus tenantId memoryId status =>
    have isNext : setStatus tenantId memoryId status state = next := Option.some.inj stepped
    have unassigned : ∀ r, (MemoryRow.turned status r).identity = r.identity := by
      intro r
      rfl
    rcases setStatus_eq state tenantId memoryId status with
      ⟨-, same⟩ | ⟨some_, turned⟩
    · rw [← isNext, same]
      exact ⟨linked, fun _ grounded => grounded⟩
    · rw [← isNext, turned]
      refine ⟨(linked.assign _ unassigned).invalidate _ _, ?_⟩
      intro admitted grounded
      refine grounded_write linked unassigned ?_ grounded ?_
      · intro r isSelected
        exact (live_iff.mp (live_of_turn isSelected).1).1
      · intro r _ _ isCurrent
        exact admitted isCurrent some_
  | expireDue now limit chosen =>
    simp only [step] at stepped
    obtain ⟨-, stepped⟩ := Option.ite_none_right_eq_some.mp stepped
    cases stepped
    exact ⟨expireDue_linked linked chosen,
      fun _ grounded => expireDue_grounded linked grounded chosen⟩

theorem admitted_of_grounded {action : Action}
    (stepped : step state action = some next) (linked : WellLinked state)
    (grounded : Grounded next) : Admitted state action := by
  cases action with
  | update memory =>
    obtain ⟨⟨r, stored, isNamed⟩, rfl⟩ := writeRow_eq_some stepped
    intro isCurrent d recorded isDerived
    apply stands_of_write linked _ _ stored isNamed isCurrent grounded recorded isDerived
    · intro r
      rfl
    · intro r isNamed
      exact named_of_named isNamed
  | setStatus tenantId memoryId status =>
    have isNext : setStatus tenantId memoryId status state = next := Option.some.inj stepped
    intro isCurrent some_ d recorded isDerived
    rcases setStatus_eq state tenantId memoryId status with
      ⟨none_, -⟩ | ⟨⟨r, stored, isTurned⟩, turned⟩
    · obtain ⟨r, stored, isTurned⟩ := some_
      exact absurd isTurned (none_ r stored)
    · rw [← isNext, turned] at grounded
      apply stands_of_write linked _ _ stored (by simpa using isTurned) isCurrent grounded
        recorded isDerived
      · intro r
        rfl
      · intro r isSelected
        exact (live_iff.mp (live_of_turn isSelected).1).1
  | _ => trivial

end

theorem initial_linked : WellLinked {} where
  unique := by simp
  linked := by simp

theorem initial_grounded : Grounded {} := by
  intro d recorded
  cases recorded

theorem reachable_linked {actions : List Action}
    (reached : run step {} actions = some state) : WellLinked state := by
  apply run_invariant _ reached initial_linked
  intro before after action stepped linked
  exact (step_keeps stepped linked).1

/-- In a run from an empty store, every CURRENT memory is supported at every moment
exactly when every step is admitted. -/
theorem supported_iff_admitted {actions : List Action} {target : State}
    (reached : run step {} actions = some target) :
    (∀ first, first <+: actions → ∀ state, run step {} first = some state → Supported state) ↔
      Meets step Admitted {} actions := by
  constructor
  · intro supported
    have along :
        ∀ first, first <+: actions → ∀ state, run step {} first = some state →
          WellLinked state ∧ Grounded state := by
      intro first isFirst state isReached
      have linked := reachable_linked isReached
      exact ⟨linked, (supported_iff linked).mp (supported first isFirst state isReached)⟩
    apply meets_of_invariant_along _ reached along
    intro state next action stepped before after
    exact admitted_of_grounded stepped before.1 after.2
  · intro admitted first isFirst state isReached
    obtain ⟨later, rfl⟩ := isFirst
    have kept : WellLinked state ∧ Grounded state := by
      apply run_invariant_of_meets _ isReached admitted.of_append ⟨initial_linked, initial_grounded⟩
      intro before after action stepped isAdmitted inv
      have next := step_keeps stepped inv.1
      exact ⟨next.1, next.2 isAdmitted inv.2⟩
    exact (supported_iff kept.1).mpr kept.2

/-- A statement of a user. -/
def asserted (memoryId : String) (status : TemporalStatus) : CanonicalMemory where
  memoryId := memoryId
  tenantId := "ten"
  memoryType := .preference
  content := "likes tea"
  normalizedHash := ⟨"0c", rfl⟩
  temporal := { status, observedAt := ⟨0⟩ }
  evidence := [⟨.message, "msg_1"⟩]
  updatedAt := ⟨0⟩

def derivedFrom (source memoryId : String) (status : TemporalStatus) : CanonicalMemory :=
  { asserted memoryId status with
    evidence := [⟨.memory, source⟩]
    systemMetadata := { sourceRevisions := [(source, 1)] } }

/-- The direct part of support. -/
def Recorded (state : State) : Prop :=
  ∀ r ∈ state.memories, r.temporalStatus = .current →
    ∀ d ∈ state.dependencies, d.derivedId = r.memoryId → Stands state d
deriving Decidable

theorem recorded_of_supported (supported : Supported state) : Recorded state := by
  intro r stored isCurrent d recorded isDerived
  obtain ⟨s, sStored, isSource, sCurrent, sLive, sRevision, -⟩ :=
    supported.recorded r stored isCurrent d recorded isDerived
  exact ⟨s, sStored, isSource, sCurrent, sLive, sRevision⟩

/-- The forgetting sweep archives a source and then, over its retraction, the memory
derived from it, which is later restored. -/
theorem restored_outlives_source :
    ¬∀ actions state, run step {} actions = some state → Supported state := by
  intro always
  have recorded : ∀ actions state, run step {} actions = some state → Recorded state :=
    fun actions state reached => recorded_of_supported (always actions state reached)
  revert recorded
  apply not_always_of_run
    [.add (asserted "mem_1" .current) ["user:u"] ⟨0⟩,
      .add (derivedFrom "mem_1" "mem_2" .current) ["user:u"] ⟨0⟩,
      .update (asserted "mem_1" .archived),
      .update (derivedFrom "mem_1" "mem_2" .archived),
      .update (derivedFrom "mem_1" "mem_2" .current)]
  decide +kernel

def archiveRun : List Action :=
  [.add (asserted "mem_1" .current) ["user:u"] ⟨0⟩,
    .add (derivedFrom "mem_1" "mem_2" .current) ["user:u"] ⟨0⟩,
    .update (asserted "mem_1" .archived),
    .setStatus "ten" "mem_1" .current,
    .forget "ten" "mem_2" ⟨1⟩]

theorem supported_along_archive :
    (∃ state, run step {} archiveRun = some state ∧ state.memories.length = 2) ∧
      ∀ first, first <+: archiveRun → ∀ state, run step {} first = some state →
        Supported state := by
  have rows : (run step {} archiveRun).map (fun state => state.memories.length) = some 2 := by
    decide +kernel
  obtain ⟨state, reached, count⟩ := Option.map_eq_some_iff.mp rows
  exact ⟨⟨state, reached, count⟩, (supported_iff_admitted reached).mpr (by decide +kernel)⟩

/-- In every run, what a memory is derived from, however indirectly, is an older memory of its
tenant, and whoever reads the memory may read it.  So no memory is derived from itself. -/
theorem derivations_are_founded {actions : List Action} {state : State}
    (reached : run step {} actions = some state) {derived source : String}
    (path : Relation.TransGen state.DerivedFrom derived source) :
    (state.memories.map MemoryRow.memoryId).idxOf source <
        (state.memories.map MemoryRow.memoryId).idxOf derived ∧
      ∃ r ∈ state.memories, ∃ s ∈ state.memories, r.memoryId = derived ∧
        s.memoryId = source ∧ s.tenantId = r.tenantId ∧ r.visibilityKeys ⊆ s.visibilityKeys := by
  have linked := reachable_linked reached
  induction path with
  | single link =>
    obtain ⟨d, recorded, rfl, rfl⟩ := link
    refine ⟨idxOf_lt linked recorded, ?_⟩
    obtain ⟨r, rStored, s, sStored, isDerived, isSource, tenant, sTenant, keys⟩ :=
      linked.rows recorded
    exact ⟨r, rStored, s, sStored, isDerived, isSource, by rw [sTenant, tenant], keys⟩
  | tail _ link ih =>
    obtain ⟨isOlder, r, rStored, middle, mStored, isDerived, isMiddle, mTenant, mKeys⟩ := ih
    obtain ⟨d, recorded, dDerived, rfl⟩ := link
    have mRow := isMiddle.trans dDerived.symm
    obtain ⟨-, -, s, sStored, -, isSource, -⟩ := linked.rows recorded
    refine ⟨Nat.lt_trans ?_ isOlder, r, rStored, s, sStored, isDerived, isSource, ?_, ?_⟩
    · rw [← dDerived]
      exact idxOf_lt linked recorded
    · rw [linked.source_tenant recorded sStored isSource, ← mTenant,
        linked.derived_tenant recorded mStored mRow]
    · exact List.Subset.trans mKeys (linked.keys recorded mStored sStored mRow isSource)

theorem archived_source_is_older :
    ∃ state, run step {} archiveRun = some state ∧
      (state.memories.map MemoryRow.memoryId).idxOf "mem_1" <
        (state.memories.map MemoryRow.memoryId).idxOf "mem_2" :=
  ⟨_, rfl, (@derivations_are_founded archiveRun _ rfl _ _
    (.single ⟨_, List.mem_cons_self, rfl, rfl⟩)).1⟩

end MemoryService.Memory
