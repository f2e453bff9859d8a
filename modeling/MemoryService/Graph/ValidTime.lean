import MemoryService.Graph.Forgotten

/-!
# When a value held, in the graph and in the memories

A closed memory holds up to the time of what replaced it; its relations are closed at the time
that a job runs.
-/

namespace MemoryService.Graph

open Domain Foundation Memory Statements Option

def IsClosed (m : CanonicalMemory) : Prop :=
  m.deletedAt = none ∧ m.temporal.status ≠ .current ∧ m.temporal.validTo ≠ none
deriving Decidable

def Agrees (m : CanonicalMemory) (r : Relation) : Prop :=
  ∀ asOf, passesTime r (some asOf) none = true ↔ m.temporal.span.Holds asOf

/-- Two values of one slot. -/
def SameSlot (r other : Relation) : Prop :=
  r.subjectId = other.subjectId ∧ r.predicate = other.predicate ∧ r.predicate ≠ "mentions"

def SettledRow (state : State) (m : CanonicalMemory) : Prop :=
  row m.memoryId state.memories = some m ∧ Settled m.tenantId m.memoryId state.queued

/-- Once its jobs have run a closed memory's relations hold when it held, and at no moment together
with those of what replaced it. -/
structure InStep (state : State) : Prop where
  agrees : ∀ m, SettledRow state m → IsClosed m →
    ∀ r ∈ sourced m.tenantId m.memoryId state.tables.relations, Agrees m r
  apart : ∀ old new, SettledRow state old → IsClosed old → SettledRow state new →
    old.temporal.supersededBy = some new.memoryId →
      ∀ r ∈ sourced old.tenantId old.memoryId state.tables.relations,
        ∀ other ∈ sourced new.tenantId new.memoryId state.tables.relations,
          SameSlot r other → ∀ asOf,
            ¬(passesTime r (some asOf) none = true ∧ passesTime other (some asOf) none = true)

def Relation.landing (now : Instant) (r : Relation) : Span Instant :=
  if r.status = .current then { r.span with stop := some now } else r.span

/-- Settled by this job, the relation has the memory's interval, or neither holds at all. -/
def Lands (now : Instant) (m : CanonicalMemory) (r : Relation) : Prop :=
  r.landing now = m.temporal.span ∨ (r.landing now).Void ∧ m.temporal.span.Void

/-- What replaced the memory starts where the memory ends, or later, and so do the relations
that the graph has of it. -/
def StartsAfter (relations : List Relation) (old new : CanonicalMemory) : Prop :=
  ∀ stop ∈ old.temporal.validTo,
    (∃ start ∈ new.temporal.validFrom, stop ≤ start) ∧
      ∀ r ∈ sourced new.tenantId new.memoryId relations, r.predicate ≠ "mentions" →
        ∃ start ∈ r.validFrom, stop ≤ start

/-- A job leaves each closed memory that it names with relations of the memory's interval. -/
def Landing (state : State) : Action → Prop
  | .commit _ _ => True
  | .enrich job now _ =>
    (∀ m ∈ state.memories, job.names m.tenantId m.memoryId = true → IsClosed m →
      ∀ r ∈ sourced m.tenantId m.memoryId state.tables.relations, Lands now m r) ∧
    ∀ old ∈ state.memories, IsClosed old → ∀ new ∈ state.memories,
      old.temporal.supersededBy = some new.memoryId →
      job.names old.tenantId old.memoryId = true ∨ job.names new.tenantId new.memoryId = true →
      StartsAfter state.tables.relations old new

variable {stop asOf : Instant} {change : Change} {job : Job} {actions : List Action}
  {state : State}

section

variable {normalizedHash : String → Digest} {rules : Rules} {state next : State}
  {m old new : CanonicalMemory} {r other : Relation} {now : Instant}

theorem settled_span : (r.settled now).span = r.landing now := by
  rw [Relation.settled, Relation.landing]
  split <;> rfl

theorem agrees_of_lands (lands : Lands now m r)
    (known : (r.settled now).status = .superseded) : Agrees m (r.settled now) := by
  intro asOf
  rw [passes_asOf_iff, known, settled_span]
  simp only [ne_eq, reduceCtorEq, not_false_eq_true, and_self, true_and]
  rcases lands with same | ⟨relationVoid, memoryVoid⟩
  · rw [same]
  · exact iff_of_false relationVoid.not_holds memoryVoid.not_holds

private theorem Agrees.before (agrees : Agrees m r)
    (ends : m.temporal.validTo = some stop) (passes : passesTime r (some asOf) none = true) :
    asOf < stop :=
  ((agrees asOf).mp passes).2 stop ends

theorem not_before {start : Instant} (starts : r.validFrom = some start)
    (late : stop ≤ start) (passes : passesTime r (some asOf) none = true) : stop ≤ asOf :=
  late.trans ((passes_asOf_iff.mp passes).2.1 start starts)

theorem settledRow_of_commit {rows' : List CanonicalMemory}
    (applied : change.apply normalizedHash state.memories = some rows')
    (covered : change.covered normalizedHash state.memories job = true)
    (isSettled : SettledRow { state with memories := rows', queued := state.queued ++ [job] } m) :
    SettledRow state m := by
  obtain ⟨isRow, settled⟩ := isSettled
  have notNamed := settled job (by simp)
  exact ⟨(row_apply applied covered notNamed).mp isRow,
    fun other isQueued => settled other (List.mem_append_left _ isQueued)⟩

theorem inStep_commit (inStep : InStep state)
    (stepped : step normalizedHash rules state (.commit change job) = some next) :
    InStep next := by
  obtain ⟨rows', covered, applied, rfl⟩ := commit_cases stepped
  constructor
  · intro m isSettled isClosed
    exact inStep.agrees m (settledRow_of_commit applied covered isSettled) isClosed
  · intro old new oldSettled isClosed newSettled
    exact inStep.apart old new (settledRow_of_commit applied covered oldSettled) isClosed
      (settledRow_of_commit applied covered newSettled)

variable {job : Job} {read : CanonicalMemory → Reading}

theorem settledRow_of_job {tables : Tables}
    (isSettled : SettledRow { state with tables, queued := state.queued.erase job } m)
    (notNamed : job.names m.tenantId m.memoryId = false) : SettledRow state m := by
  refine ⟨isSettled.1, fun other isQueued => ?_⟩
  by_cases same : other = job
  · rw [same]
    exact notNamed
  · exact isSettled.2 other ((List.mem_erase_of_ne same).mpr isQueued)

section

variable (isRow : row m.memoryId state.memories = some m)
  (member : r ∈ sourced m.tenantId m.memoryId (enrichMemories rules read now job.tenantId
    job.memoryIds state.memories state.tables).relations)
include isRow member

theorem sourced_of_closed (isClosed : IsClosed m)
    (named : job.names m.tenantId m.memoryId = true) :
    ∃ before ∈ sourced m.tenantId m.memoryId state.tables.relations, r = before.settled now := by
  obtain ⟨sameTenant, inIds⟩ := job.names_iff.mp named
  rw [← sameTenant, sourced_job_closes inIds] at member
  · obtain ⟨before, isBefore, rfl⟩ := List.mem_map.mp member
    rw [sameTenant] at isBefore
    exact ⟨before, isBefore, rfl⟩
  · intro x got
    rw [Statements.get, isRow, filter_eq_some_iff] at got
    rw [← some.inj got.1]
    simp [closes, isClosed.2.1]

theorem starts_after_job (memoryStarts : ∃ start ∈ m.temporal.validFrom, stop ≤ start)
    (starts : ∀ r ∈ sourced m.tenantId m.memoryId state.tables.relations,
      r.predicate ≠ "mentions" → ∃ start ∈ r.validFrom, stop ≤ start)
    (isValue : r.predicate ≠ "mentions") : ∃ start ∈ r.validFrom, stop ≤ start := by
  by_cases named : job.names m.tenantId m.memoryId = true
  · obtain ⟨sameTenant, inIds⟩ := job.names_iff.mp named
    rw [← sameTenant] at member
    have ofSettled : ∀ before ∈ sourced job.tenantId m.memoryId state.tables.relations,
        r = before.settled now → ∃ start ∈ r.validFrom, stop ≤ start := by
      intro before isBefore isSettled
      rw [sameTenant] at isBefore
      have sameStart : r.validFrom = before.validFrom := by
        rw [isSettled, Relation.settled]
        split <;> rfl
      have samePredicate : r.predicate = before.predicate := by
        rw [isSettled, Relation.settled]
        split <;> rfl
      rw [sameStart]
      exact starts before isBefore (samePredicate ▸ isValue)
    by_cases closes_ : ∀ x, Statements.get now job.tenantId m.memoryId state.memories = some x →
        closes x = true
    · rw [sourced_job_closes inIds closes_] at member
      obtain ⟨before, isBefore, rfl⟩ := List.mem_map.mp member
      exact ofSettled before isBefore rfl
    · obtain ⟨x, got, isOpen⟩ : ∃ x,
          Statements.get now job.tenantId m.memoryId state.memories = some x ∧
            closes x = false := by
        simpa using closes_
      have isMemory : x = m := by
        have isRow' := (filter_eq_some_iff.mp got).1
        rw [isRow] at isRow'
        exact (some.inj isRow').symm
      rcases sourced_job_writes got isOpen inIds member with ⟨isBefore, -⟩ | rewritten
      · rw [sameTenant] at isBefore
        exact starts r isBefore isValue
      · rcases rewritten.starts with ⟨before, isBefore, sameId, sameStart⟩ |
          ⟨e, isRead, sameId, sameStart⟩
        · rw [sameTenant] at isBefore
          rw [← sameStart]
          refine starts before isBefore ?_
          rw [Relation.predicate, sameId]
          exact isValue
        · rw [← sameStart]
          rw [isMemory] at isRead
          rcases (enrichMemory_readFrom e isRead).times with isDated | ⟨isMention, -⟩
          · have memoryStart : e.validFrom = m.temporal.validFrom := congrArg Span.start isDated
            rw [memoryStart]
            exact memoryStarts
          · rw [Relation.predicate, sameId] at isMention
            exact absurd isMention isValue
  · rw [sourced_of_unnamed named] at member
    exact starts r member isValue

end

theorem inStep_enrich (inStep : InStep state)
    (shut : ∀ r ∈ state.tables.relations, r.memoryId ≠ none →
      r.status = .current ∨ r.status = .superseded)
    (landing : Landing state (.enrich job now read))
    (stepped : step normalizedHash rules state (.enrich job now read) = some next) :
    InStep next := by
  obtain rfl := enrich_eq stepped
  have agrees : ∀ m, SettledRow { state with
      tables := enrichMemories rules read now job.tenantId job.memoryIds state.memories
        state.tables
      queued := state.queued.erase job } m → IsClosed m →
      ∀ r ∈ sourced m.tenantId m.memoryId (enrichMemories rules read now job.tenantId
        job.memoryIds state.memories state.tables).relations, Agrees m r := by
    intro m isSettled isClosed r member
    have isRow : row m.memoryId state.memories = some m := isSettled.1
    by_cases named : job.names m.tenantId m.memoryId = true
    · obtain ⟨before, isBefore, rfl⟩ := sourced_of_closed isRow member isClosed named
      have inRows := List.mem_of_find?_eq_some isRow
      refine agrees_of_lands (landing.1 m inRows named isClosed before isBefore) ?_
      obtain ⟨inTables, -, isSource⟩ := mem_sourced_iff.mp isBefore
      rw [Relation.settled]
      split
      case isTrue => rfl
      case isFalse notCurrent =>
        exact (shut before inTables (by simp [isSource])).resolve_left notCurrent
    · rw [sourced_of_unnamed named] at member
      have wasSettled := settledRow_of_job isSettled (Bool.eq_false_iff.mpr named)
      exact inStep.agrees m wasSettled isClosed r member
  refine ⟨agrees, ?_⟩
  intro old new oldSettled isClosed newSettled replaced r member other otherMember slot asOf both
  have newRow : row new.memoryId state.memories = some new := newSettled.1
  by_cases named : job.names old.tenantId old.memoryId = true ∨
      job.names new.tenantId new.memoryId = true
  · obtain ⟨stop, ends⟩ := ne_none_iff_exists'.mp isClosed.2.2
    have behind := landing.2 old (List.mem_of_find?_eq_some oldSettled.1) isClosed new
      (List.mem_of_find?_eq_some newRow) replaced named stop ends
    have isValue : other.predicate ≠ "mentions" := by
      rw [← slot.2.1]
      exact slot.2.2
    obtain ⟨start, starts, late⟩ := starts_after_job newRow otherMember behind.1 behind.2 isValue
    have ended := (agrees old oldSettled isClosed r member).before ends both.1
    exact absurd (not_before starts late both.2) (not_le_of_gt ended)
  · rw [not_or] at named
    rw [sourced_of_unnamed named.1] at member
    rw [sourced_of_unnamed named.2] at otherMember
    exact inStep.apart old new (settledRow_of_job oldSettled (Bool.eq_false_iff.mpr named.1))
      isClosed (settledRow_of_job newSettled (Bool.eq_false_iff.mpr named.2)) replaced r member
      other otherMember slot asOf both

end

theorem shut_of_reached (shut : ∀ tenantId memoryId, Shut tenantId memoryId actions state) :
    ∀ r ∈ state.tables.relations, r.memoryId ≠ none →
      r.status = .current ∨ r.status = .superseded := by
  intro r member fromMemory
  obtain ⟨memoryId, isSource⟩ := ne_none_iff_exists'.mp fromMemory
  have isSourced := mem_sourced_iff.mpr ⟨member, rfl, isSource⟩
  refine (shut r.tenantId memoryId r isSourced).imp_right fun isClosed => ?_
  obtain ⟨closed, -, status, -⟩ := isClosed
  exact status

/-- What holds between the steps of a run whose jobs land. -/
private structure Kept (actions : List Action) (state : State) : Prop where
  inStep : InStep state
  shut : ∀ tenantId memoryId, Shut tenantId memoryId actions state

theorem kept_step {normalizedHash : String → Digest} {rules : Rules}
    {next : State} {action : Action}
    (stepped : step normalizedHash rules state action = some next)
    (admitted : action ∈ actions ∧ Landing state action) (kept : Kept actions state) :
    Kept actions next := by
  refine ⟨?_, fun tenantId memoryId => shut_step admitted.1 stepped (kept.shut tenantId memoryId)⟩
  cases action with
  | commit change job => exact inStep_commit kept.inStep stepped
  | enrich job now read =>
    exact inStep_enrich kept.inStep (shut_of_reached kept.shut) admitted.2 stepped

/-- The graph and the memories are in step in every run whose jobs land. -/
theorem graph_in_step (normalizedHash : String → Digest) (rules : Rules)
    (actions : List Action) (state : State)
    (reached : run (step normalizedHash rules) {} actions = some state)
    (landing : Meets (step normalizedHash rules) Landing {} actions) : InStep state := by
  have start : Kept actions {} := by
    refine ⟨⟨fun m isSettled => ?_, fun old new isSettled => ?_⟩,
      fun tenantId memoryId r member => ?_⟩
    · cases isSettled.1
    · cases isSettled.1
    · cases member
  have isAction : Meets (step normalizedHash rules) (fun _ action => action ∈ actions) {}
      actions := meets_of_forall fun action isAction _ => isAction
  exact (run_invariant_of_meets kept_step reached (isAction.and landing) start).inStep

instance decidableVoid (span : Span Instant) : Decidable span.Void :=
  decidable_of_iff (span.start.any fun start => span.stop.any fun stop => stop ≤ start) (by
    simp [Span.Void, any_eq_true])

instance decidableLands (now : Instant) (m : CanonicalMemory) (r : Relation) :
    Decidable (Lands now m r) :=
  inferInstanceAs (Decidable (_ ∨ _ ∧ _))

instance decidableStartsAfter (relations : List Relation) (old new : CanonicalMemory) :
    Decidable (StartsAfter relations old new) :=
  decidable_of_iff
    (old.temporal.validTo.all fun stop =>
      new.temporal.validFrom.any (fun start => stop ≤ start) &&
        (sourced new.tenantId new.memoryId relations).all fun r =>
          r.predicate = "mentions" || r.validFrom.any fun start => stop ≤ start)
    (by
      simp only [StartsAfter, all_eq_true, Bool.and_eq_true, any_eq_true,
        List.all_eq_true, Bool.or_eq_true, decide_eq_true_eq, mem_def, or_iff_not_imp_left,
        ne_eq])

instance (state : State) (action) : Decidable (Landing state action) := by
  unfold Landing
  split <;> infer_instance

def newEmployment : CanonicalMemory :=
  { employment with
    memoryId := "mem_2"
    content := "Ana works at Initech"
    normalizedHash := ⟨"3b", by decide⟩
    object := some "initech"
    temporal := { observedAt := ⟨30⟩ }
    updatedAt := ⟨30⟩ }

def replaced : Job := ⟨"acme", ["mem_1", "mem_2"]⟩

def replacedAt (now : Instant) : List Action :=
  [.commit (.add employment) indexed, .enrich indexed ⟨20⟩ silent,
    .commit (.supersede (.byNewValue "acme" employment newEmployment) ⟨30⟩) replaced,
    .enrich replaced now silent]

def returnedAsOf (asOf : Instant) (state : State) : Bool × Nat × Nat :=
  ((row "mem_1" state.memories).any fun m =>
      IsClosed m ∧ m.temporal.validTo = some ⟨30⟩ ∧ m.tenantId = "acme" ∧ state.queued = [],
    (sourced "acme" "mem_1" state.tables.relations).countP fun r => passesTime r (some asOf) none,
    (sourced "acme" "mem_2" state.tables.relations).countP fun r => passesTime r (some asOf) none)

theorem late_job_shows_both :
    ¬∀ (normalizedHash : String → Digest) (rules : Rules) (actions : List Action)
      (state : State), run (step normalizedHash rules) {} actions = some state → InStep state := by
  intro always
  have ends : (run (step sameHash plainRules) {} (replacedAt ⟨50⟩)).map (returnedAsOf ⟨40⟩) =
      some (true, 1, 1) := by
    decide +kernel
  obtain ⟨state, reached, counts⟩ := map_eq_some_iff.mp ends
  have inStep := always sameHash plainRules (replacedAt ⟨50⟩) state reached
  obtain ⟨closed, shown, -⟩ : _ ∧ _ ∧ _ := by
    simpa only [returnedAsOf, Prod.mk.injEq] using counts
  simp only [any_eq_true, decide_eq_true_eq] at closed
  obtain ⟨m, isRow, isClosed, stop, sameTenant, noneQueued⟩ := closed
  obtain ⟨r, member, passes⟩ := List.countP_pos_iff.mp (Nat.one_pos.trans_eq shown.symm)
  have sameId : m.memoryId = "mem_1" := row_memoryId isRow
  have isSettled : SettledRow state m := by
    refine ⟨by rw [sameId]; exact isRow, ?_⟩
    rw [noneQueued]
    exact fun job isQueued => by cases isQueued
  rw [← sameTenant, ← sameId] at member
  have holds := (inStep.agrees m isSettled isClosed r member ⟨40⟩).mp passes
  exact absurd (holds.2 ⟨30⟩ stop) (by decide)

theorem graph_in_step_when_the_job_lands :
    ∃ state, run (step sameHash plainRules) {} (replacedAt ⟨30⟩) = some state ∧
      returnedAsOf ⟨40⟩ state = (true, 0, 1) ∧ InStep state :=
  exists_run_showing (by decide +kernel) fun state reached =>
    graph_in_step sameHash plainRules (replacedAt ⟨30⟩) state reached (by decide +kernel)

end MemoryService.Graph
