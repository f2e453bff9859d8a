import MemoryService.Memory.SlotValues

/-!
# When a slot keeps one current value

A slot keeps one value as long as a new value finds the old one among the candidates and all that
holds the old one are its copies.
-/

namespace MemoryService.Memory.SlotValues

open Domain Foundation Consolidation Replacement List Option Statements

def rivals (c : Slot × String) (rows : List CanonicalMemory) : List CanonicalMemory :=
  rows.filter fun r => (held r).any fun d => d.1 = c.1 ∧ d.2 ≠ c.2

def compared (candidate : MemoryCandidate) (pair : SubjectPair) (mem : CanonicalMemory) : Bool :=
  passedOver candidate mem = false ∧ verbatim candidate mem = false ∧
    sameSlot candidate pair mem = true

section Guard

variable (reader : Reader) (settings : MemoryIntelligenceSettings)

/-- The new value finds the old one: one of the memories that hold it is compared, the
others are its copies, and no other memory of the writer is taken for it. -/
def FindsOld (candidate : MemoryCandidate) (ctx : MemoryExecutionContext) (c : Slot × String)
    (rows : List CanonicalMemory) : Prop :=
  let existing := candidates reader settings candidate ctx rows
  let compares := fun mem =>
    compared candidate (reader.pairs candidate (ownFirst ctx existing) mem) mem
  (∃ r ∈ existing, r ∈ rivals c rows ∧ compares r = true ∧ bothValued reader candidate r = true) ∧
    (∀ r ∈ rivals c rows, ∀ r' ∈ rivals c rows,
      r' = r ∨ isTwin ctx.tenantId.text r true r' = true) ∧
    ∀ own ∈ existing, own.ownerPrincipal = ctx.principalId → compares own = true →
      own ∈ rivals c rows ∨ sameValue reader candidate own = true
deriving Decidable

def reopened (tenantId : String) (ids : List String) (r : CanonicalMemory) : Bool :=
  isReinstated tenantId ids r ∧ reopens ids r

def ReopensAlike (tenantId : String) (ids : List String) (standing : CanonicalMemory → Bool)
    (rows : List CanonicalMemory) : Prop :=
  ∀ r ∈ rows, standing r = true → reopened tenantId ids r = true →
    ∀ other ∈ rows, standing other = true →
      current other = true ∨ reopened tenantId ids other = true →
        ∀ c ∈ value r, ∀ d ∈ value other, d.1 = c.1 → d.2 = c.2
deriving Decidable

/-- A new value finds the old one, and nothing comes back to a slot with another value. -/
def Admitted (state : State) : Action → Prop
  | .write candidate ctx memoryId now admitted =>
    candidate.lifetime ≠ .ephemeral → admitted = true →
      ∀ c ∈ held (buildMemory reader candidate ctx memoryId now),
        rivals c state.rows ≠ [] → FindsOld reader settings candidate ctx c state.rows
  | .restore tenantId memoryId now =>
    ∀ r ∈ Statements.get now tenantId memoryId state.rows,
      r.temporal.status = .archived → ∀ c ∈ value r, rivals c state.rows = []
  | .forget tenantId memoryId now =>
    ∀ ids ∈ gone now tenantId memoryId state.rows,
      ReopensAlike tenantId ids (stays tenantId ids) state.rows
  | .reinstate tenantId ids _ => ReopensAlike tenantId ids (fun r => r.deletedAt = none) state.rows
  | .supersede .. => True
  | .sweep .. => True
  | .replace .. => True

end Guard

instance decidableOneValue (rows : List CanonicalMemory) : Decidable (OneValue rows) :=
  decidable_of_iff
    (∀ c ∈ rows.filterMap held, ∀ d ∈ rows.filterMap held, c.1 = d.1 → c.2 = d.2) <| by
    constructor
    · intro alike c isHeld d isHeld' sameSlot
      exact Prod.ext sameSlot (alike c isHeld d isHeld' sameSlot)
    · intro one c isHeld d isHeld' sameSlot
      exact congrArg Prod.snd (one isHeld isHeld' sameSlot)

instance (reader : Reader) (settings : MemoryIntelligenceSettings) (state) (action) :
    Decidable (Admitted reader settings state action) := by
  unfold Admitted
  split <;> infer_instance

variable {closings : List Closing} {d : Slot × String} {now : Instant} {rows : List CanonicalMemory}

section Rows

variable {rows rows' : List CanonicalMemory} {memory new r x : CanonicalMemory}
  {c : Slot × String}

theorem mem_held : c ∈ rows.filterMap held ↔ ∃ r ∈ rows, held r = some c := mem_filterMap

theorem held_eq_some : held r = some c ↔ current r = true ∧ value r = some c := by
  rw [held]
  split
  case isTrue isCurrent => simp [isCurrent]
  case isFalse isOther => simp [isOther]

theorem held_of_status (isOther : r.temporal.status ≠ .current) : held r = none := by
  rw [held, if_neg]
  simp [current, isOther]

theorem OneValue.mono (one : OneValue rows)
    (fewer : ∀ c ∈ rows'.filterMap held, c ∈ rows.filterMap held) : OneValue rows' :=
  Set.InjOn.mono fewer one

theorem OneValue.add (one : OneValue rows)
    (more : ∀ c ∈ rows'.filterMap held, c ∈ rows.filterMap held ∨ held new = some c)
    (alike : ∀ c ∈ rows'.filterMap held, ∀ d, held new = some d → c.1 = d.1 → c.2 = d.2) :
    OneValue rows' := by
  intro c isHeld d isHeld' sameSlot
  rcases more c isHeld with isOld | isNew
  · rcases more d isHeld' with isOld' | isNew'
    · exact one isOld isOld' sameSlot
    · exact Prod.ext sameSlot (alike c isHeld d isNew' sameSlot)
  · exact Prod.ext sameSlot (alike d isHeld' c isNew sameSlot.symm).symm

/-- A row that is written keeps its slot and its value, and whether it is current. -/
structure KeepsSlot (memory r : CanonicalMemory) : Prop where
  memoryType : memory.memoryType = r.memoryType
  subject : memory.subject = r.subject
  predicate : memory.predicate = r.predicate
  object : memory.object = r.object
  status : memory.temporal.status = r.temporal.status

theorem held_written (keeps : KeepsSlot memory r) :
    held (written memory r) = held r := by
  obtain ⟨memoryType, subject, predicate, object, status⟩ := keeps
  have sameStatus : current (written memory r) = current r := by
    rw [current, current, written, status]
  have sameValue : value (written memory r) = value r := by
    rw [value, value, written, memoryType, subject, predicate, object]
  rw [held, held, sameStatus, sameValue]

theorem mem_update_cases (member : x ∈ Statements.update memory rows) :
    (∃ r ∈ rows, r.memoryId = memory.memoryId ∧ r.tenantId = memory.tenantId ∧
        x = written memory r) ∨
      x ∈ rows ∧ ¬(x.memoryId = memory.memoryId ∧ x.tenantId = memory.tenantId) := by
  rcases mem_updateWhere_cases member with ⟨r, stored, selected, rfl⟩ | ⟨stored, notSelected⟩
  · rw [decide_eq_true_eq] at selected
    exact .inl ⟨r, stored, selected.1, selected.2, rfl⟩
  · exact .inr ⟨stored, of_decide_eq_false notSelected⟩

section

variable (unique : (rows.map CanonicalMemory.memoryId).Nodup)
include unique

theorem held_update_of (stored : r ∈ rows)
    (sameId : memory.memoryId = r.memoryId)
    (fewer : ∀ c, held (written memory r) = some c → held r = some c) :
    ∀ c ∈ (Statements.update memory rows).filterMap held, c ∈ rows.filterMap held := by
  intro c isHeld
  obtain ⟨x, member, holds⟩ := mem_held.mp isHeld
  rcases mem_update_cases member with ⟨old, isOld, oldId, -, rfl⟩ | ⟨isOld, -⟩
  · have same : old = r := inj_on_of_nodup_map unique isOld stored (oldId.trans sameId)
    rw [same] at holds
    exact mem_held.mpr ⟨r, stored, fewer c holds⟩
  · exact mem_held.mpr ⟨x, isOld, holds⟩

theorem held_update (stored : r ∈ rows)
    (sameId : memory.memoryId = r.memoryId) (keeps : KeepsSlot memory r) :
    ∀ c ∈ (Statements.update memory rows).filterMap held, c ∈ rows.filterMap held := by
  apply held_update_of unique stored sameId
  intro c holds
  rw [held_written keeps] at holds
  exact holds

end

theorem ids_closeIn :
    (closeIn closings rows).map CanonicalMemory.memoryId = rows.map CanonicalMemory.memoryId := by
  induction closings generalizing rows with
  | nil => rfl
  | cons first later ih =>
    rw [closeIn, foldl_cons, ← closeIn, ih, ids_update]

theorem mem_closeIn (closed : ∀ closing ∈ closings, closing.closed.temporal.status ≠ .current)
    (member : x ∈ closeIn closings rows) (isCurrent : current x = true) :
    x ∈ rows ∧ ∀ closing ∈ closings,
      ¬(x.memoryId = closing.closed.memoryId ∧ x.tenantId = closing.closed.tenantId) := by
  induction closings generalizing rows with
  | nil => exact ⟨member, by simp⟩
  | cons first later ih =>
    rw [closeIn, foldl_cons, ← closeIn] at member
    obtain ⟨isUpdated, notLater⟩ := ih
      (fun closing isLater => closed closing (mem_cons_of_mem first isLater)) member
    rcases mem_update_cases isUpdated with ⟨r, -, -, -, rfl⟩ | ⟨stored, notFirst⟩
    · rw [current, decide_eq_true_eq] at isCurrent
      exact absurd isCurrent.2 (closed first mem_cons_self)
    · refine ⟨stored, ?_⟩
      intro closing isClosing
      rcases mem_cons.mp isClosing with isFirst | isLater
      · rw [isFirst]
        exact notFirst
      · exact notLater closing isLater

theorem held_add : c ∈ (Statements.add new rows).filterMap held ↔
    c ∈ rows.filterMap held ∨ held new = some c := by
  rw [mem_held, mem_held]
  simp only [Statements.add, mem_append, mem_singleton, or_and_right, exists_or, exists_eq_left]

theorem rivals_nil (none_ : rivals c rows = [])
    (isHeld : d ∈ rows.filterMap held) (sameSlot : d.1 = c.1) : d.2 = c.2 := by
  obtain ⟨r, stored, holds⟩ := mem_held.mp isHeld
  by_contra other
  have isRival : r ∈ rivals c rows := by
    rw [rivals, mem_filter, holds, any_some, decide_eq_true_eq]
    exact ⟨stored, sameSlot, other⟩
  rw [none_] at isRival
  cases isRival

theorem mem_rivals (stored : r ∈ rows) (holds : held r = some d)
    (sameSlot : d.1 = c.1) (other : d.2 ≠ c.2) : r ∈ rivals c rows := by
  rw [rivals, mem_filter, holds, any_some, decide_eq_true_eq]
  exact ⟨stored, sameSlot, other⟩

end Rows

section Write

variable {reader : Reader} {settings : MemoryIntelligenceSettings} {candidate : MemoryCandidate}
  {ctx : MemoryExecutionContext} {memoryId : String} {now : Instant}
  {rows existing : List CanonicalMemory} {target memory r : CanonicalMemory} {c : Slot × String}

theorem mem_candidates (member : r ∈ candidates reader settings candidate ctx rows) : r ∈ rows := by
  rw [candidates] at member
  simp only [mem_eraseDups] at member
  have fromWindow : ∀ list : List CanonicalMemory, r ∈ window settings list → r ∈ list := by
    intro list isIn
    rw [window] at isIn
    rcases mem_append.mp isIn with isReading | isTurn
    · exact mem_of_mem_filter (mem_newestFirst.mp (mem_of_mem_take isReading))
    · exact mem_of_mem_filter (mem_newestFirst.mp (mem_of_mem_take isTurn))
  rcases mem_append.mp member with isExact | isRecent
  · exact mem_of_mem_filter (mem_of_mem_filter (fromWindow _ isExact))
  · exact mem_of_mem_filter (fromWindow _ isRecent)

theorem held_superseding : held (Pipeline.superseding target memory) = held memory := rfl

theorem superseded_not_current :
    (Pipeline.superseded target memory now).temporal.status ≠ .current := by
  show TemporalStatus.superseded ≠ .current
  decide

theorem held_superseded : held (Pipeline.superseded target memory now) = none :=
  held_of_status superseded_not_current

theorem closeAll_not_current {twins : List CanonicalMemory} {closing : Closing}
    (isClosing : closing ∈ Pipeline.closeAll target memory twins now) :
    closing.closed.temporal.status ≠ .current := by
  rw [Pipeline.closeAll] at isClosing
  rcases mem_cons.mp isClosing with isFirst | isTwin
  · rw [isFirst]
    exact superseded_not_current
  · obtain ⟨twin, -, rfl⟩ := mem_map.mp isTwin
    exact superseded_not_current

theorem held_replace_late (unique : (rows.map CanonicalMemory.memoryId).Nodup)
    (stored : target ∈ rows)
    (fresh : memory.memoryId ∉ rows.map CanonicalMemory.memoryId)
    (late : memory.temporal.since < target.temporal.since) :
    ∀ c ∈ (replace ctx now target memory rows).filterMap held, c ∈ rows.filterMap held := by
  intro c isHeld
  rw [replace, if_pos late] at isHeld
  have unique' : ((Statements.add (Pipeline.superseded memory target now) rows).map
      CanonicalMemory.memoryId).Nodup := nodup_map_insert fresh unique
  have keeps : KeepsSlot (Pipeline.superseding memory target) target := ⟨rfl, rfl, rfl, rfl, rfl⟩
  have sameId : (Pipeline.superseding memory target).memoryId = target.memoryId := rfl
  have isOld := held_update unique' (mem_append_left _ stored) sameId keeps c isHeld
  rw [held_add, held_superseded] at isOld
  rcases isOld with isOld | isClosed
  · exact isOld
  · cases isClosed

theorem held_replace (inTime : ¬memory.temporal.since < target.temporal.since)
    (isHeld : c ∈ (replace ctx now target memory rows).filterMap held) :
    (∃ x ∈ rows, held x = some c ∧ x ≠ target ∧
        isTwin ctx.tenantId.text target true x = false) ∨
      held memory = some c := by
  rw [replace, if_neg inTime] at isHeld
  obtain ⟨x, member, holds⟩ := mem_held.mp isHeld
  obtain ⟨isKept, notClosed⟩ := mem_closeIn
    (fun closing isClosing => closeAll_not_current isClosing) member (held_eq_some.mp holds).1
  rcases mem_append.mp isKept with isOld | isNew
  · refine .inl ⟨x, isOld, holds, ?_, ?_⟩
    · intro same
      apply notClosed _ mem_cons_self
      rw [same]
      exact ⟨rfl, rfl⟩
    · apply Bool.eq_false_iff.mpr
      intro isTwin
      apply notClosed _ (mem_cons_of_mem _ (mem_map_of_mem (mem_filter.mpr ⟨isOld, isTwin⟩)))
      exact ⟨rfl, rfl⟩
  · rw [mem_singleton.mp isNew, held_superseding] at holds
    exact .inr holds

theorem held_reinforced (unique : (rows.map CanonicalMemory.memoryId).Nodup)
    (stored : target ∈ rows) (decision : DedupDecision) :
    ∀ c ∈ (Statements.update (reinforced reader candidate now decision target) rows).filterMap
      held, c ∈ rows.filterMap held := by
  have keeps : KeepsSlot (reinforced reader candidate now decision target) target :=
    ⟨rfl, rfl, rfl, rfl, rfl⟩
  have sameId : (reinforced reader candidate now decision target).memoryId = target.memoryId := rfl
  exact held_update unique stored sameId keeps

theorem held_apply {outcome : ConsolidationOutcome}
    (unique : (rows.map CanonicalMemory.memoryId).Nodup)
    (fresh : memoryId ∉ rows.map CanonicalMemory.memoryId)
    (from_ : ∀ m ∈ existing, m ∈ rows) :
    ∀ c ∈ (apply reader candidate ctx memoryId now outcome existing rows).filterMap held,
      c ∈ rows.filterMap held ∨ held (buildMemory reader candidate ctx memoryId now) = some c := by
  have replacing : ∀ target ∈ rows, ∀ c ∈ (replace ctx now target
      (buildMemory reader candidate ctx memoryId now) rows).filterMap held,
      c ∈ rows.filterMap held ∨ held (buildMemory reader candidate ctx memoryId now) = some c := by
    intro target stored c isHeld
    by_cases late : (buildMemory reader candidate ctx memoryId now).temporal.since <
        target.temporal.since
    · exact .inl (held_replace_late unique stored fresh late c isHeld)
    · rcases held_replace late isHeld with ⟨x, isOld, holds, -, -⟩ | isNew
      · exact .inl (mem_held.mpr ⟨x, isOld, holds⟩)
      · exact .inr isNew
  intro c isHeld
  simp only [apply] at isHeld
  split at isHeld
  case h_1 => exact held_add.mp isHeld
  case h_2 target _ found =>
    have stored := from_ target (mem_of_find?_eq_some found)
    exact .inl (held_reinforced unique stored .reinforce c isHeld)
  case h_3 target _ found =>
    have stored := from_ target (mem_of_find?_eq_some found)
    exact .inl (held_reinforced unique stored .merge c isHeld)
  case h_4 target _ found =>
    exact replacing target (from_ target (mem_of_find?_eq_some found)) c isHeld
  case h_5 target _ found =>
    exact replacing target (from_ target (mem_of_find?_eq_some found)) c isHeld
  case h_6 target _ found =>
    have stored := from_ target (mem_of_find?_eq_some found)
    have keeps : KeepsSlot { target with updatedAt := now } target := ⟨rfl, rfl, rfl, rfl, rfl⟩
    have sameId : { target with updatedAt := now }.memoryId = target.memoryId := rfl
    exact held_add.mp (held_update (nodup_map_insert fresh unique)
      (mem_append_left _ stored) sameId keeps c isHeld)
  case h_7 => exact .inl isHeld

theorem value_eq_some {m : CanonicalMemory} (isValue : value m = some c) :
    c.1.ownerPrincipal = m.ownerPrincipal ∧ isSingleValued m.predicate = true := by
  simp only [value, bind_eq_bind, bind_eq_some_iff] at isValue
  obtain ⟨subject, -, predicate, isPredicate, object, -, isValue⟩ := isValue
  obtain ⟨valued, isValue⟩ := ite_none_right_eq_some.mp isValue
  rw [← Option.some.inj isValue, isPredicate]
  exact ⟨rfl, valued.2.2⟩

theorem find_target (unique : (rows.map CanonicalMemory.memoryId).Nodup)
    (from_ : ∀ m ∈ existing, m ∈ rows) (member : target ∈ existing) (decision : DedupDecision) :
    (existing.find? fun m =>
      some m.memoryId = (ConsolidationOutcome.on decision target).targetMemoryId) =
        some target := by
  cases found : existing.find? fun m =>
      some m.memoryId = (ConsolidationOutcome.on decision target).targetMemoryId with
  | none =>
    rw [find?_eq_none] at found
    exact absurd (decide_eq_true rfl) (found target member)
  | some other =>
    have isTarget := find?_some found
    rw [decide_eq_true_eq] at isTarget
    have sameId : other.memoryId = target.memoryId := Option.some.inj isTarget
    rw [inj_on_of_nodup_map unique (from_ other (mem_of_find?_eq_some found))
      (from_ target member) sameId]

theorem rival_spec (isRival : r ∈ rivals c rows) :
    r ∈ rows ∧ r.ownerPrincipal = c.1.ownerPrincipal := by
  obtain ⟨stored, other⟩ := mem_filter.mp isRival
  cases holds : held r with
  | none => simp [holds] at other
  | some d =>
    rw [holds, any_some, decide_eq_true_eq] at other
    rw [← other.1, (value_eq_some (held_eq_some.mp holds).2).1]
    exact ⟨stored, rfl⟩

theorem OneValue.write_found (one : OneValue rows)
    (unique : (rows.map CanonicalMemory.memoryId).Nodup)
    (fresh : memoryId ∉ rows.map CanonicalMemory.memoryId)
    (isNew : held (buildMemory reader candidate ctx memoryId now) = some c)
    (found : FindsOld reader settings candidate ctx c rows) :
    OneValue (apply reader candidate ctx memoryId now
      (consolidate reader settings candidate ctx (candidates reader settings candidate ctx rows))
      (candidates reader settings candidate ctx rows) rows) := by
  have from_ : ∀ m ∈ candidates reader settings candidate ctx rows, m ∈ rows :=
    fun m member => mem_candidates member
  obtain ⟨newOwner, single⟩ := value_eq_some (held_eq_some.mp isNew).2
  obtain ⟨⟨r, isExisting, isRival, compares, valued⟩, copies, others⟩ := found
  simp only [compared, decide_eq_true_eq] at compares others
  have isOwn : r.ownerPrincipal = ctx.principalId := (rival_spec isRival).2.trans newOwner
  have isSettled := @settled_of_slot reader candidate ctx _ r compares.1 compares.2.1 compares.2.2
    valued single
  obtain ⟨own, isCandidate, ownsIt, decided⟩ := consolidate_own isExisting isOwn isSettled
  have stored := from_ own isCandidate
  rcases settled_own ownsIt decided with reinforces | ⟨supersedes, passed, literally, slot, differs⟩
  · rw [reinforces]
    have applied : apply reader candidate ctx memoryId now (.on .reinforce own)
        (candidates reader settings candidate ctx rows) rows =
        Statements.update (reinforced reader candidate now .reinforce own) rows := by
      simp only [apply, find_target unique from_ isCandidate]
      rfl
    rw [applied]
    exact one.mono (held_reinforced unique stored .reinforce)
  · have isOld : own ∈ rivals c rows := by
      rcases others own isCandidate ownsIt ⟨passed, literally, slot⟩ with isOld | equal
      · exact isOld
      · rw [differs] at equal
        cases equal
    rw [supersedes]
    have applied : apply reader candidate ctx memoryId now (.on .supersede own)
        (candidates reader settings candidate ctx rows) rows =
        replace ctx now own (buildMemory reader candidate ctx memoryId now) rows := by
      simp only [apply, find_target unique from_ isCandidate]
      rfl
    rw [applied]
    by_cases late : (buildMemory reader candidate ctx memoryId now).temporal.since <
        own.temporal.since
    · exact one.mono (held_replace_late unique stored fresh late)
    · apply one.add
      · intro d isHeld
        rcases held_replace late isHeld with ⟨x, isKept, holds, -, -⟩ | isValue
        · exact .inl (mem_held.mpr ⟨x, isKept, holds⟩)
        · exact .inr isValue
      · intro d isHeld e isValue sameSlot
        rw [isNew, Option.some.injEq] at isValue
        rw [← isValue] at sameSlot ⊢
        rcases held_replace late isHeld with ⟨x, isKept, holds, notOwn, notTwin⟩ | isSame
        · by_contra other
          rcases copies own isOld x (mem_rivals isKept holds sameSlot other) with same | isTwin
          · exact notOwn same
          · rw [notTwin] at isTwin
            cases isTwin
        · rw [isNew, Option.some.injEq] at isSame
          rw [isSame]

theorem OneValue.write {admitted : Bool} (one : OneValue rows)
    (unique : (rows.map CanonicalMemory.memoryId).Nodup)
    (fresh : memoryId ∉ rows.map CanonicalMemory.memoryId)
    (finds : candidate.lifetime ≠ .ephemeral → admitted = true →
      ∀ c ∈ held (buildMemory reader candidate ctx memoryId now),
        rivals c rows ≠ [] → FindsOld reader settings candidate ctx c rows) :
    OneValue (write reader settings candidate ctx memoryId now admitted rows) := by
  rw [SlotValues.write]
  split
  case isTrue _ => exact one
  case isFalse isStored =>
    rw [not_or, Bool.not_eq_false] at isStored
    simp only
    have from_ : ∀ m ∈ candidates reader settings candidate ctx rows, m ∈ rows :=
      fun m member => mem_candidates member
    have more := @held_apply reader candidate ctx memoryId now rows _
      (consolidate reader settings candidate ctx (candidates reader settings candidate ctx rows))
      unique fresh from_
    cases isNew : held (buildMemory reader candidate ctx memoryId now) with
    | none =>
      apply one.mono
      intro c isHeld
      rcases more c isHeld with isOld | isValue
      · exact isOld
      · rw [isNew] at isValue
        cases isValue
    | some c =>
      by_cases noRivals : rivals c rows = []
      · apply one.add more
        intro d isHeld e isValue sameSlot
        rw [isNew, Option.some.injEq] at isValue
        rw [← isValue] at sameSlot ⊢
        rcases more d isHeld with isOld | isSame
        · exact rivals_nil noRivals isOld sameSlot
        · rw [isNew, Option.some.injEq] at isSame
          rw [isSame]
      · exact one.write_found unique fresh isNew (finds isStored.1 isStored.2 c isNew noRivals)

end Write

section Steps

variable {reader : Reader} {now : Instant} {tenantId memoryId : String} {ids : List String}
  {rows rows' : List CanonicalMemory} {standing : CanonicalMemory → Bool}

section

variable (one : OneValue rows)
include one

theorem OneValue.supersede {ctx : MemoryExecutionContext} {oldId newId content reason : String}
    (superseded : supersede reader ctx oldId newId content reason now rows = some rows') :
    OneValue rows' ∧ rows'.map CanonicalMemory.memoryId =
      rows.map CanonicalMemory.memoryId ++ [newId] := by
  simp only [SlotValues.supersede, bind_eq_bind, bind_eq_some_iff] at superseded
  obtain ⟨old, -, closings, isRewrite, first, isFirst, isNext⟩ := superseded
  rw [← Option.some.inj isNext]
  have closes : (∀ closing ∈ closings, closing.closed.temporal.status ≠ .current) ∧
      first.replacement.object = none ∧ first.replacement.memoryId = newId := by
    simp only [rewrite] at isRewrite
    obtain ⟨-, isRewrite⟩ := ite_none_right_eq_some.mp isRewrite
    rw [← Option.some.inj isRewrite] at isFirst ⊢
    refine ⟨?_, ?_, ?_⟩
    · intro closing isClosing
      obtain ⟨plain, isPlain, rfl⟩ := mem_map.mp isClosing
      have closed := closeAll_not_current isPlain
      exact closed
    · rw [← Option.some.inj isFirst]
      rfl
    · rw [← Option.some.inj isFirst]
      rfl
  obtain ⟨closed, noObject, isId⟩ := closes
  constructor
  · apply one.mono
    intro c isHeld
    obtain ⟨x, member, holds⟩ := mem_held.mp isHeld
    obtain ⟨isKept, -⟩ := mem_closeIn closed member (held_eq_some.mp holds).1
    rcases mem_concat.mp isKept with isOld | rfl
    · exact mem_held.mpr ⟨x, isOld, holds⟩
    · have isValue := (held_eq_some.mp holds).2
      simp only [value, noObject, bind_eq_bind, bind_none, bind_eq_some_iff]
        at isValue
      obtain ⟨_, -, _, -, impossible⟩ := isValue
      cases impossible
  · rw [ids_closeIn, Statements.add, map_append, map_singleton, isId]

theorem OneValue.sweep : OneValue (sweep now ids rows) := by
  apply one.mono
  intro c isHeld
  obtain ⟨x, member, holds⟩ := mem_held.mp isHeld
  rcases mem_updateWhere_cases member with ⟨r, -, -, rfl⟩ | ⟨stored, -⟩
  · rw [held_of_status] at holds
    · cases holds
    · show TemporalStatus.archived ≠ .current
      decide
  · exact mem_held.mpr ⟨x, stored, holds⟩

theorem OneValue.restore (unique : (rows.map CanonicalMemory.memoryId).Nodup)
    (finds : ∀ r ∈ Statements.get now tenantId memoryId rows,
      r.temporal.status = .archived → ∀ c ∈ value r, rivals c rows = []) :
    OneValue (restore now tenantId memoryId rows) := by
  unfold SlotValues.restore
  cases found : Statements.get now tenantId memoryId rows with
  | none => exact one
  | some r =>
    simp only
    split
    case isFalse _ => exact one
    case isTrue isArchived =>
      have isRow := (filter_eq_some_iff.mp found).1
      have stored : r ∈ rows := mem_of_find?_eq_some isRow
      have sameValue : value (written (restored now r) r) = value r := rfl
      have more : ∀ c ∈ (Statements.update (restored now r) rows).filterMap held,
          c ∈ rows.filterMap held ∨ held (written (restored now r) r) = some c := by
        intro c isHeld
        obtain ⟨x, member, holds⟩ := mem_held.mp isHeld
        rcases mem_update_cases member with ⟨old, isOld, sameId, -, rfl⟩ | ⟨isOld, -⟩
        · rw [inj_on_of_nodup_map unique isOld stored sameId] at holds
          exact .inr holds
        · exact .inl (mem_held.mpr ⟨x, isOld, holds⟩)
      apply one.add more
      intro c isHeld d isNew sameSlot
      have isValue := (held_eq_some.mp isNew).2
      rw [sameValue] at isValue
      rcases more c isHeld with isOld | isSame
      · exact rivals_nil (finds r found isArchived d isValue) isOld sameSlot
      · rw [isNew, Option.some.injEq] at isSame
        rw [isSame]

theorem OneValue.of_reopens (alike : ReopensAlike tenantId ids standing rows)
    (from_ : ∀ c ∈ rows'.filterMap held, ∃ r ∈ rows, standing r = true ∧ value r = some c ∧
      (current r = true ∨ reopened tenantId ids r = true)) : OneValue rows' := by
  intro c isHeld d isHeld' sameSlot
  obtain ⟨r, stored, stands, isValue, wasOpen⟩ := from_ c isHeld
  obtain ⟨r', stored', stands', isValue', wasOpen'⟩ := from_ d isHeld'
  rcases wasOpen with isCurrent | isReopened
  · rcases wasOpen' with isCurrent' | isReopened'
    · exact one (mem_held.mpr ⟨r, stored, held_eq_some.mpr ⟨isCurrent, isValue⟩⟩)
        (mem_held.mpr ⟨r', stored', held_eq_some.mpr ⟨isCurrent', isValue'⟩⟩) sameSlot
    · exact Prod.ext sameSlot (alike r' stored' stands' isReopened' r stored stands
        (.inl isCurrent) d isValue' c isValue sameSlot)
  · exact Prod.ext sameSlot (alike r stored stands isReopened r' stored' stands' wasOpen' c isValue
      d isValue' sameSlot.symm).symm

end

theorem held_reinstated {r : CanonicalMemory} {c : Slot × String}
    (isMarked : isReinstated tenantId ids r = true)
    (holds : held (written (reinstated ids now r) r) = some c) :
    value r = some c ∧ (current r = true ∨ reopened tenantId ids r = true) := by
  have sameValue : value (written (reinstated ids now r) r) = value r := by
    rw [reinstated]
    split
    · rfl
    · rfl
  obtain ⟨isCurrent, isValue⟩ := held_eq_some.mp holds
  rw [sameValue] at isValue
  refine ⟨isValue, ?_⟩
  by_cases reopening : reopens ids r = true
  · exact .inr (decide_eq_true ⟨isMarked, reopening⟩)
  · apply Or.inl
    rw [reinstated, if_neg reopening] at isCurrent
    exact isCurrent

theorem OneValue.forget (one : OneValue rows)
    (alike : ∀ ids ∈ gone now tenantId memoryId rows,
      ReopensAlike tenantId ids (stays tenantId ids) rows)
    (forgot : Replacement.forget now tenantId memoryId rows = some rows') : OneValue rows' := by
  rcases forget_cases forgot with ⟨-, same⟩ | ⟨ids, isGone, isNext⟩
  · rw [same]
    exact one
  · apply one.of_reopens (alike ids isGone)
    intro c isHeld
    obtain ⟨x, member, holds⟩ := mem_held.mp isHeld
    have stands := (held_eq_some.mp holds).1
    rw [current, decide_eq_true_eq] at stands
    rw [isNext, mem_reinstate_iff stands.1] at member
    obtain ⟨r, stored, staying, isRow⟩ := member
    rw [← isRow] at holds
    refine ⟨r, stored, staying, ?_⟩
    split at holds
    case isTrue isMarked => exact held_reinstated isMarked holds
    case isFalse _ =>
      obtain ⟨isCurrent, isValue⟩ := held_eq_some.mp holds
      exact ⟨isValue, .inl isCurrent⟩

theorem OneValue.reinstate (one : OneValue rows)
    (alike : ReopensAlike tenantId ids (fun r => r.deletedAt = none) rows) :
    OneValue (reinstate now tenantId ids rows) := by
  apply one.of_reopens alike
  intro c isHeld
  obtain ⟨x, member, holds⟩ := mem_held.mp isHeld
  have stands := (held_eq_some.mp holds).1
  rw [current, decide_eq_true_eq] at stands
  rcases mem_updateWhere_cases member with ⟨r, stored, isMarked, rfl⟩ | ⟨stored, -⟩
  · exact ⟨r, stored, decide_eq_true stands.1, held_reinstated isMarked holds⟩
  · obtain ⟨isCurrent, isValue⟩ := held_eq_some.mp holds
    exact ⟨x, stored, decide_eq_true stands.1, isValue, .inl isCurrent⟩

theorem OneValue.marked {form unit : CanonicalMemory} {grade : Grade} (one : OneValue rows)
    (unique : (rows.map CanonicalMemory.memoryId).Nodup) (stored : form ∈ rows) :
    OneValue (Statements.update (Replacement.apply form unit grade now) rows) := by
  apply one.mono
  have sameId : (Replacement.apply form unit grade now).memoryId = form.memoryId := by
    cases grade <;> rfl
  apply held_update_of unique stored sameId
  intro c holds
  cases grade with
  | earlier => exact holds
  | superseded =>
    rw [held_of_status] at holds
    · cases holds
    · show TemporalStatus.superseded ≠ .current
      decide

end Steps

/-- Ids are unique, and a slot holds one current value. -/
structure Inv (state : State) : Prop where
  unique : (state.rows.map CanonicalMemory.memoryId).Nodup
  one : OneValue state.rows

section Runs

variable {reader : Reader} {settings : MemoryIntelligenceSettings} {state next : State}

section

variable (unique : (rows.map CanonicalMemory.memoryId).Nodup)
include unique

theorem apply_unique {candidate : MemoryCandidate} {ctx : MemoryExecutionContext}
    {memoryId : String} {outcome : ConsolidationOutcome}
    {existing : List CanonicalMemory}
    (fresh : memoryId ∉ rows.map CanonicalMemory.memoryId) :
    ((apply reader candidate ctx memoryId now outcome existing rows).map
      CanonicalMemory.memoryId).Nodup := by
  have added : ∀ memory : CanonicalMemory, memory.memoryId = memoryId →
      ((Statements.add memory rows).map CanonicalMemory.memoryId).Nodup := by
    intro memory isId
    exact nodup_map_insert (by rw [isId]; exact fresh) unique
  have replaced : ∀ target, ((replace ctx now target
      (buildMemory reader candidate ctx memoryId now) rows).map
        CanonicalMemory.memoryId).Nodup := by
    intro target
    rw [replace]
    split
    · rw [ids_update]
      exact added _ rfl
    · rw [ids_closeIn]
      exact added _ rfl
  simp only [apply]
  split
  · exact added _ rfl
  · rw [ids_update]
    exact unique
  · rw [ids_update]
    exact unique
  · exact replaced _
  · exact replaced _
  · rw [ids_update]
    exact added _ rfl
  · exact unique

theorem forget_unique {tenantId : String} {ids : List String}
    :
    ((reinstate now tenantId ids rows).map CanonicalMemory.memoryId).Nodup := by
  apply nodup_map_updateWhere _ unique
  intro r
  rw [written, reinstated]
  split
  · rfl
  · rfl

end

theorem Inv.step {action : Action} (inv : Inv state)
    (stepped : SlotValues.step reader settings state action = some next)
    (admitted : Admitted reader settings state action) : Inv next := by
  cases action with
  | write candidate ctx memoryId now isAdmitted =>
    rw [SlotValues.step] at stepped
    obtain ⟨fresh, stepped⟩ := ite_none_left_eq_some.mp stepped
    rw [← Option.some.inj stepped]
    refine ⟨?_, inv.one.write inv.unique fresh admitted⟩
    rw [SlotValues.write]
    split
    · exact inv.unique
    · exact apply_unique inv.unique fresh
  | supersede ctx oldId newId content reason now =>
    rw [SlotValues.step] at stepped
    obtain ⟨fresh, stepped⟩ := ite_none_left_eq_some.mp stepped
    obtain ⟨rows, superseded, isNext⟩ := map_eq_some_iff.mp stepped
    obtain ⟨one, ids⟩ := inv.one.supersede superseded
    rw [← isNext]
    refine ⟨?_, one⟩
    rw [ids, ← concat_eq_append, nodup_concat]
    exact ⟨fresh, inv.unique⟩
  | sweep ids now =>
    rw [SlotValues.step, Option.some.injEq] at stepped
    rw [← stepped]
    exact ⟨nodup_map_updateWhere (fun _ => rfl) inv.unique, inv.one.sweep⟩
  | restore tenantId memoryId now =>
    rw [SlotValues.step, Option.some.injEq] at stepped
    rw [← stepped]
    refine ⟨?_, inv.one.restore inv.unique admitted⟩
    rw [SlotValues.restore]
    split
    · exact inv.unique
    · split
      · rw [ids_update]
        exact inv.unique
      · exact inv.unique
  | forget tenantId memoryId now =>
    obtain ⟨rows, forgot, isNext⟩ := map_eq_some_iff.mp stepped
    rw [← isNext]
    refine ⟨?_, inv.one.forget admitted forgot⟩
    rcases forget_cases forgot with ⟨-, same⟩ | ⟨ids, -, isForgotten⟩
    · rw [same]
      exact inv.unique
    · rw [isForgotten]
      apply forget_unique
      exact nodup_map_updateWhere (fun _ => rfl) inv.unique
  | reinstate tenantId ids now =>
    rw [SlotValues.step, Option.some.injEq] at stepped
    rw [← stepped]
    exact ⟨forget_unique inv.unique, inv.one.reinstate admitted⟩
  | replace formId unitId grade now =>
    simp only [SlotValues.step, bind_eq_bind, bind_eq_some_iff] at stepped
    obtain ⟨form, isForm, unit, -, stepped⟩ := stepped
    obtain ⟨-, stepped⟩ := ite_none_right_eq_some.mp stepped
    rw [← Option.some.inj stepped]
    refine ⟨?_, inv.one.marked inv.unique (mem_of_find?_eq_some isForm)⟩
    rw [ids_update]
    exact inv.unique

/-- Along a run that is admitted no slot has two current values. -/
theorem one_value_along {actions : List Action}
    (reached : run (step reader settings) {} actions = some state)
    (admitted : Meets (step reader settings) (Admitted reader settings) {} actions) :
    OneValue state.rows := by
  have start : Inv {} := ⟨nodup_nil, by simp [OneValue]⟩
  have inv : Inv state :=
    run_invariant_of_meets (fun stepped admitted inv => Inv.step inv stepped admitted)
      reached admitted start
  exact inv.one

end Runs

def plainReader : Reader where
  normalizedHash := fun text => if text = "I live in Paris" then ⟨"2d", rfl⟩ else ⟨"2e", rfl⟩
  tokens := fun text => (text.splitOn " ").toFinset
  figures := fun _ => ∅
  hasNegation := fun _ => false
  cleanObject := id
  spelled := fun subject stored => decide (subject = stored)
  pairs := fun candidate _ mem =>
    let subject : SubjectMatch :=
      if candidate.subject = mem.subject then { verdict := .same, score := 1 }
      else { verdict := .different }
    { subject, statement := subject }
  withVectors := fun _ _ _ =>
    { subject := { verdict := .different }, statement := { verdict := .different } }
  cosine := none
  assist := none

theorem noRun (isRun : (none : Option Id).isSome = true) : (none : Option Id).isSome = true := isRun

def mona : MemoryExecutionContext where
  tenantId := ⟨"hooli", by decide⟩
  userId := some ⟨"mona", by decide⟩
  runHasAgent := noRun

def livesIn (city : String) : MemoryCandidate where
  content := "I live in " ++ city
  memoryType := .user
  subject := some "user:mona"
  predicate := some "lives_in"
  object := some city
  evidence := [⟨.message, "msg_" ++ city⟩]

/-- A new value replaces the old one, is archived, and comes back. -/
def moves : List Action :=
  [.write (livesIn "Paris") mona "mem_1" ⟨1⟩ true, .write (livesIn "Rome") mona "mem_2" ⟨2⟩ true,
    .sweep ["mem_2"] ⟨3⟩, .restore "hooli" "mem_2" ⟨4⟩,
    .supersede mona "mem_2" "mem_3" "I live in Rome, near the river" "edited" ⟨5⟩,
    .forget "hooli" "mem_3" ⟨6⟩]

theorem moves_one_value :
    ∃ state, run (step plainReader {}) {} moves = some state ∧ OneValue state.rows :=
  exists_run (by decide +kernel) fun _ reached => one_value_along reached (by decide +kernel)

/-- The old value is archived before the new one is written, and is then restored. -/
theorem two_values_restored :
    ¬∀ actions state, run (step plainReader {}) {} actions = some state → OneValue state.rows :=
  not_always_of_run
    [.write (livesIn "Paris") mona "mem_1" ⟨1⟩ true, .sweep ["mem_1"] ⟨2⟩,
      .write (livesIn "Rome") mona "mem_2" ⟨3⟩ true, .restore "hooli" "mem_1" ⟨4⟩]
    (by decide +kernel)

end MemoryService.Memory.SlotValues
