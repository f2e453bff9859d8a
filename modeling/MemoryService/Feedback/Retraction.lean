import MemoryService.Feedback.Reversal

/-!
# A rejected memory, and its rejection lifted

Lifting the rejection brings back what it closed: a memory is told by its status and by the
instant its validity ends.
-/

namespace MemoryService.Feedback.Votes

open Domain Foundation Memory List Statements

variable {currentOnly : Bool} {later : Instant} {store : Store} {x m r : CanonicalMemory}

theorem mem_twins :
    r ∈ twins m.tenantId m currentOnly store.rows ↔
      r ∈ store.rows ∧ isTwin m.tenantId m currentOnly r = true :=
  mem_filter

theorem isTwin_iff :
    isTwin m.tenantId m currentOnly r = true ↔
      r.tenantId = m.tenantId ∧ r.normalizedHash = m.normalizedHash ∧
        r.ownerPrincipal = m.ownerPrincipal ∧ r.memoryId ≠ m.memoryId ∧
        r.deletedAt = none ∧ (currentOnly = true → r.temporal.status = .current) ∧
        shareSource m r = true := by
  rw [isTwin, decide_eq_true_eq]

theorem isTwin_true_iff :
    isTwin m.tenantId m true r = true ↔
      isTwin m.tenantId m false r = true ∧ r.temporal.status = .current := by
  rw [isTwin_iff, isTwin_iff]
  constructor
  · intro holds
    obtain ⟨tenant, hash, owner, isOther, standing, isCurrent, shared⟩ := holds
    exact ⟨⟨tenant, hash, owner, isOther, standing, by simp, shared⟩, isCurrent rfl⟩
  · intro holds
    obtain ⟨⟨tenant, hash, owner, isOther, standing, -, shared⟩, isCurrent⟩ := holds
    exact ⟨tenant, hash, owner, isOther, standing, fun _ => isCurrent, shared⟩

theorem copies_nodup
    (unique : (store.rows.map CanonicalMemory.memoryId).Nodup) (m : CanonicalMemory) :
    ((m :: twins m.tenantId m currentOnly store.rows).map
      CanonicalMemory.memoryId).Nodup := by
  rw [map_cons, nodup_cons]
  constructor
  · intro member
    obtain ⟨twin, isTwin, sameId⟩ := mem_map.mp member
    exact (isTwin_iff.mp (mem_twins.mp isTwin).2).2.2.2.1 sameId
  · exact unique.sublist (List.Sublist.map _ filter_sublist)

theorem core_lifted (later : Instant) (x : CanonicalMemory) :
    core (lifted later x) = core (lifted later (core x)) := rfl

theorem lifted_retracted (now : Instant) (isCurrent : m.temporal.status = .current)
    (isOpen : m.temporal.validTo = none) :
    core (lifted later (core (retracted now m))) = core m := by
  have lifts : core (lifted later (core (retracted now m))) =
      core { m with temporal := { m.temporal with status := .current, validTo := none } } := rfl
  rw [lifts, ← isCurrent, ← isOpen]

/-- A current memory that is rejected. -/
structure Rejection where
  store : Store
  now : Instant
  memory : CanonicalMemory
  unique : (store.rows.map CanonicalMemory.memoryId).Nodup
  stored : memory ∈ store.rows
  isCurrent : memory.temporal.status = .current

namespace Rejection

variable (p : Rejection)

/-- The memory and its current copies, which are retracted together. -/
def wrong : List CanonicalMemory := p.memory :: twins p.memory.tenantId p.memory true p.store.rows

def wrongIds : List String := p.wrong.map CanonicalMemory.memoryId

def after : Store := p.store.updateAll p.now (p.wrong.map (retracted p.now))

def row (r : CanonicalMemory) : CanonicalMemory :=
  writeRows p.now p.store (p.wrong.map (retracted p.now)) r

def isClosed (x : CanonicalMemory) : Bool :=
  x.temporal.status = .retracted ∧ x.temporal.validTo = some p.now

/-- What lifting the rejection finds closed by it. -/
def copies : List CanonicalMemory :=
  (p.row p.memory ::
    twins (p.row p.memory).tenantId (p.row p.memory) false p.after.rows).filter p.isClosed

def liftedRow (later : Instant) (r : CanonicalMemory) : CanonicalMemory :=
  writeRows later p.after (p.copies.map (lifted later)) (p.row r)

variable {p}

theorem after_rows : p.after.rows = p.store.rows.map p.row := (updateAll_rows _ _ _).1

theorem after_derived : p.after.derived = p.store.derived := derived_updateAll _ _ _

theorem after_unique : (p.after.rows.map CanonicalMemory.memoryId).Nodup :=
  updateAll_unique p.unique

theorem row_id (r : CanonicalMemory) :
    (p.row r).memoryId = r.memoryId ∧ (p.row r).tenantId = r.tenantId :=
  writeRows_id _ r

theorem mem_wrong (member : r ∈ p.wrong) :
    r ∈ p.store.rows ∧ r.tenantId = p.memory.tenantId ∧ r.temporal.status = .current := by
  rcases mem_cons.mp member with isFirst | isTwin
  · rw [isFirst]
    exact ⟨p.stored, rfl, p.isCurrent⟩
  · obtain ⟨isRow, isTwin⟩ := mem_twins.mp isTwin
    exact ⟨isRow, (isTwin_iff.mp isTwin).1, (isTwin_true_iff.mp isTwin).2⟩

theorem wrong_nodup : p.wrongIds.Nodup := copies_nodup p.unique p.memory

theorem retracted_ids :
    (p.wrong.map (retracted p.now)).map CanonicalMemory.memoryId = p.wrongIds := by
  rw [map_map]
  rfl

theorem retracted_tenant :
    ∀ x ∈ p.wrong.map (retracted p.now), x.tenantId = p.memory.tenantId := by
  intro x member
  obtain ⟨t, isWrong, rfl⟩ := mem_map.mp member
  exact (mem_wrong isWrong).2.1

section

variable (isRow : r ∈ p.store.rows)
include isRow

theorem retracted_write
    (member : x ∈ p.wrong.map (retracted p.now)) (sameId : r.memoryId = x.memoryId) :
    r ∈ p.wrong ∧ x = retracted p.now r := by
  obtain ⟨t, isWrong, rfl⟩ := mem_map.mp member
  have same : r = t := inj_on_of_nodup_map p.unique isRow (mem_wrong isWrong).1 sameId
  rw [same]
  exact ⟨isWrong, rfl⟩

theorem not_wrongId (notWrong : r ∉ p.wrong) :
    r.memoryId ∉ p.wrongIds := by
  intro isId
  obtain ⟨t, isWrong, sameId⟩ := mem_map.mp isId
  have same : t = r := inj_on_of_nodup_map p.unique (mem_wrong isWrong).1 isRow sameId
  rw [same] at isWrong
  exact notWrong isWrong

theorem row_bare : bare (p.row r) = bare r := by
  apply writeRows_bare
  intro x member sameId
  rw [(retracted_write isRow member sameId).2]
  rfl

end

theorem row_wrong (isWrong : r ∈ p.wrong) :
    (p.row r).temporal.status = .retracted ∧
      (p.row r).temporal.validTo = some (r.temporal.validTo.getD p.now) := by
  have isRow := (mem_wrong isWrong).1
  have member : retracted p.now r ∈ p.wrong.map (retracted p.now) := mem_map_of_mem isWrong
  have sameId : r.memoryId = (retracted p.now r).memoryId := rfl
  have sameTenant : r.tenantId = (retracted p.now r).tenantId := rfl
  constructor
  · apply writeRows_retires member sameId sameTenant
    intro x isWrite sameId
    rw [(retracted_write isRow isWrite sameId).2]
    rfl
  · apply writeRows_column_own column_validTo _ member sameId sameTenant
    rw [retracted_ids]
    exact wrong_nodup

section

variable (isRow : r ∈ p.store.rows)
include isRow

theorem row_validTo (notWrong : r ∉ p.wrong) :
    (p.row r).temporal.validTo = r.temporal.validTo := by
  apply writeRows_column_other column_validTo
  intro x member sameId
  exact absurd (retracted_write isRow member sameId).1 notWrong

theorem isTwin_row :
    isTwin (p.row p.memory).tenantId (p.row p.memory) false (p.row r) =
      isTwin p.memory.tenantId p.memory false r := by
  obtain ⟨-, -, deleted, -, owner, hash, evidence⟩ := fields_of_bare (row_bare isRow)
  obtain ⟨-, -, -, -, ownerM, hashM, evidenceM⟩ := fields_of_bare (row_bare p.stored)
  obtain ⟨sameId, sameTenant⟩ := @row_id p r
  obtain ⟨sameIdM, sameTenantM⟩ := @row_id p p.memory
  rw [Bool.eq_iff_iff, sameTenantM, isTwin, isTwin, shareSource,
    shareSource, deleted, owner, hash, evidence, ownerM, hashM, evidenceM, sameId,
    sameIdM, sameTenant]
  simp

theorem mem_copies :
    p.row r ∈ p.copies ↔
      (r = p.memory ∨ isTwin p.memory.tenantId p.memory false r = true) ∧
        p.isClosed (p.row r) = true := by
  rw [copies, mem_filter, mem_cons, twins, mem_filter, isTwin_row isRow, after_rows]
  apply and_congr_left
  intro _
  apply or_congr
  · constructor
    · intro same
      apply inj_on_of_nodup_map p.unique isRow p.stored
      rw [← (@row_id p r).1, same, (@row_id p p.memory).1]
    · intro same
      rw [same]
  · simp only [mem_map_of_mem isRow, true_and]

end

theorem copies_row (member : x ∈ p.copies) : ∃ r ∈ p.store.rows, p.row r = x := by
  rw [copies, mem_filter, mem_cons, twins, mem_filter, after_rows, mem_map] at member
  rcases member.1 with isFirst | isTwin
  · exact ⟨p.memory, p.stored, isFirst.symm⟩
  · exact isTwin.1

theorem closed_of_wrong (isWrong : r ∈ p.wrong) (isOpen : r.temporal.validTo = none) :
    p.isClosed (p.row r) = true := by
  obtain ⟨status, validTo⟩ := row_wrong isWrong
  rw [isOpen] at validTo
  simp [isClosed, status, validTo]

theorem lifted_ids (wrongOpen : ∀ r ∈ p.wrong, r.temporal.validTo = none)
    (othersOpen : ∀ r ∈ p.store.rows, isTwin p.memory.tenantId p.memory false r = true →
      r ∉ p.wrong → p.isClosed (p.row r) = false) :
    (p.copies.map (lifted later)).map CanonicalMemory.memoryId = p.wrongIds := by
  have twins : (twins (p.row p.memory).tenantId (p.row p.memory) false p.after.rows).filter
        p.isClosed =
      (twins p.memory.tenantId p.memory true p.store.rows).map p.row := by
    rw [twins, twins, after_rows, filter_map, filter_map, filter_filter]
    congr 1
    apply filter_congr
    intro r isRow
    rw [Function.comp_apply, Function.comp_apply, isTwin_row isRow,
      Bool.eq_iff_iff, Bool.and_eq_true]
    constructor
    · intro holds
      by_contra notTwin
      have notWrong : r ∉ p.wrong := by
        intro isWrong
        rcases mem_cons.mp isWrong with isFirst | isTwin
        · exact (isTwin_iff.mp holds.2).2.2.2.1 (by rw [isFirst])
        · exact notTwin (mem_twins.mp isTwin).2
      rw [othersOpen r isRow holds.2 notWrong] at holds
      cases holds.1
    · intro isTwin
      have isWrong : r ∈ p.wrong := mem_cons_of_mem _ (mem_twins.mpr ⟨isRow, isTwin⟩)
      exact ⟨closed_of_wrong isWrong (wrongOpen r isWrong), (isTwin_true_iff.mp isTwin).1⟩
  have isFirst : p.memory ∈ p.wrong := mem_cons_self
  rw [map_map, copies, filter_cons, if_pos (closed_of_wrong isFirst (wrongOpen _ isFirst)), twins,
    map_cons, map_map, wrongIds, wrong, map_cons]
  congr 1
  · exact (row_id _).1
  · exact map_congr_left fun r _ => (@row_id p r).1

theorem copies_tenant : ∀ x ∈ p.copies.map (lifted later), x.tenantId = p.memory.tenantId := by
  intro x member
  obtain ⟨copy, isCopy, rfl⟩ := mem_map.mp member
  obtain ⟨r, isRow, rfl⟩ := copies_row isCopy
  have sameTenant := (@row_id p r).2
  rcases ((mem_copies isRow).mp isCopy).1 with isFirst | isTwin
  · rw [isFirst] at sameTenant ⊢
    exact sameTenant
  · exact sameTenant.trans (isTwin_iff.mp isTwin).1

theorem lifted_nodup :
    ((p.copies.map (lifted later)).map CanonicalMemory.memoryId).Nodup := by
  rw [map_map]
  exact (copies_nodup after_unique _).sublist (List.Sublist.map _ filter_sublist)

theorem liftedRow_validTo (isCopy : p.row r ∈ p.copies) :
    (p.liftedRow later r).temporal.validTo = none := by
  have member := mem_map_of_mem (f := lifted later) isCopy
  exact writeRows_column_own column_validTo lifted_nodup member rfl rfl

theorem liftedRow_stays (isRow : r ∈ p.store.rows) (notCopy : p.row r ∉ p.copies)
    (isRetracted : (p.row r).temporal.status = .retracted) : p.liftedRow later r = p.row r := by
  apply writeRows_retracted isRetracted
  intro x member sameId
  obtain ⟨copy, isCopy, rfl⟩ := mem_map.mp member
  obtain ⟨other, isOther, rfl⟩ := copies_row isCopy
  have same : r = other := by
    apply inj_on_of_nodup_map p.unique isRow isOther
    rw [← (@row_id p r).1, sameId]
    exact (@row_id p other).1
  rw [same] at notCopy
  exact notCopy isCopy

section Undone

variable (undone : ∀ r ∈ p.store.rows, core (p.liftedRow later r) = core r)
include undone

theorem wrong_open_of_undone : ∀ r ∈ p.wrong, r.temporal.validTo = none := by
  intro r isWrong
  obtain ⟨isRow, -, status⟩ := mem_wrong isWrong
  have isRetracted := (row_wrong isWrong).1
  have temporal := (fields_of_core (undone r isRow)).1
  by_cases isCopy : p.row r ∈ p.copies
  · rw [← temporal]
    exact liftedRow_validTo isCopy
  · rw [liftedRow_stays isRow isCopy isRetracted] at temporal
    rw [temporal, status] at isRetracted
    cases isRetracted

theorem others_open_of_undone (isRow : r ∈ p.store.rows)
    (isTwin : isTwin p.memory.tenantId p.memory false r = true) (notWrong : r ∉ p.wrong) :
    p.isClosed (p.row r) = false := by
  by_contra closed
  rw [Bool.not_eq_false] at closed
  have isCopy := (mem_copies isRow).mpr ⟨.inr isTwin, closed⟩
  have opened := @liftedRow_validTo later _ p isCopy
  rw [(fields_of_core (undone r isRow)).1, ← row_validTo isRow notWrong] at opened
  rw [isClosed, decide_eq_true_eq, opened] at closed
  cases closed.2

theorem copies_open_of_undone :
    ∀ r ∈ twins p.memory.tenantId p.memory false p.store.rows,
      ¬(r.temporal.status = .retracted ∧ r.temporal.validTo = some p.now) := by
  intro r isTwin closed
  obtain ⟨isRow, isTwin⟩ := mem_twins.mp isTwin
  have notWrong : r ∉ p.wrong := by
    intro isWrong
    rw [(mem_wrong isWrong).2.2] at closed
    cases closed.1
  have unchanged : p.row r = r := by
    apply writeRows_retracted closed.1
    intro x member sameId
    exact notWrong (retracted_write isRow member sameId).1
  have isOpen := others_open_of_undone undone isRow isTwin notWrong
  rw [unchanged, isClosed] at isOpen
  exact of_decide_eq_false isOpen closed

theorem spared_of_undone : Spared p.store p.memory.tenantId p.wrongIds := by
  by_contra notSpared
  obtain ⟨r, isRow, sameTenant, standing, source, isSource, isDerived, notAfter⟩ :=
    exists_unspared notSpared
  obtain ⟨sameId, keptTenant⟩ := @row_id p r
  rw [← @lifted_ids later p (wrong_open_of_undone undone)
    fun r isRow => others_open_of_undone undone isRow] at isSource notAfter
  rw [← sameId] at isDerived notAfter
  rw [← after_derived] at isDerived
  have isRetracted : (p.liftedRow later r).temporal.status = .retracted :=
    phase_unspared copies_tenant lifted_nodup (keptTenant.trans sameTenant) isSource isDerived
      notAfter
  rw [(fields_of_core (undone r isRow)).1] at isRetracted
  exact standing isRetracted

end Undone

section Condition

variable (wrongOpen : ∀ r ∈ p.wrong, r.temporal.validTo = none)
  (copiesOpen : ∀ r ∈ twins p.memory.tenantId p.memory false p.store.rows,
    ¬(r.temporal.status = .retracted ∧ r.temporal.validTo = some p.now))
  (spared : Spared p.store p.memory.tenantId p.wrongIds)

include spared in
theorem row_other (isRow : r ∈ p.store.rows) (notWrong : r ∉ p.wrong) : p.row r = r := by
  apply phase_other retracted_tenant
  · rw [retracted_ids]
    exact spared r isRow
  · rw [retracted_ids]
    exact not_wrongId isRow notWrong

include wrongOpen copiesOpen spared

theorem lifted_ids_of_spared :
    (p.copies.map (lifted later)).map CanonicalMemory.memoryId = p.wrongIds := by
  refine lifted_ids wrongOpen fun r isRow isTwin notWrong => ?_
  rw [row_other spared isRow notWrong, isClosed, decide_eq_false_iff_not]
  exact copiesOpen r (mem_twins.mpr ⟨isRow, isTwin⟩)

theorem liftedRow_wrong (isWrong : r ∈ p.wrong) : core (p.liftedRow later r) = core r := by
  obtain ⟨isRow, sameTenant, status⟩ := mem_wrong isWrong
  have isSpared := spared r isRow sameTenant (by rw [status]; decide)
  have own : core (p.row r) = core (retracted p.now r) := by
    apply phase_own retracted_tenant _ (mem_map_of_mem isWrong)
    · exact ⟨rfl, rfl, rfl, rfl, rfl, rfl, rfl⟩
    · rw [retracted_ids]
      exact isSpared
    · rw [retracted_ids]
      exact wrong_nodup
  have isCopy : p.row r ∈ p.copies := by
    rw [mem_copies isRow]
    refine ⟨?_, closed_of_wrong isWrong (wrongOpen r isWrong)⟩
    rcases mem_cons.mp isWrong with isFirst | isTwin
    · exact .inl isFirst
    · exact .inr (isTwin_true_iff.mp (mem_twins.mp isTwin).2).1
  have back : core (p.liftedRow later r) = core (lifted later (p.row r)) := by
    apply phase_own copies_tenant lifted_nodup (mem_map_of_mem isCopy)
    · exact ⟨rfl, rfl, rfl, rfl, rfl, rfl, rfl⟩
    · rw [lifted_ids_of_spared wrongOpen copiesOpen spared, after_derived, (@row_id p r).1]
      exact isSpared
  rw [back, core_lifted, own]
  exact lifted_retracted p.now status (wrongOpen r isWrong)

theorem liftedRow_other (isRow : r ∈ p.store.rows) (notWrong : r ∉ p.wrong) :
    p.liftedRow later r = r := by
  rw [liftedRow, row_other spared isRow notWrong, phase_other copies_tenant]
  · rw [lifted_ids_of_spared wrongOpen copiesOpen spared, SparedRow, after_derived]
    exact spared r isRow
  · rw [lifted_ids_of_spared wrongOpen copiesOpen spared]
    exact not_wrongId isRow notWrong

end Condition

theorem lifted_undone_iff :
    (∀ r ∈ p.store.rows, core (p.liftedRow later r) = core r) ↔
      (∀ r ∈ p.wrong, r.temporal.validTo = none) ∧
        (∀ r ∈ twins p.memory.tenantId p.memory false p.store.rows,
          ¬(r.temporal.status = .retracted ∧ r.temporal.validTo = some p.now)) ∧
        Spared p.store p.memory.tenantId p.wrongIds := by
  constructor
  · intro undone
    exact ⟨wrong_open_of_undone undone, copies_open_of_undone undone, spared_of_undone undone⟩
  · intro condition r isRow
    obtain ⟨wrongOpen, copiesOpen, spared⟩ := condition
    by_cases isWrong : r ∈ p.wrong
    · exact liftedRow_wrong wrongOpen copiesOpen spared isWrong
    · rw [liftedRow_other wrongOpen copiesOpen spared isRow isWrong]

def isRestored (p : Rejection) : CanonicalMemory → Bool :=
  Replacement.isReinstated p.memory.tenantId p.wrongIds

def restored (p : Rejection) : List CanonicalMemory :=
  (p.after.rows.filter p.isRestored).map (Replacement.reinstated p.wrongIds p.now)

theorem isRestored_row (isRow : r ∈ p.store.rows) : p.isRestored (p.row r) = p.isRestored r := by
  obtain ⟨-, metadata, deleted, -, -, -, -⟩ := fields_of_bare (row_bare isRow)
  rw [isRestored, Replacement.isReinstated, Replacement.isReinstated, replacedBy,
    replacedBy, metadata, deleted, (@row_id p r).2]

theorem reinstated_keeps (ids : List String) (now : Instant) (x : CanonicalMemory) :
    (Replacement.reinstated ids now x).memoryId = x.memoryId ∧
      (Replacement.reinstated ids now x).tenantId = x.tenantId ∧
      (Replacement.reinstated ids now x).systemMetadata.replacedBy = none := by
  rw [Replacement.reinstated]
  split
  case isTrue _ => exact ⟨rfl, rfl, rfl⟩
  case isFalse _ => exact ⟨rfl, rfl, rfl⟩

theorem retract_eq :
    retract p.now p.memory.tenantId p.memory p.store = p.after.updateAll p.now p.restored := rfl

theorem reverse_marks {now : Instant} {tenantId memoryId : String}
    (unique : (store.rows.map CanonicalMemory.memoryId).Nodup) :
    (reverseMemory later tenantId memoryId (.memoryRetracted now) store).rows.map
        (fun r => r.systemMetadata.replacedBy) =
      store.rows.map (fun r => r.systemMetadata.replacedBy) := by
  unfold reverseMemory
  cases found : Statements.get later tenantId memoryId store.rows with
  | none => rfl
  | some memory =>
    have isRow : memory ∈ store.rows := mem_of_find?_eq_some (get_eq_some.mp found).1
    simp only [liftRetraction]
    rw [(updateAll_rows _ _ _).1, map_map, map_inj_left]
    intro r stored
    apply writeRows_column_same column_replacedBy
    intro x member sameId
    obtain ⟨copy, isCopy, rfl⟩ := mem_map.mp member
    have copyStored : copy ∈ store.rows := by
      rcases mem_cons.mp (mem_filter.mp isCopy).1 with isFirst | isTwin
      · rw [isFirst]
        exact isRow
      · exact (mem_filter.mp isTwin).1
    rw [inj_on_of_nodup_map unique stored copyStored sameId]
    rfl

theorem unmarked_of_undone
    (undone : (reverseMemory later p.memory.tenantId p.memory.memoryId (.memoryRetracted p.now)
      (p.after.updateAll p.now p.restored)).rows.map core = p.store.rows.map core) :
    ∀ r ∈ p.store.rows, p.isRestored r = false := by
  intro r isRow
  by_contra isMarked
  rw [Bool.not_eq_false] at isMarked
  have uniqueRestored : (p.restored.map CanonicalMemory.memoryId).Nodup := by
    rw [restored, map_map]
    have sameIds : CanonicalMemory.memoryId ∘ Replacement.reinstated p.wrongIds p.now =
        CanonicalMemory.memoryId := by
      funext x
      exact (reinstated_keeps p.wrongIds p.now x).1
    rw [sameIds]
    exact after_unique.sublist (List.Sublist.map _ filter_sublist)
  have member : Replacement.reinstated p.wrongIds p.now (p.row r) ∈ p.restored := by
    refine mem_map_of_mem (mem_filter.mpr ⟨?_, (isRestored_row isRow).trans isMarked⟩)
    rw [after_rows]
    exact mem_map_of_mem isRow
  -- the mark is removed with the rejection, and lifting it writes none
  have removed := @writeRows_column_own _ _ p.now p.after _ _ _ column_replacedBy
    uniqueRestored member (reinstated_keeps _ _ _).1.symm (reinstated_keeps _ _ _).2.1.symm
  have marks := @reverse_marks later _ p.now p.memory.tenantId p.memory.memoryId
    (@updateAll_unique p.now _ p.restored (@after_unique p))
  have before := congrArg (List.map fun c => c.systemMetadata.replacedBy) undone
  rw [map_map, map_map] at before
  have same := before.symm.trans marks
  rw [(updateAll_rows _ _ _).1, after_rows, map_map, map_map, map_inj_left] at same
  have mark : r.systemMetadata.replacedBy = none :=
    (same r isRow).trans (removed.trans (reinstated_keeps _ _ _).2.2)
  rw [isRestored, Replacement.isReinstated, replacedBy, mark] at isMarked
  simp at isMarked

theorem retract_of_unmarked (unmarked : ∀ r ∈ p.store.rows, p.isRestored r = false) :
    p.after.updateAll p.now p.restored = p.after := by
  have noneRestored : p.restored = [] := by
    rw [restored, map_eq_nil_iff, filter_eq_nil_iff, after_rows]
    intro x member
    obtain ⟨r, isRow, rfl⟩ := mem_map.mp member
    rw [isRestored_row isRow, unmarked r isRow]
    decide
  rw [noneRestored]
  rfl

theorem row_memory : Statements.row p.memory.memoryId p.after.rows = some (p.row p.memory) := by
  rw [after_rows]
  exact row_written p.unique (fun r => (@row_id p r).1) p.stored

/-- A derived memory is not found once it is retracted. -/
theorem not_undone_of_derived (derived : isDerived p.memory = true) :
    (reverseMemory later p.memory.tenantId p.memory.memoryId (.memoryRetracted p.now)
      p.after).rows.map core ≠ p.store.rows.map core := by
  have isRetracted := (@row_wrong _ p mem_cons_self).1
  have metadata := (fields_of_bare (row_bare p.stored)).2.1
  have missing : Statements.get later p.memory.tenantId p.memory.memoryId p.after.rows = none := by
    rw [Statements.get, row_memory, Option.filter_eq_none_iff]
    intro x isX
    rw [← Option.mem_some.mp isX, invalidDerived, isDerived_congr metadata, derived, isRetracted]
    simp
  intro undone
  unfold reverseMemory at undone
  rw [missing] at undone
  rw [after_rows, map_map, map_inj_left] at undone
  rw [(fields_of_core (undone p.memory p.stored)).1, p.isCurrent] at isRetracted
  cases isRetracted

theorem reverse_rows (standing : p.memory.deletedAt = none) (kept : isDerived p.memory = false) :
    (reverseMemory later p.memory.tenantId p.memory.memoryId (.memoryRetracted p.now)
      p.after).rows = p.store.rows.map (p.liftedRow later) := by
  obtain ⟨-, metadata, deleted, -⟩ := fields_of_bare (row_bare p.stored)
  have isFound : Statements.get later p.memory.tenantId p.memory.memoryId p.after.rows =
      some (p.row p.memory) := by
    refine get_eq_some.mpr ⟨row_memory, (row_id _).2, deleted.trans standing, ?_⟩
    rw [invalidDerived, isDerived_congr metadata, kept]
    rfl
  have lifts : liftRetraction later (p.row p.memory) p.now p.after =
      p.after.updateAll later (p.copies.map (lifted later)) := rfl
  unfold reverseMemory
  rw [isFound]
  simp only []
  rw [lifts, (updateAll_rows _ _ _).1, after_rows, map_map]
  rfl

theorem taken_back_iff (standing : p.memory.deletedAt = none) :
    (reverseMemory later p.memory.tenantId p.memory.memoryId (.memoryRetracted p.now)
        (retract p.now p.memory.tenantId p.memory p.store)).rows.map core =
        p.store.rows.map core ↔
      isDerived p.memory = false ∧
        (∀ t ∈ p.wrong, t.temporal.validTo = none) ∧
        (∀ r ∈ p.store.rows, p.isRestored r = false) ∧
        (∀ t ∈ twins p.memory.tenantId p.memory false p.store.rows,
          ¬(t.temporal.status = .retracted ∧ t.temporal.validTo = some p.now)) ∧
        Spared p.store p.memory.tenantId p.wrongIds := by
  rw [retract_eq]
  by_cases unmarked : ∀ r ∈ p.store.rows, p.isRestored r = false
  case neg =>
    exact iff_of_false (fun undone => unmarked (unmarked_of_undone undone))
      fun condition => unmarked condition.2.2.1
  rw [retract_of_unmarked unmarked]
  cases derived : isDerived p.memory with
  | true => exact iff_of_false (not_undone_of_derived derived) fun condition => by cases condition.1
  | false =>
    rw [reverse_rows standing derived, map_map, map_inj_left]
    refine lifted_undone_iff.trans ?_
    constructor
    · intro holds
      exact ⟨rfl, holds.1, unmarked, holds.2⟩
    · intro condition
      exact ⟨condition.2.1, condition.2.2.2⟩

end Rejection

theorem reject_undone_iff {now : Instant} {tenantId : String}
    (unique : (store.rows.map CanonicalMemory.memoryId).Nodup) (memoryId : String) :
    Undone now later tenantId store (.reject memoryId) ↔
      Reversible now later tenantId store (.reject memoryId) := by
  rw [Undone, Reversible, project, reverse]
  cases found : store.current now tenantId memoryId with
  | none => simp [reverseMemory]
  | some m =>
    obtain ⟨stored, rfl, rfl, standing, isCurrent, -⟩ := (current_eq_some unique).mp found
    simp only [Option.mem_def, Option.some.injEq, forall_eq']
    exact @Rejection.taken_back_iff later ⟨store, now, m, unique, stored, isCurrent⟩ standing

/-- A vote that is reversed is undone just when neither a limit nor the rounding of the
confidence cuts it off, nothing derived is retracted by the writes, no validity was closed
before the vote or at its instant, and nothing was reinstated with it. -/
theorem undone_iff {now later : Instant} {tenantId : String} {store : Store}
    (unique : (store.rows.map CanonicalMemory.memoryId).Nodup) (vote : Vote) :
    Undone now later tenantId store vote ↔ Reversible now later tenantId store vote := by
  cases vote with
  | affirm memoryId => exact affirm_undone_iff unique memoryId
  | reject memoryId => exact reject_undone_iff unique memoryId
  | correct memoryId => simp [Undone, Reversible, project, reverse, reverseMemory]
  | run affirmed refs teaches => exact run_undone_iff unique affirmed refs teaches

def prefersTea (confidence : Rat) : CanonicalMemory where
  memoryId := "mem_tea"
  tenantId := "umbrella"
  ownerPrincipal := "user:ada"
  memoryType := .user
  content := "I prefer tea"
  normalizedHash := ⟨"2a", rfl⟩
  confidence := confidence
  temporal := { observedAt := ⟨1⟩ }
  evidence := [⟨.message, "msg_tea"⟩]
  updatedAt := ⟨1⟩

/-- A certain memory is less so once its confirmation is taken back. -/
theorem certain_not_undone :
    ¬∀ (now later : Instant) (tenantId : String) (store : Store) (vote : Vote),
      (store.rows.map CanonicalMemory.memoryId).Nodup → Undone now later tenantId store vote := by
  intro always
  have undone := always ⟨2⟩ ⟨3⟩ "umbrella" { rows := [prefersTea 1] } (.affirm "mem_tea")
    (by decide)
  rw [Undone] at undone
  revert undone
  decide +kernel

theorem halfSure_undone :
    Undone ⟨2⟩ ⟨3⟩ "umbrella" { rows := [prefersTea (1 / 2)] } (.affirm "mem_tea") ∧
      Undone ⟨2⟩ ⟨3⟩ "umbrella" { rows := [prefersTea (1 / 2)] } (.reject "mem_tea") :=
  ⟨(undone_iff (by decide) _).mpr (by decide +kernel),
    (undone_iff (by decide) _).mpr (by decide +kernel)⟩

end MemoryService.Feedback.Votes
