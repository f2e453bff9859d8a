import MemoryService.Memory.Replacement

/-!
# A mark and its undoing

A mark of a replaced statement keeps the statement that replaced it and nothing of what it
overwrites.
-/

namespace MemoryService.Memory.Replacement

open Domain Foundation Statements Option

variable (form unit : CanonicalMemory)

def marked (grade : Grade) (now : Instant) : CanonicalMemory :=
  written (apply form unit grade now) form

/-- The row of a statement after the statements `ids` are gone. -/
def afterGone (ids : List String) (now : Instant) (r : CanonicalMemory) : CanonicalMemory :=
  if isReinstated r.tenantId ids r then written (reinstated ids now r) r else r

/-- What a mark writes is as it was. -/
def Restored (before after : CanonicalMemory) : Prop :=
  after.temporal.status = before.temporal.status ∧
    after.temporal.validTo = before.temporal.validTo ∧
    after.temporal.supersededBy = before.temporal.supersededBy ∧
    after.systemMetadata = before.systemMetadata

/-- No mark yet, and what a closing mark overwrites is as in a statement that is current and
has no end. -/
def Unmarked (form : CanonicalMemory) (grade : Grade) : Prop :=
  form.systemMetadata.replacedBy = none ∧
    (grade = .superseded →
      form.temporal.status = .current ∧ form.temporal.validTo = none ∧
        form.temporal.supersededBy = none ∧ form.systemMetadata.supersedeReason = none)
deriving Decidable

/-- The very mark is there already. -/
def Carries (grade : Grade) : Prop :=
  form.systemMetadata.replacedBy = some { memoryId := unit.memoryId, grade := some grade } ∧
    (grade = .superseded →
      form.temporal.status = .superseded ∧ form.temporal.validTo.isSome ∧
        form.temporal.supersededBy = some unit.memoryId ∧
        form.systemMetadata.supersedeReason = some "replaced in a later statement")
deriving Decidable

/-- Reinstating reads a statement that is not forgotten and writes a fresh one; it leaves a
forgotten statement as it is marked. -/
def Undoable (grade : Grade) : Prop :=
  if form.deletedAt = none then Unmarked form grade else Carries form unit grade
deriving Decidable

section

variable {form unit : CanonicalMemory} {grade : Grade} {ids : List String}
  {markedAt reinstatedAt : Instant}

theorem metadata_ext {first second : SystemMetadata}
    (sameMark : first.replacedBy = second.replacedBy)
    (sameReason : first.supersedeReason = second.supersedeReason)
    (sameRest : { first with replacedBy := none, supersedeReason := none } =
      { second with replacedBy := none, supersedeReason := none }) : first = second := by
  cases first
  cases second
  simp_all

theorem isReinstated_marked (isGone : unit.memoryId ∈ ids) :
    isReinstated form.tenantId ids (marked form unit grade markedAt) = true ↔
      form.deletedAt = none := by
  cases grade with
  | earlier => simp [isReinstated, marked, written, apply, replacedBy, isGone]
  | superseded => simp [isReinstated, marked, written, apply, replacedBy, isGone]

theorem reopens_marked (isGone : unit.memoryId ∈ ids) :
    reopens ids (marked form unit grade markedAt) = true ↔ grade = .superseded := by
  cases grade with
  | earlier => simp [reopens, marked, written, apply]
  | superseded => simp [reopens, marked, written, apply, isGone]

theorem restored_marked_iff : Restored form (marked form unit grade markedAt) ↔
    Carries form unit grade := by
  cases grade with
  | earlier =>
    constructor
    · rintro ⟨-, -, -, sameMetadata⟩
      refine ⟨?_, nofun⟩
      rw [← sameMetadata]
      rfl
    · rintro ⟨carried, -⟩
      refine ⟨rfl, rfl, rfl, metadata_ext carried.symm rfl ?_⟩
      simp [marked, written, apply]
  | superseded =>
    constructor
    · rintro ⟨sameStatus, sameEnd, sameNewer, sameMetadata⟩
      refine ⟨?_, fun _ => ⟨sameStatus.symm, ?_, sameNewer.symm, ?_⟩⟩
      · rw [← sameMetadata]
        rfl
      · rw [← sameEnd]
        rfl
      · rw [← sameMetadata]
        rfl
    · rintro ⟨carried, closed⟩
      obtain ⟨isClosed, isEnd, isNewer, isReason⟩ := closed rfl
      obtain ⟨validTo, isEnd⟩ := isSome_iff_exists.mp isEnd
      refine ⟨isClosed.symm, ?_, isNewer.symm, metadata_ext carried.symm isReason.symm ?_⟩
      · rw [isEnd]
        simp [marked, written, apply, isEnd]
      · simp [marked, written, apply]

theorem restored_reinstated_iff (isGone : unit.memoryId ∈ ids) :
    Restored form (written (reinstated ids reinstatedAt (marked form unit grade markedAt))
      (marked form unit grade markedAt)) ↔ Unmarked form grade := by
  cases grade with
  | earlier =>
    have closed : ¬reopens ids (marked form unit .earlier markedAt) = true := by
      rw [reopens_marked isGone]
      exact nofun
    rw [reinstated, if_neg closed]
    constructor
    · rintro ⟨-, -, -, sameMetadata⟩
      refine ⟨?_, nofun⟩
      rw [← sameMetadata]
      rfl
    · rintro ⟨fresh, -⟩
      refine ⟨rfl, rfl, rfl, metadata_ext fresh.symm rfl ?_⟩
      simp [marked, written, apply]
  | superseded =>
    have reopened : reopens ids (marked form unit .superseded markedAt) = true :=
      (reopens_marked isGone).mpr rfl
    rw [reinstated, if_pos reopened]
    constructor
    · rintro ⟨sameStatus, sameEnd, sameNewer, sameMetadata⟩
      refine ⟨?_, fun _ => ⟨sameStatus.symm, sameEnd.symm, sameNewer.symm, ?_⟩⟩
      · rw [← sameMetadata]
        rfl
      · rw [← sameMetadata]
        rfl
    · rintro ⟨fresh, open_⟩
      obtain ⟨isCurrent, noEnd, noNewer, noReason⟩ := open_ rfl
      refine ⟨isCurrent.symm, noEnd.symm, noNewer.symm, metadata_ext fresh.symm noReason.symm ?_⟩
      simp [marked, written, apply]

theorem restored_afterGone_iff (isGone : unit.memoryId ∈ ids) :
    Restored form (afterGone ids reinstatedAt (marked form unit grade markedAt)) ↔
      Undoable form unit grade := by
  have isRead := @isReinstated_marked form unit grade ids markedAt isGone
  have sameTenant : (marked form unit grade markedAt).tenantId = form.tenantId := rfl
  rw [afterGone, Undoable, sameTenant]
  by_cases stands : form.deletedAt = none
  · rw [if_pos (isRead.mpr stands), if_pos stands]
    exact restored_reinstated_iff isGone
  · rw [if_neg (mt isRead.mp stands), if_neg stands]
    exact restored_marked_iff

end

theorem id_apply (grade : Grade) (now : Instant) :
    (apply form unit grade now).memoryId = form.memoryId ∧
      (apply form unit grade now).tenantId = form.tenantId := by
  cases grade with
  | earlier => exact ⟨rfl, rfl⟩
  | superseded => exact ⟨rfl, rfl⟩

theorem id_afterGone (ids : List String) (now : Instant) (r : CanonicalMemory) :
    (afterGone ids now r).memoryId = r.memoryId := by
  rw [afterGone]
  split
  case isTrue _ => exact id_written_reinstated r
  case isFalse _ => rfl

theorem afterGone_mem_reinstate {rows : List CanonicalMemory} {r : CanonicalMemory}
    {ids : List String} {now : Instant} (stored : r ∈ rows) :
    afterGone ids now r ∈ reinstate now r.tenantId ids rows :=
  List.mem_map.mpr ⟨r, stored, rfl⟩

theorem row_reinstate {rows : List CanonicalMemory} {form unit : CanonicalMemory}
    (grade : Grade) (ids : List String) (markedAt reinstatedAt : Instant)
    (unique : (rows.map CanonicalMemory.memoryId).Nodup) (stored : form ∈ rows) :
    row form.memoryId (reinstate reinstatedAt form.tenantId ids
        (Statements.update (apply form unit grade markedAt) rows)) =
      some (afterGone ids reinstatedAt (marked form unit grade markedAt)) := by
  obtain ⟨sameId, sameTenant⟩ := id_apply form unit grade markedAt
  have isMarked : marked form unit grade markedAt ∈
      Statements.update (apply form unit grade markedAt) rows := by
    apply updated_mem stored
    rw [sameId, sameTenant]
    exact decide_eq_true ⟨rfl, rfl⟩
  have stillUnique : ((reinstate reinstatedAt form.tenantId ids
      (Statements.update (apply form unit grade markedAt) rows)).map
        CanonicalMemory.memoryId).Nodup := by
    rw [reinstate, map_updateWhere id_written_reinstated, ids_update]
    exact unique
  rw [row_eq_some_iff stillUnique]
  exact ⟨afterGone_mem_reinstate isMarked, (id_afterGone _ _ _).trans sameId⟩

/-- A mark and its undoing leave a statement as it was where it stood, carried no mark and,
for a mark that closes it, was current without an end. -/
theorem mark_round_trip_iff {rows : List CanonicalMemory} {form unit : CanonicalMemory}
    {grade : Grade} {ids : List String} {markedAt reinstatedAt : Instant}
    (unique : (rows.map CanonicalMemory.memoryId).Nodup) (stored : form ∈ rows)
    (isGone : unit.memoryId ∈ ids) :
    (∃ after, row form.memoryId (reinstate reinstatedAt form.tenantId ids
          (Statements.update (apply form unit grade markedAt) rows)) = some after ∧
        Restored form after) ↔
      Undoable form unit grade := by
  rw [row_reinstate grade ids markedAt reinstatedAt unique stored]
  constructor
  · rintro ⟨after, isAfter, restored⟩
    obtain rfl := some_inj.mp isAfter
    exact (restored_afterGone_iff isGone).mp restored
  · intro undoable
    exact ⟨_, rfl, (restored_afterGone_iff isGone).mpr undoable⟩

section Closed

private def inLyon : CanonicalMemory := livesIn "mem_a" "Lyon" ⟨"5e1a", rfl⟩ ⟨1⟩

private def inPorto : CanonicalMemory := livesIn "mem_b" "Porto" ⟨"5e1b", rfl⟩ ⟨2⟩

/-- Said to hold until an instant. -/
private def untilThen : CanonicalMemory :=
  { inLyon with temporal := { inLyon.temporal with validTo := some ⟨9⟩ } }

theorem mark_round_trip_iff_inLyon :
    ∃ after, row inLyon.memoryId (reinstate ⟨5⟩ inLyon.tenantId [inPorto.memoryId]
        (Statements.update (apply inLyon inPorto .superseded ⟨2⟩) [inLyon, inPorto])) =
          some after ∧ Restored inLyon after :=
  (mark_round_trip_iff (by decide) (by simp) (by simp)).mpr (by decide)

/-- The end of the validity is lost with the mark. -/
theorem undone_mark_loses_end :
    ¬ ∀ (rows : List CanonicalMemory) (form unit : CanonicalMemory) (grade : Grade)
      (ids : List String) (markedAt reinstatedAt : Instant),
      (rows.map CanonicalMemory.memoryId).Nodup → form ∈ rows → unit.memoryId ∈ ids →
        ∃ after, row form.memoryId (reinstate reinstatedAt form.tenantId ids
            (Statements.update (apply form unit grade markedAt) rows)) = some after ∧
          Restored form after := by
  intro restores
  obtain ⟨after, isAfter, -, sameEnd, -⟩ := restores [untilThen, inPorto] untilThen inPorto
    .superseded [inPorto.memoryId] ⟨2⟩ ⟨5⟩ (by decide) (by simp) (by simp)
  have found := (congrArg (Option.map fun r => r.temporal.validTo) isAfter).symm
  rw [map_some, sameEnd] at found
  revert found
  decide

end Closed

end MemoryService.Memory.Replacement
