import MemoryService.Feedback.Retraction
import MemoryService.Feedback.VoteLog

/-!
# What verdicts, sweeps and replacements do to the row of one memory

The memory was not made from others, so the writes of other memories pass its row by.
-/

namespace MemoryService.Feedback.VoteLog

open Domain Foundation Memory Votes List Statements

variable {now : Instant} {tenantId memoryId : String} {store : Store}
  {r m : CanonicalMemory} {memories : List CanonicalMemory}

structure Held (tenantId memoryId : String) (store : Store) (r : CanonicalMemory) : Prop where
  unique : (store.rows.map CanonicalMemory.memoryId).Nodup
  underived : ∀ d ∈ store.dependencies, d.tenantId = tenantId → d.derivedId ≠ memoryId
  stored : r ∈ store.rows
  sameId : r.memoryId = memoryId
  sameTenant : r.tenantId = tenantId
  standing : r.deletedAt = none
  notDerived : isDerived r = false

namespace Held

variable (held : Held tenantId memoryId store r)
include held

theorem row : row memoryId store.rows = some r := by
  rw [← held.sameId]
  exact row_of_mem held.unique held.stored

theorem get : Statements.get now tenantId memoryId store.rows = some r := by
  rw [get_eq_some]
  refine ⟨held.row, held.sameTenant, held.standing, ?_⟩
  rw [invalidDerived, held.notDerived]
  rfl

theorem current (isCurrent : r.temporal.status = .current) :
    store.current now tenantId memoryId = some r := by
  rw [Store.current, held.get, Option.filter_some, if_pos (decide_eq_true isCurrent)]

theorem not_current (isOther : r.temporal.status ≠ .current) :
    store.current now tenantId memoryId = none := by
  rw [Store.current, held.get, Option.filter_some, if_neg]
  rw [decide_eq_true_eq]
  exact isOther

theorem not_derived (source : String) : memoryId ∉ store.derived tenantId source := by
  intro isDerived
  obtain ⟨-, from_, isEdge⟩ := ends_of_mem_reach isDerived
  rw [Edge, Store.edges, mem_map] at isEdge
  obtain ⟨d, isDependency, same⟩ := isEdge
  rw [mem_filter, decide_eq_true_eq] at isDependency
  exact held.underived d isDependency.1 isDependency.2 (congrArg Prod.snd same)

theorem of_written {r' : CanonicalMemory} (isRow : writeRows now store memories r = r')
    (standing : r'.deletedAt = none) (notDerived : isDerived r' = false) :
    Held tenantId memoryId (store.updateAll now memories) r' := by
  obtain ⟨rows, dependencies⟩ := updateAll_rows now store memories
  obtain ⟨keptId, keptTenant⟩ := @writeRows_id now store memories r
  rw [isRow] at keptId keptTenant
  refine ⟨updateAll_unique held.unique, ?_, ?_, keptId.trans held.sameId,
    keptTenant.trans held.sameTenant, standing, notDerived⟩
  · rw [dependencies]
    exact held.underived
  · rw [rows, ← isRow]
    exact mem_map_of_mem held.stored

section

variable (tenant : ∀ x ∈ memories, x.tenantId = tenantId)
include tenant

theorem write
    (distinct : (memories.map CanonicalMemory.memoryId).Nodup) (member : m ∈ memories)
    (keeps : Votes.Keeps m r) (notDerived : isDerived m = false) :
    ∃ r', Held tenantId memoryId (store.updateAll now memories) r' ∧ core r' = core m := by
  have own : core (writeRows now store memories r) = core m := by
    apply phase_own tenant distinct member keeps
    intro source _ isDerived
    rw [held.sameId] at isDerived
    exact absurd isDerived (held.not_derived source)
  obtain ⟨-, metadata, -, -, deleted⟩ := fields_of_core own
  refine ⟨writeRows now store memories r, held.of_written rfl ?_ ?_, own⟩
  · rw [deleted, keeps.deletedAt]
    exact held.standing
  · rw [isDerived_congr metadata]
    exact notDerived

theorem pass
    (isOther : memoryId ∉ memories.map CanonicalMemory.memoryId) :
    Held tenantId memoryId (store.updateAll now memories) r := by
  apply held.of_written _ held.standing held.notDerived
  apply phase_other tenant
  · intro _ _ source _ isDerived
    rw [held.sameId] at isDerived
    exact absurd isDerived (held.not_derived source)
  · rw [held.sameId]
    exact isOther

end

theorem write_one (keeps : Votes.Keeps m r) (notDerived : isDerived m = false) :
    ∃ r', Held tenantId memoryId (store.update now m) r' ∧ core r' = core m := by
  have tenant : ∀ x ∈ [m], x.tenantId = tenantId := by
    intro x member
    rw [mem_singleton.mp member, keeps.tenantId]
    exact held.sameTenant
  have distinct : ([m].map CanonicalMemory.memoryId).Nodup := by simp
  exact held.write tenant distinct (mem_singleton_self m) keeps notDerived

theorem affirm (isCurrent : r.temporal.status = .current) :
    ∃ r', Held tenantId memoryId (Votes.project now tenantId store (.affirm memoryId)).1 r' ∧
      core r' = core (reinforced now r) := by
  rw [Votes.project, held.current isCurrent]
  exact held.write_one ⟨rfl, rfl, rfl, rfl, rfl, rfl, rfl⟩ held.notDerived

theorem reverse_affirm (isCurrent : r.temporal.status = .current) :
    ∃ r', Held tenantId memoryId
        (reverseMemory now tenantId memoryId .memoryReinforced store) r' ∧
      core r' = core (unreinforced now r) := by
  have taken : reverseMemory now tenantId memoryId .memoryReinforced store =
      store.update now (unreinforced now r) := by
    unfold reverseMemory
    rw [held.get]
    exact if_pos isCurrent
  rw [taken]
  exact held.write_one ⟨rfl, rfl, rfl, rfl, rfl, rfl, rfl⟩ held.notDerived

theorem copy_tenant {currentOnly : Bool} {x : CanonicalMemory}
    (member : x ∈ r :: twins r.tenantId r currentOnly store.rows) :
    x.tenantId = tenantId := by
  rcases mem_cons.mp member with isFirst | isTwin
  · rw [isFirst]
    exact held.sameTenant
  · exact (isTwin_iff.mp (mem_twins.mp isTwin).2).1.trans held.sameTenant

theorem write_copies {currentOnly : Bool} {assign : CanonicalMemory → CanonicalMemory}
    (keeps : ∀ x, Votes.Keeps (assign x) x)
    (notDerived : isDerived (assign r) = false) :
    ∃ r', Held tenantId memoryId
        (store.updateAll now
          ((r :: twins r.tenantId r currentOnly store.rows).map assign)) r' ∧
      core r' = core (assign r) := by
  apply held.write _ _ (mem_map_of_mem mem_cons_self) (keeps r) notDerived
  · intro x member
    obtain ⟨copy, isCopy, rfl⟩ := mem_map.mp member
    exact (keeps copy).tenantId.trans (held.copy_tenant isCopy)
  · rw [map_map]
    have sameIds : CanonicalMemory.memoryId ∘ assign = CanonicalMemory.memoryId := by
      funext x
      exact (keeps x).memoryId
    rw [sameIds]
    exact copies_nodup held.unique r

theorem reinstate (ids : List String) (isRetracted : r.temporal.status = .retracted) :
    ∃ r', Held tenantId memoryId
        (store.updateAll now ((store.rows.filter (Replacement.isReinstated tenantId ids)).map
          (Replacement.reinstated ids now))) r' ∧
      r'.temporal = r.temporal ∧ r'.confidence = r.confidence ∧
        r'.reinforcementCount = r.reinforcementCount := by
  have keeps : ∀ x, Votes.Keeps (Replacement.reinstated ids now x) x := by
    intro x
    rw [Replacement.reinstated]
    split
    case isTrue _ => exact ⟨rfl, rfl, rfl, rfl, rfl, rfl, rfl⟩
    case isFalse _ => exact ⟨rfl, rfl, rfl, rfl, rfl, rfl, rfl⟩
  have tenant : ∀ x ∈ (store.rows.filter (Replacement.isReinstated tenantId ids)).map
      (Replacement.reinstated ids now), x.tenantId = tenantId := by
    intro x member
    obtain ⟨old, isOld, rfl⟩ := mem_map.mp member
    have marked := (mem_filter.mp isOld).2
    rw [Replacement.isReinstated, decide_eq_true_eq] at marked
    exact (keeps old).tenantId.trans marked.1
  have sameIds : CanonicalMemory.memoryId ∘ Replacement.reinstated ids now =
      CanonicalMemory.memoryId := by
    funext x
    exact (keeps x).memoryId
  by_cases isMarked : Replacement.isReinstated tenantId ids r = true
  · have left : Replacement.reinstated ids now r =
        { r with
          systemMetadata := { r.systemMetadata with replacedBy := none }
          updatedAt := now } := by
      rw [Replacement.reinstated, if_neg]
      rw [Replacement.reopens, isRetracted]
      simp
    have member := mem_map_of_mem (f := Replacement.reinstated ids now)
      (mem_filter.mpr ⟨held.stored, isMarked⟩)
    obtain ⟨r', held', same⟩ := @write now tenantId memoryId store r _ _ held tenant
      (by
        rw [map_map, sameIds]
        exact held.unique.sublist (List.Sublist.map _ filter_sublist))
      member (keeps r) (by rw [left]; exact held.notDerived)
    rw [left] at same
    obtain ⟨temporal, -, confidence, count, -⟩ := fields_of_core same
    exact ⟨r', held', temporal, confidence, count⟩
  · refine ⟨r, held.pass tenant ?_, rfl, rfl, rfl⟩
    rw [map_map, sameIds]
    intro isId
    obtain ⟨old, isOld, same⟩ := mem_map.mp isId
    have isRow := (mem_filter.mp isOld).1
    rw [← held.sameId] at same
    rw [inj_on_of_nodup_map held.unique isRow held.stored same] at isOld
    exact isMarked (mem_filter.mp isOld).2

theorem reject (isCurrent : r.temporal.status = .current) :
    ∃ r', Held tenantId memoryId (Votes.project now tenantId store (.reject memoryId)).1 r' ∧
      r'.temporal.status = .retracted ∧ r'.confidence = r.confidence ∧
        r'.reinforcementCount = r.reinforcementCount := by
  rw [Votes.project, held.current isCurrent]
  have keeps : ∀ x, Votes.Keeps (Votes.retracted now x) x :=
    fun x => ⟨rfl, rfl, rfl, rfl, rfl, rfl, rfl⟩
  obtain ⟨r₁, held₁, same⟩ := @write_copies now tenantId memoryId store r held true
    (Votes.retracted now) keeps held.notDerived
  obtain ⟨temporal, -, confidence, count, -⟩ := fields_of_core same
  have isRetracted : r₁.temporal.status = .retracted := by
    rw [temporal]
    rfl
  obtain ⟨r₂, held₂, temporal₂, confidence₂, count₂⟩ := @reinstate now tenantId memoryId _ r₁
    held₁ ((r :: twins r.tenantId r true store.rows).map CanonicalMemory.memoryId)
    isRetracted
  refine ⟨r₂, held₂, ?_, confidence₂.trans confidence, count₂.trans count⟩
  rw [temporal₂]
  exact isRetracted

theorem reverse_reject {retractedAt : Instant} (isRetracted : r.temporal.status = .retracted)
    (closed : r.temporal.validTo = some retractedAt) :
    ∃ r', Held tenantId memoryId
        (reverseMemory now tenantId memoryId (.memoryRetracted retractedAt) store) r' ∧
      core r' = core (Votes.lifted now r) := by
  have lifts : reverseMemory now tenantId memoryId (.memoryRetracted retractedAt) store =
      liftRetraction now r retractedAt store := by
    unfold reverseMemory
    rw [held.get]
  have keeps : Votes.Keeps (Votes.lifted now r) r := ⟨rfl, rfl, rfl, rfl, rfl, rfl, rfl⟩
  have notDerived : isDerived (Votes.lifted now r) = false := held.notDerived
  rw [lifts, liftRetraction]
  apply held.write _ _ _ keeps notDerived
  · intro x member
    obtain ⟨copy, isCopy, rfl⟩ := mem_map.mp member
    show copy.tenantId = tenantId
    exact held.copy_tenant (mem_filter.mp isCopy).1
  · rw [map_map]
    exact (copies_nodup held.unique r).sublist (List.Sublist.map _ filter_sublist)
  · apply mem_map_of_mem
    rw [mem_filter]
    exact ⟨mem_cons_self, by simp [isRetracted, closed]⟩

theorem archive :
    ∃ r', Held tenantId memoryId (store.update now (archived now r)) r' ∧
      core r' = core (archived now r) :=
  held.write_one ⟨rfl, rfl, rfl, rfl, rfl, rfl, rfl⟩ held.notDerived

theorem add {new : CanonicalMemory}
    (fresh : new.memoryId ∉ store.rows.map CanonicalMemory.memoryId) :
    Held tenantId memoryId { store with rows := store.rows ++ [new] } r :=
  { held with
    unique := nodup_map_insert fresh held.unique
    underived := held.underived
    stored := mem_append_left _ held.stored }

theorem replaced {assign : CanonicalMemory → CanonicalMemory} {closings : List Closing}
    {new : CanonicalMemory}
    (closes : closings.map Closing.closed = (r :: twins r.tenantId r true store.rows).map assign)
    (isNew : closings.head?.map Closing.replacement = some new)
    (fresh : new.memoryId ∉ store.rows.map CanonicalMemory.memoryId)
    (keeps : ∀ x, Votes.Keeps (assign x) x)
    (notDerived : isDerived (assign r) = false) :
    ∃ r', Held tenantId memoryId (replaceBy now closings store) r' ∧ core r' = core (assign r) := by
  obtain ⟨r', held', same⟩ := @write_copies now tenantId memoryId store r held true assign
    keeps notDerived
  rw [replaceBy, closes, isNew]
  refine ⟨r', held'.add ?_, same⟩
  rw [(updateAll_rows now store _).1, map_map]
  have sameIds : CanonicalMemory.memoryId ∘ writeRows now store
      ((r :: twins r.tenantId r true store.rows).map assign) = CanonicalMemory.memoryId := by
    funext x
    exact (writeRows_id _ x).1
  rw [sameIds]
  exact fresh

theorem supersede {replacement : CanonicalMemory}
    (fresh : replacement.memoryId ∉ store.rows.map CanonicalMemory.memoryId) :
    ∃ r', Held tenantId memoryId
        (replaceBy now
          (Pipeline.closeAll r replacement (twins tenantId r true store.rows) now)
          store) r' ∧
      r'.temporal.status = .superseded ∧ r'.confidence = r.confidence ∧
        r'.reinforcementCount = r.reinforcementCount := by
  obtain ⟨r', held', same⟩ := @replaced now tenantId memoryId store r held
    (fun x => Pipeline.superseded x (Pipeline.superseding r replacement) now)
    (Pipeline.closeAll r replacement (twins tenantId r true store.rows) now)
    (Pipeline.superseding r replacement)
    (by rw [Pipeline.closeAll, held.sameTenant, map_cons, map_map]; rfl)
    rfl fresh (fun x => ⟨rfl, rfl, rfl, rfl, rfl, rfl, rfl⟩) held.notDerived
  obtain ⟨temporal, -, confidence, count, -⟩ := fields_of_core same
  refine ⟨r', held', ?_, confidence, count⟩
  rw [temporal]
  rfl

theorem correct {normalizedHash : String → Digest} {newId feedbackId content : String}
    (isCurrent : r.temporal.status = .current) (hasText : content ≠ "")
    (fresh : newId ∉ store.rows.map CanonicalMemory.memoryId) :
    ∃ r', Held tenantId memoryId
        (replaceBy now
          (Memory.correct normalizedHash store.rows r newId feedbackId content now) store) r' ∧
      r'.temporal.status = .superseded ∧ r'.confidence = r.confidence ∧
        r'.reinforcementCount = r.reinforcementCount := by
  have corrects : Memory.correct normalizedHash store.rows r newId feedbackId content now =
      (r :: twins r.tenantId r true store.rows).map fun old =>
        let new := corrected normalizedHash r newId feedbackId content now
        { before := old, closed := revised old new now, replacement := revising r new } := by
    rw [Memory.correct, if_pos ⟨held.standing, isCurrent, hasText⟩]
  obtain ⟨r', held', same⟩ := @replaced now tenantId memoryId store r held
    (fun x => revised x (corrected normalizedHash r newId feedbackId content now) now)
    (Memory.correct normalizedHash store.rows r newId feedbackId content now)
    (revising r (corrected normalizedHash r newId feedbackId content now))
    (by rw [corrects, map_map]; rfl) (by rw [corrects]; rfl)
    fresh (fun x => ⟨rfl, rfl, rfl, rfl, rfl, rfl, rfl⟩) held.notDerived
  obtain ⟨temporal, -, confidence, count, -⟩ := fields_of_core same
  refine ⟨r', held', ?_, confidence, count⟩
  rw [temporal]
  rfl

end Held

end MemoryService.Feedback.VoteLog
