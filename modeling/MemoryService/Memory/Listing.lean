import MemoryService.Foundation.Keyset
import MemoryService.Memory.SlotValues

/-!
# Listing memories

A caller lists the memories that are anchored where it stands, the newest first.
-/

namespace MemoryService.Memory.Listing

open Domain Foundation Keyset
open Authz (VisibilitySpecification)
open Statements (invalidDerived)

structure ListedMemory extends CanonicalMemory where
  createdAt : Instant
  visibilityKeys : List String

abbrev Position := Instant ×ₗ String

def ListedMemory.position (m : ListedMemory) : Position := toLex (m.createdAt, m.memoryId)

structure Selection where
  tenantId : String
  scopeKeys : List String
  memoryTypes : List MemoryType := []
  currentOnly : Bool := true

def Selection.selects (selection : Selection) (m : ListedMemory) : Bool :=
  m.tenantId = selection.tenantId && selection.scopeKeys.contains m.scopeKey &&
    m.deletedAt = none && (!selection.currentOnly || m.temporal.status = .current) &&
    (selection.memoryTypes.isEmpty || selection.memoryTypes.contains m.memoryType)

def select (rows : List ListedMemory) (selection : Selection) (before : Option Position)
    (limit : ℕ) : List ListedMemory :=
  (newestFirst ListedMemory.position (rows.filter fun m =>
    selection.selects m && behind ListedMemory.position before m)).take limit

/-- Rounds, each for as many rows as are still wanted. -/
def listScope (rows : List ListedMemory) (now : Instant) (selection : Selection)
    (before : Option Position) (limit : ℕ) : List ListedMemory :=
  if selection.scopeKeys = [] then []
  else
    gather ListedMemory.position (select rows selection) (fun inHand => limit - inHand)
      (fun m => !invalidDerived now m.toCanonicalMemory) limit (rows.length + 1) before []

def anchors (ctx : MemoryExecutionContext) : List Scope :=
  let tenantId := ctx.tenantId.text
  let workspaceId := ctx.workspaceId.map Id.text
  let userId := ctx.userId.map Id.text
  let threadId := ctx.threadId.map Id.text
  (ctx.agentId.toList.map fun agent =>
    { level := .agent, tenantId, workspaceId, userId, threadId, agentId := some agent.text,
      levelHasAnchor := rfl }) ++
  (ctx.userId.toList.map fun user =>
    { level := .user, tenantId, workspaceId, userId := some user.text,
      levelHasAnchor := rfl }) ++
  (ctx.threadId.toList.map fun thread =>
    { level := .thread, tenantId, workspaceId, threadId := some thread.text,
      levelHasAnchor := rfl }) ++
  (ctx.agentGroupId.toList.map fun group =>
    { level := .agentGroup, tenantId, workspaceId, agentGroupId := some group.text,
      levelHasAnchor := rfl }) ++
  (ctx.workspaceId.toList.map fun workspace =>
    { level := .workspace, tenantId, workspaceId := some workspace.text,
      levelHasAnchor := rfl }) ++
  [{ level := .tenant, tenantId, workspaceId, levelHasAnchor := trivial }]

/-- A call of `list_memories`, but for its position and its limit. -/
structure Request where
  ctx : MemoryExecutionContext
  memoryTypes : List MemoryType := []
  includeSuperseded : Bool := false

def Request.selection (request : Request) : Selection where
  tenantId := request.ctx.tenantId.text
  scopeKeys := (anchors request.ctx).map Scope.key
  memoryTypes := request.memoryTypes
  currentOnly := !request.includeSuperseded

section Service

variable (rows : List ListedMemory) (spec : VisibilitySpecification) (request : Request)

/-- Batches, until so many rows are in hand that the caller may see. -/
def listMemories (now : Instant) (before : Option Position) (limit : ℕ) : List ListedMemory :=
  gather ListedMemory.position (listScope rows now request.selection)
    (fun _ => max (limit * 2) 50) (fun m => spec.allows m.tenantId m.visibilityKeys) limit
    (rows.length + 1) before []

def page (rows : List ListedMemory) (limit : ℕ) : List ListedMemory × Option Position :=
  let items := rows.take limit
  if rows.length ≤ limit ∨ items = [] then (items, none)
  else (items, items.getLast?.map ListedMemory.position)

def listed (clock : ℕ → Instant) (limit number : ℕ) (before : Option Position) :
    List ListedMemory × Option Position :=
  page (listMemories rows spec request (clock number) before (limit + 1)) limit

def readable (now : Instant) (m : ListedMemory) : Bool :=
  request.selection.selects m && (!invalidDerived now m.toCanonicalMemory &&
    spec.allows m.tenantId m.visibilityKeys)

end Service

section Reads

variable {rows : List ListedMemory}

theorem position_nodup (unique : (rows.map fun m => m.memoryId).Nodup) :
    (rows.map ListedMemory.position).Nodup := by
  refine List.Nodup.of_map (fun position : Position => (ofLex position).2) ?_
  rw [List.map_map]
  exact unique

def ordered (rows : List ListedMemory) (selection : Selection) : List ListedMemory :=
  newestFirst ListedMemory.position (rows.filter selection.selects)

theorem length_ordered (selection : Selection) : (ordered rows selection).length ≤ rows.length := by
  rw [ordered, (newestFirst_perm _ _).length_eq]
  exact List.length_filter_le _ _

theorem length_after_ordered (selection : Selection) (before : Option Position) :
    (after ListedMemory.position before (ordered rows selection)).length < rows.length + 1 :=
  Nat.lt_succ_of_le (Nat.le_trans (List.length_filter_le _ _) (length_ordered selection))

variable (unique : (rows.map fun m => m.memoryId).Nodup)
include unique

theorem falling_ordered (selection : Selection) :
    Falling ListedMemory.position (ordered rows selection) :=
  newestFirst_strict ((position_nodup unique).sublist (List.filter_sublist.map _))

theorem select_eq (selection : Selection) (before : Option Position) (limit : ℕ) :
    select rows selection before limit =
      (after ListedMemory.position before (ordered rows selection)).take limit := by
  have distinct : ((rows.filter selection.selects).map ListedMemory.position).Nodup :=
    (position_nodup unique).sublist (List.filter_sublist.map _)
  rw [select, after, ordered, ← newestFirst_filter distinct, List.filter_filter]
  simp only [Bool.and_comm]

theorem listScope_eq (now : Instant) {selection : Selection}
    (someScope : selection.scopeKeys ≠ []) (before : Option Position) (limit : ℕ) :
    listScope rows now selection before limit =
      (after ListedMemory.position before ((ordered rows selection).filter fun m =>
        !invalidDerived now m.toCanonicalMemory)).take limit := by
  rw [listScope, if_neg someScope, gather_eq (falling_ordered unique selection)
    (select_eq unique selection) (fun count notFull => by omega)
    (length_after_ordered selection before) (Nat.zero_le limit), List.nil_append, after_filter]
  rfl

theorem listMemories_eq (spec : VisibilitySpecification) (request : Request) (now : Instant)
    (before : Option Position) (limit : ℕ) :
    listMemories rows spec request now before limit =
      ((after ListedMemory.position before (ordered rows request.selection)).filter
        (readable spec request now)).take limit := by
  have someScope : request.selection.scopeKeys ≠ [] := by simp [Request.selection, anchors]
  have shorter : (after ListedMemory.position before ((ordered rows request.selection).filter
      fun m => !invalidDerived now m.toCanonicalMemory)).length < rows.length + 1 := by
    rw [after_filter]
    exact Nat.lt_of_le_of_lt (List.length_filter_le _ _) (length_after_ordered _ before)
  rw [listMemories, gather_eq ((falling_ordered unique _).sublist List.filter_sublist)
    (listScope_eq unique now someScope) (fun count _ => by omega) shorter (Nat.zero_le limit),
    List.nil_append, after_filter, List.filter_filter]
  have sameRows : (after ListedMemory.position before (ordered rows request.selection)).filter
      (fun m => spec.allows m.tenantId m.visibilityKeys &&
        !invalidDerived now m.toCanonicalMemory) =
      (after ListedMemory.position before (ordered rows request.selection)).filter
        (readable spec request now) := by
    refine List.filter_congr fun m member => ?_
    have isSelected : request.selection.selects m = true := by
      have inOrdered := (List.mem_filter.mp member).1
      rw [ordered, mem_newestFirst] at inOrdered
      exact (List.mem_filter.mp inOrdered).2
    rw [readable, isSelected, Bool.true_and, Bool.and_comm]
  rw [sameRows]
  rfl

theorem paged_listed (spec : VisibilitySpecification) (request : Request)
    (clock : ℕ → Instant) {limit : ℕ} (positive : 0 < limit) :
    Paged ListedMemory.position (listed rows spec request clock limit)
      (ordered rows request.selection) (fun number => readable spec request (clock number))
      limit where
  items number before := by
    rw [listed, listMemories_eq unique, page]
    generalize (after _ before _).filter _ = shown
    split <;> rw [List.take_take, Nat.min_eq_left (Nat.le_succ limit)]
  next number before := by
    rw [listed, listMemories_eq unique, page]
    generalize (after _ before _).filter _ = shown
    rw [List.take_take, Nat.min_eq_left (Nat.le_succ limit), List.length_take]
    by_cases fits : shown.length ≤ limit
    · rw [if_pos (.inl (by omega)), if_pos fits]
    · have someItems : shown.take limit ≠ [] := by
        rw [Ne, List.take_eq_nil_iff, not_or]
        exact ⟨by omega, fun isNil => fits (by simp [isNil])⟩
      rw [if_neg (not_or.mpr ⟨by omega, someItems⟩), if_neg fits]

end Reads

/-- Following the positions from the first page on comes to an end, with no memory twice, none
that the caller could not read, and each one that it could read all along; a page that is short
is the last, and has all that was left. -/
theorem every_visible_memory_once (rows : List ListedMemory)
    (unique : (rows.map fun m => m.memoryId).Nodup) (spec : VisibilitySpecification)
    (request : Request) (clock : ℕ → Instant) (limit : ℕ) (positive : 0 < limit) :
    (∃ pages, follow (listed rows spec request clock limit) (rows.length + 1) 0 none = some pages ∧
      pages.flatten.Nodup ∧
      (∀ m ∈ pages.flatten, m ∈ rows ∧ ∃ number, readable spec request (clock number) m = true) ∧
      ∀ m ∈ rows, (∀ number, readable spec request (clock number) m = true) → m ∈ pages.flatten) ∧
    ∀ number before, (listed rows spec request clock limit number before).1.length < limit →
      (listed rows spec request clock limit number before).2 = none ∧
        ∀ m ∈ rows, readable spec request (clock number) m = true →
          behind ListedMemory.position before m = true →
            m ∈ (listed rows spec request clock limit number before).1 := by
  have paged := paged_listed unique spec request clock positive
  have mem_ordered : ∀ m, m ∈ ordered rows request.selection ↔
      m ∈ rows ∧ request.selection.selects m = true := by
    intro m
    rw [ordered, mem_newestFirst, List.mem_filter]
  have selected : ∀ {now m}, readable spec request now m = true →
      request.selection.selects m = true :=
    fun isReadable => (Bool.and_eq_true_iff.mp isReadable).1
  constructor
  · obtain ⟨pages, isPages, falling, ofPages, allOfPages⟩ :=
      paged.follow_spec positive (falling_ordered unique request.selection)
        _ 0 none (length_after_ordered request.selection none)
    rw [after_none] at ofPages allOfPages
    refine ⟨pages, isPages, ?_, fun m member => ?_, fun m member always => ?_⟩
    · refine falling.imp fun lower same => ?_
      rw [same] at lower
      exact lt_irrefl _ lower
    · obtain ⟨inOrdered, number, -, isReadable⟩ := ofPages m member
      exact ⟨((mem_ordered m).mp inOrdered).1, number, isReadable⟩
    · exact allOfPages m ((mem_ordered m).mpr ⟨member, selected (always 0)⟩) fun n _ => always n
  · intro number before isShort
    obtain ⟨isLast, isAll⟩ := paged.all_of_short isShort
    refine ⟨isLast, fun m member isReadable isBehind => ?_⟩
    rw [isAll]
    refine List.mem_filter.mpr ⟨List.mem_filter.mpr ⟨?_, isBehind⟩, isReadable⟩
    exact (mem_ordered m).mpr ⟨member, selected isReadable⟩

def pia : Request where
  ctx :=
    { tenantId := ⟨"umbra", by decide⟩
      userId := some ⟨"pia", by decide⟩
      runHasAgent := MemoryExecutionContext.no_run }

def noted (memoryId reader : String) (createdAt : ℕ) : ListedMemory where
  memoryId := memoryId
  tenantId := "umbra"
  scopeKey := "t=umbra/l=USER/user=pia"
  memoryType := .user
  content := "a note"
  normalizedHash := ⟨"91c0", rfl⟩
  temporal := { observedAt := ⟨1⟩ }
  evidence := []
  updatedAt := ⟨1⟩
  createdAt := ⟨createdAt⟩
  visibilityKeys := [reader]

def piaReads : VisibilitySpecification := ⟨"umbra", ["user:umbra/pia"], false⟩

/-- Two notes of one instant and one that is hidden, on pages of one. -/
theorem every_visible_memory_once_pia :
    ∃ pages,
      follow (listed [noted "a" "user:umbra/pia" 5, noted "b" "user:umbra/rex" 5,
        noted "c" "user:umbra/pia" 5] piaReads pia (fun _ => ⟨9⟩) 1) 4 0 none = some pages ∧
      pages.flatten.Nodup ∧ noted "a" "user:umbra/pia" 5 ∈ pages.flatten ∧
        noted "c" "user:umbra/pia" 5 ∈ pages.flatten := by
  obtain ⟨⟨pages, isPages, nodup, -, all⟩, -⟩ := every_visible_memory_once
    [noted "a" "user:umbra/pia" 5, noted "b" "user:umbra/rex" 5, noted "c" "user:umbra/pia" 5]
    (by decide) piaReads pia (fun _ => ⟨9⟩) 1 (by decide)
  refine ⟨pages, isPages, nodup, all _ (by simp) fun _ => ?_, all _ (by simp) fun _ => ?_⟩
  · decide +kernel
  · decide +kernel

end MemoryService.Memory.Listing
