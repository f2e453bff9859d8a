import MemoryService.Domain.Memory
import MemoryService.Foundation.Table

/-!
# Statements in the memory repository

The queries and the writes of the memory repository on whole rows, as the services that replace,
forget and restore statements use them. A row's id is its key.
-/

namespace MemoryService.Memory.Statements

open Domain Foundation

def row (memoryId : String) (rows : List CanonicalMemory) : Option CanonicalMemory :=
  rows.find? fun r => r.memoryId = memoryId

def isDerived (r : CanonicalMemory) : Bool :=
  r.systemMetadata.derivedSlot.any (· ≠ "") ∨ r.systemMetadata.sourceRevisions ≠ []

/-- `_invalid_derived`: made from other memories, and withdrawn or lapsed. -/
def invalidDerived (now : Instant) (r : CanonicalMemory) : Bool :=
  isDerived r ∧
    (r.temporal.status = .retracted ∨
      r.systemMetadata.expiresAt.join.any fun expiresAt => expiresAt ≤ now)

def get (now : Instant) (tenantId memoryId : String) (rows : List CanonicalMemory) :
    Option CanonicalMemory :=
  (row memoryId rows).filter fun r =>
    r.tenantId = tenantId ∧ r.deletedAt = none ∧ ¬invalidDerived now r

def isForgotten (tenantId memoryId : String) (rows : List CanonicalMemory) : Bool :=
  (row memoryId rows).any fun r => r.tenantId = tenantId ∧ r.deletedAt.isSome

/-- Kept from one of the same messages. -/
def shareSource (first second : CanonicalMemory) : Bool :=
  first.evidence.any fun e => second.evidence.any fun e' => e = e'

/-- The same statement kept again: its words and its owner, from one of its messages. -/
def isTwin (tenantId : String) (memory : CanonicalMemory) (currentOnly : Bool)
    (r : CanonicalMemory) : Bool :=
  r.tenantId = tenantId ∧ r.normalizedHash = memory.normalizedHash ∧
    r.ownerPrincipal = memory.ownerPrincipal ∧ r.memoryId ≠ memory.memoryId ∧
    r.deletedAt = none ∧ (currentOnly = true → r.temporal.status = .current) ∧
    shareSource memory r

def twins (tenantId : String) (memory : CanonicalMemory) (currentOnly : Bool)
    (rows : List CanonicalMemory) : List CanonicalMemory :=
  rows.filter (isTwin tenantId memory currentOnly)

variable (memory : CanonicalMemory)

/-- `system_metadata["replaced_by"]` of a memory, the id it names. -/
def replacedBy : Option String := memory.systemMetadata.replacedBy.map ReplacedBy.memoryId

/-- The columns of a row that an update does not assign keep their values. -/
def written (memory r : CanonicalMemory) : CanonicalMemory :=
  { memory with
    tenantId := r.tenantId
    scopeKey := r.scopeKey
    ownerPrincipal := r.ownerPrincipal
    temporal := { memory.temporal with observedAt := r.temporal.observedAt }
    systemMetadata :=
      { memory.systemMetadata with
        expiresAt := memory.systemMetadata.expiresAt.or r.systemMetadata.expiresAt }
    revision := r.revision + 1
    deletedAt := r.deletedAt }

/-- The statement of an update; a missing row is a `LookupError` of its caller. -/
def update (rows : List CanonicalMemory) : List CanonicalMemory :=
  updateWhere (fun r => r.memoryId = memory.memoryId ∧ r.tenantId = memory.tenantId)
    (written memory) rows

theorem ids_update {memory : CanonicalMemory} {rows : List CanonicalMemory} :
    (update memory rows).map CanonicalMemory.memoryId = rows.map CanonicalMemory.memoryId := by
  rw [update, updateWhere, List.map_map]
  apply List.map_congr_left
  intro r _
  rw [Function.comp_apply]
  split
  case isTrue selected =>
    rw [decide_eq_true_eq] at selected
    exact selected.1.symm
  case isFalse _ => rfl

theorem row_eq_some_iff {memoryId : String} {rows : List CanonicalMemory} {r : CanonicalMemory}
    (unique : (rows.map CanonicalMemory.memoryId).Nodup) :
    row memoryId rows = some r ↔ r ∈ rows ∧ r.memoryId = memoryId :=
  find?_key_iff unique

def add (rows : List CanonicalMemory) : List CanonicalMemory := rows ++ [memory]

def forgotten (now : Instant) (r : CanonicalMemory) : CanonicalMemory :=
  { r with
    temporal := { r.temporal with status := .retracted }
    revision := r.revision + 1
    deletedAt := some now }

def forget (now : Instant) (tenantId memoryId : String) (rows : List CanonicalMemory) :
    List CanonicalMemory :=
  updateWhere
    (fun r => r.memoryId = memoryId ∧ r.tenantId = tenantId ∧ r.deletedAt = none)
    (forgotten now) rows

end MemoryService.Memory.Statements
