import MemoryService.Domain.Memory
import MemoryService.Foundation.Reach
import MemoryService.Foundation.Table
import MemoryService.Foundation.Transition
import Mathlib.Data.List.Dedup

/-!
# The memory repository

Two tables: the memories, and for every derived memory the revision of each memory it was derived
from.
-/

namespace MemoryService.Memory

open Domain Foundation

structure MemoryRow where
  memoryId : String
  tenantId : String
  visibilityKeys : List String
  temporalStatus : TemporalStatus
  validTo : Option Instant := none
  expiresAt : Option Instant := none
  revision : Nat := 1
  deletedAt : Option Instant := none
  deriving DecidableEq

structure MemoryDependencyRow where
  tenantId : String
  derivedId : String
  sourceId : String
  sourceRevision : Nat

structure State where
  memories : List MemoryRow := []
  dependencies : List MemoryDependencyRow := []

variable (tenantId : String)

def MemoryRow.named (ids : List String) (r : MemoryRow) : Bool :=
  r.tenantId = tenantId ∧ r.memoryId ∈ ids

def State.assign (state : State) (selects : MemoryRow → Bool)
    (assign : MemoryRow → MemoryRow) : State :=
  { state with memories := updateWhere selects assign state.memories }

def State.edges (state : State) (tenantId : String) : List (String × String) :=
  (state.dependencies.filter fun d => d.tenantId = tenantId).map
    fun d => (d.sourceId, d.derivedId)

def MemoryRow.retract (r : MemoryRow) : MemoryRow :=
  { r with temporalStatus := .retracted, revision := r.revision + 1 }

def State.affected (state : State) (tenantId : String) (sourceIds : List String)
    (r : MemoryRow) : Bool :=
  r.named tenantId (reach (state.edges tenantId) sourceIds) && r.temporalStatus ≠ .retracted

/-- `_invalidate_dependents`. -/
def invalidateDependents (sourceIds : List String)
    (state : State) : State :=
  state.assign (state.affected tenantId sourceIds) MemoryRow.retract

/-- The ids that `_invalidate_dependents` returns from its statement. -/
def invalidatedIds (sourceIds : List String) (state : State) :
    List String :=
  (state.memories.filter (state.affected tenantId sourceIds)).map MemoryRow.memoryId

variable (memory : CanonicalMemory)

def memorySources : List String :=
  ((memory.evidence.filter fun e => e.sourceType = .memory).map EvidenceRef.sourceId).dedup

def sourceStands (expected : List (String × Nat)) (visibilityKeys : List String)
    (now : Instant) (r : MemoryRow) : Bool :=
  r.deletedAt = none ∧ r.temporalStatus = .current ∧
    ¬r.expiresAt.any (fun expiresAt => expiresAt ≤ now) ∧
    expected.lookup r.memoryId = some r.revision ∧
    visibilityKeys.all (fun key => r.visibilityKeys.contains key)

variable (visibilityKeys : List String)

/-- `_source_rows`; `none` where it raises `ValidationFailed`. -/
def sourceRows (now : Instant)
    (state : State) : Option (List MemoryRow) :=
  let ids := memorySources memory
  if ids = [] then some []
  else
    let rows := state.memories.filter (·.named memory.tenantId ids)
    let expected := memory.systemMetadata.sourceRevisions
    if rows.length ≠ ids.length ∨ ¬rows.all (sourceStands expected visibilityKeys now) then none
    else if visibilityKeys = [] then none
    else some rows

def newRow : MemoryRow where
  memoryId := memory.memoryId
  tenantId := memory.tenantId
  visibilityKeys := visibilityKeys
  temporalStatus := memory.temporal.status
  validTo := memory.temporal.validTo
  expiresAt := memory.systemMetadata.expiresAt.join
  revision := memory.revision

def dependencyOn (source : MemoryRow) : MemoryDependencyRow where
  tenantId := memory.tenantId
  derivedId := memory.memoryId
  sourceId := source.memoryId
  sourceRevision := source.revision

def add (now : Instant)
    (state : State) : Option State :=
  -- the primary key
  if memory.memoryId ∈ state.memories.map MemoryRow.memoryId then none
  else
    (sourceRows memory visibilityKeys now state).map fun sources =>
      { memories := state.memories ++ [newRow memory visibilityKeys]
        dependencies := state.dependencies ++ sources.map (dependencyOn memory) }

/-- What `update` assigns of the row: an expiry that is not mentioned stays. -/
def MemoryRow.written (r : MemoryRow) : MemoryRow :=
  { r with
    temporalStatus := memory.temporal.status
    validTo := memory.temporal.validTo
    expiresAt := memory.systemMetadata.expiresAt.getD r.expiresAt
    revision := r.revision + 1 }

variable (tenantId memoryId : String)

/-- One row is assigned, and what is derived from it invalidated. -/
def writeRow (assign : MemoryRow → MemoryRow)
    (state : State) : Option State :=
  let selects := MemoryRow.named tenantId [memoryId]
  if state.memories.any selects then
    some (invalidateDependents tenantId [memoryId] (state.assign selects assign))
  else none

theorem writeRow_eq_some {tenantId memoryId : String} {assign : MemoryRow → MemoryRow}
    {state next : State} (written : writeRow tenantId memoryId assign state = some next) :
    (∃ r ∈ state.memories, r.named tenantId [memoryId] = true) ∧
      next = invalidateDependents tenantId [memoryId]
        (state.assign (MemoryRow.named tenantId [memoryId]) assign) := by
  simp only [writeRow] at written
  obtain ⟨exists_, written⟩ := Option.ite_none_right_eq_some.mp written
  cases written
  exact ⟨List.any_eq_true.mp exists_, rfl⟩

def update (state : State) : Option State :=
  writeRow memory.tenantId memory.memoryId (MemoryRow.written memory) state

def MemoryRow.forgotten (now : Instant) (r : MemoryRow) : MemoryRow :=
  { r with
    deletedAt := some now
    temporalStatus := .retracted
    revision := r.revision + 1 }

def MemoryRow.live (r : MemoryRow) : Bool := r.named tenantId [memoryId] && r.deletedAt = none

def forget (now : Instant) (state : State) : State :=
  let selects := MemoryRow.live tenantId memoryId
  if state.memories.any selects then
    invalidateDependents tenantId [memoryId]
      (state.assign selects (MemoryRow.forgotten now))
  else state

def MemoryRow.turned (status : TemporalStatus) (r : MemoryRow) : MemoryRow :=
  { r with temporalStatus := status, revision := r.revision + 1 }

def setStatus (status : TemporalStatus)
    (state : State) : State :=
  let selects := fun r => MemoryRow.live tenantId memoryId r && r.temporalStatus ≠ status
  if state.memories.any selects then
    invalidateDependents tenantId [memoryId]
      (state.assign selects (MemoryRow.turned status))
  else state

def MemoryRow.due (now : Instant) (r : MemoryRow) : Bool :=
  r.expiresAt.any (fun expiresAt => expiresAt ≤ now) ∧ r.deletedAt = none ∧
    r.temporalStatus = .current

/-- The status alone: the revision does not move. -/
def MemoryRow.expire (r : MemoryRow) : MemoryRow := { r with temporalStatus := .expired }

/-- `expire_due` on the rows that the database chose, tenant by tenant. -/
def expireDue (chosen : List String) (state : State) : State :=
  let out := state.memories.filter fun r => r.memoryId ∈ chosen
  let tenants := (out.map MemoryRow.tenantId).dedup
  let expired := state.assign (fun r => r.memoryId ∈ chosen) MemoryRow.expire
  tenants.foldl
    (fun state tenantId => invalidateDependents tenantId
      ((out.filter fun r => r.tenantId = tenantId).map MemoryRow.memoryId) state)
    expired

inductive Action where
  | add (memory : CanonicalMemory) (visibilityKeys : List String) (now : Instant)
  | update (memory : CanonicalMemory)
  | forget (tenantId memoryId : String) (now : Instant)
  | setStatus (tenantId memoryId : String) (status : TemporalStatus)
  | expireDue (now : Instant) (limit : Nat) (chosen : List String)

def step (state : State) : Action → Option State
  | .add memory visibilityKeys now => add memory visibilityKeys now state
  | .update memory => update memory state
  | .forget tenantId memoryId now => some (forget tenantId memoryId now state)
  | .setStatus tenantId memoryId status => some (setStatus tenantId memoryId status state)
  | .expireDue now limit chosen =>
    let due := (state.memories.filter (·.due now)).map MemoryRow.memoryId
    if chosen ⊆ due ∧ chosen.Nodup ∧ chosen.length = min limit due.length then
      some (expireDue chosen state)
    else none

end MemoryService.Memory
