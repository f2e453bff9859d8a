import MemoryService.Foundation.Binary64
import MemoryService.Memory.Replacement
import MemoryService.Memory.Repository
import Mathlib.Data.List.Sort

/-!
# What a vote does to memories, and how it is undone

A vote on a memory reinforces or retracts it; a vote on a run moves the confidence of the
memories the run cited.
-/

namespace MemoryService.Feedback.Votes

open Domain Foundation Memory Statements

/-- How much one affirming verdict moves a memory's confidence. -/
def reinforcementStep : Rat := Binary64.round (1 / 10)

def citedConfidenceStep : Rat := Binary64.round (1 / 20)

/-- The lowest confidence a verdict can push a memory to. -/
def confidenceFloor : Rat := Binary64.round (1 / 20)

structure Store where
  rows : List CanonicalMemory
  dependencies : List MemoryDependencyRow := []

def Store.edges (store : Store) (tenantId : String) : List (String × String) :=
  (store.dependencies.filter fun d => d.tenantId = tenantId).map
    fun d => (d.sourceId, d.derivedId)

/-- Everything derived from a memory, however far. -/
def Store.derived (store : Store) (tenantId source : String) : List String :=
  reach (store.edges tenantId) [source]

variable (now : Instant)

def invalidated (r : CanonicalMemory) : CanonicalMemory :=
  { r with
    temporal := { r.temporal with status := .retracted }
    updatedAt := now
    revision := r.revision + 1 }

/-- `uow.memories.update`, with `_invalidate_dependents`. -/
def Store.update (store : Store) (memory : CanonicalMemory) : Store :=
  { store with
    rows :=
      updateWhere
        (fun r => r.tenantId = memory.tenantId ∧ r.temporal.status ≠ .retracted ∧
          r.memoryId ∈ store.derived memory.tenantId memory.memoryId)
        (invalidated now) (Statements.update memory store.rows) }

def Store.updateAll (store : Store) (memories : List CanonicalMemory) :
    Store :=
  memories.foldl (Store.update now) store

/-- A memory that is found and is `CURRENT`. -/
def Store.current (tenantId memoryId : String) (store : Store) :
    Option CanonicalMemory :=
  (Statements.get now tenantId memoryId store.rows).filter fun m => m.temporal.status = .current

variable (m : CanonicalMemory)

/-- `_reinforce`. -/
def reinforced : CanonicalMemory :=
  { m with
    reinforcementCount := m.reinforcementCount + 1
    confidence := min 1 (Binary64.add m.confidence reinforcementStep)
    updatedAt := now }

/-- `revisions.retract`. -/
def retracted : CanonicalMemory :=
  { m with
    temporal :=
      { m.temporal with status := .retracted, validTo := some (m.temporal.validTo.getD now) }
    updatedAt := now }

/-- What `_adjust` makes of one memory. -/
def adjusted (step : Rat) (reinforce : Int) (now : Instant) (m : CanonicalMemory) :
    CanonicalMemory :=
  { m with
    confidence := min 1 (max confidenceFloor (Binary64.add m.confidence step))
    reinforcementCount := (m.reinforcementCount + reinforce).toNat
    updatedAt := now }

variable (tenantId : String)

/-- `_adjust`, with the ids it returns. -/
def adjust (ids : List String) (step : Rat)
    (reinforce : Int) (store : Store) : Store × List String :=
  let memories := ids.filterMap fun memoryId => store.current now tenantId memoryId
  (store.updateAll now (memories.map (adjusted step reinforce now)),
    (memories.map CanonicalMemory.memoryId).insertionSort (· ≤ ·))

inductive Vote where
  | affirm (memoryId : String)
  | reject (memoryId : String)
  | correct (memoryId : String)
  | run (affirmed : Bool) (refs : List String) (teaches : Bool)

/-- `cited_memory_ids`: each once, and at most as many as one verdict may adjust. -/
def citedMemoryIds (refs : List String) : List String := refs.eraseDups.take 20

inductive Projection where
  | nothing
  | memoryReinforced
  | memoryRetracted (projectedAt : Instant)
  | runLabelled (memoryIds : List String)
  deriving DecidableEq

/-- `_retract`: the memory and its copies, and then what they had replaced. -/
def retract (memory : CanonicalMemory) (store : Store) :
    Store :=
  let wrong := memory :: twins memory.tenantId memory true store.rows
  let ids := wrong.map CanonicalMemory.memoryId
  let store := store.updateAll now (wrong.map (retracted now))
  let restored := store.rows.filter (Replacement.isReinstated tenantId ids)
  store.updateAll now (restored.map (Replacement.reinstated ids now))

def project (store : Store) : Vote → Store × Projection
  | .affirm memoryId =>
    match store.current now tenantId memoryId with
    | none => (store, .nothing)
    | some memory => (store.update now (reinforced now memory), .memoryReinforced)
  | .reject memoryId =>
    match store.current now tenantId memoryId with
    | none => (store, .nothing)
    | some memory => (retract now tenantId memory store, .memoryRetracted now)
  | .correct _ => (store, .nothing)
  | .run affirmed refs teaches =>
    if teaches then
      let step := if affirmed then citedConfidenceStep else -citedConfidenceStep
      let reinforce := if affirmed then 1 else 0
      let done := adjust now tenantId (citedMemoryIds refs) step reinforce store
      (done.1, .runLabelled done.2)
    else (store, .nothing)

def unreinforced : CanonicalMemory :=
  { m with
    confidence := max confidenceFloor (Binary64.sub m.confidence reinforcementStep)
    reinforcementCount := m.reinforcementCount - 1
    updatedAt := now }

def lifted : CanonicalMemory :=
  { m with
    temporal := { m.temporal with status := .current, validTo := none }
    updatedAt := now }

/-- `_lift_retraction`: those of the memory and its copies whose validity the vote closed. -/
def liftRetraction (memory : CanonicalMemory) (retractedAt : Instant)
    (store : Store) : Store :=
  let copies := memory :: twins memory.tenantId memory false store.rows
  let closed := copies.filter fun m =>
    m.temporal.status = .retracted ∧ m.temporal.validTo = some retractedAt
  store.updateAll now (closed.map (lifted now))

/-- The part of `_reverse` for a vote on a memory. -/
def reverseMemory (tenantId memoryId : String) (projection : Projection)
    (store : Store) : Store :=
  match Statements.get now tenantId memoryId store.rows, projection with
  | some memory, .memoryReinforced =>
    if memory.temporal.status = .current then store.update now (unreinforced now memory)
    else store
  | some memory, .memoryRetracted retractedAt => liftRetraction now memory retractedAt store
  | _, _ => store

/-- `_reverse`. -/
def reverse (projection : Projection) (store : Store) :
    Vote → Store
  | .affirm memoryId => reverseMemory now tenantId memoryId projection store
  | .reject memoryId => reverseMemory now tenantId memoryId projection store
  | .correct memoryId => reverseMemory now tenantId memoryId projection store
  | .run affirmed _ _ =>
    match projection with
    | .runLabelled ids =>
      let step := if affirmed then -citedConfidenceStep else citedConfidenceStep
      (adjust now tenantId ids step (if affirmed then -1 else 0) store).1
    | _ => store

end MemoryService.Feedback.Votes
