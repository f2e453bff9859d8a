import MemoryService.Memory.Repository
import Mathlib.Data.List.Sort

/-!
# The job outbox

A job is a row that is committed with the change it is for.
-/

namespace MemoryService.Feedback

open Foundation Memory

structure JobSpec where
  tenantId : String
  memoryIds : List String
  idempotencyKey : Option String := none

variable (spec : JobSpec)

def JobSpec.names (tenantId memoryId : String) : Prop :=
  spec.tenantId = tenantId ∧ memoryId ∈ spec.memoryIds
deriving Decidable

structure OutboxRow where
  outboxId : Nat
  spec : JobSpec
  dispatchedAt : Option Nat := none
  attempts : Nat := 0
  dead : Bool := false

/-- `_undispatched`: the rows the relay still takes. -/
def OutboxRow.undispatched (row : OutboxRow) : Bool := row.dispatchedAt = none ∧ row.dead = false

def OutboxRow.markDispatched (now : Nat) (row : OutboxRow) : OutboxRow :=
  { row with dispatchedAt := some now, attempts := row.attempts + 1 }

/-- `mark_failed`, with the relay's limit of twenty attempts. -/
def OutboxRow.markFailed (row : OutboxRow) : OutboxRow :=
  { row with attempts := row.attempts + 1, dead := 20 ≤ row.attempts + 1 }

/-- `purge_dispatched`. -/
def purgeDispatched (now olderThan : Nat) (outbox : List OutboxRow) : List OutboxRow :=
  outbox.filter fun row =>
    ¬(row.dispatchedAt.any (fun dispatchedAt => dispatchedAt + olderThan < now) ∧ row.dead = false)

structure Job where
  spec : JobSpec
  started : Option Nat := none

def Job.holds (job : Job) : Bool :=
  job.started = none ∧ job.spec.idempotencyKey = spec.idempotencyKey

def locked (jobs : List Job) : Bool := spec.idempotencyKey.isSome && jobs.any (Job.holds spec)

/-- The queue's `enqueue`: a job that is already waiting is not queued again. -/
def enqueueJob (jobs : List Job) : List Job :=
  if locked spec jobs then jobs else jobs ++ [Job.mk spec none]

structure Uow where
  tenantId : String
  tables : Memory.State
  invalidated : List String := []
  enqueued : List JobSpec := []
  /-- the inserts whose key was taken -/
  absorbed : List JobSpec := []

/-- `SqlOutboxRepository.add`: `ON CONFLICT DO NOTHING` on a key. -/
def Uow.enqueue (outbox : List OutboxRow) (spec : JobSpec) (uow : Uow) : Uow :=
  let taken :=
    spec.idempotencyKey.isSome &&
      (outbox.any (fun row => row.spec.idempotencyKey = spec.idempotencyKey) ||
        uow.enqueued.any fun other => other.idempotencyKey = spec.idempotencyKey)
  if taken then { uow with absorbed := uow.absorbed ++ [spec] }
  else { uow with enqueued := uow.enqueued ++ [spec] }

/-- `memories.update`, with what it invalidates. -/
def Uow.update (memoryId : String) (assign : MemoryRow → MemoryRow) (uow : Uow) :
    Option Uow :=
  (writeRow uow.tenantId memoryId assign uow.tables).map fun tables =>
    let assigned := uow.tables.assign (MemoryRow.named uow.tenantId [memoryId]) assign
    { uow with
      tables
      invalidated := uow.invalidated ++ invalidatedIds uow.tenantId [memoryId] assigned }

def Uow.jobs (uow : Uow) : List JobSpec :=
  uow.enqueued ++
    if uow.invalidated = [] then []
    else [{ tenantId := uow.tenantId, memoryIds := uow.invalidated }]

/-!
## What a verdict does to memories

A projection is one transaction.  Each effect writes its memories and then asks for one index job
that names them, under a key that is a digest of their ids.  Confidence is moved with the row's
revision and not told apart from it here.
-/

open Domain

/-- `_reinforce`, `_adjust` and the undoing of either: only the revision shows. -/
def moved (r : MemoryRow) : MemoryRow := { r with revision := r.revision + 1 }

/-- `revisions.retract`. -/
def retracted (now : Instant) (r : MemoryRow) : MemoryRow :=
  { r with
    temporalStatus := .retracted
    validTo := some (r.validTo.getD now)
    revision := r.revision + 1 }

/-- `reinstate`: a superseded statement is reopened, an earlier value loses its mark. -/
def reinstated (reopened : Bool) (r : MemoryRow) : MemoryRow :=
  if reopened then
    { r with temporalStatus := .current, validTo := none, revision := r.revision + 1 }
  else moved r

/-- `_lift_retraction`. -/
def lifted (r : MemoryRow) : MemoryRow :=
  { r with temporalStatus := .current, validTo := none, revision := r.revision + 1 }

/-- `revisions.supersede`, the row that is replaced. -/
def superseded (now : Instant) (r : MemoryRow) : MemoryRow :=
  { r with
    temporalStatus := .superseded
    validTo := some (r.validTo.getD now)
    revision := r.revision + 1 }

/-- One effect of a verdict. -/
inductive Effect where
  | reinforce (memoryId : String)
  | retract (memoryId : String) (twins : List String) (restored : List (String × Bool))
  | lift (memoryId : String) (twins : List String) (retractedAt : Instant)
  | correct (memoryId : String) (twins : List String) (corrected : CanonicalMemory)
  | adjust (ids : List String)

section

variable (contentHash : String → Digest) (outbox : List OutboxRow) (now : Instant)

def feedbackKey (ids : List String) : String :=
  "memidx:feedback:" ++ (contentHash ("|".intercalate ids)).text

def Uow.reindex (ids : List String) (uow : Uow) : Uow :=
  let ids := ids.insertionSort (· ≤ ·)
  uow.enqueue outbox
    { tenantId := uow.tenantId
      memoryIds := ids
      idempotencyKey := some (feedbackKey contentHash ids) }

def Uow.updateEach (writes : List (String × (MemoryRow → MemoryRow))) (uow : Uow) :
    Option Uow :=
  writes.foldlM (fun uow write => uow.update write.1 write.2) uow

def Uow.updateAll (assign : MemoryRow → MemoryRow) (ids : List String) (uow : Uow) :
    Option Uow :=
  uow.updateEach (ids.map fun memoryId => (memoryId, assign))

def Uow.row (uow : Uow) (memoryId : String) : Option MemoryRow :=
  uow.tables.memories.find? (MemoryRow.live uow.tenantId memoryId)

def Uow.isCurrent (uow : Uow) (memoryId : String) : Bool :=
  (uow.row memoryId).any fun r => r.temporalStatus = .current

def Uow.retractedAt (uow : Uow) (retractedAt : Instant) (memoryId : String) : Bool :=
  (uow.row memoryId).any fun r => r.temporalStatus = .retracted ∧ r.validTo = some retractedAt

/-- `none` where the transaction raises. -/
def Effect.apply (uow : Uow) : Effect → Option Uow
  | .reinforce memoryId =>
    -- a memory that is gone, or not CURRENT, is not touched
    if uow.isCurrent memoryId then
      (uow.update memoryId moved).map (·.reindex contentHash outbox [memoryId])
    else some uow
  | .retract memoryId twins restored =>
    if uow.isCurrent memoryId then do
      let uow ← uow.updateAll (retracted now) (memoryId :: twins)
      let uow ← uow.updateEach (restored.map fun (id, reopened) => (id, reinstated reopened))
      some (uow.reindex contentHash outbox
        (memoryId :: twins ++ restored.map Prod.fst))
    else some uow
  | .lift memoryId twins retractedAt =>
    let ids := (memoryId :: twins).filter (uow.retractedAt retractedAt)
    if ids = [] then some uow
    else (uow.updateAll lifted ids).map (·.reindex contentHash outbox ids)
  | .correct memoryId twins corrected =>
    if uow.isCurrent memoryId then do
      let keys := (uow.row memoryId).elim [] MemoryRow.visibilityKeys
      let uow ← uow.updateAll (superseded now) (memoryId :: twins)
      if corrected.tenantId ≠ uow.tenantId then none
      let tables ← add corrected keys now uow.tables
      some ({ uow with tables }.reindex contentHash outbox
        (memoryId :: corrected.memoryId :: twins))
    else some uow
  | .adjust ids =>
    let current := ids.filter uow.isCurrent
    if current = [] then some uow
    else (uow.updateAll moved current).map (·.reindex contentHash outbox current)

def project (tenantId : String) (effects : List Effect) (tables : Memory.State) :
    Option Uow :=
  effects.foldlM (fun uow effect => effect.apply contentHash outbox now uow)
    { tenantId, tables }

end

structure Change where
  tenantId : String
  memoryId : String
  committed : Nat
  deriving DecidableEq

structure State where
  tables : Memory.State
  outbox : List OutboxRow := []
  nextId : Nat := 0
  jobs : List Job := []
  /-- the projection that has made its statements and is not committed yet -/
  uow : Option Uow := none
  clock : Nat := 0
  changes : List Change := []

inductive DispatchReply where
  | answers
  | raises
  | raisesAfter
  /-- the job is queued and the mark is lost -/
  | unmarked

inductive Action where
  | project (tenantId : String) (effects : List Effect) (now : Instant)
  | commit
  | rollback
  | dispatch (outboxId : Nat) (reply : DispatchReply)
  | start (place : Nat)
  /-- a job that failed waits again -/
  | retry (place : Nat)
  | purge (olderThan : Nat)
  | tick (time : Nat)

/-- The rows a commit inserts, numbered from `next`. -/
def inserted (next : Nat) : List JobSpec → List OutboxRow
  | [] => []
  | spec :: specs => { outboxId := next, spec } :: inserted (next + 1) specs

def changed (before after : Memory.State) (committed : Nat) : List Change :=
  (after.memories.filter fun r => r ∉ before.memories).map fun r =>
    { tenantId := r.tenantId, memoryId := r.memoryId, committed }

def State.dispatch (state : State) (row : OutboxRow) (reply : DispatchReply) : State :=
  let marked (assign : OutboxRow → OutboxRow) :=
    updateWhere (fun other => other.outboxId = row.outboxId) assign state.outbox
  match reply with
  | .answers =>
    { state with
      outbox := marked (OutboxRow.markDispatched state.clock)
      jobs := enqueueJob row.spec state.jobs }
  | .raises => { state with outbox := marked OutboxRow.markFailed }
  | .raisesAfter =>
    { state with
      outbox := marked OutboxRow.markFailed
      jobs := enqueueJob row.spec state.jobs }
  | .unmarked => { state with jobs := enqueueJob row.spec state.jobs }

def act (contentHash : String → Digest) (state : State) : Action → Option State
  | .project tenantId effects now =>
    if state.uow.isSome then none
    else
      (project contentHash state.outbox now tenantId effects state.tables).map
        fun uow => { state with uow := some uow }
  | .commit =>
    state.uow.map fun uow =>
      { state with
        tables := uow.tables
        outbox := state.outbox ++ inserted state.nextId uow.jobs
        nextId := state.nextId + uow.jobs.length
        uow := none
        changes := state.changes ++ changed state.tables uow.tables state.clock }
  | .rollback => some { state with uow := none }
  | .dispatch outboxId reply =>
    (state.outbox.find? fun row => row.outboxId = outboxId && row.undispatched).map
      fun row => state.dispatch row reply
  | .start place =>
    (state.jobs[place]?).map fun job =>
      { state with jobs := state.jobs.set place { job with started := some state.clock } }
  | .retry place =>
    (state.jobs[place]?).map fun job =>
      { state with jobs := state.jobs.set place { job with started := none } }
  | .purge olderThan =>
    some { state with outbox := purgeDispatched state.clock olderThan state.outbox }
  | .tick time => some { state with clock := state.clock + time }

def step (contentHash : String → Digest) (state : State) (action : Action) : Option State :=
  (act contentHash state action).map fun next => { next with clock := next.clock + 1 }

end MemoryService.Feedback
