import MemoryService.Domain.Conversation
import MemoryService.Foundation.Table
import MemoryService.Foundation.Transition

/-!
# The jobs of a thread

Every message that is appended asks for a job that archives the thread, and nearly every one for
a job that indexes its episode.
-/

namespace MemoryService.Conversation

open Domain Foundation

inductive Task where
  | archive
  | episode
  | refresh
  deriving DecidableEq

/-- The attempts that may follow the first. -/
def Task.retries : Task → Nat
  | .archive => 10
  | .episode => 3
  | .refresh => 3

def episodeIndexDelaySeconds : Nat := 120

def summaryEvery : Nat := 20

def summarySourceMessages : Nat := 200

/-- `segment_max_messages * 4`. -/
def archivePage : Nat := 4 * 5000

inductive JobSpec where
  | archive (scheduleInSeconds : Nat)
  | episode (window : Nat)
  | refresh
  deriving DecidableEq

/-- `archive:thread:…`, or `episode:…:window`. -/
inductive JobKey where
  | archive
  | episode (window : Nat)
  deriving DecidableEq

namespace JobSpec

def task : JobSpec → Task
  | .archive _ => .archive
  | .episode _ => .episode
  | .refresh => .refresh

def idempotencyKey : JobSpec → Option JobKey
  | .archive _ => some .archive
  | .episode window => some (.episode window)
  | .refresh => none

def scheduleInSeconds : JobSpec → Nat
  | .archive seconds => seconds
  | .episode _ => episodeIndexDelaySeconds
  | .refresh => 0

theorem task_of_same_key {first second : JobSpec} {key : JobKey}
    (isFirst : first.idempotencyKey = some key) (isSecond : second.idempotencyKey = some key) :
    first.task = second.task := by
  cases first <;> cases second <;> cases isFirst <;> first | rfl | cases isSecond

end JobSpec

structure ThreadMessage where
  sequence : Nat
  kind : MessageKind
  archiveStatus : ArchiveStatus := .staged
  createdAt : Nat

structure ThreadSummary where
  version : Nat := 0
  coversToSequence : Nat := 0

structure EpisodeSource where
  covered : Nat
  tail : List Nat
  deriving DecidableEq

def EpisodeSource.Contains (source : EpisodeSource) (sequence : Nat) : Prop :=
  sequence ≤ source.covered ∨ sequence ∈ source.tail
deriving Decidable

structure OutboxRow where
  outboxId : Nat
  spec : JobSpec
  dispatchedAt : Option Nat := none
  attempts : Nat := 0
  dead : Bool := false
  deriving DecidableEq

def OutboxRow.undispatched (row : OutboxRow) : Bool := row.dispatchedAt = none ∧ row.dead = false

def OutboxRow.markDispatched (now : Nat) (row : OutboxRow) : OutboxRow :=
  { row with dispatchedAt := some now, attempts := row.attempts + 1 }

def OutboxRow.markFailed (row : OutboxRow) : OutboxRow :=
  { row with attempts := row.attempts + 1, dead := 20 ≤ row.attempts + 1 }

def purgeDispatched (now olderThan : Nat) (outbox : List OutboxRow) : List OutboxRow :=
  outbox.filter fun row =>
    ¬(row.dispatchedAt.any (fun dispatchedAt => dispatchedAt + olderThan < now) ∧ row.dead = false)

/-- How far a job is. -/
inductive Phase where
  | waiting
  | folding (version covered : Nat) (new : List Nat)
  | folded
  | indexing (source : EpisodeSource)
  | archiving (remaining : List Nat)
  deriving DecidableEq

def Phase.toRead : Phase → Bool
  | .waiting => true
  | .folding .. => true
  | .folded => true
  | .indexing _ => false
  | .archiving _ => false

/-- The job has read the message and has not written yet. -/
def Phase.Has (sequence : Nat) : Phase → Prop
  | .indexing source => source.Contains sequence
  | .archiving remaining => sequence ∈ remaining
  | _ => False

instance (sequence : Nat) : (phase : Phase) → Decidable (phase.Has sequence)
  | .indexing source => inferInstanceAs (Decidable (source.Contains sequence))
  | .archiving remaining => inferInstanceAs (Decidable (sequence ∈ remaining))
  | .waiting => inferInstanceAs (Decidable False)
  | .folding _ _ _ => inferInstanceAs (Decidable False)
  | .folded => inferInstanceAs (Decidable False)

structure Job where
  spec : JobSpec
  /-- when it may start -/
  due : Nat
  attempts : Nat := 0
  phase : Phase := .waiting

structure Transaction where
  messages : List ThreadMessage := []
  inserted : List JobSpec := []
  absorbed : List JobSpec := []

structure State where
  clock : Nat := 0
  messages : List ThreadMessage := []
  summary : ThreadSummary := {}
  episode : Option EpisodeSource := none
  transaction : Option Transaction := none
  outbox : List OutboxRow := []
  nextId : Nat := 0
  jobs : List Job := []

def nextSequence (messages : List ThreadMessage) : Nat :=
  messages.foldl (fun n m => max n m.sequence) 0 + 1

/-- `SqlOutboxRepository.add`. -/
def Transaction.enqueue (outbox : List OutboxRow) (spec : JobSpec) (transaction : Transaction) :
    Transaction :=
  let taken :=
    spec.idempotencyKey.isSome &&
      (outbox.any (fun row => row.spec.idempotencyKey = spec.idempotencyKey) ||
        transaction.inserted.any fun other => other.idempotencyKey = spec.idempotencyKey)
  if taken then { transaction with absorbed := transaction.absorbed ++ [spec] }
  else { transaction with inserted := transaction.inserted ++ [spec] }

variable (state : State)

/-- `append_message`, from the sequence on. -/
def State.append (kind : MessageKind) : Transaction :=
  let transaction := state.transaction.getD {}
  let sequence := nextSequence (state.messages ++ transaction.messages)
  let message : ThreadMessage := { sequence, kind, createdAt := state.clock }
  let appended : Transaction :=
    Transaction.enqueue state.outbox (.archive 60)
      { transaction with messages := transaction.messages ++ [message] }
  if sequence % summaryEvery = 0 then appended.enqueue state.outbox .refresh
  else if kind = .visible then
    -- the window is the clock's when the message is appended
    appended.enqueue state.outbox (.episode (state.clock / episodeIndexDelaySeconds))
  else appended

/-- The rows a commit inserts, numbered from `next`. -/
def inserted (next : Nat) : List JobSpec → List OutboxRow
  | [] => []
  | spec :: specs => { outboxId := next, spec } :: inserted (next + 1) specs

def State.commit (transaction : Transaction) : State :=
  { state with
    messages := state.messages ++ transaction.messages
    outbox := state.outbox ++ inserted state.nextId transaction.inserted
    nextId := state.nextId + transaction.inserted.length
    transaction := none }

/-- `reconcile`: a thread with a message that has been staged for long is queued again. -/
def State.requeue : State :=
  let stale := state.messages.any fun m =>
    m.archiveStatus = .staged ∧ m.createdAt + 900 ≤ state.clock
  if stale then
    state.commit (Transaction.enqueue state.outbox (.archive 0) {}) |> fun next =>
      { next with transaction := state.transaction }
  else state

def locked (spec : JobSpec) (jobs : List Job) : Bool :=
  spec.idempotencyKey.isSome &&
    jobs.any fun job => job.phase = .waiting ∧ job.spec.idempotencyKey = spec.idempotencyKey

def enqueueJob (clock : Nat) (spec : JobSpec) (jobs : List Job) : List Job :=
  if locked spec jobs then jobs
  else jobs ++ [{ spec, due := clock + spec.scheduleInSeconds }]

inductive DispatchReply where
  | answers
  | raises
  | raisesAfter
  /-- the job is queued and the mark is lost -/
  | unmarked
  deriving DecidableEq

/-- `_dispatch`. -/
def State.dispatch (row : OutboxRow) (reply : DispatchReply) : State :=
  let marked (assign : OutboxRow → OutboxRow) :=
    updateWhere (fun other => other.outboxId = row.outboxId) assign state.outbox
  let queued := enqueueJob state.clock row.spec state.jobs
  match reply with
  | .answers =>
    { state with outbox := marked (OutboxRow.markDispatched state.clock), jobs := queued }
  | .raises => { state with outbox := marked OutboxRow.markFailed }
  | .raisesAfter => { state with outbox := marked OutboxRow.markFailed, jobs := queued }
  | .unmarked => { state with jobs := queued }

/-- `list_after`: the visible messages after a sequence, the first of them. -/
def listAfter (afterSequence limit : Nat) (messages : List ThreadMessage) : List Nat :=
  ((messages.filter fun m => m.kind = .visible ∧ afterSequence < m.sequence).map
    ThreadMessage.sequence).take limit

/-- `_episode_source`. -/
def State.episodeSource : EpisodeSource where
  covered := state.summary.coversToSequence
  tail := listAfter state.summary.coversToSequence summarySourceMessages state.messages

/-- `list_staged` of the thread. -/
def listStaged (limit : Nat) (messages : List ThreadMessage) : List Nat :=
  ((messages.filter fun m => m.archiveStatus = .staged).map ThreadMessage.sequence).take limit

def markArchived (sequences : List Nat) : List ThreadMessage → List ThreadMessage :=
  updateWhere (fun m => m.sequence ∈ sequences) fun m => { m with archiveStatus := .archived }

/-- What a job reads first; `none` where it then has nothing to do. -/
def State.opened : Task → Option Phase
  | .archive =>
    match listStaged archivePage state.messages with
    | [] => none
    | staged => some (.archiving staged)
  | .episode => some (.indexing state.episodeSource)
  | .refresh =>
    let covered := state.summary.coversToSequence
    match listAfter covered summarySourceMessages state.messages with
    | [] => some .folded
    | new => some (.folding state.summary.version covered new)

/-- A job that runs makes its next write. -/
def State.turned (size : Nat) : Phase → Option (State × Option Phase)
  | .waiting => none
  | .folding version covered new =>
    -- the version may have been written meanwhile
    let summary : ThreadSummary :=
      if state.summary.version = version then ⟨version + 1, new.getLastD covered⟩
      else state.summary
    some ({ state with summary }, some .folded)
  | .folded => some (state, some (.indexing state.episodeSource))
  | .indexing source => some ({ state with episode := some source }, none)
  | .archiving remaining =>
    let later := remaining.drop (size + 1)
    some
      ({ state with messages := markArchived (remaining.take (size + 1)) state.messages },
        if later = [] then none else some (.archiving later))

def State.moved (place : Nat) (job : Job) : Option Phase → State
  | some phase => { state with jobs := state.jobs.set place { job with phase } }
  | none => { state with jobs := state.jobs.eraseIdx place }

def archiving (jobs : List Job) : Bool :=
  jobs.any fun job => job.spec.task = .archive ∧ job.phase ≠ .waiting

inductive Action where
  | append (kind : MessageKind)
  | commit
  | rollback
  | dispatch (outboxId : Nat) (reply : DispatchReply)
  | start (place : Nat)
  | turn (place size : Nat)
  /-- the job raises, and waits again while attempts are left -/
  | fail (place : Nat)
  | requeue
  | purge (olderThan : Nat)
  | tick (seconds : Nat)

def Job.givesUp (job : Job) : Bool := job.spec.task.retries ≤ job.attempts

def step : Action → Option State
  | .append kind => some { state with transaction := some (state.append kind) }
  | .commit => state.transaction.map state.commit
  | .rollback => some { state with transaction := none }
  | .dispatch outboxId reply =>
    (state.outbox.find? fun row => row.outboxId = outboxId && row.undispatched).map
      fun row => state.dispatch row reply
  | .start place =>
    state.jobs[place]?.bind fun job =>
      if job.phase = .waiting ∧ job.due ≤ state.clock ∧
          ¬(job.spec.task = .archive ∧ archiving state.jobs) then
        some (state.moved place job (state.opened job.spec.task))
      else none
  | .turn place size =>
    state.jobs[place]?.bind fun job =>
      (state.turned size job.phase).map fun (next, phase) => next.moved place job phase
  | .fail place =>
    state.jobs[place]?.bind fun job =>
      if job.phase = .waiting then none
      else if job.givesUp then some (state.moved place job none)
      else
        some
          { state with
            jobs :=
              state.jobs.set place
                { job with
                  phase := .waiting
                  attempts := job.attempts + 1
                  due := state.clock + 1 + Nat.pow 2 (job.attempts + 1) } }
  | .requeue => some state.requeue
  | .purge olderThan =>
    some { state with outbox := purgeDispatched state.clock olderThan state.outbox }
  | .tick seconds => some { state with clock := state.clock + seconds }

def archives (task : Task) : Bool := task = .archive

def indexes (task : Task) : Bool := task ≠ .archive

section

variable (kind : Task → Bool)

/-- A row or a job of the kind is to come that reads the thread. -/
def State.Waits (state : State) : Prop :=
  (∃ row ∈ state.outbox, row.undispatched = true ∧ kind row.spec.task = true) ∨
    ∃ job ∈ state.jobs, kind job.spec.task = true ∧ job.phase.toRead = true
deriving Decidable

/-- A job of the kind is to read the messages, or has read this one and is to write. -/
def State.ToCome (state : State) (sequence : Nat) : Prop :=
  state.Waits kind ∨ ∃ job ∈ state.jobs, kind job.spec.task = true ∧ job.phase.Has sequence
deriving Decidable

end

def State.without (state : State) (place : Nat) : State :=
  { state with jobs := state.jobs.eraseIdx place }

def State.withoutRow (state : State) (outboxId : Nat) : State :=
  { state with outbox := state.outbox.filter fun row => row.outboxId ≠ outboxId }

def lastFailure (row : OutboxRow) (reply : DispatchReply) : Bool :=
  reply = .raises ∧ 20 ≤ row.attempts + 1

end MemoryService.Conversation
