import MemoryService.Foundation.Transition

/-!
# The episode of a deleted thread

Deleting a thread queues a job that finds it gone and takes its episode out of the index. A job
that read the thread before embeds its text meanwhile, and then upserts it.
-/

namespace MemoryService.Conversation.Recall

open Foundation

def summarySourceMessages : Nat := 200

def summaryMaxChars : Nat := 2000

inductive Task where
  | refresh
  | episode
  deriving DecidableEq

/-- The attempts that may follow the first. -/
def Task.retries : Task → Nat
  | .refresh => 3
  | .episode => 3

structure Message where
  sequence : Nat
  line : Option String
  deriving DecidableEq

structure Summary where
  version : Nat := 0
  text : String := ""
  coversToSequence : Nat := 0
  deriving DecidableEq

/-- How far a job is. -/
inductive Phase where
  | waiting
  | folding (version coversToSequence : Nat)
  | folded
  | indexing (text : String)
  /-- it found the thread gone, or nothing to recall -/
  | removing
  deriving DecidableEq

structure Job where
  task : Task
  attempts : Nat := 0
  phase : Phase := .waiting
  deriving DecidableEq

structure State where
  deleted : Bool := false
  messages : List Message := []
  summary : Summary := {}
  /-- the text of the record in the index -/
  episode : Option String := none
  /-- the rows that are not dispatched -/
  outbox : List Task := []
  jobs : List Job := []
  deriving DecidableEq

def listAfter (afterSequence : Nat) (messages : List Message) : List Message :=
  (messages.filter fun m => afterSequence < m.sequence).take summarySourceMessages

def digest (messages : List Message) : List String := messages.filterMap (·.line)

def fitted : List String → List String
  | [] => []
  | line :: lines =>
    if summaryMaxChars < ((line :: lines).map fun l => l.length + 1).foldr (· + ·) 0 then
      fitted lines
    else line :: lines

variable (blank : String → Bool) (state : State)

/-- `_episode_source`: the body, where the thread is there and the body is not blank. -/
def State.episodeSource : Option String :=
  if state.deleted then none
  else
    let tail := listAfter state.summary.coversToSequence state.messages
    let body := "\n".intercalate
      ((state.summary.text :: fitted (digest tail)).filter fun part => part ≠ "")
    if blank body then none else some body

/-- Where a job is once it has read the thread. -/
def State.sourced : Phase := (state.episodeSource blank).elim .removing .indexing

/-- A waiting job reads what it is for. -/
def State.opened : Task → Phase
  | .episode => state.sourced blank
  | .refresh =>
    if state.deleted then .folded
    else
      match (listAfter state.summary.coversToSequence state.messages).getLast? with
      | none => .folded
      | some last => .folding state.summary.version last.sequence

/-- A job goes on; `text` is the summary that was written. -/
def State.turned (task : Task) (text : String) :
    Phase → State × Option Phase
  | .waiting => (state, some (state.opened blank task))
  | .folding version coversToSequence =>
    -- the version may have been written meanwhile
    let summary : Summary :=
      if state.summary.version = version then ⟨version + 1, text, coversToSequence⟩
      else state.summary
    ({ state with summary }, some .folded)
  | .folded => (state, some (state.sourced blank))
  | .indexing body => ({ state with episode := some body }, none)
  | .removing => ({ state with episode := none }, none)

inductive Action where
  | append (message : Message) (asks : List Task)
  | delete
  | dispatch (place : Nat) (marked : Bool)
  /-- a row has failed for the last time -/
  | drop (place : Nat)
  | turn (place : Nat) (text : String)
  /-- a job fails, and waits to run again where it may -/
  | fail (place : Nat)

def State.moved (place : Nat) (job : Job) : Option Phase → State
  | some phase => { state with jobs := state.jobs.set place { job with phase } }
  | none => { state with jobs := state.jobs.eraseIdx place }

def Job.lastAttempt (job : Job) : Bool := job.task.retries ≤ job.attempts

def step : Action → Option State
  | .append message asks =>
    some { state with messages := state.messages ++ [message], outbox := state.outbox ++ asks }
  | .delete =>
    if state.deleted then none
    else some { state with deleted := true, outbox := state.outbox ++ [.episode] }
  | .dispatch place marked =>
    (state.outbox[place]?).map fun task =>
      { state with
        outbox := if marked then state.outbox.eraseIdx place else state.outbox
        jobs := state.jobs ++ [{ task }] }
  | .drop place =>
    (state.outbox[place]?).map fun _ => { state with outbox := state.outbox.eraseIdx place }
  | .turn place text =>
    (state.jobs[place]?).map fun job =>
      let turned := state.turned blank job.task text job.phase
      turned.1.moved place job turned.2
  | .fail place =>
    (state.jobs[place]?).map fun job =>
      if job.lastAttempt then state.moved place job none
      else
        { state with
          jobs := state.jobs.set place
            { job with attempts := job.attempts + 1, phase := .waiting } }

def Job.reads (job : Job) : Bool :=
  match job.phase with
  | .indexing _ => false
  | _ => true

/-- A job of the thread is still to read it, or is taking the episode out. -/
def State.ToCome : Prop := state.outbox ≠ [] ∨ ∃ job ∈ state.jobs, job.reads = true
deriving Decidable

/-- No job of the thread is left to run. -/
def State.Idle : Prop := state.outbox = [] ∧ state.jobs = []
deriving Decidable

/-- A deleted thread has no episode in the index. -/
def State.Forgotten : Prop := state.deleted = true → state.episode = none
deriving Decidable

def Job.upserts (job : Job) : Bool :=
  match job.phase with
  | .indexing _ => true
  | _ => false

def Timely : Action → Prop
  | .turn place _ => ∀ job ∈ state.jobs[place]?, job.upserts = true → state.deleted = true →
      State.ToCome { state with jobs := state.jobs.eraseIdx place }
  | .fail place => ∀ job ∈ state.jobs[place]?, job.lastAttempt = true → state.deleted = true →
      state.episode ≠ none → State.ToCome { state with jobs := state.jobs.eraseIdx place }
  | .drop place => state.deleted = true → state.episode ≠ none →
      State.ToCome { state with outbox := state.outbox.eraseIdx place }
  | _ => True

instance (state : State) (action) : Decidable (Timely state action) := by
  unfold Timely
  split <;> infer_instance

end MemoryService.Conversation.Recall

/-!
## A deleted thread is not recalled

Every job that reads the thread after the deletion finds it gone.  Only a job that read it before
may bring the episode back, and only the last one to come may leave it there.
-/

namespace MemoryService.Conversation.Recall

open Foundation

variable {blank : String → Bool} {state next : State} {place : Nat} {job : Job}

/-- The index holds no episode of a deleted thread, or one is still to be taken out. -/
def Kept (state : State) : Prop := state.deleted = true → state.episode = none ∨ state.ToCome

theorem Kept.forgotten (kept : Kept state) (idle : state.Idle) : state.Forgotten := by
  intro deleted
  refine (kept deleted).resolve_right fun toCome => ?_
  rcases toCome with isRow | ⟨job, isJob, -⟩
  · exact isRow idle.1
  · rw [idle.2] at isJob
    cases isJob

theorem toCome_moved {phase : Phase} (isJob : state.jobs[place]? = some job)
    (reads : job.reads = true → Job.reads { job with phase } = true)
    (toCome : state.ToCome) : State.ToCome (state.moved place job (some phase)) := by
  rcases toCome with isRow | ⟨other, isOther, toRead⟩
  · exact .inl isRow
  · rcases eq_or_mem_set isJob isOther with rfl | stays
    · exact .inr ⟨_, moved_mem_set isJob, reads toRead⟩
    · exact .inr ⟨other, stays, toRead⟩

theorem sourced_of_deleted (deleted : state.deleted = true) : state.sourced blank = .removing := by
  rw [State.sourced, State.episodeSource, if_pos deleted, Option.elim_none]

theorem sourced_reads (deleted : state.deleted = true) :
    Job.reads { job with phase := state.sourced blank } = true := by
  rw [sourced_of_deleted deleted]
  rfl

theorem opened_reads (task : Task) (deleted : state.deleted = true) :
    Job.reads { job with phase := state.opened blank task } = true := by
  cases task with
  | refresh => rw [State.opened, if_pos deleted]; rfl
  | episode => exact sourced_reads deleted

theorem turn_keeps {text : String} (isJob : state.jobs[place]? = some job)
    (timely : Timely state (.turn place text)) (kept : Kept state) :
    Kept ((state.turned blank job.task text job.phase).1.moved place job
      (state.turned blank job.task text job.phase).2) := by
  have early := timely job isJob
  cases phase : job.phase with
  | waiting =>
    intro deleted
    exact (kept deleted).imp_right (toCome_moved isJob fun _ => opened_reads job.task deleted)
  | folding version coversToSequence =>
    intro deleted
    exact (kept deleted).imp_right (toCome_moved isJob fun _ => rfl)
  | folded =>
    intro deleted
    exact (kept deleted).imp_right (toCome_moved isJob fun _ => sourced_reads deleted)
  | indexing body =>
    intro deleted
    right
    exact early (by rw [Job.upserts, phase]) deleted
  | removing => exact fun _ => .inl rfl

theorem step_keeps {action : Action} (timely : Timely state action) (kept : Kept state)
    (stepped : step blank state action = some next) : Kept next := by
  cases action with
  | append message asks =>
    cases stepped
    intro deleted
    refine (kept deleted).imp_right fun toCome => toCome.imp_left fun isRow empty => isRow ?_
    exact (List.append_eq_nil_iff.mp empty).1
  | delete =>
    rw [step] at stepped
    obtain ⟨-, stepped⟩ := Option.ite_none_left_eq_some.mp stepped
    cases stepped
    exact fun _ => .inr (.inl (by simp))
  | dispatch place marked =>
    obtain ⟨task, isRow, rfl⟩ := Option.map_eq_some_iff.mp stepped
    intro _
    exact .inr (.inr ⟨{ task }, by simp, rfl⟩)
  | drop place =>
    obtain ⟨task, isRow, rfl⟩ := Option.map_eq_some_iff.mp stepped
    intro deleted
    by_cases absent : state.episode = none
    · exact .inl absent
    · exact .inr (timely deleted absent)
  | turn place text =>
    obtain ⟨job, isJob, rfl⟩ := Option.map_eq_some_iff.mp stepped
    exact turn_keeps isJob timely kept
  | fail place =>
    obtain ⟨job, isJob, rfl⟩ := Option.map_eq_some_iff.mp stepped
    split
    case isTrue last =>
      intro deleted
      by_cases absent : state.episode = none
      · exact .inl absent
      · exact .inr (timely job isJob last deleted absent)
    case isFalse =>
      intro deleted
      refine (kept deleted).imp_right fun toCome => ?_
      exact .inr ⟨_, moved_mem_set isJob, rfl⟩

/-- In every run whose steps are timely, from any jobs that run or wait while the thread is
there, no episode of the deleted thread is left once no job is. -/
theorem deleted_thread_is_forgotten (blank : String → Bool) (start last : State)
    (actions : List Action) (live : start.deleted = false)
    (meets : Meets (step blank) Timely start actions)
    (reached : run (step blank) start actions = some last) (idle : last.Idle) :
    last.Forgotten := by
  have isLive : Kept start := fun deleted => by
    rw [live] at deleted
    cases deleted
  have kept : Kept last := run_invariant_of_meets
    (fun stepped timely kept => step_keeps timely kept stepped) reached meets isLive
  exact kept.forgotten idle

section Closed

private def told : State where
  messages := [{ sequence := 1, line := some "user: We ship in May." }]
  jobs := [{ task := .episode }]

private def gone (episode : Option String) : State where
  deleted := true
  messages := [{ sequence := 1, line := some "user: We ship in May." }]
  episode

/-- The deletion's job runs after the one that read the thread before. -/
theorem deleted_thread_is_forgotten_inTurn : (gone none).Forgotten :=
  deleted_thread_is_forgotten (fun text => text = "") told (gone none)
    [.turn 0 "", .delete, .turn 0 "", .dispatch 0 true, .turn 0 "", .turn 0 ""] rfl
    (by decide +kernel) (by decide +kernel) (by decide +kernel)

/-- A job reads the thread, the deletion's job takes the episode out, and the first one brings it
back. -/
theorem late_upsert_recalls_deleted_thread :
    ¬ ∀ (blank : String → Bool) (start last : State) (actions : List Action),
      start.deleted = false → run (step blank) start actions = some last → last.Idle →
        last.Forgotten := by
  intro forgotten
  have recalled := forgotten (fun text => text = "") told (gone (some "user: We ship in May."))
    [.turn 0 "", .delete, .dispatch 0 true, .turn 1 "", .turn 1 "", .turn 0 ""] rfl
    (by decide +kernel) (by decide +kernel)
  exact absurd recalled (by decide +kernel)

end Closed

end MemoryService.Conversation.Recall
