import MemoryService.Conversation.ThreadJobs

/-!
# What becomes of the jobs to come

A job of a kind that is to come stays so over every step but its own.
-/

namespace MemoryService.Conversation

open Foundation List Option

variable {kind : Task → Bool} {state next : State} {action : Action} {sequence place : ℕ}

def Action.jobAt : Action → Option ℕ
  | .start place => some place
  | .turn place _ => some place
  | .fail place => some place
  | _ => none

def Job.Fits (job : Job) : Prop :=
  match job.phase with
  | .waiting => True
  | .archiving _ => job.spec.task = .archive
  | .folding .. => job.spec.task = .refresh
  | .folded => job.spec.task = .refresh
  | .indexing _ => job.spec.task ≠ .archive

structure State.Sound (state : State) : Prop where
  fits : ∀ job ∈ state.jobs, job.Fits
  ids : (state.outbox.map OutboxRow.outboxId).Nodup
  below : ∀ row ∈ state.outbox, row.outboxId < state.nextId

variable {first size : ℕ} {specs : List JobSpec} {row : OutboxRow} {spec : JobSpec}
  {transaction : Transaction} {jobs : List Job} {job : Job} {phase : Phase} {reply : DispatchReply}
  {assign : OutboxRow → OutboxRow} {outbox : List OutboxRow}

theorem mem_inserted :
    row ∈ inserted first specs → row.spec ∈ specs ∧ row.undispatched = true ∧
      first ≤ row.outboxId ∧ row.outboxId < first + specs.length := by
  induction specs generalizing first with
  | nil => exact fun member => absurd member not_mem_nil
  | cons spec specs ih =>
    intro member
    rcases mem_cons.mp member with rfl | isLater
    · exact ⟨mem_cons_self, rfl, Nat.le_refl _, by simp⟩
    · obtain ⟨isSpec, undispatched, above, below⟩ := ih isLater
      refine ⟨mem_cons_of_mem _ isSpec, undispatched, by omega, ?_⟩
      rw [length_cons]
      omega

theorem inserted_of_mem (first : ℕ) (member : spec ∈ specs) :
    ∃ row ∈ inserted first specs, row.undispatched = true ∧ row.spec = spec := by
  induction specs generalizing first with
  | nil => cases member
  | cons head specs ih =>
    rcases mem_cons.mp member with rfl | isLater
    · exact ⟨_, mem_cons_self, rfl, rfl⟩
    · obtain ⟨row, isRow, undispatched, isSpec⟩ := ih (first + 1) isLater
      exact ⟨row, mem_cons_of_mem _ isRow, undispatched, isSpec⟩

theorem inserted_nodup : ((inserted first specs).map OutboxRow.outboxId).Nodup := by
  induction specs generalizing first with
  | nil => exact nodup_nil
  | cons spec specs ih =>
    refine nodup_cons.mpr ⟨fun again => ?_, ih⟩
    obtain ⟨row, isRow, sameId⟩ := mem_map.mp again
    have above := (mem_inserted isRow).2.2.1
    simp only at sameId
    omega

theorem sound_commit (sound : state.Sound) : (state.commit transaction).Sound where
  fits := sound.fits
  ids := by
    rw [State.commit, map_append, nodup_append]
    refine ⟨sound.ids, inserted_nodup, fun first isFirst second isSecond => ?_⟩
    obtain ⟨row, isRow, rfl⟩ := mem_map.mp isFirst
    obtain ⟨other, isOther, rfl⟩ := mem_map.mp isSecond
    have below := sound.below row isRow
    have above := (mem_inserted isOther).2.2.1
    omega
  below := by
    intro row isRow
    rcases mem_append.mp isRow with before | isNew
    · exact Nat.lt_of_lt_of_le (sound.below row before) (Nat.le_add_right _ _)
    · exact (mem_inserted isNew).2.2.2

theorem requeue_cases (state : State) :
    state.requeue = state ∨ ∃ transaction : Transaction, transaction.messages = [] ∧
      state.requeue = { state.commit transaction with transaction := state.transaction } := by
  rw [State.requeue]
  split
  case isFalse => exact .inl rfl
  case isTrue =>
    refine .inr ⟨_, ?_, rfl⟩
    rw [Transaction.enqueue]
    split <;> rfl

theorem messages_step (stepped : step state action = some next) (notJob : action.jobAt = none) :
    next.episode = state.episode ∧ (next.messages = state.messages ∨
      ∃ transaction, action = .commit ∧ state.transaction = some transaction ∧
        next = state.commit transaction) := by
  cases action with
  | append | rollback | purge | tick =>
    cases stepped
    exact ⟨rfl, .inl rfl⟩
  | commit =>
    obtain ⟨transaction, isOpen, rfl⟩ := Option.map_eq_some_iff.mp stepped
    exact ⟨rfl, .inr ⟨transaction, rfl, isOpen, rfl⟩⟩
  | dispatch outboxId reply =>
    obtain ⟨row, -, rfl⟩ := Option.map_eq_some_iff.mp stepped
    cases reply <;> exact ⟨rfl, .inl rfl⟩
  | requeue =>
    cases stepped
    rcases requeue_cases state with same | ⟨transaction, empty, same⟩
    · rw [same]
      exact ⟨rfl, .inl rfl⟩
    · rw [same]
      refine ⟨rfl, .inl ?_⟩
      simp only [State.commit, empty, append_nil]
  | start | turn | fail => cases notJob

theorem mem_enqueueJob {clock : ℕ} (member : job ∈ enqueueJob clock spec jobs) :
    job ∈ jobs ∨ (job.spec = spec ∧ job.phase = .waiting) := by
  rw [enqueueJob] at member
  split at member
  case isTrue => exact .inl member
  case isFalse =>
    rcases mem_concat.mp member with before | rfl
    · exact .inl before
    · exact .inr ⟨rfl, rfl⟩

def replaced (jobs : List Job) (place : ℕ) : Option Job → List Job
  | some job => jobs.set place job
  | none => jobs.eraseIdx place

/-- What a step of a job leaves alone. -/
structure JobStep (state next : State) (place : ℕ) (job : Job) (after : Option Job) : Prop where
  isJob : state.jobs[place]? = some job
  jobs : next.jobs = replaced state.jobs place after
  outbox : next.outbox = state.outbox
  nextId : next.nextId = state.nextId
  spec : ∀ job' ∈ after, job'.spec = job.spec
  fits : job.Fits → ∀ job' ∈ after, job'.Fits

theorem jobs_moved (state : State) (place : ℕ) (job : Job) (phase : Option Phase) :
    (state.moved place job phase).jobs =
      replaced state.jobs place (phase.map fun phase => { job with phase }) := by
  cases phase <;> rfl

theorem opened_fits {task : Task} (opened : state.opened task = some phase)
    (isTask : job.spec.task = task) : Job.Fits { job with phase } := by
  cases task with
  | archive =>
    rw [State.opened] at opened
    split at opened
    case h_1 => cases opened
    case h_2 =>
      cases opened
      exact isTask
  | episode =>
    cases opened
    rw [Job.Fits, isTask]
    exact Task.noConfusion
  | refresh =>
    rw [State.opened] at opened
    split at opened <;> cases opened <;> exact isTask

theorem turned_fits {after : Option Phase}
    (turned : state.turned size job.phase = some (next, after)) (fits : job.Fits) :
    ∀ phase ∈ after, Job.Fits { job with phase } := by
  rw [Job.Fits] at fits
  cases current : job.phase with
  | waiting =>
    rw [current] at turned
    cases turned
  | folding version covered new =>
    rw [current] at turned fits
    cases turned
    intro phase isPhase
    cases isPhase
    exact fits
  | folded =>
    rw [current] at turned fits
    cases turned
    intro phase isPhase
    cases isPhase
    rw [Job.Fits, fits]
    exact Task.noConfusion
  | indexing source =>
    rw [current] at turned
    cases turned
    intro phase isPhase
    cases isPhase
  | archiving remaining =>
    rw [current] at turned fits
    cases turned
    intro phase isPhase
    split at isPhase
    · cases isPhase
    · cases isPhase
      exact fits

theorem turned_tables {after : Option Phase}
    (turned : state.turned size phase = some (next, after)) :
    next.jobs = state.jobs ∧ next.outbox = state.outbox ∧ next.nextId = state.nextId := by
  cases phase with
  | waiting => cases turned
  | folding | folded | indexing | archiving =>
    cases turned
    exact ⟨rfl, rfl, rfl⟩

theorem moved_tables (state : State) (place : ℕ) (job : Job) (phase : Option Phase) :
    (state.moved place job phase).outbox = state.outbox ∧
      (state.moved place job phase).nextId = state.nextId ∧
      (state.moved place job phase).messages = state.messages ∧
      (state.moved place job phase).episode = state.episode := by
  cases phase <;> exact ⟨rfl, rfl, rfl, rfl⟩

theorem start_cases (stepped : step state (.start place) = some next) :
    ∃ job, state.jobs[place]? = some job ∧ job.phase = .waiting ∧
      next = state.moved place job (state.opened job.spec.task) := by
  simp only [step] at stepped
  obtain ⟨job, isJob, stepped⟩ := Option.bind_eq_some_iff.mp stepped
  obtain ⟨ready, stepped⟩ := ite_none_right_eq_some.mp stepped
  cases stepped
  exact ⟨job, isJob, ready.1, rfl⟩

theorem turn_cases (stepped : step state (.turn place size) = some next) :
    ∃ job wrote after, state.jobs[place]? = some job ∧
      state.turned size job.phase = some (wrote, after) ∧ next = wrote.moved place job after := by
  simp only [step] at stepped
  obtain ⟨job, isJob, stepped⟩ := Option.bind_eq_some_iff.mp stepped
  obtain ⟨⟨wrote, after⟩, turned, rfl⟩ := Option.map_eq_some_iff.mp stepped
  exact ⟨job, wrote, after, isJob, turned, rfl⟩

theorem fail_cases (stepped : step state (.fail place) = some next) :
    ∃ job, state.jobs[place]? = some job ∧ job.phase ≠ .waiting ∧
      ((job.givesUp = true ∧ next = state.moved place job none) ∨
        ∃ again : Job, again.spec = job.spec ∧ again.phase = .waiting ∧
          next = { state with jobs := state.jobs.set place again }) := by
  simp only [step] at stepped
  obtain ⟨job, isJob, stepped⟩ := Option.bind_eq_some_iff.mp stepped
  obtain ⟨isRunning, stepped⟩ := ite_none_left_eq_some.mp stepped
  refine ⟨job, isJob, isRunning, ?_⟩
  split at stepped
  case isTrue last =>
    cases stepped
    exact .inl ⟨last, rfl⟩
  case isFalse =>
    cases stepped
    exact Or.inr
      ⟨{ job with
          phase := .waiting
          attempts := job.attempts + 1
          due := state.clock + 1 + Nat.pow 2 (job.attempts + 1) }, rfl, rfl, rfl⟩

theorem start_step (stepped : step state (.start place) = some next) :
    ∃ job, next = state.moved place job (state.opened job.spec.task) ∧
      JobStep state next place job
        ((state.opened job.spec.task).map fun phase => { job with phase }) := by
  obtain ⟨job, isJob, isWaiting, rfl⟩ := start_cases stepped
  have tables := moved_tables state place job (state.opened job.spec.task)
  refine ⟨job, rfl, isJob, jobs_moved _ _ _ _, tables.1, tables.2.1, ?_, fun _ => ?_⟩
  · intro job' isAfter
    obtain ⟨phase, -, rfl⟩ := Option.map_eq_some_iff.mp isAfter
    rfl
  · intro job' isAfter
    obtain ⟨phase, opened, rfl⟩ := Option.map_eq_some_iff.mp isAfter
    exact opened_fits opened rfl

theorem turn_step (stepped : step state (.turn place size) = some next) :
    ∃ job wrote after, state.turned size job.phase = some (wrote, after) ∧
      next = wrote.moved place job after ∧
        JobStep state next place job (after.map fun phase => { job with phase }) := by
  obtain ⟨job, wrote, after, isJob, turned, rfl⟩ := turn_cases stepped
  obtain ⟨sameJobs, sameOutbox, sameNext⟩ := turned_tables turned
  have tables := moved_tables wrote place job after
  refine ⟨job, wrote, after, turned, rfl, isJob, by rw [jobs_moved, sameJobs],
    by rw [tables.1, sameOutbox], by rw [tables.2.1, sameNext], ?_, fun fits => ?_⟩
  · intro job' isAfter
    obtain ⟨phase, -, rfl⟩ := Option.map_eq_some_iff.mp isAfter
    rfl
  · intro job' isAfter
    obtain ⟨phase, isPhase, rfl⟩ := Option.map_eq_some_iff.mp isAfter
    exact turned_fits turned fits phase isPhase

theorem fail_step (stepped : step state (.fail place) = some next) :
    next.messages = state.messages ∧ next.episode = state.episode ∧
      ∃ job after, JobStep state next place job after ∧
        (job.givesUp = true ∨ ∃ again ∈ after, again.phase = .waiting) := by
  obtain ⟨job, isJob, -, ⟨givesUp, rfl⟩ | ⟨again, sameSpec, isWaiting, rfl⟩⟩ := fail_cases stepped
  · exact ⟨rfl, rfl, job, none, ⟨isJob, rfl, rfl, rfl, by simp, by simp⟩, .inl givesUp⟩
  · refine ⟨rfl, rfl, job, some again, ⟨isJob, rfl, rfl, rfl, ?_, fun _ => ?_⟩,
      .inr ⟨again, rfl, isWaiting⟩⟩
    · intro job' isAfter
      cases isAfter
      exact sameSpec
    · intro job' isAfter
      cases isAfter
      rw [Job.Fits, isWaiting]
      trivial

theorem job_step (isPlace : action.jobAt = some place) (stepped : step state action = some next) :
    ∃ job after, JobStep state next place job after := by
  cases action with
  | start other =>
    cases isPlace
    obtain ⟨job, -, moved⟩ := start_step stepped
    exact ⟨job, _, moved⟩
  | turn other size =>
    cases isPlace
    obtain ⟨job, wrote, after, -, -, moved⟩ := turn_step stepped
    exact ⟨job, _, moved⟩
  | fail other =>
    cases isPlace
    obtain ⟨-, -, job, after, moved, -⟩ := fail_step stepped
    exact ⟨job, after, moved⟩
  | append | commit | rollback | dispatch | requeue | purge | tick => cases isPlace

theorem JobStep.mem_cases {after : Option Job}
    (moved : JobStep state next place job after) {other : Job} (member : other ∈ next.jobs) :
    other ∈ after ∨ other ∈ state.jobs := by
  rw [moved.jobs] at member
  cases after with
  | none => exact .inr (mem_of_mem_eraseIdx member)
  | some moved =>
    rcases mem_or_eq_of_mem_set member with isOld | rfl
    · exact .inr isOld
    · exact .inl rfl

theorem JobStep.moved_mem {job' : Job}
    (moved : JobStep state next place job (some job')) : job' ∈ next.jobs := by
  rw [moved.jobs]
  exact moved_mem_set moved.isJob

theorem JobStep.without {after : Option Job} (moved : JobStep state next place job after)
    (rest : (state.without place).ToCome kind sequence) :
    next.ToCome kind sequence := by
  have stays : ∀ other ∈ state.jobs.eraseIdx place, other ∈ next.jobs := by
    intro other member
    rw [moved.jobs]
    cases after with
    | none => exact member
    | some moved' =>
      obtain ⟨index, different, isAt⟩ := mem_eraseIdx_iff_getElem?.mp member
      refine mem_iff_getElem?.mpr ⟨index, ?_⟩
      rw [replaced, getElem?_set_ne (Ne.symm different)]
      exact isAt
  rcases rest with (⟨row, isRow, undispatched, isKind⟩ | ⟨other, isOther, isKind, toRead⟩) |
    ⟨other, isOther, isKind, has⟩
  · exact .inl (.inl ⟨row, by rw [moved.outbox]; exact isRow, undispatched, isKind⟩)
  · exact .inl (.inr ⟨other, stays other isOther, isKind, toRead⟩)
  · exact .inr ⟨other, stays other isOther, isKind, has⟩

theorem toCome_cases (isJob : state.jobs[place]? = some job) (toCome : state.ToCome kind sequence) :
    (kind job.spec.task = true ∧ (job.phase.toRead = true ∨ job.phase.Has sequence)) ∨
      (state.without place).ToCome kind sequence := by
  rcases toCome with (isRow | ⟨other, isOther, isKind, toRead⟩) | ⟨other, isOther, isKind, has⟩
  · exact .inr (.inl (.inl isRow))
  · rcases eq_or_mem_eraseIdx isJob isOther with rfl | stays
    · exact .inl ⟨isKind, .inl toRead⟩
    · exact .inr (.inl (.inr ⟨other, stays, isKind, toRead⟩))
  · rcases eq_or_mem_eraseIdx isJob isOther with rfl | stays
    · exact .inl ⟨isKind, .inr has⟩
    · exact .inr (.inr ⟨other, stays, isKind, has⟩)

theorem dispatch_cases {outboxId : ℕ}
    (stepped : step state (.dispatch outboxId reply) = some next) :
    ∃ row ∈ state.outbox, row.outboxId = outboxId ∧ row.undispatched = true ∧
      next = state.dispatch row reply := by
  obtain ⟨row, found, rfl⟩ := map_eq_some_iff.mp stepped
  have isRow : row.outboxId = outboxId ∧ row.undispatched = true := by
    simpa using find?_some found
  exact ⟨row, mem_of_find?_eq_some found, isRow.1, isRow.2, rfl⟩

theorem enqueueJob_fits (fits : ∀ job ∈ state.jobs, job.Fits) :
    ∀ job ∈ enqueueJob state.clock spec state.jobs, job.Fits := by
  intro job member
  rcases mem_enqueueJob member with before | ⟨-, isWaiting⟩
  · exact fits job before
  · rw [Job.Fits, isWaiting]
    trivial

theorem sound_marked {selects : OutboxRow → Bool}
    (keepsId : ∀ row, (assign row).outboxId = row.outboxId)
    (sound : state.Sound) (fits : ∀ job ∈ jobs, job.Fits) :
    State.Sound { state with outbox := updateWhere selects assign state.outbox, jobs } where
  fits
  ids := by
    rw [map_updateWhere keepsId]
    exact sound.ids
  below := by
    intro row isRow
    obtain ⟨old, isOld, sameId⟩ := exists_of_mem_updateWhere keepsId isRow
    rw [← sameId]
    exact sound.below old isOld

theorem sound_dispatch (reply : DispatchReply) (sound : state.Sound) :
    (state.dispatch row reply).Sound := by
  have fits : ∀ job ∈ enqueueJob state.clock row.spec state.jobs, job.Fits :=
    enqueueJob_fits sound.fits
  cases reply with
  | answers => exact sound_marked (fun _ => rfl) sound fits
  | raises => exact sound_marked (fun _ => rfl) sound sound.fits
  | raisesAfter => exact sound_marked (fun _ => rfl) sound fits
  | unmarked => exact ⟨fits, sound.ids, sound.below⟩

theorem sound_step (stepped : step state action = some next) (sound : state.Sound) :
    next.Sound := by
  cases isJob : action.jobAt with
  | some place =>
    obtain ⟨job, after, moved⟩ := job_step isJob stepped
    refine ⟨fun other member => ?_, ?_, ?_⟩
    · rcases moved.mem_cases member with isMoved | before
      · exact moved.fits (sound.fits job (mem_of_getElem? moved.isJob)) other isMoved
      · exact sound.fits other before
    · rw [moved.outbox]
      exact sound.ids
    · rw [moved.outbox, moved.nextId]
      exact sound.below
  | none =>
    cases action with
    | append | rollback | tick =>
      cases stepped
      exact ⟨sound.fits, sound.ids, sound.below⟩
    | commit =>
      obtain ⟨transaction, -, rfl⟩ := map_eq_some_iff.mp stepped
      exact sound_commit sound
    | dispatch outboxId reply =>
      obtain ⟨row, -, -, -, rfl⟩ := dispatch_cases stepped
      exact sound_dispatch reply sound
    | requeue =>
      cases stepped
      rcases requeue_cases state with same | ⟨transaction, -, same⟩
      · rw [same]
        exact sound
      · have committed : (state.commit transaction).Sound := sound_commit sound
        rw [same]
        exact ⟨committed.fits, committed.ids, committed.below⟩
    | purge olderThan =>
      cases stepped
      refine ⟨sound.fits, ?_, fun row isRow => sound.below row (mem_of_mem_filter isRow)⟩
      exact sound.ids.sublist (filter_sublist.map _)
    | start | turn | fail => cases isJob

theorem sound_of_run {actions : List Action} (reached : run step {} actions = some state) :
    state.Sound := by
  refine run_invariant sound_step reached ⟨?_, nodup_nil, ?_⟩
  · intro job member
    cases member
  · intro row member
    cases member

theorem ToCome.grow {more : State} (toCome : state.ToCome kind sequence)
    (outbox : ∀ row ∈ state.outbox, row.undispatched = true → row ∈ more.outbox)
    (jobs : ∀ job ∈ state.jobs, job ∈ more.jobs) : more.ToCome kind sequence := by
  rcases toCome with (⟨row, isRow, undispatched, isKind⟩ | ⟨job, isJob, isKind, toRead⟩) |
    ⟨job, isJob, isKind, has⟩
  · exact .inl (.inl ⟨row, outbox row isRow undispatched, undispatched, isKind⟩)
  · exact .inl (.inr ⟨job, jobs job isJob, isKind, toRead⟩)
  · exact .inr ⟨job, jobs job isJob, isKind, has⟩

theorem enqueueJob_waits (clock : ℕ) (spec : JobSpec) (jobs : List Job) :
    ∃ job ∈ enqueueJob clock spec jobs, job.spec.task = spec.task ∧ job.phase = .waiting := by
  rw [enqueueJob]
  split
  case isTrue isLocked =>
    rw [locked, Bool.and_eq_true] at isLocked
    obtain ⟨key, isKey⟩ := isSome_iff_exists.mp isLocked.1
    obtain ⟨job, isJob, holds⟩ := any_eq_true.mp isLocked.2
    obtain ⟨isWaiting, sameKey⟩ := of_decide_eq_true holds
    exact ⟨job, isJob, JobSpec.task_of_same_key (sameKey.trans isKey) isKey, isWaiting⟩
  case isFalse => exact ⟨_, mem_append_right _ mem_cons_self, rfl, rfl⟩

theorem subset_enqueueJob (clock : ℕ) (spec : JobSpec) (jobs : List Job) :
    ∀ job ∈ jobs, job ∈ enqueueJob clock spec jobs := by
  intro job isJob
  rw [enqueueJob]
  split
  case isTrue => exact isJob
  case isFalse => exact mem_append_left _ isJob

theorem mem_marked {other : OutboxRow} (ids : (outbox.map OutboxRow.outboxId).Nodup)
    (isRow : row ∈ outbox) (isOther : other ∈ outbox) (different : other ≠ row) :
    other ∈ updateWhere (fun r => r.outboxId = row.outboxId) assign outbox := by
  refine kept_mem isOther ?_
  rw [decide_eq_false_iff_not]
  exact fun sameId => different (inj_on_of_nodup_map ids isOther isRow sameId)

theorem toCome_handed (kept : ∀ other ∈ state.outbox, other ≠ row → other ∈ outbox)
    (toCome : state.ToCome kind sequence) :
    State.ToCome kind
      { state with outbox, jobs := enqueueJob state.clock row.spec state.jobs } sequence := by
  rcases toCome with (⟨other, isOther, undispatched, isKind⟩ | ⟨job, isJob, isKind, toRead⟩) |
    ⟨job, isJob, isKind, has⟩
  · by_cases same : other = row
    · obtain ⟨job, isJob, sameTask, isWaiting⟩ := enqueueJob_waits state.clock row.spec state.jobs
      refine .inl (.inr ⟨job, isJob, ?_, by rw [isWaiting]; rfl⟩)
      rw [sameTask, ← same]
      exact isKind
    · exact .inl (.inl ⟨other, kept other isOther same, undispatched, isKind⟩)
  · exact .inl (.inr ⟨job, subset_enqueueJob _ _ _ job isJob, isKind, toRead⟩)
  · exact .inr ⟨job, subset_enqueueJob _ _ _ job isJob, isKind, has⟩

theorem toCome_dispatch (sound : state.Sound) (isRow : row ∈ state.outbox)
    (toCome : state.ToCome kind sequence)
    (spared : lastFailure row reply = true → kind row.spec.task = true →
      (state.withoutRow row.outboxId).ToCome kind sequence) :
    (state.dispatch row reply).ToCome kind sequence := by
  cases reply with
  | answers =>
    exact toCome_handed
      (fun other isOther different => mem_marked sound.ids isRow isOther different) toCome
  | raisesAfter =>
    exact toCome_handed
      (fun other isOther different => mem_marked sound.ids isRow isOther different) toCome
  | unmarked => exact toCome_handed (fun other isOther _ => isOther) toCome
  | raises =>
    have others : (state.withoutRow row.outboxId).ToCome kind sequence →
        (state.dispatch row .raises).ToCome kind sequence := by
      intro rest
      refine ToCome.grow rest (fun other isOther _ => ?_) fun job isJob => isJob
      obtain ⟨isOther, different⟩ := mem_filter.mp isOther
      refine mem_marked sound.ids isRow isOther fun same => ?_
      rw [same] at different
      simp at different
    rcases toCome with (⟨other, isOther, undispatched, isKind⟩ | isJob) | isJob
    · by_cases same : other = row
      · rw [same] at isKind undispatched
        by_cases last : 20 ≤ row.attempts + 1
        · exact others (spared (by simp [lastFailure, last]) isKind)
        · refine .inl (.inl ⟨row.markFailed, updated_mem isRow (by simp), ?_, isKind⟩)
          rw [OutboxRow.undispatched, decide_eq_true_eq] at undispatched
          simp [OutboxRow.undispatched, OutboxRow.markFailed, last, undispatched.1]
      · exact .inl (.inl ⟨other, mem_marked sound.ids isRow isOther same, undispatched, isKind⟩)
    · exact .inl (.inr isJob)
    · exact .inr isJob

theorem toCome_step (stepped : step state action = some next) (notJob : action.jobAt = none)
    (sound : state.Sound) (toCome : state.ToCome kind sequence)
    (spared : ∀ outboxId reply, action = .dispatch outboxId reply → ∀ row ∈ state.outbox,
      row.outboxId = outboxId → lastFailure row reply = true → kind row.spec.task = true →
        (state.withoutRow outboxId).ToCome kind sequence) :
    next.ToCome kind sequence := by
  cases action with
  | append | rollback | tick =>
    cases stepped
    exact toCome
  | commit =>
    obtain ⟨transaction, -, rfl⟩ := map_eq_some_iff.mp stepped
    exact ToCome.grow toCome (fun row isRow _ => mem_append_left _ isRow) fun job isJob => isJob
  | dispatch outboxId reply =>
    obtain ⟨row, isRow, rfl, -, rfl⟩ := dispatch_cases stepped
    exact toCome_dispatch sound isRow toCome (spared _ reply rfl row isRow rfl)
  | requeue =>
    cases stepped
    rcases requeue_cases state with same | ⟨transaction, -, same⟩
    · rw [same]
      exact toCome
    · rw [same]
      exact ToCome.grow toCome (fun row isRow _ => mem_append_left _ isRow) fun job isJob => isJob
  | purge olderThan =>
    cases stepped
    refine ToCome.grow toCome (fun row isRow undispatched => ?_) fun job isJob => isJob
    refine mem_filter.mpr ⟨isRow, ?_⟩
    rw [OutboxRow.undispatched, decide_eq_true_eq] at undispatched
    simp [undispatched.1]
  | start | turn | fail => cases notJob

theorem commit_waits
    (asked : (∃ spec ∈ transaction.inserted, kind spec.task = true) ∨ state.Waits kind) :
    (state.commit transaction).Waits kind := by
  rcases asked with ⟨spec, isInserted, isKind⟩ | ⟨row, isRow, undispatched, isKind⟩ | isJob
  · obtain ⟨row, isRow, undispatched, rfl⟩ := inserted_of_mem state.nextId isInserted
    exact .inl ⟨row, mem_append_right _ isRow, undispatched, isKind⟩
  · exact .inl ⟨row, mem_append_left _ isRow, undispatched, isKind⟩
  · exact .inr isJob

end MemoryService.Conversation
