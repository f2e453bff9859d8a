import MemoryService.Conversation.StillToCome

/-!
# The episode and the visible messages

A message of a window of time inserts no job where the window has one, since that job starts
after the window.
-/

namespace MemoryService.Conversation

open Domain Foundation

variable {state next : State} {action : Action} {sequence place : ℕ}

def State.InEpisode (state : State) (sequence : ℕ) : Prop :=
  ∃ source ∈ state.episode, source.Contains sequence
deriving Decidable

def State.Kept (state : State) (sequence : ℕ) : Prop :=
  state.InEpisode sequence ∨ state.ToCome indexes sequence
deriving Decidable

def State.VisibleKept (state : State) : Prop :=
  ∀ m ∈ state.messages, m.kind = .visible → state.Kept m.sequence
deriving Decidable

/-- No job that indexes the episode is to come. -/
def State.Idle (state : State) : Prop :=
  (∀ row ∈ state.outbox, row.undispatched = true → indexes row.spec.task = false) ∧
    ∀ job ∈ state.jobs, indexes job.spec.task = false
deriving Decidable

/-- The episode has every visible message. -/
def State.EpisodeComplete (state : State) : Prop :=
  ∀ m ∈ state.messages, m.kind = .visible → state.InEpisode m.sequence
deriving Decidable

/-- The job's read misses no visible message that nothing else keeps. -/
def ReadsAll (state : State) (place : ℕ) : Prop :=
  ∀ m ∈ state.messages, m.kind = .visible →
    state.episodeSource.Contains m.sequence ∨ (state.without place).Kept m.sequence
deriving Decidable

/-- The job's read misses no visible message that is not still to be read. -/
def WritesAll (state : State) (place : ℕ) (source : EpisodeSource) : Prop :=
  ∀ m ∈ state.messages, m.kind = .visible →
    source.Contains m.sequence ∨ (state.without place).ToCome indexes m.sequence
deriving Decidable

def TurnsAll (state : State) (place : ℕ) : Phase → Prop
  | .folded => ReadsAll state place
  | .indexing source => WritesAll state place source
  | _ => True

instance (state : State) (place : ℕ) (phase : Phase) : Decidable (TurnsAll state place phase) := by
  unfold TurnsAll
  split <;> infer_instance

def Watched (state : State) : Action → Prop
  | .commit =>
    ∀ transaction ∈ state.transaction, (∀ m ∈ transaction.messages, m.kind ≠ .visible) ∨
      (∃ spec ∈ transaction.inserted, indexes spec.task = true) ∨ state.Waits indexes
  | .dispatch outboxId reply =>
    ∀ row ∈ state.outbox, row.outboxId = outboxId → lastFailure row reply = true →
      indexes row.spec.task = true → (state.withoutRow outboxId).VisibleKept
  | .start place => ∀ job ∈ state.jobs[place]?, job.spec.task = .episode → ReadsAll state place
  | .turn place _ => ∀ job ∈ state.jobs[place]?, TurnsAll state place job.phase
  | .fail place =>
    ∀ job ∈ state.jobs[place]?, indexes job.spec.task = true → job.givesUp = true →
      (state.without place).VisibleKept
  | _ => True

instance (state : State) : (action : Action) → Decidable (Watched state action)
  | .commit | .dispatch .. | .start _ | .turn .. | .fail _ => by unfold Watched; infer_instance
  | .append _ | .rollback | .requeue | .purge _ | .tick _ => .isTrue trivial

theorem kept_without {job : Job} {after : Option Job}
    (moved : JobStep state next place job after) (sameEpisode : next.episode = state.episode)
    (rest : (state.without place).Kept sequence) : next.Kept sequence := by
  rcases rest with inEpisode | toCome
  · refine .inl ?_
    rw [State.InEpisode, sameEpisode]
    exact inEpisode
  · exact .inr (moved.without toCome)

theorem kept_cases {job : Job} (isJob : state.jobs[place]? = some job)
    (kept : state.Kept sequence) :
    (indexes job.spec.task = true ∧ (job.phase.toRead = true ∨ job.phase.Has sequence)) ∨
      (state.without place).Kept sequence := by
  rcases kept with inEpisode | toCome
  · exact .inr (.inl inEpisode)
  · exact (toCome_cases isJob toCome).imp_right Or.inr

theorem kept_moved {job job' : Job} (moved : JobStep state next place job (some job'))
    (isKind : indexes job.spec.task = true)
    (reading : job'.phase.toRead = true ∨ job'.phase.Has sequence) : next.Kept sequence := by
  have isKind' : indexes job'.spec.task = true := by
    rw [moved.spec job' rfl]
    exact isKind
  refine .inr ?_
  rcases reading with toRead | has
  · exact .inl (.inr ⟨job', moved.moved_mem, isKind', toRead⟩)
  · exact .inr ⟨job', moved.moved_mem, isKind', has⟩

theorem start_kept (stepped : step state (.start place) = some next)
    (watched : Watched state (.start place)) (kept : state.VisibleKept) : next.VisibleKept := by
  obtain ⟨job, rfl, moved⟩ := start_step stepped
  obtain ⟨-, -, sameMessages, sameEpisode⟩ :=
    moved_tables state place job (state.opened job.spec.task)
  intro m member isVisible
  rw [sameMessages] at member
  cases isTask : job.spec.task with
  | archive =>
    rcases kept_cases moved.isJob (kept m member isVisible) with ⟨isKind, -⟩ | rest
    · rw [isTask] at isKind
      cases isKind
    · rw [isTask] at moved sameEpisode
      exact kept_without moved sameEpisode rest
  | episode =>
    have isRead := watched job moved.isJob isTask m member isVisible
    have isKind : indexes job.spec.task = true := by
      rw [isTask]
      rfl
    rw [isTask] at moved sameEpisode
    rcases isRead with contains | rest
    · exact kept_moved moved isKind (.inr contains)
    · exact kept_without moved sameEpisode rest
  | refresh =>
    have isKind : indexes job.spec.task = true := by
      rw [isTask]
      rfl
    rw [isTask, State.opened] at moved
    rw [State.opened]
    split at moved
    case h_1 none_ =>
      exact kept_moved moved isKind (.inl rfl)
    case h_2 some_ =>
      exact kept_moved moved isKind (.inl rfl)

theorem turn_kept {size : ℕ} (stepped : step state (.turn place size) = some next)
    (watched : Watched state (.turn place size)) (sound : state.Sound)
    (kept : state.VisibleKept) : next.VisibleKept := by
  obtain ⟨job, wrote, after, turned, rfl, moved⟩ := turn_step stepped
  have fits := sound.fits job (List.mem_of_getElem? moved.isJob)
  have turns := watched job moved.isJob
  obtain ⟨-, -, sameMessages, sameEpisode⟩ := moved_tables wrote place job after
  intro m member isVisible
  rw [sameMessages] at member
  rw [Job.Fits] at fits
  cases current : job.phase with
  | waiting =>
    rw [current] at turned
    cases turned
  | folding version covered new =>
    rw [current] at turned fits
    cases turned
    have isKind : indexes job.spec.task = true := by
      rw [fits]
      rfl
    exact kept_moved moved isKind (.inl rfl)
  | folded =>
    rw [current] at turned fits turns
    cases turned
    have isKind : indexes job.spec.task = true := by
      rw [fits]
      rfl
    rcases turns m member isVisible with contains | rest
    · exact kept_moved moved isKind (.inr contains)
    · exact kept_without moved sameEpisode rest
  | indexing source =>
    rw [current] at turned turns
    cases turned
    rcases turns m member isVisible with contains | rest
    · exact .inl ⟨source, sameEpisode, contains⟩
    · exact .inr (moved.without rest)
  | archiving remaining =>
    rw [current] at turned fits
    cases turned
    have before : ∃ old ∈ state.messages, old.sequence = m.sequence ∧ old.kind = .visible := by
      rcases mem_updateWhere_cases member with ⟨old, isOld, -, rfl⟩ | ⟨isOld, -⟩
      · exact ⟨old, isOld, rfl, isVisible⟩
      · exact ⟨m, isOld, rfl, isVisible⟩
    obtain ⟨old, isOld, sameSequence, isVisible'⟩ := before
    rw [← sameSequence]
    rcases kept_cases moved.isJob (kept old isOld isVisible') with ⟨isKind, -⟩ | rest
    · rw [fits] at isKind
      cases isKind
    · exact kept_without moved sameEpisode rest

theorem fail_kept (stepped : step state (.fail place) = some next)
    (watched : Watched state (.fail place)) (kept : state.VisibleKept) : next.VisibleKept := by
  obtain ⟨sameMessages, sameEpisode, job, after, moved, last⟩ := fail_step stepped
  intro m member isVisible
  rw [sameMessages] at member
  rcases kept_cases moved.isJob (kept m member isVisible) with ⟨isKind, -⟩ | rest
  · rcases last with givesUp | ⟨again, rfl, isWaiting⟩
    · exact kept_without moved sameEpisode
        (watched job moved.isJob isKind givesUp m member isVisible)
    · refine kept_moved moved isKind (.inl ?_)
      rw [isWaiting]
      rfl
  · exact kept_without moved sameEpisode rest

theorem commit_kept {transaction : Transaction} (kept : state.VisibleKept)
    (asked : (∀ m ∈ transaction.messages, m.kind ≠ .visible) ∨
      (∃ spec ∈ transaction.inserted, indexes spec.task = true) ∨ state.Waits indexes) :
    (state.commit transaction).VisibleKept := by
  intro m member isVisible
  rcases List.mem_append.mp member with before | isNew
  · rcases kept m before isVisible with inEpisode | toCome
    · exact .inl inEpisode
    · exact .inr (ToCome.grow toCome (fun row isRow _ => List.mem_append_left _ isRow)
        fun job isJob => isJob)
  · rcases asked with hidden | asked
    · exact absurd isVisible (hidden m isNew)
    · exact .inr (.inl (commit_waits asked))

theorem watched_step (stepped : step state action = some next)
    (watched : Watched state action) (invariant : state.Sound ∧ state.VisibleKept) :
    next.Sound ∧ next.VisibleKept := by
  obtain ⟨sound, kept⟩ := invariant
  refine ⟨sound_step stepped sound, ?_⟩
  cases notJob : action.jobAt with
  | some place =>
    cases action with
    | start place => exact start_kept stepped watched kept
    | turn place size => exact turn_kept stepped watched sound kept
    | fail place => exact fail_kept stepped watched kept
    | append | commit | rollback | dispatch | requeue | purge | tick => cases notJob
  | none =>
    obtain ⟨sameEpisode, sameMessages | ⟨transaction, rfl, isOpen, rfl⟩⟩ :=
      messages_step stepped notJob
    · intro m member isVisible
      rw [sameMessages] at member
      rw [State.Kept, State.InEpisode, sameEpisode]
      rcases kept m member isVisible with inEpisode | toCome
      · exact .inl inEpisode
      · by_cases inEpisode : state.InEpisode m.sequence
        · exact .inl inEpisode
        · refine .inr (toCome_step stepped notJob sound toCome ?_)
          rintro outboxId reply rfl row isRow isId last isKind
          exact (watched row isRow isId last isKind m member isVisible).resolve_left inEpisode
    · exact commit_kept kept (watched transaction isOpen)

theorem watched_run {actions : List Action} (reached : run step {} actions = some state)
    (watched : Meets step Watched {} actions) (idle : state.Idle) : state.EpisodeComplete := by
  have start : State.Sound {} ∧ State.VisibleKept {} :=
    ⟨sound_of_run (rfl : run step {} [] = some {}), fun m member => by cases member⟩
  have kept := (run_invariant_of_meets watched_step reached watched start).2
  intro m member isVisible
  rcases kept m member isVisible with inEpisode |
    ((⟨row, isRow, undispatched, isKind⟩ | ⟨job, isJob, isKind, -⟩) | ⟨job, isJob, isKind, -⟩)
  · exact inEpisode
  · rw [idle.1 row isRow undispatched] at isKind
    cases isKind
  · rw [idle.2 job isJob] at isKind
    cases isKind
  · rw [idle.2 job isJob] at isKind
    cases isKind

/-- Once no job is left, the episode is complete in every run whose steps are watched. -/
theorem idle_episode_complete (actions : List Action) (state : State)
    (reached : run step {} actions = some state) (watched : Meets step Watched {} actions)
    (idle : state.Idle) : state.EpisodeComplete :=
  watched_run reached watched idle

/-- An episode job lists every visible message after the summary. -/
def State.FewAfter (state : State) : Prop :=
  state.messages.countP
      (fun m => m.kind = .visible ∧ state.summary.coversToSequence < m.sequence) ≤
    summarySourceMessages

/-- A schedule in which no episode job is given up, no such row fails for the last time, and few
messages are left after the summary when a job reads. -/
def WatchedInTime (state : State) : Action → Prop
  | .dispatch outboxId reply =>
    ∀ row ∈ state.outbox, row.outboxId = outboxId → indexes row.spec.task = true →
      lastFailure row reply = false
  | .start _ => state.FewAfter
  | .turn place _ =>
    state.FewAfter ∧ ∀ job ∈ state.jobs[place]?, ∀ source, job.phase = .indexing source →
      WritesAll state place source
  | .fail place => ∀ job ∈ state.jobs[place]?, indexes job.spec.task = true → job.givesUp = false
  | action => Watched state action

theorem readsAll_of_few (few : state.FewAfter) : ReadsAll state place := by
  intro m member isVisible
  by_cases isCovered : m.sequence ≤ state.summary.coversToSequence
  · exact .inl (.inl isCovered)
  · rw [State.FewAfter, List.countP_eq_length_filter] at few
    refine .inl (.inr ?_)
    rw [State.episodeSource, listAfter, List.take_of_length_le (by rwa [List.length_map])]
    refine List.mem_map_of_mem (List.mem_filter.mpr ⟨member, ?_⟩)
    exact decide_eq_true ⟨isVisible, Nat.lt_of_not_le isCovered⟩

theorem watched_of_inTime (state : State) (action : Action)
    (inTime : WatchedInTime state action) : Watched state action := by
  cases action with
  | dispatch outboxId reply =>
    intro row isRow isId isLast isKind
    rw [inTime row isRow isId isKind] at isLast
    cases isLast
  | start place => exact fun _ _ _ => readsAll_of_few inTime
  | turn place _ =>
    intro job isJob
    rw [TurnsAll.eq_def]
    split
    case h_1 => exact readsAll_of_few inTime.1
    case h_2 source isIndexing => exact inTime.2 job isJob source isIndexing
    case h_3 => trivial
  | fail place =>
    intro job isJob isKind givesUp
    rw [inTime job isJob isKind] at givesUp
    cases givesUp
  | append | commit | rollback | requeue | purge | tick => exact inTime

/-- On such a schedule the episode is complete once no job is left. -/
theorem idle_episode_complete_in_time (actions : List Action)
    (reached : run step {} actions = some state)
    (inTime : Meets step WatchedInTime {} actions) (idle : state.Idle) : state.EpisodeComplete :=
  watched_run reached (inTime.mono watched_of_inTime) idle

/-- The second message takes the window's key a second before the job starts, and commits after
it. -/
def lateCommit : List Action :=
  [.append .visible, .commit, .dispatch 1 .answers, .tick 119, .append .visible, .tick 1, .start 0,
    .turn 0 0, .commit]

theorem late_commit_misses_the_episode :
    ¬∀ actions state, run step {} actions = some state → state.Idle → state.EpisodeComplete :=
  not_always_of_run lateCommit (by decide +kernel)

def timelyCommit : List Action :=
  [.append .visible, .commit, .dispatch 1 .answers, .tick 119, .append .visible, .commit, .tick 1,
    .start 0, .turn 0 0]

theorem timely_commit_is_in_the_episode :
    ∃ state, run step {} timelyCommit = some state ∧ state.Idle ∧
      state.messages.length = 2 ∧ state.EpisodeComplete := by
  have idle : ∃ state, run step {} timelyCommit = some state ∧ state.Idle ∧
      state.messages.length = 2 := ⟨_, rfl, by decide +kernel, by decide +kernel⟩
  obtain ⟨state, reached, isIdle, two⟩ := idle
  refine ⟨state, reached, isIdle, two, ?_⟩
  exact idle_episode_complete timelyCommit state reached (by decide +kernel) isIdle

end MemoryService.Conversation
