import MemoryService.Conversation.StillToCome

/-!
# A staged message and its archive job

The archive job of a thread has one key, and a row that was dispatched keeps the key in the
outbox.
-/

namespace MemoryService.Conversation

open Domain Foundation List

variable {state next : State} {action : Action} {place : ℕ}

/-- For every staged message a job that archives is to come. -/
def State.StagedToCome (state : State) : Prop :=
  ∀ m ∈ state.messages, m.archiveStatus = .staged → state.ToCome archives m.sequence
deriving Decidable

def Attended (state : State) : Action → Prop
  | .commit =>
    ∀ transaction ∈ state.transaction, transaction.messages = [] ∨
      (∃ spec ∈ transaction.inserted, archives spec.task = true) ∨ state.Waits archives
  | .dispatch outboxId reply =>
    ∀ row ∈ state.outbox, row.outboxId = outboxId → lastFailure row reply = true →
      archives row.spec.task = true → (state.withoutRow outboxId).StagedToCome
  | .start place =>
    ∀ job ∈ state.jobs[place]?, archives job.spec.task = true →
      ∀ m ∈ state.messages, m.archiveStatus = .staged →
        m.sequence ∈ listStaged archivePage state.messages ∨
          (state.without place).ToCome archives m.sequence
  | .fail place =>
    ∀ job ∈ state.jobs[place]?, archives job.spec.task = true → job.givesUp = true →
      (state.without place).StagedToCome
  | _ => True

instance (state : State) (action) : Decidable (Attended state action) := by
  unfold Attended
  split <;> infer_instance

private theorem commit_keeps {transaction : Transaction} (toCome : state.StagedToCome)
    (asked : transaction.messages = [] ∨
      (∃ spec ∈ transaction.inserted, archives spec.task = true) ∨ state.Waits archives) :
    (state.commit transaction).StagedToCome := by
  intro m member isStaged
  rcases mem_append.mp member with before | isNew
  · exact ToCome.grow (toCome m before isStaged)
      (fun row isRow _ => mem_append_left _ isRow) fun job isJob => isJob
  · rcases asked with empty | asked
    · rw [empty] at isNew
      cases isNew
    · exact .inl (commit_waits asked)

private theorem start_keeps (stepped : step state (.start place) = some next)
    (attended : Attended state (.start place)) (toCome : state.StagedToCome) :
    next.StagedToCome := by
  obtain ⟨opening, rfl, moved⟩ := start_step stepped
  have isJob := moved.isJob
  intro m member isStaged
  rw [(moved_tables state place opening _).2.2.1] at member
  by_cases isKind : archives opening.spec.task = true
  · rcases attended opening isJob isKind m member isStaged with isRead | rest
    · refine .inr ⟨{ opening with phase := .archiving (listStaged archivePage state.messages) },
        ?_, isKind, isRead⟩
      have isArchive : opening.spec.task = .archive := of_decide_eq_true isKind
      have opened : state.opened opening.spec.task =
          some (.archiving (listStaged archivePage state.messages)) := by
        rw [isArchive, State.opened]
        split
        case h_1 none_ =>
          rw [none_] at isRead
          cases isRead
        case h_2 => rfl
      rw [opened]
      exact moved_mem_set isJob
    · exact moved.without rest
  · rcases toCome_cases isJob (toCome m member isStaged) with ⟨isKind', -⟩ | rest
    · exact absurd isKind' isKind
    · exact moved.without rest

private theorem turn_keeps {size : ℕ} (stepped : step state (.turn place size) = some next)
    (sound : state.Sound) (toCome : state.StagedToCome) : next.StagedToCome := by
  obtain ⟨job, wrote, after, turned, rfl, moved⟩ := turn_step stepped
  have isJob := moved.isJob
  have fits := sound.fits job (mem_of_getElem? isJob)
  intro m member isStaged
  rw [(moved_tables wrote place job _).2.2.1] at member
  rw [Job.Fits] at fits
  -- the jobs of the episode leave the messages
  have others : m ∈ state.messages → job.spec.task ≠ .archive →
      (wrote.moved place job after).ToCome archives m.sequence := by
    intro before isOther
    rcases toCome_cases isJob (toCome m before isStaged) with ⟨isKind, -⟩ | rest
    · exact absurd (of_decide_eq_true isKind) isOther
    · exact moved.without rest
  cases current : job.phase with
  | waiting =>
    rw [current] at turned
    cases turned
  | folding | folded | indexing =>
    rw [current] at turned fits
    cases turned
    refine others member fun isArchive => ?_
    rw [isArchive] at fits
    first | cases fits | exact fits rfl
  | archiving remaining =>
    rw [current] at turned fits
    cases turned
    rcases mem_updateWhere_cases member with ⟨old, -, -, rfl⟩ | ⟨before, notTaken⟩
    · cases isStaged
    · rcases toCome_cases isJob (toCome m before isStaged) with ⟨-, reading⟩ | rest
      · rw [current] at reading
        have has : m.sequence ∈ remaining := by
          rcases reading with toRead | has
          · cases toRead
          · exact has
        have later : m.sequence ∈ remaining.drop (size + 1) := by
          rw [← take_append_drop (size + 1) remaining] at has
          exact (mem_append.mp has).resolve_left (of_decide_eq_false notTaken)
        refine .inr ⟨{ job with phase := .archiving (remaining.drop (size + 1)) }, ?_,
          decide_eq_true fits, later⟩
        rw [if_neg (ne_nil_of_mem later)]
        exact moved_mem_set isJob
      · exact moved.without rest

private theorem fail_keeps (stepped : step state (.fail place) = some next)
    (attended : Attended state (.fail place)) (toCome : state.StagedToCome) :
    next.StagedToCome := by
  obtain ⟨sameMessages, -, job, after, moved, last⟩ := fail_step stepped
  intro m member isStaged
  rw [sameMessages] at member
  rcases toCome_cases moved.isJob (toCome m member isStaged) with ⟨isKind, -⟩ | rest
  · rcases last with givesUp | ⟨again, rfl, isWaiting⟩
    · exact moved.without (attended job moved.isJob isKind givesUp m member isStaged)
    · refine .inl (.inr ⟨again, moved.moved_mem, ?_, ?_⟩)
      · rw [moved.spec again rfl]
        exact isKind
      · rw [isWaiting]
        rfl
  · exact moved.without rest

theorem attended_step (stepped : step state action = some next)
    (attended : Attended state action) (invariant : state.Sound ∧ state.StagedToCome) :
    next.Sound ∧ next.StagedToCome := by
  obtain ⟨sound, toCome⟩ := invariant
  refine ⟨sound_step stepped sound, ?_⟩
  cases notJob : action.jobAt with
  | some place =>
    cases action with
    | start place => exact start_keeps stepped attended toCome
    | turn place size => exact turn_keeps stepped sound toCome
    | fail place => exact fail_keeps stepped attended toCome
    | append | commit | rollback | dispatch | requeue | purge | tick => cases notJob
  | none =>
    obtain ⟨-, sameMessages | ⟨transaction, rfl, isOpen, rfl⟩⟩ := messages_step stepped notJob
    · intro m member isStaged
      rw [sameMessages] at member
      refine toCome_step stepped notJob sound (toCome m member isStaged) ?_
      rintro outboxId reply rfl row isRow isId last isKind
      exact attended row isRow isId last isKind m member isStaged
    · exact commit_keeps toCome (attended transaction isOpen)

theorem attended_run {actions : List Action} (reached : run step {} actions = some state)
    (attended : Meets step Attended {} actions) : state.StagedToCome := by
  have start : State.Sound {} ∧ State.StagedToCome {} :=
    ⟨sound_of_run (rfl : run step {} [] = some {}), fun m member => by cases member⟩
  exact (run_invariant_of_meets attended_step reached attended start).2

/-- In a run whose steps are attended to, every staged message has an archive job to come. -/
theorem staged_has_archive_job (actions : List Action) (state : State)
    (reached : run step {} actions = some state) (attended : Meets step Attended {} actions) :
    state.StagedToCome :=
  attended_run reached attended

/-- A schedule in which no archive job is given up, no such row fails for the last time, and a
job finds no more staged messages than it lists. -/
def AttendedInTime (state : State) : Action → Prop
  | .dispatch outboxId reply =>
    ∀ row ∈ state.outbox, row.outboxId = outboxId → archives row.spec.task = true →
      lastFailure row reply = false
  | .start _ => state.messages.countP (fun m => m.archiveStatus = .staged) ≤ archivePage
  | .fail place => ∀ job ∈ state.jobs[place]?, archives job.spec.task = true → job.givesUp = false
  | action => Attended state action

theorem mem_listStaged {limit : ℕ} {m : ThreadMessage} (member : m ∈ state.messages)
    (isStaged : m.archiveStatus = .staged)
    (fits : state.messages.countP (fun m => m.archiveStatus = .staged) ≤ limit) :
    m.sequence ∈ listStaged limit state.messages := by
  rw [countP_eq_length_filter] at fits
  rw [listStaged, take_of_length_le (by rwa [length_map])]
  exact mem_map_of_mem (mem_filter.mpr ⟨member, decide_eq_true isStaged⟩)

theorem attended_of_inTime (state : State) (action : Action)
    (inTime : AttendedInTime state action) : Attended state action := by
  cases action with
  | dispatch outboxId reply =>
    intro row isRow isId isLast isKind
    rw [inTime row isRow isId isKind] at isLast
    cases isLast
  | start place => exact fun _ _ _ m member isStaged => .inl (mem_listStaged member isStaged inTime)
  | fail place =>
    intro job isJob isKind givesUp
    rw [inTime job isJob isKind] at givesUp
    cases givesUp
  | append | commit | rollback | turn | requeue | purge | tick => exact inTime

/-- On such a schedule every staged message has a job to come wherever its commit has one. -/
theorem staged_has_archive_job_in_time (actions : List Action)
    (reached : run step {} actions = some state)
    (inTime : Meets step AttendedInTime {} actions) : state.StagedToCome :=
  attended_run reached (inTime.mono attended_of_inTime)

def lateMessage : List Action :=
  [.append .visible, .commit, .dispatch 0 .answers, .tick 60, .start 0, .turn 0 0,
    .append .visible, .commit]

theorem late_message_has_no_archive_job :
    ¬∀ actions state, run step {} actions = some state → state.StagedToCome :=
  not_always_of_run lateMessage (by decide +kernel)

def timelyMessage : List Action :=
  [.append .visible, .commit, .dispatch 0 .answers, .append .visible, .commit, .tick 60, .start 0,
    .turn 0 0]

theorem timely_message_has_archive_job :
    ∃ state, run step {} timelyMessage = some state ∧
      state.messages.map ThreadMessage.archiveStatus = [.archived, .staged] ∧
        state.StagedToCome := by
  refine ⟨_, rfl, by decide +kernel, ?_⟩
  exact staged_has_archive_job timelyMessage _ rfl (by decide +kernel)

end MemoryService.Conversation
