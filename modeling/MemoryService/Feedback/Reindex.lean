import MemoryService.Feedback.Service

/-!
# When every committed change reaches the index

Every memory a projection changes is named by a job it inserts or tries to insert.
-/

namespace MemoryService.Feedback

open Domain Foundation Memory List

/-- The rows that are not as before are those of `pending`, the invalidated ones, and those
that a job names. -/
def Uow.Covers (before : Memory.State) (pending : String → Prop) (uow : Uow) : Prop :=
  ∀ r ∈ uow.tables.memories, r ∉ before.memories →
    r.tenantId = uow.tenantId ∧
      (pending r.memoryId ∨ r.memoryId ∈ uow.invalidated ∨
        ∃ spec ∈ uow.enqueued ++ uow.absorbed, spec.names uow.tenantId r.memoryId)

variable {tenantId : String} {ids : List String} {assign : MemoryRow → MemoryRow} {spec : JobSpec}
  {contentHash : String → Digest} {outbox : List OutboxRow} {jobs : List Job} {change : Change}
  {place : Nat} {job : Job} {started : Option Nat} {row : OutboxRow} {reply : DispatchReply}
  {now : Instant} {uow : Uow}

section

variable {before : Memory.State} {pending : String → Prop} {uow next : Uow}

theorem Uow.Covers.weaken {more : String → Prop} (covers : uow.Covers before pending)
    (implies : ∀ memoryId, pending memoryId → more memoryId) :
    uow.Covers before more := by
  intro r stored isNew
  obtain ⟨tenant, isCovered⟩ := covers r stored isNew
  exact ⟨tenant, isCovered.imp_left (implies r.memoryId)⟩

theorem mem_invalidate_cases {state : Memory.State} {r : MemoryRow}
    (stored : r ∈ (invalidateDependents tenantId ids state).memories) :
    r ∈ state.memories ∨
      r.tenantId = tenantId ∧ r.memoryId ∈ invalidatedIds tenantId ids state := by
  rcases mem_updateWhere_cases stored with ⟨old, oldStored, isAffected, rfl⟩ | ⟨kept, -⟩
  · have isNamed : old.named tenantId (reach (state.edges tenantId) ids) = true := by
      rw [State.affected, Bool.and_eq_true] at isAffected
      exact isAffected.1
    have tenant : old.tenantId = tenantId := by
      simp only [MemoryRow.named, decide_eq_true_eq] at isNamed
      exact isNamed.1
    refine .inr ⟨tenant, ?_⟩
    exact mem_map.mpr ⟨old, mem_filter.mpr ⟨oldStored, isAffected⟩, rfl⟩
  · exact .inl kept

def Keeps (assign : MemoryRow → MemoryRow) : Prop :=
  ∀ r, (assign r).memoryId = r.memoryId ∧ (assign r).tenantId = r.tenantId

theorem Uow.Covers.update {memoryId : String}
    (covers : uow.Covers before pending) (keeps : Keeps assign)
    (updated : uow.update memoryId assign = some next) :
    next.Covers before fun id => id = memoryId ∨ pending id := by
  obtain ⟨tables, written, rfl⟩ := Option.map_eq_some_iff.mp updated
  obtain ⟨-, rfl⟩ := writeRow_eq_some written
  intro r stored isNew
  rcases mem_invalidate_cases stored with isAssigned | ⟨tenant, isInvalidated⟩
  · rcases mem_updateWhere_cases isAssigned with ⟨old, -, isNamed, rfl⟩ | ⟨kept, -⟩
    · simp only [MemoryRow.named, decide_eq_true_eq, mem_singleton] at isNamed
      obtain ⟨sameId, sameTenant⟩ := keeps old
      refine ⟨by rw [sameTenant, isNamed.1], .inl (.inl ?_)⟩
      rw [sameId, isNamed.2]
    · obtain ⟨tenant, isCovered⟩ := covers r kept isNew
      refine ⟨tenant, ?_⟩
      rcases isCovered with isPending | isInvalidated | isNamed
      · exact .inl (.inr isPending)
      · exact .inr (.inl (mem_append_left _ isInvalidated))
      · exact .inr (.inr isNamed)
  · exact ⟨tenant, .inr (.inl (mem_append_right _ isInvalidated))⟩

theorem Uow.Covers.updateEach {writes : List (String × (MemoryRow → MemoryRow))}
    (keeps : ∀ write ∈ writes, Keeps write.2) :
    ∀ {uow : Uow} {pending : String → Prop}, uow.Covers before pending →
      uow.updateEach writes = some next →
        next.Covers before fun id => id ∈ writes.map Prod.fst ∨ pending id := by
  induction writes with
  | nil =>
    intro uow pending covers updated
    cases updated
    exact covers.weaken fun _ isPending => .inr isPending
  | cons write writes ih =>
    intro uow pending covers updated
    obtain ⟨middle, first, rest⟩ := Option.bind_eq_some_iff.mp updated
    have afterFirst := covers.update (keeps write mem_cons_self) first
    have afterRest :=
      ih (fun other member => keeps other (mem_cons_of_mem write member)) afterFirst rest
    apply afterRest.weaken
    intro id isPending
    rcases isPending with isLater | isFirst | isPending
    · exact .inl (mem_cons_of_mem _ isLater)
    · exact .inl (by rw [isFirst]; exact mem_cons_self)
    · exact .inr isPending

theorem Uow.Covers.updateAll (keeps : Keeps assign) (covers : uow.Covers before pending)
    (updated : uow.updateAll assign ids = some next) :
    next.Covers before fun id => id ∈ ids ∨ pending id := by
  have each :=
    Uow.Covers.updateEach
      (by
        intro write member
        obtain ⟨id, -, rfl⟩ := mem_map.mp member
        exact keeps)
      covers updated
  apply each.weaken
  intro id isPending
  simpa using isPending

theorem Uow.Covers.add {memory : CanonicalMemory} {keys : List String}
    {tables : Memory.State} (covers : uow.Covers before pending)
    (tenant : memory.tenantId = uow.tenantId)
    (added : add memory keys now uow.tables = some tables) :
    Uow.Covers before (fun id => id = memory.memoryId ∨ pending id) { uow with tables } := by
  rw [Memory.add] at added
  obtain ⟨-, added⟩ := Option.ite_none_left_eq_some.mp added
  obtain ⟨sources, -, rfl⟩ := Option.map_eq_some_iff.mp added
  intro r stored isNew
  rcases mem_concat.mp stored with isOld | rfl
  · obtain ⟨tenant, isCovered⟩ := covers r isOld isNew
    exact ⟨tenant, isCovered.imp_left .inr⟩
  · exact ⟨tenant, .inl (.inl rfl)⟩

theorem enqueue_specs (outbox : List OutboxRow) (spec : JobSpec) (uow : Uow) :
    (uow.enqueue outbox spec).tables = uow.tables ∧
      (uow.enqueue outbox spec).tenantId = uow.tenantId ∧
      (uow.enqueue outbox spec).invalidated = uow.invalidated ∧
      ∀ other,
        other ∈ (uow.enqueue outbox spec).enqueued ++ (uow.enqueue outbox spec).absorbed ↔
          other = spec ∨ other ∈ uow.enqueued ++ uow.absorbed := by
  simp only [Uow.enqueue]
  split
  · simp [or_left_comm, or_comm]
  · simp [or_left_comm]

theorem Uow.Covers.enqueue (outbox : List OutboxRow)
    (covers : uow.Covers before pending) (tenant : spec.tenantId = uow.tenantId)
    (names : ∀ id, pending id → id ∈ spec.memoryIds) :
    (uow.enqueue outbox spec).Covers before fun _ => False := by
  obtain ⟨tables, sameTenant, invalidated, specs⟩ := enqueue_specs outbox spec uow
  intro r stored isNew
  rw [tables] at stored
  obtain ⟨rTenant, isCovered⟩ := covers r stored isNew
  rw [sameTenant, invalidated]
  refine ⟨rTenant, .inr ?_⟩
  rcases isCovered with isPending | isInvalidated | ⟨other, member, isNamed⟩
  · exact .inr ⟨spec, (specs spec).mpr (.inl rfl), tenant, names r.memoryId isPending⟩
  · exact .inl isInvalidated
  · exact .inr ⟨other, (specs other).mpr (.inr member), isNamed⟩

theorem Uow.Covers.reindex (contentHash : String → Digest) (outbox : List OutboxRow)
    (covers : uow.Covers before pending)
    (names : ∀ id, pending id → id ∈ ids) :
    (uow.reindex contentHash outbox ids).Covers before fun _ => False := by
  apply covers.enqueue outbox
  · rfl
  · intro id isPending
    exact (perm_insertionSort _ ids).mem_iff.mpr (names id isPending)

theorem keeps_moved : Keeps moved := fun _ => ⟨rfl, rfl⟩

theorem keeps_retracted (now : Instant) : Keeps (retracted now) := fun _ => ⟨rfl, rfl⟩

theorem keeps_lifted : Keeps lifted := fun _ => ⟨rfl, rfl⟩

theorem keeps_superseded (now : Instant) : Keeps (superseded now) := fun _ => ⟨rfl, rfl⟩

theorem keeps_reinstated (reopened : Bool) : Keeps (reinstated reopened) := by
  intro r
  cases reopened with
  | true => exact ⟨rfl, rfl⟩
  | false => exact ⟨rfl, rfl⟩

theorem Effect.apply_covers {effect : Effect} (covers : uow.Covers before fun _ => False)
    (applied : effect.apply contentHash outbox now uow = some next) :
    next.Covers before fun _ => False := by
  cases effect with
  | reinforce memoryId =>
    rw [Effect.apply] at applied
    split at applied
    case isTrue =>
      obtain ⟨middle, updated, rfl⟩ := Option.map_eq_some_iff.mp applied
      apply (covers.update keeps_moved updated).reindex
      simp
    case isFalse =>
      cases applied
      exact covers
  | retract memoryId twins restored =>
    rw [Effect.apply] at applied
    split at applied
    case isTrue =>
      obtain ⟨first, closed, rest⟩ := Option.bind_eq_some_iff.mp applied
      obtain ⟨second, reopened, last⟩ := Option.bind_eq_some_iff.mp rest
      cases last
      have afterClosed := covers.updateAll (keeps_retracted now) closed
      have keeps :
          ∀ write ∈ restored.map (fun pair => (pair.1, reinstated pair.2)), Keeps write.2 := by
        intro write member
        obtain ⟨⟨id, isReopened⟩, -, rfl⟩ := mem_map.mp member
        exact keeps_reinstated isReopened
      have afterReopened := Uow.Covers.updateEach keeps afterClosed reopened
      apply afterReopened.reindex
      intro id isPending
      rcases isPending with isRestored | isClosed | isFalse
      · apply mem_append_right
        simpa using isRestored
      · exact mem_append_left _ isClosed
      · exact isFalse.elim
    case isFalse =>
      cases applied
      exact covers
  | lift memoryId twins retractedAt =>
    simp only [Effect.apply] at applied
    split at applied
    case isTrue =>
      cases applied
      exact covers
    case isFalse =>
      obtain ⟨middle, updated, rfl⟩ := Option.map_eq_some_iff.mp applied
      apply (covers.updateAll keeps_lifted updated).reindex
      intro id isPending
      simpa using isPending
  | correct memoryId twins corrected =>
    rw [Effect.apply] at applied
    split at applied
    case isTrue =>
      obtain ⟨first, closed, rest⟩ := Option.bind_eq_some_iff.mp applied
      obtain ⟨tenant, rest⟩ := Option.ite_none_left_eq_some.mp rest
      obtain ⟨tables, added, last⟩ := Option.bind_eq_some_iff.mp rest
      cases last
      have afterClosed := covers.updateAll (keeps_superseded now) closed
      apply (afterClosed.add (not_not.mp tenant) added).reindex
      intro id isPending
      simpa [or_comm, or_assoc, or_left_comm] using isPending
    case isFalse =>
      cases applied
      exact covers
  | adjust ids =>
    simp only [Effect.apply] at applied
    split at applied
    case isTrue =>
      cases applied
      exact covers
    case isFalse =>
      obtain ⟨middle, updated, rfl⟩ := Option.map_eq_some_iff.mp applied
      apply (covers.updateAll keeps_moved updated).reindex
      intro id isPending
      simpa using isPending

theorem project_covers {effects : List Effect}
    (projected : project contentHash outbox now tenantId effects before = some uow) :
    uow.Covers before fun _ => False := by
  have effects_cover :
      ∀ (effects : List Effect) (first last : Uow), first.Covers before (fun _ => False) →
        effects.foldlM (fun uow effect => effect.apply contentHash outbox now uow) first =
          some last →
          last.Covers before fun _ => False := by
    intro effects
    induction effects with
    | nil =>
      intro first last covers applied
      cases applied
      exact covers
    | cons effect effects ih =>
      intro first last covers applied
      obtain ⟨middle, isMiddle, rest⟩ := Option.bind_eq_some_iff.mp applied
      exact ih middle last (Effect.apply_covers covers isMiddle) rest
  apply effects_cover effects _ uow _ projected
  intro r stored isNew
  exact absurd stored isNew

end

/-- An undispatched row or a job that has not started names the memory. -/
def Waits (outbox : List OutboxRow) (jobs : List Job) (tenantId memoryId : String) :
    Prop :=
  (∃ row ∈ outbox, row.undispatched = true ∧ row.spec.names tenantId memoryId) ∨
    ∃ job ∈ jobs, job.started = none ∧ job.spec.names tenantId memoryId
deriving Decidable

/-- A job that names the memory waits, or started after the change was committed. -/
def Served (outbox : List OutboxRow) (jobs : List Job) (change : Change) : Prop :=
  Waits outbox jobs change.tenantId change.memoryId ∨
    ∃ job ∈ jobs, job.spec.names change.tenantId change.memoryId ∧
      ∃ started ∈ job.started, change.committed < started
deriving Decidable

def leavesWithoutJob (jobs : List Job) (row : OutboxRow) : DispatchReply → Bool
  | .answers => locked row.spec jobs
  | .raises => 20 ≤ row.attempts + 1
  | .raisesAfter => 20 ≤ row.attempts + 1 && locked row.spec jobs
  | .unmarked => false

/-- A memory that a commit adds no job for is waited for, and what a row leaves without one is
served by another. -/
def Admitted (state : State) : Action → Prop
  | .commit =>
    ∀ uow ∈ state.uow, ∀ spec ∈ uow.absorbed, ∀ memoryId ∈ spec.memoryIds,
      (∃ other ∈ uow.jobs, other.names uow.tenantId memoryId) ∨
        Waits state.outbox state.jobs uow.tenantId memoryId
  | .dispatch outboxId reply =>
    ∀ row ∈ state.outbox.find? (fun row => row.outboxId = outboxId && row.undispatched),
      leavesWithoutJob state.jobs row reply = true →
        ∀ change ∈ state.changes, row.spec.names change.tenantId change.memoryId →
          Served (state.outbox.filter fun other => other.outboxId ≠ row.outboxId)
            state.jobs change
  | _ => True

instance (state : State) (action : Action) : Decidable (Admitted state action) := by
  unfold Admitted
  split <;> exact inferInstance

structure Inv (state : State) : Prop where
  numbered : ∀ row ∈ state.outbox, row.outboxId < state.nextId
  unique : (state.outbox.map OutboxRow.outboxId).Nodup
  covers : ∀ uow ∈ state.uow, uow.Covers state.tables fun _ => False
  past : ∀ change ∈ state.changes, change.committed < state.clock
  served : ∀ change ∈ state.changes, Served state.outbox state.jobs change

section

variable {contentHash : String → Digest} {state next : State}

theorem Served.mono {later : List OutboxRow} {laterJobs : List Job}
    (served : Served outbox jobs change)
    (rows : ∀ row ∈ outbox, row.undispatched = true → row ∈ later)
    (queued : ∀ job ∈ jobs, job ∈ laterJobs) : Served later laterJobs change := by
  rcases served with (⟨row, stored, waits, names⟩ | ⟨job, stored, waits, names⟩) |
    ⟨job, stored, names, started⟩
  · exact .inl (.inl ⟨row, rows row stored waits, waits, names⟩)
  · exact .inl (.inr ⟨job, queued job stored, waits, names⟩)
  · exact .inr ⟨job, queued job stored, names, started⟩

theorem Served.set (served : Served outbox jobs change) (isPlace : jobs[place]? = some job)
    (later : ∀ at_ ∈ started, change.committed < at_) :
    Served outbox (jobs.set place { job with started }) change := by
  have inside : place < jobs.length := (List.getElem?_eq_some_iff.mp isPlace).1
  have replaced : { job with started } ∈ jobs.set place { job with started } :=
    mem_of_getElem? (getElem?_set_self inside)
  have serves :
      job.spec.names change.tenantId change.memoryId →
        Served outbox (jobs.set place { job with started }) change := by
    intro names
    cases started with
    | none => exact .inl (.inr ⟨_, replaced, rfl, names⟩)
    | some at_ => exact .inr ⟨_, replaced, names, at_, rfl, later at_ rfl⟩
  have other :
      ∀ otherJob ∈ jobs, otherJob.spec.names change.tenantId change.memoryId →
        otherJob ∈ jobs.set place { job with started } ∨
          Served outbox (jobs.set place { job with started }) change := by
    intro otherJob stored names
    obtain ⟨i, isIndex⟩ := mem_iff_getElem?.mp stored
    by_cases same : place = i
    · rw [← same, isPlace] at isIndex
      rw [← Option.some.inj isIndex] at names
      exact .inr (serves names)
    · apply Or.inl
      apply mem_of_getElem?
      rw [getElem?_set_ne same]
      exact isIndex
  rcases served with (isRow | ⟨otherJob, stored, waits, names⟩) |
    ⟨otherJob, stored, names, isStarted⟩
  · exact .inl (.inl isRow)
  · rcases other otherJob stored names with kept | isServed
    · exact .inl (.inr ⟨otherJob, kept, waits, names⟩)
    · exact isServed
  · rcases other otherJob stored names with kept | isServed
    · exact .inr ⟨otherJob, kept, names, isStarted⟩
    · exact isServed

private theorem mem_enqueueJob (stored : job ∈ jobs) : job ∈ enqueueJob spec jobs := by
  rw [enqueueJob]
  split
  · exact stored
  · exact mem_append_left _ stored

theorem served_by_rest
    (unique : (state.outbox.map OutboxRow.outboxId).Nodup) (stored : row ∈ state.outbox)
    (served : Served state.outbox state.jobs change) :
    Served (state.outbox.filter fun other => other.outboxId ≠ row.outboxId) state.jobs change ∨
      row.spec.names change.tenantId change.memoryId := by
  rcases served with (⟨other, otherStored, waits, names⟩ | isJob) | isStarted
  · by_cases same : other.outboxId = row.outboxId
    · have isRow : other = row := inj_on_of_nodup_map unique otherStored stored same
      rw [isRow] at names
      exact .inr names
    · have kept : other ∈ state.outbox.filter fun other => other.outboxId ≠ row.outboxId :=
        mem_filter.mpr ⟨otherStored, by simpa using same⟩
      exact .inl (.inl (.inl ⟨other, kept, waits, names⟩))
  · exact .inl (.inl (.inr isJob))
  · exact .inl (.inr isStarted)

theorem rest_of_dispatch
    (served : Served (state.outbox.filter fun other => other.outboxId ≠ row.outboxId)
      state.jobs change) :
    Served (state.dispatch row reply).outbox (state.dispatch row reply).jobs change := by
  have kept : ∀ (assign : OutboxRow → OutboxRow) (other : OutboxRow),
      other ∈ (state.outbox.filter fun other => other.outboxId ≠ row.outboxId) →
        other ∈ updateWhere (fun other => other.outboxId = row.outboxId) assign
          state.outbox := by
    intro assign other member
    obtain ⟨stored, differs⟩ := mem_filter.mp member
    apply kept_mem stored
    simpa using differs
  cases reply with
  | answers =>
    apply Served.mono served (fun other member _ => kept _ other member)
    intro job member
    exact mem_enqueueJob member
  | raises =>
    apply Served.mono served (fun other member _ => kept _ other member)
    intro job member
    exact member
  | raisesAfter =>
    apply Served.mono served (fun other member _ => kept _ other member)
    intro job member
    exact mem_enqueueJob member
  | unmarked =>
    apply Served.mono served (fun other member _ => (mem_filter.mp member).1)
    intro job member
    exact mem_enqueueJob member

theorem queued_of_unlocked (unlocked : locked row.spec jobs = false)
    (names : row.spec.names change.tenantId change.memoryId) :
    Served outbox (enqueueJob row.spec jobs) change := by
  refine .inl (.inr ⟨Job.mk row.spec none, ?_, rfl, names⟩)
  simp [enqueueJob, unlocked]

theorem waits_of_failed (stored : row ∈ outbox) (isUndispatched : row.undispatched = true)
    (again : ¬20 ≤ row.attempts + 1)
    (names : row.spec.names change.tenantId change.memoryId) :
    Served (updateWhere (fun other => other.outboxId = row.outboxId) OutboxRow.markFailed
      outbox) jobs change := by
  have failed :
      row.markFailed ∈
        updateWhere (fun other => other.outboxId = row.outboxId) OutboxRow.markFailed
          outbox := updated_mem stored (by simp)
  have waits : row.markFailed.undispatched = true := by
    simp only [OutboxRow.undispatched, decide_eq_true_eq] at isUndispatched ⊢
    exact ⟨isUndispatched.1, by simpa [OutboxRow.markFailed] using again⟩
  exact .inl (.inl ⟨row.markFailed, failed, waits, names⟩)

theorem dispatch_served
    (unique : (state.outbox.map OutboxRow.outboxId).Nodup) (stored : row ∈ state.outbox)
    (isUndispatched : row.undispatched = true)
    (admitted : leavesWithoutJob state.jobs row reply = true →
      ∀ change ∈ state.changes, row.spec.names change.tenantId change.memoryId →
        Served (state.outbox.filter fun other => other.outboxId ≠ row.outboxId) state.jobs change)
    (isChange : change ∈ state.changes)
    (served : Served state.outbox state.jobs change) :
    Served (state.dispatch row reply).outbox (state.dispatch row reply).jobs change := by
  rcases served_by_rest unique stored served with rest | names
  · exact rest_of_dispatch rest
  · by_cases leaves : leavesWithoutJob state.jobs row reply = true
    · exact rest_of_dispatch (admitted leaves change isChange names)
    · cases reply with
      | answers => exact queued_of_unlocked (by simpa [leavesWithoutJob] using leaves) names
      | raises =>
        apply waits_of_failed stored isUndispatched _ names
        simpa [leavesWithoutJob] using leaves
      | raisesAfter =>
        by_cases again : 20 ≤ row.attempts + 1
        · apply queued_of_unlocked _ names
          simpa [leavesWithoutJob, again] using leaves
        · exact waits_of_failed stored isUndispatched again names
      | unmarked => exact .inl (.inl ⟨row, stored, isUndispatched, names⟩)

theorem dispatch_outbox_ids (row : OutboxRow) (reply : DispatchReply) :
    (state.dispatch row reply).outbox.map OutboxRow.outboxId =
      state.outbox.map OutboxRow.outboxId := by
  cases reply with
  | answers => exact map_updateWhere fun _ => rfl
  | raises => exact map_updateWhere fun _ => rfl
  | raisesAfter => exact map_updateWhere fun _ => rfl
  | unmarked => rfl

theorem inserted_ids (specs : List JobSpec) :
    ∀ first : Nat,
      (inserted first specs).map OutboxRow.outboxId = List.range' first specs.length := by
  induction specs with
  | nil => simp [inserted]
  | cons spec specs ih =>
    intro first
    simp [inserted, ih, List.range'_succ]

private theorem mem_inserted {specs : List JobSpec} (member : spec ∈ specs) :
    ∀ first : Nat, ∃ row ∈ inserted first specs, row.undispatched = true ∧ row.spec = spec := by
  induction specs with
  | nil => cases member
  | cons head specs ih =>
    intro first
    rcases mem_cons.mp member with isHead | isLater
    · exact ⟨_, mem_cons_self, rfl, isHead.symm⟩
    · obtain ⟨row, stored, facts⟩ := ih isLater (first + 1)
      exact ⟨row, mem_cons_of_mem _ stored, facts⟩

theorem commit_served (inv : Inv state) (isOpen : state.uow = some uow)
    (admitted : Admitted state .commit)
    (isChange : change ∈ changed state.tables uow.tables state.clock) :
    Served (state.outbox ++ inserted state.nextId uow.jobs) state.jobs change := by
  obtain ⟨r, isNew, rfl⟩ := mem_map.mp isChange
  obtain ⟨stored, notBefore⟩ := mem_filter.mp isNew
  obtain ⟨tenant, isCovered⟩ := inv.covers uow isOpen r stored (by simpa using notBefore)
  have ofInserted : ∀ spec ∈ uow.jobs, spec.names uow.tenantId r.memoryId →
      Served (state.outbox ++ inserted state.nextId uow.jobs) state.jobs
        { tenantId := r.tenantId, memoryId := r.memoryId, committed := state.clock } := by
    intro spec isJob names
    obtain ⟨row, isRow, waits, rfl⟩ := mem_inserted isJob state.nextId
    refine .inl (.inl ⟨row, mem_append_right _ isRow, waits, ?_⟩)
    rw [tenant]
    exact names
  rcases isCovered with isFalse | isInvalidated | ⟨spec, isSpec, names⟩
  · exact isFalse.elim
  · apply ofInserted { tenantId := uow.tenantId, memoryIds := uow.invalidated }
    · have some_ : uow.invalidated ≠ [] := ne_nil_of_mem isInvalidated
      simp [Uow.jobs, some_]
    · exact ⟨rfl, isInvalidated⟩
  · rcases mem_append.mp isSpec with isEnqueued | isAbsorbed
    · exact ofInserted spec (mem_append_left _ isEnqueued) names
    · rcases admitted uow isOpen spec isAbsorbed r.memoryId names.2 with
        ⟨other, isJob, otherNames⟩ | waits
      · exact ofInserted other isJob otherNames
      · have isServed : Served state.outbox state.jobs
            { tenantId := r.tenantId, memoryId := r.memoryId, committed := state.clock } := by
          apply Or.inl
          rw [tenant]
          exact waits
        exact isServed.mono (fun row stored _ => mem_append_left _ stored) fun _ stored => stored

theorem purge_keeps {now olderThan : Nat}
    (stored : row ∈ outbox) (isUndispatched : row.undispatched = true) :
    row ∈ purgeDispatched now olderThan outbox := by
  simp only [OutboxRow.undispatched, decide_eq_true_eq] at isUndispatched
  apply mem_filter.mpr
  refine ⟨stored, ?_⟩
  simp [isUndispatched.1]

section

variable (inv : Inv state)
include inv

theorem commit_inv (isOpen : state.uow = some uow)
    (admitted : Admitted state .commit) :
    Inv
      { state with
        tables := uow.tables
        outbox := state.outbox ++ inserted state.nextId uow.jobs
        nextId := state.nextId + uow.jobs.length
        uow := none
        clock := state.clock + 1
        changes := state.changes ++ changed state.tables uow.tables state.clock } where
  numbered := by
    intro row stored
    rcases mem_append.mp stored with isOld | isInserted
    · have below := inv.numbered row isOld
      dsimp only
      omega
    · have isId := mem_map_of_mem (f := OutboxRow.outboxId) isInserted
      rw [inserted_ids, mem_range'_1] at isId
      exact isId.2
  unique := by
    rw [map_append, inserted_ids]
    apply List.Nodup.append inv.unique nodup_range'
    intro id isOld isInserted
    obtain ⟨row, stored, rfl⟩ := mem_map.mp isOld
    have below := inv.numbered row stored
    have notBelow := (mem_range'_1.mp isInserted).1
    omega
  covers := by
    intro other isOther
    cases isOther
  past := by
    intro change member
    rcases mem_append.mp member with isOld | isNew
    · have before := inv.past change isOld
      dsimp only
      omega
    · obtain ⟨r, -, rfl⟩ := mem_map.mp isNew
      exact Nat.lt_succ_self state.clock
  served := by
    intro change member
    rcases mem_append.mp member with isOld | isNew
    · apply Served.mono (inv.served change isOld)
      · intro row stored _
        exact mem_append_left _ stored
      · intro job stored
        exact stored
    · exact commit_served inv isOpen admitted isNew

theorem dispatch_inv
    (stored : row ∈ state.outbox) (isUndispatched : row.undispatched = true)
    (admitted : leavesWithoutJob state.jobs row reply = true →
      ∀ change ∈ state.changes, row.spec.names change.tenantId change.memoryId →
        Served (state.outbox.filter fun other => other.outboxId ≠ row.outboxId)
          state.jobs change) :
    Inv { state.dispatch row reply with clock := state.clock + 1 } where
  numbered := by
    intro other member
    have isId : other.outboxId ∈ state.outbox.map OutboxRow.outboxId := by
      rw [← dispatch_outbox_ids row reply]
      exact mem_map_of_mem member
    obtain ⟨before, isBefore, sameId⟩ := mem_map.mp isId
    have below := inv.numbered before isBefore
    have sameNext : (state.dispatch row reply).nextId = state.nextId := by
      cases reply <;> rfl
    dsimp only
    omega
  unique := by
    dsimp only
    rw [dispatch_outbox_ids]
    exact inv.unique
  covers := by
    intro uow isOpen
    have same :
        (state.dispatch row reply).uow = state.uow ∧
          (state.dispatch row reply).tables = state.tables := by
      cases reply <;> exact ⟨rfl, rfl⟩
    dsimp only at isOpen ⊢
    rw [same.1] at isOpen
    rw [same.2]
    exact inv.covers uow isOpen
  past := by
    intro change member
    have same : (state.dispatch row reply).changes = state.changes := by
      cases reply <;> rfl
    dsimp only at member ⊢
    rw [same] at member
    have before := inv.past change member
    omega
  served := by
    intro change member
    have same : (state.dispatch row reply).changes = state.changes := by
      cases reply <;> rfl
    dsimp only at member
    rw [same] at member
    exact
      dispatch_served inv.unique stored isUndispatched admitted member (inv.served change member)

theorem set_inv
    (isPlace : state.jobs[place]? = some job) (isNow : ∀ at_ ∈ started, at_ = state.clock) :
    Inv
      { state with
        jobs := state.jobs.set place { job with started }
        clock := state.clock + 1 } where
  numbered := inv.numbered
  unique := inv.unique
  covers := inv.covers
  past := fun change member => Nat.lt_succ_of_lt (inv.past change member)
  served := by
    intro change member
    apply Served.set (inv.served change member) isPlace
    intro at_ isStarted
    rw [isNow at_ isStarted]
    exact inv.past change member

theorem quiet_inv (time : Nat)
    {uow : Option Uow} (sublist : outbox.Sublist state.outbox)
    (keeps : ∀ row ∈ state.outbox, row.undispatched = true → row ∈ outbox)
    (covers : ∀ other ∈ uow, other.Covers state.tables fun _ => False) :
    Inv { state with outbox, uow, clock := state.clock + time + 1 } where
  numbered := fun row stored => inv.numbered row (sublist.subset stored)
  unique := inv.unique.sublist (sublist.map OutboxRow.outboxId)
  covers := covers
  past := by
    intro change member
    have before := inv.past change member
    dsimp only
    omega
  served := by
    intro change member
    apply Served.mono (inv.served change member) keeps
    intro job stored
    exact stored

end

theorem step_inv {action : Action} (stepped : step contentHash state action = some next)
    (admitted : Admitted state action) (inv : Inv state) : Inv next := by
  obtain ⟨acted, isActed, rfl⟩ := Option.map_eq_some_iff.mp stepped
  cases action with
  | project tenantId effects now =>
    rw [act] at isActed
    obtain ⟨-, isActed⟩ := Option.ite_none_left_eq_some.mp isActed
    obtain ⟨uow, projected, rfl⟩ := Option.map_eq_some_iff.mp isActed
    apply quiet_inv inv 0 (List.Sublist.refl _) fun row stored _ => stored
    intro other isOther
    cases isOther
    exact project_covers projected
  | commit =>
    obtain ⟨uow, isOpen, rfl⟩ := Option.map_eq_some_iff.mp isActed
    exact commit_inv inv isOpen admitted
  | rollback =>
    cases isActed
    apply quiet_inv inv 0 (List.Sublist.refl _) fun row stored _ => stored
    intro other isOther
    cases isOther
  | dispatch outboxId reply =>
    obtain ⟨row, found, rfl⟩ := Option.map_eq_some_iff.mp isActed
    have selected := find?_some found
    rw [Bool.and_eq_true] at selected
    have sameClock : (state.dispatch row reply).clock = state.clock := by
      cases reply <;> rfl
    rw [sameClock]
    exact dispatch_inv inv (mem_of_find?_eq_some found) selected.2 (admitted row found)
  | start place =>
    obtain ⟨job, isPlace, rfl⟩ := Option.map_eq_some_iff.mp isActed
    apply set_inv inv isPlace
    intro at_ isStarted
    exact (Option.some.inj isStarted).symm
  | retry place =>
    obtain ⟨job, isPlace, rfl⟩ := Option.map_eq_some_iff.mp isActed
    apply set_inv inv isPlace
    intro at_ isStarted
    cases isStarted
  | purge olderThan =>
    cases isActed
    apply quiet_inv inv 0 filter_sublist _ inv.covers
    intro row stored isUndispatched
    exact purge_keeps stored isUndispatched
  | tick time =>
    cases isActed
    exact quiet_inv inv time (List.Sublist.refl _) (fun row stored _ => stored) inv.covers

/-- In every run whose steps are admitted, from any stored memories, each committed change
of a memory has an index job that is still to run or started after the commit. -/
theorem changes_reach_index {tables : Memory.State} {actions : List Action}
    (reached : run (step contentHash) { tables } actions = some state)
    (admitted : Meets (step contentHash) Admitted { tables } actions) :
    ∀ change ∈ state.changes, Served state.outbox state.jobs change := by
  have initial : Inv { tables } := by
    constructor
    · intro row stored
      cases stored
    · exact nodup_nil
    · intro uow isOpen
      cases isOpen
    · intro change member
      cases member
    · intro change member
      cases member
  have inv : Inv state := by
    apply run_invariant_of_meets _ reached admitted initial
    intro before after action stepped isAdmitted
    exact step_inv stepped isAdmitted
  exact inv.served

end

def oneStatement : Memory.State where
  memories :=
    [{ memoryId := "mem_1"
       tenantId := "ten"
       visibilityKeys := ["user:u"]
       temporalStatus := .current }]

/-- Every projection here hashes the same one id. -/
def idsDigest (_ : String) : Digest := ⟨"0d", rfl⟩

/-- A vote confirms the statement and its job runs. -/
def confirmed : List Action :=
  [.project "ten" [.reinforce "mem_1"] ⟨0⟩, .commit, .dispatch 0 .answers, .start 0]

theorem changes_reach_index_once_confirmed :
    ∃ state, run (step idsDigest) { tables := oneStatement } confirmed = some state ∧
      state.changes = [⟨"ten", "mem_1", 1⟩] ∧
        ∀ change ∈ state.changes, Served state.outbox state.jobs change :=
  exists_run_showing (by decide +kernel) fun _ reached =>
    changes_reach_index reached (by decide +kernel)

/-- The statement is confirmed, its job dispatched and run; then it is rejected while the
dispatched row is kept, and the insert of the second job does nothing. -/
theorem rejection_is_not_indexed :
    ¬∀ contentHash tables actions state,
        run (step contentHash) { tables } actions = some state →
          ∀ change ∈ state.changes, Served state.outbox state.jobs change := by
  intro always
  have rejected := always idsDigest oneStatement
  revert rejected
  apply not_always_of_run (confirmed ++ [.project "ten" [.retract "mem_1" [] []] ⟨1⟩, .commit])
  decide +kernel

end MemoryService.Feedback
