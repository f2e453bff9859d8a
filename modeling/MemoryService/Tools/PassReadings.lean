import MemoryService.Tools.Learning

/-!
# What passes read

What a pass holds of a group are calls that were recorded, the procedure that was stored for
the group, and the procedure that learning makes of these.
-/

namespace MemoryService.Tools.Learning

open Domain Foundation List

variable {Notes : Type}

theorem byPattern_save (group : Group) (procedure : StoredProcedure Notes)
    (procedures : List (StoredProcedure Notes)) :
    byPattern group (save procedure procedures) =
      if keyOf procedure = group then some procedure else byPattern group procedures :=
  find?_insertOrUpdate keyOf procedure procedures group

variable {group : Group} {calls more : List ToolInvocation} {call : ToolInvocation} {now : Instant}
  {outcomes : List RunOutcome} {existing : Option (StoredProcedure Notes)}
  {procedure : StoredProcedure Notes}

theorem keyOf_byPattern {procedures : List (StoredProcedure Notes)} :
    ∀ existing ∈ byPattern group procedures, keyOf existing = group := by
  intro existing found
  rw [Option.mem_def, byPattern] at found
  simpa using find?_some found

theorem outcomeOf_setOutcome (outcome : RunOutcome) (outcomes : List RunOutcome)
    (runId : String) :
    outcomeOf (setOutcome outcome outcomes) runId =
      if outcome.runId = runId then some outcome else outcomeOf outcomes runId :=
  find?_insertOrUpdate _ outcome outcomes runId

theorem trajectories_congr {first second : List RunOutcome}
    (same : ∀ call ∈ calls, ∀ runId ∈ given call.runId,
      outcomeOf first runId = outcomeOf second runId) :
    trajectoriesOf first calls = trajectoriesOf second calls := by
  rw [trajectoriesOf, trajectoriesOf]
  refine filterMap_congr fun runCalls member => ?_
  obtain ⟨runId, isRun, rfl⟩ := mem_map.mp member
  obtain ⟨call, isCall, isGiven⟩ := mem_filterMap.mp (mem_eraseDups.mp isRun)
  dsimp only
  rw [same call isCall runId isGiven]

theorem mem_newestCalls {selects : ToolInvocation → Bool}
    (member : call ∈ newestCalls selects calls) :
    call ∈ calls ∧ selects call = true :=
  mem_filter.mp (mem_newestFirst.mp (mem_of_mem_take member))

theorem mem_window (member : call ∈ group.window calls) : call ∈ calls := by
  rw [Group.window] at member
  split at member
  · exact (mem_newestCalls member).1
  · exact (mem_newestCalls (mem_filter.mp member).1).1

theorem calls_eq_of_ids {first second : List ToolInvocation}
    (unique : (calls.map ToolInvocation.invocationId).Nodup)
    (firstIn : ∀ call ∈ first, call ∈ calls) (secondIn : ∀ call ∈ second, call ∈ calls)
    (sameIds : first.map ToolInvocation.invocationId =
      second.map ToolInvocation.invocationId) : first = second := by
  induction first generalizing second with
  | nil => exact (map_eq_nil_iff.mp sameIds.symm).symm
  | cons call rest ih =>
    cases second with
    | nil => cases sameIds
    | cons other others =>
      rw [map_cons, map_cons, List.cons.injEq] at sameIds
      have sameCall : call = other :=
        inj_on_of_nodup_map unique (firstIn call mem_cons_self)
          (secondIn other mem_cons_self) sameIds.1
      rw [sameCall, ih
        (fun call member => firstIn call (mem_cons_of_mem _ member))
        (fun call member => secondIn call (mem_cons_of_mem _ member)) sameIds.2]

variable [DecidableEq Notes] (stableHash : Skill → Digest) (describe : Describe Notes)
  (tenantId : String)

theorem merge_of_relearn
    (saves : relearn stableHash describe now tenantId group calls outcomes existing =
      some procedure) :
    ∃ owner, merge stableHash now tenantId group owner (contributors calls) existing
      (mineProcedure describe group.pattern (trajectoriesOf outcomes calls)) = some procedure := by
  obtain ⟨owner, -, merged⟩ := Option.bind_eq_some_iff.mp saves
  dsimp only at merged
  split at merged
  case isTrue => cases merged
  case isFalse => exact ⟨owner, merged⟩

omit [DecidableEq Notes] in
theorem pattern_of_mined {pattern : String} {trajectories : List Trajectory}
    {mined : Procedure Notes}
    (isMined : mineProcedure describe pattern trajectories = some mined) :
    mined.taskPattern = pattern := by
  rw [mineProcedure] at isMined
  split at isMined
  · cases isMined
  · dsimp only at isMined
    split at isMined
    · cases isMined
    · cases isMined
      rfl

theorem keyOf_of_relearn (isKey : ∀ e ∈ existing, keyOf e = group)
    (saves : relearn stableHash describe now tenantId group calls outcomes existing =
      some procedure) : keyOf procedure = group := by
  obtain ⟨owner, merged⟩ := merge_of_relearn stableHash describe tenantId saves
  cases mined : mineProcedure describe group.pattern (trajectoriesOf outcomes calls) with
  | none =>
    rw [mined] at merged
    obtain ⟨e, isExisting, retired⟩ := Option.bind_eq_some_iff.mp merged
    split at retired
    · cases retired
    · cases retired
      exact isKey e isExisting
  | some m =>
    rw [mined] at merged
    cases merged
    cases existing with
    | none =>
      have isPattern := pattern_of_mined describe mined
      rw [keyOf, Option.getD_none, isPattern]
    | some e => exact isKey e rfl

theorem active_of_relearn
    (saves : relearn stableHash describe now tenantId group calls outcomes existing =
      some procedure) (isActive : procedure.status = .active) :
    ∃ mined, mineProcedure describe group.pattern (trajectoriesOf outcomes calls) = some mined ∧
      admitted now mined = true ∧ procedure.tools = mined.tools ∧
      procedure.stepsHash = some (stableHash mined.skill) ∧
      (procedure.users, procedure.soleUser) = contributors calls ∧
      existing.any (fun e => e.status = .rejected ∧
        e.stepsHash = some (stableHash mined.skill)) = false := by
  obtain ⟨owner, merged⟩ := merge_of_relearn stableHash describe tenantId saves
  cases mined : mineProcedure describe group.pattern (trajectoriesOf outcomes calls) with
  | none =>
    rw [mined] at merged
    obtain ⟨e, -, retired⟩ := Option.bind_eq_some_iff.mp merged
    split at retired
    · cases retired
    · cases retired
      cases isActive
  | some m =>
    rw [mined] at merged
    cases merged
    refine ⟨m, rfl, ?_⟩
    dsimp only at isActive
    rw [statusOf] at isActive
    split at isActive
    case isTrue => cases isActive
    case isFalse notRejected =>
      split at isActive
      case isTrue isAdmitted =>
        refine ⟨isAdmitted, ?_, rfl, rfl, eq_false_of_ne_true notRejected⟩
        rw [StoredProcedure.tools, Procedure.tools, map_map]
        rfl
      case isFalse => split at isActive <;> cases isActive

omit [DecidableEq Notes] in
def Pass.readings (pass : Pass Notes) : List (Reading Notes) :=
  pass.read ++ (pass.saving.map Prod.fst).toList

/-- The reading is of recorded calls, and its procedure is what learning leaves of them. -/
structure Reading.Right (calls : List ToolInvocation) (reading : Reading Notes) : Prop where
  recorded : ∀ call ∈ reading.calls, call ∈ calls
  existing : ∀ existing ∈ reading.existing, keyOf existing = reading.group
  row : reading.row = relearned stableHash describe reading.now tenantId reading.group
    reading.calls reading.outcomes reading.existing

structure Pass.Right (calls : List ToolInvocation) (pass : Pass Notes) : Prop where
  recorded : ∀ call ∈ pass.calls, call ∈ calls
  readings : ∀ reading ∈ pass.readings, reading.Right stableHash describe tenantId calls
  saving : ∀ saving ∈ pass.saving,
    relearn stableHash describe saving.1.now tenantId saving.1.group saving.1.calls
      saving.1.outcomes saving.1.existing = some saving.2

/-- Calls have ids of their own, and passes hold what they read. -/
structure Sound (state : State Notes) : Prop where
  unique : (state.calls.map ToolInvocation.invocationId).Nodup
  passes : ∀ pass ∈ state.passes, pass.Right stableHash describe tenantId state.calls

variable {stableHash : Skill → Digest} {describe : Describe Notes} {tenantId : String}
  {state next : State Notes} {group : Group} {reading : Reading Notes} {pass : Pass Notes}

theorem Reading.Right.mono (right : reading.Right stableHash describe tenantId calls)
    (subset : ∀ call ∈ calls, call ∈ more) :
    reading.Right stableHash describe tenantId more :=
  ⟨fun call member => subset call (right.recorded call member), right.existing, right.row⟩

theorem Pass.Right.mono (right : pass.Right stableHash describe tenantId calls)
    (subset : ∀ call ∈ calls, call ∈ more) : pass.Right stableHash describe tenantId more :=
  ⟨fun call member => subset call (right.recorded call member),
    fun reading member => (right.readings reading member).mono subset, right.saving⟩

omit [DecidableEq Notes] in
theorem readings_mined (idle : pass.saving = none)
    (mined : Option (StoredProcedure Notes) × Reading Notes) :
    (pass.mined group mined).readings = pass.read ++ [mined.2] := by
  obtain ⟨none | procedure, reading⟩ := mined
  · simp [Pass.mined, Pass.readings, idle]
  · rfl

theorem mined_right
    (right : pass.Right stableHash describe tenantId state.calls) (idle : pass.saving = none) :
    (pass.mined group (state.mine stableHash describe tenantId group now)).Right
      stableHash describe tenantId state.calls := by
  constructor
  case recorded =>
    rw [Pass.mined.eq_def]
    split <;> exact right.recorded
  case readings =>
    intro reading member
    rw [readings_mined idle] at member
    rcases mem_concat.mp member with old | rfl
    · exact right.readings reading (mem_append_left _ old)
    · exact ⟨fun call member => mem_window member, keyOf_byPattern, rfl⟩
  case saving =>
    intro saving isSaving
    cases saves : state.mine stableHash describe tenantId group now with
    | mk saved reading =>
      cases saved with
      | none =>
        rw [saves, Pass.mined, idle] at isSaving
        cases isSaving
      | some procedure =>
        rw [saves] at isSaving
        cases isSaving
        rw [State.mine, Prod.mk.injEq] at saves
        rw [← saves.2]
        exact saves.1

omit [DecidableEq Notes] in
theorem mem_readings_of_saving {saved : Reading Notes × StoredProcedure Notes}
    (isSaving : pass.saving = some saved) : saved.1 ∈ pass.readings := by
  refine mem_append_right _ ?_
  rw [isSaving]
  exact mem_singleton_self _

theorem Pass.Right.saved {saved : Reading Notes × StoredProcedure Notes}
    (right : pass.Right stableHash describe tenantId calls)
    (isSaving : pass.saving = some saved) :
    saved.1.Right stableHash describe tenantId calls ∧ keyOf saved.2 = saved.1.group ∧
      saved.1.row = some saved.2 := by
  have saves := right.saving saved isSaving
  have isRight := right.readings saved.1 (mem_readings_of_saving isSaving)
  refine ⟨isRight, keyOf_of_relearn stableHash describe tenantId isRight.existing saves, ?_⟩
  rw [isRight.row, relearned, saves]
  rfl

omit [DecidableEq Notes] in
theorem mem_unlearnedCalls {limit : ℕ}
    (member : call ∈ state.unlearnedCalls limit) : call ∈ state.calls := by
  have sorted := mem_of_mem_take member
  rw [mem_insertionSort] at sorted
  exact (mem_filter.mp sorted).1

theorem sound_step {action : Action}
    (stepped : step stableHash describe tenantId state action = some next)
    (sound : Sound stableHash describe tenantId state) :
    Sound stableHash describe tenantId next := by
  cases action with
  | record call =>
    obtain ⟨isNew, rfl⟩ := step_cases stepped
    exact ⟨nodup_map_insert isNew sound.unique, fun pass member =>
      (sound.passes pass member).mono fun other isOld => mem_append_left _ isOld⟩
  | outcome outcome =>
    cases stepped
    exact ⟨sound.unique, sound.passes⟩
  | begin limit =>
    obtain ⟨todo, rfl⟩ := step_cases stepped
    refine ⟨sound.unique, fun pass member => ?_⟩
    rcases mem_concat.mp member with before | rfl
    · exact sound.passes pass before
    · refine ⟨fun call isRead => mem_unlearnedCalls isRead, fun reading isReading => ?_,
        fun saving isSaving => ?_⟩
      · cases isReading
      · cases isSaving
  | mine place group now =>
    obtain ⟨pass, isPass, idle, rfl⟩ := step_cases stepped
    refine ⟨sound.unique, fun pass' member => ?_⟩
    rcases mem_or_eq_of_mem_set member with isOld | rfl
    · exact sound.passes pass' isOld
    · exact mined_right (sound.passes pass (mem_of_getElem? isPass)) idle
  | save place =>
    obtain ⟨pass, _, _, isPass, isSaving, rfl⟩ := step_cases stepped
    have right := sound.passes pass (mem_of_getElem? isPass)
    refine ⟨sound.unique, fun pass' member => ?_⟩
    rcases mem_or_eq_of_mem_set member with isOld | rfl
    · exact sound.passes pass' isOld
    · refine ⟨right.recorded, fun reading isReading => ?_, fun saving isNone => by cases isNone⟩
      simp only [Pass.readings, Option.map_none, Option.toList_none, append_nil] at isReading
      rcases mem_concat.mp isReading with before | rfl
      · exact right.readings reading (mem_append_left _ before)
      · exact (right.saved isSaving).1
  | finish place =>
    obtain ⟨pass, isPass, rfl⟩ := step_cases stepped
    exact ⟨sound.unique, fun pass' isIn => sound.passes pass' (mem_of_mem_eraseIdx isIn)⟩
  | fail place =>
    cases step_cases stepped
    exact ⟨sound.unique, fun pass' isIn => sound.passes pass' (mem_of_mem_eraseIdx isIn)⟩

theorem sound_start : Sound stableHash describe tenantId ({} : State Notes) where
  unique := nodup_nil
  passes := fun pass member => by cases member

end MemoryService.Tools.Learning
