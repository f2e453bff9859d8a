import MemoryService.Tools.PassReadings

/-!
# Outcomes that are learned

A label makes its run's calls unlearned, so that a later pass learns it.
-/

namespace MemoryService.Tools.Learning

open Domain Foundation Option List

variable {Notes : Type} [DecidableEq Notes] (stableHash : Skill → Digest)
  (describe : Describe Notes) (tenantId : String)

/-- A pass of the run mines the group at this instant. -/
def MinedAt (actions : List Action) (group : Group) (now : Instant) : Prop :=
  ∃ place, .mine place group now ∈ actions

variable (minedAt : Group → Instant → Prop) (state : State Notes)

/-- Mining the group as it is now, at an instant at which a pass mined it, changes nothing. -/
def Learned (group : Group) : Prop :=
  ∃ now, minedAt group now ∧
    relearned stableHash describe now tenantId group (group.window state.calls)
      state.outcomes (byPattern group state.procedures) = byPattern group state.procedures

/-- Once no call is left unlearned, every group that a call belongs to is learned. -/
def AllLearned : Prop :=
  state.unlearned = [] →
    ∀ call ∈ state.calls, ∀ group ∈ groupOf call,
      Learned stableHash describe tenantId minedAt state group

/-- A later pass will mine the group. -/
def ToLearn (group : Group) : Prop :=
  ∃ call ∈ state.calls, groupOf call = some group ∧ call.invocationId ∈ state.unlearned
deriving Decidable

def Reading.Current (reading : Reading Notes) (state : State Notes) : Prop :=
  (reading.group.window state.calls).map ToolInvocation.invocationId =
      reading.calls.map ToolInvocation.invocationId ∧
    ∀ call ∈ reading.calls, ∀ runId ∈ given call.runId,
      outcomeOf state.outcomes runId = outcomeOf reading.outcomes runId
deriving Decidable

def LeavesLearned (pass : Pass Notes) (group : Group) : Prop :=
  (∃ other ∈ state.calls, groupOf other = some group ∧
    other.invocationId ∈ state.unlearned ∧
      other.invocationId ∉ pass.calls.map ToolInvocation.invocationId) ∨
    ∃ reading ∈ pass.read, reading.group = group ∧ reading.Current state ∧
      byPattern group state.procedures = reading.row

def Undisturbed : Action → Prop
  | .record call =>
    ∀ other ∈ state.calls, ∀ group ∈ groupOf other, groupOf call = some group ∨
      ToLearn state group ∨
        (group.window (state.calls ++ [call])).map ToolInvocation.invocationId =
          (group.window state.calls).map ToolInvocation.invocationId
  | .outcome outcome =>
    ∀ other ∈ state.calls, ∀ group ∈ groupOf other,
      (∃ call ∈ group.window state.calls, given call.runId = some outcome.runId) →
        ∃ call ∈ state.calls, groupOf call = some group ∧
          (call.runId = some outcome.runId ∨ call.invocationId ∈ state.unlearned)
  | .save place =>
    ∀ pass ∈ state.passes[place]?, ∀ saving ∈ pass.saving,
      ToLearn state saving.1.group ∨ saving.1.Current state
  | .finish place =>
    ∀ pass ∈ state.passes[place]?, ∀ call ∈ pass.calls, ∀ group ∈ groupOf call,
      LeavesLearned state pass group
  | _ => True

instance (state : State Notes) (pass : Pass Notes) (group : Group) :
    Decidable (LeavesLearned state pass group) :=
  inferInstanceAs (Decidable ((∃ other ∈ state.calls, _) ∨ ∃ reading ∈ pass.read, _))

instance (state : State Notes) (action) : Decidable (Undisturbed state action) := by
  unfold Undisturbed
  split <;> infer_instance

def AllTended : Prop :=
  ∀ call ∈ state.calls, ∀ group ∈ groupOf call,
    ToLearn state group ∨ Learned stableHash describe tenantId minedAt state group

/-- What the passes hold was mined at such an instant. -/
def Timed : Prop :=
  ∀ pass ∈ state.passes, ∀ reading ∈ pass.readings, minedAt reading.group reading.now

variable {stableHash : Skill → Digest} {describe : Describe Notes} {tenantId : String}
  {minedAt : Group → Instant → Prop}
  {state next : State Notes} {group : Group} {reading : Reading Notes} {pass : Pass Notes}

theorem learned_of_current (sound : Sound stableHash describe tenantId state)
    (right : reading.Right stableHash describe tenantId state.calls)
    (current : reading.Current state) (sameCalls : next.calls = state.calls)
    (sameOutcomes : next.outcomes = state.outcomes)
    (isRow : byPattern reading.group next.procedures = reading.row)
    (isMined : minedAt reading.group reading.now) :
    Learned stableHash describe tenantId minedAt next reading.group := by
  have sameWindow : reading.group.window state.calls = reading.calls :=
    calls_eq_of_ids sound.unique (fun call member => mem_window member) right.recorded current.1
  have same : relearned stableHash describe reading.now tenantId reading.group reading.calls
      reading.outcomes reading.row = reading.row := by
    rw [right.row]
    exact relearned_again describe _ _ _ _ _ _
  have sameTrajectories : trajectoriesOf state.outcomes reading.calls =
      trajectoriesOf reading.outcomes reading.calls := trajectories_congr current.2
  refine ⟨reading.now, isMined, ?_⟩
  rw [isRow, sameCalls, sameWindow, sameOutcomes]
  rw [relearned, relearn] at same ⊢
  rw [sameTrajectories]
  exact same

theorem learned_congr (same : group.window next.calls = group.window state.calls)
    (outcomes : trajectoriesOf next.outcomes (group.window state.calls) =
      trajectoriesOf state.outcomes (group.window state.calls))
    (procedures : byPattern group next.procedures = byPattern group state.procedures)
    (learned : Learned stableHash describe tenantId minedAt state group) :
    Learned stableHash describe tenantId minedAt next group := by
  obtain ⟨now, isMined, isLearned⟩ := learned
  refine ⟨now, isMined, ?_⟩
  rw [same, procedures]
  rw [relearned, relearn] at isLearned ⊢
  rw [outcomes]
  exact isLearned

omit [DecidableEq Notes] in
private theorem ToLearn.mono (toLearn : ToLearn state group)
    (calls : ∀ call ∈ state.calls, call ∈ next.calls)
    (unlearned : ∀ id ∈ state.unlearned, id ∈ next.unlearned) : ToLearn next group := by
  obtain ⟨call, isRecorded, isOf, isUnlearned⟩ := toLearn
  exact ⟨call, calls call isRecorded, isOf, unlearned _ isUnlearned⟩

theorem tended_congr
    (tended : ToLearn state group ∨ Learned stableHash describe tenantId minedAt state group)
    (calls : ∀ call ∈ state.calls, call ∈ next.calls)
    (unlearned : ∀ id ∈ state.unlearned, id ∈ next.unlearned)
    (same : group.window next.calls = group.window state.calls)
    (outcomes : trajectoriesOf next.outcomes (group.window state.calls) =
      trajectoriesOf state.outcomes (group.window state.calls))
    (procedures : byPattern group next.procedures = byPattern group state.procedures) :
    ToLearn next group ∨ Learned stableHash describe tenantId minedAt next group :=
  tended.imp (fun toLearn => toLearn.mono calls unlearned)
    fun learned => learned_congr same outcomes procedures learned

variable {call : ToolInvocation} {place : ℕ}

theorem mem_callsOf {runId : String} {calls : List ToolInvocation}
    (member : call ∈ calls) (isRun : call.runId = some runId) :
    call.invocationId ∈ callsOf runId calls :=
  List.mem_map_of_mem (mem_filter.mpr ⟨member, decide_eq_true isRun⟩)

section

variable (tended : AllTended stableHash describe tenantId minedAt state)
include tended

theorem record_tended (stepped : step stableHash describe tenantId state (.record call) = some next)
    (undisturbed : Undisturbed state (.record call))
    (sound : Sound stableHash describe tenantId state) :
    AllTended stableHash describe tenantId minedAt next := by
  have unique := (sound_step stepped sound).unique
  rw [step] at stepped
  obtain ⟨-, stepped⟩ := ite_none_left_eq_some.mp stepped
  cases stepped
  have old : ∀ other ∈ state.calls, other ∈ state.calls ++ [call] :=
    fun other member => mem_append_left _ member
  have older : ∀ id ∈ state.unlearned, id ∈ state.unlearned ++ [call.invocationId] :=
    fun id member => mem_append_left _ member
  intro other member group isGroup
  by_cases own : groupOf call = some group
  · exact .inl ⟨call, by simp, own, by simp⟩
  · have before : other ∈ state.calls := by
      rcases mem_concat.mp member with before | rfl
      · exact before
      · exact absurd isGroup own
    rcases undisturbed other before group isGroup with sameGroup | toLearn | sameWindow
    · exact absurd sameGroup own
    · exact .inl (toLearn.mono old older)
    · refine tended_congr (tended other before group isGroup) old older ?_ rfl rfl
      exact calls_eq_of_ids unique (fun other isIn => mem_window isIn)
        (fun other isIn => old other (mem_window isIn)) sameWindow

theorem outcome_tended {outcome : RunOutcome}
    (stepped : step stableHash describe tenantId state (.outcome outcome) = some next)
    (undisturbed : Undisturbed state (.outcome outcome)) :
    AllTended stableHash describe tenantId minedAt next := by
  cases stepped
  intro other member group isGroup
  by_cases touched : ∃ call ∈ group.window state.calls, given call.runId = some outcome.runId
  · obtain ⟨call, isRecorded, isOf, isRun | isUnlearned⟩ :=
      undisturbed other member group isGroup touched
    · exact .inl ⟨call, isRecorded, isOf, mem_append_right _ (mem_callsOf isRecorded isRun)⟩
    · exact .inl ⟨call, isRecorded, isOf, mem_append_left _ isUnlearned⟩
  · refine tended_congr (tended other member group isGroup) (fun call isCall => isCall)
      (fun id isUnlearned => mem_append_left _ isUnlearned) rfl ?_ rfl
    refine trajectories_congr fun call isCall runId isRun => ?_
    dsimp only
    rw [outcomeOf_setOutcome, if_neg]
    rintro rfl
    exact touched ⟨call, isCall, isRun⟩

theorem save_tended (stepped : step stableHash describe tenantId state (.save place) = some next)
    (undisturbed : Undisturbed state (.save place))
    (sound : Sound stableHash describe tenantId state) (timed : Timed minedAt state) :
    AllTended stableHash describe tenantId minedAt next := by
  obtain ⟨pass, reading, procedure, isPass, isSaving, rfl⟩ := step_cases stepped
  obtain ⟨right, isKey, isRow⟩ := (sound.passes pass (mem_of_getElem? isPass)).saved isSaving
  intro other member group isGroup
  by_cases isOwn : reading.group = group
  · subst isOwn
    rcases undisturbed pass isPass (reading, procedure) isSaving with toLearn | current
    · exact .inl toLearn
    · refine .inr (learned_of_current sound right current rfl rfl ?_ ?_)
      · rw [byPattern_save, if_pos isKey, isRow]
      · exact timed pass (mem_of_getElem? isPass) reading (mem_readings_of_saving isSaving)
  · refine tended_congr (tended other member group isGroup) (fun call isCall => isCall)
      (fun id isUnlearned => isUnlearned) rfl rfl ?_
    rw [byPattern_save, if_neg]
    rw [isKey]
    exact isOwn

theorem finish_tended
    (stepped : step stableHash describe tenantId state (.finish place) = some next)
    (undisturbed : Undisturbed state (.finish place))
    (sound : Sound stableHash describe tenantId state) (timed : Timed minedAt state) :
    AllTended stableHash describe tenantId minedAt next := by
  obtain ⟨pass, isPass, rfl⟩ := step_cases stepped
  have right := sound.passes pass (mem_of_getElem? isPass)
  intro other member group isGroup
  by_cases marked : ∃ call ∈ pass.calls, groupOf call = some group
  · obtain ⟨call, isMarked, isOf⟩ := marked
    rcases undisturbed pass isPass call isMarked group isOf with stays | isRead
    · obtain ⟨call, isRecorded, isOf, isUnlearned, notMarked⟩ := stays
      exact .inl ⟨call, isRecorded, isOf, mem_filter.mpr ⟨isUnlearned, decide_eq_true notMarked⟩⟩
    · obtain ⟨reading, isReading, rfl, current, isRow⟩ := isRead
      have isHeld : reading ∈ pass.readings := mem_append_left _ isReading
      exact .inr (learned_of_current sound (right.readings reading isHeld) current rfl rfl isRow
        (timed pass (mem_of_getElem? isPass) reading isHeld))
  · rcases tended other member group isGroup with toLearn | learned
    · obtain ⟨call, isRecorded, isOf, isUnlearned⟩ := toLearn
      by_cases isMarked : call.invocationId ∈ pass.calls.map ToolInvocation.invocationId
      · obtain ⟨call', isIn, sameId⟩ := List.mem_map.mp isMarked
        have same : call' = call :=
          inj_on_of_nodup_map sound.unique (right.recorded call' isIn) isRecorded sameId
        rw [same] at isIn
        exact absurd ⟨call, isIn, isOf⟩ marked
      · exact .inl ⟨call, isRecorded, isOf, mem_filter.mpr ⟨isUnlearned, decide_eq_true isMarked⟩⟩
    · exact .inr learned

end

theorem timed_step {action : Action}
    (stepped : step stableHash describe tenantId state action = some next)
    (isMined : ∀ place group now, action = .mine place group now → minedAt group now)
    (timed : Timed minedAt state) : Timed minedAt next := by
  cases action with
  | record call =>
    obtain ⟨-, rfl⟩ := step_cases stepped
    exact timed
  | outcome outcome =>
    cases stepped
    exact timed
  | begin limit =>
    obtain ⟨todo, rfl⟩ := step_cases stepped
    intro pass member reading isReading
    rcases mem_concat.mp member with before | rfl
    · exact timed pass before reading isReading
    · cases isReading
  | mine place group now =>
    obtain ⟨pass, isPass, idle, rfl⟩ := step_cases stepped
    intro pass' member reading isReading
    rcases mem_or_eq_of_mem_set member with isOld | rfl
    · exact timed pass' isOld reading isReading
    · rw [readings_mined idle] at isReading
      rcases mem_concat.mp isReading with old | rfl
      · exact timed pass (mem_of_getElem? isPass) reading (mem_append_left _ old)
      · exact isMined place group now rfl
  | save place =>
    obtain ⟨pass, saved, _, isPass, isSaving, rfl⟩ := step_cases stepped
    intro pass' member reading isReading
    rcases mem_or_eq_of_mem_set member with isOld | rfl
    · exact timed pass' isOld reading isReading
    · refine timed pass (mem_of_getElem? isPass) reading ?_
      rw [Pass.readings, isSaving]
      simpa [Pass.readings] using isReading
  | finish place =>
    obtain ⟨pass, -, rfl⟩ := step_cases stepped
    exact fun pass isIn => timed pass (mem_of_mem_eraseIdx isIn)
  | fail place =>
    cases step_cases stepped
    exact fun pass isIn => timed pass (mem_of_mem_eraseIdx isIn)

theorem step_tended {action : Action}
    (stepped : step stableHash describe tenantId state action = some next)
    (allowed : (∀ place group now, action = .mine place group now → minedAt group now) ∧
      Undisturbed state action)
    (invariant : Sound stableHash describe tenantId state ∧ Timed minedAt state ∧
      AllTended stableHash describe tenantId minedAt state) :
    Sound stableHash describe tenantId next ∧ Timed minedAt next ∧
      AllTended stableHash describe tenantId minedAt next := by
  obtain ⟨sound, timed, tended⟩ := invariant
  obtain ⟨isMined, undisturbed⟩ := allowed
  refine ⟨sound_step stepped sound, timed_step stepped isMined timed, ?_⟩
  cases action with
  | record call => exact record_tended tended stepped undisturbed sound
  | outcome outcome => exact outcome_tended tended stepped undisturbed
  | save place => exact save_tended tended stepped undisturbed sound timed
  | finish place => exact finish_tended tended stepped undisturbed sound timed
  | begin limit =>
    obtain ⟨todo, rfl⟩ := step_cases stepped
    exact tended
  | mine place group now =>
    obtain ⟨pass, -, -, rfl⟩ := step_cases stepped
    exact tended
  | fail place =>
    cases step_cases stepped
    exact tended

/-- In a run whose steps lose no outcome, every outcome is learned once no call is left. -/
theorem outcomes_are_learned (stableHash : Skill → Digest) (describe : Describe Notes)
    (tenantId : String) (actions : List Action) (state : State Notes)
    (reached : run (step stableHash describe tenantId) {} actions = some state)
    (undisturbed : Meets (step stableHash describe tenantId) Undisturbed {} actions) :
    AllLearned stableHash describe tenantId (MinedAt actions) state := by
  have start : Sound stableHash describe tenantId ({} : State Notes) ∧
      Timed (MinedAt actions) ({} : State Notes) ∧
        AllTended stableHash describe tenantId (MinedAt actions) ({} : State Notes) :=
    ⟨sound_start, fun _ member => (not_mem_nil member).elim,
      fun _ member => (not_mem_nil member).elim⟩
  have ofRun : Meets (step stableHash describe tenantId) (fun _ action =>
      ∀ place group now, action = .mine place group now → MinedAt actions group now) {} actions :=
    meets_of_forall fun action isAction _ place group now same => ⟨place, same ▸ isAction⟩
  have tended := (run_invariant_of_meets step_tended reached (ofRun.and undisturbed) start).2.2
  intro noneLeft call member group isGroup
  refine (tended call member group isGroup).resolve_left ?_
  rintro ⟨unlearned, -, -, isUnlearned⟩
  rw [noneLeft] at isUnlearned
  cases isUnlearned

theorem stored_of_learned {state : State Notes} {group : Group}
    (learned : Learned stableHash describe tenantId minedAt state group)
    (owned : (group.window state.calls).head?.isSome = true)
    (mined : (mineProcedure describe group.pattern
      (trajectoriesOf state.outcomes (group.window state.calls))).isSome = true) :
    (byPattern group state.procedures).isSome = true := by
  obtain ⟨now, -, same⟩ := learned
  by_contra absent
  have isNone : byPattern group state.procedures = none := by
    rwa [not_isSome_iff_eq_none] at absent
  obtain ⟨m, isMined⟩ := isSome_iff_exists.mp mined
  obtain ⟨owner, isOwner⟩ : ∃ owner, ((group.window state.calls).find?
      ToolInvocation.succeeded).or (group.window state.calls).head? = some owner := by
    refine isSome_iff_exists.mp ?_
    rw [isSome_or, owned, Bool.or_true]
  rw [isNone, relearned, relearn, isOwner, bind_some, isMined] at same
  dsimp only at same
  rw [if_neg (fun unchanged => by cases unchanged)] at same
  cases same

def searchCall : ToolInvocation where
  invocationId := "call_1"
  tenantId := "acme"
  toolId := "tool_1"
  toolName := "search"
  runId := some "r_1"
  userId := some "ana"
  agentId := some "planner"
  argsHash := ⟨"4b", by decide⟩
  task := "find a flight"
  taskPattern := some "find a flight"
  visibilityKeys := ["principal:acme/agent:ana/planner"]
  occurredAt := ⟨10⟩

def plannerSearch : Group := { audience := .agent "planner", pattern := "find a flight" }

def approved (runId : String) : RunOutcome where
  tenantId := "acme"
  runId
  success := true
  note := "feedback fb_1: approve"
  source := .judge
  recordedAt := ⟨30⟩

def samples : Describe ℕ := fun trajectories sequence ordinal =>
  ([], ((successful trajectories).flatMap Trajectory.steps).countP fun call =>
    sequence[ordinal]? = some call.toolName)

def sameHash : Skill → Digest := fun _ => ⟨"4c", by decide⟩

def lateLabel : List Action :=
  [.record searchCall, .begin 500, .mine 0 plannerSearch ⟨20⟩, .outcome (approved "r_1"), .finish 0]

def leftToLearn (state : State ℕ) : Bool × Bool × Bool × Bool :=
  (state.unlearned.isEmpty, (plannerSearch.window state.calls).head?.isSome,
    (mineProcedure samples plannerSearch.pattern
      (trajectoriesOf state.outcomes (plannerSearch.window state.calls))).isSome,
    (byPattern plannerSearch state.procedures).isSome)

theorem late_label_is_lost :
    ¬∀ (stableHash : Skill → Digest) (describe : Describe ℕ) (tenantId : String)
      (actions : List Action) (state : State ℕ),
      run (step stableHash describe tenantId) {} actions = some state →
        AllLearned stableHash describe tenantId (MinedAt actions) state := by
  intro always
  have ends : (run (step sameHash samples "acme") {} lateLabel).map
      (fun state => (leftToLearn state, state.calls.map groupOf)) =
        some ((true, true, true, false), [some plannerSearch]) := by
    decide +kernel
  obtain ⟨state, reached, counts⟩ := map_eq_some_iff.mp ends
  simp only [leftToLearn, Prod.mk.injEq] at counts
  obtain ⟨⟨noneLeft, owned, mined, notStored⟩, groups⟩ := counts
  obtain ⟨call, isCall, isGroup⟩ : ∃ call ∈ state.calls, groupOf call = some plannerSearch := by
    rw [← List.mem_map, groups]
    exact mem_singleton_self _
  have learned := always sameHash samples "acme" lateLabel state reached
    (List.isEmpty_iff.mp noneLeft) call isCall plannerSearch isGroup
  rw [stored_of_learned learned owned mined] at notStored
  cases notStored

def timelyLabel : List Action :=
  [.record searchCall, .begin 500, .outcome (approved "r_1"), .mine 0 plannerSearch ⟨40⟩, .save 0,
    .finish 0]

theorem timely_label_is_learned :
    ∃ state, run (step sameHash samples "acme") {} timelyLabel = some state ∧
      leftToLearn state = (true, true, true, true) ∧
        AllLearned sameHash samples "acme" (MinedAt timelyLabel) state :=
  exists_run_showing (by decide +kernel) fun state reached =>
    outcomes_are_learned sameHash samples "acme" timelyLabel state reached (by decide +kernel)

end MemoryService.Tools.Learning
