import MemoryService.Tools.OutcomesLearned

/-!
# Whose runs a procedure comes from

The procedure of an agent is offered to all of its users where two users are counted.
-/

namespace MemoryService.Tools

open Domain Foundation List

namespace Trajectory

theorem follows_iff (t : Trajectory) (sequence : List String) :
    t.follows sequence = true ↔ sequence <+: t.path := by
  rw [follows, decide_eq_true_eq]
  constructor
  · intro same
    rw [← same]
    exact take_prefix _ _
  · exact fun isPrefix => prefix_iff_eq_take.mp isPrefix |>.symm

theorem path_retryStep (out : List ToolInvocation) (call : ToolInvocation) :
    out.map ToolInvocation.toolName <+: (retryStep out call).map ToolInvocation.toolName := by
  rw [retryStep]
  split
  case h_1 empty =>
    rw [getLast?_eq_none_iff.mp empty]
    exact nil_prefix
  case h_2 last isLast =>
    split
    case isTrue same =>
      split
      case isTrue =>
        obtain ⟨before, rfl⟩ := getLast?_eq_some_iff.mp isLast
        rw [dropLast_concat, map_append, map_append, map_singleton, map_singleton, same]
      case isFalse => exact prefix_rfl
    case isFalse =>
      rw [map_append]
      exact prefix_append _ _

/-- The run as it is after more calls: it begins with the same tools. -/
structure Continues (t t' : Trajectory) : Prop where
  path : t.path <+: t'.path
  steps : ∀ call ∈ t.steps, call ∈ t'.steps

theorem Continues.follows {t t' : Trajectory} {sequence : List String}
    (continues : t.Continues t') (follows : t.follows sequence = true) :
    t'.follows sequence = true :=
  (t'.follows_iff sequence).mpr (((t.follows_iff sequence).mp follows).trans continues.path)

end Trajectory

variable {calls : List ToolInvocation} {call : ToolInvocation} {runId : String}

theorem mem_runSteps (member : call ∈ runSteps calls) : call ∈ calls := by
  rw [runSteps, mem_insertionSort] at member
  exact (mem_filter.mp member).1

theorem runSteps_concat (isLast : ∀ other ∈ calls, stepKey other ≤ stepKey call) :
    runSteps (calls ++ [call]) = runSteps calls ∨
      runSteps (calls ++ [call]) = runSteps calls ++ [call] := by
  rw [runSteps, runSteps, filter_append]
  by_cases isStep : call.toolName ∉ codeModeTools
  · refine .inr ?_
    rw [filter_cons_of_pos (by simpa using isStep), filter_nil]
    exact insertionSort_concat fun other member => isLast other (mem_of_mem_filter member)
  · refine .inl ?_
    rw [filter_cons_of_neg (by simpa using isStep), filter_nil, append_nil]

theorem continues_labelled (runId : String) (calls : List ToolInvocation) (before after : Bool) :
    (buildTrajectory runId calls before).Continues (buildTrajectory runId calls after) :=
  ⟨prefix_rfl, fun _ member => member⟩

theorem continues_concat
    {before after : Bool} (isLast : ∀ other ∈ calls, stepKey other ≤ stepKey call) :
    (buildTrajectory runId calls before).Continues
      (buildTrajectory runId (calls ++ [call]) after) := by
  refine ⟨?_, ?_⟩
  · change ((runSteps calls).foldl retryStep []).map ToolInvocation.toolName <+:
      ((runSteps (calls ++ [call])).foldl retryStep []).map ToolInvocation.toolName
    rcases runSteps_concat isLast with same | more
    · rw [same]
    · rw [more, foldl_append, foldl_cons, foldl_nil]
      exact Trajectory.path_retryStep _ call
  · change ∀ other ∈ runSteps calls, other ∈ runSteps (calls ++ [call])
    intro other member
    rcases runSteps_concat isLast with same | more
    · rw [same]
      exact member
    · rw [more]
      exact mem_append_left _ member

theorem succeeded_iff {outcome : Option RunOutcome} :
    succeeded outcome calls = some true ↔ ∃ o ∈ outcome, o.success = true ∧ o.source ≠ .system := by
  cases outcome with
  | none =>
    rw [succeeded]
    split <;> simp
  | some o =>
    rw [succeeded]
    cases isSuccess : o.success with
    | false =>
      simp only [Feedback.RunOutcomes.outcomeTeaches]
      split
      · simp [isSuccess]
      · split <;> simp [isSuccess]
    | true =>
      simp only [Feedback.RunOutcomes.outcomeTeaches]
      by_cases isSystem : o.source = .system <;> simp [isSystem, isSuccess]

namespace Learning

variable {Notes : Type} (state : State Notes)

def State.callsIn (group : Group) : List ToolInvocation :=
  state.calls.filter fun call => groupOf call = some group

def State.runs (group : Group) : List Trajectory :=
  (byRun (state.callsIn group)).map fun (runId, calls) =>
    buildTrajectory runId calls (succeeded (outcomeOf state.outcomes runId) calls = some true)

def usersOf (runs : List Trajectory) : List (Option String) :=
  (runs.flatMap Trajectory.steps).map ToolInvocation.userId

variable (procedure : StoredProcedure Notes)

def State.followers :
    List (Option String) :=
  usersOf ((state.runs (keyOf procedure)).filter fun t => t.follows procedure.tools)

def State.producers :
    List (Option String) :=
  usersOf ((state.runs (keyOf procedure)).filter fun t => t.succeeded ∧ t.follows procedure.tools)

/-- Whoever is offered an agent's procedure without runs of its own, two users made it. -/
def SharedByTwo : Prop :=
  ∀ agentId, procedure.scopeKey = .agent agentId → ∀ scopeKeys userId,
    visible scopeKeys (some agentId) (some userId) procedure = true →
      some userId ∉ state.followers procedure →
        ∃ first ∈ state.producers procedure, ∃ second ∈ state.producers procedure, first ≠ second

theorem mem_byRun {runCalls : List ToolInvocation} :
    (runId, runCalls) ∈ byRun calls ↔
      (∃ call ∈ calls, given call.runId = some runId) ∧
        runCalls = calls.filter fun call => call.runId = some runId := by
  rw [byRun, mem_map]
  constructor
  · rintro ⟨runId', isRun, same⟩
    cases same
    exact ⟨mem_filterMap.mp (mem_eraseDups.mp isRun), rfl⟩
  · rintro ⟨isRun, rfl⟩
    exact ⟨runId, mem_eraseDups.mpr (mem_filterMap.mpr isRun), rfl⟩

theorem mem_runs {state : State Notes} {group : Group} {t : Trajectory} :
    t ∈ state.runs group ↔ ∃ runId,
      (∃ call ∈ state.callsIn group, given call.runId = some runId) ∧
        t = buildTrajectory runId
          ((state.callsIn group).filter fun call => call.runId = some runId)
          (succeeded (outcomeOf state.outcomes runId)
            ((state.callsIn group).filter fun call => call.runId = some runId) = some true) := by
  rw [State.runs, mem_map]
  constructor
  · rintro ⟨⟨runId, calls⟩, isRun, rfl⟩
    obtain ⟨hasCall, rfl⟩ := mem_byRun.mp isRun
    exact ⟨runId, hasCall, rfl⟩
  · rintro ⟨runId, hasCall, rfl⟩
    exact ⟨_, mem_byRun.mpr ⟨hasCall, rfl⟩, rfl⟩

theorem mem_usersOf {runs : List Trajectory} {user : Option String} :
    user ∈ usersOf runs ↔ ∃ t ∈ runs, ∃ call ∈ t.steps, call.userId = user := by
  rw [usersOf, mem_map]
  constructor
  · rintro ⟨call, member, rfl⟩
    obtain ⟨t, isRun, isStep⟩ := mem_flatMap.mp member
    exact ⟨t, isRun, call, isStep, rfl⟩
  · rintro ⟨t, isRun, call, isStep, rfl⟩
    exact ⟨call, mem_flatMap.mpr ⟨t, isRun, isStep⟩, rfl⟩

theorem sharedByTwo_of_continues {state next : State Notes} {procedure : StoredProcedure Notes}
    (continues : ∀ t ∈ state.runs (keyOf procedure), ∃ t' ∈ next.runs (keyOf procedure),
      t.Continues t' ∧
        (t.follows procedure.tools = true → t.succeeded = true → t'.succeeded = true))
    (shared : SharedByTwo state procedure) : SharedByTwo next procedure := by
  have producers : ∀ user ∈ state.producers procedure, user ∈ next.producers procedure := by
    intro user member
    obtain ⟨t, isRun, call, isStep, isUser⟩ := mem_usersOf.mp member
    obtain ⟨isRun, produces⟩ := mem_filter.mp isRun
    obtain ⟨wasSuccess, wasFollowing⟩ := of_decide_eq_true produces
    obtain ⟨t', isRun', goesOn, succeeds⟩ := continues t isRun
    refine mem_usersOf.mpr ⟨t', mem_filter.mpr ⟨isRun', decide_eq_true ?_⟩, call,
      goesOn.steps call isStep, isUser⟩
    exact ⟨succeeds wasFollowing wasSuccess, goesOn.follows wasFollowing⟩
  intro agentId isAgent scopeKeys userId isVisible noneFollows
  have noneFollowed : some userId ∉ state.followers procedure := by
    intro member
    obtain ⟨t, isRun, call, isStep, isUser⟩ := mem_usersOf.mp member
    obtain ⟨isRun, wasFollowing⟩ := mem_filter.mp isRun
    obtain ⟨t', isRun', goesOn, -⟩ := continues t isRun
    exact noneFollows (mem_usersOf.mpr
      ⟨t', mem_filter.mpr ⟨isRun', goesOn.follows wasFollowing⟩, call,
        goesOn.steps call isStep, isUser⟩)
  obtain ⟨first, isFirst, second, isSecond, different⟩ :=
    shared agentId isAgent scopeKeys userId isVisible noneFollowed
  exact ⟨first, producers first isFirst, second, producers second isSecond, different⟩

theorem runs_record {state : State Notes} {call : ToolInvocation} {unlearned : List String}
    (isLast : ∀ other ∈ state.calls, groupOf other = groupOf call →
      other.runId = call.runId → stepKey other ≤ stepKey call) (group : Group) :
    ∀ t ∈ state.runs group,
      ∃ t' ∈ State.runs { state with calls := state.calls ++ [call], unlearned } group,
        t.Continues t' ∧ (t.succeeded = true → t'.succeeded = true) := by
  intro t isRun
  obtain ⟨runId, ⟨first, isFirst, isGiven⟩, rfl⟩ := mem_runs.mp isRun
  have callsIn : State.callsIn { state with calls := state.calls ++ [call], unlearned } group =
      state.callsIn group ++ if groupOf call = some group then [call] else [] := by
    rw [State.callsIn, State.callsIn, filter_append]
    by_cases isIn : groupOf call = some group <;> simp [isIn]
  refine ⟨_, mem_runs.mpr ⟨runId, ⟨first, ?_, isGiven⟩, rfl⟩, ?_, ?_⟩
  · rw [callsIn]
    exact mem_append_left _ isFirst
  · rw [callsIn, filter_append]
    by_cases isIn : groupOf call = some group ∧ call.runId = some runId
    · rw [if_pos isIn.1, filter_cons_of_pos (by simpa using isIn.2), filter_nil]
      refine continues_concat fun other member => ?_
      obtain ⟨inGroup, inRun⟩ := mem_filter.mp member
      obtain ⟨isRecorded, sameGroup⟩ := mem_filter.mp inGroup
      exact isLast other isRecorded ((of_decide_eq_true sameGroup).trans isIn.1.symm)
        ((of_decide_eq_true inRun).trans isIn.2.symm)
    · have none_ : (if groupOf call = some group then [call] else []).filter
          (fun call => call.runId = some runId) = [] := by
        by_cases inGroup : groupOf call = some group
        · rw [if_pos inGroup, filter_cons_of_neg, filter_nil]
          rw [decide_eq_true_eq]
          exact fun inRun => isIn ⟨inGroup, inRun⟩
        · rw [if_neg inGroup]
          rfl
      rw [none_, append_nil]
      exact continues_labelled _ _ _ _
  · intro wasSuccess
    exact decide_eq_true (succeeded_iff.mpr (succeeded_iff.mp (of_decide_eq_true wasSuccess)))

theorem runs_outcome {state : State Notes} {outcome : RunOutcome} {unlearned : List String}
    (group : Group) : ∀ t ∈ state.runs group,
      ∃ t' ∈ State.runs { state with
          outcomes := setOutcome outcome state.outcomes, unlearned } group,
        t.Continues t' ∧ (t.succeeded = true →
          t.runId ≠ outcome.runId ∨ (outcome.success = true ∧ outcome.source ≠ .system) →
            t'.succeeded = true) := by
  intro t isRun
  obtain ⟨runId, hasCall, rfl⟩ := mem_runs.mp isRun
  refine ⟨_, mem_runs.mpr ⟨runId, hasCall, rfl⟩, continues_labelled _ _ _ _, ?_⟩
  intro wasSuccess labelled
  refine decide_eq_true (succeeded_iff.mpr ?_)
  dsimp only
  rw [outcomeOf_setOutcome]
  rcases labelled with isOther | isSuccess
  · have different : outcome.runId ≠ runId := Ne.symm isOther
    rw [if_neg different]
    exact succeeded_iff.mp (of_decide_eq_true wasSuccess)
  · split
    · exact ⟨outcome, rfl, isSuccess⟩
    · exact succeeded_iff.mp (of_decide_eq_true wasSuccess)

variable [DecidableEq Notes] (stableHash : Skill → Digest) (describe : Describe Notes)
  (tenantId : String)

def Reading.matching (reading : Reading Notes) (sequence : List String) : List Trajectory :=
  (successful (trajectoriesOf reading.outcomes reading.calls)).filter fun t => t.follows sequence

def CountsFollowers (state : State Notes) (reading : Reading Notes) (sequence : List String) :
    Prop :=
  (∀ t ∈ reading.matching sequence, ∃ t' ∈ state.runs reading.group,
    t'.succeeded = true ∧ t'.follows sequence = true ∧
      ∀ call ∈ t.steps, ∃ other ∈ t'.steps, other.userId = call.userId) ∧
  ((contributors reading.calls).2 = none →
    ∃ first ∈ usersOf (reading.matching sequence),
      ∃ second ∈ usersOf (reading.matching sequence), first ≠ second)
deriving Decidable

def isOffered (procedure : StoredProcedure Notes) : Bool :=
  procedure.status = .active && procedure.scopeKey.agentId.isSome

def SparesRuns (state : State Notes) (outcome : RunOutcome) : Prop :=
  (outcome.success = true ∧ outcome.source ≠ .system) ∨
    ∀ procedure ∈ state.procedures, isOffered procedure = true →
      ∀ t ∈ state.runs (keyOf procedure), t.runId = outcome.runId →
        t.follows procedure.tools = true → t.succeeded = false
deriving Decidable

def CountsUsers (state : State Notes) : Action → Prop
  | .record call =>
    ∀ other ∈ state.calls, groupOf other = groupOf call → other.runId = call.runId →
      stepKey other ≤ stepKey call
  | .outcome outcome => SparesRuns state outcome
  | .save place =>
    ∀ pass ∈ state.passes[place]?, ∀ saving ∈ pass.saving,
      saving.1.group.audience.agentId.isSome = true →
        ∀ mined ∈ mineProcedure describe saving.1.group.pattern
            (trajectoriesOf saving.1.outcomes saving.1.calls),
          admitted saving.1.now mined = true → CountsFollowers state saving.1 mined.tools
  | _ => True

instance (state : State Notes) : (action : Action) → Decidable (CountsUsers describe state action)
  | .record _ | .outcome _ | .save _ => by unfold CountsUsers; infer_instance
  | .begin _ | .mine .. | .finish _ | .fail _ => .isTrue trivial

variable {stableHash : Skill → Digest} {describe : Describe Notes} {tenantId : String}
  {state next : State Notes}

omit [DecidableEq Notes] in
theorem tools_mapIdx {asStep : ℕ → String → ProcedureStep Notes}
    (named : ∀ ordinal tool, (asStep ordinal tool).tool = tool) (sequence : List String) :
    (sequence.mapIdx asStep).map ProcedureStep.tool = sequence := by
  refine ext_getElem? fun ordinal => ?_
  rw [getElem?_map, getElem?_mapIdx, Option.map_map]
  exact (Option.map_congr fun tool _ => named ordinal tool).trans Option.map_id'

omit [DecidableEq Notes] in
theorem support_of_mined {pattern : String} {trajectories : List Trajectory}
    {mined : Procedure Notes}
    (isMined : mineProcedure describe pattern trajectories = some mined) :
    mined.support = ((successful trajectories).filter fun t => t.follows mined.tools).length := by
  rw [mineProcedure] at isMined
  split at isMined
  · cases isMined
  · dsimp only at isMined
    split at isMined
    · cases isMined
    · cases isMined
      rw [Procedure.tools]
      dsimp only
      rw [tools_mapIdx fun _ _ => rfl]

theorem soleUser {user : String} (sole : (contributors calls).2 = some user) :
    (contributors calls).1 = 1 ∧ ∀ call ∈ calls, call.userId = some user := by
  rw [contributors] at sole ⊢
  dsimp only at sole ⊢
  split at sole
  case h_1 found isUsers =>
    rw [isUsers]
    refine ⟨rfl, fun call member => ?_⟩
    have isUser : call.userId ∈ (calls.map ToolInvocation.userId).dedup :=
      mem_dedup.mpr (mem_map_of_mem member)
    rw [isUsers, mem_singleton] at isUser
    rw [isUser, sole]
  case h_2 => cases sole

omit [DecidableEq Notes] in
/-- Where two users are counted, and each user counted has a successful run of the steps among the
calls read, two users' runs are there. -/
theorem countsFollowers_of_producers {reading : Reading Notes} {sequence : List String}
    (whole : ∀ t ∈ reading.matching sequence, ∃ t' ∈ state.runs reading.group,
      t'.succeeded = true ∧ t'.follows sequence = true ∧
        ∀ call ∈ t.steps, ∃ other ∈ t'.steps, other.userId = call.userId)
    (two : (contributors reading.calls).2 = none → 2 ≤ (contributors reading.calls).1)
    (produce : ∀ call ∈ reading.calls, call.userId ∈ usersOf (reading.matching sequence)) :
    CountsFollowers state reading sequence := by
  refine ⟨whole, fun noSole => ?_⟩
  have isUser : ∀ user ∈ (reading.calls.map ToolInvocation.userId).dedup,
      user ∈ usersOf (reading.matching sequence) := by
    intro user member
    obtain ⟨call, isRead, rfl⟩ := mem_map.mp (mem_dedup.mp member)
    exact produce call isRead
  have distinct := nodup_dedup (reading.calls.map ToolInvocation.userId)
  have counted := two noSole
  rw [contributors] at counted
  cases users : (reading.calls.map ToolInvocation.userId).dedup with
  | nil => simp [users] at counted
  | cons first others =>
    cases others with
    | nil => simp [users] at counted
    | cons second others =>
      rw [users] at isUser distinct
      refine ⟨first, isUser first mem_cons_self, second,
        isUser second (mem_cons_of_mem _ mem_cons_self), ?_⟩
      rintro rfl
      exact (nodup_cons.mp distinct).1 mem_cons_self

theorem saved_shared {place : ℕ} {pass : Pass Notes}
    {saved : Reading Notes × StoredProcedure Notes} (isPass : state.passes[place]? = some pass)
    (isSaving : pass.saving = some saved) (counts : CountsUsers describe state (.save place))
    (sound : Sound stableHash describe tenantId state) : SharedByTwo state saved.2 := by
  have right := sound.passes pass (mem_of_getElem? isPass)
  have isKey := (right.saved isSaving).2.1
  intro agentId isAgent scopeKeys userId isVisible noneFollows
  rw [visible, isAgent, Bool.and_eq_true] at isVisible
  obtain ⟨isActive, reaches⟩ := isVisible
  obtain ⟨mined, isMined, isAdmitted, tools, -, users, -⟩ :=
    active_of_relearn stableHash describe tenantId (right.saving saved isSaving)
      (of_decide_eq_true isActive)
  have ofAgent : saved.1.group.audience.agentId.isSome = true := by
    have same : saved.1.group.audience = saved.2.scopeKey := by
      rw [← isKey]
      rfl
    rw [same, isAgent]
    rfl
  obtain ⟨whole, two⟩ := counts pass isPass saved isSaving ofAgent mined isMined isAdmitted
  -- a user of the runs that were mined is a user of the runs as they are
  have produces : ∀ user ∈ usersOf (saved.1.matching mined.tools),
      user ∈ state.producers saved.2 ∧ user ∈ state.followers saved.2 := by
    intro user member
    obtain ⟨t, isRun, call, isStep, isUser⟩ := mem_usersOf.mp member
    obtain ⟨t', isRun', isSuccess, follows, sameUsers⟩ := whole t isRun
    obtain ⟨other, isOther, sameUser⟩ := sameUsers call isStep
    rw [State.producers, State.followers, isKey, tools]
    exact ⟨mem_usersOf.mpr ⟨t', mem_filter.mpr ⟨isRun', decide_eq_true ⟨isSuccess, follows⟩⟩,
        other, isOther, sameUser.trans isUser⟩,
      mem_usersOf.mpr ⟨t', mem_filter.mpr ⟨isRun', follows⟩, other, isOther, sameUser.trans isUser⟩⟩
  have count : saved.2.users = (contributors saved.1.calls).1 := congrArg Prod.fst users
  have sole : saved.2.soleUser = (contributors saved.1.calls).2 := congrArg Prod.snd users
  cases isSole : (contributors saved.1.calls).2 with
  | none =>
    obtain ⟨first, isFirst, second, isSecond, different⟩ := two isSole
    exact ⟨first, (produces first isFirst).1, second, (produces second isSecond).1, different⟩
  | some user =>
    -- it is offered to the sole user, one of whose runs follows it
    obtain ⟨isOne, ranFor⟩ := soleUser isSole
    have isUser : user = userId := by
      rw [sole, count, isSole, isOne] at reaches
      simpa using reaches
    rw [admitted, Bool.and_eq_true, Bool.and_eq_true, support_of_mined isMined] at isAdmitted
    have supported : 0 < (saved.1.matching mined.tools).length :=
      Nat.lt_of_lt_of_le Nat.two_pos (of_decide_eq_true isAdmitted.1.1)
    obtain ⟨t, isRun⟩ := exists_mem_of_length_pos supported
    obtain ⟨isSuccessful, -⟩ := mem_filter.mp isRun
    obtain ⟨isIn, -, hasSteps⟩ := mem_filter.mp isSuccessful |>.imp id of_decide_eq_true
    obtain ⟨call, isStep⟩ := exists_mem_of_ne_nil _ hasSteps
    have isRead : call ∈ saved.1.calls := by
      obtain ⟨⟨runId, calls⟩, isOf, built⟩ := mem_filterMap.mp isIn
      obtain ⟨success, -, rfl⟩ := Option.map_eq_some_iff.mp built
      obtain ⟨-, rfl⟩ := mem_byRun.mp isOf
      exact (mem_filter.mp (mem_runSteps isStep)).1
    refine absurd (produces (some user) ?_).2 (isUser ▸ noneFollows)
    exact mem_usersOf.mpr ⟨t, isRun, call, isStep, ranFor call isRead⟩

omit [DecidableEq Notes] in
theorem label_shared {outcome : RunOutcome} {unlearned : List String}
    {procedure : StoredProcedure Notes} (spares : SparesRuns state outcome)
    (member : procedure ∈ state.procedures) (shared : SharedByTwo state procedure) :
    SharedByTwo { state with
      outcomes := setOutcome outcome state.outcomes, unlearned } procedure := by
  by_cases offered : isOffered procedure = true
  · refine sharedByTwo_of_continues (fun t isRun => ?_) shared
    obtain ⟨t', isRun', goesOn, succeeds⟩ := runs_outcome (keyOf procedure) t isRun
    refine ⟨t', isRun', goesOn, fun follows wasSuccess => succeeds wasSuccess ?_⟩
    rcases spares with isSuccess | spared
    · exact .inr isSuccess
    · refine .inl fun sameRun => ?_
      rw [spared procedure member offered t isRun sameRun follows] at wasSuccess
      cases wasSuccess
  · intro agentId isAgent scopeKeys userId isVisible
    rw [visible, Bool.and_eq_true] at isVisible
    refine absurd ?_ offered
    rw [isOffered, isAgent, isVisible.1]
    rfl

theorem step_shared {action : Action}
    (stepped : step stableHash describe tenantId state action = some next)
    (counts : CountsUsers describe state action)
    (invariant : Sound stableHash describe tenantId state ∧
      ∀ procedure ∈ state.procedures, SharedByTwo state procedure) :
    Sound stableHash describe tenantId next ∧
      ∀ procedure ∈ next.procedures, SharedByTwo next procedure := by
  obtain ⟨sound, shared⟩ := invariant
  refine ⟨sound_step stepped sound, ?_⟩
  cases action with
  | record call =>
    obtain ⟨-, rfl⟩ := step_cases stepped
    intro procedure member
    refine sharedByTwo_of_continues (fun t isRun => ?_) (shared procedure member)
    obtain ⟨t', isRun', goesOn, succeeds⟩ := runs_record counts (keyOf procedure) t isRun
    exact ⟨t', isRun', goesOn, fun _ => succeeds⟩
  | outcome outcome =>
    cases stepped
    exact fun procedure member => label_shared counts member (shared procedure member)
  | begin limit =>
    obtain ⟨todo, rfl⟩ := step_cases stepped
    exact shared
  | mine place group now =>
    obtain ⟨pass, -, -, rfl⟩ := step_cases stepped
    exact shared
  | save place =>
    obtain ⟨pass, reading, saved, isPass, isSaving, rfl⟩ := step_cases stepped
    intro procedure member
    rcases mem_insertOrUpdate keyOf member with rfl | before
    · have isShared : SharedByTwo state procedure := saved_shared isPass isSaving counts sound
      exact isShared
    · exact shared procedure before
  | finish place =>
    obtain ⟨pass, -, rfl⟩ := step_cases stepped
    exact shared
  | fail place =>
    cases step_cases stepped
    exact shared

/-- In a run that counts the users of the mined runs, no agent's procedure is offered to a user
without a run of it unless two users have successful ones. -/
theorem shared_by_two (stableHash : Skill → Digest) (describe : Describe Notes)
    (tenantId : String) (actions : List Action) (state : State Notes)
    (reached : run (step stableHash describe tenantId) {} actions = some state)
    (counts : Meets (step stableHash describe tenantId) (CountsUsers describe) {} actions) :
    ∀ procedure ∈ state.procedures, SharedByTwo state procedure := by
  have start : Sound stableHash describe tenantId ({} : State Notes) ∧
      ∀ procedure ∈ State.procedures ({} : State Notes), SharedByTwo {} procedure :=
    ⟨sound_start, fun procedure member => by cases member⟩
  exact (run_invariant_of_meets step_shared reached counts start).2

def callFor (userId invocationId runId toolName : String) : ToolInvocation :=
  { searchCall with
    invocationId
    runId := some runId
    toolName
    userId := some userId
    visibilityKeys := ["principal:acme/agent:" ++ userId ++ "/planner"] }

def learnThree (second third : ToolInvocation) : List Action :=
  [.record (callFor "ana" "call_1" "r_1" "search"), .record second, .record third,
    .outcome (approved "r_1"), .outcome (approved "r_2"), .begin 500,
    .mine 0 plannerSearch ⟨40⟩, .save 0]

def onceCancelled : List Action :=
  learnThree (callFor "ana" "call_2" "r_2" "search") (callFor "bob" "call_3" "r_3" "cancel")

def offeredToMona (state : State ℕ) : List (Bool × Bool × List (Option String)) :=
  state.procedures.map fun p =>
    (p.scopeKey = .agent "planner" && visible [] (some "planner") (some "mona") p,
      some "mona" ∈ state.followers p, state.producers p)

theorem once_cancelled_is_shared :
    ¬∀ (stableHash : Skill → Digest) (describe : Describe ℕ) (tenantId : String)
      (actions : List Action) (state : State ℕ),
      run (step stableHash describe tenantId) {} actions = some state →
        ∀ procedure ∈ state.procedures, SharedByTwo state procedure := by
  intro always
  have ends : (run (step sameHash samples "acme") {} onceCancelled).map offeredToMona =
      some [(true, false, [some "ana", some "ana"])] := by
    decide +kernel
  obtain ⟨state, reached, offered⟩ := Option.map_eq_some_iff.mp ends
  obtain ⟨p, isStored, isOffered⟩ : ∃ p ∈ state.procedures,
      (p.scopeKey = .agent "planner" && visible [] (some "planner") (some "mona") p,
        (decide (some "mona" ∈ state.followers p), state.producers p)) =
          (true, false, [some "ana", some "ana"]) := by
    rw [← mem_map]
    rw [offeredToMona] at offered
    rw [offered]
    exact mem_singleton_self _
  rw [Prod.mk.injEq, Prod.mk.injEq, Bool.and_eq_true] at isOffered
  obtain ⟨⟨isPlanner, isVisible⟩, noneFollows, producers⟩ := isOffered
  obtain ⟨first, isFirst, second, isSecond, different⟩ :=
    always sameHash samples "acme" onceCancelled state reached p isStored "planner"
      (of_decide_eq_true isPlanner) [] "mona" isVisible (of_decide_eq_false noneFollows)
  rw [producers] at isFirst isSecond
  simp only [mem_cons, not_mem_nil, or_false, or_self] at isFirst isSecond
  exact different (isFirst.trans isSecond.symm)

def bothSearched : List Action :=
  learnThree (callFor "bob" "call_2" "r_2" "search") (callFor "bob" "call_3" "r_3" "cancel")

theorem both_searched_is_shared :
    ∃ state, run (step sameHash samples "acme") {} bothSearched = some state ∧
      offeredToMona state = [(true, false, [some "ana", some "bob"])] ∧
        ∀ procedure ∈ state.procedures, SharedByTwo state procedure :=
  exists_run_showing (by decide +kernel) fun state reached =>
    shared_by_two sameHash samples "acme" bothSearched state reached (by decide +kernel)

end Learning

end MemoryService.Tools
