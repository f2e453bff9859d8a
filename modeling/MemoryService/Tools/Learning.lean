import MemoryService.Tools.Procedures
import MemoryService.Foundation.OnConflict

/-!
# Learning from recorded calls

A call is learned under its audience and its task pattern.  A pass mines the newest calls of such
a group and stores one procedure for it.
-/

namespace MemoryService.Tools

open Domain Foundation Feedback Option

/-- Whether a run succeeded; `none` where there is no evidence either way. -/
def succeeded (outcome : Option RunOutcome) (calls : List ToolInvocation) : Option Bool :=
  let clean := calls.all ToolInvocation.succeeded
  match outcome with
  | none => if calls = [] ∨ clean = false then some false else none
  | some outcome =>
    if RunOutcomes.outcomeTeaches outcome.source outcome.success = false then none
    -- a time limit or a stall is the run's failure, not its procedure's
    else if outcome.source = .system ∧ outcome.success = false ∧ calls ≠ [] ∧ clean then none
    else some outcome.success

/-- `outcomes`, of one run. -/
def outcomeOf (outcomes : List RunOutcome) (runId : String) : Option RunOutcome :=
  outcomes.find? fun outcome => outcome.runId = runId

def byRun (calls : List ToolInvocation) : List (String × List ToolInvocation) :=
  ((calls.filterMap fun call => given call.runId).eraseDups).map fun runId =>
    (runId, calls.filter fun call => call.runId = some runId)

/-- `_trajectories`. -/
def trajectoriesOf (outcomes : List RunOutcome) (calls : List ToolInvocation) :
    List Trajectory :=
  (byRun calls).filterMap fun (runId, runCalls) =>
    (succeeded (outcomeOf outcomes runId) runCalls).map fun success =>
      buildTrajectory runId runCalls success

inductive Audience where
  | agent (agentId : String)
  | key (visibilityKey : String)
  deriving DecidableEq

def Audience.agentId : Audience → Option String
  | .agent agentId => some agentId
  | .key _ => none

variable (call : ToolInvocation)

/-- `_agent_private_key`, of an agent's call. -/
def agentPrivateKey (agentId : String) : String :=
  let principal :=
    match given call.userId with
    | some userId => "agent:" ++ userId ++ "/" ++ agentId
    | none => "agent:" ++ agentId
  "principal:" ++ call.tenantId ++ "/" ++ principal

def audienceOf : Option Audience :=
  call.visibilityKeys.head?.map fun key =>
    match given call.agentId with
    | some agentId =>
      if key = agentPrivateKey call agentId then .agent agentId else .key key
    | none => .key key

/-- What one procedure is mined from. -/
structure Group where
  audience : Audience
  pattern : String
  deriving DecidableEq

def groupOf : Option Group :=
  (given call.taskPattern).bind fun pattern =>
    (audienceOf call).map fun audience => { audience, pattern }

def patternCallsMax : ℕ := 480

def newestCalls (selects : ToolInvocation → Bool) (calls : List ToolInvocation) :
    List ToolInvocation :=
  (newestFirst ToolInvocation.occurredAt (calls.filter selects)).take patternCallsMax

/-- The calls a group is mined from. -/
def Group.window (group : Group) (calls : List ToolInvocation) : List ToolInvocation :=
  match group.audience with
  | .key key =>
    newestCalls
      (fun call => call.taskPattern = some group.pattern ∧ call.visibilityKeys.head? = some key)
      calls
  | .agent agentId =>
    (newestCalls
      (fun call => call.taskPattern = some group.pattern ∧ call.agentId = some agentId)
      calls).filter fun call => audienceOf call = some group.audience

def contributors (calls : List ToolInvocation) : ℕ × Option String :=
  let users := (calls.map ToolInvocation.userId).dedup
  (users.length, match users with | [user] => user | _ => none)

inductive ProcedureStatus where
  | candidate
  | active
  | retired
  | rejected
  deriving DecidableEq

variable {Notes : Type}

def Procedure.bindings (mined : Procedure Notes) : List (ℕ × Binding) :=
  mined.steps.flatMap fun step => step.bindings.map fun binding => (step.ordinal, binding)

/-- What the fingerprint of the steps is taken of: the tools and the bindings. -/
abbrev Skill : Type := List String × List (ℕ × Binding)

def Procedure.skill (mined : Procedure Notes) : Skill := (mined.tools, mined.bindings)

structure StoredProcedure (Notes : Type) where
  tenantId : String
  scopeKey : Audience
  pattern : String
  steps : List (ProcedureStep Notes) := []
  bindings : List (ℕ × Binding) := []
  successRate : ℚ := 0
  support : ℕ := 0
  status : ProcedureStatus := .candidate
  stepsHash : Option Digest := none
  workspaceId : Option String := none
  agentId : Option String := none
  users : ℕ := 0
  soleUser : Option String := none
  deriving DecidableEq

def StoredProcedure.tools (procedure : StoredProcedure Notes) : List String :=
  procedure.steps.map ProcedureStep.tool

def procedureMinSupport : ℕ := 2

def procedureMinSuccessRate : ℚ := Binary64.round (3 / 5)

def admitted (now : Instant) (mined : Procedure Notes) : Bool :=
  procedureMinSupport ≤ mined.support && procedureMinSuccessRate ≤ mined.successRate &&
    !decayed now mined

/-- `_status`. -/
def statusOf (now : Instant) (mined : Procedure Notes) (stepsHash : Digest)
    (existing : Option (StoredProcedure Notes)) : ProcedureStatus :=
  if existing.any fun e => e.status = .rejected ∧ e.stepsHash = some stepsHash then .rejected
  else if admitted now mined then .active
  else if existing.any fun e => e.status ≠ .candidate then .retired
  else .candidate

/-- `round(rate, 4)`: to four decimals, a half to the even one, as a double. -/
def round4 (rate : ℚ) : ℚ :=
  let scaled := rate * 10000
  let whole := scaled.floor
  let rest := scaled - whole
  let nearest :=
    if rest < 1 / 2 then whole
    else if 1 / 2 < rest then whole + 1
    else if whole % 2 = 0 then whole else whole + 1
  Binary64.round (nearest / 10000)

variable (stableHash : Skill → Digest)

/-- What a re-mine leaves of the procedure; `none` where there is nothing to store. -/
def merge (now : Instant) (tenantId : String) (group : Group) (owner : ToolInvocation)
    (users : ℕ × Option String) (existing : Option (StoredProcedure Notes)) :
    Option (Procedure Notes) → Option (StoredProcedure Notes)
  | none =>
    existing.bind fun e =>
      if e.status = .retired ∨ e.status = .rejected then none
      else some { e with status := .retired }
  | some mined =>
    let base :=
      existing.getD
        { tenantId, scopeKey := group.audience, pattern := mined.taskPattern
          agentId := group.audience.agentId }
    some
      { base with
        steps := mined.steps.map fun step => { step with bindings := [] }
        bindings := mined.bindings
        successRate := round4 mined.successRate
        support := mined.support
        status := statusOf now mined (stableHash mined.skill) existing
        stepsHash := some (stableHash mined.skill)
        workspaceId := owner.workspaceId
        users := users.1
        soleUser := users.2 }

def visible (scopeKeys : List String) (agentId userId : Option String)
    (procedure : StoredProcedure Notes) : Bool :=
  procedure.status = .active &&
    match procedure.scopeKey with
    | .key key => key ∈ scopeKeys
    | .agent owner =>
      agentId = some owner &&
        (2 ≤ procedure.users || procedure.soleUser = none || procedure.soleUser = userId)

variable {stored : StoredProcedure Notes}

section

variable {stableHash} {now : Instant} {tenantId : String} {group : Group}
  {owner : ToolInvocation} {users : ℕ × Option String}
  {existing : Option (StoredProcedure Notes)}

theorem statusOf_again (existing : Option (StoredProcedure Notes)) {mined : Procedure Notes}
    {stepsHash : Digest} (isHash : stored.stepsHash = some stepsHash)
    (isStatus : stored.status = statusOf now mined stepsHash existing) :
    statusOf now mined stepsHash (some stored) = stored.status := by
  rw [statusOf] at isStatus ⊢
  by_cases isRejected :
      existing.any (fun e => e.status = .rejected ∧ e.stepsHash = some stepsHash) = true
  · rw [if_pos isRejected] at isStatus
    simp [isStatus, isHash]
  · rw [if_neg isRejected] at isStatus
    by_cases isAdmitted : admitted now mined = true
    · rw [if_pos isAdmitted] at isStatus
      simp [isStatus, isAdmitted]
    · rw [if_neg isAdmitted] at isStatus
      split at isStatus <;> simp [isStatus, isAdmitted]

theorem merge_again {mined : Option (Procedure Notes)}
    (merged : merge stableHash now tenantId group owner users existing mined = some stored) :
    merge stableHash now tenantId group owner users (some stored) mined = none ∨
      merge stableHash now tenantId group owner users (some stored) mined = some stored := by
  cases mined with
  | none =>
    obtain ⟨e, isExisting, retired⟩ := bind_eq_some_iff.mp merged
    split at retired
    · cases retired
    · cases retired
      exact .inl rfl
  | some mined =>
    cases merged
    refine .inr (congrArg some ?_)
    simp only [getD_some]
    rw [statusOf_again existing rfl rfl]

end

variable [DecidableEq Notes]

/-- `_mine`, from the calls and the outcomes that it read: what it saves. -/
def relearn (describe : Describe Notes) (now : Instant) (tenantId : String) (group : Group)
    (calls : List ToolInvocation) (outcomes : List RunOutcome)
    (existing : Option (StoredProcedure Notes)) : Option (StoredProcedure Notes) :=
  ((calls.find? ToolInvocation.succeeded).or calls.head?).bind fun owner =>
    let mined := mineProcedure describe group.pattern (trajectoriesOf outcomes calls)
    let merged := merge stableHash now tenantId group owner (contributors calls) existing mined
    -- a procedure that is as it was is not saved
    if merged = existing then none else merged

/-- The stored procedure after a pass that read `existing`. -/
def relearned (describe : Describe Notes) (now : Instant) (tenantId : String) (group : Group)
    (calls : List ToolInvocation) (outcomes : List RunOutcome)
    (existing : Option (StoredProcedure Notes)) : Option (StoredProcedure Notes) :=
  (relearn stableHash describe now tenantId group calls outcomes existing).or existing

variable {stableHash}

theorem relearned_again (describe : Describe Notes) (now : Instant) (tenantId : String)
    (group : Group) (calls : List ToolInvocation) (outcomes : List RunOutcome)
    (existing : Option (StoredProcedure Notes)) :
    relearned stableHash describe now tenantId group calls outcomes
        (relearned stableHash describe now tenantId group calls outcomes existing) =
      relearned stableHash describe now tenantId group calls outcomes existing := by
  cases saved : relearn stableHash describe now tenantId group calls outcomes existing with
  | none =>
    have same : relearned stableHash describe now tenantId group calls outcomes existing =
        existing := by
      rw [relearned, saved]
      rfl
    rw [same, same]
  | some stored =>
    have isStored : relearned stableHash describe now tenantId group calls outcomes existing =
        some stored := by
      rw [relearned, saved]
      rfl
    rw [isStored, relearned]
    obtain ⟨owner, isOwner, merged⟩ := bind_eq_some_iff.mp saved
    dsimp only at merged
    obtain ⟨-, merged⟩ := ite_none_left_eq_some.mp merged
    have again := merge_again merged
    rw [relearn, isOwner, bind_some]
    dsimp only
    rcases again with isNone | isSame
    · rw [isNone]
      split <;> rfl
    · rw [isSame, if_pos rfl]
      rfl

end MemoryService.Tools

/-!
## Passes that learn

A pass reads the calls of a tenant that are not learned yet, mines and stores each of their groups
in a transaction of its own, and at the end marks the calls it read.  Calls are recorded and runs
are labelled meanwhile, and nothing keeps two passes apart.
-/

namespace MemoryService.Tools.Learning

open Domain Foundation

variable {Notes : Type}

structure Reading (Notes : Type) where
  group : Group
  now : Instant
  calls : List ToolInvocation
  outcomes : List RunOutcome
  existing : Option (StoredProcedure Notes)
  row : Option (StoredProcedure Notes)

structure Pass (Notes : Type) where
  calls : List ToolInvocation
  todo : List Group
  saving : Option (Reading Notes × StoredProcedure Notes) := none
  read : List (Reading Notes) := []

structure State (Notes : Type) where
  calls : List ToolInvocation := []
  unlearned : List String := []
  outcomes : List RunOutcome := []
  procedures : List (StoredProcedure Notes) := []
  passes : List (Pass Notes) := []

def keyOf (procedure : StoredProcedure Notes) : Group where
  audience := procedure.scopeKey
  pattern := procedure.pattern

def byPattern (group : Group) (procedures : List (StoredProcedure Notes)) :
    Option (StoredProcedure Notes) :=
  procedures.find? fun procedure => keyOf procedure = group

def save (procedure : StoredProcedure Notes) (procedures : List (StoredProcedure Notes)) :
    List (StoredProcedure Notes) :=
  insertOrUpdate keyOf procedure procedures

def learnBatch : ℕ := 500

/-- `unlearned`: the oldest calls that are not learned; other tenants' may fill the batch. -/
def State.unlearnedCalls (state : State Notes) (limit : ℕ) : List ToolInvocation :=
  ((state.calls.filter fun call => call.invocationId ∈ state.unlearned).insertionSort
    fun first second => first.occurredAt ≤ second.occurredAt).take (min limit learnBatch)

def setOutcome (outcome : RunOutcome) (outcomes : List RunOutcome) : List RunOutcome :=
  insertOrUpdate Feedback.RunOutcomes.RunOutcome.runId outcome outcomes

def callsOf (runId : String) (calls : List ToolInvocation) : List String :=
  (calls.filter fun call => call.runId = some runId).map ToolInvocation.invocationId

inductive Action where
  | record (call : ToolInvocation)
  | outcome (outcome : RunOutcome)
  | begin (limit : ℕ)
  | mine (place : ℕ) (group : Group) (now : Instant)
  | save (place : ℕ)
  | finish (place : ℕ)
  | fail (place : ℕ)

variable [DecidableEq Notes] (stableHash : Skill → Digest) (describe : Describe Notes)
  (tenantId : String)

/-- `_mine` up to what it saves.  Its three reads (calls, outcomes, the stored procedure) are one
step here: they follow one another in one transaction. -/
def State.mine (state : State Notes) (group : Group) (now : Instant) :
    Option (StoredProcedure Notes) × Reading Notes :=
  let calls := group.window state.calls
  let existing := byPattern group state.procedures
  let saves := relearn stableHash describe now tenantId group calls state.outcomes existing
  (saves, { group, now, calls, outcomes := state.outcomes, existing, row := saves.or existing })

def Pass.mined (pass : Pass Notes) (group : Group) :
    Option (StoredProcedure Notes) × Reading Notes → Pass Notes
  | (some procedure, reading) =>
    { pass with todo := pass.todo.erase group, saving := some (reading, procedure) }
  | (none, reading) => { pass with todo := pass.todo.erase group, read := pass.read ++ [reading] }

def step (state : State Notes) : Action → Option (State Notes)
  | .record call =>
    if call.invocationId ∈ state.calls.map ToolInvocation.invocationId then none
    else
      some
        { state with
          calls := state.calls ++ [call]
          unlearned := state.unlearned ++ [call.invocationId] }
  | .outcome outcome =>
    some
      { state with
        outcomes := setOutcome outcome state.outcomes
        unlearned := state.unlearned ++ callsOf outcome.runId state.calls }
  | .begin limit =>
    let calls := state.unlearnedCalls limit
    if calls = [] then none
    else
      some
        { state with
          passes := state.passes ++ [{ calls, todo := (calls.filterMap groupOf).eraseDups }] }
  | .mine place group now =>
    state.passes[place]?.bind fun pass =>
      if pass.saving.isNone ∧ group ∈ pass.todo then
        let mined := state.mine stableHash describe tenantId group now
        some { state with passes := state.passes.set place (pass.mined group mined) }
      else none
  | .save place =>
    state.passes[place]?.bind fun pass =>
      pass.saving.map fun (reading, procedure) =>
        { state with
          procedures := save procedure state.procedures
          passes :=
            state.passes.set place
              { pass with saving := none, read := pass.read ++ [reading] } }
  | .finish place =>
    state.passes[place]?.bind fun pass =>
      if pass.saving.isNone ∧ pass.todo = [] then
        some
          { state with
            unlearned :=
              state.unlearned.filter
                (· ∉ pass.calls.map ToolInvocation.invocationId)
            passes := state.passes.eraseIdx place }
      else none
  | .fail place =>
    state.passes[place]?.map fun _ => { state with passes := state.passes.eraseIdx place }

variable {stableHash describe tenantId}

/-- What an action finds, and what it leaves. -/
theorem step_cases {state next : State Notes} {action : Action}
    (stepped : step stableHash describe tenantId state action = some next) :
    match action with
    | .record call =>
      call.invocationId ∉ state.calls.map ToolInvocation.invocationId ∧
        next = { state with
          calls := state.calls ++ [call]
          unlearned := state.unlearned ++ [call.invocationId] }
    | .outcome outcome =>
      next = { state with
        outcomes := setOutcome outcome state.outcomes
        unlearned := state.unlearned ++ callsOf outcome.runId state.calls }
    | .begin limit => ∃ todo, next = { state with
        passes := state.passes ++ [{ calls := state.unlearnedCalls limit, todo }] }
    | .mine place group now => ∃ pass, state.passes[place]? = some pass ∧ pass.saving = none ∧
        next = { state with
          passes := state.passes.set place
            (pass.mined group (state.mine stableHash describe tenantId group now)) }
    | .save place => ∃ pass reading procedure, state.passes[place]? = some pass ∧
        pass.saving = some (reading, procedure) ∧
        next = { state with
          procedures := save procedure state.procedures
          passes := state.passes.set place
            { pass with saving := none, read := pass.read ++ [reading] } }
    | .finish place => ∃ pass, state.passes[place]? = some pass ∧
        next = { state with
          unlearned := state.unlearned.filter (· ∉ pass.calls.map ToolInvocation.invocationId)
          passes := state.passes.eraseIdx place }
    | .fail place => next = { state with passes := state.passes.eraseIdx place } := by
  cases action with
  | record call =>
    rw [step] at stepped
    split at stepped
    case isTrue => cases stepped
    case isFalse isNew => exact ⟨isNew, (Option.some.inj stepped).symm⟩
  | outcome outcome => exact (Option.some.inj stepped).symm
  | begin limit =>
    simp only [step] at stepped
    split at stepped
    case isTrue => cases stepped
    case isFalse => exact ⟨_, (Option.some.inj stepped).symm⟩
  | mine place group now =>
    obtain ⟨pass, isPass, stepped⟩ := Option.bind_eq_some_iff.mp stepped
    split at stepped
    case isFalse => cases stepped
    case isTrue idle =>
      exact ⟨pass, isPass, Option.isNone_iff_eq_none.mp idle.1, (Option.some.inj stepped).symm⟩
  | save place =>
    obtain ⟨pass, isPass, stepped⟩ := Option.bind_eq_some_iff.mp stepped
    obtain ⟨saved, isSaving, rfl⟩ := Option.map_eq_some_iff.mp stepped
    exact ⟨pass, saved.1, saved.2, isPass, isSaving, rfl⟩
  | finish place =>
    obtain ⟨pass, isPass, stepped⟩ := Option.bind_eq_some_iff.mp stepped
    split at stepped
    case isFalse => cases stepped
    case isTrue => exact ⟨pass, isPass, (Option.some.inj stepped).symm⟩
  | fail place =>
    obtain ⟨_, -, rfl⟩ := Option.map_eq_some_iff.mp stepped
    rfl

end MemoryService.Tools.Learning
