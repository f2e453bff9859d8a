import MemoryService.Feedback.VoteLog
import MemoryService.Foundation.Backing
import MemoryService.Foundation.Json

/-!
# Decisions on tool calls

A reviewer's decision on an interrupt of a run is counted on the tool and on the approval pattern
of its agent, tool and argument shape.
-/

namespace MemoryService.Feedback.Approvals

open Domain Foundation List

abbrev FeedbackVerdict := VoteLog.FeedbackVerdict

def approvalDecisionsRead : Nat := 500

/-- The page that `list_for` reads when none is asked for. -/
def listLimit : Nat := 100

def callRecordChecks : Nat := 10

/-- What a decision adds to. -/
inductive Counter where
  | approvals
  | rejections
  | edits
  deriving DecidableEq

def approvalCounter : FeedbackVerdict → Counter
  | .approve => .approvals
  | .confirm => .approvals
  | .reject => .rejections
  | .edit => .edits
  | .correct => .edits

inductive Reason where
  | noTool
  | noDecision
  | countedAlready
  | notRecorded
  | spent
  | dismissed
  deriving DecidableEq

def Reason.text : Reason → String
  | .noTool => "the verdict names no tool (metadata.tool)"
  | .noDecision => "a decision counts only on an interrupt of a run, with its reviewer"
  | .countedAlready => "a decision on this interrupt was counted already"
  | .notRecorded => "the run recorded no call of that tool with those arguments"
  | .spent => "each call of that tool with those arguments the run recorded backs a " ++
      "counted approval already"
  | .dismissed => "dismissed in review"

inductive Projection where
  | none_ (reason : Reason)
  | toolCallCounted
  deriving DecidableEq

structure Metadata where
  tool : Option String := none
  args : Json := .null
  interruptId : Option String := none

structure Decision where
  feedbackId : String
  tenantId : String
  targetId : String
  agentId : Option String := none
  agentRunId : Option String := none
  verdict : FeedbackVerdict
  correction : Json := .null
  reviewer : Option String := none
  metadata : Metadata := {}
  createdAt : Instant
  /-- a judge's verdict waits for its review -/
  pending : Bool := false
  projection : Option Projection := none
  /-- an empty name is no name -/
  agentNamed : agentId ≠ some "" := by simp

namespace Decision

variable (d : Decision)

def key : Instant ×ₗ String := toLex (d.createdAt, d.feedbackId)

def id : String × String := (d.tenantId, d.feedbackId)

def approves : Bool := approvalCounter d.verdict = .approvals

def counted : Bool := d.projection = some .toolCallCounted

def interrupt : String × Option String × Option String × Option String :=
  (d.tenantId, d.agentId, d.agentRunId, d.metadata.interruptId)

end Decision

/-- A recorded call. -/
structure Invocation where
  tenantId : String
  toolId : String
  toolName : String
  runId : Option String := none
  agentId : Option String := none
  step : Nat := 0
  argsHash : String

/-- What a call is recorded once under. -/
def Invocation.idempotencyKey (c : Invocation) : String × String × Nat × String × String :=
  (c.tenantId, c.runId.getD "", c.step, c.toolId, c.argsHash)

/-- A call as decisions name it: tenant, agent, run, tool and arguments. -/
abbrev CallKey := String × Option String × Option String × Option String × String

def Invocation.call (c : Invocation) : CallKey :=
  (c.tenantId, c.agentId, c.runId, some c.toolName, c.argsHash)

/-- What is read out of arguments and names. -/
structure Forms where
  stableHash : Json → String
  argShape : Option (List (String × Json)) → String
  strip : String → String

def given (name : Option String) : Bool := name.any (· ≠ "")

def members : Json → Option (List (String × Json))
  | .obj found => some found
  | _ => none

structure Count where
  tenantId : String
  agentId : String
  tool : String
  argShape : String
  counter : Counter

section

variable (forms : Forms)

def Decision.call (d : Decision) : CallKey :=
  (d.tenantId, d.agentId, d.agentRunId, d.metadata.tool, forms.stableHash d.metadata.args)

def Decision.count (d : Decision) : Count where
  tenantId := d.tenantId
  agentId := d.agentId.getD ""
  tool := forms.strip (d.metadata.tool.getD "")
  argShape := forms.argShape ((members d.metadata.args).or (members d.correction))
  counter := approvalCounter d.verdict

variable (rows : List Decision)

def listFor (tenantId targetId : String) : List Decision :=
  (newestFirst Decision.key
    (rows.filter fun d => d.tenantId = tenantId && d.targetId = targetId)).take listLimit

def countedDecisions (tenantId agentId tool : String) (limit : Nat) :
    List Decision :=
  (newestFirst Decision.key (rows.filter fun d =>
    d.tenantId = tenantId && d.agentId.getD "" = agentId && d.metadata.tool = some tool &&
      d.counted)).take limit

variable (calls : List Invocation)

def invocationsForRun (tenantId runId : String) :
    List Invocation :=
  calls.filter fun c => c.tenantId = tenantId && c.runId = some runId

variable (record : Decision)

def recorded : Nat :=
  (invocationsForRun calls record.tenantId (record.agentRunId.getD "")).countP fun c =>
    c.agentId = record.agentId && some c.toolName = record.metadata.tool &&
      c.argsHash = forms.stableHash record.metadata.args

def backed : Bool :=
  given record.agentRunId && (members record.metadata.args).isSome &&
    0 < recorded forms calls record

def spent : Bool :=
  let decisions := countedDecisions rows record.tenantId (record.agentId.getD "")
    (record.metadata.tool.getD "None") approvalDecisionsRead
  recorded forms calls record ≤ decisions.countP fun d =>
    d.agentRunId = some (record.agentRunId.getD "") && d.approves &&
      forms.stableHash d.metadata.args = forms.stableHash record.metadata.args

def countedBefore : Bool :=
  (listFor rows record.tenantId record.targetId).any fun other =>
    other.feedbackId ≠ record.feedbackId && other.agentId = record.agentId &&
      other.agentRunId = record.agentRunId &&
      other.metadata.interruptId = record.metadata.interruptId && other.counted

def refused : Option Reason :=
  if forms.strip (record.metadata.tool.getD "") = "" then some .noTool
  else if !(given record.agentRunId && given record.metadata.interruptId &&
      given record.reviewer) then some .noDecision
  else if countedBefore rows record then some .countedAlready
  else none

def projectToolCall :
    Projection :=
  match refused forms rows record with
  | some reason => .none_ reason
  | none =>
    if record.approves && !backed forms calls record then .none_ .notRecorded
    else if record.approves && spent forms rows calls record then .none_ .spent
    else .toolCallCounted

end

structure Job where
  id : String × String
  looked : Bool := false
  deriving DecidableEq

structure State where
  rows : List Decision := []
  calls : List Invocation := []
  /-- the jobs whose transactions are open; each holds its decision's lock -/
  jobs : List Job := []
  counts : List Count := []

namespace State

variable (state : State) (id : String × String)

def get : Option Decision := state.rows.find? fun d => d.id = id

def leave : State := { state with jobs := state.jobs.filter fun job => job.id ≠ id }

def setProjection (projection : Projection) : State :=
  { state with
    rows := updateWhere (fun d => d.id = id) (fun d => { d with projection := some projection })
      state.rows }

def settle (projection : Projection) : State := (state.setProjection id projection).leave id

end State

inductive Action where
  | submit (record : Decision)
  | record (c : Invocation)
  | review (id : String × String) (approve : Bool)
  /-- the job is delivered: what is read of the decision, and of its interrupt -/
  | start (id : String × String) (attempt : Nat)
  /-- the run's calls are read -/
  | look (id : String × String)
  /-- the run is locked, the counted decisions are read, and the transaction commits -/
  | finish (id : String × String)
  | fail (id : String × String)

variable (forms : Forms) (state : State) (id : String × String)

def start (attempt : Nat) : Option State :=
  if state.jobs.any fun job => job.id = id then none
  else
    match state.get id with
    | none => some state
    | some record =>
      if record.projection.isSome || record.pending then some state
      else if attempt < callRecordChecks && record.approves &&
          !backed forms state.calls record then
        -- the job is scheduled again, for the next attempt
        some state
      else
        match refused forms state.rows record with
        | some reason => some (state.settle id (.none_ reason))
        | none => some { state with jobs := ⟨id, false⟩ :: state.jobs }

def look : Option State :=
  if ⟨id, false⟩ ∈ state.jobs then
    (state.get id).map fun record =>
      if record.approves && !backed forms state.calls record then
        state.settle id (.none_ .notRecorded)
      else { state.leave id with jobs := ⟨id, true⟩ :: (state.leave id).jobs }
  else none

def finish : Option State :=
  if ⟨id, true⟩ ∈ state.jobs then
    (state.get id).map fun record =>
      if record.approves && spent forms state.rows state.calls record then
        state.settle id (.none_ .spent)
      else
        { state.settle id .toolCallCounted with counts := record.count forms :: state.counts }
  else none

def submit (record : Decision) : State :=
  if (state.get record.id).isSome then state
  else { state with rows := state.rows ++ [{ record with projection := none }] }

def record (c : Invocation) : State :=
  if state.calls.any fun other => other.idempotencyKey = c.idempotencyKey then state
  else { state with calls := state.calls ++ [c] }

def review (approve : Bool) : Option State :=
  match state.get id with
  | none => none
  | some found =>
    if found.pending then
      some { state with
        rows := updateWhere (fun d => d.id = id) (fun d =>
          { d with
            pending := false
            projection := if approve then d.projection else some (.none_ .dismissed) })
          state.rows }
    else none

def step : Action → Option State
  | .submit found => some (submit state found)
  | .record c => some (record state c)
  | .review id approve => review state id approve
  | .start id attempt => start forms state id attempt
  | .look id => look forms state id
  | .finish id => finish forms state id
  | .fail id => some (state.leave id)

def project (attempt : Nat) : Option State := do
  let opened ← start forms state id attempt
  if ⟨id, false⟩ ∈ opened.jobs then
    let looked ← look forms opened id
    if ⟨id, true⟩ ∈ looked.jobs then finish forms looked id else some looked
  else some opened

theorem get_settle (projection : Projection) :
    (state.settle id projection).get id =
      (state.get id).map fun d => { d with projection := some projection } :=
  find?_updateWhere_key fun _ => rfl

theorem not_mem_jobs_leave (looked : Bool) :
    ⟨id, looked⟩ ∉ (state.leave id).jobs :=
  fun member => absurd rfl (of_decide_eq_true (mem_filter.mp member).2)

variable {forms}

theorem project_alone {state : State} {found : Decision}
    (isRow : state.get found.id = some found) (unprojected : found.projection = none)
    (decided : found.pending = false) (idle : ∀ job ∈ state.jobs, job.id ≠ found.id)
    {attempt : Nat} (isLast : callRecordChecks ≤ attempt) :
    ∃ next, project forms state found.id attempt = some next ∧
      next.get found.id =
        some { found with
          projection := some (projectToolCall forms state.rows state.calls found) } := by
  have notOpen : (state.jobs.any fun job => job.id = found.id) = false :=
    any_eq_false.mpr fun job member => by simpa using idle job member
  have written : ∀ (other : State) projection, other.get found.id = some found →
      (other.settle found.id projection).get found.id =
        some { found with projection := some projection } := fun other projection otherRow => by
    rw [get_settle, otherRow, Option.map_some]
  have started : start forms state found.id attempt =
      match refused forms state.rows found with
      | some reason => some (state.settle found.id (.none_ reason))
      | none => some { state with jobs := ⟨found.id, false⟩ :: state.jobs } := by
    have notAgain : decide (attempt < callRecordChecks) = false :=
      decide_eq_false (Nat.not_lt.mpr isLast)
    rw [start, notOpen, isRow]
    simp only [unprojected, decided, notAgain, Option.isSome_none, Bool.or_self,
      Bool.false_and, Bool.false_eq_true, if_false]
  rw [project, started, projectToolCall]
  cases refused forms state.rows found with
  | some reason =>
    refine ⟨_, ?_, written state (.none_ reason) isRow⟩
    exact if_neg (not_mem_jobs_leave _ found.id false)
  | none =>
    let opened : State := { state with jobs := ⟨found.id, false⟩ :: state.jobs }
    have isOpen : (⟨found.id, false⟩ : Job) ∈ opened.jobs := mem_cons_self
    have openedRow : opened.get found.id = some found := isRow
    cases unbacked : found.approves && !backed forms state.calls found with
    | true =>
      have looked : look forms opened found.id =
          some (opened.settle found.id (.none_ .notRecorded)) := by
        rw [look, if_pos isOpen, openedRow]
        exact congrArg some (if_pos unbacked)
      refine ⟨_, ?_, written opened (.none_ .notRecorded) openedRow⟩
      refine (if_pos isOpen).trans ?_
      rw [looked]
      exact if_neg (not_mem_jobs_leave _ found.id true)
    | false =>
      let ready : State :=
        { opened.leave found.id with
          jobs := ⟨found.id, true⟩ :: (opened.leave found.id).jobs }
      have isReady : (⟨found.id, true⟩ : Job) ∈ ready.jobs := mem_cons_self
      have readyRow : ready.get found.id = some found := isRow
      have looked : look forms opened found.id = some ready := by
        rw [look, if_pos isOpen, openedRow]
        exact congrArg some (if_neg (by rw [unbacked]; decide))
      let ended : State :=
        if found.approves && spent forms state.rows state.calls found then
          ready.settle found.id (.none_ .spent)
        else
          { ready.settle found.id .toolCallCounted with
            counts := found.count forms :: state.counts }
      have finished : finish forms ready found.id = some ended := by
        rw [finish, if_pos isReady, readyRow]
        rfl
      refine ⟨ended, (if_pos isOpen).trans ?_, ?_⟩
      · rw [looked]
        exact (if_pos isReady).trans finished
      · dsimp only [ended]
        cases found.approves && spent forms state.rows state.calls found with
        | true => exact written ready (.none_ .spent) readyRow
        | false => exact written ready .toolCallCounted readyRow

end MemoryService.Feedback.Approvals
