import MemoryService.Foundation.OnConflict
import MemoryService.Tools.Procedures

/-!
# Recording tool calls

A request to record a call finds its tool in the catalog and its place in the run, and then
inserts the call, or is answered with the row that its key finds.
-/

namespace MemoryService.Tools.Recording

open Domain Foundation List

structure ToolRow where
  toolId : String
  /-- empty for the whole tenant -/
  workspaceId : String
  name : String
  version : Nat := 1
  deriving DecidableEq

structure Request where
  call : ℕ
  ctx : MemoryExecutionContext
  tool : String
  args : Json
  argsRedacted : Json := .obj []
  outputSummary : String := ""
  outputFields : List (String × Json) := []
  status : ToolStatus := .ok
  errorClass : Option String := none
  task : String := ""
  taskPattern : Option String := none
  step : Option Nat := none
  visibilityKeys : List String := []
  occurredAt : Instant := ⟨0⟩

structure Begun where
  request : Request
  descriptor : ToolRow
  step : Nat

structure Answer where
  begun : Begun
  stored : ToolInvocation
  created : Bool

structure State where
  catalog : List ToolRow := []
  calls : List ToolInvocation := []
  begun : List Begun := []
  answers : List Answer := []

inductive Action where
  | putCatalog (entry : ToolRow)
  | begin (request : Request) (toolId : String)
  | finish (unit : ℕ) (invocationId : String)

def entryIn (workspaceId name : String) (catalog : List ToolRow) : Option ToolRow :=
  catalog.find? fun row => row.workspaceId = workspaceId ∧ row.name = name

/-- `by_name`: the workspace's own entry before the tenant's. -/
def byName (workspaceId : Option String) (name : String) (catalog : List ToolRow) :
    Option ToolRow :=
  (workspaceId.bind fun workspaceId => entryIn workspaceId name catalog).or
    (entryIn "" name catalog)

/-- `upsert`: an entry that is there keeps its id. -/
def putCatalog (entry : ToolRow) (catalog : List ToolRow) : List ToolRow :=
  match entryIn entry.workspaceId entry.name catalog with
  | some known =>
    catalog.map fun row => if row = known then { row with version := entry.version } else row
  | none => catalog ++ [entry]

/-- `by_name(…) or ensure(…)`, with the catalog afterwards. -/
def descriptorOf (workspaceId : Option String) (name toolId : String)
    (catalog : List ToolRow) : ToolRow × List ToolRow :=
  match byName workspaceId name catalog with
  | some row => (row, catalog)
  | none =>
    let row : ToolRow := { toolId, workspaceId := "", name }
    (row, catalog ++ [row])

/-- `_next_step`: after the last of the run's, and the first where there is no run. -/
def nextStep (ctx : MemoryExecutionContext) (calls : List ToolInvocation) : Nat :=
  match ctx.agentRunId with
  | none => 0
  | some run =>
    (calls.filter fun c => c.runId = some run.text).foldl (fun n c => max n (c.step + 1)) 0

section

variable (stableHash : Json → Digest)

def invocation (tenantId : String) (begun : Begun) (invocationId : String) :
    ToolInvocation :=
  let request := begun.request
  let ctx := request.ctx
  { invocationId
    tenantId
    toolId := begun.descriptor.toolId
    toolName := begun.descriptor.name
    toolVersion := begun.descriptor.version
    runId := ctx.agentRunId.map Id.text
    workspaceId := ctx.workspaceId.map Id.text
    userId := ctx.userId.map Id.text
    agentId := ctx.agentId.map Id.text
    step := begun.step
    argsRedacted := request.argsRedacted
    argsHash := stableHash request.args
    outputSummary := request.outputSummary
    outputFields := request.outputFields
    status := request.status
    errorClass := request.errorClass
    task := request.task
    taskPattern := request.taskPattern
    visibilityKeys := request.visibilityKeys
    occurredAt := request.occurredAt }

/-- `ToolService.record`, in its two statements on the calls: the step is read, and then the
call is inserted. -/
def step (tenantId : String) (state : State) : Action → Option State
  | .putCatalog entry => some { state with catalog := putCatalog entry state.catalog }
  | .begin request toolId =>
    let found := descriptorOf (request.ctx.workspaceId.map Id.text) request.tool toolId
      state.catalog
    let step := request.step.getD (nextStep request.ctx state.calls)
    some
      { state with
        catalog := found.2
        begun := state.begun ++ [⟨request, found.1, step⟩] }
  | .finish unit invocationId =>
    if invocationId ∈ state.calls.map ToolInvocation.invocationId then none
    else
      state.begun[unit]?.map fun begun =>
        let (calls, stored, created) :=
          insertOrRead (ToolInvocation.idempotencyKey stableHash)
            (invocation stableHash tenantId begun invocationId) state.calls
        { state with
          calls
          begun := state.begun.eraseIdx unit
          answers := state.answers ++ [⟨begun, stored, created⟩] }

variable (first second : Answer)

def Answer.SameRow : Prop := first.stored.invocationId = second.stored.invocationId

/-- The two record one call of their caller. -/
def Answer.SameCall : Prop := first.begun.request.call = second.begun.request.call

def Answer.SamePrincipal : Prop :=
  first.begun.request.ctx.userId = second.begun.request.ctx.userId ∧
    first.begun.request.ctx.agentId = second.begun.request.ctx.agentId

/-- In the same run, or both in none. -/
def Answer.SameRun : Prop :=
  first.begun.request.ctx.agentRunId = second.begun.request.ctx.agentRunId

def Answer.Agree : Prop :=
  first.SameRun second ∧ first.begun.step = second.begun.step ∧
    first.begun.descriptor.toolId = second.begun.descriptor.toolId ∧
    stableHash first.begun.request.args = stableHash second.begun.request.args

/-- What a request's call is known by. -/
def Answer.identity (answer : Answer) : Json := (invocation stableHash "" answer.begun "").identity

/-- Two requests are treated as one call only if they come from the same user, agent and run;
a retry is absorbed, and two calls are both stored. -/
def Answer.Right : Prop :=
  (first.SameRow second → first.SamePrincipal second ∧ first.SameRun second) ∧
    (first.SameRow second ↔ first.SameCall second)

/-- A request agrees with another in run, step, tool and arguments exactly when it is a retry of
it, and then its caller is the same. -/
def Answer.Distinguished : Prop :=
  (first.Agree stableHash second → first.SamePrincipal second) ∧
    (first.Agree stableHash second ↔ first.SameCall second)

theorem ofNat_injective {first second : ℕ}
    (same : JsonNumber.ofNat first = JsonNumber.ofNat second) : first = second := by
  have words : Nat.toDigits 10 first = Nat.toDigits 10 second := congrArg JsonNumber.word same
  rw [← Nat.ofDigitChars_ten_toDigits (n := first), words, Nat.ofDigitChars_ten_toDigits]

private theorem digest_text_injective {first second : Digest}
    (same : first.text = second.text) : first = second := by
  cases first
  cases second
  cases same
  rfl

theorem identity_eq_iff :
    first.identity stableHash = second.identity stableHash ↔ first.Agree stableHash second := by
  constructor
  · intro same
    simp only [Answer.identity, ToolInvocation.identity, invocation, Json.obj.injEq,
      List.cons.injEq, Prod.mk.injEq, Json.str.injEq, Json.num.injEq, true_and, and_true] at same
    exact ⟨Id.orEmpty_injective same.1, ofNat_injective same.2.1, same.2.2.1,
      digest_text_injective same.2.2.2⟩
  · rintro ⟨sameRun, sameStep, sameTool, sameArgs⟩
    rw [Answer.SameRun] at sameRun
    simp only [Answer.identity, ToolInvocation.identity, invocation, sameRun, sameStep, sameTool,
      sameArgs]

structure State.Keyed (state : State) : Prop where
  ids : (state.calls.map ToolInvocation.invocationId).Nodup
  keys : (state.calls.map (ToolInvocation.idempotencyKey stableHash)).Nodup
  stored : ∀ answer ∈ state.answers, answer.stored ∈ state.calls
  answered : ∀ answer ∈ state.answers,
    answer.stored.idempotencyKey stableHash = stableHash (answer.identity stableHash)

variable {stableHash} {tenantId : String} {state next : State} {action : Action}

theorem keyed_finish {unit : ℕ} {invocationId : String}
    (stepped : step stableHash tenantId state (.finish unit invocationId) = some next)
    (keyed : state.Keyed stableHash) : next.Keyed stableHash := by
  simp only [step] at stepped
  obtain ⟨isNew, stepped⟩ := Option.ite_none_left_eq_some.mp stepped
  obtain ⟨begun, -, rfl⟩ := Option.map_eq_some_iff.mp stepped
  generalize done : insertOrRead (ToolInvocation.idempotencyKey stableHash)
    (invocation stableHash tenantId begun invocationId) state.calls = answered
  obtain ⟨calls, stored, created⟩ := answered
  have isAnswer := insertOrRead_answers done
  constructor
  · rcases insertOrRead_cases done with ⟨-, -, rfl, -⟩ | ⟨-, -, rfl, -⟩
    · exact keyed.ids
    · exact nodup_map_insert isNew keyed.ids
  · exact insertOrRead_nodup done keyed.keys
  · intro answer member
    rcases mem_concat.mp member with before | rfl
    · exact insertOrRead_keeps done (keyed.stored answer before)
    · exact isAnswer.1
  · intro answer member
    rcases mem_concat.mp member with before | rfl
    · exact keyed.answered answer before
    · exact isAnswer.2

theorem keyed_step (stepped : step stableHash tenantId state action = some next)
    (keyed : state.Keyed stableHash) : next.Keyed stableHash := by
  cases action with
  | putCatalog entry =>
    cases stepped
    exact ⟨keyed.ids, keyed.keys, keyed.stored, keyed.answered⟩
  | begin request toolId =>
    cases stepped
    exact ⟨keyed.ids, keyed.keys, keyed.stored, keyed.answered⟩
  | finish unit invocationId => exact keyed_finish stepped keyed

theorem keyed_of_run {actions : List Action}
    (reached : run (step stableHash tenantId) {} actions = some state) :
    state.Keyed stableHash := by
  refine run_invariant keyed_step reached ⟨nodup_nil, nodup_nil, ?_, ?_⟩
  · intro answer member
    cases member
  · intro answer member
    cases member

theorem sameRow_iff {first second : Answer} (keyed : state.Keyed stableHash)
    (isFirst : first ∈ state.answers) (isSecond : second ∈ state.answers)
    (apart : stableHash (first.identity stableHash) = stableHash (second.identity stableHash) →
      first.identity stableHash = second.identity stableHash) :
    first.SameRow second ↔ first.Agree stableHash second := by
  rw [← identity_eq_iff]
  constructor
  · intro sameRow
    have same := inj_on_of_nodup_map keyed.ids (keyed.stored first isFirst)
      (keyed.stored second isSecond) sameRow
    apply apart
    rw [← keyed.answered first isFirst, ← keyed.answered second isSecond, same]
  · intro sameIdentity
    have same := inj_on_of_nodup_map keyed.keys (keyed.stored first isFirst)
      (keyed.stored second isSecond) (by
        rw [keyed.answered first isFirst, keyed.answered second isSecond, sameIdentity])
    rw [Answer.SameRow, same]

/-- In every run, two requests are answered as they should be exactly when they can be told
apart by what the key knows. -/
theorem recorded_right_iff (stableHash : Json → Digest) (tenantId : String)
    (actions : List Action) (state : State)
    (reached : run (step stableHash tenantId) {} actions = some state)
    (first second : Answer) (isFirst : first ∈ state.answers)
    (isSecond : second ∈ state.answers)
    (apart : stableHash (first.identity stableHash) = stableHash (second.identity stableHash) →
      first.identity stableHash = second.identity stableHash) :
    first.Right second ↔ first.Distinguished stableHash second := by
  have sameRow := sameRow_iff (keyed_of_run reached) isFirst isSecond apart
  rw [Answer.Right, Answer.Distinguished, sameRow]
  constructor
  · exact fun right => ⟨fun agree => (right.1 agree).1, right.2⟩
  · exact fun told => ⟨fun agree => ⟨told.1 agree, agree.1⟩, told.2⟩

end

section

private def hashed (_ : Json) : Digest := ⟨"4a", by decide⟩

private def lookUp (call : ℕ) (user : Id) (run : Option Id) (step : Option Nat) : Request where
  call
  step
  ctx :=
    { tenantId := ⟨"vela", by decide⟩
      userId := some user
      agentId := some ⟨"broker", by decide⟩
      agentRunId := run }
  tool := "lookup_price"
  args := .obj [("sku", .str "SKU-22")]

private def ana : Id := ⟨"ana", by decide⟩

private def ada : Id := ⟨"ada", by decide⟩

private def retried : List Action :=
  [.begin (lookUp 0 ana (some ⟨"r10", by decide⟩) (some 0)) "tool_1", .finish 0 "inv_1",
    .begin (lookUp 0 ana (some ⟨"r10", by decide⟩) (some 0)) "tool_2", .finish 0 "inv_2"]

theorem retry_at_its_step_is_absorbed :
    ∃ state first second, run (step hashed "vela") {} retried = some state ∧
      state.answers = [first, second] ∧ first.Right second := by
  obtain ⟨state, first, second, reached, answered, agree, samePrincipal, sameCall⟩ :
      ∃ state first second, run (step hashed "vela") {} retried = some state ∧
        state.answers = [first, second] ∧ first.Agree hashed second ∧
        first.SamePrincipal second ∧ first.SameCall second :=
    ⟨_, _, _, rfl, rfl, ⟨rfl, rfl, rfl, rfl⟩, ⟨rfl, rfl⟩, rfl⟩
  refine ⟨state, first, second, reached, answered, ?_⟩
  refine (recorded_right_iff hashed "vela" retried state reached first second
    (by rw [answered]; exact List.mem_cons_self)
    (by rw [answered]; exact List.mem_cons_of_mem _ List.mem_cons_self)
    fun _ => (identity_eq_iff hashed first second).mpr agree).mpr ?_
  exact ⟨fun _ => samePrincipal, ⟨fun _ => sameCall, fun _ => agree⟩⟩

private def outsideRuns : List Action :=
  [.begin (lookUp 0 ana none none) "tool_1", .finish 0 "inv_1",
    .begin (lookUp 1 ada none none) "tool_2", .finish 0 "inv_2"]

/-- The second is answered with the first's row, and its call is stored nowhere. -/
theorem call_without_run_is_anothers :
    ∃ state first second, run (step hashed "vela") {} outsideRuns = some state ∧
      state.answers = [first, second] ∧ ¬first.SamePrincipal second ∧
      second.stored.userId = some "ana" ∧ state.calls.length = 1 ∧ ¬first.Right second := by
  refine ⟨_, _, _, rfl, rfl, ?_, rfl, rfl, ?_⟩
  · rintro ⟨sameUser, -⟩
    exact absurd sameUser (by decide)
  · intro right
    have sameCall : 0 = 1 := right.2.mp rfl
    exact absurd sameCall (by decide)

end

end MemoryService.Tools.Recording
