import MemoryService.Foundation.Binary64
import MemoryService.Foundation.Json
import MemoryService.Feedback.RunOutcomes
import Mathlib.Data.Rat.Lemmas

/-!
# Recorded tool calls

One call of a tool, as an agent's run reported it.  A call is kept under a digest of its run,
its step, its tool and its arguments.
-/

namespace MemoryService.Tools

open Domain Foundation

inductive ToolStatus where
  | ok
  | error
  | timeout
  | rejected
  | cancelled
  deriving DecidableEq

structure ToolInvocation where
  invocationId : String
  tenantId : String
  toolId : String
  toolName : String
  toolVersion : Nat := 1
  runId : Option String := none
  workspaceId : Option String := none
  userId : Option String := none
  agentId : Option String := none
  step : Nat := 0
  argsRedacted : Json := .obj []
  argsHash : Digest
  outputSummary : String := ""
  outputFields : List (String × Json) := []
  status : ToolStatus := .ok
  errorClass : Option String := none
  task : String := ""
  taskPattern : Option String := none
  visibilityKeys : List String := []
  occurredAt : Instant

namespace ToolInvocation

/-- What the call is known by: its key is the digest of this. -/
def identity (call : ToolInvocation) : Json :=
  .obj
    [("run", .str (call.runId.getD "")), ("step", .num (.ofNat call.step)),
      ("tool", .str call.toolId), ("args", .str call.argsHash.text)]

def idempotencyKey (stableHash : Json → Digest) (call : ToolInvocation) : Digest :=
  stableHash call.identity

def succeeded (call : ToolInvocation) : Bool := call.status = .ok

end ToolInvocation

/-!
## Mining procedures

A run's calls in step order are its trajectory.  The procedure of a task pattern is the longest
path that enough of the successful runs begin with; the runs that follow it are its support.

What a step carries beside its tool is read off the trajectories by `describe`, which may be any
function.
-/

abbrev RunOutcome := Feedback.RunOutcomes.RunOutcome

def codeModeTools : List String :=
  ["list_tool_files", "read_tool_file", "get_tool_docs", "execute_tool_code"]

structure Trajectory where
  runId : String
  task : String
  taskPattern : Option String
  steps : List ToolInvocation := []
  succeeded : Bool := false

def stepKey (call : ToolInvocation) : ℕ ×ₗ Instant := toLex (call.step, call.occurredAt)

def runSteps (invocations : List ToolInvocation) : List ToolInvocation :=
  (invocations.filter fun call => call.toolName ∉ codeModeTools).insertionSort
    fun first second => stepKey first ≤ stepKey second

def given (text : Option String) : Option String := text.filter (· ≠ "")

def buildTrajectory (runId : String) (invocations : List ToolInvocation) (succeeded : Bool) :
    Trajectory :=
  let steps := runSteps invocations
  { runId
    task := (steps.findSome? fun call => given (some call.task)).getD ""
    taskPattern := steps.findSome? fun call => given call.taskPattern
    steps
    succeeded }

def retryStep (out : List ToolInvocation) (call : ToolInvocation) : List ToolInvocation :=
  match out.getLast? with
  | none => [call]
  | some last =>
    if last.toolName = call.toolName then
      if call.succeeded || !last.succeeded then out.dropLast ++ [call] else out
    else out ++ [call]

variable (trajectory : Trajectory)

/-- `_steps`. -/
def Trajectory.distinctSteps : List ToolInvocation := trajectory.steps.foldl retryStep []

def Trajectory.path : List String := trajectory.distinctSteps.map ToolInvocation.toolName

/-- `_follows`. -/
def Trajectory.follows (sequence : List String) : Bool :=
  trajectory.path.take sequence.length = sequence

def pathPrefixes (path : List String) : List (List String) :=
  (List.range path.length).map fun length => path.take (length + 1)

/-- Every path of the tree with the number of runs on it, in the order in which they are met. -/
def pathCounts (paths : List (List String)) : List (List String × ℕ) :=
  (paths.flatMap pathPrefixes).eraseDups.map fun path =>
    (path, paths.countP fun other => path ∈ pathPrefixes other)

/-- The first of the greatest, as `max` with a key gives it. -/
def firstGreatest {α : Type} (less : α → α → Bool) : List α → Option α
  | [] => none
  | first :: rest =>
    some (rest.foldl (fun best next => if less best next then next else best) first)

/-- `[-ord(c) for c in path[0]]`. -/
def firstTool (path : List String) : List ℤ :=
  (path.headD "").toList.map fun character => -(character.toNat : ℤ)

/-- Fewer runs follow the first path, or as many and it is shorter. -/
def lessSupported (first second : List String × ℕ) : Bool :=
  first.2 < second.2 ∨ (first.2 = second.2 ∧ first.1.length < second.1.length)

/-- The first path is shorter, or as long with fewer runs, or comes later in the alphabet. -/
def lessLong (first second : List String × ℕ) : Bool :=
  first.1.length < second.1.length ∨
    (first.1.length = second.1.length ∧
      (first.2 < second.2 ∨ (first.2 = second.2 ∧ firstTool first.1 < firstTool second.1)))

/-- `_best_sequence`. -/
def bestSequence (trajectories : List Trajectory) : List String :=
  let counts := pathCounts (trajectories.map Trajectory.path)
  -- at least half of the runs, and at least two
  let required := max 2 ((trajectories.length + 1) / 2)
  let qualifying := counts.filter fun (_, n) => required ≤ n
  let candidates :=
    if qualifying = [] then
      ((firstGreatest lessSupported counts).map fun (path, _) => (path, 0)).toList
    else qualifying
  ((firstGreatest lessLong candidates).map Prod.fst).getD []

/-- A leaf of a call's arguments. -/
inductive Scalar where
  | text (text : String)
  | number (number : JsonNumber)
  deriving DecidableEq

structure Binding where
  argument : String
  sourceStep : Option ℕ := none
  sourceField : Option String := none
  literal : Option Scalar := none
  deriving DecidableEq

structure ProcedureStep (Notes : Type) where
  ordinal : ℕ
  tool : String
  bindings : List Binding := []
  /-- the expected output and the step's statistics -/
  notes : Notes
  deriving DecidableEq

structure Procedure (Notes : Type) where
  taskPattern : String
  steps : List (ProcedureStep Notes) := []
  support : ℕ := 0
  successRate : ℚ := 0
  lastUsedAt : Option Instant := none

variable {Notes : Type}

def Procedure.tools (mined : Procedure Notes) : List String := mined.steps.map ProcedureStep.tool

/-- What the runs say of the step of a sequence at a place. -/
abbrev Describe (Notes : Type) : Type := List Trajectory → List String → ℕ → List Binding × Notes

def latest (instants : List Instant) : Option Instant :=
  instants.foldl (fun found instant => some (found.elim instant (max instant))) none

def successful (trajectories : List Trajectory) : List Trajectory :=
  trajectories.filter fun t => t.succeeded ∧ t.steps ≠ []

def mineProcedure (describe : Describe Notes) (pattern : String)
    (trajectories : List Trajectory) : Option (Procedure Notes) :=
  if successful trajectories = [] then none
  else
    let best := bestSequence (successful trajectories)
    if best = [] then none
    else
      let matching := (successful trajectories).filter fun t => t.follows best
      let total := trajectories.filter fun t => t.follows best
      some
        { taskPattern := pattern
          steps := best.mapIdx fun ordinal tool =>
            { ordinal, tool, bindings := (describe trajectories best ordinal).1
              notes := (describe trajectories best ordinal).2 }
          support := matching.length
          successRate :=
            if total = [] then 0 else Binary64.round (matching.length / total.length)
          lastUsedAt := latest (total.flatMap fun t => t.steps.map ToolInvocation.occurredAt) }

def decayed {Notes : Type} (now : Instant) (mined : Procedure Notes) : Bool :=
  mined.successRate < 1 / 2 ||
    mined.lastUsedAt.any fun last => last.micros + 60 * 86400 * 1000000 < now.micros

end MemoryService.Tools
