import MemoryService.Foundation.FirstSeen
import MemoryService.Foundation.Least
import MemoryService.Rag.Indexer
import MemoryService.Tools.Procedures

/-!
# Links between the steps of runs

A run's edges are mined from its calls: a value of an earlier output that comes again in the
arguments of a later call, and the call that came before.
-/

namespace MemoryService.Tools

open Domain Foundation

def maxDepth : ℕ := 6

def maxFields : ℕ := 200

def maxItems : ℕ := 20

def minValueLen : ℕ := 3

/-- What mining reads that is not of its own: texts of numbers, case folding, the values that a
task names, and two fields of a call. -/
structure Readings where
  /-- `f"{value:.10g}"` -/
  general : JsonNumber → List Char
  casefold : List Char → List Char
  taskSlots : String → List (String × String)
  latencyMs : ToolInvocation → Option ℚ
  cost : ToolInvocation → Option ℚ

def leaf : Json → Option Scalar
  | .str text => some (.text text)
  | .num number => some (.number number)
  | _ => none

/-- `out.update(more)`. -/
def update {α : Type} (out more : Dict String α) : Dict String α :=
  more.items.foldl (fun out entry => out.set entry.1 entry.2) out

/-- The scalars of a value by their paths, as far as `left` levels down. -/
def flatten : ℕ → String → Json → Dict String Scalar
  | 0, _, _ => ∅
  | left + 1, path, .obj members =>
    members.foldl (fun out (key, sub) =>
      if maxFields ≤ out.items.length then out
      else update out (flatten left (if path = "" then key else path ++ "." ++ key) sub)) ∅
  | left + 1, path, .arr items =>
    (items.take maxItems).zipIdx.foldl (fun out (sub, i) =>
      update out (flatten left (path ++ "[" ++ toString i ++ "]") sub)) ∅
  | _ + 1, path, value => (leaf value).elim ∅ (Dict.set ∅ path)

def arguments (call : ToolInvocation) : Dict String Scalar :=
  flatten (maxDepth + 1) "" call.argsRedacted

def Scalar.json : Scalar → Json
  | .text value => .str value
  | .number value => .num value

section Values

variable (readings : Readings)

/-- A text that is too short tells nothing. -/
def discriminating (text : List Char) : Option (List Char) :=
  if minValueLen ≤ text.length then some text else none

def normalise : Json → Option (List Char)
  | .num number => discriminating (readings.general number)
  | .bool value => discriminating (if value then ['1'] else ['0'])
  | .str text => discriminating (readings.casefold (Rag.strip text.toList))
  | _ => none

/-- `_same`. -/
def same (left right : Json) : Bool :=
  (normalise readings left).isSome ∧ normalise readings left = normalise readings right

end Values

inductive EdgeKind where
  | feeds
  | followedBy
  deriving DecidableEq

structure Signature where
  sourceTool : String
  targetTool : String
  kind : EdgeKind
  sourceField : Option String := none
  targetField : Option String := none
  deriving DecidableEq

structure ChainEdge extends Signature where
  sourceInvocationId : String
  targetInvocationId : String

def edgeBetween (source target : ToolInvocation) (kind : EdgeKind)
    (sourceField targetField : Option String) : ChainEdge where
  sourceTool := source.toolName
  targetTool := target.toolName
  kind
  sourceField
  targetField
  sourceInvocationId := source.invocationId
  targetInvocationId := target.invocationId

section Edges

variable (readings : Readings)

def feeds (earlier : List ToolInvocation) (target : ToolInvocation) : List ChainEdge :=
  (earlier.filter ToolInvocation.succeeded).flatMap fun source =>
    source.outputFields.flatMap fun (srcPath, srcValue) =>
      ((arguments target).items.filter fun (_, tgtValue) =>
        same readings srcValue tgtValue.json).map fun (tgtPath, _) =>
          edgeBetween source target .feeds (some srcPath) (some tgtPath)

def followedBy (earlier : List ToolInvocation) (target : ToolInvocation) : List ChainEdge :=
  earlier.getLast?.toList.map fun previous => edgeBetween previous target .followedBy none none

def edgesAfter (earlier : List ToolInvocation) : List ToolInvocation → List ChainEdge
  | [] => []
  | target :: later =>
    feeds readings earlier target ++ followedBy earlier target ++
      edgesAfter (earlier ++ [target]) later

def mineEdges (trajectory : Trajectory) : List ChainEdge :=
  firstSeen ChainEdge.toSignature (edgesAfter readings [] trajectory.steps)

end Edges

structure EdgeSupport where
  signature : Signature
  support : ℕ := 0
  successes : ℕ := 0
  failures : ℕ := 0
  latencies : List ℚ := []
  costs : List ℚ := []
  failureModes : Dict String String := ∅

def median (values : List ℚ) : Option ℚ :=
  let sorted := values.mergeSort fun first second => first ≤ second
  let mid := sorted.length / 2
  if sorted.length % 2 = 1 then sorted[mid]?
  else
    match sorted[mid - 1]?, sorted[mid]? with
    | some below, some above => some (Binary64.round (Binary64.round (below + above) / 2))
    | _, _ => none

def EdgeSupport.successRate (entry : EdgeSupport) : ℚ :=
  if entry.support = 0 then 0 else Binary64.round (entry.successes / entry.support)

variable (trajectory : Trajectory)

/-- `_correction`: what the run did next and got away with. -/
def correction (failed : ToolInvocation) : String :=
  match trajectory.steps.find? fun s => failed.step < s.step ∧ s.succeeded with
  | none => ""
  | some fix =>
    if fix.toolName = failed.toolName then
      "retry " ++ fix.toolName ++ " with adjusted arguments"
    else "use " ++ fix.toolName

def targetOf (edge : ChainEdge) : Option ToolInvocation :=
  trajectory.steps.find? fun s => s.invocationId = edge.targetInvocationId

def fixOf (target : ToolInvocation) : Option (String × String) :=
  if target.succeeded ∧ trajectory.succeeded then none
  else (given target.errorClass).map fun error => (error, correction trajectory target)

section Accumulate

variable (readings : Readings)

def counted (entry : EdgeSupport) (seen : Trajectory × ChainEdge) : EdgeSupport :=
  let entry := { entry with support := entry.support + 1 }
  match targetOf seen.1 seen.2 with
  | none => entry
  | some target =>
    let done := target.succeeded ∧ seen.1.succeeded
    { entry with
      successes := if done then entry.successes + 1 else entry.successes
      failures := if done then entry.failures else entry.failures + 1
      failureModes :=
        match fixOf seen.1 target with
        | none => entry.failureModes
        | some (error, fix) => entry.failureModes.set error fix
      latencies := entry.latencies ++ (readings.latencyMs target).toList
      costs := entry.costs ++ (readings.cost target).toList }

def seenEdges (trajectories : List Trajectory) : List (Trajectory × ChainEdge) :=
  trajectories.flatMap fun t => (mineEdges readings t).map fun edge => (t, edge)

def accumulate (trajectories : List Trajectory) : Dict Signature EdgeSupport :=
  gathered (fun seen => seen.2.toSignature) (fun seen => { signature := seen.2.toSignature })
    (counted readings) (seenEdges readings trajectories)

end Accumulate

/-- `str(value)`. -/
def Scalar.str : Scalar → String
  | .text value => value
  | .number value => String.ofList value.word

section Bindings

variable (readings : Readings)

def source (earlier : List ToolInvocation) (value : Scalar) : Option (ℕ × String) :=
  earlier.zipIdx.findSome? fun (step, index) =>
    step.outputFields.findSome? fun (outPath, outValue) =>
      if same readings outValue value.json then some (index, outPath) else none

def about (trajectory : Trajectory) : List String :=
  ordered ((readings.taskSlots trajectory.task).map fun (_, v) =>
    String.ofList (readings.casefold v.toList))

/-- The runs were about two things at least, and none of them named the value. -/
def constant (value : Scalar) (tasks : List (List String)) : Bool :=
  2 ≤ tasks.eraseDups.length ∧
    ∀ task ∈ tasks, String.ofList (readings.casefold value.str.toList) ∉ task

section Step

variable (sequence : List String) (ordinal : ℕ)

def stepAt (trajectory : Trajectory) : Option ToolInvocation :=
  if trajectory.follows sequence then
    (trajectory.distinctSteps[ordinal]?).filter fun step => sequence[ordinal]? = some step.toolName
  else none

def observedValue (path : String) (trajectory : Trajectory) : Option Scalar :=
  (stepAt sequence ordinal trajectory).bind fun step => (arguments step).get? path

def foundSource (path : String) (trajectory : Trajectory) : Option (ℕ × String) :=
  (observedValue sequence ordinal path trajectory).bind
    (source readings (trajectory.distinctSteps.take ordinal))

def observedTask (path : String) (trajectory : Trajectory) : Option (List String) :=
  (observedValue sequence ordinal path trajectory).map fun _ => about readings trajectory

def observedPaths (trajectory : Trajectory) : List String :=
  (stepAt sequence ordinal trajectory).elim [] fun step => (arguments step).keys

end Step

def Literal (values : List Scalar) (tasks : List (List String)) : Prop :=
  (values.map Scalar.str).eraseDups.length = 1 ∧
    ∀ value ∈ values.head?, constant readings value tasks
deriving Decidable

def binding (argument : String) (sources : List (ℕ × String)) (values : List Scalar)
    (tasks : List (List String)) : Binding :=
  match sources.head? with
  | some (sourceStep, sourceField) =>
    { argument, sourceStep := some sourceStep, sourceField := some sourceField }
  | none => { argument, literal := if Literal readings values tasks then values.head? else none }

/-- `_bindings`. -/
def bindings (ordinal : ℕ) (sequence : List String) (trajectories : List Trajectory) :
    List Binding :=
  (ordered (trajectories.flatMap (observedPaths sequence ordinal))).map fun path =>
    binding readings path
      (trajectories.filterMap (foundSource readings sequence ordinal path))
      (trajectories.filterMap (observedValue sequence ordinal path))
      (trajectories.filterMap (observedTask readings sequence ordinal path))

end Bindings

structure StepNotes where
  expectedOutput : List String
  support : ℕ
  successRate : ℚ
  medianLatencyMs : Option ℚ
  medianCost : Option ℚ
  /-- the fix of an error class -/
  failureModes : String → Option String

def expectedOutput (samples : List ToolInvocation) : List String :=
  let successful := samples.filter fun s => s.succeeded ∧ s.outputFields ≠ []
  match successful with
  | [] => []
  | first :: rest =>
    ordered ((first.outputFields.map Prod.fst).filter fun path =>
      rest.all fun sample => path ∈ sample.outputFields.map Prod.fst)

def leastOf (values : List ℚ) : Option ℚ :=
  values.foldr (fun value found => some (found.elim value (min value))) none

section Notes

variable (readings : Readings) (trajectories : List Trajectory)

def relevant (previous tool : String) : List EdgeSupport :=
  ((accumulate readings trajectories).items.map Prod.snd).filter fun e =>
    e.signature.sourceTool = previous ∧ e.signature.targetTool = tool

def failureModes (edges : List EdgeSupport) : Dict String String :=
  edges.foldl (fun modes edge => update modes edge.failureModes) ∅

def samples (tool : String) : List ToolInvocation :=
  (successful trajectories).flatMap fun t => t.steps.filter fun s => s.toolName = tool

def edgesTo (sequence : List String) (ordinal : ℕ) : List EdgeSupport :=
  if ordinal = 0 then []
  else relevant readings trajectories (sequence.getD (ordinal - 1) "") (sequence.getD ordinal "")

def stepNotes (sequence : List String) (ordinal : ℕ) : StepNotes :=
  let calls := samples trajectories (sequence.getD ordinal "")
  let edges := edgesTo readings trajectories sequence ordinal
  let support := (edges.map EdgeSupport.support).foldr max 0
  { expectedOutput := expectedOutput calls
    support := if support = 0 then calls.length else support
    successRate :=
      if support = 0 then
        if calls = [] then 0
        else Binary64.round ((calls.countP ToolInvocation.succeeded : ℕ) / calls.length)
      else (edges.map EdgeSupport.successRate).foldr max 0
    medianLatencyMs := leastOf (edges.filterMap fun e => median e.latencies)
    medianCost := leastOf (edges.filterMap fun e => median e.costs)
    failureModes := fun error => (failureModes edges).get? error }

end Notes

def describe (readings : Readings) : Describe StepNotes :=
  fun trajectories sequence ordinal =>
    (bindings readings ordinal sequence (successful trajectories),
      stepNotes readings trajectories sequence ordinal)

end MemoryService.Tools
