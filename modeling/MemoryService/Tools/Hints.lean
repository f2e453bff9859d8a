import MemoryService.Tools.Learning
import MemoryService.Tools.RunOrder

/-!
# What a learned plan gives to a call

A run goes through its plan step by step: a call completes the step that is next when it is a
successful call of that step's tool.
-/

namespace MemoryService.Tools

open Domain Foundation List Option

structure ToolDescriptor where
  name : String
  required : List String := []
  properties : List String := []

structure Prefill where
  tool : String
  value : Json
  evidenceId : Option String := none

variable {Notes : Type} (tools : List String) (done : List ToolInvocation)

/-- How many steps of the plan a run has completed in order: the place of the next one. -/
def position : ℕ :=
  done.foldl (fun at_ call =>
    if call.succeeded ∧ tools[at_]? = some call.toolName then at_ + 1 else at_) 0

def nextTool (plan : StoredProcedure Notes) (done : List ToolInvocation) : Option String :=
  plan.tools[position plan.tools done]?

/-- The calls that completed the steps of the plan, one for each. -/
def completed : List ToolInvocation :=
  done.foldl (fun calls call =>
    if call.succeeded ∧ tools[calls.length]? = some call.toolName then calls ++ [call] else calls)
    []

theorem completed_append (call : ToolInvocation) :
    completed tools (done ++ [call]) =
      if call.succeeded ∧ tools[(completed tools done).length]? = some call.toolName then
        completed tools done ++ [call]
      else completed tools done := by
  rw [completed, foldl_concat]
  rfl

/-- The next step is the one behind those that calls have completed. -/
theorem position_eq :
    position tools done = (completed tools done).length := by
  induction done using List.reverseRecOn with
  | nil => rfl
  | append_singleton done last ih =>
    rw [position, foldl_concat, ← position, ih, completed_append]
    split
    · rw [length_append, length_singleton]
    · rfl

variable {call : ToolInvocation} {first : Binding} {given : Prefill} {sourceStep : ℕ}

theorem completed_spec {s : ℕ}
    (isDone : (completed tools done)[s]? = some call) :
    call ∈ done ∧ call.succeeded = true ∧ tools[s]? = some call.toolName := by
  induction done using List.reverseRecOn with
  | nil => cases isDone
  | append_singleton done last ih =>
    rw [completed_append] at isDone
    split at isDone
    · next isNext =>
        rcases Nat.lt_or_ge s (completed tools done).length with early | late
        · rw [getElem?_append_left early] at isDone
          obtain ⟨member, works⟩ := ih isDone
          exact ⟨mem_append_left _ member, works⟩
        · rw [getElem?_append_right late] at isDone
          have isLast := mem_singleton.mp (mem_of_getElem? isDone)
          have isEnd : s - (completed tools done).length = 0 := by
            by_contra further
            rw [getElem?_eq_none (by simp; omega)] at isDone
            cases isDone
          have isPlace : s = (completed tools done).length := by omega
          rw [isLast, isPlace]
          exact ⟨by simp, isNext⟩
    · obtain ⟨member, works⟩ := ih isDone
      exact ⟨mem_append_left _ member, works⟩

def stepOf (plan : StoredProcedure Notes) (name : String) : ℕ := plan.tools.idxOf name

def bindingAt (plan : StoredProcedure Notes) (step : ℕ) (arg : String) : Option Binding :=
  (plan.bindings.find? fun entry => entry.1 = step ∧ entry.2.argument = arg).map Prod.snd

/-- `_arguments`. -/
def hintedArguments (entry : ToolDescriptor) (plan : StoredProcedure Notes) : List String :=
  let bound := if entry.name ∈ plan.tools then
    (plan.bindings.filter fun bound => bound.1 = stepOf plan entry.name).map fun bound =>
      bound.2.argument
    else []
  (entry.required ++ entry.properties ++ bound).eraseDups

section Values

variable (readings : Readings)

def namesAnother (task : String) (literal : Scalar) : Bool :=
  let kinds := (readings.taskSlots literal.str).map Prod.fst
  let named := ((readings.taskSlots task).filter fun slot => slot.1 ∈ kinds).map fun slot =>
    readings.casefold slot.2.toList
  named ≠ [] ∧ ¬named.contains (readings.casefold literal.str.toList)

def Binding.fieldPath (bound : Binding) : String := bound.sourceField.getD ""

def output (call : ToolInvocation) (fieldPath : String) : Option Json :=
  call.outputFields.lookup fieldPath

def lastCall (done : List ToolInvocation) (sourceTool fieldPath : String) :
    Option ToolInvocation :=
  done.reverse.find? fun call =>
    call.toolName = sourceTool ∧ call.succeeded ∧ (output call fieldPath).isSome

def fromEarlierStep (plan : StoredProcedure Notes) (done : List ToolInvocation) (name : String)
    (bound : Binding) (sourceStep : ℕ) : Option (Option Prefill) :=
  (plan.tools[sourceStep]?).map fun sourceTool =>
    (lastCall done sourceTool bound.fieldPath).bind fun call =>
      (output call bound.fieldPath).map fun value =>
        { tool := name, value, evidenceId := some call.invocationId }

def fromProcedure (plan : StoredProcedure Notes) (done : List ToolInvocation) (task : String)
    (entry : ToolDescriptor) (arg : String) : Option (Option Prefill) :=
  if entry.name ∉ plan.tools then some none
  else
    match bindingAt plan (stepOf plan entry.name) arg with
    | none => some none
    | some bound =>
      match bound.sourceStep with
      | some sourceStep => fromEarlierStep plan done entry.name bound sourceStep
      | none =>
        some <| (bound.literal.filter fun literal => !namesAnother readings task literal).map
          fun literal => { tool := entry.name, value := literal.json }

variable (asDeclared : String → Json → Option Json)

def planned (plan : StoredProcedure Notes) (done : List ToolInvocation) (task : String)
    (entry : ToolDescriptor) (arg : String) : Option Prefill :=
  (fromProcedure readings plan done task entry arg).join.bind fun found =>
    (asDeclared arg found.value).map fun value => { found with value }

end Values

section Next

variable (readings : Readings) (asDeclared : String → Json → Option Json)
  (plan : StoredProcedure Notes) (done : List ToolInvocation)

/-- The value is from the binding of the next step: its literal, or what the call has returned
that completed the source step. -/
def FilledByOwn (arg : String) (given : Prefill) : Prop :=
  ∃ own, bindingAt plan (position plan.tools done) arg = some own ∧
    match own.sourceStep with
    | none => given.evidenceId = none ∧
        ∃ literal ∈ own.literal, asDeclared arg literal.json = some given.value
    | some step => ∃ call, (completed plan.tools done)[step]? = some call ∧
        call.succeeded = true ∧ given.evidenceId = some call.invocationId ∧
          ∃ value ∈ output call own.fieldPath, asDeclared arg value = some given.value

/-- A successful call of the source step's tool that has the field completed that step, or was
made before the one that did. -/
def SourceIsLast (bound : Binding) : Prop :=
  ∀ step ∈ bound.sourceStep, ∀ other ∈ done, other.succeeded = true →
    plan.tools[step]? = some other.toolName → (output other bound.fieldPath).isSome = true →
      ∃ call, (completed plan.tools done)[step]? = some call ∧
        (output call bound.fieldPath).isSome = true ∧ (other = call ∨ [other, call] <+ done)

/-- What the plan's first step with the tool binds to the argument the next step binds to it too,
and the source is the last of its kind. -/
def StepsAgree (name arg : String) : Prop :=
  ∀ first ∈ bindingAt plan (stepOf plan name) arg,
    bindingAt plan (position plan.tools done) arg = some first ∧ SourceIsLast plan done first

/-- Every value that the plan gives the next call is from the next step's own binding. -/
def NextFilled (task : String) (entry : ToolDescriptor) : Prop :=
  ∀ arg ∈ hintedArguments entry plan, ∀ given,
    planned readings asDeclared plan done task entry arg = some given →
      FilledByOwn asDeclared plan done arg given

/-- The plan has no two steps with one tool, and every successful call of a step's tool has
completed that step. -/
def NoneRepeated : Prop :=
  plan.tools.Nodup ∧ ∀ call ∈ done, call.succeeded = true → call.toolName ∈ plan.tools →
    call ∈ completed plan.tools done

variable {readings asDeclared plan done} {task : String} {entry : ToolDescriptor} {arg : String}

/-- The call is a successful one of the tool, and has the field. -/
def Carries (sourceTool fieldPath : String) (call : ToolInvocation) : Prop :=
  call.toolName = sourceTool ∧ call.succeeded = true ∧ (output call fieldPath).isSome = true
deriving Decidable

variable {sourceTool fieldPath : String}

section

variable (isLast : lastCall done sourceTool fieldPath = some call)
include isLast

theorem lastCall_spec :
    Carries sourceTool fieldPath call ∧ ∃ earlier later, done = earlier ++ call :: later ∧
      ∀ other ∈ later, ¬Carries sourceTool fieldPath other := by
  rw [lastCall, find?_eq_some_iff_append] at isLast
  obtain ⟨carries, before, after, isReverse, noneBefore⟩ := isLast
  refine ⟨of_decide_eq_true carries, after.reverse, before.reverse, ?_, fun other isLater => ?_⟩
  · have whole := congrArg List.reverse isReverse
    rw [reverse_reverse, reverse_append, reverse_cons, append_assoc] at whole
    exact whole
  · have absent := noneBefore other (mem_reverse.mp isLater)
    rw [Bool.not_eq_true', decide_eq_false_iff_not] at absent
    exact absent

theorem lastCall_mem :
    call ∈ done ∧ call.succeeded = true := by
  obtain ⟨carries, earlier, later, rfl, -⟩ := lastCall_spec isLast
  exact ⟨mem_append_right _ mem_cons_self, carries.2.1⟩

end

theorem lastCall_isSome (isCall : call ∈ done)
    (carries : Carries sourceTool fieldPath call) :
    ∃ last, lastCall done sourceTool fieldPath = some last := by
  rw [← isSome_iff_exists, lastCall, find?_isSome]
  exact ⟨call, mem_reverse.mpr isCall, decide_eq_true carries⟩

variable {other : ToolInvocation}

theorem eq_or_before_lastCall
    (isLast : lastCall done sourceTool fieldPath = some call) (isOther : other ∈ done)
    (carries : Carries sourceTool fieldPath other) : other = call ∨ [other, call] <+ done := by
  obtain ⟨-, earlier, later, rfl, noneLater⟩ := lastCall_spec isLast
  rcases mem_append.mp isOther with isEarlier | isRest
  · refine .inr (Sublist.append (singleton_sublist.mpr isEarlier) ?_ : [other] ++ [call] <+ _)
    exact singleton_sublist.mpr mem_cons_self
  · rcases mem_cons.mp isRest with rfl | isLater
    · exact .inl rfl
    · exact absurd carries (noneLater other isLater)

theorem mem_of_pair_sublist {α : Type} {x y : α} {before after : List α} (fresh : x ∉ before)
    (isPair : [x, y] <+ before ++ x :: after) : y ∈ after := by
  induction before with
  | nil => exact singleton_sublist.mp (cons_sublist_cons.mp isPair)
  | cons z before ih =>
    rw [mem_cons, not_or] at fresh
    rw [cons_append] at isPair
    cases isPair with
    | cons _ rest => exact ih fresh.2 rest
    | cons_cons => exact absurd rfl fresh.1

/-- Nothing that has the field comes behind the last call that has it. -/
theorem eq_of_lastCall_before (unique : (done.map ToolInvocation.invocationId).Nodup)
    (isLast : lastCall done sourceTool fieldPath = some call)
    (carries : Carries sourceTool fieldPath other)
    (before : call = other ∨ [call, other] <+ done) : call = other := by
  refine before.resolve_right fun isBefore => ?_
  obtain ⟨-, earlier, later, rfl, noneLater⟩ := lastCall_spec isLast
  have fresh : call ∉ earlier := fun isEarlier =>
    (nodup_append.mp unique.of_map).2.2 call isEarlier call mem_cons_self rfl
  exact noneLater other (mem_of_pair_sublist fresh isBefore) carries

section

variable (isKnown : entry.name ∈ plan.tools)
include isKnown

section

variable (isFirst : bindingAt plan (stepOf plan entry.name) arg = some first)
include isFirst

theorem planned_of_literal
    (isLiteral : first.sourceStep = none) :
    planned readings asDeclared plan done task entry arg = some given ↔
      ∃ literal ∈ first.literal, namesAnother readings task literal = false ∧
        ∃ value ∈ asDeclared arg literal.json, given = { tool := entry.name, value } := by
  have isFound : fromProcedure readings plan done task entry arg =
      some ((first.literal.filter fun literal => !namesAnother readings task literal).map
        fun literal => { tool := entry.name, value := literal.json }) := by
    simp only [fromProcedure, isKnown, not_true_eq_false, if_false, isFirst, isLiteral]
  rw [planned, isFound, join_some]
  simp only [bind_eq_some_iff, map_eq_some_iff, filter_eq_some_iff, mem_def, Bool.not_eq_true']
  constructor
  · rintro ⟨_, ⟨literal, ⟨isLiteral, isOwn⟩, rfl⟩, value, isValue, isGiven⟩
    exact ⟨literal, isLiteral, isOwn, value, isValue, isGiven.symm⟩
  · rintro ⟨literal, isLiteral, isOwn, value, isValue, isGiven⟩
    exact ⟨_, ⟨literal, ⟨isLiteral, isOwn⟩, rfl⟩, value, isValue, isGiven.symm⟩

theorem planned_of_source
    (isSource : first.sourceStep = some sourceStep) :
    planned readings asDeclared plan done task entry arg = some given ↔
      ∃ sourceTool ∈ plan.tools[sourceStep]?,
        ∃ call ∈ lastCall done sourceTool first.fieldPath,
          ∃ out ∈ output call first.fieldPath, ∃ value ∈ asDeclared arg out,
            given = { tool := entry.name, value, evidenceId := some call.invocationId } := by
  have isFound : fromProcedure readings plan done task entry arg =
      fromEarlierStep plan done entry.name first sourceStep := by
    simp only [fromProcedure, isKnown, not_true_eq_false, if_false, isFirst, isSource]
  rw [planned, isFound, fromEarlierStep]
  simp only [bind_eq_some_iff, map_eq_some_iff, join_eq_some_iff, mem_def]
  constructor
  · rintro ⟨_, ⟨sourceTool, isTool, call, isCall, out, isOut, rfl⟩, value, isValue, isGiven⟩
    exact ⟨sourceTool, isTool, call, isCall, out, isOut, value, isValue, isGiven.symm⟩
  · rintro ⟨sourceTool, isTool, call, isCall, out, isOut, value, isValue, isGiven⟩
    exact ⟨_, ⟨sourceTool, isTool, call, isCall, out, isOut, rfl⟩, value, isValue, isGiven.symm⟩

end

theorem planned_of_none (isNone : bindingAt plan (stepOf plan entry.name) arg = none) :
    planned readings asDeclared plan done task entry arg = none := by
  simp only [planned, fromProcedure, isKnown, not_true_eq_false, if_false, isNone,
    join_some, bind_none]

end

theorem call_unique (unique : (done.map ToolInvocation.invocationId).Nodup)
    (isCall : call ∈ done) (isOther : other ∈ done)
    (same : call.invocationId = other.invocationId) : call = other :=
  List.inj_on_of_nodup_map unique isCall isOther same

section

variable (unique : (done.map ToolInvocation.invocationId).Nodup)
include unique

theorem filled_of_stepsAgree (isKnown : entry.name ∈ plan.tools)
    (agree : StepsAgree plan done entry.name arg)
    (isGiven : planned readings asDeclared plan done task entry arg = some given) :
    FilledByOwn asDeclared plan done arg given := by
  cases isFirst : bindingAt plan (stepOf plan entry.name) arg with
  | none =>
    rw [planned_of_none isKnown isFirst] at isGiven
    cases isGiven
  | some first =>
    obtain ⟨isOwn, isLast⟩ := agree first isFirst
    refine ⟨first, isOwn, ?_⟩
    cases isSource : first.sourceStep with
    | none =>
      obtain ⟨literal, isLiteral, -, value, isValue, rfl⟩ :=
        (planned_of_literal isKnown isFirst isSource).mp isGiven
      exact ⟨rfl, literal, isLiteral, isValue⟩
    | some step =>
      obtain ⟨sourceTool, isTool, call, isCall, out, isOut, value, isValue, rfl⟩ :=
        (planned_of_source isKnown isFirst isSource).mp isGiven
      obtain ⟨⟨sameTool, works, hasField⟩, -⟩ := lastCall_spec isCall
      rw [← sameTool] at isTool
      obtain ⟨other, isDone, otherField, before⟩ :=
        isLast step isSource call (lastCall_mem isCall).1 works isTool hasField
      -- the last call of the tool is the one that completed the step
      obtain ⟨-, otherWorks, otherTool⟩ := completed_spec plan.tools done isDone
      have carries : Carries sourceTool first.fieldPath other :=
        ⟨(some.inj (isTool.symm.trans otherTool)).symm.trans sameTool, otherWorks, otherField⟩
      obtain rfl := eq_of_lastCall_before unique isCall carries before
      exact ⟨call, isDone, works, rfl, out, isOut, isValue⟩

/-- Where the two steps bind alike, the source has to be the last of its kind. -/
theorem sourceIsLast_of_filled {own : Binding} (isKnown : entry.name ∈ plan.tools)
    (isFirst : bindingAt plan (stepOf plan entry.name) arg = some own)
    (isOwn : bindingAt plan (position plan.tools done) arg = some own)
    (typed : ∀ call ∈ done, ∀ out ∈ output call own.fieldPath, (asDeclared arg out).isSome = true)
    (filled : ∀ given, planned readings asDeclared plan done task entry arg = some given →
      FilledByOwn asDeclared plan done arg given) : SourceIsLast plan done own := by
  intro step isSource other isOther works isTool hasField
  have carries : Carries other.toolName own.fieldPath other := ⟨rfl, works, hasField⟩
  obtain ⟨last, isLast⟩ := lastCall_isSome isOther carries
  have lastField := (lastCall_spec isLast).1.2.2
  obtain ⟨out, isOut⟩ := isSome_iff_exists.mp lastField
  obtain ⟨value, isValue⟩ := isSome_iff_exists.mp
    (typed last (lastCall_mem isLast).1 out isOut)
  obtain ⟨bound, isBound, isFilled⟩ :=
    filled { tool := entry.name, value, evidenceId := some last.invocationId }
      ((planned_of_source isKnown isFirst isSource).mpr
        ⟨_, isTool, last, isLast, out, isOut, value, isValue, rfl⟩)
  rw [isOwn, some.injEq] at isBound
  rw [← isBound, isSource] at isFilled
  obtain ⟨call, isDone, -, isEvidence, -⟩ := isFilled
  have isSame : last = call := call_unique unique (lastCall_mem isLast).1
    (completed_spec plan.tools done isDone).1 (some.inj isEvidence)
  exact ⟨call, isDone, isSame ▸ lastField, isSame ▸ eq_or_before_lastCall isLast isOther carries⟩

end

theorem stepsAgree_of_noneRepeated (once : NoneRepeated plan done)
    (isNext : nextTool plan done = some entry.name) : StepsAgree plan done entry.name arg := by
  obtain ⟨nodup, completes⟩ := once
  have isStep : stepOf plan entry.name = position plan.tools done := by
    obtain ⟨within, isTool⟩ := List.getElem?_eq_some_iff.mp isNext
    rw [stepOf, ← isTool, nodup.idxOf_getElem]
  intro first isFirst
  refine ⟨isStep ▸ isFirst, fun step isSource other isOther works isTool hasField => ?_⟩
  obtain ⟨place, isDone⟩ :=
    mem_iff_getElem?.mp (completes other isOther works (mem_of_getElem? isTool))
  obtain ⟨-, -, atPlace⟩ := completed_spec plan.tools done isDone
  have within := (List.getElem?_eq_some_iff.mp atPlace).1
  have samePlace : place = step := (getElem?_inj within nodup).mp (atPlace.trans isTool.symm)
  exact ⟨other, samePlace ▸ isDone, hasField, .inl rfl⟩

end Next

/-- The arguments of the next call are filled from its own bindings where its step and the first
one with its tool agree, as they do in a plan and a run that repeat no tool; and where they bind
alike, only where the source is the last of its kind. -/
theorem next_step_filled (readings : Readings) (asDeclared : String → Json → Option Json)
    (plan : StoredProcedure Notes) (done : List ToolInvocation) (task : String)
    (entry : ToolDescriptor) (unique : (done.map ToolInvocation.invocationId).Nodup)
    (isNext : nextTool plan done = some entry.name) :
    ((∀ arg ∈ hintedArguments entry plan, StepsAgree plan done entry.name arg) →
      NextFilled readings asDeclared plan done task entry) ∧
    (NoneRepeated plan done → NextFilled readings asDeclared plan done task entry) ∧
    (NextFilled readings asDeclared plan done task entry →
      ∀ arg ∈ hintedArguments entry plan, ∀ own,
        bindingAt plan (stepOf plan entry.name) arg = some own →
        bindingAt plan (position plan.tools done) arg = some own →
        (∀ call ∈ done, ∀ out ∈ output call own.fieldPath, (asDeclared arg out).isSome = true) →
          SourceIsLast plan done own) := by
  have isKnown : entry.name ∈ plan.tools := List.mem_of_getElem? isNext
  refine ⟨fun agree arg isArg given => filled_of_stepsAgree unique isKnown (agree arg isArg),
    fun once arg _ given =>
      filled_of_stepsAgree unique isKnown (stepsAgree_of_noneRepeated once isNext), ?_⟩
  intro filled arg isArg own isFirst isOwn typed
  exact sourceIsLast_of_filled unique isKnown isFirst isOwn typed (filled arg isArg)

def setMode : ToolDescriptor where
  name := "set_mode"
  required := ["mode"]

def twoModes : StoredProcedure Unit where
  tenantId := "acme"
  scopeKey := .agent "planner"
  pattern := "post the entry"
  steps := ["set_mode", "post", "set_mode"].mapIdx fun ordinal tool =>
    { ordinal, tool, notes := () }
  bindings := [(0, { argument := "mode", literal := some (.text "draft") }),
    (1, { argument := "entry", sourceStep := some 0, sourceField := some "entry" }),
    (2, { argument := "mode", literal := some (.text "final") })]

def posted : List ToolInvocation :=
  [{ goodCall "r_1" "set_mode" 0 with outputFields := [("entry", .str "E-7")] },
    goodCall "r_1" "post" 1]

/-- The last step is given the mode of the first. -/
theorem last_mode_is_the_first :
    (posted.map ToolInvocation.invocationId).Nodup ∧
      nextTool twoModes posted = some setMode.name ∧
      ¬NextFilled plainReadings (fun _ value => some value) twoModes posted "post the entry"
        setMode := by
  refine ⟨by decide +kernel, by decide +kernel, fun always => ?_⟩
  have isFirst : bindingAt twoModes (stepOf twoModes setMode.name) "mode" =
      some { argument := "mode", literal := some (.text "draft") } := by decide +kernel
  have isNext : bindingAt twoModes (position twoModes.tools posted) "mode" =
      some { argument := "mode", literal := some (.text "final") } := by decide +kernel
  have isGiven : planned plainReadings (fun _ value => some value) twoModes posted
      "post the entry" setMode "mode" = some { tool := "set_mode", value := .str "draft" } :=
    (planned_of_literal (by decide +kernel) isFirst rfl).mpr
      ⟨.text "draft", rfl, by decide +kernel, .str "draft", rfl, rfl⟩
  obtain ⟨own, isOwn, isFilled⟩ := always "mode" (by decide +kernel) _ isGiven
  rw [isNext, some.injEq] at isOwn
  rw [← isOwn] at isFilled
  obtain ⟨-, literal, isLiteral, isValue⟩ := isFilled
  cases isLiteral
  rw [some.injEq, Scalar.json, Json.str.injEq] at isValue
  exact absurd isValue (by decide)

def post : ToolDescriptor where
  name := "post"
  required := ["entry"]

/-- The entry is from the call that has set the mode. -/
theorem post_filled_of_mode :
    nextTool twoModes (posted.take 1) = some post.name ∧
      planned plainReadings (fun _ value => some value) twoModes (posted.take 1) "post the entry"
        post "entry" = some { tool := "post", value := .str "E-7", evidenceId := some "r_1/0" } ∧
      NextFilled plainReadings (fun _ value => some value) twoModes (posted.take 1)
        "post the entry" post := by
  have unique : ((posted.take 1).map ToolInvocation.invocationId).Nodup := by decide +kernel
  have isNext : nextTool twoModes (posted.take 1) = some post.name := by decide +kernel
  have isFirst : bindingAt twoModes (stepOf twoModes post.name) "entry" =
      some { argument := "entry", sourceStep := some 0, sourceField := some "entry" } := by
    decide +kernel
  refine ⟨isNext, ?_, (next_step_filled plainReadings (fun _ value => some value) twoModes
    (posted.take 1) "post the entry" post unique isNext).1 ?_⟩
  · exact (planned_of_source (by decide +kernel) isFirst rfl).mpr
      ⟨"set_mode", rfl, _, rfl, .str "E-7", rfl, .str "E-7", rfl, rfl⟩
  · have args : hintedArguments post twoModes = ["entry"] := by decide +kernel
    intro arg isArg first isFound
    rw [args, List.mem_singleton] at isArg
    rw [isArg, isFirst, mem_some_iff] at isFound
    rw [isArg, ← isFound]
    refine ⟨by decide +kernel, fun step isSource other isOther _ _ hasField => ?_⟩
    obtain rfl : 0 = step := some.inj isSource
    exact ⟨other, by rw [mem_singleton.mp isOther]; rfl, hasField, .inl rfl⟩

end MemoryService.Tools
