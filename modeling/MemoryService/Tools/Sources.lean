import MemoryService.Tools.RunOrder

/-!
# Where the value of an argument came from

A binding names the first output of an earlier step that held the argument's value, in the first
run that had it from one.
-/

namespace MemoryService.Tools

open Domain Foundation List Option

def joinStep (attempts : List (List ToolInvocation)) (call : ToolInvocation) :
    List (List ToolInvocation) :=
  match attempts.getLast? with
  | none => [[call]]
  | some calls =>
    if calls.getLast?.any fun last => last.toolName = call.toolName then
      attempts.dropLast ++ [calls ++ [call]]
    else attempts ++ [[call]]

def Trajectory.attempts (trajectory : Trajectory) : List (List ToolInvocation) :=
  trajectory.steps.foldl joinStep []

structure Settles (calls : List ToolInvocation) (settled : ToolInvocation) : Prop where
  member : settled ∈ calls
  worked : settled.succeeded = true ↔ ∃ call ∈ calls, call.succeeded = true
  last : ∀ call ∈ calls.getLast?, call.toolName = settled.toolName

theorem settles_single (call : ToolInvocation) : Settles [call] call := by
  refine ⟨mem_singleton_self _, ?_, ?_⟩
  · simp
  · intro last isLast
    cases isLast
    rfl

variable {call : ToolInvocation} {k : ℕ} {value : Scalar} {steps : List ToolInvocation}
  {field argument : String} {run : Trajectory} {values : List Scalar} {tasks : List (List String)}
  {sources : List (ℕ × String)}

theorem Settles.retry {calls : List ToolInvocation} {settled : ToolInvocation}
    (settles : Settles calls settled) (sameTool : settled.toolName = call.toolName) :
    Settles (calls ++ [call]) (if call.succeeded || !settled.succeeded then call else settled) := by
  have worked := settles.worked
  split
  · next isBetter =>
      refine ⟨by simp, ?_, ?_⟩
      · simp only [mem_append, mem_singleton]
        constructor
        · exact fun works => ⟨call, .inr rfl, works⟩
        · intro ⟨other, isOne, works⟩
          rcases isOne with isOld | rfl
          · have isSettled := worked.mpr ⟨other, isOld, works⟩
            simpa [isSettled] using isBetter
          · exact works
      · intro last isLast
        rw [getLast?_append_of_ne_nil _ (by simp)] at isLast
        cases isLast
        rfl
  · next isWorse =>
      have works : settled.succeeded = true := by
        cases isSettled : settled.succeeded with
        | true => rfl
        | false => simp [isSettled] at isWorse
      refine ⟨mem_append_left _ settles.member, ?_, ?_⟩
      · exact iff_of_true works ⟨settled, mem_append_left _ settles.member, works⟩
      · intro last isLast
        rw [getLast?_append_of_ne_nil _ (by simp)] at isLast
        cases isLast
        exact sameTool.symm

theorem joinStep_settles {paired : List (List ToolInvocation × ToolInvocation)}
    (settle : ∀ pair ∈ paired, Settles pair.1 pair.2) (call : ToolInvocation) :
    ∃ next : List (List ToolInvocation × ToolInvocation),
      joinStep (paired.map Prod.fst) call = next.map Prod.fst ∧
        retryStep (paired.map Prod.snd) call = next.map Prod.snd ∧
          ∀ pair ∈ next, Settles pair.1 pair.2 := by
  rcases eq_nil_or_concat paired with rfl | ⟨before, pair, rfl⟩
  · refine ⟨[([call], call)], rfl, rfl, fun pair member => ?_⟩
    rw [mem_singleton.mp member]
    exact settles_single call
  · rw [concat_eq_append] at settle ⊢
    have settles := settle pair (by simp)
    have known : ∀ other ∈ before, Settles other.1 other.2 :=
      fun other member => settle other (mem_append_left _ member)
    have isRetry : (pair.1.getLast?.any fun last => last.toolName = call.toolName) =
        decide (pair.2.toolName = call.toolName) := by
      cases isLast : pair.1.getLast? with
      | none =>
        rw [getLast?_eq_none_iff] at isLast
        have member := settles.member
        rw [isLast] at member
        cases member
      | some last => rw [any_some, settles.last last isLast]
    simp only [joinStep, retryStep, map_append, map_singleton, getLast?_concat,
      isRetry, decide_eq_true_eq, dropLast_concat]
    by_cases sameTool : pair.2.toolName = call.toolName
    · refine ⟨before ++ [(pair.1 ++ [call],
        if call.succeeded || !pair.2.succeeded then call else pair.2)], ?_, ?_, ?_⟩
      · rw [if_pos sameTool, map_append]
        rfl
      · rw [if_pos sameTool, map_append]
        split <;> rfl
      · intro other member
        rcases mem_concat.mp member with isOld | rfl
        · exact known other isOld
        · exact settles.retry sameTool
    · refine ⟨before ++ [pair, ([call], call)], ?_, ?_, ?_⟩
      · rw [if_neg sameTool, map_append, append_assoc]
        rfl
      · rw [if_neg sameTool, map_append, append_assoc]
        rfl
      · intro other member
        rcases mem_append.mp member with isOld | isNew
        · exact known other isOld
        · rcases mem_cons.mp isNew with rfl | isLast
          · exact settles
          · rw [mem_singleton.mp isLast]
            exact settles_single call

theorem distinctSteps_settle (trajectory : Trajectory) :
    ∃ paired : List (List ToolInvocation × ToolInvocation),
      trajectory.attempts = paired.map Prod.fst ∧ trajectory.distinctSteps = paired.map Prod.snd ∧
        ∀ pair ∈ paired, Settles pair.1 pair.2 := by
  rw [Trajectory.attempts, Trajectory.distinctSteps]
  have run : ∀ (calls : List ToolInvocation)
      (paired : List (List ToolInvocation × ToolInvocation)),
      (∀ pair ∈ paired, Settles pair.1 pair.2) →
      ∃ next : List (List ToolInvocation × ToolInvocation),
        calls.foldl joinStep (paired.map Prod.fst) = next.map Prod.fst ∧
          calls.foldl retryStep (paired.map Prod.snd) = next.map Prod.snd ∧
            ∀ pair ∈ next, Settles pair.1 pair.2 := by
    intro calls
    induction calls with
    | nil =>
      intro paired settle
      exact ⟨paired, rfl, rfl, settle⟩
    | cons call rest ih =>
      intro paired settle
      obtain ⟨next, isJoined, isRetried, settleNext⟩ := joinStep_settles settle call
      rw [foldl_cons, foldl_cons, isJoined, isRetried]
      exact ih next settleNext
  exact run trajectory.steps [] (by simp)

theorem step_succeeded_iff {trajectory : Trajectory}
    (isStep : trajectory.distinctSteps[k]? = some call) :
    call.succeeded = true ↔
      ∃ calls, trajectory.attempts[k]? = some calls ∧ ∃ other ∈ calls, other.succeeded = true := by
  obtain ⟨paired, isAttempts, isSteps, settle⟩ := distinctSteps_settle trajectory
  rw [isSteps, getElem?_map] at isStep
  obtain ⟨pair, isPair, rfl⟩ := map_eq_some_iff.mp isStep
  rw [isAttempts, getElem?_map, isPair, map_some, (settle pair (mem_of_getElem? isPair)).worked]
  simp

section Sources

variable {readings : Readings}

variable (readings) in
def HoldsIn (call : ToolInvocation) (value : Scalar) (field : String) : Prop :=
  ∃ out, (field, out) ∈ call.outputFields ∧ same readings out value.json = true

variable (readings) in
/-- The call is the step of the run before which no output held the value. -/
structure HoldsFirst (steps : List ToolInvocation) (value : Scalar) (k : ℕ)
    (call : ToolInvocation) : Prop where
  isStep : steps[k]? = some call
  holds : ∃ field, HoldsIn readings call value field
  first : ∀ j < k, ∀ other, steps[j]? = some other → ∀ field, ¬HoldsIn readings other value field

theorem findSome?_output : (call.outputFields.findSome? fun (outPath, outValue) =>
      if same readings outValue value.json then some (k, outPath) else none) = none ↔
        ∀ field, ¬HoldsIn readings call value field := by
  rw [findSome?_eq_none_iff]
  constructor
  · intro none_ field ⟨out, member, isSame⟩
    have isNone := none_ (field, out) member
    simp [isSame] at isNone
  · intro holds entry member
    refine if_neg fun isSame => ?_
    exact holds entry.1 ⟨entry.2, member, isSame⟩

theorem source_eq_some (isSource : source readings steps value = some (k, field)) :
    ∃ call, HoldsFirst readings steps value k call ∧ HoldsIn readings call value field := by
  obtain ⟨before, entry, later, isSplit, isFound, notBefore⟩ := findSome?_eq_some_iff.mp isSource
  have place : ∀ j, (steps.zipIdx)[j]? = steps[j]?.map fun call => (call, 0 + j) :=
    fun j => getElem?_zipIdx
  obtain ⟨_, ⟨outPath, outValue⟩, _, isFields, isOutput, -⟩ := findSome?_eq_some_iff.mp isFound
  dsimp only at isOutput
  split at isOutput
  · next isSame =>
      cases isOutput
      have isEntry := place before.length
      rw [isSplit, getElem?_append_right (Nat.le_refl _), Nat.sub_self,
        getElem?_cons_zero] at isEntry
      obtain ⟨call, isStep, isPair⟩ := Option.map_eq_some_iff.mp isEntry.symm
      have isIndex : entry.2 = before.length := by rw [← isPair, Nat.zero_add]
      have isCall : entry.1 = call := by rw [← isPair]
      have holds : HoldsIn readings call value field :=
        ⟨outValue, by rw [← isCall, isFields]; simp, isSame⟩
      refine ⟨call, ⟨isIndex ▸ isStep, ⟨field, holds⟩, ?_⟩, holds⟩
      intro j early other isOther
      have isEarly := place j
      rw [isIndex] at early
      rw [isSplit, getElem?_append_left early, isOther, Option.map_some] at isEarly
      exact findSome?_output.mp (notBefore _ (mem_of_getElem? isEarly))
  · cases isOutput

theorem source_eq_none (isNone : source readings steps value = none) :
    ∀ call ∈ steps, ∀ field, ¬HoldsIn readings call value field := by
  intro call member
  obtain ⟨k, isStep⟩ := mem_iff_getElem?.mp member
  have isEntry : (call, 0 + k) ∈ steps.zipIdx := by
    refine mem_iff_getElem?.mpr ⟨k, ?_⟩
    rw [getElem?_zipIdx, isStep]
    rfl
  exact findSome?_output.mp (findSome?_eq_none_iff.mp isNone _ isEntry)

theorem source_of_holdsFirst (holdsFirst : HoldsFirst readings steps value k call) :
    ∃ field, source readings steps value = some (k, field) := by
  obtain ⟨field, holds⟩ := holdsFirst.holds
  cases isSource : source readings steps value with
  | none =>
    have member := mem_of_getElem? holdsFirst.isStep
    exact absurd holds (source_eq_none isSource call member field)
  | some found =>
    obtain ⟨other, isFirst, -⟩ := source_eq_some isSource
    have isSame : found.1 = k := by
      obtain ⟨otherField, otherHolds⟩ := isFirst.holds
      rcases Nat.lt_trichotomy found.1 k with early | same | late
      · exact absurd otherHolds (holdsFirst.first _ early other isFirst.isStep otherField)
      · exact same
      · exact absurd holds (isFirst.first k late call holdsFirst.isStep field)
    exact ⟨found.2, by rw [← isSame]⟩

end Sources

section Bindings

variable {readings : Readings} {runs : List Trajectory} {sequence : List String} {ordinal : ℕ}

variable (readings sequence ordinal) in
def HadFrom (argument : String) (run : Trajectory) (k : ℕ) (call : ToolInvocation) : Prop :=
  ∃ value, observedValue sequence ordinal argument run = some value ∧
    HoldsFirst readings (run.distinctSteps.take ordinal) value k call

variable (readings sequence ordinal) in
def Flowed (argument : String) (run : Trajectory) (k : ℕ) (field : String) : Prop :=
  run.follows sequence = true ∧ ∃ target value call,
    run.distinctSteps[ordinal]? = some target ∧ (arguments target).get? argument = some value ∧
      run.distinctSteps[k]? = some call ∧ call.succeeded = true ∧ HoldsIn readings call value field

variable (readings sequence ordinal runs) in
def FirstToHave (argument : String) (run : Trajectory) (k : ℕ) (call : ToolInvocation) : Prop :=
  ∃ before after, runs = before ++ run :: after ∧
    (∀ other ∈ before, ∀ j step, ¬HadFrom readings sequence ordinal argument other j step) ∧
      HadFrom readings sequence ordinal argument run k call

variable (readings runs sequence ordinal) in
/-- The binding names an output that a run's step gave to it, and no output of a step that
failed. -/
structure Backed (binding : Binding) : Prop where
  earlier : ∀ k ∈ binding.sourceStep, k < ordinal
  flowed : ∀ k ∈ binding.sourceStep, ∀ field ∈ binding.sourceField,
    ∃ run ∈ runs, Flowed readings sequence ordinal binding.argument run k field
  neverFailed : ∀ k ∈ binding.sourceStep, ∀ run j call,
    FirstToHave readings runs sequence ordinal binding.argument run j call →
      j = k ∧ call.succeeded = true

theorem follows_of_observed (observed : observedValue sequence ordinal argument run = some value) :
    run.follows sequence = true ∧ ∃ target, run.distinctSteps[ordinal]? = some target ∧
      (arguments target).get? argument = some value := by
  obtain ⟨target, isStep, isValue⟩ := Option.bind_eq_some_iff.mp observed
  rw [stepAt] at isStep
  split at isStep
  · next follows =>
      exact ⟨follows, target, (Option.filter_eq_some_iff.mp isStep).1, isValue⟩
  · cases isStep

theorem foundSource_eq_some
    (isSource : foundSource readings sequence ordinal argument run = some (k, field)) :
    ∃ value call, observedValue sequence ordinal argument run = some value ∧
      HoldsFirst readings (run.distinctSteps.take ordinal) value k call ∧
        HoldsIn readings call value field := by
  obtain ⟨value, observed, isFound⟩ := Option.bind_eq_some_iff.mp isSource
  obtain ⟨call, isFirst, holds⟩ := source_eq_some isFound
  exact ⟨value, call, observed, isFirst, holds⟩

theorem foundSource_of_hadFrom (had : HadFrom readings sequence ordinal argument run k call) :
    ∃ field, foundSource readings sequence ordinal argument run = some (k, field) := by
  obtain ⟨value, observed, isFirst⟩ := had
  obtain ⟨field, isSource⟩ := source_of_holdsFirst isFirst
  exact ⟨field, by rw [foundSource, observed]; exact isSource⟩

theorem foundSource_eq_none
    (none_ : ∀ k call, ¬HadFrom readings sequence ordinal argument run k call) :
    foundSource readings sequence ordinal argument run = none := by
  refine Option.eq_none_iff_forall_not_mem.mpr fun found isSource => ?_
  obtain ⟨value, call, observed, isFirst, -⟩ := foundSource_eq_some isSource
  exact none_ found.1 call ⟨value, observed, isFirst⟩

theorem head?_sources :
    (runs.filterMap (foundSource readings sequence ordinal argument)).head? = some (k, field) ↔
      ∃ before run after, runs = before ++ run :: after ∧
        foundSource readings sequence ordinal argument run = some (k, field) ∧
          ∀ other ∈ before, foundSource readings sequence ordinal argument other = none := by
  rw [head?_filterMap, findSome?_eq_some_iff]

theorem head?_of_firstToHave
    (isFirst : FirstToHave readings runs sequence ordinal argument run k call) :
    ∃ field, (runs.filterMap (foundSource readings sequence ordinal argument)).head? =
      some (k, field) := by
  obtain ⟨before, after, isSplit, notBefore, had⟩ := isFirst
  obtain ⟨field, isFound⟩ := foundSource_of_hadFrom had
  exact ⟨field, head?_sources.mpr ⟨before, run, after, isSplit, isFound,
    fun other member => foundSource_eq_none (notBefore other member)⟩⟩

theorem firstToHave_of_head?
    (isHead : (runs.filterMap (foundSource readings sequence ordinal argument)).head? =
      some (k, field)) :
    ∃ run call value, FirstToHave readings runs sequence ordinal argument run k call ∧
      observedValue sequence ordinal argument run = some value ∧
        HoldsIn readings call value field := by
  obtain ⟨before, run, after, isSplit, isFound, notBefore⟩ := head?_sources.mp isHead
  obtain ⟨value, call, observed, isFirst, holds⟩ := foundSource_eq_some isFound
  refine ⟨run, call, value, ⟨before, after, isSplit, ?_, value, observed, isFirst⟩, observed, holds⟩
  intro other member j step had
  obtain ⟨otherField, isOther⟩ := foundSource_of_hadFrom had
  rw [notBefore other member] at isOther
  cases isOther

theorem binding_source
    (isSource : k ∈ (binding readings argument sources values tasks).sourceStep) :
    ∃ field, sources.head? = some (k, field) ∧
      (binding readings argument sources values tasks).sourceField = some field := by
  rw [binding] at isSource ⊢
  cases isHead : sources.head? with
  | none =>
    rw [isHead] at isSource
    cases isSource
  | some found =>
    rw [isHead] at isSource
    cases isSource
    exact ⟨found.2, rfl, rfl⟩

theorem binding_argument :
    (binding readings argument sources values tasks).argument = argument := by
  rw [binding]
  split <;> rfl

variable (readings runs sequence) in
def SourcesWorked : Prop :=
  ∀ ordinal argument run k call, FirstToHave readings runs sequence ordinal argument run k call →
    ∃ calls, run.attempts[k]? = some calls ∧ ∃ other ∈ calls, other.succeeded = true

theorem HadFrom.isStep (had : HadFrom readings sequence ordinal argument run k call) :
    k < ordinal ∧ run.distinctSteps[k]? = some call := by
  obtain ⟨value, -, isFirst⟩ := had
  have isStep := isFirst.isStep
  rw [getElem?_take] at isStep
  split at isStep
  · next early => exact ⟨early, isStep⟩
  · cases isStep

variable (readings sequence ordinal runs) in
def boundTo (argument : String) : Binding :=
  binding readings argument (runs.filterMap (foundSource readings sequence ordinal argument))
    (runs.filterMap (observedValue sequence ordinal argument))
    (runs.filterMap (observedTask readings sequence ordinal argument))

theorem boundTo_backed (worked : SourcesWorked readings runs sequence) (argument : String) :
    Backed readings runs sequence ordinal (boundTo readings runs sequence ordinal argument) := by
  have isArgument : (boundTo readings runs sequence ordinal argument).argument = argument :=
    binding_argument
  have first : ∀ k ∈ (boundTo readings runs sequence ordinal argument).sourceStep,
      ∃ field, (boundTo readings runs sequence ordinal argument).sourceField = some field ∧
        (runs.filterMap (foundSource readings sequence ordinal argument)).head? =
          some (k, field) := by
    intro k isSource
    obtain ⟨field, isHead, isField⟩ := binding_source isSource
    exact ⟨field, isField, isHead⟩
  refine ⟨fun k isSource => ?_, fun k isSource field isField => ?_, ?_⟩
  · obtain ⟨field, -, isHead⟩ := first k isSource
    obtain ⟨run, call, value, ⟨_, _, _, _, had⟩, -, -⟩ := firstToHave_of_head? isHead
    exact had.isStep.1
  · obtain ⟨_, isOwn, isHead⟩ := first k isSource
    rw [isOwn] at isField
    cases isField
    obtain ⟨run, call, value, isFirst, observed, holds⟩ := firstToHave_of_head? isHead
    have hasWorked := worked ordinal argument run k call isFirst
    obtain ⟨before, after, isSplit, -, had⟩ := isFirst
    have works := (step_succeeded_iff had.isStep.2).mpr hasWorked
    obtain ⟨follows, target, isTarget, isValue⟩ := follows_of_observed observed
    rw [isArgument]
    exact ⟨run, isSplit ▸ by simp, follows, target, value, call, isTarget, isValue,
      had.isStep.2, works, holds⟩
  · intro k isSource run j call isFirst
    rw [isArgument] at isFirst
    obtain ⟨field, -, isHead⟩ := first k isSource
    obtain ⟨otherField, isOther⟩ := head?_of_firstToHave isFirst
    rw [isHead, Option.some.injEq, Prod.mk.injEq] at isOther
    have hasWorked := worked ordinal argument run j call isFirst
    obtain ⟨_, _, _, _, had⟩ := isFirst
    exact ⟨isOther.1.symm, (step_succeeded_iff had.isStep.2).mpr hasWorked⟩

theorem boundTo_mem (isRun : run ∈ runs)
    (observed : observedValue sequence ordinal argument run = some value) :
    boundTo readings runs sequence ordinal argument ∈ bindings readings ordinal sequence runs := by
  refine mem_map.mpr ⟨argument, mem_ordered.mpr (mem_flatMap.mpr ⟨run, isRun, ?_⟩), rfl⟩
  obtain ⟨target, isStep, isValue⟩ := Option.bind_eq_some_iff.mp observed
  rw [observedPaths, isStep, Option.elim_some]
  exact Dict.mem_keys_of_get? isValue

theorem bindings_backed_iff :
    (∀ ordinal, ∀ bound ∈ bindings readings ordinal sequence runs,
      Backed readings runs sequence ordinal bound) ↔ SourcesWorked readings runs sequence := by
  constructor
  · intro backed ordinal argument run k call isFirst
    obtain ⟨field, isHead⟩ := head?_of_firstToHave isFirst
    have isSource : (boundTo readings runs sequence ordinal argument).sourceStep = some k := by
      rw [boundTo, binding, isHead]
    have isArgument : (boundTo readings runs sequence ordinal argument).argument = argument :=
      binding_argument
    obtain ⟨before, after, isSplit, -, had⟩ := id isFirst
    obtain ⟨value, observed, -⟩ := id had
    have isRun : run ∈ runs := by rw [isSplit]; simp
    have isBound : boundTo readings runs sequence ordinal argument ∈ _ := boundTo_mem isRun observed
    have isBacked := (backed ordinal _ isBound).neverFailed k isSource run k call
      (by rw [isArgument]; exact isFirst)
    exact (step_succeeded_iff had.isStep.2).mp isBacked.2
  · intro worked ordinal bound isBound
    obtain ⟨argument, -, rfl⟩ := mem_map.mp isBound
    exact boundTo_backed worked argument

end Bindings

section Mined

variable (readings : Readings) (pattern : String) (trajectories : List Trajectory)

theorem steps_procedureOf (sequence : List String) (ordinal : ℕ) :
    ((procedureOf readings pattern trajectories sequence).steps[ordinal]?).map
        (fun step => (step.ordinal, step.bindings)) =
      (sequence[ordinal]?).map fun _ =>
        (ordinal, bindings readings ordinal sequence (successful trajectories)) := by
  rw [procedureOf, getElem?_mapIdx, Option.map_map]
  rfl

theorem bindings_of_none {runs : List Trajectory} {sequence : List String} {ordinal : ℕ}
    (isNone : sequence[ordinal]? = none) : bindings readings ordinal sequence runs = [] := by
  have noPath : ∀ run : Trajectory, observedPaths sequence ordinal run = [] := by
    intro run
    rw [observedPaths, stepAt]
    split
    · cases isStep : run.distinctSteps[ordinal]? with
      | none => rfl
      | some target => rw [Option.filter_some, isNone]; rfl
    · rfl
  rw [bindings, map_eq_nil_iff]
  refine eq_nil_iff_forall_not_mem.mpr fun path member => ?_
  obtain ⟨run, -, isPath⟩ := mem_flatMap.mp (mem_ordered.mp member)
  rw [noPath run] at isPath
  cases isPath

end Mined

/-- The bindings of a procedure are backed exactly if every argument that a run had from an
earlier step, and no run before it, was first held by an output of a step that worked. -/
theorem mined_bindings_backed_iff (readings : Readings) (pattern : String)
    (trajectories : List Trajectory) :
    (∀ mined, mineProcedure (describe readings) pattern trajectories = some mined →
      ∀ step ∈ mined.steps, ∀ bound ∈ step.bindings,
        Backed readings (successful trajectories) mined.tools step.ordinal bound) ↔
      SourcesWorked readings (successful trajectories)
        (bestSequence (successful trajectories)) := by
  by_cases isEmpty : successful trajectories = []
  · refine iff_of_true (fun mined isMined => ?_) ?_
    · rw [mineProcedure, if_pos isEmpty] at isMined
      cases isMined
    · intro ordinal argument run k call isFirst
      obtain ⟨before, after, isSplit, -⟩ := isFirst
      simp [isEmpty] at isSplit
  · rw [mineProcedure_of_successful isEmpty, ← bindings_backed_iff]
    generalize bestSequence (successful trajectories) = sequence
    have isSteps := fun ordinal => steps_procedureOf readings pattern trajectories sequence ordinal
    constructor
    · intro backed ordinal bound isBound
      have isStep := isSteps ordinal
      cases isTool : sequence[ordinal]? with
      | none =>
        rw [bindings_of_none readings isTool] at isBound
        cases isBound
      | some tool =>
        rw [isTool, Option.map_some] at isStep
        obtain ⟨step, isThere, isSame⟩ := Option.map_eq_some_iff.mp isStep
        rw [Prod.mk.injEq] at isSame
        have isBacked := backed _ rfl step (mem_of_getElem? isThere) bound (isSame.2 ▸ isBound)
        rwa [tools_procedureOf, isSame.1] at isBacked
    · intro backed mined isSame step member bound isBound
      cases isSame
      obtain ⟨ordinal, isThere⟩ := mem_iff_getElem?.mp member
      have isStep := isSteps ordinal
      rw [isThere, Option.map_some] at isStep
      obtain ⟨tool, -, isPair⟩ := Option.map_eq_some_iff.mp isStep.symm
      rw [Prod.mk.injEq] at isPair
      rw [tools_procedureOf, ← isPair.1]
      exact backed ordinal bound (isPair.2 ▸ isBound)

def timedOut : Trajectory where
  runId := "r_1"
  task := "stock of the style"
  taskPattern := some "stock of the style"
  steps := [
    { goodCall "r_1" "find_style" 0 with
      status := .timeout
      outputFields := [("style", .str "ST-101")] },
    { goodCall "r_1" "find_stock" 1 with
      argsRedacted := .obj [("style", .str "ST-101")] }]
  succeeded := true

/-- The style of the stock is bound to the output of the search that timed out. -/
theorem timed_out_is_a_source :
    ¬∀ mined, mineProcedure (describe plainReadings) "stock of the style" [timedOut] = some mined →
      ∀ step ∈ mined.steps, ∀ bound ∈ step.bindings,
        Backed plainReadings (successful [timedOut]) mined.tools step.ordinal bound := by
  intro always
  have isBound : (mineProcedure (describe plainReadings) "stock of the style" [timedOut]).map
      (fun mined => (mined.tools, mined.steps.map fun step => (step.ordinal, step.bindings))) =
        some (["find_style", "find_stock"],
          [(0, []), (1, [{ argument := "style", sourceStep := some 0,
                           sourceField := some "style" }])]) := by
    decide +kernel
  obtain ⟨mined, isMined, isSame⟩ := Option.map_eq_some_iff.mp isBound
  rw [Prod.mk.injEq] at isSame
  have isLast : mined.steps.getLast?.map (fun step => (step.ordinal, step.bindings)) =
      some (1, [{ argument := "style", sourceStep := some 0, sourceField := some "style" }]) := by
    rw [← getLast?_map, isSame.2]
    rfl
  obtain ⟨step, isStep, isPair⟩ := Option.map_eq_some_iff.mp isLast
  rw [Prod.mk.injEq] at isPair
  have isBacked := always mined isMined step (mem_of_getLast? isStep) _
    (isPair.2 ▸ mem_singleton_self _)
  obtain ⟨run, isRun, -, target, value, call, -, -, isCall, worked, -⟩ :=
    isBacked.flowed 0 rfl "style" rfl
  have isOnly : run = timedOut := mem_singleton.mp (mem_of_mem_filter isRun)
  have failed : (timedOut.distinctSteps[0]?).all fun call => !call.succeeded := by decide +kernel
  rw [isOnly] at isCall
  rw [isCall, Option.all_some, worked] at failed
  cases failed

end MemoryService.Tools
