import MemoryService.Tools.EdgeRuns
import MemoryService.Tools.PathOrder

/-!
# Procedures and the order of the runs

A procedure is mined from the runs of a pattern in the order in which they were read.
-/

namespace MemoryService.Tools

open Domain Foundation List

section First

variable {α β : Type} {list others : List α}

theorem head?_eq_of_agree (isPerm : list.Perm others)
    (agree : ∀ first ∈ list, ∀ second ∈ list, first = second) : list.head? = others.head? := by
  cases list with
  | nil => rw [isPerm.nil_eq]
  | cons first rest =>
    cases others with
    | nil => cases isPerm.eq_nil
    | cons other more =>
      have isIn : other ∈ first :: rest := isPerm.mem_iff.mpr mem_cons_self
      rw [head?_cons, head?_cons, agree first mem_cons_self other isIn]

theorem exists_head?_filterMap {read : α → Option β} {result : β}
    (isResult : result ∈ list.filterMap read) :
    ∃ others : List α, others.Perm list ∧ (others.filterMap read).head? = some result := by
  obtain ⟨item, isItem, isRead⟩ := mem_filterMap.mp isResult
  obtain ⟨before, after, rfl⟩ := append_of_mem isItem
  refine ⟨item :: (before ++ after), perm_middle.symm, ?_⟩
  rw [filterMap_cons_some isRead, head?_cons]

theorem length_eraseDups_perm [BEq α] [LawfulBEq α] (isPerm : list.Perm others) :
    list.eraseDups.length = others.eraseDups.length := by
  apply List.Perm.length_eq
  apply (perm_ext_iff_of_nodup (nodup_eraseDups _) (nodup_eraseDups _)).mpr
  intro item
  rw [mem_eraseDups, mem_eraseDups, isPerm.mem_iff]

theorem eq_of_length_eraseDups [BEq α] [LawfulBEq α] (single : list.eraseDups.length = 1) :
    ∀ first ∈ list, ∀ second ∈ list, first = second := by
  intro first isFirst second isSecond
  obtain ⟨only, isOnly⟩ := length_eq_one_iff.mp single
  have isFirst := mem_eraseDups.mpr isFirst
  have isSecond := mem_eraseDups.mpr isSecond
  rw [isOnly, mem_singleton] at isFirst isSecond
  rw [isFirst, isSecond]

end First

variable {tasks again : List (List String)} {others : List Scalar} {α : Type}
  {sequence : List String} {values : List Scalar} {path : String}

section Binding

variable {readings : Readings}

theorem constant_congr {first second : Scalar}
    (sameText : first.str = second.str) (isPerm : tasks.Perm again) :
    constant readings first tasks = constant readings second again := by
  simp only [constant, sameText, length_eraseDups_perm isPerm, isPerm.mem_iff]

theorem literal_perm (isPerm : values.Perm others) (areTasks : tasks.Perm again)
    (isLiteral : Literal readings values tasks) : Literal readings others again := by
  have single := isLiteral.1
  rw [length_eraseDups_perm (isPerm.map Scalar.str)] at single
  refine ⟨single, ?_⟩
  intro value isHead
  cases values with
  | nil =>
    rw [← isPerm.nil_eq] at isHead
    cases isHead
  | cons first rest =>
    have isConstant := isLiteral.2 first rfl
    have isIn := mem_map_of_mem (f := Scalar.str) (isPerm.mem_iff.mpr (mem_of_head? isHead))
    have sameText : first.str = value.str :=
      eq_of_length_eraseDups isLiteral.1 first.str (by simp) value.str isIn
    rw [← constant_congr sameText areTasks]
    exact isConstant

theorem literal_perm_iff (isPerm : values.Perm others) (areTasks : tasks.Perm again) :
    Literal readings values tasks ↔ Literal readings others again :=
  ⟨literal_perm isPerm areTasks, literal_perm isPerm.symm areTasks.symm⟩

variable (argument : String) {sources again : List (ℕ × String)} {values others : List Scalar}
  {tasks more : List (List String)}

theorem binding_perm (areSources : sources.Perm again) (areValues : values.Perm others)
    (areTasks : tasks.Perm more)
    (sourcesAgree : ∀ first ∈ sources, ∀ second ∈ sources, first = second)
    (valuesAgree : sources = [] → Literal readings values tasks →
      ∀ first ∈ values, ∀ second ∈ values, first = second) :
    binding readings argument sources values tasks =
      binding readings argument again others more := by
  rw [binding, binding, head?_eq_of_agree areSources sourcesAgree]
  cases isHead : again.head? with
  | some found => rfl
  | none =>
    have noSource : sources = [] := by
      rw [head?_eq_none_iff] at isHead
      rw [isHead] at areSources
      exact areSources.eq_nil
    simp only [← literal_perm_iff areValues areTasks]
    by_cases isLiteral : Literal readings values tasks
    · simp only [if_pos isLiteral]
      rw [head?_eq_of_agree areValues (valuesAgree noSource isLiteral)]
    · simp only [if_neg isLiteral]

theorem head?_sources_of_binding
    (same : binding readings argument sources values tasks =
      binding readings argument again others more) : sources.head? = again.head? := by
  cases isHead : sources.head? with
  | none => cases isOther : again.head? <;> simp [binding, isHead, isOther] at same ⊢
  | some found =>
    cases isOther : again.head? with
    | none => simp [binding, isHead, isOther] at same
    | some other =>
      simp only [binding, isHead, isOther, Binding.mk.injEq, Option.some.injEq] at same
      rw [Prod.ext same.2.1 same.2.2.1]

theorem head?_values_of_binding (noSource : sources = []) (noOther : again = [])
    (isLiteral : Literal readings values tasks) (isAlso : Literal readings others more)
    (same : binding readings argument sources values tasks =
      binding readings argument again others more) : values.head? = others.head? := by
  simpa [binding, noSource, noOther, isLiteral, isAlso] using same

end Binding

section Step

variable (readings : Readings) (trajectories : List Trajectory) (sequence : List String)
  (ordinal : ℕ)

/-- The runs that had an argument from somewhere had it from the same place; and where none had
it, the values that make a literal are the same and not only their texts. -/
structure BindingsAgree : Prop where
  sources : ∀ path,
    ∀ first ∈ trajectories.filterMap (foundSource readings sequence ordinal path),
      ∀ second ∈ trajectories.filterMap (foundSource readings sequence ordinal path), first = second
  literals : ∀ path,
    trajectories.filterMap (foundSource readings sequence ordinal path) = [] →
      Literal readings (trajectories.filterMap (observedValue sequence ordinal path))
        (trajectories.filterMap (observedTask readings sequence ordinal path)) →
      ∀ first ∈ trajectories.filterMap (observedValue sequence ordinal path),
        ∀ second ∈ trajectories.filterMap (observedValue sequence ordinal path), first = second

variable {readings trajectories sequence ordinal} {others : List Trajectory}

theorem observedPaths_perm (isPerm : trajectories.Perm others) :
    ordered (trajectories.flatMap (observedPaths sequence ordinal)) =
      ordered (others.flatMap (observedPaths sequence ordinal)) :=
  ordered_congr fun _ => (isPerm.flatMap_right _).mem_iff

theorem bindings_perm (agree : BindingsAgree readings trajectories sequence ordinal)
    (isPerm : trajectories.Perm others) :
    bindings readings ordinal sequence trajectories =
      bindings readings ordinal sequence others := by
  rw [bindings, bindings, observedPaths_perm isPerm]
  apply map_congr_left
  intro path _
  exact binding_perm path (isPerm.filterMap _) (isPerm.filterMap _) (isPerm.filterMap _)
    (agree.sources path) (agree.literals path)

theorem path_observed {value : Scalar}
    (isValue : value ∈ trajectories.filterMap (observedValue sequence ordinal path)) :
    path ∈ ordered (trajectories.flatMap (observedPaths sequence ordinal)) := by
  obtain ⟨run, isRun, isObserved⟩ := mem_filterMap.mp isValue
  obtain ⟨step, isStep, isGiven⟩ := Option.bind_eq_some_iff.mp isObserved
  rw [mem_ordered, mem_flatMap]
  refine ⟨run, isRun, ?_⟩
  rw [observedPaths, isStep]
  exact Dict.mem_keys_of_get? isGiven

theorem value_of_source {found : ℕ × String}
    (isSource : found ∈ trajectories.filterMap (foundSource readings sequence ordinal path)) :
    ∃ value, value ∈ trajectories.filterMap (observedValue sequence ordinal path) := by
  obtain ⟨run, isRun, isFound⟩ := mem_filterMap.mp isSource
  obtain ⟨value, isObserved, -⟩ := Option.bind_eq_some_iff.mp isFound
  exact ⟨value, mem_filterMap.mpr ⟨run, isRun, isObserved⟩⟩

theorem agree_of_bindings
    (same : ∀ others : List Trajectory, others.Perm trajectories →
      bindings readings ordinal sequence others = bindings readings ordinal sequence trajectories) :
    BindingsAgree readings trajectories sequence ordinal := by
  have atPath : ∀ path ∈ ordered (trajectories.flatMap (observedPaths sequence ordinal)),
      ∀ others : List Trajectory, others.Perm trajectories →
        binding readings path (others.filterMap (foundSource readings sequence ordinal path))
            (others.filterMap (observedValue sequence ordinal path))
            (others.filterMap (observedTask readings sequence ordinal path)) =
          binding readings path
            (trajectories.filterMap (foundSource readings sequence ordinal path))
            (trajectories.filterMap (observedValue sequence ordinal path))
            (trajectories.filterMap (observedTask readings sequence ordinal path)) := by
    intro path isPath others isPerm
    have sameHere := same others isPerm
    rw [bindings, bindings, observedPaths_perm isPerm] at sameHere
    exact map_inj_left.mp sameHere path isPath
  constructor
  case sources =>
    intro path
    have isHead : ∀ found ∈ trajectories.filterMap (foundSource readings sequence ordinal path),
        (trajectories.filterMap (foundSource readings sequence ordinal path)).head? =
          some found := by
      intro found isSource
      obtain ⟨value, isValue⟩ := value_of_source isSource
      obtain ⟨others, isPerm, isHead⟩ := exists_head?_filterMap isSource
      rw [← head?_sources_of_binding path (atPath path (path_observed isValue) others isPerm)]
      exact isHead
    intro first isFirst second isSecond
    exact Option.some.inj ((isHead first isFirst).symm.trans (isHead second isSecond))
  case literals =>
    intro path noSource isLiteral
    have isHead : ∀ value ∈ trajectories.filterMap (observedValue sequence ordinal path),
        (trajectories.filterMap (observedValue sequence ordinal path)).head? = some value := by
      intro value isValue
      obtain ⟨others, isPerm, isHead⟩ := exists_head?_filterMap isValue
      have noOther : others.filterMap (foundSource readings sequence ordinal path) = [] := by
        have sources := isPerm.filterMap (foundSource readings sequence ordinal path)
        rw [noSource] at sources
        exact sources.eq_nil
      have isAlso := literal_perm (isPerm.symm.filterMap _) (isPerm.symm.filterMap _) isLiteral
      rw [← head?_values_of_binding path noOther noSource isAlso isLiteral
        (atPath path (path_observed isValue) others isPerm)]
      exact isHead
    intro first isFirst second isSecond
    exact Option.some.inj ((isHead first isFirst).symm.trans (isHead second isSecond))

end Step

section Runs

variable {trajectories others : List Trajectory}

theorem successful_perm (isPerm : trajectories.Perm others) :
    (successful trajectories).Perm (successful others) :=
  isPerm.filter _

theorem no_successful_perm (isPerm : trajectories.Perm others) :
    successful trajectories = [] ↔ successful others = [] := by
  rw [← length_eq_zero_iff, (successful_perm isPerm).length_eq, length_eq_zero_iff]

theorem exists_successful (isPerm : others.Perm (successful trajectories)) :
    ∃ runs : List Trajectory, runs.Perm trajectories ∧ successful runs = others := by
  let keeps : Trajectory → Bool := fun t => t.succeeded ∧ t.steps ≠ []
  refine ⟨others ++ trajectories.filter fun t => !keeps t, ?_, ?_⟩
  · exact (isPerm.append_right _).trans (filter_append_perm keeps trajectories)
  · have areKept : ∀ run ∈ others, keeps run = true :=
      fun run isRun => (mem_filter.mp (isPerm.mem_iff.mp isRun)).2
    have noneLeft : (trajectories.filter fun t => !keeps t).filter keeps = [] := by
      simp [filter_filter]
    rw [successful, filter_append, noneLeft, append_nil]
    exact filter_eq_self.mpr areKept

theorem path_ne_nil {run : Trajectory} (hasSteps : run.steps ≠ []) : run.path ≠ [] := by
  have notNil : ∀ (out : List ToolInvocation) (call : ToolInvocation), retryStep out call ≠ [] := by
    intro out call
    rw [retryStep]
    cases isLast : out.getLast? with
    | none => simp
    | some last =>
      have isSome : out ≠ [] := by
        intro isNil
        rw [isNil] at isLast
        cases isLast
      by_cases sameTool : last.toolName = call.toolName <;>
        by_cases worked : call.succeeded || !last.succeeded <;> simp [sameTool, worked, isSome]
  rw [Trajectory.path, ne_eq, map_eq_nil_iff, Trajectory.distinctSteps]
  revert hasSteps
  cases run.steps using List.reverseRecOn with
  | nil => exact fun hasSteps => absurd rfl hasSteps
  | append_singleton earlier last =>
    intro _
    rw [foldl_concat]
    exact notNil _ last

theorem top_of_successful (isSome : successful trajectories ≠ []) :
    Top (successful trajectories) (bestSequence (successful trajectories)) := by
  obtain ⟨run, isRun⟩ := exists_mem_of_ne_nil _ isSome
  have hasSteps : run.steps ≠ [] := by
    have isKept := (mem_filter.mp isRun).2
    simp only [decide_eq_true_eq] at isKept
    exact isKept.2
  exact top_bestSequence (pathCounts_ne_nil isRun (path_ne_nil hasSteps))

theorem latest_perm {instants later : List Instant} (isPerm : instants.Perm later) :
    latest instants = latest later := by
  apply isPerm.foldl_eq'
  intro first _ second _ found
  cases found with
  | none => simp [max_comm]
  | some newest => simp [max_left_comm]

end Runs

section Notes

variable {readings : Readings} {trajectories others : List Trajectory}

theorem expectedOutput_perm {calls more : List ToolInvocation} (isPerm : calls.Perm more) :
    expectedOutput calls = expectedOutput more := by
  have kept := isPerm.filter fun s => s.succeeded ∧ s.outputFields ≠ []
  have every : ∀ path first (rest : List ToolInvocation),
      path ∈ (first.outputFields.map Prod.fst).filter
          (fun path => rest.all fun sample => path ∈ sample.outputFields.map Prod.fst) ↔
        ∀ sample ∈ first :: rest, path ∈ sample.outputFields.map Prod.fst := by
    intro path first rest
    simp
  rw [expectedOutput, expectedOutput]
  cases isHere : calls.filter fun s => s.succeeded ∧ s.outputFields ≠ [] with
  | nil =>
    rw [isHere] at kept
    rw [← kept.nil_eq]
  | cons first rest =>
    cases isThere : more.filter fun s => s.succeeded ∧ s.outputFields ≠ [] with
    | nil =>
      rw [isHere, isThere] at kept
      cases kept.eq_nil
    | cons other others =>
      rw [isHere, isThere] at kept
      apply ordered_congr
      intro path
      rw [every, every]
      simp only [kept.mem_iff]

theorem samples_perm (isPerm : trajectories.Perm others) (tool : String) :
    (samples trajectories tool).Perm (samples others tool) :=
  (successful_perm isPerm).flatMap_right _

variable (readings trajectories) in
def FixesAgree (previous tool : String) : Prop :=
  ∀ error first second,
    CanBeLast (signatures readings) (fixOfStep readings previous tool error) trajectories first →
    CanBeLast (signatures readings) (fixOfStep readings previous tool error) trajectories second →
      first = second

theorem fixes_agree_iff {previous tool : String} :
    FixesAgree readings trajectories previous tool ↔
      ∀ others : List Trajectory, others.Perm trajectories → ∀ error,
        (failureModes (relevant readings others previous tool)).get? error =
          (failureModes (relevant readings trajectories previous tool)).get? error := by
  simp only [failureModes_eq_lastSaid]
  constructor
  · intro agree others isPerm error
    exact (lastSaid_perm_iff (fixOfStep_named previous tool error)).mpr (agree error)
      others isPerm
  · intro same error
    exact (lastSaid_perm_iff (fixOfStep_named previous tool error)).mp
      fun others isPerm => same others isPerm error

theorem foldr_max_perm [LinearOrder α] {values more : List α} (isPerm : values.Perm more)
    (zero : α) : values.foldr max zero = more.foldr max zero :=
  isPerm.foldr_eq' (fun first _ second _ found => max_left_comm second first found) zero

theorem edgesTo_perm {stat : EdgeSupport → α}
    (orderFree : ∀ previous tool, ((relevant readings others previous tool).map stat).Perm
      ((relevant readings trajectories previous tool).map stat)) (sequence : List String)
    (ordinal : ℕ) : ((edgesTo readings others sequence ordinal).map stat).Perm
      ((edgesTo readings trajectories sequence ordinal).map stat) := by
  rw [edgesTo, edgesTo]
  split
  · exact List.Perm.refl _
  · exact orderFree _ _

theorem stepNotes_perm (isPerm : others.Perm trajectories) (sequence : List String) (ordinal : ℕ) :
    stepNotes readings others sequence ordinal =
      { stepNotes readings trajectories sequence ordinal with
        failureModes := (stepNotes readings others sequence ordinal).failureModes } := by
  have calls := samples_perm isPerm (sequence.getD ordinal "")
  have noCalls : samples others (sequence.getD ordinal "") = [] ↔
      samples trajectories (sequence.getD ordinal "") = [] := by
    rw [← length_eq_zero_iff, calls.length_eq, length_eq_zero_iff]
  have supports := edgesTo_perm (supports_perm readings isPerm) sequence ordinal
  have rates := edgesTo_perm (success_rates_perm readings isPerm) sequence ordinal
  have latencies := edgesTo_perm (median_latencies_perm readings isPerm) sequence ordinal
  have costs := edgesTo_perm (median_costs_perm readings isPerm) sequence ordinal
  have leastLatency := leastOf_perm (latencies.filterMap id)
  have leastCost := leastOf_perm (costs.filterMap id)
  simp only [filterMap_map, Function.id_comp] at leastLatency leastCost
  simp only [stepNotes, foldr_max_perm supports, foldr_max_perm rates, noCalls, calls.length_eq,
    calls.countP_eq, expectedOutput_perm calls, leastLatency, leastCost]

/-- At a step that has edges to it, only one fix of each error can be the last. -/
def FixesAgreeAt (readings : Readings) (trajectories : List Trajectory) (sequence : List String)
    (ordinal : ℕ) : Prop :=
  ordinal ≠ 0 →
    FixesAgree readings trajectories (sequence.getD (ordinal - 1) "") (sequence.getD ordinal "")

theorem fixes_agree_at_iff {ordinal : ℕ} :
    FixesAgreeAt readings trajectories sequence ordinal ↔
      ∀ others : List Trajectory, others.Perm trajectories →
        stepNotes readings others sequence ordinal =
          stepNotes readings trajectories sequence ordinal := by
  have onlyFixes : (∀ others : List Trajectory, others.Perm trajectories →
      stepNotes readings others sequence ordinal =
        stepNotes readings trajectories sequence ordinal) ↔
      ∀ others : List Trajectory, others.Perm trajectories → ∀ error,
        (failureModes (edgesTo readings others sequence ordinal)).get? error =
          (failureModes (edgesTo readings trajectories sequence ordinal)).get? error := by
    refine forall₂_congr fun others isPerm => ?_
    constructor
    · intro same error
      exact congrFun (congrArg StepNotes.failureModes same) error
    · intro same
      rw [stepNotes_perm isPerm]
      have fixes : (stepNotes readings others sequence ordinal).failureModes =
          (stepNotes readings trajectories sequence ordinal).failureModes := funext same
      rw [fixes]
  rw [onlyFixes, FixesAgreeAt]
  by_cases isFirst : ordinal = 0
  · simp [isFirst, edgesTo]
  · simp only [ne_eq, isFirst, not_false_eq_true, true_imp_iff, fixes_agree_iff, edgesTo, if_false]

end Notes

section Mined

variable (readings : Readings) (pattern : String) (trajectories : List Trajectory)

/-- What is mined is the same in every order of the runs. -/
def OrderFree : Prop :=
  ∀ others : List Trajectory, others.Perm trajectories →
    mineProcedure (describe readings) pattern others =
      mineProcedure (describe readings) pattern trajectories

def RunsAgree : Prop :=
  successful trajectories = [] ∨
    ∃ path, (∀ other, Top (successful trajectories) other ↔ other = path) ∧
      ∀ ordinal < path.length,
        BindingsAgree readings (successful trajectories) path ordinal ∧
          FixesAgreeAt readings trajectories path ordinal

def procedureOf (sequence : List String) : Procedure StepNotes :=
  let matching := (successful trajectories).filter fun t => t.follows sequence
  let total := trajectories.filter fun t => t.follows sequence
  { taskPattern := pattern
    steps := sequence.mapIdx fun ordinal tool =>
      { ordinal, tool
        bindings := bindings readings ordinal sequence (successful trajectories)
        notes := stepNotes readings trajectories sequence ordinal }
    support := matching.length
    successRate := if total = [] then 0 else Binary64.round (matching.length / total.length)
    lastUsedAt := latest (total.flatMap fun t => t.steps.map ToolInvocation.occurredAt) }

variable {readings pattern trajectories} {others : List Trajectory}

theorem mineProcedure_of_successful (isSome : successful trajectories ≠ []) :
    mineProcedure (describe readings) pattern trajectories =
      some (procedureOf readings pattern trajectories
        (bestSequence (successful trajectories))) := by
  rw [mineProcedure, if_neg isSome]
  dsimp only
  rw [if_neg (top_of_successful isSome).ne_nil]
  rfl

theorem tools_procedureOf (sequence : List String) :
    (procedureOf readings pattern trajectories sequence).tools = sequence := by
  apply ext_getElem?
  intro place
  cases found : sequence[place]? <;> simp [Procedure.tools, procedureOf, found]

theorem procedureOf_perm (isPerm : others.Perm trajectories) (sequence : List String) :
    procedureOf readings pattern others sequence =
      { procedureOf readings pattern trajectories sequence with
        steps := (procedureOf readings pattern others sequence).steps } := by
  have matching := (successful_perm isPerm).filter fun t => t.follows sequence
  have total := isPerm.filter fun t => t.follows sequence
  have noTotal : (others.filter fun t => t.follows sequence) = [] ↔
      (trajectories.filter fun t => t.follows sequence) = [] := by
    rw [← length_eq_zero_iff, total.length_eq, length_eq_zero_iff]
  have lastUsed := latest_perm (total.flatMap_right fun t => t.steps.map ToolInvocation.occurredAt)
  simp only [procedureOf, matching.length_eq, total.length_eq, if_congr noTotal, lastUsed]

theorem procedureOf_perm_iff (isPerm : others.Perm trajectories) :
    procedureOf readings pattern others sequence =
        procedureOf readings pattern trajectories sequence ↔
      ∀ ordinal < sequence.length,
        bindings readings ordinal sequence (successful others) =
            bindings readings ordinal sequence (successful trajectories) ∧
          stepNotes readings others sequence ordinal =
            stepNotes readings trajectories sequence ordinal := by
  constructor
  · intro same ordinal isWithin
    have atPlace := congrArg (fun mined => mined.steps[ordinal]?) same
    simpa [procedureOf, getElem?_eq_getElem isWithin] using atPlace
  · intro same
    have steps : (procedureOf readings pattern others sequence).steps =
        (procedureOf readings pattern trajectories sequence).steps := by
      apply mapIdx_eq_mapIdx_iff.mpr
      intro ordinal isWithin
      rw [(same ordinal isWithin).1, (same ordinal isWithin).2]
    rw [procedureOf_perm isPerm, steps]

theorem procedures_same_iff :
    (∀ others : List Trajectory, others.Perm trajectories →
        procedureOf readings pattern others sequence =
          procedureOf readings pattern trajectories sequence) ↔
      ∀ ordinal < sequence.length,
        BindingsAgree readings (successful trajectories) sequence ordinal ∧
          FixesAgreeAt readings trajectories sequence ordinal := by
  constructor
  · intro same ordinal isWithin
    constructor
    · apply agree_of_bindings
      intro runs isPerm
      obtain ⟨others, areOthers, rfl⟩ := exists_successful isPerm
      exact ((procedureOf_perm_iff areOthers).mp (same others areOthers) ordinal isWithin).1
    · rw [fixes_agree_at_iff]
      intro others isPerm
      exact ((procedureOf_perm_iff isPerm).mp (same others isPerm) ordinal isWithin).2
  · intro agree others isPerm
    rw [procedureOf_perm_iff isPerm]
    intro ordinal isWithin
    obtain ⟨areBindings, areFixes⟩ := agree ordinal isWithin
    exact ⟨(bindings_perm areBindings (successful_perm isPerm.symm)).symm,
      fixes_agree_at_iff.mp areFixes others isPerm⟩

theorem orderFree_of_none (isNone : successful trajectories = []) :
    OrderFree readings pattern trajectories := by
  intro others isPerm
  have othersNone := (no_successful_perm isPerm).mpr isNone
  rw [mineProcedure, mineProcedure, if_pos isNone, if_pos othersNone]

theorem best_of_only_top {path : List String} (isSome : successful trajectories ≠ [])
    (isOnly : ∀ other, Top (successful trajectories) other ↔ other = path)
    (isPerm : others.Perm trajectories) : bestSequence (successful others) = path := by
  have othersSome : successful others ≠ [] := isSome ∘ (no_successful_perm isPerm).mp
  rw [← isOnly, ← top_perm (successful_perm isPerm)]
  exact top_of_successful othersSome

theorem OrderFree.only_top (isFree : OrderFree readings pattern trajectories)
    (isSome : successful trajectories ≠ []) (other : List String) :
    Top (successful trajectories) other ↔ other = bestSequence (successful trajectories) := by
  constructor
  · intro isTop
    obtain ⟨runs, isPerm, isBest⟩ := exists_best_of_top isTop
    obtain ⟨others, areOthers, rfl⟩ := exists_successful isPerm
    have same := isFree others areOthers
    have othersSome : successful others ≠ [] := isSome ∘ (no_successful_perm areOthers).mp
    rw [mineProcedure_of_successful othersSome, mineProcedure_of_successful isSome,
      Option.some.injEq] at same
    have tools := congrArg Procedure.tools same
    rw [tools_procedureOf, tools_procedureOf, isBest] at tools
    exact tools
  · intro isBest
    rw [isBest]
    exact top_of_successful isSome

theorem orderFree_iff_of_only_top {path : List String} (isSome : successful trajectories ≠ [])
    (isOnly : ∀ other, Top (successful trajectories) other ↔ other = path) :
    OrderFree readings pattern trajectories ↔
      ∀ others : List Trajectory, others.Perm trajectories →
        procedureOf readings pattern others path =
          procedureOf readings pattern trajectories path := by
  refine forall₂_congr fun others isPerm => ?_
  have othersSome : successful others ≠ [] := isSome ∘ (no_successful_perm isPerm).mp
  rw [mineProcedure_of_successful othersSome, mineProcedure_of_successful isSome,
    best_of_only_top isSome isOnly isPerm, best_of_only_top isSome isOnly (List.Perm.refl _),
    Option.some.injEq]

/-- What is mined is the same in every order of the runs just when the runs agree. -/
theorem mined_in_every_order_iff (readings : Readings) (pattern : String)
    (trajectories : List Trajectory) :
    OrderFree readings pattern trajectories ↔ RunsAgree readings trajectories := by
  by_cases isSome : successful trajectories = []
  · exact iff_of_true (orderFree_of_none isSome) (.inl isSome)
  · constructor
    · intro isFree
      have isOnly := isFree.only_top isSome
      refine .inr ⟨_, isOnly, ?_⟩
      exact procedures_same_iff.mp ((orderFree_iff_of_only_top isSome isOnly).mp isFree)
    · intro agree
      obtain ⟨path, isOnly, atStep⟩ := agree.resolve_left isSome
      exact (orderFree_iff_of_only_top isSome isOnly).mpr (procedures_same_iff.mpr atStep)

end Mined

def plainReadings : Readings where
  general number := number.word
  casefold text := text.map Char.toLower
  taskSlots _ := []
  latencyMs _ := none
  cost _ := none

def goodCall (runId toolName : String) (step : ℕ) : ToolInvocation where
  invocationId := runId ++ "/" ++ toString step
  tenantId := "acme"
  toolId := toolName
  toolName
  runId := some runId
  step
  argsHash := ⟨"7d", by decide⟩
  task := "find a flight"
  taskPattern := some "find a flight"
  occurredAt := ⟨step⟩

def searchThen (runId toolName : String) : Trajectory :=
  buildTrajectory runId [goodCall runId "search" 1, goodCall runId toolName 2] true

def booked : List Trajectory := [searchThen "r_1" "book", searchThen "r_2" "book"]

def mailed : List Trajectory := [searchThen "r_3" "mail", searchThen "r_4" "mail"]

theorem tie_keeps_the_first_met :
    ¬∀ (readings : Readings) (pattern : String) (trajectories : List Trajectory),
      OrderFree readings pattern trajectories := by
  intro always
  have same := always plainReadings "find a flight" (booked ++ mailed) (mailed ++ booked)
    perm_append_comm
  have bookFirst : bestSequence (successful (booked ++ mailed)) = ["search", "book"] := by
    decide +kernel
  have mailFirst : bestSequence (successful (mailed ++ booked)) = ["search", "mail"] := by
    decide +kernel
  rw [mineProcedure_of_successful (by decide +kernel),
    mineProcedure_of_successful (by decide +kernel), bookFirst, mailFirst,
    Option.some.injEq] at same
  have tools := congrArg Procedure.tools same
  rw [tools_procedureOf, tools_procedureOf] at tools
  revert tools
  decide

end MemoryService.Tools
