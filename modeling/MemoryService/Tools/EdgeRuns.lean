import MemoryService.Foundation.LastSaid
import MemoryService.Tools.Edges

/-!
# The edges of all runs

What `accumulate` has of an edge is a fold over the runs that have the edge, each of them once.
-/

namespace MemoryService.Tools

open Domain Foundation List

variable {α : Type} {values others : List ℚ}

theorem get?_update (out more : Dict String α) (key : String) :
    (update out more).get? key = (more.get? key).or (out.get? key) := by
  have inTurn : ∀ entries : List (String × α), (entries.map Prod.fst).Nodup →
      (entries.foldl (fun out entry => out.set entry.1 entry.2) out).get? key =
        ((entries.find? fun entry => entry.1 = key).map Prod.snd).or (out.get? key) := by
    intro entries distinct
    induction entries using List.reverseRecOn with
    | nil => rfl
    | append_singleton entries entry ih =>
      rw [map_append, nodup_append] at distinct
      rw [foldl_concat, find?_append]
      by_cases isKey : entry.1 = key
      · have notBefore : (entries.find? fun entry => entry.1 = key) = none := by
          rw [find?_eq_none]
          intro other isEarlier same
          exact distinct.2.2 other.1 (mem_map_of_mem isEarlier) entry.1 (by simp)
            ((of_decide_eq_true same).trans isKey.symm)
        rw [← isKey, Dict.get?_set_self]
        rw [isKey, notBefore]
        simp [isKey]
      · rw [Dict.get?_set_other _ _ (Ne.symm isKey), ih distinct.1]
        simp [isKey]
  exact inTurn more.items more.distinct

theorem get?_failureModes (edges : List EdgeSupport) (error : String) :
    (failureModes edges).get? error =
      edges.reverse.findSome? fun edge => edge.failureModes.get? error := by
  induction edges using List.reverseRecOn with
  | nil => rfl
  | append_singleton edges edge ih =>
    rw [failureModes] at ih ⊢
    rw [foldl_concat, get?_update, ih, reverse_concat, findSome?_cons]
    cases edge.failureModes.get? error <;> rfl

section Counted

variable (readings : Readings)

/-- What is read off the call that an edge leads to. -/
def targetField {α : Type} (field : ToolInvocation → Option α) (seen : Trajectory × ChainEdge) :
    Option α :=
  (targetOf seen.1 seen.2).bind field

/-- The call that the edge leads to and its run came to a good end. -/
def wellDone (seen : Trajectory × ChainEdge) : Bool :=
  (targetOf seen.1 seen.2).any fun target => target.succeeded && seen.1.succeeded

def fixTold (error : String) (seen : Trajectory × ChainEdge) : Option String :=
  ((targetOf seen.1 seen.2).bind (fixOf seen.1)).bind fun fix =>
    if fix.1 = error then some fix.2 else none

variable {readings} (entry : EdgeSupport) (seen : List (Trajectory × ChainEdge))

theorem counted_signature : (seen.foldl (counted readings) entry).signature = entry.signature := by
  induction seen using List.reverseRecOn with
  | nil => rfl
  | append_singleton seen next ih =>
    rw [foldl_concat, ← ih, counted]
    cases targetOf next.1 next.2 <;> rfl

theorem counted_support :
    (seen.foldl (counted readings) entry).support = entry.support + seen.length := by
  induction seen using List.reverseRecOn with
  | nil => rfl
  | append_singleton seen next ih =>
    rw [foldl_concat, length_append, ← Nat.add_assoc, ← ih, counted]
    cases targetOf next.1 next.2 <;> rfl

theorem counted_successes :
    (seen.foldl (counted readings) entry).successes = entry.successes + seen.countP wellDone := by
  induction seen using List.reverseRecOn with
  | nil => rfl
  | append_singleton seen next ih =>
    rw [foldl_concat, countP_append, ← Nat.add_assoc, ← ih, counted]
    cases found : targetOf next.1 next.2 with
    | none => simp [wellDone, found]
    | some target =>
      by_cases isDone : target.succeeded ∧ next.1.succeeded <;> simp [wellDone, found, isDone]

theorem counted_latencies :
    (seen.foldl (counted readings) entry).latencies =
      entry.latencies ++ seen.filterMap (targetField readings.latencyMs) := by
  induction seen using List.reverseRecOn with
  | nil => simp
  | append_singleton seen next ih =>
    rw [foldl_concat, filterMap_append, ← append_assoc, ← ih, counted]
    cases found : targetOf next.1 next.2 with
    | none => simp [targetField, found]
    | some target => cases read : readings.latencyMs target <;> simp [targetField, found, read]

theorem counted_costs :
    (seen.foldl (counted readings) entry).costs =
      entry.costs ++ seen.filterMap (targetField readings.cost) := by
  induction seen using List.reverseRecOn with
  | nil => simp
  | append_singleton seen next ih =>
    rw [foldl_concat, filterMap_append, ← append_assoc, ← ih, counted]
    cases found : targetOf next.1 next.2 with
    | none => simp [targetField, found]
    | some target => cases read : readings.cost target <;> simp [targetField, found, read]

theorem counted_failureModes (error : String) :
    (seen.foldl (counted readings) entry).failureModes.get? error =
      (seen.reverse.findSome? (fixTold error)).or (entry.failureModes.get? error) := by
  induction seen using List.reverseRecOn with
  | nil => rfl
  | append_singleton seen next ih =>
    rw [foldl_concat, reverse_concat, findSome?_cons, counted]
    cases found : targetOf next.1 next.2 with
    | none => simpa [fixTold, found] using ih
    | some target =>
      cases isFix : fixOf next.1 target with
      | none => simpa [fixTold, found, isFix] using ih
      | some fix =>
        by_cases isError : fix.1 = error
        · simp [fixTold, found, isFix, ← isError, Dict.get?_set_self]
        · simpa [fixTold, found, isFix, isError, Dict.get?_set_other _ _ (Ne.symm isError)] using ih

end Counted

section Signatures

variable {readings : Readings} {trajectories others : List Trajectory}

variable (readings) in
def signatures (trajectory : Trajectory) : List Signature :=
  (mineEdges readings trajectory).map ChainEdge.toSignature

variable (readings) in
def seenOf (trajectories : List Trajectory) (signature : Signature) :
    List (Trajectory × ChainEdge) :=
  (seenEdges readings trajectories).filter fun seen => seen.2.toSignature = signature

theorem signatures_nodup (trajectory : Trajectory) : (signatures readings trajectory).Nodup :=
  keys_firstSeen_nodup ChainEdge.toSignature _

theorem keys_accumulate (trajectories : List Trajectory) :
    (accumulate readings trajectories).keys =
      firstSeen id (trajectories.flatMap (signatures readings)) := by
  rw [accumulate, keys_gathered, seenEdges, map_flatMap]
  simp only [map_map, Function.comp_def]
  rfl

theorem get?_accumulate (trajectories : List Trajectory) (signature : Signature) :
    (accumulate readings trajectories).get? signature =
      if seenOf readings trajectories signature = [] then none
      else
        some
          ((seenOf readings trajectories signature).foldl (counted readings) { signature }) := by
  rw [accumulate, get?_gathered]
  rw [← seenOf]
  cases isSeen : seenOf readings trajectories signature with
  | nil => rfl
  | cons first rest =>
    have isFirst : first ∈ seenOf readings trajectories signature := by simp [isSeen]
    have isKey : first.2.toSignature = signature := by
      simpa using (mem_filter.mp isFirst).2
    simp [combined, isKey]

theorem map_relevant (stat : EdgeSupport → α) (previous tool : String) :
    (relevant readings trajectories previous tool).map stat =
      ((accumulate readings trajectories).keys.filter fun signature =>
        signature.sourceTool = previous ∧ signature.targetTool = tool).filterMap fun signature =>
          ((accumulate readings trajectories).get? signature).map stat := by
  rw [relevant, Dict.items_eq, filter_filterMap, map_filterMap, filterMap_filter]
  apply filterMap_congr
  intro signature _
  rw [get?_accumulate]
  split
  · simp
  · simp [counted_signature, Option.filter]

theorem filter_edges (trajectory : Trajectory) (signature : Signature) :
    ((mineEdges readings trajectory).filter fun edge => edge.toSignature = signature) =
      ((mineEdges readings trajectory).find? fun edge => edge.toSignature = signature).toList := by
  have distinct : ((mineEdges readings trajectory).map ChainEdge.toSignature).Nodup :=
    signatures_nodup trajectory
  revert distinct
  induction mineEdges readings trajectory with
  | nil => exact fun _ => rfl
  | cons edge rest ih =>
    intro distinct
    rw [map_cons, nodup_cons] at distinct
    by_cases isIt : edge.toSignature = signature
    · have noMore : (rest.filter fun edge => edge.toSignature = signature) = [] := by
        rw [filter_eq_nil_iff]
        intro other member same
        apply distinct.1
        rw [isIt, ← of_decide_eq_true same]
        exact mem_map_of_mem member
      simp [isIt, noMore]
    · simpa [isIt] using ih distinct.2

theorem findSome?_seenOf (trajectories : List Trajectory) (signature : Signature)
    (told : Trajectory × ChainEdge → Option α) :
    (seenOf readings trajectories signature).reverse.findSome? told =
      trajectories.reverse.findSome? fun trajectory =>
        ((mineEdges readings trajectory).find? fun edge => edge.toSignature = signature).bind
          fun edge => told (trajectory, edge) := by
  induction trajectories using List.reverseRecOn with
  | nil => rfl
  | append_singleton trajectories last ih =>
    have isLast : seenOf readings (trajectories ++ [last]) signature =
        seenOf readings trajectories signature ++ ((mineEdges readings last).find? fun edge =>
            edge.toSignature = signature).toList.map fun edge => (last, edge) := by
      rw [← filter_edges]
      simp [seenOf, seenEdges, filter_map, Function.comp_def]
    rw [isLast, reverse_append, findSome?_append, ih, reverse_concat, findSome?_cons]
    cases (mineEdges readings last).find? fun edge => edge.toSignature = signature with
    | none => simp
    | some edge => cases isTold : told (last, edge) <;> simp [isTold]

theorem seenOf_perm (isPerm : trajectories.Perm others) (signature : Signature) :
    (seenOf readings trajectories signature).Perm (seenOf readings others signature) :=
  (isPerm.flatMap_right _).filter _

theorem map_relevant_perm {stat : EdgeSupport → α}
    (orderFree : ∀ signature (seen again : List (Trajectory × ChainEdge)), seen.Perm again →
      stat (seen.foldl (counted readings) { signature }) =
        stat (again.foldl (counted readings) { signature }))
    (isPerm : trajectories.Perm others) (previous tool : String) :
    ((relevant readings trajectories previous tool).map stat).Perm
      ((relevant readings others previous tool).map stat) := by
  have same : ∀ signature, ((accumulate readings trajectories).get? signature).map stat =
      ((accumulate readings others).get? signature).map stat := by
    intro signature
    have isSeen : (seenOf readings trajectories signature).Perm
        (seenOf readings others signature) :=
      seenOf_perm isPerm signature
    have sameNone : seenOf readings trajectories signature = [] ↔
        seenOf readings others signature = [] := by
      rw [← length_eq_zero_iff, ← length_eq_zero_iff, isSeen.length_eq]
    rw [get?_accumulate, get?_accumulate]
    by_cases isNone : seenOf readings others signature = []
    · rw [if_pos isNone, if_pos (sameNone.mpr isNone)]
    · rw [if_neg isNone, if_neg (isNone ∘ sameNone.mp), Option.map_some, Option.map_some,
        orderFree signature _ _ isSeen]
  rw [map_relevant, map_relevant]
  simp only [same]
  have sameKeys : (accumulate readings trajectories).keys.Perm (accumulate readings others).keys :=
    keys_gathered_perm (isPerm.flatMap_right _)
  exact (sameKeys.filter _).filterMap _

end Signatures

section Statistics

theorem median_perm (isPerm : values.Perm others) : median values = median others := by
  have sorts : ∀ list : List ℚ,
      (list.mergeSort fun first second => first ≤ second).Pairwise (· ≤ ·) := by
    intro list
    have isSorted : (list.mergeSort fun first second => first ≤ second).Pairwise
        fun first second => decide (first ≤ second) = true :=
      pairwise_mergeSort
        (fun a b c less isLess => decide_eq_true
          ((of_decide_eq_true less).trans (of_decide_eq_true isLess)))
        (fun a b => by simpa using le_total a b) list
    simpa using isSorted
  have same : values.mergeSort (fun first second => first ≤ second) =
      others.mergeSort fun first second => first ≤ second :=
    (((mergeSort_perm _ _).trans isPerm).trans
      (mergeSort_perm _ _).symm).eq_of_pairwise' (sorts values) (sorts others)
  rw [median, median, same]

theorem leastOf_perm (isPerm : values.Perm others) : leastOf values = leastOf others := by
  apply isPerm.foldr_eq'
  intro first _ second _ found
  cases found with
  | none => simp [min_comm]
  | some least => simp [min_left_comm]

variable (readings : Readings) {trajectories others : List Trajectory}
  (isPerm : trajectories.Perm others) (previous tool : String)
include isPerm

theorem supports_perm :
    ((relevant readings trajectories previous tool).map EdgeSupport.support).Perm
      ((relevant readings others previous tool).map EdgeSupport.support) := by
  apply map_relevant_perm _ isPerm
  intro signature seen again isSeen
  rw [counted_support, counted_support, isSeen.length_eq]

theorem success_rates_perm :
    ((relevant readings trajectories previous tool).map EdgeSupport.successRate).Perm
      ((relevant readings others previous tool).map EdgeSupport.successRate) := by
  apply map_relevant_perm _ isPerm
  intro signature seen again isSeen
  rw [EdgeSupport.successRate, EdgeSupport.successRate, counted_support, counted_support,
    counted_successes, counted_successes, isSeen.length_eq, isSeen.countP_eq]

theorem median_latencies_perm :
    ((relevant readings trajectories previous tool).map fun e => median e.latencies).Perm
      ((relevant readings others previous tool).map fun e => median e.latencies) := by
  apply map_relevant_perm _ isPerm
  intro signature seen again isSeen
  rw [counted_latencies, counted_latencies]
  exact median_perm ((isSeen.filterMap _).append_left _)

theorem median_costs_perm :
    ((relevant readings trajectories previous tool).map fun e => median e.costs).Perm
      ((relevant readings others previous tool).map fun e => median e.costs) := by
  apply map_relevant_perm _ isPerm
  intro signature seen again isSeen
  rw [counted_costs, counted_costs]
  exact median_perm ((isSeen.filterMap _).append_left _)

end Statistics

section Fixes

variable (readings : Readings)

def fixOfStep (previous tool error : String) (trajectory : Trajectory)
    (signature : Signature) : Option String :=
  if signature.sourceTool = previous ∧ signature.targetTool = tool then
    ((mineEdges readings trajectory).find? fun edge => edge.toSignature = signature).bind
      fun edge => fixTold error (trajectory, edge)
  else none

variable {readings} (previous tool error : String)

theorem fixOfStep_named (trajectory : Trajectory) (signature : Signature)
    (isTold : (fixOfStep readings previous tool error trajectory signature).isSome) :
    signature ∈ signatures readings trajectory := by
  rw [fixOfStep] at isTold
  split at isTold
  case isFalse => cases isTold
  case isTrue =>
    cases found : (mineEdges readings trajectory).find? fun edge =>
        edge.toSignature = signature with
    | none =>
      rw [found] at isTold
      cases isTold
    | some edge =>
      have isIt : edge.toSignature = signature := by simpa using find?_some found
      rw [← isIt]
      exact mem_map_of_mem (mem_of_find?_eq_some found)

theorem get?_fix (trajectories : List Trajectory) (signature : Signature) :
    ((accumulate readings trajectories).get? signature).bind
        (fun edge => edge.failureModes.get? error) =
      (seenOf readings trajectories signature).reverse.findSome? (fixTold error) := by
  rw [get?_accumulate]
  split
  case isTrue isNone => simp [isNone]
  case isFalse =>
    rw [Option.bind_some, counted_failureModes]
    exact Option.or_none

theorem failureModes_eq_lastSaid (trajectories : List Trajectory) :
    (failureModes (relevant readings trajectories previous tool)).get? error =
      lastSaid (signatures readings) (fixOfStep readings previous tool error) trajectories := by
  have atKey : ∀ signature : Signature, (trajectories.reverse.findSome? fun trajectory =>
        fixOfStep readings previous tool error trajectory signature) =
          if signature.sourceTool = previous ∧ signature.targetTool = tool then
            ((accumulate readings trajectories).get? signature).bind
              fun edge => edge.failureModes.get? error
          else none := by
    intro signature
    split
    case isTrue isStep =>
      rw [get?_fix, findSome?_seenOf]
      simp only [fixOfStep, isStep, and_self, if_true]
    case isFalse notStep =>
      rw [findSome?_eq_none_iff]
      intro trajectory _
      rw [fixOfStep, if_neg notStep]
  have overEdges : (relevant readings trajectories previous tool).reverse.findSome?
      (fun edge => edge.failureModes.get? error) =
        ((relevant readings trajectories previous tool).map
          fun edge => edge.failureModes.get? error).reverse.findSome? id := by
    rw [← map_reverse, findSome?_map]
    rfl
  rw [get?_failureModes, overEdges, map_relevant, keys_accumulate, lastSaid]
  simp only [atKey]
  induction firstSeen id (trajectories.flatMap (signatures readings)) using List.reverseRecOn with
  | nil => rfl
  | append_singleton earlier signature ih =>
    rw [filter_append, filterMap_append, reverse_append, findSome?_append,
      ih, reverse_concat, findSome?_cons]
    by_cases isStep : signature.sourceTool = previous ∧ signature.targetTool = tool
    · cases found : (accumulate readings trajectories).get? signature with
      | none => simp [isStep, found]
      | some edge =>
        cases isFix : edge.failureModes.get? error <;>
          simp [isStep, found, isFix]
    · simp [isStep]

end Fixes

end MemoryService.Tools
