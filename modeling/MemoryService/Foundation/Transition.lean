import Mathlib.Data.List.Basic

/-!
# Guarded transition systems

A system is a partial step function: `step state action` is the state after one atomic action, or
`none` where the action is not enabled. A run is a list of actions.
-/

namespace MemoryService.Foundation

open Option List

universe u v w

section Runs

variable {State : Type u} {Action : Type v} (step : State → Action → Option State)

/-- The state after a list of actions, `none` when one of them is not enabled. -/
def run : State → List Action → Option State
  | state, [] => some state
  | state, action :: later =>
    match step state action with
    | some next => run next later
    | none => none

/-- Every step of the run is admitted by `guard` in the state it is taken in. -/
def Meets (guard : State → Action → Prop) : State → List Action → Prop
  | _, [] => True
  | state, action :: later =>
    guard state action ∧
      match step state action with
      | some next => Meets guard next later
      | none => True

instance decidableMeets
    (guard : State → Action → Prop)
    [∀ state action, Decidable (guard state action)] :
    ∀ (state : State) (actions : List Action), Decidable (Meets step guard state actions)
  | _, [] => .isTrue trivial
  | state, action :: later => by
    unfold Meets
    cases step state action with
    | none => exact inferInstance
    | some next =>
      have := decidableMeets guard next later
      exact inferInstance

@[simp]
theorem run_nil (state : State) : run step state [] = some state := rfl

theorem run_cons (state : State) (action : Action) (later : List Action) :
    run step state (action :: later) =
      (step state action).bind fun next => run step next later := by
  rw [run]
  cases step state action <;> rfl

theorem run_append (first second : List Action) :
    ∀ state : State,
      run step state (first ++ second) =
        (run step state first).bind fun middle => run step middle second := by
  induction first with
  | nil => intro state; rfl
  | cons action later ih =>
    intro state
    rw [cons_append, run_cons, run_cons, bind_assoc]
    cases step state action with
    | none => rfl
    | some next => exact ih next

variable {step}

theorem run_cons_eq_some {state target : State} {action : Action} {later : List Action}
    (reached : run step state (action :: later) = some target) :
    ∃ next, step state action = some next ∧ run step next later = some target := by
  rw [run_cons] at reached
  exact bind_eq_some_iff.mp reached

theorem not_always_of_run
    {Good : State → Prop} [DecidablePred Good] {start : State} (actions : List Action)
    (ends : (run step start actions).map (fun state => decide (Good state)) = some false) :
    ¬∀ actions state, run step start actions = some state → Good state := by
  intro always
  obtain ⟨state, reached, bad⟩ := map_eq_some_iff.mp ends
  exact of_decide_eq_false bad (always actions state reached)

/-- The run is enabled, it ends in a state that shows this, and what holds of all it reaches
holds of that state. -/
theorem exists_run_showing {Shown : Type w} {shows : State → Shown} {shown : Shown}
    {Holds : State → Prop} {start : State} {actions : List Action}
    (ends : (run step start actions).map shows = some shown)
    (holds : ∀ state, run step start actions = some state → Holds state) :
    ∃ state, run step start actions = some state ∧ shows state = shown ∧ Holds state := by
  obtain ⟨state, reached, isShown⟩ := map_eq_some_iff.mp ends
  exact ⟨state, reached, isShown, holds state reached⟩

theorem exists_run {Holds : State → Prop} {start : State} {actions : List Action}
    (enabled : (run step start actions).isSome = true)
    (holds : ∀ state, run step start actions = some state → Holds state) :
    ∃ state, run step start actions = some state ∧ Holds state := by
  obtain ⟨state, reached⟩ := isSome_iff_exists.mp enabled
  exact ⟨state, reached, holds state reached⟩

variable {Inv : State → Prop} {guard : State → Action → Prop}

theorem run_invariant_of_meets (preserved :
      ∀ {state next : State} {action : Action},
        step state action = some next → guard state action → Inv state → Inv next) :
    ∀ {actions : List Action} {state target : State},
      run step state actions = some target → Meets step guard state actions → Inv state → Inv target
  | [], state, target, reached, _, start => by
    cases reached
    exact start
  | action :: later, state, target, reached, meets, start => by
    obtain ⟨next, stepped, rest⟩ := run_cons_eq_some reached
    obtain ⟨admitted, laterMeets⟩ := meets
    rw [stepped] at laterMeets
    exact run_invariant_of_meets preserved rest laterMeets (preserved stepped admitted start)

theorem meets_of_forall :
    ∀ {actions : List Action} {state : State},
      (∀ action ∈ actions, ∀ state, guard state action) → Meets step guard state actions
  | [], _, _ => trivial
  | action :: later, state, admitted => by
    refine ⟨admitted action mem_cons_self state, ?_⟩
    cases step state action with
    | none => trivial
    | some next =>
      exact meets_of_forall fun other isLater => admitted other (mem_cons_of_mem action isLater)

theorem run_invariant (preserved :
      ∀ {state next : State} {action : Action},
        step state action = some next → Inv state → Inv next)
    {actions : List Action} {state target : State}
    (reached : run step state actions = some target) (start : Inv state) : Inv target :=
  have meets : Meets step (fun _ _ => True) state actions := meets_of_forall fun _ _ _ => trivial
  run_invariant_of_meets (fun stepped _ => preserved stepped) reached meets start

theorem Meets.mono {guard weaker : State → Action → Prop}
    (weakens : ∀ state action, guard state action → weaker state action) :
    ∀ {actions : List Action} {state : State},
      Meets step guard state actions → Meets step weaker state actions
  | [], _, _ => trivial
  | action :: later, state, ⟨admitted, rest⟩ => by
    refine ⟨weakens state action admitted, ?_⟩
    cases stepped : step state action with
    | none => trivial
    | some next =>
      rw [stepped] at rest
      exact Meets.mono weakens rest

theorem Meets.and {guard other : State → Action → Prop} :
    ∀ {actions : List Action} {state : State},
      Meets step guard state actions → Meets step other state actions →
        Meets step (fun state action => guard state action ∧ other state action) state actions
  | [], _, _, _ => trivial
  | action :: later, state, ⟨admitted, rest⟩, ⟨otherAdmitted, otherRest⟩ => by
    refine ⟨⟨admitted, otherAdmitted⟩, ?_⟩
    cases stepped : step state action with
    | none => trivial
    | some next =>
      rw [stepped] at rest otherRest
      exact Meets.and rest otherRest

theorem Meets.of_append {later : List Action} :
    ∀ {first : List Action} {state : State},
      Meets step guard state (first ++ later) → Meets step guard state first
  | [], _, _ => trivial
  | action :: first, state, ⟨admitted, rest⟩ => by
    refine ⟨admitted, ?_⟩
    cases stepped : step state action with
    | none => trivial
    | some next =>
      rw [stepped] at rest
      exact Meets.of_append rest

theorem meets_of_invariant_along (necessary :
      ∀ {state next : State} {action : Action},
        step state action = some next → Inv state → Inv next → guard state action) :
    ∀ {actions : List Action} {state target : State},
      run step state actions = some target →
        (∀ first, first <+: actions →
          ∀ middle, run step state first = some middle → Inv middle) →
          Meets step guard state actions
  | [], _, _, _, _ => trivial
  | action :: later, state, target, reached, along => by
    obtain ⟨next, stepped, rest⟩ := run_cons_eq_some reached
    have start : Inv state := along [] nil_prefix state rfl
    have afterOne : Inv next := along [action] (by simp) next (by simp [run, stepped])
    refine ⟨necessary stepped start afterOne, ?_⟩
    rw [stepped]
    refine meets_of_invariant_along necessary rest ?_
    intro first isPrefix middle toMiddle
    refine along (action :: first) ?_ middle ?_
    · exact (cons_prefix_cons).mpr ⟨rfl, isPrefix⟩
    · rw [run_cons, stepped]
      exact toMiddle

theorem meets_iff_along {Inv Good : State → Prop}
    (isGood : ∀ {state : State}, Inv state → Good state)
    (kept :
      ∀ {state next : State} {action : Action},
        step state action = some next → guard state action → Inv state → Inv next)
    (needed :
      ∀ {state next : State} {action : Action},
        step state action = some next → Inv state → Good next → guard state action)
    {actions : List Action} {state target : State}
    (reached : run step state actions = some target) (start : Inv state) :
    Meets step guard state actions ↔
      ∀ first, first <+: actions → ∀ middle, run step state first = some middle → Good middle := by
  constructor
  · intro meets first isFirst middle toMiddle
    obtain ⟨later, rfl⟩ := isFirst
    exact isGood (run_invariant_of_meets kept toMiddle (Meets.of_append meets) start)
  · intro along
    induction actions generalizing state with
    | nil => trivial
    | cons action later ih =>
      obtain ⟨next, stepped, rest⟩ := run_cons_eq_some reached
      have afterOne : Good next := along [action] (by simp) next (by simp [run, stepped])
      have admitted := needed stepped start afterOne
      refine ⟨admitted, ?_⟩
      rw [stepped]
      apply ih rest (kept stepped admitted start)
      intro first isLater middle toMiddle
      refine along (action :: first) (cons_prefix_cons.mpr ⟨rfl, isLater⟩) middle ?_
      rw [run_cons, stepped]
      exact toMiddle

end Runs

section Folds

variable {State : Type u} {Item : Type v} (step : State → Item → State)

/-- Every step of the fold is admitted by `guard` in the state it is taken in. -/
def Admits (guard : State → Item → Prop) : State → List Item → Prop
  | _, [] => True
  | state, item :: later => guard state item ∧ Admits guard (step state item) later

variable {step}

theorem admits_of_forall {guard : State → Item → Prop} {items : List Item} (state : State)
    (always : ∀ item ∈ items, ∀ state, guard state item) : Admits step guard state items := by
  induction items generalizing state with
  | nil => trivial
  | cons item later ih =>
    exact ⟨always item mem_cons_self state,
      ih _ fun other isLater => always other (mem_cons_of_mem item isLater)⟩

theorem admits_iff_along {guard : State → Item → Prop} {Inv : State → Prop}
    (exactly : ∀ {state : State} {item : Item},
      Inv state → (Inv (step state item) ↔ guard state item))
    {items : List Item} {state : State} (start : Inv state) :
    Admits step guard state items ↔ ∀ first, first <+: items → Inv (first.foldl step state) := by
  induction items generalizing state with
  | nil =>
    refine ⟨fun _ first isPrefix => ?_, fun _ => trivial⟩
    rw [prefix_nil.mp isPrefix]
    exact start
  | cons item later ih =>
    rw [Admits]
    constructor
    · rintro ⟨admitted, rest⟩ first isPrefix
      cases first with
      | nil => exact start
      | cons head first =>
        obtain ⟨rfl, isLater⟩ := cons_prefix_cons.mp isPrefix
        exact (ih ((exactly start).mpr admitted)).mp rest first isLater
    · intro along
      have afterOne : Inv (step state item) := along [item] (by simp)
      refine ⟨(exactly start).mp afterOne, (ih afterOne).mpr ?_⟩
      intro first isLater
      exact along (item :: first) (cons_prefix_cons.mpr ⟨rfl, isLater⟩)

end Folds

/-!
## Workers that take turns

Workers are kept in a list, and one of them moves or leaves at a time.  What some worker is
still to do stays so unless that worker was the one to do it.
-/

section Workers

variable {Worker : Type u} {workers : List Worker} {w w' x : Worker} {position : ℕ}
  {holds : Worker → Prop} (isWorker : workers[position]? = some w)
include isWorker

theorem eq_or_mem_set (member : x ∈ workers) : x = w ∨ x ∈ workers.set position w' := by
  obtain ⟨other, isAt⟩ := mem_iff_getElem?.mp member
  by_cases same : other = position
  · rw [same, isWorker] at isAt
    exact .inl (some.inj isAt).symm
  · refine .inr (mem_iff_getElem?.mpr ⟨other, ?_⟩)
    rw [getElem?_set_ne (Ne.symm same)]
    exact isAt

theorem moved_mem_set : w' ∈ workers.set position w' :=
  mem_set (List.getElem?_eq_some_iff.mp isWorker).1 w'

theorem eq_or_mem_eraseIdx (member : x ∈ workers) : x = w ∨ x ∈ workers.eraseIdx position := by
  obtain ⟨other, isAt⟩ := mem_iff_getElem?.mp member
  by_cases same : other = position
  · rw [same, isWorker] at isAt
    exact .inl (some.inj isAt).symm
  · exact .inr (mem_eraseIdx_iff_getElem?.mpr ⟨other, same, isAt⟩)

theorem exists_eraseIdx
    (some_ : ∃ x ∈ workers, holds x) : holds w ∨ ∃ x ∈ workers.eraseIdx position, holds x := by
  obtain ⟨x, member, doing⟩ := some_
  rcases eq_or_mem_eraseIdx isWorker member with same | stays
  · rw [same] at doing
    exact .inl doing
  · exact .inr ⟨x, stays, doing⟩

end Workers

end MemoryService.Foundation
