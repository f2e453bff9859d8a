import MemoryService.Foundation.Transition

/-!
# Units of work that see a part of the store

A unit of work reads and writes a store and may fail; where it fails the store stays as it was.
-/

namespace MemoryService.Foundation

open List

universe u v w

abbrev Uow (Store : Type u) (Failure : Type v) (α : Type u) := StateT Store (Except Failure) α

section Units

variable {Store : Type u} {Failure : Type v} {α β : Type u}

def respond (unit : Uow Store Failure α) (store : Store) : Store × Except Failure α :=
  match unit.run store with
  | .ok (answer, next) => (next, .ok answer)
  | .error failure => (store, .error failure)

def attempt (failure : Failure) (statement : Store → Option (α × Store)) :
    Uow Store Failure α := fun store =>
  match statement store with
  | some result => .ok result
  | none => .error failure

def Triple (pre : Store → Prop) (unit : Uow Store Failure α) (post : α → Store → Prop)
    (expected : Failure → Prop) : Prop :=
  ∀ store, pre store →
    (∀ failure, unit.run store = .error failure → expected failure) ∧
      ∀ answer next, unit.run store = .ok (answer, next) → post answer next

/-- Whatever the unit does to a store. -/
def Moves (relation : Store → Store → Prop) (unit : Uow Store Failure α) : Prop :=
  ∀ store answer next, unit.run store = .ok (answer, next) → relation store next

def Seen (view : Store → Store) (pre : Store → Prop) (unit : Uow Store Failure α) : Prop :=
  ∀ store, pre store →
    unit.run (view store) = (unit.run store).map fun result => (result.1, view result.2)

variable {pre weaker : Store → Prop} {unit : Uow Store Failure α} {rest : α → Uow Store Failure β}
  {middle : α → Store → Prop} {post : β → Store → Prop} {expected : Failure → Prop}
  {relation : Store → Store → Prop} {view : Store → Store}

theorem run_bind_cases {store : Store} {result : Except Failure (β × Store)}
    (isRun : (unit >>= rest).run store = result) :
    (∃ failure, unit.run store = .error failure ∧ result = .error failure) ∨
      ∃ answer next, unit.run store = .ok (answer, next) ∧ (rest answer).run next = result := by
  rw [StateT.run_bind] at isRun
  cases isUnit : unit.run store with
  | error failure =>
    rw [isUnit] at isRun
    exact .inl ⟨failure, rfl, isRun.symm⟩
  | ok answered =>
    rw [isUnit] at isRun
    exact .inr ⟨answered.1, answered.2, rfl, isRun⟩

theorem Triple.mono {post : α → Store → Prop} (ends : Triple pre unit post expected)
    (implies : ∀ store, weaker store → pre store) : Triple weaker unit post expected :=
  fun store held => ends store (implies store held)

theorem Triple.trivial (unit : Uow Store Failure α) :
    Triple pre unit (fun _ _ => True) fun _ => True :=
  fun _ _ => ⟨fun _ _ => True.intro, fun _ _ _ => True.intro⟩

theorem Triple.pure {post : α → Store → Prop} {answer : α}
    (ends : ∀ store, pre store → post answer store) :
    Triple pre (Pure.pure answer : Uow Store Failure α) post expected := by
  intro store held
  refine ⟨nofun, fun other next isRun => ?_⟩
  cases isRun
  exact ends store held

variable {failure : Failure}

theorem Triple.throw {post : α → Store → Prop} (isExpected : expected failure) :
    Triple pre (throw failure : Uow Store Failure α) post expected := by
  intro store _
  refine ⟨fun other isRun => ?_, nofun⟩
  cases isRun
  exact isExpected

theorem Triple.read (f : Store → α) :
    Triple pre (f <$> get : Uow Store Failure α)
      (fun answer store => pre store ∧ answer = f store) expected := by
  intro store held
  refine ⟨nofun, fun other next isRun => ?_⟩
  cases isRun
  exact ⟨held, rfl⟩

variable {statement : Store → Option (α × Store)}

theorem Triple.attempt {post : α → Store → Prop}
    (refused : ∀ store, pre store → statement store = none → expected failure)
    (done : ∀ store answer next, pre store → statement store = some (answer, next) →
      post answer next) :
    Triple pre (attempt failure statement : Uow Store Failure α) post expected := by
  intro store held
  change (∀ other, Foundation.attempt failure statement store = .error other → expected other) ∧
    ∀ answer next, Foundation.attempt failure statement store = .ok (answer, next) →
      post answer next
  rw [Foundation.attempt]
  cases isDone : statement store with
  | none =>
    refine ⟨fun other isRun => ?_, nofun⟩
    cases isRun
    exact refused store held isDone
  | some result =>
    refine ⟨nofun, fun answer next isRun => ?_⟩
    cases isRun
    exact done store answer next held isDone

theorem Triple.bind (first : Triple pre unit middle expected)
    (others : ∀ answer, Triple (middle answer) (rest answer) post expected) :
    Triple pre (unit >>= rest) post expected := by
  intro store held
  obtain ⟨fails, ends⟩ := first store held
  constructor
  · intro failure isRun
    rcases run_bind_cases isRun with ⟨other, isUnit, isError⟩ | ⟨answer, between, isUnit, isRest⟩
    · cases isError
      exact fails failure isUnit
    · exact (others answer between (ends answer between isUnit)).1 failure isRest
  · intro answer next isRun
    rcases run_bind_cases isRun with ⟨failure, -, isError⟩ | ⟨other, between, isUnit, isRest⟩
    · cases isError
    · exact (others other between (ends other between isUnit)).2 answer next isRest

theorem Moves.pure (reflexive : ∀ store, relation store store) (answer : α) :
    Moves relation (Pure.pure answer : Uow Store Failure α) := by
  intro store other next isRun
  cases isRun
  exact reflexive store

theorem Moves.throw (failure : Failure) : Moves relation (throw failure : Uow Store Failure α) :=
  fun _ _ _ isRun => by cases isRun

theorem Moves.read (reflexive : ∀ store, relation store store) (f : Store → α) :
    Moves relation (f <$> get : Uow Store Failure α) := by
  intro store answer next isRun
  cases isRun
  exact reflexive store

theorem Moves.attempt
    (done : ∀ store answer next, statement store = some (answer, next) → relation store next) :
    Moves relation (attempt failure statement : Uow Store Failure α) := by
  intro store answer next isRun
  have isEnd : Foundation.attempt failure statement store = .ok (answer, next) := isRun
  rw [Foundation.attempt] at isEnd
  cases isDone : statement store with
  | none =>
    rw [isDone] at isEnd
    cases isEnd
  | some result =>
    rw [isDone] at isEnd
    cases isEnd
    exact done store answer next isDone

theorem Moves.bind {before after : Store → Store → Prop}
    (transitive : ∀ store middle next, before store middle → after middle next →
      relation store next)
    (first : Moves before unit) (others : ∀ answer, Moves after (rest answer)) :
    Moves relation (unit >>= rest) := by
  intro store answer next isRun
  rcases run_bind_cases isRun with ⟨failure, -, isError⟩ | ⟨other, between, isUnit, isRest⟩
  · cases isError
  · exact transitive store between next (first store other between isUnit)
      (others other between answer next isRest)

theorem Moves.triple {after : Store → Prop} (moves : Moves relation unit)
    (keeps : ∀ store next, relation store next → pre store → after next) :
    Triple pre unit (fun _ => after) fun _ => True :=
  fun store held => ⟨fun _ _ => True.intro, fun answer next isRun =>
    keeps store next (moves store answer next isRun) held⟩

theorem Triple.kept (ends : Triple pre unit (fun _ _ => True) expected)
    (moves : Moves relation unit)
    (keeps : ∀ store next, relation store next → pre store → pre next) :
    Triple pre unit (fun _ => pre) expected :=
  fun store held => ⟨(ends store held).1, fun answer next isRun =>
    keeps store next (moves store answer next isRun) held⟩

theorem Seen.mono (seen : Seen view pre unit) (implies : ∀ store, weaker store → pre store) :
    Seen view weaker unit :=
  fun store held => seen store (implies store held)

theorem Seen.assuming {fact : Prop} (seen : fact → Seen view pre unit) :
    Seen view (fun store => fact ∧ pre store) unit :=
  fun store held => seen held.1 store held.2

theorem Seen.pure (answer : α) : Seen view pre (Pure.pure answer : Uow Store Failure α) :=
  fun _ _ => rfl

theorem Seen.throw (failure : Failure) : Seen view pre (throw failure : Uow Store Failure α) :=
  fun _ _ => rfl

theorem Seen.read {f : Store → α} (same : ∀ store, f (view store) = f store) :
    Seen view pre (f <$> get : Uow Store Failure α) := by
  intro store _
  change Except.ok (f (view store), view store) = Except.ok (f store, view store)
  rw [same store]

theorem Seen.attempt (same : ∀ store, pre store → statement (view store) =
      (statement store).map fun result => (result.1, view result.2)) :
    Seen view pre (attempt failure statement : Uow Store Failure α) := by
  intro store held
  change Foundation.attempt failure statement (view store) =
    (Foundation.attempt failure statement store).map _
  rw [Foundation.attempt, Foundation.attempt, same store held]
  cases statement store <;> rfl

theorem Seen.bind (first : Seen view pre unit) (ends : Triple pre unit middle fun _ => True)
    (others : ∀ answer, Seen view (middle answer) (rest answer)) :
    Seen view pre (unit >>= rest) := by
  intro store held
  rw [StateT.run_bind, StateT.run_bind, first store held]
  cases isUnit : unit.run store with
  | error failure => rfl
  | ok answered =>
    exact others answered.1 answered.2 ((ends store held).2 answered.1 answered.2 isUnit)

theorem respond_of_seen (seen : Seen view pre unit) {store : Store} (held : pre store) :
    respond unit (view store) = (view (respond unit store).1, (respond unit store).2) := by
  rw [respond, respond, seen store held]
  cases unit.run store <;> rfl

theorem respond_of_moves (moves : Moves relation unit)
    (reflexive : ∀ store, relation store store) (store : Store) :
    relation store (respond unit store).1 := by
  rw [respond]
  cases isUnit : unit.run store with
  | error failure => exact reflexive store
  | ok answered => exact moves store answered.1 answered.2 isUnit

theorem respond_of_triple {post : α → Store → Prop} (ends : Triple pre unit post expected)
    {store next : Store} {result : Except Failure α} (held : pre store)
    (answered : respond unit store = (next, result)) :
    (∀ answer, result = .ok answer → post answer next) ∧
      ∀ failure, result = .error failure → expected failure ∧ next = store := by
  obtain ⟨fails, succeeds⟩ := ends store held
  rw [respond] at answered
  cases isUnit : unit.run store with
  | error failure =>
    rw [isUnit] at answered
    cases answered
    refine ⟨nofun, fun other isFailure => ?_⟩
    cases isFailure
    exact ⟨fails failure isUnit, rfl⟩
  | ok outcome =>
    rw [isUnit] at answered
    cases answered
    refine ⟨fun other isAnswer => ?_, nofun⟩
    cases isAnswer
    exact succeeds outcome.1 outcome.2 isUnit

end Units

section Runs

variable {Store : Type u} {Failure : Type v} {Response : Type u} {Request : Type w}
  (handle : Request → Uow Store Failure Response)

def served (store : Store) (request : Request) : Option Store :=
  some (respond (handle request) store).1

def answers : Store → List Request → List (Request × Except Failure Response)
  | _, [] => []
  | store, request :: later =>
    (request, (respond (handle request) store).2) ::
      answers (respond (handle request) store).1 later

variable {handle} {view : Store → Store} {guard : Store → Request → Prop} {mine : Request → Bool}

theorem answers_of_mine
    (seen : ∀ request, mine request = true → Seen view (guard · request) (handle request))
    (hidden : ∀ request, mine request = false →
      Moves (fun store next => view next = view store) (handle request)) :
    ∀ {requests : List Request} {store last : Store},
      run (served handle) store requests = some last →
        Meets (served handle) (fun store request => mine request = true → guard store request)
          store requests →
          (answers handle store requests).filter (mine ·.1) =
              answers handle (view store) (requests.filter mine) ∧
            run (served handle) (view store) (requests.filter mine) = some (view last)
  | [], store, last, reached, _ => by
    cases reached
    exact ⟨rfl, rfl⟩
  | request :: later, store, last, reached, meets => by
    obtain ⟨admitted, rest⟩ := meets
    obtain ⟨next, isNext, afterwards⟩ := run_cons_eq_some reached
    rw [isNext] at rest
    cases isNext
    obtain ⟨sameAnswers, sameLast⟩ := answers_of_mine seen hidden afterwards rest
    cases isMine : mine request with
    | true =>
      have same := respond_of_seen (seen request isMine) (admitted isMine)
      constructor
      · rw [answers, filter_cons_of_pos isMine, answers, same, ← sameAnswers]
        exact filter_cons_of_pos isMine
      · rw [filter_cons_of_pos isMine, run_cons, served, same]
        exact sameLast
    | false =>
      have same := respond_of_moves (hidden request isMine) (fun _ => rfl) store
      have notMine : ¬ mine request = true := by rw [isMine]; decide
      rw [filter_cons_of_neg notMine]
      constructor
      · rw [answers, ← same, ← sameAnswers]
        exact filter_cons_of_neg notMine
      · rw [← same]
        exact sameLast

end Runs

end MemoryService.Foundation
