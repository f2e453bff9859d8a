import MemoryService.Foundation.Transition

/-!
# A versioned cell and its writers

A unit of work reads the cell, computes what it makes of it, and writes the columns that it
changed over whatever the cell holds by then, under the version after the one it read.
-/

namespace MemoryService.Foundation

open List

universe u v w

structure Versioned (Cell : Type u) (Work : Type v) (Lock : Type w) where
  version : Cell → ℕ
  /-- what a unit makes of the cell that it read, if it writes at all -/
  effect : Work → Cell → Option Cell
  /-- `assign base mine theirs`: what is changed between the first two, over the third -/
  assign : Cell → Cell → Cell → Cell
  versionAssign : ∀ base mine theirs, version (assign base mine theirs) = version base + 1
  locks : Work → List Lock
  /-- nobody else writes while the unit is at work -/
  exclusive : Work → Bool

namespace Versioned

variable {Cell : Type u} {Work : Type v} {Lock : Type w}

structure Reader (Cell : Type u) (Work : Type v) where
  work : Work
  snapshot : Cell

structure State (Cell : Type u) (Work : Type v) where
  cell : Cell
  /-- the versions of the committed states, the latest first -/
  given : List ℕ
  running : List (Reader Cell Work) := []
  /-- the units that wrote, in the order of their writes -/
  committed : List Work := []

inductive Move (Work : Type v) where
  | read (work : Work)
  | write (unit : ℕ)
  | abandon (unit : ℕ)
  /-- one statement that reads and writes -/
  | direct (work : Work)

variable (system : Versioned Cell Work Lock)

def alone (cell : Cell) (work : Work) : Cell :=
  match system.effect work cell with
  | some mine => system.assign cell mine cell
  | none => cell

def start (cell : Cell) : State Cell Work := { cell, given := [system.version cell] }

def put (state : State Cell Work) (work : Work) (base mine : Cell)
    (running : List (Reader Cell Work)) : State Cell Work where
  cell := system.assign base mine state.cell
  given := (system.version base + 1) :: state.given
  running
  committed := state.committed ++ [work]

def step [DecidableEq Lock] (state : State Cell Work) : Move Work → Option (State Cell Work)
  | .read work =>
    if state.running.all fun r => (system.locks r.work).all (· ∉ system.locks work) then
      some { state with running := state.running ++ [⟨work, state.cell⟩] }
    else none
  | .write unit =>
    state.running[unit]?.bind fun r =>
      let others := state.running.eraseIdx unit
      if others.any fun r => system.exclusive r.work then none
      else
        match system.effect r.work r.snapshot with
        | some mine => some (system.put state r.work r.snapshot mine others)
        | none => some { state with running := others }
  | .abandon unit =>
    if unit < state.running.length then
      some { state with running := state.running.eraseIdx unit }
    else none
  | .direct work =>
    if state.running.any fun r => system.exclusive r.work then none
    else
      match system.effect work state.cell with
      | some mine => some (system.put state work state.cell mine state.running)
      | none => some state

/-- The cell is as if the committed units had run one after another, in some order. -/
def NoLostUpdate (first : Cell) (state : State Cell Work) : Prop :=
  ∃ order : List Work, order.Perm state.committed ∧ state.cell = order.foldl system.alone first

def Fresh (state : State Cell Work) : Move Work → Prop
  | .write unit =>
    ∀ r ∈ state.running[unit]?, (system.effect r.work r.snapshot).isSome = true →
      r.snapshot = state.cell
  | _ => True

variable {work : Work} {mine : Cell} {running : List (Reader Cell Work)} {moves : List (Move Work)}

section

variable {system} [DecidableEq Lock] {state next : State Cell Work} {first : Cell}
  {move : Move Work}

theorem step_cases (stepped : system.step state move = some next) :
    (∃ unit r mine, move = .write unit ∧ state.running[unit]? = some r ∧
      system.effect r.work r.snapshot = some mine ∧
      next = system.put state r.work r.snapshot mine (state.running.eraseIdx unit)) ∨
    (∃ work mine, move = .direct work ∧ system.effect work state.cell = some mine ∧
      next = system.put state work state.cell mine state.running) ∨
    (system.Fresh state move ∧
      next.cell = state.cell ∧ next.given = state.given ∧ next.committed = state.committed ∧
      ∀ r ∈ next.running, r ∈ state.running ∨ r.snapshot = state.cell) := by
  cases move with
  | read work =>
    simp only [step] at stepped
    obtain ⟨-, stepped⟩ := Option.ite_none_right_eq_some.mp stepped
    cases stepped
    refine .inr (.inr ⟨trivial, rfl, rfl, rfl, fun r isRunning => ?_⟩)
    rcases mem_append.mp isRunning with before | isNew
    · exact .inl before
    · rw [mem_singleton.mp isNew]
      exact .inr rfl
  | write unit =>
    simp only [step] at stepped
    obtain ⟨r, isUnit, stepped⟩ := Option.bind_eq_some_iff.mp stepped
    obtain ⟨-, stepped⟩ := Option.ite_none_left_eq_some.mp stepped
    split at stepped
    case h_1 mine makes =>
      cases stepped
      exact .inl ⟨unit, r, mine, rfl, isUnit, makes, rfl⟩
    case h_2 idle =>
      cases stepped
      refine .inr (.inr ⟨fun r' isUnit' writes => ?_, rfl, rfl, rfl, fun r isRunning =>
        .inl (mem_of_mem_eraseIdx isRunning)⟩)
      rw [isUnit] at isUnit'
      cases isUnit'
      rw [idle] at writes
      cases writes
  | abandon unit =>
    simp only [step] at stepped
    obtain ⟨-, stepped⟩ := Option.ite_none_right_eq_some.mp stepped
    cases stepped
    exact .inr (.inr ⟨trivial, rfl, rfl, rfl, fun r isRunning =>
      .inl (mem_of_mem_eraseIdx isRunning)⟩)
  | direct work =>
    simp only [step] at stepped
    obtain ⟨-, stepped⟩ := Option.ite_none_left_eq_some.mp stepped
    split at stepped
    case h_1 mine makes =>
      cases stepped
      exact .inr (.inl ⟨work, mine, rfl, makes, rfl⟩)
    case h_2 =>
      cases stepped
      exact .inr (.inr ⟨trivial, rfl, rfl, rfl, fun r isRunning => .inl isRunning⟩)

structure Serial (system : Versioned Cell Work Lock) (first : Cell) (state : State Cell Work) :
    Prop where
  cell : state.cell = state.committed.foldl system.alone first
  once : state.given.Nodup
  below : ∀ n ∈ state.given, n ≤ system.version state.cell

omit [DecidableEq Lock] in
theorem serial_put
    (serial : Serial system first state) (makes : system.effect work state.cell = some mine) :
    Serial system first (system.put state work state.cell mine running) where
  cell := by
    rw [put, foldl_append, foldl_cons, foldl_nil, ← serial.cell, alone, makes]
  once := by
    refine nodup_cons.mpr ⟨fun again => ?_, serial.once⟩
    have bounded := serial.below _ again
    omega
  below := by
    intro n isGiven
    have raised : system.version (system.put state work state.cell mine running).cell =
        system.version state.cell + 1 := system.versionAssign _ _ _
    rw [raised]
    rcases mem_cons.mp isGiven with rfl | before
    · exact Nat.le_refl _
    · exact Nat.le_succ_of_le (serial.below n before)

theorem serial_step (stepped : system.step state move = some next)
    (fresh : system.Fresh state move) (serial : Serial system first state) :
    Serial system first next := by
  rcases step_cases stepped with ⟨unit, r, mine, rfl, isUnit, makes, rfl⟩ |
    ⟨work, mine, rfl, makes, rfl⟩ | ⟨-, sameCell, sameGiven, sameCommitted, -⟩
  · have asRead : r.snapshot = state.cell := fresh r isUnit (by rw [makes]; rfl)
    rw [asRead] at makes ⊢
    exact serial_put serial makes
  · exact serial_put serial makes
  · constructor
    · rw [sameCell, sameCommitted]
      exact serial.cell
    · rw [sameGiven]
      exact serial.once
    · rw [sameCell, sameGiven]
      exact serial.below

theorem serial_of_fresh (reached : run system.step (system.start first) moves = some state)
    (fresh : Meets system.step system.Fresh (system.start first) moves) :
    Serial system first state := by
  refine run_invariant_of_meets serial_step reached fresh
    ⟨rfl, nodup_cons.mpr ⟨not_mem_nil, nodup_nil⟩, ?_⟩
  intro n isGiven
  rw [mem_singleton.mp isGiven]
  exact Nat.le_refl _

def Overtaken (system : Versioned Cell Work Lock) (state : State Cell Work) : Prop :=
  ∀ r ∈ state.running, r.snapshot = state.cell ∨ system.version r.snapshot + 1 ∈ state.given

theorem given_suffix :
    ∀ {state target : State Cell Work}, run system.step state moves = some target →
      state.given <:+ target.given := by
  induction moves with
  | nil =>
    intro state target reached
    cases reached
    exact suffix_refl _
  | cons move later ih =>
    intro state target reached
    obtain ⟨next, stepped, rest⟩ := run_cons_eq_some reached
    refine List.IsSuffix.trans ?_ (ih rest)
    rcases step_cases stepped with ⟨unit, r, mine, -, -, -, rfl⟩ | ⟨work, mine, -, -, rfl⟩ |
      ⟨-, -, sameGiven, -⟩
    · exact suffix_cons _ _
    · exact suffix_cons _ _
    · exact sameGiven.symm ▸ suffix_refl _

omit [DecidableEq Lock] in
theorem overtaken_put
    (overtaken : Overtaken system state) (stays : ∀ r ∈ running, r ∈ state.running) :
    Overtaken system (system.put state work state.cell mine running) := by
  intro r isRunning
  right
  rcases overtaken r (stays r isRunning) with asRead | isGiven
  · rw [asRead]
    exact mem_cons_self
  · exact mem_cons_of_mem _ isGiven

theorem fresh_of_given_once :
    ∀ {state target : State Cell Work}, run system.step state moves = some target →
      Overtaken system state → target.given.Nodup → Meets system.step system.Fresh state moves := by
  induction moves with
  | nil => exact fun _ _ _ => trivial
  | cons move later ih =>
    intro state target reached overtaken once
    obtain ⟨next, stepped, rest⟩ := run_cons_eq_some reached
    have onceNext : next.given.Nodup := once.sublist (given_suffix rest).sublist
    suffices fresh : system.Fresh state move ∧ Overtaken system next by
      refine ⟨fresh.1, ?_⟩
      rw [stepped]
      exact ih rest fresh.2 once
    rcases step_cases stepped with ⟨unit, r, mine, rfl, isUnit, makes, rfl⟩ |
      ⟨work, mine, rfl, makes, rfl⟩ | ⟨idle, sameCell, sameGiven, -, stays⟩
    · -- a stale write gives a version that was given already
      have asRead : r.snapshot = state.cell :=
        (overtaken r (mem_of_getElem? isUnit)).resolve_right (nodup_cons.mp onceNext).1
      refine ⟨fun r' isUnit' _ => ?_, ?_⟩
      · rw [isUnit] at isUnit'
        cases isUnit'
        exact asRead
      · rw [asRead]
        exact overtaken_put overtaken fun r => mem_of_mem_eraseIdx
    · exact ⟨trivial, overtaken_put overtaken fun r isRunning => isRunning⟩
    · refine ⟨idle, fun r isRunning => ?_⟩
      rw [sameCell, sameGiven]
      exact (stays r isRunning).elim (overtaken r) Or.inl

theorem no_lost_update_iff (reached : run system.step (system.start first) moves = some state) :
    (system.NoLostUpdate first state ∧ state.given.Nodup) ↔
      Meets system.step system.Fresh (system.start first) moves := by
  constructor
  · intro holds
    refine fresh_of_given_once reached (fun r isRunning => ?_) holds.2
    cases isRunning
  · intro fresh
    have serial := serial_of_fresh reached fresh
    exact ⟨⟨state.committed, List.Perm.refl _, serial.cell⟩, serial.once⟩

/-- A unit that reads takes the lock, and nothing writes without a read of its own. -/
def Takes (system : Versioned Cell Work Lock) (lock : Lock) : Move Work → Prop
  | .read work => lock ∈ system.locks work
  | .direct _ => False
  | _ => True

/-- At most one unit is at work, under the lock, and the cell is as it read it. -/
structure Sole (system : Versioned Cell Work Lock) (lock : Lock) (state : State Cell Work) :
    Prop where
  one : state.running.length ≤ 1
  holds : ∀ r ∈ state.running, lock ∈ system.locks r.work ∧ r.snapshot = state.cell

omit [DecidableEq Lock] in
theorem sole_of_eraseIdx {lock : Lock} {unit : ℕ} (sole : Sole system lock state)
    (isUnit : unit < state.running.length)
    (left : next.running = state.running.eraseIdx unit) : Sole system lock next := by
  have noneLeft : next.running = [] := by
    rw [left, ← length_eq_zero_iff, length_eraseIdx_of_lt isUnit, Nat.sub_eq_zero_iff_le]
    exact sole.one
  constructor
  · rw [noneLeft]
    exact Nat.zero_le 1
  · rw [noneLeft]
    exact fun r isRunning => absurd isRunning not_mem_nil

theorem sole_step {lock : Lock} (stepped : system.step state move = some next)
    (takes : system.Takes lock move) (sole : Sole system lock state) : Sole system lock next := by
  cases move with
  | read work =>
    simp only [step] at stepped
    obtain ⟨free, stepped⟩ := Option.ite_none_right_eq_some.mp stepped
    cases stepped
    have noneRuns : state.running = [] := by
      refine eq_nil_iff_forall_not_mem.mpr fun r isRunning => ?_
      have apart := all_eq_true.mp (all_eq_true.mp free r isRunning) lock
        (sole.holds r isRunning).1
      exact of_decide_eq_true apart takes
    constructor
    · rw [noneRuns]
      exact Nat.le_refl 1
    · intro r isRunning
      rw [noneRuns, nil_append, mem_singleton] at isRunning
      rw [isRunning]
      exact ⟨takes, rfl⟩
  | write unit =>
    simp only [step] at stepped
    obtain ⟨r, isUnit, stepped⟩ := Option.bind_eq_some_iff.mp stepped
    have isShort := (List.getElem?_eq_some_iff.mp isUnit).1
    obtain ⟨-, stepped⟩ := Option.ite_none_left_eq_some.mp stepped
    split at stepped
    case h_1 =>
      cases stepped
      exact sole_of_eraseIdx sole isShort rfl
    case h_2 =>
      cases stepped
      exact sole_of_eraseIdx sole isShort rfl
  | abandon unit =>
    simp only [step] at stepped
    obtain ⟨isShort, stepped⟩ := Option.ite_none_right_eq_some.mp stepped
    cases stepped
    exact sole_of_eraseIdx sole isShort rfl
  | direct work => exact takes.elim

/-- Units that share a lock write the cell as they read it. -/
theorem fresh_of_locked {lock : Lock} :
    ∀ {state : State Cell Work}, (∀ move ∈ moves, system.Takes lock move) →
      Sole system lock state → Meets system.step system.Fresh state moves := by
  induction moves with
  | nil => exact fun _ _ => trivial
  | cons move later ih =>
    intro state takes sole
    have fresh : system.Fresh state move := by
      cases move with
      | write unit => exact fun r isUnit _ => (sole.holds r (mem_of_getElem? isUnit)).2
      | read | abandon | direct => trivial
    refine ⟨fresh, ?_⟩
    cases stepped : system.step state move with
    | none => trivial
    | some next =>
      exact ih (fun other isLater => takes other (mem_cons_of_mem move isLater))
        (sole_step stepped (takes move mem_cons_self) sole)

end

end Versioned

end MemoryService.Foundation
