import Mathlib.Data.List.Basic

/-!
# Recursive descent

A reader takes a value off the front of a list, or fails. Readers that call each other are
bounded by a number of rounds. What matters about a reader is where it stops.
-/

namespace MemoryService.Foundation

open List Option

universe u v w

abbrev Reader (τ : Type u) (α : Type v) := List τ → Option (α × List τ)

namespace Reader

variable {τ : Type u} {α : Type v} {β : Type w}

def further (isSeparator : τ → Bool) (combine : α → α → α) (item : Reader τ α) :
    Nat → α → Reader τ α
  | _, left, [] => some (left, [])
  | rounds, left, token :: tokens =>
    if isSeparator token then
      match rounds with
      | 0 => none
      | rounds + 1 =>
        (item tokens).bind fun (right, after) =>
          further isSeparator combine item rounds (combine left right) after
    else some (left, token :: tokens)

def separated (isSeparator : τ → Bool) (combine : α → α → α) (item : Reader τ α) :
    Reader τ α := fun tokens =>
  (item tokens).bind fun (first, after) => further isSeparator combine item after.length first after

def items (isSkipped : τ → Bool) (item : Reader τ α) : Nat → List τ → Option (List α)
  | 0, _ => none
  | rounds + 1, text =>
    match text.dropWhile isSkipped with
    | [] => some []
    | c :: rest =>
      (item (c :: rest)).bind fun (first, after) =>
        (items isSkipped item rounds after).map (first :: ·)

/-- What the first reader takes, the second takes where `more` follows, and no more. -/
def Carries (more : List τ) (p q : Reader τ α) : Prop :=
  ∀ ⦃tokens value after⦄,
    p tokens = some (value, after) → q (tokens ++ more) = some (value, after ++ more)

variable {more tokens after rest : List τ} {q item : Reader τ α} {isSeparator : τ → Bool}
  {combine : α → α → α} {rounds : Nat} {first : α} {c : τ}

theorem Carries.map {p : Reader τ α} (carries : Carries more p q) (f : α → β) :
    Carries more (fun tokens => (p tokens).map (Prod.map f id))
      (fun tokens => (q tokens).map (Prod.map f id)) := by
  intro tokens value after read
  obtain ⟨⟨inner, rest⟩, innerRead, same⟩ := Option.map_eq_some_iff.mp read
  cases same
  change (q (tokens ++ more)).map (Prod.map f id) = _
  rw [carries innerRead]
  rfl

theorem further_of_not_separator {left : α}
    (stops : ∀ token ∈ tokens.head?, isSeparator token = false) :
    further isSeparator combine item rounds left tokens = some (left, tokens) := by
  cases tokens with
  | nil => cases rounds <;> rfl
  | cons token tokens =>
    have notSeparator : ¬isSeparator token = true := by
      rw [stops token rfl]
      exact Bool.false_ne_true
    cases rounds <;> exact if_neg notSeparator

def Takes (item : Reader τ α) (Reads : List τ → α → Prop) : Prop :=
  ∀ ⦃tokens value after⦄, item tokens = some (value, after) →
    ∃ front, tokens = front ++ after ∧ Reads front value

section Chains

variable {Reads Chain : List τ → α → Prop}
  (single : ∀ {tokens value}, Reads tokens value → Chain tokens value)
  (longer : ∀ {tokens others left right token}, Chain tokens left → isSeparator token = true →
    Reads others right → Chain (tokens ++ token :: others) (combine left right))

include longer in
theorem further_takes (takes : Takes item Reads) {before : List τ} {left : α}
    (isLeft : Chain before left) {value : α}
    (read : further isSeparator combine item rounds left tokens = some (value, after)) :
    ∃ front, tokens = front ++ after ∧ Chain (before ++ front) value := by
  induction rounds generalizing before left tokens with
  | zero =>
    cases tokens with
    | nil =>
      cases read
      exact ⟨[], rfl, by rwa [List.append_nil]⟩
    | cons token tokens =>
      rw [further] at read
      split at read
      · cases read
      · cases read
        exact ⟨[], rfl, by rwa [List.append_nil]⟩
  | succ rounds ih =>
    cases tokens with
    | nil =>
      cases read
      exact ⟨[], rfl, by rwa [List.append_nil]⟩
    | cons token tokens =>
      rw [further] at read
      split at read
      · next separates =>
          obtain ⟨⟨right, between⟩, rightRead, laterRead⟩ := Option.bind_eq_some_iff.mp read
          obtain ⟨others, rfl, isRight⟩ := takes rightRead
          obtain ⟨front, rfl, isChain⟩ := ih (longer isLeft separates isRight) laterRead
          exact ⟨token :: others ++ front, by simp, by simpa using isChain⟩
      · cases read
        exact ⟨[], rfl, by rwa [List.append_nil]⟩

include single longer in
theorem separated_takes (takes : Takes item Reads) :
    Takes (separated isSeparator combine item) Chain := by
  intro tokens value after read
  obtain ⟨⟨first, rest⟩, firstRead, laterRead⟩ := Option.bind_eq_some_iff.mp read
  obtain ⟨others, rfl, isFirst⟩ := takes firstRead
  obtain ⟨front, rfl, isChain⟩ := further_takes longer takes (single isFirst) laterRead
  exact ⟨others ++ front, by simp, isChain⟩

end Chains

/-- The items so far are read, and what follows is left to be read on from their value. -/
def Continues (isSeparator : τ → Bool) (combine : α → α → α) (item : Reader τ α)
    (tokens : List τ) (value : α) (after : List τ) : Prop :=
  ∃ rounds, after.length ≤ rounds ∧
    separated isSeparator combine item tokens = further isSeparator combine item rounds value after

theorem Continues.single {value : α} (read : item tokens = some (value, after)) :
    Continues isSeparator combine item tokens value after :=
  ⟨after.length, Nat.le_refl _, by rw [separated, read, bind_some]⟩

theorem Continues.next {others : List τ} {left right : α} {token : τ}
    (continues : Continues isSeparator combine item tokens left (token :: (others ++ after)))
    (separates : isSeparator token = true)
    (read : item (others ++ after) = some (right, after)) :
    Continues isSeparator combine item tokens (combine left right) after := by
  obtain ⟨rounds, enough, same⟩ := continues
  obtain ⟨rounds, rfl⟩ : ∃ n, rounds = n + 1 := Nat.exists_eq_add_of_le' (by simp at enough; omega)
  refine ⟨rounds, by simp at enough; omega, ?_⟩
  rw [same, further, if_pos separates, read, bind_some]

theorem Continues.stops {value : α}
    (continues : Continues isSeparator combine item tokens value after)
    (stops : ∀ token ∈ after.head?, isSeparator token = false) :
    separated isSeparator combine item tokens = some (value, after) := by
  obtain ⟨rounds, -, same⟩ := continues
  rw [same, further_of_not_separator stops]

theorem takeWhile_append_of_stops {p : τ → Bool} (stops : p c = false)
    (text later : List τ) : (text ++ c :: later).takeWhile p = text.takeWhile p := by
  rw [takeWhile_append]
  split
  · next isWhole =>
      rw [takeWhile_cons_of_neg (by rw [stops]; exact Bool.false_ne_true), append_nil]
      exact ((List.takeWhile_prefix p).eq_of_length isWhole).symm
  · rfl

theorem dropWhile_append_of_stops {p : τ → Bool} (stops : p c = false) (text later : List τ) :
    (text ++ c :: later).dropWhile p = text.dropWhile p ++ c :: later := by
  rw [dropWhile_append]
  split
  · next isEmpty =>
      rw [dropWhile_cons_of_neg (by rw [stops]; exact Bool.false_ne_true),
        isEmpty_iff.mp isEmpty, nil_append]
  · rfl

variable {isSkipped : τ → Bool} {item : Reader τ α}

theorem items_mono :
    ∀ {fewer rounds : Nat}, fewer ≤ rounds → ∀ {text : List τ} {read : List α},
      items isSkipped item fewer text = some read →
      items isSkipped item rounds text = some read := by
  intro fewer
  induction fewer with
  | zero =>
    intro _ _ _ _ isRead
    cases isRead
  | succ fewer ih =>
    intro rounds enough text read isRead
    obtain ⟨rounds, rfl⟩ : ∃ n, rounds = n + 1 := Nat.exists_eq_add_of_le' (by omega)
    rw [items] at isRead ⊢
    cases left : text.dropWhile isSkipped with
    | nil => rwa [left] at isRead
    | cons c rest =>
      simp only [left] at isRead ⊢
      obtain ⟨⟨first, after⟩, firstRead, restRead⟩ := bind_eq_some_iff.mp isRead
      obtain ⟨others, othersRead, rfl⟩ := map_eq_some_iff.mp restRead
      rw [firstRead]
      exact map_eq_some_iff.mpr ⟨others, ih (by omega) othersRead, rfl⟩

theorem items_append (carries : Carries more item item)
    {later : List α} (moreRead : items isSkipped item rounds more = some later) :
    ∀ {fewer : Nat} {text : List τ} {read : List α},
      items isSkipped item fewer text = some read →
      items isSkipped item (fewer + rounds) (text ++ more) = some (read ++ later) := by
  intro fewer
  induction fewer with
  | zero =>
    intro _ _ isRead
    cases isRead
  | succ fewer ih =>
    intro text read isRead
    rw [items] at isRead
    cases left : text.dropWhile isSkipped with
    | nil =>
      rw [left] at isRead
      cases isRead
      have skipped : (text ++ more).dropWhile isSkipped = more.dropWhile isSkipped := by
        rw [dropWhile_append, left]
        rfl
      have sameRead : items isSkipped item (fewer + 1 + rounds) (text ++ more) =
          items isSkipped item (fewer + 1 + rounds) more := by
        rw [Nat.add_right_comm, items, items, skipped]
      rw [sameRead]
      exact items_mono (Nat.le_add_left _ _) moreRead
    | cons c rest =>
      simp only [left] at isRead
      obtain ⟨⟨first, after⟩, firstRead, restRead⟩ := bind_eq_some_iff.mp isRead
      obtain ⟨others, othersRead, rfl⟩ := map_eq_some_iff.mp restRead
      have skipped : (text ++ more).dropWhile isSkipped = c :: (rest ++ more) := by
        rw [dropWhile_append, left]
        rfl
      rw [Nat.add_right_comm, items, skipped]
      change ((item ((c :: rest) ++ more)).bind fun (first, after) =>
        (items isSkipped item (fewer + rounds) after).map (first :: ·)) = _
      rw [carries firstRead]
      exact map_eq_some_iff.mpr ⟨others ++ later, ih othersRead, rfl⟩

theorem items_skip (skips : isSkipped c = true) :
    items isSkipped item (rounds + 1) (c :: rest) = items isSkipped item (rounds + 1) rest := by
  rw [items, items, dropWhile_cons_of_pos skips]

theorem items_cons {others : List α}
    (isKept : isSkipped c = false) (firstRead : item (c :: rest) = some (first, after))
    (othersRead : items isSkipped item rounds after = some others) :
    items isSkipped item (rounds + 1) (c :: rest) = some (first :: others) := by
  rw [items, dropWhile_cons_of_neg (by rw [isKept]; exact Bool.false_ne_true)]
  change ((item (c :: rest)).bind fun (first, after) =>
    (items isSkipped item rounds after).map (first :: ·)) = _
  rw [firstRead]
  exact map_eq_some_iff.mpr ⟨others, othersRead, rfl⟩

end Reader

end MemoryService.Foundation
