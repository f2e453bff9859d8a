import Mathlib.Data.List.Permutation
import Mathlib.Data.List.ProdSigma
import MemoryService.Subjects.Symmetry

/-!
# Words that are one edit apart

`matchAll` pairs the words from the left, each with the first word that is left for it.  That
finds a pairing unless a word takes the only partner of another.
-/

namespace MemoryService.Subjects

open List

inductive OneEdit : List Char → List Char → Prop
  | refl (x : List Char) : OneEdit x x
  | insert (front back : List Char) (c : Char) : OneEdit (front ++ back) (front ++ c :: back)
  | delete (front back : List Char) (c : Char) : OneEdit (front ++ c :: back) (front ++ back)
  | substitute (front back : List Char) (c d : Char) :
      OneEdit (front ++ c :: back) (front ++ d :: back)
  | swap (front back : List Char) (c d : Char) :
      OneEdit (front ++ c :: d :: back) (front ++ d :: c :: back)

section Edits

variable {x y front : List Char}

theorem OneEdit.symm (edit : OneEdit x y) : OneEdit y x := by
  cases edit with
  | refl => exact .refl _
  | insert front back c => exact .delete front back c
  | delete front back c => exact .insert front back c
  | substitute front back c d => exact .substitute front back d c
  | swap front back c d => exact .swap front back d c

theorem diffs_cons (a b : Char) (x y : List Char) :
    diffs (a :: x) (b :: y) =
      if a = b then (diffs x y).map (· + 1) else 0 :: (diffs x y).map (· + 1) := by
  rw [diffs, length_cons, range_succ_eq_map, filter_cons, filter_map]
  by_cases same : a = b <;> simp [same, diffs, Function.comp_def]

theorem diffs_self (x : List Char) : diffs x x = [] := by
  simp [diffs]

theorem diffs_append (front : List Char) :
    diffs (front ++ x) (front ++ y) = (diffs x y).map (· + front.length) := by
  induction front with
  | nil => simp
  | cons a front ih =>
    rw [cons_append, cons_append, diffs_cons, if_pos rfl, ih, map_map]
    rfl

theorem eq_of_diffs_nil (isLong : x.length = y.length) (same : diffs x y = []) : x = y := by
  refine ext_getElem? fun i => ?_
  by_cases inside : i < x.length
  · simpa using filter_eq_nil_iff.mp same i (mem_range.mpr inside)
  · rw [getElem?_eq_none (by omega), getElem?_eq_none (by omega)]

/-- The first difference of two texts of one length, and what is behind it. -/
theorem first_of_diffs {j : ℕ} {rest : List ℕ} (isLong : x.length = y.length)
    (isDiff : diffs x y = j :: rest) :
    ∃ front c d xs ys, x = front ++ c :: xs ∧ y = front ++ d :: ys ∧ j = front.length ∧
      xs.length = ys.length ∧ (diffs xs ys).map (· + (j + 1)) = rest := by
  induction x generalizing y j rest with
  | nil => cases isDiff
  | cons a x ih =>
    cases y with
    | nil => cases isLong
    | cons b y =>
      rw [diffs_cons] at isDiff
      split at isDiff
      · next isSame =>
          obtain ⟨i, later, isLater, rfl, rfl⟩ := map_eq_cons_iff.mp isDiff
          obtain ⟨front, c, d, xs, ys, rfl, rfl, rfl, sameLength, rfl⟩ :=
            ih (Nat.succ.inj isLong) isLater
          refine ⟨a :: front, c, d, xs, ys, rfl, by rw [isSame]; rfl, rfl, sameLength, ?_⟩
          rw [map_map]
          rfl
      · cases isDiff
        exact ⟨[], a, b, x, y, rfl, rfl, rfl, Nat.succ.inj isLong, rfl⟩

theorem oneLonger_insert (front back : List Char) (c : Char) :
    oneLonger (front ++ back) (front ++ c :: back) = true := by
  induction front with
  | nil =>
    rw [nil_append, nil_append]
    induction back generalizing c with
    | nil => rfl
    | cons b back ih =>
      rw [oneLonger]
      split
      · exact ih b
      · exact decide_eq_true rfl
  | cons a front ih => rwa [cons_append, cons_append, oneLonger, if_pos rfl]

theorem oneLonger_iff :
    oneLonger x y = true ↔ ∃ front back c, x = front ++ back ∧ y = front ++ c :: back := by
  constructor
  · intro longer
    fun_induction oneLonger x y with
    | case1 d => exact ⟨[], [], d, rfl, rfl⟩
    | case2 short c long ih =>
      obtain ⟨front, back, d, rfl, rfl⟩ := ih longer
      exact ⟨c :: front, back, d, rfl, rfl⟩
    | case3 c short d long differ =>
      exact ⟨[], c :: short, d, rfl, by rw [of_decide_eq_true longer]; rfl⟩
    | case4 => cases longer
  · rintro ⟨front, back, c, rfl, rfl⟩
    exact oneLonger_insert front back c

theorem inserted_iff (longer : x.length < y.length) : oneLonger x y = true ↔ OneEdit x y := by
  rw [oneLonger_iff]
  constructor
  · rintro ⟨front, back, c, rfl, rfl⟩
    exact .insert front back c
  · intro edit
    cases edit with
    | insert front back c => exact ⟨front, back, c, rfl, rfl⟩
    | refl => exact absurd longer (Nat.lt_irrefl _)
    | _ =>
      simp only [length_append, length_cons] at longer
      omega

theorem substitute_found (front back : List Char) {c d : Char} (differ : c ≠ d) :
    diffs (front ++ c :: back) (front ++ d :: back) = [front.length] := by
  rw [diffs_append, diffs_cons, if_neg differ, diffs_self]
  simp

theorem swap_found (front back : List Char) {c d : Char} (differ : c ≠ d) :
    diffs (front ++ c :: d :: back) (front ++ d :: c :: back) =
      [front.length, front.length + 1] := by
  rw [diffs_append, diffs_cons, if_neg differ, diffs_cons, if_neg differ.symm, diffs_self]
  simp [Nat.add_comm]

theorem oneEdit_of_diffs (isLong : x.length = y.length) (isEdit : (match diffs x y with
      | [_] => true
      | [i, j] => j = i + 1 && x[i]? = y[j]? && x[j]? = y[i]?
      | _ => false) = true) : OneEdit x y := by
  split at isEdit
  · next isDiff =>
      obtain ⟨front, c, d, xs, ys, rfl, rfl, -, sameLength, isRest⟩ := first_of_diffs isLong isDiff
      rw [eq_of_diffs_nil sameLength (map_eq_nil_iff.mp isRest)]
      exact .substitute _ _ _ _
  · next isDiff =>
      simp only [Bool.and_eq_true, decide_eq_true_eq] at isEdit
      obtain ⟨⟨next, isCross⟩, isBack⟩ := isEdit
      obtain ⟨front, c, d, xs, ys, rfl, rfl, isAt, sameLength, isRest⟩ :=
        first_of_diffs isLong isDiff
      obtain ⟨k, later, isLater, isNext, noMore⟩ := map_eq_cons_iff.mp isRest
      obtain ⟨between, e, f, us, vs, rfl, rfl, isThere, lastLength, isLast⟩ :=
        first_of_diffs sameLength isLater
      have noneBetween : between = [] := length_eq_zero_iff.mp (by omega)
      subst noneBetween next isAt
      rw [map_eq_nil_iff.mp noMore] at isLast
      simp at isCross isBack
      rw [eq_of_diffs_nil lastLength (map_eq_nil_iff.mp isLast), isCross, isBack]
      exact .swap _ _ _ _
  · cases isEdit

/-- The test says of two texts whether one edit at most leads from one to the other. -/
theorem edit_iff (x y : List Char) : editDistanceAtMostOne x y = true ↔ OneEdit x y := by
  rw [editDistanceAtMostOne]
  by_cases same : x = y
  · rw [if_pos same]
    exact iff_of_true rfl (same ▸ .refl x)
  rw [if_neg same]
  by_cases isLong : x.length = y.length
  · rw [if_pos isLong]
    refine ⟨oneEdit_of_diffs isLong, fun edit => ?_⟩
    cases edit with
    | refl => exact absurd rfl same
    | insert => simp at isLong
    | delete => simp at isLong
    | substitute front back c d => rw [substitute_found front back (by rintro rfl; exact same rfl)]
    | swap front back c d =>
      rw [swap_found front back (by rintro rfl; exact same rfl)]
      simp
  rw [if_neg isLong]
  by_cases longer : x.length < y.length
  · rw [if_pos longer, inserted_iff longer]
  · rw [if_neg longer, inserted_iff (by omega)]
    exact ⟨OneEdit.symm, OneEdit.symm⟩

theorem edit_distance_at_most_one_exact (x y : List Char) :
    (editDistanceAtMostOne x y = true ↔ OneEdit x y) ∧
      editDistanceAtMostOne x y = editDistanceAtMostOne y x :=
  ⟨edit_iff x y, oneEdit_symm x y⟩

end Edits

theorem near_iff {x y : String} :
    near x y = true ↔ 5 ≤ x.toList.length ∧ 5 ≤ y.toList.length ∧ OneEdit x.toList y.toList := by
  rw [near, Bool.and_eq_true, decide_eq_true_iff, edit_iff, Nat.le_min, and_assoc]

/-- A set of at most two words. -/
structure Words where
  items : List String
  nodup : items.Nodup
  atMost : items.length ≤ 2

namespace Words

/-- The words of one can be paired with the words of the other, so that each two are close. -/
def Pairable (a b : Words) : Prop :=
  ∃ partners, partners.Perm b.items ∧
    List.Forall₂ (fun x y => 5 ≤ x.toList.length ∧ 5 ≤ y.toList.length ∧
      OneEdit x.toList y.toList) a.items partners

/-- However the two are iterated. -/
def Accepted (a b : Words) : Prop :=
  ∀ onlyA onlyB, onlyA.Perm a.items → onlyB.Perm b.items →
    (variants onlyA onlyB = true ↔ a.Pairable b)

def closePairs (a b : Words) : ℕ :=
  ((a.items ×ˢ b.items).filter fun pair => near pair.1 pair.2).length

variable {a b : Words} {x y u v : String}

theorem cases_items (a : Words) :
    a.items = [] ∨ (∃ x, a.items = [x]) ∨ ∃ x y, x ≠ y ∧ a.items = [x, y] := by
  obtain ⟨items, nodup, atMost⟩ := a
  match items, nodup, atMost with
  | [], _, _ => exact .inl rfl
  | [x], _, _ => exact .inr (.inl ⟨x, rfl⟩)
  | [x, y], nodup, _ => exact .inr (.inr ⟨x, y, by simpa using nodup, rfl⟩)

theorem Pairable.length_eq (pairable : a.Pairable b) : a.items.length = b.items.length := by
  obtain ⟨partners, perm, close⟩ := pairable
  rw [close.length_eq, perm.length_eq]

theorem accepted_of_length (differ : a.items.length ≠ b.items.length) : a.Accepted b := by
  intro onlyA onlyB permA permB
  refine iff_of_false ?_ fun pairable => differ pairable.length_eq
  rw [variants, if_pos (.inl (by rwa [permA.length_eq, permB.length_eq]))]
  exact Bool.false_ne_true

theorem pairable_two (isA : a.items = [x, y]) (isB : b.items = [u, v]) :
    a.Pairable b ↔ near x u = true ∧ near y v = true ∨ near x v = true ∧ near y u = true := by
  simp only [Pairable, isA, isB, perm_pair, ← near_iff]
  constructor
  · rintro ⟨_, rfl | rfl, near⟩
    · exact .inl (by simpa using near)
    · exact .inr (by simpa using near)
  · rintro (near | near)
    · exact ⟨_, .inl rfl, by simpa using near⟩
    · exact ⟨_, .inr rfl, by simpa using near⟩

theorem variants_two (differ : u ≠ v) :
    variants [x, y] [u, v] = if near x u then near y v else near x v && near y u := by
  rw [variants, if_neg (by simp), matchAll_two x y differ]

theorem closePairs_two (isA : a.items = [x, y]) (isB : b.items = [u, v]) :
    a.closePairs b = (near x u).toNat + (near x v).toNat + (near y u).toNat + (near y v).toNat := by
  rw [closePairs, isA, isB]
  change ([(x, u), (x, v), (y, u), (y, v)].filter _).length = _
  cases h : near x u <;> cases i : near x v <;> cases j : near y u <;> cases k : near y v <;>
    simp [List.filter, h, i, j, k]

theorem accepted_two (isA : a.items = [x, y]) (isB : b.items = [u, v]) (differ : u ≠ v) :
    a.Accepted b ↔ a.closePairs b ≠ 3 := by
  rw [closePairs_two isA isB]
  simp only [Accepted, pairable_two isA isB, isA, isB, perm_pair]
  have orders (right : List String → List String → Prop) :
      (∀ onlyA onlyB, (onlyA = [x, y] ∨ onlyA = [y, x]) →
        (onlyB = [u, v] ∨ onlyB = [v, u]) → right onlyA onlyB) ↔
      (right [x, y] [u, v] ∧ right [x, y] [v, u]) ∧ right [y, x] [u, v] ∧ right [y, x] [v, u] := by
    constructor
    · intro all
      exact ⟨⟨all _ _ (.inl rfl) (.inl rfl), all _ _ (.inl rfl) (.inr rfl)⟩,
        all _ _ (.inr rfl) (.inl rfl), all _ _ (.inr rfl) (.inr rfl)⟩
    · rintro ⟨⟨first, second⟩, third, fourth⟩ _ _ (rfl | rfl) (rfl | rfl) <;> assumption
  rw [orders, variants_two differ, variants_two differ.symm, variants_two differ,
    variants_two differ.symm]
  cases near x u <;> cases near x v <;> cases near y u <;> cases near y v <;> decide

theorem accepted_short (a b : Words) (isShort : a.items.length < 2) : a.Accepted b := by
  by_cases sameLength : a.items.length = b.items.length
  · intro onlyA onlyB permA permB
    rcases a.cases_items with isA | ⟨x, isA⟩ | ⟨x, y, -, isA⟩ <;>
      rcases b.cases_items with isB | ⟨u, isB⟩ | ⟨u, v, -, isB⟩ <;>
      simp only [isA, isB, length_cons, length_nil] at sameLength isShort permA permB <;>
      try omega
    · rw [perm_nil] at permA permB
      simp [Pairable, isA, isB, permA, permB, variants, matchAll]
    · rw [perm_singleton] at permA permB
      simp only [Pairable, isA, isB, permA, permB, perm_singleton, ← near_iff]
      cases near : near x u <;> simp [variants, matchAll, near]
  · exact accepted_of_length sameLength

theorem closePairs_le (a b : Words) : a.closePairs b ≤ a.items.length * b.items.length := by
  rw [closePairs, ← length_product]
  exact length_filter_le _ _

theorem accepted_both (isShort : a.items.length < 2) : a.Accepted b ∧ b.Accepted a := by
  refine ⟨accepted_short a b isShort, ?_⟩
  by_cases sameLength : b.items.length = a.items.length
  · exact accepted_short b a (sameLength ▸ isShort)
  · exact accepted_of_length sameLength

/-- The two are told to be variants just where they can be paired, whatever the order and
whichever comes first, unless three of the four pairs of their words are close. -/
theorem accepted_iff (a b : Words) : (a.Accepted b ∧ b.Accepted a) ↔ a.closePairs b ≠ 3 := by
  have few := closePairs_le a b
  by_cases shortA : a.items.length < 2
  · have atMost := few.trans (Nat.mul_le_mul (Nat.le_of_lt_succ shortA) b.atMost)
    exact iff_of_true (accepted_both shortA) (by omega)
  by_cases shortB : b.items.length < 2
  · have atMost := few.trans (Nat.mul_le_mul a.atMost (Nat.le_of_lt_succ shortB))
    exact iff_of_true (accepted_both shortB).symm (by omega)
  rcases a.cases_items with isA | ⟨x, isA⟩ | ⟨x, y, different, isA⟩
  · exact absurd (by simp [isA]) shortA
  · exact absurd (by simp [isA]) shortA
  rcases b.cases_items with isB | ⟨u, isB⟩ | ⟨u, v, differ, isB⟩
  · exact absurd (by simp [isB]) shortB
  · exact absurd (by simp [isB]) shortB
  rw [accepted_two isA isB differ, accepted_two isB isA different, closePairs_two isA isB,
    closePairs_two isB isA, near_symm u x, near_symm u y, near_symm v x, near_symm v y]
  omega

/-- The first word takes the only partner of the second. -/
theorem partner_is_taken : ¬∀ a b : Words, a.Accepted b ∧ b.Accepted a := by
  intro always
  let asked : Words := ⟨["marta", "marko"], by decide, by decide⟩
  let stored : Words := ⟨["marka", "martas"], by decide, by decide⟩
  have accepted := (always asked stored).1 _ _ (.refl _) (.refl _)
  have pairable : asked.Pairable stored := (pairable_two rfl rfl).mpr (.inr (by decide))
  exact absurd (accepted.mpr pairable) (by decide)

end Words

end MemoryService.Subjects
