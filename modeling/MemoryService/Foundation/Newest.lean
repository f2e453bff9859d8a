import Mathlib.Data.List.Find
import Mathlib.Data.List.Sort

/-!
# The newest element of a kind

A list is read newest first by a key.  The first element of a kind that is met is the one
with the greatest key, and where keys are distinct it depends on the elements of the kind
only.
-/

namespace MemoryService.Foundation

open List Option

universe u v

section Newest

variable {α : Type u} {κ : Type v} [LinearOrder κ] (key : α → κ)

def newestFirst (list : List α) : List α := list.insertionSort fun a b => key b ≤ key a

def newest (kind : α → Bool) (list : List α) : Option α := (newestFirst key list).find? kind

variable {key} {kind : α → Bool} {list other : List α} {a : α}

theorem newestFirst_perm (key : α → κ) (list : List α) : (newestFirst key list).Perm list :=
  perm_insertionSort _ list

theorem mem_newestFirst : a ∈ newestFirst key list ↔ a ∈ list := (newestFirst_perm key list).mem_iff

theorem newestFirst_sorted (key : α → κ) (list : List α) :
    (newestFirst key list).Pairwise fun a b => key b ≤ key a :=
  have : Std.Total fun a b : α => key b ≤ key a := ⟨fun a b => le_total (key b) (key a)⟩
  have : IsTrans α fun a b => key b ≤ key a := ⟨fun _ _ _ first second => second.trans first⟩
  pairwise_insertionSort _ list

theorem first_of_sorted {relation : α → α → Prop} (sorted : list.Pairwise relation)
    (found : list.find? kind = some a) : ∀ b ∈ list, kind b = true → b = a ∨ relation a b := by
  induction list with
  | nil => simp
  | cons first rest ih =>
    rw [pairwise_cons] at sorted
    intro b member isKind
    rw [find?_cons] at found
    split at found
    case h_1 isFirst =>
      rw [← some.inj found]
      rcases mem_cons.mp member with isHead | isLater
      · exact .inl isHead
      · exact .inr (sorted.1 b isLater)
    case h_2 isOther =>
      rcases mem_cons.mp member with isHead | isLater
      · rw [isHead, isOther] at isKind
        cases isKind
      · exact ih sorted.2 found b isLater isKind

theorem newest_spec (found : newest key kind list = some a) :
    a ∈ list ∧ kind a = true ∧ ∀ b ∈ list, kind b = true → key b ≤ key a := by
  refine ⟨mem_newestFirst.mp (mem_of_find?_eq_some found), find?_some found, ?_⟩
  intro b member isKind
  rcases first_of_sorted (newestFirst_sorted key list) found b (mem_newestFirst.mpr member)
    isKind with same | before
  · rw [same]
  · exact before

theorem newest_eq_none_iff : newest key kind list = none ↔ ∀ b ∈ list, kind b = false := by
  rw [newest, find?_eq_none]
  simp only [mem_newestFirst, Bool.not_eq_true]

section

variable (distinct : ∀ a ∈ list, ∀ b ∈ list, key a = key b → a = b)
include distinct

theorem newest_eq_some_iff :
    newest key kind list = some a ↔
      a ∈ list ∧ kind a = true ∧ ∀ b ∈ list, kind b = true → key b ≤ key a := by
  constructor
  · exact newest_spec
  · intro isNewest
    obtain ⟨member, isKind, greatest⟩ := isNewest
    cases found : newest key kind list with
    | none =>
      rw [newest_eq_none_iff.mp found a member] at isKind
      cases isKind
    | some b =>
      obtain ⟨otherMember, isOther, above⟩ := newest_spec found
      rw [distinct b otherMember a member
        (le_antisymm (greatest b otherMember isOther) (above a member isKind))]

theorem newest_of_filter (distinct' : ∀ a ∈ other, ∀ b ∈ other, key a = key b → a = b)
    (same : list.filter kind = other.filter kind) :
    newest key kind list = newest key kind other := by
  have mem : ∀ b, kind b = true → (b ∈ list ↔ b ∈ other) := by
    intro b isKind
    have iff : b ∈ list.filter kind ↔ b ∈ other.filter kind := by rw [same]
    rw [mem_filter, mem_filter] at iff
    simpa only [isKind, and_true] using iff
  apply ext
  intro a
  rw [newest_eq_some_iff distinct, newest_eq_some_iff distinct']
  constructor
  · intro isNewest
    obtain ⟨member, isKind, above⟩ := isNewest
    exact ⟨(mem a isKind).mp member, isKind, fun b isB kindB =>
      above b ((mem b kindB).mpr isB) kindB⟩
  · intro isNewest
    obtain ⟨member, isKind, above⟩ := isNewest
    exact ⟨(mem a isKind).mpr member, isKind, fun b isB kindB =>
      above b ((mem b kindB).mp isB) kindB⟩

end

theorem newest_congr {kind' : α → Bool} (same : ∀ b ∈ list, kind b = kind' b) :
    newest key kind list = newest key kind' list :=
  find?_congr fun b member => same b (mem_newestFirst.mp member)

theorem newestFirst_strict (distinct : (list.map key).Nodup) :
    (newestFirst key list).Pairwise fun a b => key b < key a := by
  have perm := (newestFirst_perm key list).map key
  have different : (newestFirst key list).Pairwise fun a b => key a ≠ key b :=
    pairwise_map.mp (perm.nodup_iff.mpr distinct)
  apply ((newestFirst_sorted key list).and different).imp
  intro a b holds
  exact lt_of_le_of_ne holds.1 (Ne.symm holds.2)

theorem find?_take_of_strict (sorted : list.Pairwise fun a b => key b < key a) (n : Nat) :
    (list.take n).find? kind = some a ↔
      list.find? kind = some a ∧ (list.countP fun b => key a < key b) < n := by
  induction list generalizing n with
  | nil => simp
  | cons first rest ih =>
    rw [pairwise_cons] at sorted
    cases n with
    | zero => simp
    | succ n =>
      rw [take_succ_cons, find?_cons, find?_cons, countP_cons]
      cases isKind : kind first with
      | true =>
        constructor
        · intro found
          rw [← some.inj found]
          have noneBefore : (rest.countP fun b => key first < key b) = 0 := by
            rw [countP_eq_zero]
            intro b member
            simpa using (sorted.1 b member).le
          simp [noneBefore]
        · exact fun found => found.1
      | false =>
        show (rest.take n).find? kind = some a ↔ rest.find? kind = some a ∧ _
        rw [ih sorted.2]
        apply and_congr_right
        intro found
        have before := sorted.1 a (mem_of_find?_eq_some found)
        simp [before]

theorem find?_take_newestFirst (distinct : (list.map key).Nodup) (n : Nat) :
    ((newestFirst key list).take n).find? kind = some a ↔
      newest key kind list = some a ∧ (list.countP fun b => key a < key b) < n := by
  rw [find?_take_of_strict (newestFirst_strict distinct), newest,
    (newestFirst_perm key list).countP_eq]

theorem newest_filter {first : α → Bool}
    (distinct : ∀ a ∈ list, ∀ b ∈ list, key a = key b → a = b) :
    newest key kind (list.filter first) = newest key (fun b => first b && kind b) list := by
  have distinct' : ∀ a ∈ list.filter first, ∀ b ∈ list.filter first, key a = key b → a = b :=
    fun a isA b isB => distinct a (mem_of_mem_filter isA) b (mem_of_mem_filter isB)
  apply ext
  intro a
  rw [newest_eq_some_iff distinct', newest_eq_some_iff distinct]
  simp only [mem_filter, Bool.and_eq_true, and_imp, and_assoc]

theorem insertionSort_concat {α : Type u} {relation : α → α → Prop} [DecidableRel relation]
    {list : List α} {last : α} (greatest : ∀ a ∈ list, relation a last) :
    (list ++ [last]).insertionSort relation = list.insertionSort relation ++ [last] := by
  induction list with
  | nil => rfl
  | cons first rest ih =>
    have inserted : ∀ sorted : List α, List.orderedInsert relation first (sorted ++ [last]) =
        List.orderedInsert relation first sorted ++ [last] := by
      intro sorted
      induction sorted with
      | nil => simp [List.orderedInsert, greatest first mem_cons_self]
      | cons next others ih =>
        rw [cons_append, List.orderedInsert, List.orderedInsert]
        split
        · rfl
        · rw [ih, cons_append]
    rw [cons_append, insertionSort_cons, insertionSort_cons,
      ih fun a member => greatest a (mem_cons_of_mem _ member), inserted]

end Newest

end MemoryService.Foundation
