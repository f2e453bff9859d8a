import Mathlib.Data.List.Sort

/-!
# Positions and ranks

Elements stand in a line, in groups that follow each other, and are sorted by a key.
-/

namespace MemoryService.Foundation

open List Option

/-- Each of the first `count` positions has a rank of its own below `count`, and each rank is
taken. -/
structure Ranking (count : Nat) (rank : Nat → Nat) : Prop where
  small : ∀ {i}, i < count → rank i < count
  own : ∀ {i j}, i < count → j < count → rank i = rank j → i = j
  taken : ∀ {k}, k < count → ∃ i, i < count ∧ rank i = k

/-- Two positions that are ranked one after the other, of two groups, are neighbours. -/
def TurnsAtBorders (count : Nat) (rank group : Nat → Nat) : Prop :=
  ∀ i j, i < count → j < count → rank j = rank i + 1 → group i ≠ group j → j = i + 1

/-- Whatever a border is between, or next to, is ranked in order. -/
def RisesAtBorders (count : Nat) (rank group : Nat → Nat) : Prop :=
  ∀ i j m, i < j → j < count → i ≤ m + 1 → m ≤ j → m + 1 < count →
    group m ≠ group (m + 1) → rank i < rank j

variable {count : Nat} {rank group : Nat → Nat}

theorem exists_crossing {p : Nat → Prop} :
    ∀ {distance first : Nat}, p first → ¬p (first + distance) →
      ∃ k, first ≤ k ∧ k < first + distance ∧ p k ∧ ¬p (k + 1) := by
  intro distance
  induction distance with
  | zero => exact fun holds fails => absurd holds fails
  | succ distance ih =>
    intro first holds fails
    by_cases next : p (first + 1)
    · have isFurther : first + (distance + 1) = first + 1 + distance := by omega
      obtain ⟨k, starts, ends, isLast, isFirst⟩ := ih next (isFurther ▸ fails)
      exact ⟨k, by omega, by omega, isLast, isFirst⟩
    · exact ⟨first, Nat.le_refl _, by omega, holds, next⟩

section

variable (ranking : Ranking count rank)
include ranking

theorem exists_turn (side : Nat → Prop) {i j : Nat}
    (isFirst : i < count) (isSecond : j < count) (inOrder : rank i < rank j) (holds : side i)
    (fails : ¬side j) :
    ∃ a b, a < count ∧ b < count ∧ rank b = rank a + 1 ∧ side a ∧ ¬side b ∧
      rank i ≤ rank a ∧ rank b ≤ rank j := by
  have isSide : ∀ {k position}, position < count → rank position = k →
      ((∃ a, a < count ∧ rank a = k ∧ side a) ↔ side position) := by
    intro k position within isRank
    constructor
    · rintro ⟨a, isThere, sameRank, isHere⟩
      rwa [← ranking.own isThere within (sameRank.trans isRank.symm)]
    · exact fun isHere => ⟨position, within, isRank, isHere⟩
  have isOther : ¬∃ a, a < count ∧ rank a = rank i + (rank j - rank i) ∧ side a := by
    rw [Nat.add_sub_cancel' (Nat.le_of_lt inOrder)]
    exact fun isHere => fails ((isSide isSecond rfl).mp isHere)
  obtain ⟨k, starts, ends, ⟨a, isThere, rfl, isHere⟩, isOver⟩ :=
    exists_crossing (p := fun k => ∃ a, a < count ∧ rank a = k ∧ side a)
      ((isSide isFirst rfl).mpr holds) isOther
  have within := ranking.small isSecond
  obtain ⟨b, isNext, isRank⟩ := ranking.taken (show rank a + 1 < count by omega)
  exact ⟨a, b, isThere, isNext, isRank, isHere,
    fun isStill => isOver ((isSide isNext isRank).mpr isStill), starts, by omega⟩

section

variable (rising : ∀ i j, i ≤ j → j < count → group i ≤ group j)
include rising

theorem border_of_turns
    (turns : TurnsAtBorders count rank group) {m : Nat} (within : m + 1 < count)
    (border : group m ≠ group (m + 1)) :
    (∀ i j, i ≤ m → m < j → j < count → rank i < rank j) ∧
      (∀ i, i ≤ m → rank i ≤ rank m) ∧ ∀ j, m < j → j < count → rank (m + 1) ≤ rank j := by
  have apart : ∀ i j, i ≤ m → m < j → j < count → group i < group j := by
    intro i j early late isThere
    have first := rising i m early (by omega)
    have middle := rising m (m + 1) (Nat.le_succ m) within
    have second := rising (m + 1) j late isThere
    omega
  have ordered : ∀ i j, i ≤ m → m < j → j < count → rank i < rank j := by
    intro i j early late isThere
    by_contra notBefore
    have differs : rank i ≠ rank j := fun same => by
      have := ranking.own (by omega) isThere same
      omega
    obtain ⟨a, b, isFirst, isSecond, isNext, isLate, isEarly, -, -⟩ :=
      exists_turn ranking (fun k => m < k) isThere (by omega)
        (show rank j < rank i by omega) late (Nat.not_lt.mpr early)
    have further := apart b a (Nat.le_of_not_lt isEarly) isLate isFirst
    have := turns a b isFirst isSecond isNext (by omega)
    omega
  refine ⟨ordered, ?_, ?_⟩
  · intro i early
    have before := ordered i (m + 1) early (Nat.lt_succ_self m) within
    obtain ⟨a, b, isFirst, isSecond, isNext, isEarly, isLate, isAfter, -⟩ :=
      exists_turn ranking (fun k => k ≤ m) (show i < count by omega) within before early
        (by omega)
    have further := apart a b isEarly (Nat.lt_of_not_le isLate) isSecond
    have follows := turns a b isFirst isSecond isNext (by omega)
    have isBorder : a = m := by omega
    exact isBorder ▸ isAfter
  · intro j late isThere
    have before := ordered m j (Nat.le_refl m) late isThere
    obtain ⟨a, b, isFirst, isSecond, isNext, isEarly, isLate, -, isBefore⟩ :=
      exists_turn ranking (fun k => k ≤ m) (show m < count by omega) isThere before
        (Nat.le_refl m) (by omega)
    have further := apart a b isEarly (Nat.lt_of_not_le isLate) isSecond
    have follows := turns a b isFirst isSecond isNext (by omega)
    have isBorder : b = m + 1 := by omega
    exact isBorder ▸ isBefore

theorem turnsAtBorders_iff
    :
    TurnsAtBorders count rank group ↔ RisesAtBorders count rank group := by
  constructor
  · intro turns i j m inOrder isThere starts ends within border
    obtain ⟨ordered, isLast, isFirst⟩ := border_of_turns ranking rising turns within border
    have differs : rank i ≠ rank j := fun same => by
      have := ranking.own (by omega) isThere same
      omega
    by_cases early : i ≤ m
    · by_cases late : m < j
      · exact ordered i j early late isThere
      · have isBorder : j = m := by omega
        have := isLast i early
        rw [isBorder] at differs ⊢
        omega
    · have isBorder : i = m + 1 := by omega
      have := isFirst j (by omega) isThere
      rw [isBorder] at differs ⊢
      omega
  · intro rises i j isFirst isSecond isNext border
    have ofBetween : ∀ {first second : Nat}, first < second → second < count →
        group first ≠ group second → ∃ m, first ≤ m ∧ m < second ∧ group m ≠ group (m + 1) := by
      intro first second before within differs
      have isOther : ¬group (first + (second - first)) = group first := by
        rw [Nat.add_sub_cancel' (Nat.le_of_lt before)]
        exact Ne.symm differs
      obtain ⟨m, starts, ends, same, other⟩ :=
        exists_crossing (p := fun k => group k = group first) rfl isOther
      exact ⟨m, starts, by omega, fun equal => other (equal ▸ same)⟩
    rcases Nat.lt_trichotomy i j with before | same | isAfter
    · obtain ⟨m, starts, ends, isBorder⟩ := ofBetween before isSecond border
      by_contra notNext
      -- what stands between the two is ranked between them
      have first := rises i (max m (i + 1)) m (by omega) (by omega) (by omega) (by omega)
        (by omega) isBorder
      have second := rises (max m (i + 1)) j m (by omega) isSecond (by omega) (by omega)
        (by omega) isBorder
      omega
    · exact absurd (congrArg group same) border
    · obtain ⟨m, starts, ends, isBorder⟩ := ofBetween isAfter isFirst (Ne.symm border)
      have falls := rises j i m isAfter isFirst (by omega) (by omega) (by omega) isBorder
      omega

end

end

section Sorted

universe u

variable {α : Type u}

theorem infix_pair_iff {list : List α} {x y : α} :
    [x, y] <:+: list ↔ ∃ k, list[k]? = some x ∧ list[k + 1]? = some y := by
  rw [infix_iff_getElem?]
  constructor
  · rintro ⟨k, -, same⟩
    have first := same 0 (by simp)
    have second := same 1 (by simp)
    rw [Nat.zero_add] at first
    rw [Nat.add_comm] at second
    exact ⟨k, first, second⟩
  · rintro ⟨k, first, second⟩
    obtain ⟨within, -⟩ := List.getElem?_eq_some_iff.mp second
    refine ⟨k, by simp only [length_cons, length_nil]; omega, fun i small => ?_⟩
    match i with
    | 0 => rw [Nat.zero_add]; exact first
    | 1 => rw [Nat.add_comm]; exact second

variable {r : α → α → Prop} [DecidableRel r] [Std.Total r] [IsTrans α r]

theorem exists_ranking {placed : List α} (distinct : placed.Nodup) :
    ∃ rank, Ranking placed.length rank ∧
      (∀ {i j x y}, placed[i]? = some x → placed[j]? = some y → i < j → (rank i < rank j ↔ r x y)) ∧
      ∀ {i j x y}, placed[i]? = some x → placed[j]? = some y →
        ([x, y] <:+: placed.insertionSort r ↔ rank j = rank i + 1) := by
  classical
  have isPerm : (placed.insertionSort r).Perm placed := perm_insertionSort r placed
  have sorted : (placed.insertionSort r).Pairwise r := pairwise_insertionSort r placed
  have sortedDistinct : (placed.insertionSort r).Nodup := isPerm.nodup_iff.mpr distinct
  have stable : ∀ {x y}, r x y → [x, y].Sublist placed → [x, y].Sublist (placed.insertionSort r) :=
    fun rises earlier => pair_sublist_insertionSort rises earlier
  generalize placed.insertionSort r = ranked at isPerm sorted sortedDistinct stable
  let rank (i : Nat) : Nat := (placed[i]?).elim 0 ranked.idxOf
  have atRank : ∀ {i x}, placed[i]? = some x → ranked[rank i]? = some x := by
    intro i x isThere
    have member : x ∈ ranked := isPerm.mem_iff.mpr (mem_of_getElem? isThere)
    have within := idxOf_lt_length_iff.mpr member
    simp only [rank, isThere, elim_some, getElem?_eq_getElem within, getElem_idxOf]
  have isRank : ∀ {i x k}, placed[i]? = some x → ranked[k]? = some x → k = rank i := by
    intro i x k isThere isRanked
    obtain ⟨within, same⟩ := List.getElem?_eq_some_iff.mp isRanked
    obtain ⟨within', same'⟩ := List.getElem?_eq_some_iff.mp (atRank isThere)
    exact (sortedDistinct.getElem_inj_iff).mp (same.trans same'.symm)
  refine ⟨rank, ⟨?_, ?_, ?_⟩, ?_, ?_⟩
  · intro i within
    obtain ⟨isSmall, -⟩ := List.getElem?_eq_some_iff.mp (atRank (List.getElem?_eq_getElem within))
    exact isPerm.length_eq ▸ isSmall
  · intro i j isFirst isSecond same
    have first := atRank (getElem?_eq_getElem isFirst)
    have second := atRank (getElem?_eq_getElem isSecond)
    rw [same, second] at first
    exact (distinct.getElem_inj_iff).mp (some.inj first).symm
  · intro k within
    have isSmall : k < ranked.length := isPerm.length_eq.symm ▸ within
    have isRanked : ranked[k]? = some ranked[k] := getElem?_eq_getElem isSmall
    obtain ⟨i, isThere, same⟩ := mem_iff_getElem.mp (isPerm.mem_iff.mp (mem_of_getElem? isRanked))
    exact ⟨i, isThere, (isRank (List.getElem?_eq_some_iff.mpr ⟨isThere, same⟩) isRanked).symm⟩
  · intro i j x y isFirst isSecond earlier
    obtain ⟨withinFirst, sameFirst⟩ := List.getElem?_eq_some_iff.mp (atRank isFirst)
    obtain ⟨withinSecond, sameSecond⟩ := List.getElem?_eq_some_iff.mp (atRank isSecond)
    constructor
    · intro inOrder
      have rises := pairwise_iff_getElem.mp sorted _ _ withinFirst withinSecond inOrder
      rwa [sameFirst, sameSecond] at rises
    · intro rises
      have apart : placed.Pairwise fun a b => [a, b].Sublist placed :=
        pairwise_iff_forall_sublist.mpr fun isSub => isSub
      obtain ⟨isThere, isX⟩ := List.getElem?_eq_some_iff.mp isFirst
      obtain ⟨isThere', isY⟩ := List.getElem?_eq_some_iff.mp isSecond
      have isSub := pairwise_iff_getElem.mp apart i j isThere isThere' earlier
      rw [isX, isY] at isSub
      have rising : ranked.Pairwise fun a b => ranked.idxOf a < ranked.idxOf b := by
        refine pairwise_iff_getElem.mpr fun a b isA isB before => ?_
        rwa [sortedDistinct.idxOf_getElem, sortedDistinct.idxOf_getElem]
      have before := pairwise_iff_forall_sublist.mp rising (stable rises isSub)
      simpa only [rank, isFirst, isSecond, elim_some] using before
  · intro i j x y isFirst isSecond
    rw [infix_pair_iff]
    constructor
    · rintro ⟨k, isX, isY⟩
      rw [← isRank isFirst isX, ← isRank isSecond isY]
    · intro isNext
      exact ⟨rank i, atRank isFirst, isNext ▸ atRank isSecond⟩

end Sorted

end MemoryService.Foundation
