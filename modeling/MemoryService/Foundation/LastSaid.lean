import MemoryService.Foundation.FirstSeen
import Mathlib.Data.List.TakeWhile

/-!
# What is said last

Items name keys, and an item may say something of a key that it names.
-/

namespace MemoryService.Foundation

open List

universe u v w

variable {α : Type u} {κ : Type v} {β : Type w} [DecidableEq κ] (keys : α → List κ)
  (tells : α → κ → Option β)

def lastSaid (items : List α) : Option β :=
  (firstSeen id (items.flatMap keys)).reverse.findSome? fun k =>
    items.reverse.findSome? fun item => tells item k

/-- An item names a key after each other key of which anything is said, but for those that an
item has which does not name it; and the value is said of the key by another item, or by this
one alone. -/
def CanBeLast (items : List α) (value : β) : Prop :=
  ∃ k first rest, items.Perm (first :: rest) ∧ k ∈ keys first ∧
    (∀ other, other ≠ k → (∃ item ∈ items, (tells item other).isSome) →
      other ∈ (keys first).takeWhile (· ≠ k) ∨ ∃ item ∈ rest, other ∈ keys item ∧ k ∉ keys item) ∧
    ((∃ item ∈ rest, tells item k = some value) ∨
      (∀ item ∈ rest, tells item k = none) ∧ tells first k = some value)

variable {keys tells} {items : List α} {k : κ} {value : β} {named earlier later : List κ}

omit [DecidableEq κ] in
theorem findSome?_reverse_isSome :
    (items.reverse.findSome? fun item => tells item k).isSome ↔
      ∃ item ∈ items, (tells item k).isSome := by
  simp [isSome_findSome?]

theorem canBeLast_perm {others : List α} (isPerm : items.Perm others) :
    CanBeLast keys tells items value ↔ CanBeLast keys tells others value := by
  have sameRest : ∀ first rest, items.Perm (first :: rest) ↔ others.Perm (first :: rest) :=
    fun first rest => ⟨isPerm.symm.trans, isPerm.trans⟩
  simp only [CanBeLast, sameRest, isPerm.mem_iff]

theorem eq_takeWhile_append (isNamed : k ∈ named) :
    ∃ after, named = named.takeWhile (· ≠ k) ++ k :: after := by
  induction named with
  | nil => cases isNamed
  | cons next rest ih =>
    by_cases isKey : next = k
    · exact ⟨rest, by simp [isKey]⟩
    · have isLater : k ∈ rest := (mem_cons.mp isNamed).resolve_left (Ne.symm isKey)
      obtain ⟨after, isSplit⟩ := ih isLater
      refine ⟨after, ?_⟩
      rw [takeWhile_cons_of_pos (by simpa using isKey), cons_append, ← isSplit]

theorem notMem_takeWhile_ne : k ∉ named.takeWhile (· ≠ k) := by
  intro member
  simpa using mem_takeWhile_imp member

section Order

variable {items before : List α} {first : α} {k : κ}

theorem firstSeen_first_named (rest : List α) (notBefore : ∀ item ∈ before, k ∉ keys item)
    (isNamed : k ∈ keys first) :
    ∃ later, firstSeen id ((before ++ first :: rest).flatMap keys) =
      firstSeen id (before.flatMap keys ++ (keys first).takeWhile (· ≠ k)) ++ k :: later := by
  obtain ⟨after, isSplit⟩ := eq_takeWhile_append isNamed
  have isNew : k ∉ before.flatMap keys ++ (keys first).takeWhile (· ≠ k) := by
    intro member
    cases mem_append.mp member with
    | inl isBefore =>
      obtain ⟨item, isItem, names⟩ := mem_flatMap.mp isBefore
      exact notBefore item isItem names
    | inr isOwn => exact notMem_takeWhile_ne isOwn
  obtain ⟨later, isMet⟩ := firstSeen_met (after ++ rest.flatMap keys) isNew
  refine ⟨later, ?_⟩
  rw [← isMet, flatMap_append, flatMap_cons]
  conv_lhs => rw [isSplit]
  simp only [append_assoc, cons_append]

theorem lastSaid_eq (isSplit : firstSeen id (items.flatMap keys) = earlier ++ k :: later)
    (silent : ∀ other ∈ later, (items.reverse.findSome? fun item => tells item other) = none)
    (speaks : (items.reverse.findSome? fun item => tells item k).isSome) :
    lastSaid keys tells items = items.reverse.findSome? fun item => tells item k := by
  obtain ⟨value, isSaid⟩ := Option.isSome_iff_exists.mp speaks
  rw [lastSaid, isSplit, reverse_append, reverse_cons, append_assoc,
    findSome?_append, findSome?_eq_none_iff.mpr (by simpa using silent)]
  simp [isSaid]

end Order

theorem CanBeLast.exists_perm (named : ∀ item k, (tells item k).isSome → k ∈ keys item)
    (canBe : CanBeLast keys tells items value) :
    ∃ others : List α, others.Perm items ∧ lastSaid keys tells others = some value := by
  obtain ⟨k, first, rest, isPerm, isNamed, areBefore, isValue⟩ := canBe
  -- first the items that do not name the key, then the item, then the others that name it
  have arranged : ∃ more : List α, more.Perm (rest.filter fun item => k ∈ keys item) ∧
      ((first :: more).reverse.findSome? fun item => tells item k) = some value := by
    cases isValue with
    | inl isSaid =>
      obtain ⟨item, isRest, tellsValue⟩ := isSaid
      have isMore : item ∈ rest.filter fun item => k ∈ keys item :=
        mem_filter.mpr ⟨isRest, decide_eq_true (named item k (by simp [tellsValue]))⟩
      obtain ⟨left, right, isSplit⟩ := append_of_mem isMore
      refine ⟨(left ++ right) ++ [item], ?_, ?_⟩
      · rw [isSplit]
        exact (perm_append_singleton item (left ++ right)).trans perm_middle.symm
      · simp [tellsValue]
    | inr isAlone =>
      refine ⟨rest.filter fun item => k ∈ keys item, List.Perm.refl _, ?_⟩
      have silent : ((rest.filter fun item => k ∈ keys item).reverse.findSome?
          fun item => tells item k) = none := by
        rw [findSome?_eq_none_iff]
        intro item member
        exact isAlone.1 item (mem_of_mem_filter (mem_reverse.mp member))
      rw [reverse_cons, findSome?_append, silent]
      simp [isAlone.2]
  obtain ⟨more, isMore, isLast⟩ := arranged
  have others : ((rest.filter fun item => k ∉ keys item) ++ first :: more).Perm items := by
    refine (perm_middle.trans (List.Perm.cons first ?_)).trans isPerm.symm
    refine (List.Perm.append_left _ isMore).trans ?_
    refine perm_append_comm.trans ?_
    simpa using filter_append_perm (fun item => decide (k ∈ keys item)) rest
  refine ⟨_, others, ?_⟩
  have notBefore : ∀ item ∈ rest.filter fun item => k ∉ keys item, k ∉ keys item :=
    fun item member => by simpa using (mem_filter.mp member).2
  obtain ⟨later, isSplit⟩ := firstSeen_first_named more notBefore isNamed
  have isSaid : (((rest.filter fun item => k ∉ keys item) ++ first :: more).reverse.findSome?
      fun item => tells item k) = some value := by
    rw [reverse_append, findSome?_append, isLast]
    rfl
  rw [lastSaid_eq isSplit ?_ (by rw [isSaid]; rfl), isSaid]
  intro other isLater
  by_contra speaks
  have nodup := firstSeen_nodup (((rest.filter fun item => k ∉ keys item) ++
    first :: more).flatMap keys)
  rw [isSplit, nodup_append, nodup_cons] at nodup
  have apart : other ≠ k := fun same => nodup.2.1.1 (same ▸ isLater)
  have isSome := findSome?_reverse_isSome.mp (Option.isSome_iff_ne_none.mpr speaks)
  simp only [others.mem_iff] at isSome
  have isEarlier : other ∈ firstSeen id ((rest.filter fun item => k ∉ keys item).flatMap keys ++
      (keys first).takeWhile (· ≠ k)) := by
    rw [mem_firstSeen, mem_append]
    cases areBefore other apart isSome with
    | inl isOwn => exact .inr isOwn
    | inr isEarlier =>
      obtain ⟨item, isRest, names, notNamed⟩ := isEarlier
      exact .inl (mem_flatMap.mpr ⟨item, mem_filter.mpr ⟨isRest, decide_eq_true notNamed⟩, names⟩)
  exact nodup.2.2 other isEarlier other (mem_cons_of_mem k isLater) rfl

section Last

variable {before after : List α} {first : α} {k : κ}

omit [DecidableEq κ] in
theorem told_last (silentBefore : ∀ item ∈ before, tells item k = none)
    (isSaid : ((before ++ first :: after).reverse.findSome? fun item => tells item k) =
      some value) :
    (∃ item ∈ before ++ after, tells item k = some value) ∨
      (∀ item ∈ before ++ after, tells item k = none) ∧ tells first k = some value := by
  rw [reverse_append, reverse_cons, append_assoc, findSome?_append] at isSaid
  cases isAfter : after.reverse.findSome? fun item => tells item k with
  | some told =>
    rw [isAfter, Option.some_or, Option.some.injEq] at isSaid
    obtain ⟨item, isItem, tellsValue⟩ := exists_of_findSome?_eq_some isAfter
    refine .inl ⟨item, mem_append_right _ (mem_reverse.mp isItem), ?_⟩
    rw [tellsValue, isSaid]
  | none =>
    have silentAfter := findSome?_eq_none_iff.mp isAfter
    have noneBefore : (before.reverse.findSome? fun item => tells item k) = none :=
      findSome?_eq_none_iff.mpr fun item member => silentBefore item (mem_reverse.mp member)
    rw [isAfter, findSome?_append, noneBefore] at isSaid
    refine .inr ⟨?_, by simpa using isSaid⟩
    intro item isRest
    cases mem_append.mp isRest with
    | inl isBefore => exact silentBefore item isBefore
    | inr isLater => exact silentAfter item (mem_reverse.mpr isLater)

theorem named_before {other : κ}
    (notBefore : ∀ item ∈ before, k ∉ keys item) (isNamed : k ∈ keys first)
    (isSplit : firstSeen id ((before ++ first :: after).flatMap keys) = earlier ++ k :: later)
    (isEarlier : other ∈ earlier) :
    other ∈ (keys first).takeWhile (· ≠ k) ∨
      ∃ item ∈ before ++ after, other ∈ keys item ∧ k ∉ keys item := by
  obtain ⟨more, isMet⟩ := firstSeen_first_named after notBefore isNamed
  have nodup := firstSeen_nodup ((before ++ first :: after).flatMap keys)
  rw [isSplit, nodup_append, nodup_cons] at nodup
  have notEarlier : k ∉ earlier := fun member => nodup.2.2 k member k mem_cons_self rfl
  have same := (append_cons_inj_of_notMem notEarlier nodup.2.1.1).mp (isSplit.symm.trans isMet)
  rw [same.1, mem_firstSeen, mem_append] at isEarlier
  cases isEarlier with
  | inl isBefore =>
    obtain ⟨item, isItem, names⟩ := mem_flatMap.mp isBefore
    exact .inr ⟨item, mem_append_left _ isItem, names, notBefore item isItem⟩
  | inr isOwn => exact .inl isOwn

end Last

theorem canBeLast_of_lastSaid (named : ∀ item k, (tells item k).isSome → k ∈ keys item)
    (isLast : lastSaid keys tells items = some value) : CanBeLast keys tells items value := by
  obtain ⟨later, k, earlier, isReverse, isSaid, silent⟩ := findSome?_eq_some_iff.mp isLast
  have isSplit : firstSeen id (items.flatMap keys) = earlier.reverse ++ k :: later.reverse := by
    rw [← reverse_reverse (firstSeen id (items.flatMap keys)), isReverse]
    simp
  have isKey : k ∈ items.flatMap keys := by
    rw [← mem_firstSeen, isSplit]
    exact mem_append_right _ mem_cons_self
  have isFound : (items.find? fun item => decide (k ∈ keys item)).isSome := by
    simpa using isKey
  obtain ⟨first, isFirst⟩ := Option.isSome_iff_exists.mp isFound
  obtain ⟨isNamed, before, after, rfl, notBefore⟩ := find?_eq_some_iff_append.mp isFirst
  have isNamed : k ∈ keys first := of_decide_eq_true isNamed
  have notBefore : ∀ item ∈ before, k ∉ keys item := by simpa using notBefore
  refine ⟨k, first, before ++ after, perm_middle, isNamed, ?_, ?_⟩
  · intro other apart speaks
    have isOther : other ∈ earlier.reverse ++ k :: later.reverse := by
      obtain ⟨item, isItem, tellsOther⟩ := speaks
      rw [← isSplit, mem_firstSeen, mem_flatMap]
      exact ⟨item, isItem, named item other tellsOther⟩
    have notLater : other ∉ later := by
      intro isLater
      have isSome := findSome?_reverse_isSome.mpr speaks
      rw [silent other isLater] at isSome
      cases isSome
    have isEarlier : other ∈ earlier.reverse := by simpa [apart, notLater] using isOther
    exact named_before notBefore isNamed isSplit isEarlier
  · have silentBefore : ∀ item ∈ before, tells item k = none := by
      intro item isItem
      rw [Option.eq_none_iff_forall_ne_some]
      exact fun told tellsSome => notBefore item isItem (named item k (by simp [tellsSome]))
    exact told_last silentBefore isSaid

theorem lastSaid_isSome (named : ∀ item k, (tells item k).isSome → k ∈ keys item) :
    (lastSaid keys tells items).isSome ↔ ∃ item ∈ items, ∃ k, (tells item k).isSome := by
  rw [lastSaid, isSome_findSome?, any_eq_true]
  constructor
  · intro isSaid
    obtain ⟨k, -, speaks⟩ := isSaid
    obtain ⟨item, isItem, tellsSome⟩ := findSome?_reverse_isSome.mp speaks
    exact ⟨item, isItem, k, tellsSome⟩
  · intro isSaid
    obtain ⟨item, isItem, k, tellsSome⟩ := isSaid
    refine ⟨k, ?_, findSome?_reverse_isSome.mpr ⟨item, isItem, tellsSome⟩⟩
    rw [mem_reverse, mem_firstSeen]
    exact mem_flatMap.mpr ⟨item, isItem, named item k tellsSome⟩

theorem lastSaid_perm_iff (named : ∀ item k, (tells item k).isSome → k ∈ keys item) :
    (∀ others : List α, others.Perm items →
        lastSaid keys tells others = lastSaid keys tells items) ↔
      ∀ first second, CanBeLast keys tells items first → CanBeLast keys tells items second →
        first = second := by
  constructor
  · intro same first second canBe canBeToo
    obtain ⟨others, isPerm, isFirst⟩ := canBe.exists_perm named
    obtain ⟨others', isPerm', isSecond⟩ := canBeToo.exists_perm named
    rw [same others isPerm, ← same others' isPerm', isSecond] at isFirst
    exact (Option.some.inj isFirst).symm
  · intro single others isPerm
    have sameSome : (lastSaid keys tells others).isSome = (lastSaid keys tells items).isSome := by
      rw [Bool.eq_iff_iff, lastSaid_isSome named, lastSaid_isSome named]
      simp only [isPerm.mem_iff]
    cases isHere : lastSaid keys tells items with
    | none => simpa [isHere] using sameSome
    | some value =>
      rw [isHere] at sameSome
      obtain ⟨told, isThere⟩ := Option.isSome_iff_exists.mp sameSome
      have canBe := (canBeLast_perm isPerm).mp (canBeLast_of_lastSaid named isThere)
      rw [isThere, single told value canBe (canBeLast_of_lastSaid named isHere)]

end MemoryService.Foundation
