import MemoryService.Foundation.Newest

/-!
# Reading sorted rows page by page

Rows are read in falling order of a key that tells them apart. A cursor is the key of a row; a
read goes on behind it.
-/

namespace MemoryService.Foundation.Keyset

open List

universe u v

variable {α : Type u} {κ : Type v} [LinearOrder κ] (key : α → κ)

def behind (cursor : Option κ) (row : α) : Bool := cursor.all fun seen => key row < seen

def after (cursor : Option κ) (rows : List α) : List α := rows.filter (behind key cursor)

abbrev Falling (rows : List α) : Prop := rows.Pairwise fun first second => key second < key first

section Cursors

variable {key} {rows front back : List α} {last : α} {cursor : Option κ} {keep : α → Bool}

@[simp]
theorem after_none : after key none rows = rows := by simp [after, behind]

theorem Falling.after (falling : Falling key rows) (cursor : Option κ) :
    Falling key (after key cursor rows) :=
  falling.sublist filter_sublist

theorem after_filter :
    Keyset.after key cursor (rows.filter keep) = (Keyset.after key cursor rows).filter keep := by
  rw [Keyset.after, Keyset.after, filter_filter, filter_filter]
  exact filter_congr fun row _ => Bool.and_comm _ _

theorem after_last (falling : Falling key rows)
    (split : after key cursor rows = front ++ last :: back) :
    after key (some (key last)) rows = back := by
  have isBehind : behind key cursor last = true :=
    (mem_filter.mp (show last ∈ after key cursor rows by simp [split])).2
  have narrower : after key (some (key last)) rows =
      (after key cursor rows).filter (behind key (some (key last))) := by
    rw [after, after, filter_filter]
    refine filter_congr fun row _ => ?_
    cases cursor with
    | none => simp [behind]
    | some seen =>
      have early : key last < seen := by simpa [behind] using isBehind
      rw [Bool.eq_iff_iff, Bool.and_eq_true]
      simp only [behind, Option.all_some, decide_eq_true_eq]
      exact ⟨fun isLess => ⟨isLess, isLess.trans early⟩, And.left⟩
  have sorted := split ▸ falling.after cursor
  obtain ⟨-, sortedLast, higher⟩ := pairwise_append.mp sorted
  have lower := (pairwise_cons.mp sortedLast).1
  have dropped : front.filter (behind key (some (key last))) = [] := by
    refine filter_eq_nil_iff.mpr fun row member => ?_
    simpa [behind] using (higher row member last mem_cons_self).le
  have stays : back.filter (behind key (some (key last))) = back := by
    refine filter_eq_self.mpr fun row member => ?_
    simpa [behind] using lower row member
  rw [narrower, split, filter_append, dropped, filter_cons_of_neg (by simp [behind]),
    stays, nil_append]

theorem newestFirst_filter (distinct : (rows.map key).Nodup) :
    newestFirst key (rows.filter keep) = (newestFirst key rows).filter keep := by
  have narrowed : ((rows.filter keep).map key).Nodup := distinct.sublist (filter_sublist.map _)
  refine List.Perm.eq_of_pairwise ?_ (newestFirst_strict narrowed)
    ((newestFirst_strict distinct).sublist filter_sublist)
    ((newestFirst_perm key _).trans ((newestFirst_perm key rows).filter keep).symm)
  intro first second _ _ less more
  exact absurd less more.asymm

end Cursors

section Rounds

variable (read : Option κ → ℕ → List α) (size : ℕ → ℕ) (keep : α → Bool) (limit : ℕ)

/-- Rounds from a cursor on, `out` being what is in hand; a round reads as many rows as `size`
says for what is in hand. -/
def gather : ℕ → Option κ → List α → List α
  | 0, _, out => out
  | most + 1, cursor, out =>
    if limit ≤ out.length then out
    else
      let rows := read cursor (size out.length)
      let kept := out ++ (rows.filter keep).take (limit - out.length)
      if rows.length < size out.length then kept
      else gather most (rows.getLast?.map key) kept

variable {key} {read} {size} {keep} {limit} {source : List α}

theorem gather_eq (falling : Falling key source)
    (reads : ∀ cursor count, read cursor count = (after key cursor source).take count)
    (someSize : ∀ count, count < limit → 0 < size count) :
    ∀ {most : ℕ} {cursor : Option κ} {out : List α},
      (after key cursor source).length < most → out.length ≤ limit →
        gather key read size keep limit most cursor out =
          out ++ ((after key cursor source).filter keep).take (limit - out.length) := by
  intro most
  induction most with
  | zero => exact fun enough => absurd enough (Nat.not_lt_zero _)
  | succ most ih =>
    intro cursor out enough room
    rw [gather]
    split
    · next isFull =>
        rw [Nat.sub_eq_zero_of_le isFull, take_zero, append_nil]
    · next notFull =>
        have positive := someSize out.length (Nat.lt_of_not_le notFull)
        rw [reads]
        generalize size out.length = count at positive
        dsimp only
        split
        · next isShort =>
            rw [length_take] at isShort
            rw [take_of_length_le (by omega : (after key cursor source).length ≤ count)]
        · next isRead =>
            rw [length_take] at isRead
            obtain ⟨initial, last, isRound⟩ : ∃ initial last,
                (after key cursor source).take count = initial ++ [last] := by
              refine (eq_nil_or_concat' _).resolve_left fun isNil => ?_
              rw [take_eq_nil_iff] at isNil
              rcases isNil with isZero | isNil
              · omega
              · simp [isNil] at isRead
                omega
            have split : after key cursor source =
                initial ++ last :: (after key cursor source).drop count := by
              conv_lhs => rw [← take_append_drop count (after key cursor source), isRound]
              rw [append_assoc, singleton_append]
            have next := after_last falling split
            have behindLast := congrArg List.length split
            rw [length_append, length_cons] at behindLast
            have kept := congrArg (List.filter keep)
              (take_append_drop count (after key cursor source))
            rw [filter_append] at kept
            rw [isRound, getLast?_concat, Option.map_some, ← isRound,
              ih (by rw [next]; omega) (by rw [length_append, length_take]; omega),
              next, ← kept, take_append, append_assoc, length_append,
              length_take]
            congr 3
            omega

end Rounds

variable {number : ℕ} {cursor : Option κ}

section Following

variable (page : ℕ → Option κ → List α × Option κ)

def follow : ℕ → ℕ → Option κ → Option (List (List α))
  | 0, _, _ => none
  | most + 1, number, cursor =>
    match page number cursor with
    | (items, none) => some [items]
    | (items, some next) => (follow most (number + 1) (some next)).map (items :: ·)

structure Paged (source : List α) (shown : ℕ → α → Bool) (limit : ℕ) : Prop where
  items : ∀ number cursor, (page number cursor).1 =
    ((after key cursor source).filter (shown number)).take limit
  next : ∀ number cursor, (page number cursor).2 =
    if ((after key cursor source).filter (shown number)).length ≤ limit then none
    else (page number cursor).1.getLast?.map key

variable {key} {page} {source : List α} {shown : ℕ → α → Bool} {limit : ℕ}

section

variable (paged : Paged key page source shown limit)
include paged

theorem Paged.all_of_short (isShort : (page number cursor).1.length < limit) :
    (page number cursor).2 = none ∧
      (page number cursor).1 = (after key cursor source).filter (shown number) := by
  rw [paged.items, length_take] at isShort
  have fits : ((after key cursor source).filter (shown number)).length ≤ limit := by omega
  exact ⟨by rw [paged.next, if_pos fits], by rw [paged.items, take_of_length_le fits]⟩

theorem Paged.split (falling : Falling key source) {seen : κ}
    (isNext : (page number cursor).2 = some seen) :
    ∃ front last back, after key cursor source = front ++ last :: back ∧ key last = seen ∧
      after key (some seen) source = back ∧
      (∀ row ∈ (page number cursor).1, key last ≤ key row) ∧
      ∀ row ∈ front ++ [last], shown number row = true → row ∈ (page number cursor).1 := by
  have items := paged.items number cursor
  have sortedShown : Falling key ((after key cursor source).filter (shown number)) :=
    (falling.after cursor).sublist filter_sublist
  rw [paged.next] at isNext
  obtain ⟨-, isNext⟩ := Option.ite_none_left_eq_some.mp isNext
  next isMore =>
    obtain ⟨last, isLast, rfl⟩ := Option.map_eq_some_iff.mp isNext
    obtain ⟨initial, isPage⟩ := getLast?_eq_some_iff.mp isLast
    have lastShown : last ∈ (page number cursor).1 := by simp [isPage]
    have lastBehind : last ∈ after key cursor source := by
      rw [items] at lastShown
      exact (mem_filter.mp (mem_of_mem_take lastShown)).1
    obtain ⟨front, back, split⟩ := append_of_mem lastBehind
    have sorted := split ▸ falling.after cursor
    obtain ⟨-, -, higher⟩ := pairwise_append.mp sorted
    rw [← take_append_drop limit ((after key cursor source).filter (shown number)),
      ← items] at sortedShown
    obtain ⟨sortedPage, -, lower⟩ := pairwise_append.mp sortedShown
    refine ⟨front, last, back, split, rfl, after_last falling split, ?_, ?_⟩
    · intro row member
      rw [isPage] at sortedPage member
      rcases mem_append.mp member with isInitial | isEnd
      · exact ((pairwise_append.mp sortedPage).2.2 row isInitial last (mem_singleton_self _)).le
      · rw [mem_singleton.mp isEnd]
    · intro row member isShown
      have notBelow : key last ≤ key row := by
        rcases mem_append.mp member with inFront | isEnd
        · exact (higher row inFront last mem_cons_self).le
        · rw [mem_singleton.mp isEnd]
      have inAll : row ∈ (after key cursor source).filter (shown number) := by
        refine mem_filter.mpr ⟨?_, isShown⟩
        rw [split, append_cons]
        exact mem_append_left back member
      rw [← take_append_drop limit ((after key cursor source).filter (shown number)),
        ← items] at inAll
      refine (mem_append.mp inAll).resolve_right fun isDropped => ?_
      exact absurd (lower last lastShown row isDropped) (not_lt_of_ge notBelow)

theorem Paged.follow_spec (positive : 0 < limit) (falling : Falling key source) :
    ∀ (most number : ℕ) (cursor : Option κ), (after key cursor source).length < most →
      ∃ pages, follow page most number cursor = some pages ∧
        Falling key pages.flatten ∧
        (∀ row ∈ pages.flatten, row ∈ after key cursor source ∧
          ∃ n, number ≤ n ∧ shown n row = true) ∧
        ∀ row ∈ after key cursor source, (∀ n, number ≤ n → shown n row = true) →
          row ∈ pages.flatten := by
  intro most
  induction most with
  | zero => exact fun _ _ enough => absurd enough (Nat.not_lt_zero _)
  | succ most ih =>
    intro number cursor enough
    have items := paged.items number cursor
    have ofPage : ∀ row ∈ (page number cursor).1, row ∈ after key cursor source ∧
        shown number row = true := by
      intro row member
      rw [items] at member
      exact mem_filter.mp (mem_of_mem_take member)
    have sortedPage : Falling key (page number cursor).1 := by
      rw [items]
      exact (falling.after _).sublist ((take_sublist _ _).trans filter_sublist)
    rw [follow]
    cases isNext : (page number cursor).2 with
    | none =>
      have isPage : page number cursor = ((page number cursor).1, none) := Prod.ext rfl isNext
      rw [isPage]
      refine ⟨_, rfl, ?_, fun row member => ?_, fun row member always => ?_⟩
      · rw [flatten_singleton]
        exact sortedPage
      · rw [flatten_singleton] at member
        exact ⟨(ofPage row member).1, number, Nat.le_refl _, (ofPage row member).2⟩
      · have fits : ((after key cursor source).filter (shown number)).length ≤ limit := by
          by_contra isMore
          rw [paged.next, if_neg isMore, Option.map_eq_none_iff, getLast?_eq_none_iff,
            items, take_eq_nil_iff] at isNext
          rcases isNext with isZero | isNil
          · omega
          · exact isMore (by simp [isNil])
        rw [flatten_singleton, items, take_of_length_le fits]
        exact mem_filter.mpr ⟨member, always number (Nat.le_refl _)⟩
    | some seen =>
      obtain ⟨front, last, back, split, rfl, rest, notBelow, allOfPage⟩ :=
        paged.split falling isNext
      have shorter := congrArg List.length split
      rw [length_append, length_cons] at shorter
      have lower : ∀ row ∈ back, key row < key last := by
        have sorted := split ▸ falling.after cursor
        exact (pairwise_cons.mp (pairwise_append.mp sorted).2.1).1
      obtain ⟨pages, isPages, sortedRest, ofRest, allOfRest⟩ :=
        ih (number + 1) (some (key last)) (by rw [rest]; omega)
      rw [rest] at ofRest allOfRest
      have isPage : page number cursor = ((page number cursor).1, some (key last)) :=
        Prod.ext rfl isNext
      rw [isPage]
      dsimp only
      rw [isPages]
      refine ⟨_, rfl, ?_, fun row member => ?_, fun row member always => ?_⟩
      · rw [flatten_cons]
        refine pairwise_append.mpr ⟨sortedPage, sortedRest, ?_⟩
        intro row member other isLater
        exact (lower other (ofRest other isLater).1).trans_le (notBelow row member)
      · rw [flatten_cons, mem_append] at member
        rcases member with isShown | isLater
        · exact ⟨(ofPage row isShown).1, number, Nat.le_refl _, (ofPage row isShown).2⟩
        · obtain ⟨inBack, n, isNumber, isShown⟩ := ofRest row isLater
          refine ⟨?_, n, by omega, isShown⟩
          rw [split]
          exact mem_append_right _ (mem_cons_of_mem _ inBack)
      · rw [flatten_cons, mem_append]
        rw [split, append_cons] at member
        rcases mem_append.mp member with upTo | inBack
        · exact .inl (allOfPage row upTo (always number (Nat.le_refl _)))
        · exact .inr (allOfRest row inBack fun n isNumber => always n (by omega))

end

end Following

end MemoryService.Foundation.Keyset
