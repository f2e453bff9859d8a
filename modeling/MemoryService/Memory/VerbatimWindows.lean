import MemoryService.Ingestion.Covering

/-!
# Verbatim pieces of a turn

A turn that is too long to be kept as one memory is kept in consecutive pieces.
-/

namespace MemoryService.Memory

open Foundation Ingestion Option List
open Rag (isSpace strip)

/-- `separator.finditer(text)`, as the spans of the matches from `i` on. -/
def finditer (text : Text) (separator : Separator) : Nat → Nat → List Span
  | 0, _ => []
  | most + 1, i =>
    if text.length < i then []
    else
      match separator text text.length i with
      | none => finditer text separator most (i + 1)
      | some last => (i, last) :: finditer text separator most (max last (i + 1))

def stretches (text : Text) : Nat → List Span → List Span
  | position, [] => [(position, text.length)]
  | position, (first, last) :: breaks => (position, first) :: stretches text last breaks

variable (text : Text)

/-- `text.rfind(" ", start, stop)`. -/
def rfindSpace (start stop : Nat) : Int :=
  (((List.range' start (stop - start)).filter fun i => text[i]? = some ' ').getLast?).elim (-1)
    Int.ofNat

def cutAt (maxChars start : Nat) : Nat :=
  let cut := rfindSpace text (start + 1) (start + maxChars + 1)
  if (start : Int) < cut then cut.toNat else start + maxChars

def cutSpans (text : Text) (maxChars : Nat) : Nat → Nat → Nat → List Span
  | 0, start, stop => if start < stop then [(start, stop)] else []
  | most + 1, start, stop =>
    if maxChars < stop - start then
      (start, cutAt text maxChars start) ::
        cutSpans text maxChars most (cutAt text maxChars start) stop
    else if start < stop then [(start, stop)] else []

/-- `_sentence_spans`. -/
def sentenceSpans (maxChars : Nat) : List Span :=
  (stretches text 0 (finditer text sentenceBreak (text.length + 1) 0)).flatMap fun stretch =>
    cutSpans text maxChars (stretch.2 - stretch.1) stretch.1 stretch.2

def packedFrom (maxChars : Nat) : Span → List Span → List Span
  | piece, [] => [piece]
  | piece, span :: spans =>
    if span.2 - piece.1 ≤ maxChars then packedFrom maxChars (piece.1, span.2) spans
    else piece :: packedFrom maxChars span spans

def packedPieces (maxChars : Nat) : List Span → List Span
  | [] => []
  | span :: spans => packedFrom maxChars span spans

def verbatimWindows (maxChars : Nat) : List Text :=
  if text.length ≤ maxChars then if strip text = [] then [] else [text]
  else
    ((packedPieces maxChars (sentenceSpans text maxChars)).map fun piece =>
      strip (slice text piece)).filter fun piece => piece ≠ []

theorem dropWhile_isSpace_append {blank : Text} (rest : Text)
    (isBlank : ∀ c ∈ blank, isSpace c = true) (stops : ∀ c ∈ rest.head?, isSpace c = false) :
    (blank ++ rest).dropWhile isSpace = rest := by
  rw [dropWhile_append_of_pos isBlank]
  cases rest with
  | nil => rfl
  | cons c rest => rw [dropWhile_cons_of_neg (by simp [stops c rfl])]

variable {text : Text} {span : Span} {first last maxChars lo hi : Nat} {c : Char}
  {matters : Nat → Prop} {spans : List Span}

theorem strip_between {before beyond : Text} (blankBefore : ∀ c ∈ before, isSpace c = true)
    (blankBeyond : ∀ c ∈ beyond, isSpace c = true) (starts : ∀ c ∈ text.head?, isSpace c = false)
    (ends : ∀ c ∈ text.getLast?, isSpace c = false) (nonempty : text ≠ []) :
    strip (before ++ (text ++ beyond)) = text := by
  have startsBoth : ∀ c ∈ (text ++ beyond).head?, isSpace c = false := by
    rw [head?_append_of_ne_nil _ nonempty]
    exact starts
  rw [strip, dropWhile_isSpace_append _ blankBefore startsBoth, reverse_append,
    dropWhile_isSpace_append _ (by simpa using blankBeyond) (by simpa using ends),
    reverse_reverse]

theorem strip_of_blank (isBlank : ∀ c ∈ text, isSpace c = true) : strip text = [] := by
  have isNil := dropWhile_isSpace_append [] isBlank nofun
  rw [append_nil] at isNil
  rw [strip, isNil]
  rfl

theorem blank_of_strip (isNil : strip text = []) : ∀ c ∈ text, isSpace c = true := by
  rw [strip, reverse_eq_nil_iff, dropWhile_eq_nil_iff] at isNil
  have noneLeft : text.dropWhile isSpace = [] := by
    by_contra isLeft
    have isSpaceHead := isNil _ (mem_reverse.mpr (head_mem isLeft))
    rw [head_dropWhile_not isSpace isLeft] at isSpaceHead
    cases isSpaceHead
  exact dropWhile_eq_nil_iff.mp noneLeft

variable {text : Text}

theorem length_slice (within : span.2 ≤ text.length) :
    (slice text span).length = span.2 - span.1 := by
  rw [slice, length_take, length_drop]
  omega

theorem slice_append {middle : Nat} (rising : first ≤ middle) (further : middle ≤ last) :
    slice text (first, last) = slice text (first, middle) ++ slice text (middle, last) := by
  have split : last - first = (middle - first) + (last - middle) := by omega
  have joint : first + (middle - first) = middle := by omega
  rw [slice, slice, slice]
  dsimp only
  rw [split, take_add, drop_drop, joint]

theorem mem_slice (member : c ∈ slice text span) : ∃ i, span.Has i ∧ text[i]? = some c := by
  obtain ⟨k, inSlice⟩ := mem_iff_getElem?.mp member
  rw [slice, getElem?_take] at inSlice
  split at inSlice
  · next inside =>
      rw [getElem?_drop] at inSlice
      exact ⟨span.1 + k, ⟨Nat.le_add_right _ _, by omega⟩, inSlice⟩
  · cases inSlice

theorem blank_slice (free : ∀ i, first ≤ i → i < last → ¬Matters text i) :
    ∀ c ∈ slice text (first, last), isSpace c = true := by
  intro c member
  obtain ⟨i, has, isChar⟩ := mem_slice member
  have isBlank : isBlank text i = true := by
    simpa [Matters] using free i has.1 has.2
  simpa [Ingestion.isBlank, isChar] using isBlank

theorem getElem?_slice_matters {i : Nat} (inside : first + i < last)
    (isThere : Matters text (first + i))
    (isChar : (slice text (first, last))[i]? = some c) : isSpace c = false := by
  rw [slice, getElem?_take, if_pos (by dsimp only; omega), getElem?_drop] at isChar
  simpa [Matters, isBlank, isChar] using isThere

theorem strip_slice {start stop : Nat} (within : stop ≤ text.length) :
    strip (slice text (start, stop)) = ((trimmed text start stop).map (slice text)).getD [] := by
  rcases trimmed_cases text start stop with
    ⟨first, last, isSome, starts, isLeft, ends, isFirst, isLast, before, beyond⟩ | ⟨isNone, free⟩
  · have long : (slice text (first, last)).length = last - first :=
      length_slice (Nat.le_trans ends within)
    rw [isSome, map_some, getD_some, slice_append starts (by omega : first ≤ stop),
      slice_append (Nat.le_of_lt isLeft) ends]
    refine strip_between (blank_slice before) (blank_slice beyond) ?_ ?_ ?_
    · intro c isHead
      rw [head?_eq_getElem?] at isHead
      exact getElem?_slice_matters (i := 0) isLeft isFirst isHead
    · intro c isEnd
      rw [getLast?_eq_getElem?, long] at isEnd
      have place : first + (last - first - 1) = last - 1 := by omega
      exact getElem?_slice_matters (by omega) (place ▸ isLast) isEnd
    · exact ne_nil_of_length_pos (by omega)
  · rw [isNone, map_none, getD_none]
    exact strip_of_blank (blank_slice free)

theorem stripped_pieces {pieces : List Span} (within : ∀ piece ∈ pieces, piece.2 ≤ text.length) :
    (pieces.map fun piece => strip (slice text piece)).filter (fun piece => piece ≠ []) =
      (pieces.flatMap fun piece => (trimmed text piece.1 piece.2).toList).map (slice text) := by
  induction pieces with
  | nil => rfl
  | cons piece pieces ih =>
    have others := ih fun other member => within other (mem_cons_of_mem piece member)
    have inText : piece.2 ≤ text.length := within piece mem_cons_self
    rw [map_cons, flatMap_cons, map_append, ← others, strip_slice inText]
    rcases trimmed_cases text piece.1 piece.2 with
      ⟨first, last, isSome, -, isLeft, ends, -⟩ | ⟨isNone, -⟩
    · have nonempty : slice text (first, last) ≠ [] := by
        refine ne_nil_of_length_pos ?_
        rw [length_slice (Nat.le_trans ends inText)]
        dsimp only
        omega
      rw [isSome, map_some, getD_some, filter_cons_of_pos (by simpa using nonempty)]
      rfl
    · rw [isNone, map_none, getD_none, filter_cons_of_neg (by simp)]
      rfl

variable (text) in
theorem cutAt_spec (start : Nat) (positive : 0 < maxChars) :
    start < cutAt text maxChars start ∧ cutAt text maxChars start ≤ start + maxChars := by
  rw [cutAt]
  split
  · next isFound =>
      rw [rfindSpace] at isFound ⊢
      cases isLast : ((List.range' (start + 1) (start + maxChars + 1 - (start + 1))).filter
          fun i => text[i]? = some ' ').getLast? with
      | none =>
        rw [isLast, elim_none] at isFound
        omega
      | some cut =>
        rw [isLast, elim_some] at isFound
        rw [elim_some]
        have inRange := mem_range'_1.mp (mem_filter.mp (mem_of_getLast? isLast)).1
        change start < cut ∧ cut ≤ start + maxChars
        omega
  · omega

variable (text) in
theorem cutSpans_spec (positive : 0 < maxChars) :
    ∀ {most start stop : Nat}, start ≤ stop → stop - start ≤ most →
      Covers (Matters text) start stop (cutSpans text maxChars most start stop) ∧
        ∀ span ∈ cutSpans text maxChars most start stop, span.2 - span.1 ≤ maxChars := by
  have rest : ∀ {start stop : Nat}, start ≤ stop → stop - start ≤ maxChars →
      Covers (Matters text) start stop (if start < stop then [(start, stop)] else []) ∧
        ∀ span ∈ (if start < stop then [(start, stop)] else [] : List Span),
          span.2 - span.1 ≤ maxChars := by
    intro start stop rising fits
    split
    · next nonempty =>
        refine ⟨Covers.whole nonempty, fun span member => ?_⟩
        rw [mem_singleton.mp member]
        exact fits
    · exact ⟨Covers.blank fun i starts ends => by omega, by simp⟩
  intro most
  induction most with
  | zero =>
    intro start stop rising enough
    exact rest rising (by omega)
  | succ most ih =>
    intro start stop rising enough
    rw [cutSpans]
    split
    · next isLong =>
        obtain ⟨further, near⟩ := cutAt_spec text start positive
        obtain ⟨covers, short⟩ := ih (show cutAt text maxChars start ≤ stop by omega) (by omega)
        refine ⟨(Covers.whole further).append covers (Nat.le_of_lt further) (by omega), ?_⟩
        intro span member
        rcases mem_cons.mp member with rfl | isLater
        · dsimp only
          omega
        · exact short span isLater
    · exact rest rising (by omega)

theorem stretches_spec (positive : 0 < maxChars) {separator : Separator}
    (clean : separator.Clean text) :
    ∀ {most position i : Nat}, position ≤ i → position ≤ text.length →
      Covers (Matters text) position text.length
          ((stretches text position (finditer text separator most i)).flatMap fun stretch =>
            cutSpans text maxChars (stretch.2 - stretch.1) stretch.1 stretch.2) ∧
        ∀ span ∈ (stretches text position (finditer text separator most i)).flatMap
            (fun stretch => cutSpans text maxChars (stretch.2 - stretch.1) stretch.1 stretch.2),
          span.2 - span.1 ≤ maxChars := by
  have alone : ∀ {position : Nat}, position ≤ text.length →
      Covers (Matters text) position text.length
          ((stretches text position []).flatMap fun stretch =>
            cutSpans text maxChars (stretch.2 - stretch.1) stretch.1 stretch.2) ∧
        ∀ span ∈ (stretches text position []).flatMap
            (fun stretch => cutSpans text maxChars (stretch.2 - stretch.1) stretch.1 stretch.2),
          span.2 - span.1 ≤ maxChars := by
    intro position within
    rw [stretches, flatMap_singleton]
    exact cutSpans_spec text positive within (Nat.le_refl _)
  intro most
  induction most with
  | zero =>
    intro position i _ within
    exact alone within
  | succ most ih =>
    intro position i searched within
    rw [finditer]
    split
    · exact alone within
    · next isBefore =>
        split
        · exact ih (Nat.le_succ_of_le searched) within
        · next last isMatch =>
            obtain ⟨further, notPast, free⟩ := clean text.length i last (by omega) isMatch
            obtain ⟨covers, short⟩ := ih (Nat.le_max_left last (i + 1)) notPast
            obtain ⟨coversFirst, shortFirst⟩ := cutSpans_spec text positive searched
              (Nat.le_refl (i - position))
            rw [stretches, flatMap_cons]
            refine ⟨?_, fun span member => ?_⟩
            · refine coversFirst.append ?_ searched (by omega)
              exact covers.widen further (Nat.le_refl _) free fun k starts ends => by omega
            · rcases mem_append.mp member with isFirst | isLater
              · exact shortFirst span isFirst
              · exact short span isLater

variable (text) in
theorem sentenceSpans_spec (positive : 0 < maxChars) :
    Covers (Matters text) 0 text.length (sentenceSpans text maxChars) ∧
      ∀ span ∈ sentenceSpans text maxChars, span.2 - span.1 ≤ maxChars :=
  stretches_spec positive sentenceBreak_clean (Nat.le_refl 0) (Nat.zero_le _)

theorem packedFrom_spec :
    ∀ {piece : Span}, Covers matters lo hi (piece :: spans) →
      (∀ span ∈ piece :: spans, span.2 - span.1 ≤ maxChars) →
      Covers matters lo hi (packedFrom maxChars piece spans) ∧
        ∀ span ∈ packedFrom maxChars piece spans, span.2 - span.1 ≤ maxChars := by
  induction spans generalizing lo with
  | nil => exact fun covers short => ⟨covers, short⟩
  | cons span spans ih =>
    intro piece covers short
    have placed := covers.within piece mem_cons_self
    have next := covers.within span (mem_cons_of_mem piece mem_cons_self)
    have isAfter := (pairwise_cons.mp covers.apart).1 span mem_cons_self
    rw [packedFrom]
    split
    · next fits =>
        refine ih ?_ ?_
        · have joined : Covers matters lo span.2 [(piece.1, span.2)] := by
            refine ⟨?_, pairwise_singleton _ _, fun i starts ends isThere => ?_⟩
            · intro other member
              rw [mem_singleton.mp member]
              exact ⟨placed.1, by dsimp only; omega, Nat.le_refl _⟩
            · obtain ⟨other, member, has⟩ := covers.covered i starts (by omega) isThere
              refine ⟨_, mem_singleton_self _, ?_, ends⟩
              rcases mem_cons.mp member with rfl | isLater
              · exact has.1
              · have isBehind := (pairwise_cons.mp covers.apart).1 other isLater
                exact Nat.le_trans (by omega) (Nat.le_trans isBehind has.1)
          exact joined.append covers.tail.tail (by omega) next.2.2
        · intro other member
          rcases mem_cons.mp member with rfl | isLater
          · exact fits
          · exact short other (mem_cons_of_mem _ (mem_cons_of_mem _ isLater))
    · obtain ⟨coversRest, shortRest⟩ := ih covers.tail fun other member =>
        short other (mem_cons_of_mem _ member)
      have first : Covers matters lo piece.2 [piece] := by
        refine ⟨?_, pairwise_singleton _ _, fun i starts ends isThere => ?_⟩
        · intro other member
          rw [mem_singleton.mp member]
          exact ⟨placed.1, placed.2.1, Nat.le_refl _⟩
        · obtain ⟨other, member, has⟩ := covers.covered i starts (by omega) isThere
          rcases mem_cons.mp member with rfl | isLater
          · exact ⟨other, mem_singleton_self _, has⟩
          · have isBehind := (pairwise_cons.mp covers.apart).1 other isLater
            have starts := has.1
            omega
      refine ⟨first.append coversRest (by omega) placed.2.2, fun other member => ?_⟩
      rcases mem_cons.mp member with rfl | isLater
      · exact short other mem_cons_self
      · exact shortRest other isLater

theorem packedPieces_spec (covers : Covers matters lo hi spans)
    (short : ∀ span ∈ spans, span.2 - span.1 ≤ maxChars) :
    Covers matters lo hi (packedPieces maxChars spans) ∧
      ∀ span ∈ packedPieces maxChars spans, span.2 - span.1 ≤ maxChars := by
  cases spans with
  | nil => exact ⟨covers, short⟩
  | cons span spans => exact packedFrom_spec covers short

/-- The pieces are slices of the text, in order and apart, none too long, and every character
that is no white space stands in one of them. -/
theorem windows_lose_nothing (text : Text) (maxChars : Nat) (positive : 0 < maxChars) :
    ∃ spans : List Span, verbatimWindows text maxChars = spans.map (slice text) ∧
      (∀ piece ∈ verbatimWindows text maxChars, piece.length ≤ maxChars) ∧
      (∀ span ∈ spans, span.1 < span.2 ∧ span.2 ≤ text.length) ∧
      spans.Pairwise (fun span later => span.2 ≤ later.1) ∧
      ∀ i c, text[i]? = some c → isSpace c = false → ∃ span ∈ spans, span.Has i := by
  suffices isCut : ∃ spans : List Span, verbatimWindows text maxChars = spans.map (slice text) ∧
      Covers (Matters text) 0 text.length spans ∧ ∀ span ∈ spans, span.2 - span.1 ≤ maxChars by
    obtain ⟨spans, isWindows, covers, short⟩ := isCut
    refine ⟨spans, isWindows, fun piece member => ?_, fun span member => ?_, covers.apart, ?_⟩
    · rw [isWindows] at member
      obtain ⟨span, isSpan, rfl⟩ := mem_map.mp member
      rw [length_slice (covers.within span isSpan).2.2]
      exact short span isSpan
    · exact (covers.within span member).2
    · intro i c isChar noSpace
      have inText : i < text.length := (List.getElem?_eq_some_iff.mp isChar).1
      refine covers.covered i (Nat.zero_le i) inText ?_
      rw [Matters, isBlank, isChar]
      exact noSpace
  rw [verbatimWindows]
  split
  · next fits =>
      split
      · next isNil =>
          refine ⟨[], rfl, Covers.blank fun i _ inText => not_matters_of_blank ?_, by simp⟩
          rw [isBlank, getElem?_eq_getElem inText]
          exact blank_of_strip isNil _ (getElem_mem inText)
      · next isSome =>
          have nonempty : 0 < text.length := by
            refine length_pos_iff.mpr fun isNil => isSome ?_
            rw [isNil]
            rfl
          refine ⟨[(0, text.length)], ?_, Covers.whole nonempty, fun span member => ?_⟩
          · rw [map_singleton, slice]
            dsimp only
            rw [drop_zero, Nat.sub_zero, take_length]
          · rw [mem_singleton.mp member]
            exact fits
  · obtain ⟨covers, short⟩ := sentenceSpans_spec text positive
    obtain ⟨coversPieces, shortPieces⟩ := packedPieces_spec covers short
    refine ⟨_, stripped_pieces fun piece member => (coversPieces.within piece member).2.2,
      coversPieces.flatMap fun piece _ => trimmed_covers text piece.1 piece.2, ?_⟩
    intro span member
    obtain ⟨piece, isPiece, isTrimmed⟩ := mem_flatMap.mp member
    have inPiece := (trimmed_covers text piece.1 piece.2).within span isTrimmed
    have fits := shortPieces piece isPiece
    omega

/-- A sentence is cut in two at its last space before the limit. -/
theorem windows_lose_nothing_of_sentence : ∃ spans : List Span,
    verbatimWindows "We met. It was a fine day.".toList 10 = spans.map
        (slice "We met. It was a fine day.".toList) ∧
      (∀ piece ∈ verbatimWindows "We met. It was a fine day.".toList 10, piece.length ≤ 10) ∧
      (∀ span ∈ spans, span.1 < span.2 ∧ span.2 ≤ "We met. It was a fine day.".toList.length) ∧
      spans.Pairwise (fun span later => span.2 ≤ later.1) ∧
      ∀ i c, "We met. It was a fine day.".toList[i]? = some c → isSpace c = false →
        ∃ span ∈ spans, span.Has i :=
  windows_lose_nothing _ 10 (by decide)

end MemoryService.Memory
