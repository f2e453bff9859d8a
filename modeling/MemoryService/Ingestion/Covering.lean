import MemoryService.Foundation.Fallible
import MemoryService.Ingestion.Chunking

/-!
# Chunks cover the document

Every way of cutting a text covers it but for white space, and no piece is heavier than the
budget.  Packing keeps every unit whole in one part, and merging keeps every part whole.
-/

namespace MemoryService.Ingestion

open Foundation List Option
open Context (tokenUnits isascii)
open Rag (isSpace)

theorem units_append (first second : Text) :
    units (first ++ second) = units first + units second := by
  induction first with
  | nil => simp [units]
  | cons c rest ih =>
    rw [cons_append, units, units, ih, Nat.add_assoc]

variable {text : Text} {maxTokens i j most k start stop budget index lo hi : Nat} {p : Nat → Bool}
  {scan : Scan} {separator : Separator} {spans : List Span}

theorem units_of_ascii (isAscii : text.all isascii = true) :
    units text = text.length + 4 * text.count '\n' := by
  induction text with
  | nil => rfl
  | cons c rest ih =>
    obtain ⟨first, others⟩ := Bool.and_eq_true_iff.mp (all_cons ▸ isAscii)
    rw [units, ih others, length_cons, count_cons, tokenUnits, if_pos first]
    by_cases newline : c = '\n'
    · rw [if_pos newline, if_pos (beq_iff_eq.mpr newline)]
      omega
    · rw [if_neg newline, if_neg (by simpa using newline)]
      omega

theorem units_eq_foldr (text : Text) : (text.map tokenUnits).foldr (· + ·) 0 = units text := by
  induction text with
  | nil => rfl
  | cons c rest ih =>
    rw [map_cons, foldr_cons, ih, units]

theorem estimateTokens_eq (text : Text) : estimateTokens text = max 1 (units text / 4) := by
  rw [estimateTokens, Context.estimateTokens]
  simp only [String.toList_ofList]
  split
  · next isAscii =>
      rw [units_of_ascii isAscii]
      congr 1
      omega
  · rw [units_eq_foldr]

theorem estimate_le_of_units_le (someRoom : 1 ≤ maxTokens)
    (fits : units text ≤ maxTokens * 4) : estimateTokens text ≤ maxTokens := by
  rw [estimateTokens_eq]
  omega

variable {text : Text}

theorem weights_succ (i : Nat) : weights text (i + 1) = weights text i + cost text i := by
  rw [weights, take_add_one, units_append, weights, cost]
  cases text[i]? <;> rfl

variable (text) in
theorem weights_mono (rising : i ≤ j) : weights text i ≤ weights text j := by
  induction rising with
  | refl => exact Nat.le_refl _
  | step _ ih =>
    rw [weights_succ]
    omega

variable (text) in
theorem units_slice (rising : i ≤ j) :
    units (slice text (i, j)) = weights text j - weights text i := by
  have split : weights text j = weights text i + units (slice text (i, j)) := by
    have whole : j = i + (j - i) := by omega
    rw [weights, weights, slice, ← units_append, ← take_add, ← whole]
  omega

theorem tokenUnits_le (c : Char) : tokenUnits c ≤ 16 := by
  have short := c.utf8Size_le_four
  rw [tokenUnits]
  split
  · split <;> omega
  · omega

variable (text) in
theorem cost_le (i : Nat) : cost text i ≤ 16 := by
  rw [cost]
  cases text[i]? with
  | none => exact Nat.zero_le _
  | some c => exact tokenUnits_le c

theorem le_runEnd : i ≤ runEnd p most i := by
  induction most generalizing i with
  | zero => exact Nat.le_refl _
  | succ most ih =>
    rw [runEnd]
    split
    · exact Nat.le_trans (Nat.le_succ i) ih
    · exact Nat.le_refl _

theorem runEnd_le : runEnd p most i ≤ i + most := by
  induction most generalizing i with
  | zero => exact Nat.le_refl _
  | succ most ih =>
    rw [runEnd]
    split
    · have further := ih (i := i + 1)
      omega
    · omega

theorem of_lt_runEnd (starts : i ≤ k) (inRun : k < runEnd p most i) : p k = true := by
  induction most generalizing i with
  | zero => exact absurd inRun (Nat.not_lt.mpr starts)
  | succ most ih =>
    rw [runEnd] at inRun
    split at inRun
    · next isOf =>
        rcases Nat.eq_or_lt_of_le starts with rfl | later
        · exact isOf
        · exact ih later inRun
    · exact absurd inRun (Nat.not_lt.mpr starts)

theorem runEnd_stops (early : runEnd p most i < i + most) : p (runEnd p most i) = false := by
  induction most generalizing i with
  | zero => exact absurd early (Nat.lt_irrefl _)
  | succ most ih =>
    rw [runEnd] at early ⊢
    split at early
    · next isOf =>
        rw [if_pos isOf]
        exact ih (by omega)
    · next isOther =>
        rw [if_neg isOther]
        exact Bool.eq_false_iff.mpr isOther

theorem runStart_le : runStart p most i ≤ i := by
  induction most generalizing i with
  | zero => exact Nat.le_refl _
  | succ most ih =>
    rw [runStart]
    split
    · exact Nat.le_trans ih (Nat.sub_le i 1)
    · exact Nat.le_refl _

theorem of_runStart_le (inRun : runStart p most i ≤ k) (ends : k < i) : p k = true := by
  induction most generalizing i with
  | zero => exact absurd ends (Nat.not_lt.mpr inRun)
  | succ most ih =>
    rw [runStart] at inRun
    split at inRun
    · next isOf =>
        by_cases isLast : k = i - 1
        · rw [isLast]
          exact isOf
        · exact ih inRun (by omega)
    · exact absurd ends (Nat.not_lt.mpr inRun)

theorem runStart_stops (late : i - most < runStart p most i) :
    p (runStart p most i - 1) = false := by
  induction most generalizing i with
  | zero => exact absurd late (Nat.lt_irrefl _)
  | succ most ih =>
    rw [runStart] at late ⊢
    split at late
    · next isOf =>
        rw [if_pos isOf]
        exact ih (by omega)
    · next isOther =>
        rw [if_neg isOther]
        exact Bool.eq_false_iff.mpr isOther

/-- What a chunk has to hold: what is not white space. -/
def Matters (text : Text) (i : Nat) : Prop := isBlank text i = false

theorem not_matters_of_blank (blank : isBlank text i = true) : ¬Matters text i := by
  simp [Matters, blank]

variable (text) in
theorem trimmed_cases (start stop : Nat) :
    (∃ first last, trimmed text start stop = some (first, last) ∧ start ≤ first ∧
        first < last ∧ last ≤ stop ∧ Matters text first ∧ Matters text (last - 1) ∧
        (∀ i, start ≤ i → i < first → ¬Matters text i) ∧
        ∀ i, last ≤ i → i < stop → ¬Matters text i) ∨
      trimmed text start stop = none ∧ ∀ i, start ≤ i → i < stop → ¬Matters text i := by
  have starts : start ≤ runEnd (isBlank text) (stop - start) start := le_runEnd
  have before : ∀ i, start ≤ i → i < runEnd (isBlank text) (stop - start) start → ¬Matters text i :=
    fun i isAfter isBefore => not_matters_of_blank (of_lt_runEnd isAfter isBefore)
  have stops : (runEnd (isBlank text) (stop - start) start < start + (stop - start)) →
      isBlank text (runEnd (isBlank text) (stop - start) start) = false := runEnd_stops
  rw [trimmed]
  generalize runEnd (isBlank text) (stop - start) start = first at starts before stops ⊢
  have ends : runStart (isBlank text) (stop - first) stop ≤ stop := runStart_le
  have beyond : ∀ i, runStart (isBlank text) (stop - first) stop ≤ i → i < stop → ¬Matters text i :=
    fun i isAfter isBefore => not_matters_of_blank (of_runStart_le isAfter isBefore)
  have begins : (stop - (stop - first) < runStart (isBlank text) (stop - first) stop) →
      isBlank text (runStart (isBlank text) (stop - first) stop - 1) = false := runStart_stops
  generalize runStart (isBlank text) (stop - first) stop = last at ends beyond begins ⊢
  by_cases isLeft : first < last
  · refine .inl ⟨first, last, if_pos isLeft, starts, isLeft, ends, ?_, ?_, before, beyond⟩
    · exact stops (by omega)
    · exact begins (by omega)
  · refine .inr ⟨if_neg isLeft, fun i isAfter isBefore => ?_⟩
    by_cases isEarly : i < first
    · exact before i isAfter isEarly
    · exact beyond i (by omega) isBefore

variable (text) in
theorem trimmed_covers (start stop : Nat) :
    Covers (Matters text) start stop (trimmed text start stop).toList := by
  rcases trimmed_cases text start stop with
    ⟨first, last, isSome, starts, isLeft, ends, -, -, before, beyond⟩ | ⟨isNone, free⟩
  · rw [isSome]
    exact (Covers.whole isLeft).widen starts ends before beyond
  · rw [isNone]
    exact Covers.blank free

theorem trimmed_le {span : Span} (isSpan : span ∈ trimmed text start stop) :
    weights text span.2 - weights text span.1 ≤ weights text stop - weights text start := by
  rcases trimmed_cases text start stop with
    ⟨first, last, isSome, starts, -, ends, -⟩ | ⟨isNone, -⟩
  · rw [isSome] at isSpan
    cases isSpan
    have lighter := weights_mono text starts
    have shorter := weights_mono text ends
    dsimp only
    omega
  · rw [isNone] at isSpan
    cases isSpan

/-- A scan counts the piece that is open, within the budget. -/
structure Scan.Counts (text : Text) (budget index : Nat) (scan : Scan) : Prop where
  started : scan.start ≤ index
  weighed : scan.weight = weights text index - weights text scan.start
  light : scan.weight ≤ budget
  bounded : ∀ boundary ∈ scan.boundary, scan.start < boundary ∧ boundary ≤ index ∧
    scan.boundaryWeight = weights text boundary - weights text scan.start

theorem reopen_spec (counts : scan.Counts text budget index) (isOpen : scan.start < index) :
    scan.start < (scan.reopen index).start ∧ (scan.reopen index).Counts text budget index := by
  rw [Scan.reopen]
  cases isBoundary : scan.boundary.filter (scan.start < ·) with
  | none =>
    refine ⟨isOpen, Nat.le_refl _, (Nat.sub_self _).symm, Nat.zero_le _, ?_⟩
    intro boundary none_
    cases none_
  | some boundary =>
    have member := (filter_eq_some_iff.mp isBoundary).1
    obtain ⟨further, within, weighs⟩ := counts.bounded boundary member
    have heavier := weights_mono text (Nat.le_of_lt further)
    have whole := weights_mono text within
    have weighed := counts.weighed
    have light := counts.light
    refine ⟨further, within, ?_, ?_, ?_⟩
    · change scan.weight - scan.boundaryWeight = _
      rw [weighs, weighed]
      dsimp only
      omega
    · exact Nat.le_trans (Nat.sub_le _ _) light
    · intro other none_
      cases none_

theorem cuts_spec (holds : cost text index ≤ budget) :
    ∀ {most : Nat} {scan : Scan}, scan.Counts text budget index → index - scan.start ≤ most →
      Covers (Matters text) scan.start (cuts text budget index most scan).2.start
          (cuts text budget index most scan).1 ∧
        scan.start ≤ (cuts text budget index most scan).2.start ∧
        (∀ span ∈ (cuts text budget index most scan).1,
          weights text span.2 - weights text span.1 ≤ budget) ∧
        (cuts text budget index most scan).2.Counts text budget index ∧
        (cuts text budget index most scan).2.weight + cost text index ≤ budget := by
  intro most
  induction most with
  | zero =>
    intro scan counts enough
    have isIndex : scan.start = index := Nat.le_antisymm counts.started (by omega)
    have isEmpty : scan.weight = 0 := by rw [counts.weighed, isIndex, Nat.sub_self]
    refine ⟨Covers.blank fun i isAfter isBefore => absurd isBefore (Nat.not_lt.mpr isAfter),
      Nat.le_refl _, by simp [cuts], counts, ?_⟩
    rw [cuts, isEmpty, Nat.zero_add]
    exact holds
  | succ most ih =>
    intro scan counts enough
    rw [cuts]
    split
    · next isFull =>
        obtain ⟨further, reopened⟩ := reopen_spec counts isFull.2
        obtain ⟨covers, onwards, light, counted, room⟩ := ih reopened (by omega)
        refine ⟨(trimmed_covers text scan.start _).append covers (Nat.le_of_lt further) onwards,
          Nat.le_trans (Nat.le_of_lt further) onwards, ?_, counted, room⟩
        intro span member
        rcases mem_append.mp member with isCut | isLater
        · have lighter := trimmed_le (mem_toList.mp isCut)
          have shorter := weights_mono text reopened.started
          have weighed := counts.weighed
          have fits := counts.light
          omega
        · exact light span isLater
    · next notFull =>
        refine ⟨Covers.blank fun i isAfter isBefore => absurd isBefore (Nat.not_lt.mpr isAfter),
          Nat.le_refl _, by simp, counts, ?_⟩
        dsimp only
        have weighed := counts.weighed
        have started := counts.started
        by_cases isOpen : scan.start < index
        · exact Nat.le_of_not_lt fun full => notFull ⟨full, isOpen⟩
        · have isIndex : scan.start = index := by omega
          rw [isIndex, Nat.sub_self] at weighed
          omega

theorem add_counts (counts : scan.Counts text budget index)
    (room : scan.weight + cost text index ≤ budget) :
    (scan.add text index).Counts text budget (index + 1) ∧
      (scan.add text index).start = scan.start := by
  have started := counts.started
  have weighed : scan.weight + cost text index =
      weights text (index + 1) - weights text scan.start := by
    have rising := weights_mono text started
    have isWeight := counts.weighed
    rw [weights_succ]
    omega
  rw [Scan.add]
  split
  · refine ⟨⟨Nat.le_succ_of_le started, weighed, room, ?_⟩, rfl⟩
    intro boundary isBoundary
    cases isBoundary
    exact ⟨Nat.lt_succ_of_le started, Nat.le_refl _, weighed⟩
  · refine ⟨⟨Nat.le_succ_of_le started, weighed, room, ?_⟩, rfl⟩
    intro boundary isBoundary
    obtain ⟨further, within, weighs⟩ := counts.bounded boundary isBoundary
    exact ⟨further, Nat.le_succ_of_le within, weighs⟩

theorem scanned_spec (holds : ∀ i, cost text i ≤ budget) :
    ∀ (count : Nat) {index : Nat} {scan : Scan}, scan.Counts text budget index →
      ∃ spans, scanned text budget count index scan = some spans ∧
        Covers (Matters text) scan.start (index + count) spans ∧
        ∀ span ∈ spans, weights text span.2 - weights text span.1 ≤ budget := by
  intro count
  induction count with
  | zero =>
    intro index scan counts
    refine ⟨_, rfl, trimmed_covers text scan.start index, fun span member => ?_⟩
    have lighter := trimmed_le (mem_toList.mp member)
    have weighed := counts.weighed
    have light := counts.light
    omega
  | succ count ih =>
    intro index scan counts
    obtain ⟨covers, onwards, light, counted, room⟩ :=
      cuts_spec (holds index) counts (Nat.le_refl (index - scan.start))
    obtain ⟨added, sameStart⟩ := add_counts counted room
    obtain ⟨spans, isScanned, rest, lightRest⟩ := ih added
    rw [sameStart] at rest
    rw [scanned, if_neg (Nat.not_lt.mpr (holds index))]
    dsimp only
    rw [isScanned]
    refine ⟨_, rfl, ?_, ?_⟩
    · have isEnd : index + 1 + count = index + (count + 1) := by omega
      rw [isEnd] at rest
      refine covers.append rest onwards ?_
      have started := counted.started
      omega
    · intro span member
      rcases mem_append.mp member with isCut | isLater
      · exact light span isCut
      · exact lightRest span isLater

variable (text) in
theorem hardSplitSpans_spec (large : 4 ≤ maxTokens) (rising : start ≤ stop) :
    ∃ spans, hardSplitSpans text maxTokens start stop = some spans ∧
      Covers (Matters text) start stop spans ∧
      ∀ span ∈ spans, weights text span.2 - weights text span.1 ≤ maxTokens * 4 := by
  have holds : ∀ i, cost text i ≤ maxTokens * 4 := fun i => by
    have small := cost_le text i
    omega
  have opened : Scan.Counts text (maxTokens * 4) start { start } :=
    ⟨Nat.le_refl _, (Nat.sub_self _).symm, Nat.zero_le _, fun _ isNone => by cases isNone⟩
  obtain ⟨spans, isScanned, covers, light⟩ := scanned_spec holds (stop - start) opened
  refine ⟨spans, ?_, ?_, light⟩
  · rw [hardSplitSpans, if_neg (by omega), isScanned]
  · have isStop : start + (stop - start) = stop := by omega
    rw [isStop] at covers
    exact covers

def Separator.Clean (separator : Separator) (text : Text) : Prop :=
  ∀ stop i last, i ≤ stop → separator text stop i = some last →
    i ≤ last ∧ last ≤ stop ∧ ∀ k, i ≤ k → k < last → ¬Matters text k

theorem not_matters_of_newline (newline : isNewline text i = true) : ¬Matters text i := by
  refine not_matters_of_blank ?_
  rw [isBlank, of_decide_eq_true newline]
  rfl

theorem lineBreak_eq_some {last : Nat} (isMatch : lineBreak text stop i = some last) :
    i < last ∧ last = runEnd (isNewline text) (stop - i) i := by
  rw [lineBreak] at isMatch
  split at isMatch
  · next further => exact ⟨some.inj isMatch ▸ further, (some.inj isMatch).symm⟩
  · cases isMatch

theorem lineBreak_clean : lineBreak.Clean text := by
  intro stop i last before isMatch
  obtain ⟨further, isLast⟩ := lineBreak_eq_some isMatch
  have within : runEnd (isNewline text) (stop - i) i ≤ i + (stop - i) := runEnd_le
  refine ⟨Nat.le_of_lt further, by omega, fun k isAfter isBefore => ?_⟩
  rw [isLast] at isBefore
  exact not_matters_of_newline (of_lt_runEnd isAfter isBefore)

theorem blankLine_clean : blankLine.Clean text := by
  intro stop i last before isMatch
  rw [blankLine] at isMatch
  dsimp only at isMatch
  obtain ⟨starts, isMatch⟩ := ite_none_right_eq_some.mp isMatch
  obtain ⟨j, isLast, same⟩ := map_eq_some_iff.mp isMatch
  have member := mem_of_getLast? isLast
  obtain ⟨inRange, -⟩ := mem_filter.mp member
  rw [mem_range'_1] at inRange
  have within : runEnd (isBlank text) (stop - (i + 1)) (i + 1) ≤ i + 1 + (stop - (i + 1)) :=
    runEnd_le
  refine ⟨by omega, by omega, fun k isAfter isBefore => ?_⟩
  rcases Nat.eq_or_lt_of_le isAfter with rfl | later
  · exact not_matters_of_newline starts.2
  · have inRun : k < runEnd (isBlank text) (stop - (i + 1)) (i + 1) := by omega
    exact not_matters_of_blank (of_lt_runEnd later inRun)

theorem sentenceBreak_clean : sentenceBreak.Clean text := by
  intro stop i last before isMatch
  have blankRun : i ≤ runEnd (isBlank text) (stop - i) i ∧
      runEnd (isBlank text) (stop - i) i ≤ stop ∧
      ∀ k, i ≤ k → k < runEnd (isBlank text) (stop - i) i → ¬Matters text k := by
    have within : runEnd (isBlank text) (stop - i) i ≤ i + (stop - i) := runEnd_le
    exact ⟨le_runEnd, by omega,
      fun k isAfter isBefore => not_matters_of_blank (of_lt_runEnd isAfter isBefore)⟩
  rw [sentenceBreak] at isMatch
  split at isMatch
  · cases isMatch
    exact blankRun
  · split at isMatch
    · cases isMatch
      exact blankRun
    · exact lineBreak_clean stop i last before isMatch

theorem between_covers (clean : separator.Clean text) :
    ∀ {most position i : Nat}, position ≤ i → position ≤ stop →
      Covers (Matters text) position stop (between text separator stop most position i) := by
  intro most
  induction most with
  | zero =>
    intro position i _ _
    exact trimmed_covers text position stop
  | succ most ih =>
    intro position i searched within
    rw [between]
    split
    · exact trimmed_covers text position stop
    · next isBefore =>
        split
        · exact ih (Nat.le_succ_of_le searched) within
        · next last isMatch =>
            obtain ⟨further, notPast, free⟩ := clean stop i last (by omega) isMatch
            have first : Covers (Matters text) position last (trimmed text position i).toList :=
              (trimmed_covers text position i).widen (Nat.le_refl _) further
                (fun k isAfter early => absurd early (Nat.not_lt.mpr isAfter)) free
            exact first.append (ih (Nat.le_max_left _ _) notPast)
              (Nat.le_trans searched further) notPast

theorem segments_covers (clean : separator.Clean text) (rising : start ≤ stop) :
    Covers (Matters text) start stop (segments text separator start stop) :=
  between_covers clean (Nat.le_refl _) rising

structure Units (text : Text) (budget lo hi : Nat) (spans : List Span) : Prop where
  covers : Covers (Matters text) lo hi spans
  light : ∀ span ∈ spans, weights text span.2 - weights text span.1 ≤ budget

theorem Units.flatMap {cut : Span → List Span} (covers : Covers (Matters text) lo hi spans)
    (cuts : ∀ span ∈ spans, Units text budget span.1 span.2 (cut span)) :
    Units text budget lo hi (spans.flatMap cut) where
  covers := covers.flatMap fun span member => (cuts span member).covers
  light piece member := by
    obtain ⟨span, isSpan, isPiece⟩ := mem_flatMap.mp member
    exact (cuts span isSpan).light piece isPiece

theorem mapM_units {cut : Span → Option (List Span)} (covers : Covers (Matters text) lo hi spans)
    (each : ∀ span ∈ spans, ∃ pieces, cut span = some pieces ∧
      Units text budget span.1 span.2 pieces) :
    spans.mapM cut = some (spans.map fun span => (cut span).getD []) ∧
      Units text budget lo hi (spans.flatMap fun span => (cut span).getD []) := by
  constructor
  · refine mapM_some fun span member => ?_
    obtain ⟨pieces, isCut, -⟩ := each span member
    rw [isCut, getD_some]
  · refine Units.flatMap covers fun span member => ?_
    obtain ⟨pieces, isCut, isUnits⟩ := each span member
    rw [isCut, getD_some]
    exact isUnits

theorem boundedSpans_spec (large : 4 ≤ maxTokens) (covers : Covers (Matters text) lo hi spans) :
    ∃ pieces, boundedSpans text spans maxTokens = some pieces ∧
      Units text (maxTokens * 4) lo hi pieces := by
  have each : ∀ span ∈ spans, ∃ pieces,
      (if maxTokens * 4 < weights text span.2 - weights text span.1 then
        hardSplitSpans text maxTokens span.1 span.2
      else some [span]) = some pieces ∧ Units text (maxTokens * 4) span.1 span.2 pieces := by
    intro span member
    have placed := covers.within span member
    split
    · obtain ⟨pieces, isSplit, inside, light⟩ :=
        hardSplitSpans_spec text large (Nat.le_of_lt placed.2.1)
      exact ⟨pieces, isSplit, inside, light⟩
    · next light =>
        refine ⟨[span], rfl, Covers.whole placed.2.1, fun piece isPiece => ?_⟩
        rw [mem_singleton.mp isPiece]
        exact Nat.le_of_not_lt light
  obtain ⟨isCut, isUnits⟩ := mapM_units covers each
  rw [boundedSpans, isCut]
  exact ⟨_, rfl, flatMap_def ▸ isUnits⟩

theorem sentences_spec (large : 4 ≤ maxTokens) {line : Span} (nonempty : line.1 < line.2) :
    ∃ cut, sentences text maxTokens line = some cut ∧
      Units text (maxTokens * 4) line.1 line.2 cut :=
  boundedSpans_spec large (segments_covers sentenceBreak_clean (Nat.le_of_lt nonempty))

end MemoryService.Ingestion
