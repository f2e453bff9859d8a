import MemoryService.Ingestion.Covering

/-!
# Parts of a node

Units are packed into parts, and tiny parts are merged.  Both keep what they are given whole
in one part, keep the order, and keep every part within the budget.
-/

namespace MemoryService.Ingestion

open Foundation List Option

variable {text : Text}

/-- Parts in order, of a stretch of the text; neighbours may overlap. -/
structure Ordered (lo hi : Nat) (parts : List Span) : Prop where
  within : ∀ part ∈ parts, lo ≤ part.1 ∧ part.1 < part.2 ∧ part.2 ≤ hi
  ordered : parts.Pairwise Piece.Before

def Keeps (spans parts : List Span) : Prop :=
  ∀ span ∈ spans, ∃ part ∈ parts, Piece.Contains part span

variable {previous budget lo hi maxTokens : Nat} {starts : List Nat} {minTokens : Int}

theorem lt_of_mem_dropWhile (rising : starts.Pairwise (· ≤ ·)) {point : Nat}
    (member : point ∈ starts.dropWhile (· ≤ previous)) : previous < point := by
  induction starts with
  | nil => cases member
  | cons first others ih =>
    obtain ⟨least, othersRising⟩ := pairwise_cons.mp rising
    by_cases isEarly : first ≤ previous
    · rw [dropWhile_cons_of_pos (by simpa using isEarly)] at member
      exact ih othersRising member
    · rw [dropWhile_cons_of_neg (by simpa using isEarly)] at member
      rcases mem_cons.mp member with rfl | later
      · exact Nat.lt_of_not_le isEarly
      · exact Nat.lt_of_lt_of_le (Nat.lt_of_not_le isEarly) (least point later)

theorem reopened_spec (overlap : Int)
    (rising : starts.Pairwise (· ≤ ·)) {last a b : Nat} (isOpen : previous < last)
    (follows : last ≤ a) (light : weights text b - weights text a ≤ budget) :
    previous ≤ reopened text budget overlap starts previous last a b ∧
      reopened text budget overlap starts previous last a b ≤ a ∧
      weights text b - weights text (reopened text budget overlap starts previous last a b) ≤
        budget := by
  rw [reopened]
  split
  · exact ⟨by omega, Nat.le_refl _, light⟩
  · cases isFound : ((starts.dropWhile (· ≤ previous)).takeWhile (· < last)).find? fun point =>
        ((weights text last - weights text point : Nat) : Int) ≤ overlap &&
          weights text b - weights text point ≤ budget with
    | none => exact ⟨by rw [getD_none]; omega, Nat.le_refl _, light⟩
    | some point =>
      have member := mem_of_find?_eq_some isFound
      have isLate := lt_of_mem_dropWhile rising ((takeWhile_sublist _).subset member)
      have isEarly : point < last := by simpa using mem_takeWhile_imp member
      have fits := find?_some isFound
      simp only [Bool.and_eq_true, decide_eq_true_eq] at fits
      exact ⟨by rw [getD_some]; omega, by rw [getD_some]; omega, fits.2⟩

theorem Units.tail {budget lo hi : Nat} {unit : Span} {rest : List Span}
    (isUnits : Units text budget lo hi (unit :: rest)) : Units text budget unit.2 hi rest where
  covers := isUnits.covers.tail
  light span member := isUnits.light span (mem_cons_of_mem unit member)

theorem packed_some (overlap : Int) (rising : starts.Pairwise (· ≤ ·)) :
    ∀ {rest : List Span} {first last : Nat}, lo ≤ first → first < last → last ≤ hi →
      weights text last - weights text first ≤ budget → Units text budget last hi rest →
      let parts := packed text budget overlap starts (some (first, last)) rest
      Ordered lo hi parts ∧ (∀ part ∈ parts, Piece.Before (first, last) part) ∧
        (∀ part ∈ parts, weights text part.2 - weights text part.1 ≤ budget) ∧
        Keeps ((first, last) :: rest) parts := by
  intro rest
  induction rest with
  | nil =>
    intro first last placed nonempty ends light _
    refine ⟨⟨?_, pairwise_singleton _ _⟩, ?_, ?_, ?_⟩
    · intro part member
      rw [mem_singleton.mp member]
      exact ⟨placed, nonempty, ends⟩
    · intro part member
      rw [mem_singleton.mp member]
      exact ⟨Nat.le_refl _, Nat.le_refl _⟩
    · intro part member
      rw [mem_singleton.mp member]
      exact light
    · intro span member
      exact ⟨span, member, Piece.Contains.refl span⟩
  | cons unit rest ih =>
    intro first last placed nonempty ends light isUnits
    obtain ⟨a, b⟩ := unit
    obtain ⟨follows, some_, within⟩ := isUnits.covers.within (a, b) mem_cons_self
    have lightUnit := isUnits.light (a, b) mem_cons_self
    rw [packed]
    split
    · obtain ⟨isAfter, isBefore, fits⟩ := reopened_spec overlap rising nonempty follows lightUnit
      generalize reopened text budget overlap starts first last a b = point
        at isAfter isBefore fits ⊢
      obtain ⟨ordered, later, lightRest, keeps⟩ := ih
        (Nat.le_trans placed isAfter) (Nat.lt_of_le_of_lt isBefore some_) within fits
        isUnits.tail
      have before : Piece.Before (first, last) (point, b) :=
        ⟨isAfter, Nat.le_of_lt (Nat.lt_of_le_of_lt follows some_)⟩
      have whole : Piece.Contains (point, b) (a, b) := ⟨isBefore, Nat.le_refl _⟩
      refine ⟨⟨?_, pairwise_cons.mpr ⟨?_, ordered.ordered⟩⟩, ?_, ?_, ?_⟩
      · intro part member
        rcases mem_cons.mp member with rfl | isLater
        · exact ⟨placed, nonempty, ends⟩
        · exact ordered.within part isLater
      · intro part isLater
        exact before.trans (later part isLater)
      · intro part member
        rcases mem_cons.mp member with rfl | isLater
        · exact ⟨Nat.le_refl _, Nat.le_refl _⟩
        · exact before.trans (later part isLater)
      · intro part member
        rcases mem_cons.mp member with rfl | isLater
        · exact light
        · exact lightRest part isLater
      · intro span member
        rcases mem_cons.mp member with rfl | isUnit
        · exact ⟨_, mem_cons_self, Piece.Contains.refl _⟩
        · rcases mem_cons.mp isUnit with rfl | isRest
          · obtain ⟨part, isPart, contains⟩ := keeps (point, b) mem_cons_self
            exact ⟨part, mem_cons_of_mem _ isPart, contains.trans whole⟩
          · obtain ⟨part, isPart, contains⟩ := keeps span (mem_cons_of_mem _ isRest)
            exact ⟨part, mem_cons_of_mem _ isPart, contains⟩
    · next fits =>
        obtain ⟨ordered, later, lightRest, keeps⟩ := ih placed
          (by omega) within (Nat.le_of_not_lt fits) isUnits.tail
        have before : Piece.Before (first, last) (first, b) := ⟨Nat.le_refl _, by omega⟩
        refine ⟨ordered, fun part member => before.trans (later part member), lightRest, ?_⟩
        obtain ⟨part, isPart, contains⟩ := keeps (first, b) mem_cons_self
        intro span member
        rcases mem_cons.mp member with rfl | isUnit
        · exact ⟨part, isPart, contains.trans ⟨Nat.le_refl _, by omega⟩⟩
        · rcases mem_cons.mp isUnit with rfl | isRest
          · exact ⟨part, isPart, contains.trans ⟨by omega, Nat.le_refl _⟩⟩
          · exact keeps span (mem_cons_of_mem _ isRest)

theorem packSpans_spec {overlapTokens : Int}
    (rising : starts.Pairwise (· ≤ ·)) {spans : List Span}
    (isUnits : Units text (maxTokens * 4) lo hi spans) :
    let parts := packSpans text spans maxTokens overlapTokens starts
    Ordered lo hi parts ∧
      (∀ part ∈ parts, weights text part.2 - weights text part.1 ≤ maxTokens * 4) ∧
      Keeps spans parts := by
  cases spans with
  | nil =>
    refine ⟨⟨?_, List.Pairwise.nil⟩, ?_, ?_⟩
    · intro part none_
      cases none_
    · intro part none_
      cases none_
    · intro span none_
      cases none_
  | cons unit rest =>
    obtain ⟨placed, nonempty, ends⟩ := isUnits.covers.within unit mem_cons_self
    have light := isUnits.light unit mem_cons_self
    obtain ⟨ordered, -, lightParts, keeps⟩ :=
      packed_some (overlapTokens * 4) rising placed nonempty ends light isUnits.tail
    exact ⟨ordered, lightParts, keeps⟩

def sliced (text : Text) (span : Span) : Part := (slice text span, some span)

theorem merged_light :
    ∀ {parts : List Part} {previous : Option Part},
      (∀ part ∈ previous.toList ++ parts, estimateTokens part.1 ≤ maxTokens) →
      ∀ part ∈ merged text maxTokens minTokens previous parts,
        estimateTokens part.1 ≤ maxTokens := by
  intro parts
  induction parts with
  | nil =>
    intro previous light part member
    exact light part (by rw [append_nil]; exact member)
  | cons next rest ih =>
    intro previous light part member
    cases previous with
    | none => exact ih light part member
    | some previous =>
      rw [merged] at member
      split at member
      · next fits =>
          refine ih ?_ part member
          intro other isOther
          rcases mem_cons.mp isOther with rfl | isRest
          · exact fits.2
          · exact light other (mem_cons_of_mem _ (mem_cons_of_mem _ isRest))
      · rcases mem_cons.mp member with rfl | isLater
        · exact light _ mem_cons_self
        · have lightRest : ∀ other ∈ (some next).toList ++ rest,
              estimateTokens other.1 ≤ maxTokens :=
            fun other isOther => light other (mem_cons_of_mem _ isOther)
          exact ih lightRest part isLater

theorem merged_slices :
    ∀ {rest : List Span} {first : Span}, Ordered lo hi (first :: rest) →
      ∃ spans, merged text maxTokens minTokens (some (sliced text first))
          (rest.map (sliced text)) = spans.map (sliced text) ∧
        Ordered lo hi spans ∧ (∀ span ∈ spans, first.Before span) ∧
        Keeps (first :: rest) spans := by
  intro rest
  induction rest with
  | nil =>
    intro first ordered
    refine ⟨[first], rfl, ordered, ?_, fun span member => ⟨span, member, .refl span⟩⟩
    intro span member
    rw [mem_singleton.mp member]
    exact ⟨Nat.le_refl _, Nat.le_refl _⟩
  | cons next rest ih =>
    intro first ordered
    obtain ⟨isFirst, othersOrdered⟩ := pairwise_cons.mp ordered.ordered
    have before := isFirst next mem_cons_self
    have placed := ordered.within first mem_cons_self
    have placedNext := ordered.within next (by simp)
    rw [map_cons, merged]
    split
    · have joins : joinParts text (sliced text first) (sliced text next) =
          sliced text (first.1, next.2) := rfl
      have ordered' : Ordered lo hi ((first.1, next.2) :: rest) := by
        refine ⟨?_, pairwise_cons.mpr ⟨?_, (pairwise_cons.mp othersOrdered).2⟩⟩
        · intro span member
          rcases mem_cons.mp member with rfl | isRest
          · exact ⟨placed.1, Nat.lt_of_lt_of_le placed.2.1 before.2, placedNext.2.2⟩
          · exact ordered.within span (by simp [isRest])
        · intro span member
          have isNext := (pairwise_cons.mp othersOrdered).1 span member
          exact ⟨Nat.le_trans before.1 isNext.1, isNext.2⟩
      obtain ⟨spans, isMerged, inOrder, later, keeps⟩ := ih ordered'
      rw [joins]
      refine ⟨spans, isMerged, inOrder, ?_, ?_⟩
      · intro span member
        have isLater := later span member
        exact ⟨isLater.1, Nat.le_trans before.2 isLater.2⟩
      · obtain ⟨whole, isWhole, contains⟩ := keeps (first.1, next.2) mem_cons_self
        intro span member
        rcases mem_cons.mp member with rfl | isOther
        · exact ⟨whole, isWhole, contains.trans ⟨Nat.le_refl _, before.2⟩⟩
        · rcases mem_cons.mp isOther with rfl | isRest
          · exact ⟨whole, isWhole, contains.trans ⟨before.1, Nat.le_refl _⟩⟩
          · exact keeps span (mem_cons_of_mem _ isRest)
    · have others : Ordered lo hi (next :: rest) :=
        ⟨fun span member => ordered.within span (mem_cons_of_mem _ member), othersOrdered⟩
      obtain ⟨spans, isMerged, inOrder, later, keeps⟩ := ih others
      have allLater : ∀ span ∈ spans, first.Before span :=
        fun span member => before.trans (later span member)
      refine ⟨first :: spans, by rw [isMerged]; rfl, ⟨?_, ?_⟩, ?_, ?_⟩
      · intro span member
        rcases mem_cons.mp member with rfl | isOther
        · exact placed
        · exact inOrder.within span isOther
      · exact pairwise_cons.mpr ⟨allLater, inOrder.ordered⟩
      · intro span member
        rcases mem_cons.mp member with rfl | isOther
        · exact ⟨Nat.le_refl _, Nat.le_refl _⟩
        · exact allLater span isOther
      · intro span member
        rcases mem_cons.mp member with rfl | isOther
        · exact ⟨span, mem_cons_self, .refl span⟩
        · obtain ⟨part, isPart, contains⟩ := keeps span isOther
          exact ⟨part, mem_cons_of_mem _ isPart, contains⟩

theorem merged_slices_of_none (maxTokens : Nat) (minTokens : Int)
    {parts : List Span} (ordered : Ordered lo hi parts) :
    ∃ spans, merged text maxTokens minTokens none (parts.map (sliced text)) =
        spans.map (sliced text) ∧ Ordered lo hi spans ∧ Keeps parts spans := by
  cases parts with
  | nil => exact ⟨[], rfl, ordered, fun span none_ => by cases none_⟩
  | cons first rest =>
    obtain ⟨spans, isMerged, inOrder, -, keeps⟩ := merged_slices ordered
    exact ⟨spans, isMerged, inOrder, keeps⟩

theorem units_joined_append (lines : List Text) (line : Text) :
    units (joined (lines ++ [line])) =
      units (joined lines) + (if lines = [] then 0 else units ['\n']) + units line := by
  induction lines with
  | nil => simp [joined, units]
  | cons first others ih =>
    cases others with
    | nil =>
      simp [joined, units_append, units]
      omega
    | cons second rest =>
      have isCons : joined (first :: second :: rest ++ [line]) =
          first ++ '\n' :: joined (second :: rest ++ [line]) := rfl
      have wasCons : joined (first :: second :: rest) =
          first ++ '\n' :: joined (second :: rest) := rfl
      rw [isCons, wasCons, units_append, units_append, units, units, ih]
      simp
      omega

theorem filled_light {before : Text} :
    ∀ {fragments current : List Text} {weight : Nat},
      weight = units (before ++ joined current) → weight ≤ budget →
      (∀ fragment ∈ fragments, units before + units fragment ≤ budget) →
      ∀ part ∈ filled budget before current weight fragments, units part ≤ budget := by
  intro fragments
  induction fragments with
  | nil =>
    intro current weight isWeight light _ part member
    rw [filled] at member
    split at member
    · cases member
    · rw [mem_singleton.mp member, ← isWeight]
      exact light
  | cons fragment rest ih =>
    intro current weight isWeight light room part member
    have others : ∀ other ∈ rest, units before + units other ≤ budget :=
      fun other isOther => room other (mem_cons_of_mem _ isOther)
    rw [filled] at member
    by_cases isFull : current ≠ [] ∧
        budget < weight + (units fragment + if current = [] then 0 else units ['\n'])
    · rw [if_pos isFull] at member
      rcases mem_cons.mp member with rfl | isLater
      · rw [← isWeight]
        exact light
      · refine ih ?_ (room fragment mem_cons_self) others part isLater
        rw [units_append]
        rfl
    · rw [if_neg isFull] at member
      refine ih ?_ ?_ others part member
      · rw [isWeight, units_append, units_append, units_joined_append]
        omega
      · by_cases isFirst : current = []
        · rw [isWeight, isFirst, if_pos rfl]
          have own := room fragment mem_cons_self
          rw [units_append]
          simp only [joined, units]
          omega
        · exact Nat.le_of_not_lt fun heavy => isFull ⟨isFirst, heavy⟩

end MemoryService.Ingestion
