import Mathlib.Data.List.Forall2
import MemoryService.Ingestion.Packing

/-!
# What the chunks of a node are

Nothing is raised from four tokens on.
-/

namespace MemoryService.Ingestion

open Foundation List
open Option (getD_some map_some)

variable {text : Text}

structure IsLine (text : Text) (lo hi : Nat) : Prop where
  within : lo ≤ hi ∧ hi ≤ text.length
  starts : lo = 0 ∨ isNewline text (lo - 1) = true
  ends : hi = text.length ∨ isNewline text hi = true
  whole : ∀ i, lo ≤ i → i < hi → isNewline text i = false

def Parted (text : Text) (span other : Span) : Prop :=
  span = other ∨ ∃ k, isNewline text k = true ∧
    (span.2 ≤ k ∧ k < other.1 ∨ other.2 ≤ k ∧ k < span.1)

instance partedSymm : Std.Symm (Parted text) where
  symm _ _ parted := by
    rcases parted with same | ⟨k, newline, before | isAfter⟩
    · exact .inl same.symm
    · exact .inr ⟨k, newline, .inr before⟩
    · exact .inr ⟨k, newline, .inl isAfter⟩

/-- A span that has something at either end, and no newline in it. -/
structure Within (text : Text) (span : Span) : Prop where
  first : Matters text span.1
  last : Matters text (span.2 - 1)
  whole : ∀ k, span.Has k → isNewline text k = false

variable {start stop lo hi maxTokens : Nat} {span line : Span} {spans : List Span}
  {node : DocumentNode} {fits : Text → Prop}

theorem within_of_trimmed
    (isSpan : span ∈ trimmed text start stop)
    (free : ∀ k, start ≤ k → k < stop → isNewline text k = false) : Within text span := by
  rcases trimmed_cases text start stop with
    ⟨first, last, isSome, starts, -, ends, isFirst, isLast, -⟩ | ⟨isNone, -⟩
  · rw [isSome] at isSpan
    cases isSpan
    exact ⟨isFirst, isLast, fun k has =>
      free k (Nat.le_trans starts has.1) (Nat.lt_of_lt_of_le has.2 ends)⟩
  · rw [isNone] at isSpan
    cases isSpan

theorem mem_trimmed_within
    (isSpan : span ∈ trimmed text start stop) : start ≤ span.1 ∧ span.2 ≤ stop := by
  have placed := (trimmed_covers text start stop).within span (Option.mem_toList.mpr isSpan)
  exact ⟨placed.1, placed.2.2⟩

theorem between_lines :
    ∀ {most position i : Nat}, position ≤ i → position ≤ stop → stop < most + i →
      (∀ k, position ≤ k → k < i → k < stop → isNewline text k = false) →
      (∀ span ∈ between text lineBreak stop most position i, Within text span) ∧
        (between text lineBreak stop most position i).Pairwise (Parted text) := by
  have alone : ∀ {start stop : Nat},
      (∀ k, start ≤ k → k < stop → isNewline text k = false) →
      (∀ span ∈ (trimmed text start stop).toList, Within text span) ∧
        (trimmed text start stop).toList.Pairwise (Parted text) := by
    intro start stop free
    refine ⟨fun span member => within_of_trimmed (Option.mem_toList.mp member) free, ?_⟩
    cases trimmed text start stop with
    | none => exact List.Pairwise.nil
    | some span => exact pairwise_singleton _ _
  intro most
  induction most with
  | zero =>
    intro position i searched within adequate free
    exact alone fun k starts ends => free k starts (by omega) ends
  | succ most ih =>
    intro position i searched within adequate free
    rw [between]
    split
    · exact alone fun k starts ends => free k starts (by omega) ends
    · next isBefore =>
        split
        · next noMatch =>
            refine ih (Nat.le_succ_of_le searched) within (by omega) ?_
            intro k starts ends early
            rcases Nat.eq_or_lt_of_le (Nat.le_of_lt_succ ends) with rfl | earlier
            · rw [lineBreak] at noMatch
              split at noMatch
              · cases noMatch
              · next isStill =>
                  have isSame : runEnd (isNewline text) (stop - k) k = k :=
                    Nat.le_antisymm (Nat.le_of_not_lt isStill) le_runEnd
                  have stops : isNewline text (runEnd (isNewline text) (stop - k) k) = false :=
                    runEnd_stops (by omega)
                  rwa [isSame] at stops
            · exact free k starts earlier early
        · next last isMatch =>
            obtain ⟨further, isLast⟩ := lineBreak_eq_some isMatch
            have newline : isNewline text i = true :=
              of_lt_runEnd (Nat.le_refl i) (isLast ▸ further)
            obtain ⟨-, notPast, -⟩ := lineBreak_clean stop i last (by omega) isMatch
            have later : Covers (Matters text) last stop
                (between text lineBreak stop most last (max last (i + 1))) :=
              between_covers lineBreak_clean (Nat.le_max_left last (i + 1)) notPast
            obtain ⟨isWithin, apart⟩ := ih (Nat.le_max_left last (i + 1))
              notPast (by omega) (fun k starts ends _ => by omega)
            have clear : ∀ k, position ≤ k → k < i → isNewline text k = false :=
              fun k starts ends => free k starts ends (by omega)
            obtain ⟨isWithinFirst, apartFirst⟩ := alone clear
            refine ⟨?_, pairwise_append.mpr ⟨apartFirst, apart, ?_⟩⟩
            · intro span member
              rcases mem_append.mp member with isFirst | isLater
              · exact isWithinFirst span isFirst
              · exact isWithin span isLater
            · intro span isFirst other isLater
              have ends := (mem_trimmed_within (Option.mem_toList.mp isFirst)).2
              have starts := (later.within other isLater).1
              exact .inr ⟨i, newline, .inl ⟨ends, by omega⟩⟩

theorem mem_segments_of_line (isLine : IsLine text lo hi) (isTrimmed : line ∈ trimmed text lo hi) :
    line ∈ segments text lineBreak 0 text.length := by
  obtain ⟨isWithin, apart⟩ : (∀ span ∈ segments text lineBreak 0 text.length,
      Within text span) ∧ (segments text lineBreak 0 text.length).Pairwise (Parted text) :=
    between_lines (Nat.le_refl _) (Nat.zero_le _) (by omega) (fun k starts ends _ => by omega)
  have covers : Covers (Matters text) 0 text.length (segments text lineBreak 0 text.length) :=
    segments_covers lineBreak_clean (Nat.zero_le _)
  rcases trimmed_cases text lo hi with
    ⟨first, last, isSome, starts, nonempty, ends, isFirst, isLast, before, beyond⟩ | ⟨isNone, -⟩
  · rw [isSome] at isTrimmed
    cases isTrimmed
    have within := isLine.within.2
    obtain ⟨span, member, hasFirst⟩ := covers.covered first (Nat.zero_le _) (by omega) isFirst
    obtain ⟨other, isOther, hasLast⟩ := covers.covered (last - 1) (Nat.zero_le _) (by omega) isLast
    have same : span = other := by
      have parted : Parted text span other :=
        apart.forall_of_forall (fun _ _ => .inl rfl) member isOther
      rcases parted with same | ⟨k, newline, split | split⟩
      · exact same
      · have inLine := isLine.whole k (by have := hasFirst.2; omega) (by have := hasLast.1; omega)
        rw [inLine] at newline
        cases newline
      · have := hasFirst.1
        have := hasLast.2
        omega
    rw [← same] at hasLast
    have placed := covers.within span member
    have free := (isWithin span member).whole
    have notBefore : lo ≤ span.1 := by
      by_contra early
      rcases isLine.starts with isStart | newline
      · omega
      · rw [free (lo - 1) ⟨by omega, by have := hasFirst.2; omega⟩] at newline
        cases newline
    have notBeyond : span.2 ≤ hi := by
      by_contra late
      rcases isLine.ends with isEnd | newline
      · omega
      · rw [free hi ⟨by have := hasFirst.1; omega, by omega⟩] at newline
        cases newline
    have sameStart : span.1 = first := by
      by_contra differs
      have := hasFirst.1
      exact before span.1 notBefore (by omega) (isWithin span member).first
    have sameEnd : span.2 = last := by
      by_contra differs
      have := hasLast.2
      exact beyond (span.2 - 1) (by omega) (by omega) (isWithin span member).last
    have isSpan : span = (first, last) := Prod.ext sameStart sameEnd
    exact isSpan ▸ member
  · rw [isNone] at isTrimmed
    cases isTrimmed

structure Cut (text : Text) (maxTokens : Nat) (parts : List Span) : Prop where
  ordered : Ordered 0 text.length parts
  covered : ∀ i, i < text.length → Matters text i → ∃ part ∈ parts, part.Has i
  light : ∀ part ∈ parts, estimateTokens (slice text part) ≤ maxTokens

theorem ordered_of_covers {parts : List Span}
    (covers : Covers (Matters text) lo hi parts) : Ordered lo hi parts where
  within := covers.within
  ordered := by
    refine covers.apart.imp_of_mem ?_
    intro part later isPart isLater isBefore
    have placed := covers.within part isPart
    have placedLater := covers.within later isLater
    exact ⟨by omega, by omega⟩

theorem cut_of_units (someRoom : 1 ≤ maxTokens) (overlapTokens : Int)
    {starts : List Nat} (rising : starts.Pairwise (· ≤ ·))
    (isUnits : Units text (maxTokens * 4) 0 text.length spans) :
    Cut text maxTokens (packSpans text spans maxTokens overlapTokens starts) ∧
      Keeps spans (packSpans text spans maxTokens overlapTokens starts) := by
  obtain ⟨ordered, light, keeps⟩ := packSpans_spec rising isUnits
  refine ⟨⟨ordered, ?_, ?_⟩, keeps⟩
  · intro i within isThere
    obtain ⟨span, member, has⟩ := isUnits.covers.covered i (Nat.zero_le i) within isThere
    obtain ⟨part, isPart, contains⟩ := keeps span member
    exact ⟨part, isPart, contains.has has⟩
  · intro part member
    have isSlice := units_slice text (Nat.le_of_lt (ordered.within part member).2.1)
    exact estimate_le_of_units_le someRoom (isSlice ▸ light part member)

variable (text) in
theorem splitCodeSpans_spec (large : 4 ≤ maxTokens) :
    ∃ parts, splitCodeSpans text maxTokens = some parts ∧ Cut text maxTokens parts := by
  have covers : Covers (Matters text) 0 text.length (segments text blankLine 0 text.length) :=
    segments_covers blankLine_clean (Nat.zero_le _)
  obtain ⟨blocks, isBlocks, isUnits⟩ := boundedSpans_spec large covers
  refine ⟨_, by rw [splitCodeSpans, isBlocks]; rfl, ?_⟩
  exact (cut_of_units (by omega) 0 List.Pairwise.nil isUnits).1

theorem lineUnits_spec (nonempty : line.1 < line.2)
    {cut : List Span} (isUnits : Units text (maxTokens * 4) line.1 line.2 cut) :
    Units text (maxTokens * 4) line.1 line.2 (lineUnits text maxTokens line cut) := by
  rw [lineUnits]
  split
  · next light =>
      refine ⟨Covers.whole nonempty, fun span member => ?_⟩
      rw [mem_singleton.mp member]
      exact light
  · exact isUnits

variable (text) in
theorem splitSentenceSpans_spec (large : 4 ≤ maxTokens) (overlapTokens : Int) :
    ∃ parts, splitSentenceSpans text maxTokens overlapTokens = some parts ∧
      Cut text maxTokens parts ∧
      ∀ line ∈ segments text lineBreak 0 text.length,
        weights text line.2 - weights text line.1 ≤ maxTokens * 4 →
          ∃ part ∈ parts, Piece.Contains part line := by
  have covers : Covers (Matters text) 0 text.length (segments text lineBreak 0 text.length) :=
    segments_covers lineBreak_clean (Nat.zero_le _)
  generalize isLines : segments text lineBreak 0 text.length = lines at covers
  have each : ∀ line ∈ lines, ∃ cut, sentences text maxTokens line = some cut ∧
      Units text (maxTokens * 4) line.1 line.2 cut :=
    fun line member => sentences_spec large (covers.within line member).2.1
  obtain ⟨isCut, isSentences⟩ := mapM_units covers each
  have isFlat : (lines.map fun line => (sentences text maxTokens line).getD []).flatten =
      lines.flatMap fun line => (sentences text maxTokens line).getD [] :=
    flatMap_def.symm
  have rising : ((lines.flatMap fun line =>
      (sentences text maxTokens line).getD []).map Prod.fst).Pairwise (· ≤ ·) := by
    refine pairwise_map.mpr ((ordered_of_covers isSentences.covers).ordered.imp ?_)
    exact fun before => before.1
  let chosen (line : Span) : List Span :=
    lineUnits text maxTokens line ((sentences text maxTokens line).getD [])
  have isChosen : (List.zipWith (lineUnits text maxTokens) lines
      (lines.map fun line => (sentences text maxTokens line).getD [])).flatten =
        lines.flatMap chosen := by
    rw [zipWith_map_right, zipWith_self, flatMap_def]
  have isUnits : Units text (maxTokens * 4) 0 text.length (lines.flatMap chosen) := by
    refine Units.flatMap covers fun line member => ?_
    obtain ⟨cut, isSome, cutUnits⟩ := each line member
    have light := lineUnits_spec (covers.within line member).2.1 cutUnits
    simpa only [chosen, isSome, getD_some] using light
  obtain ⟨isParts, keeps⟩ := cut_of_units (by omega) overlapTokens rising isUnits
  refine ⟨_, ?_, isParts, ?_⟩
  · simp only [splitSentenceSpans, isLines, isCut, map_some, isChosen, isFlat]
  · intro line member fits
    refine keeps line (mem_flatMap.mpr ⟨line, member, ?_⟩)
    simp only [chosen, lineUnits, if_pos fits, mem_singleton]

theorem hardSplit_spec (large : 4 ≤ maxTokens) (text : Text) :
    ∃ parts, hardSplit text maxTokens = some parts ∧
      ∀ part ∈ parts, units part ≤ maxTokens * 4 := by
  obtain ⟨spans, isSplit, covers, light⟩ := hardSplitSpans_spec text large (Nat.zero_le text.length)
  refine ⟨spans.map (slice text), by rw [hardSplit, isSplit]; rfl, ?_⟩
  intro part member
  obtain ⟨span, isSpan, rfl⟩ := mem_map.mp member
  rw [units_slice text (Nat.le_of_lt (covers.within span isSpan).2.1)]
  exact light span isSpan

theorem packUnits_spec {before : Text}
    (room : units before + 16 ≤ maxTokens * 4) (rows : List Text) :
    ∃ parts, packUnits rows maxTokens before = some parts ∧
      ∀ part ∈ parts, units part ≤ maxTokens * 4 := by
  have available : 4 ≤ (maxTokens * 4 - units before) / 4 := by omega
  have each : ∀ row ∈ rows, hardSplit row ((maxTokens * 4 - units before) / 4) =
      some ((hardSplit row ((maxTokens * 4 - units before) / 4)).getD []) := by
    intro row _
    obtain ⟨parts, isSplit, -⟩ := hardSplit_spec available row
    rw [isSplit, getD_some]
  have isSplit := mapM_some each
  refine ⟨_, by rw [packUnits, isSplit, map_some], ?_⟩
  refine filled_light (by rw [joined, append_nil]) (by omega) fun fragment member => ?_
  obtain ⟨parts, isParts, inParts⟩ := mem_flatten.mp member
  obtain ⟨row, -, rfl⟩ := mem_map.mp isParts
  obtain ⟨pieces, isRow, light⟩ := hardSplit_spec available row
  rw [isRow, getD_some] at inParts
  have fits := light fragment inParts
  omega

theorem splitTable_spec (large : 4 ≤ maxTokens) (text : Text) :
    ∃ parts, splitTable text maxTokens = some parts ∧
      ∀ part ∈ parts, units part ≤ maxTokens * 4 := by
  simp only [splitTable]
  generalize (if (text.splitOn '\n')[1]?.any isRule then (text.splitOn '\n').take 2
    else (text.splitOn '\n').take 1) = header
  split
  · exact hardSplit_spec large text
  · split
    · exact hardSplit_spec large text
    · next room => exact packUnits_spec (Nat.le_of_not_lt room) _

def IsSplitTable (node : DocumentNode) (maxTokens : Nat) : Prop :=
  node.representation = .table ∧ maxTokens < estimateTokens node.text

def KeepsLines (text : Text) (fits : Text → Prop) (spans : List Span) : Prop :=
  ∀ lo hi, IsLine text lo hi → ∀ line ∈ trimmed text lo hi, fits (slice text line) →
    ∃ span ∈ spans, Piece.Contains span line

structure Sliced (node : DocumentNode) (fits : Text → Prop) (spans : List Span) : Prop where
  ordered : Ordered 0 node.text.length spans
  covered : ∀ i, i < node.text.length → Matters node.text i → ∃ span ∈ spans, span.Has i
  lines : node.representation ≠ .table → node.representation ≠ .codeBlock →
    KeepsLines node.text fits spans

theorem keepsLines_of_segments
    (keeps : ∀ line ∈ segments text lineBreak 0 text.length,
      weights text line.2 - weights text line.1 ≤ maxTokens * 4 →
        ∃ span ∈ spans, Piece.Contains span line) :
    KeepsLines text (fun line => units line ≤ maxTokens * 4) spans := by
  intro lo hi isLine line isTrimmed fits
  have covers : Covers (Matters text) 0 text.length (segments text lineBreak 0 text.length) :=
    segments_covers lineBreak_clean (Nat.zero_le _)
  have member := mem_segments_of_line isLine isTrimmed
  have rising := Nat.le_of_lt (covers.within line member).2.1
  exact keeps line member (units_slice text rising ▸ fits)

theorem trimmed_cut (small : estimateTokens text ≤ maxTokens) :
    Cut text maxTokens (trimmed text 0 text.length).toList := by
  have covers := trimmed_covers text 0 text.length
  refine ⟨ordered_of_covers covers, fun i => covers.covered i (Nat.zero_le i), ?_⟩
  intro part member
  have lighter := trimmed_le (Option.mem_toList.mp member)
  have isSlice : units (slice text part) = weights text part.2 - weights text part.1 :=
    units_slice text (Nat.le_of_lt (covers.within part member).2.1)
  have isWhole : weights text text.length = units text := by rw [weights, take_length]
  rw [estimateTokens_eq] at small ⊢
  omega

theorem trimmed_keepsLines (fits : Text → Prop) :
    KeepsLines text fits (trimmed text 0 text.length).toList := by
  intro lo hi isLine line isTrimmed _
  rcases trimmed_cases text lo hi with
    ⟨first, last, isSome, -, nonempty, ends, isFirst, isLast, -⟩ | ⟨isNone, -⟩
  · rw [isSome] at isTrimmed
    cases isTrimmed
    have within := isLine.within.2
    rcases trimmed_cases text 0 text.length with
      ⟨start, stop, isSpan, -, -, -, -, -, before, beyond⟩ | ⟨-, free⟩
    · refine ⟨(start, stop), Option.mem_toList.mpr isSpan, ?_, ?_⟩
      · by_contra early
        exact before first (Nat.zero_le _) (Nat.lt_of_not_le early) isFirst
      · by_contra late
        exact beyond (last - 1) (by omega) (by omega) isLast
    · exact absurd isFirst (free first (Nat.zero_le _) (by omega))
  · rw [isNone] at isTrimmed
    cases isTrimmed

theorem nodeParts_spec (large : 4 ≤ maxTokens) (overlapTokens : Int) (node : DocumentNode) :
    ∃ parts, nodeParts node maxTokens overlapTokens = some parts ∧
      (∀ part ∈ parts, estimateTokens part.1 ≤ maxTokens) ∧
      (¬IsSplitTable node maxTokens → ∃ spans, parts = spans.map (sliced node.text) ∧
        Sliced node (fun line => units line ≤ maxTokens * 4) spans) := by
  have ofCut : ∀ {spans : List Span}, Cut node.text maxTokens spans →
      ∀ part ∈ spans.map (sliced node.text), estimateTokens part.1 ≤ maxTokens := by
    intro spans isCut part member
    obtain ⟨span, isSpan, rfl⟩ := mem_map.mp member
    exact isCut.light span isSpan
  simp only [nodeParts]
  split
  · next small =>
      have isCut := trimmed_cut small
      exact ⟨_, rfl, ofCut isCut, fun _ =>
        ⟨_, rfl, isCut.ordered, isCut.covered, fun _ _ => trimmed_keepsLines _⟩⟩
  · next heavy =>
      split
      · next isTable =>
          obtain ⟨parts, isSplit, light⟩ := splitTable_spec large node.text
          refine ⟨_, by rw [isSplit]; rfl, ?_, fun other => ?_⟩
          · intro part member
            obtain ⟨row, isRow, rfl⟩ := mem_map.mp member
            exact estimate_le_of_units_le (by omega) (light row (mem_filter.mp isRow).1)
          · exact absurd ⟨isTable, Nat.lt_of_not_le heavy⟩ other
      · next isCode =>
          obtain ⟨spans, isSplit, isCut⟩ := splitCodeSpans_spec node.text large
          exact ⟨_, by rw [isSplit]; rfl, ofCut isCut, fun _ =>
            ⟨_, rfl, isCut.ordered, isCut.covered, fun _ other => absurd isCode other⟩⟩
      · obtain ⟨spans, isSplit, isCut, keeps⟩ :=
          splitSentenceSpans_spec node.text large overlapTokens
        exact ⟨_, by rw [isSplit]; rfl, ofCut isCut, fun _ =>
          ⟨_, rfl, isCut.ordered, isCut.covered, fun _ _ => keepsLines_of_segments keeps⟩⟩

structure Chunked (fits : Text → Prop) (maxTokens : Nat) (node : DocumentNode)
    (chunks : List Chunk) : Prop where
  light : ∀ chunk ∈ chunks, estimateTokens chunk.text ≤ maxTokens
  slices : ¬IsSplitTable node maxTokens → ∃ spans,
    chunks.map Chunk.text = spans.map (slice node.text) ∧ Sliced node fits spans

theorem Sliced.keeps {others : List Span}
    (isSliced : Sliced node fits spans) (ordered : Ordered 0 node.text.length others)
    (keeps : Keeps spans others) : Sliced node fits others where
  ordered := ordered
  covered i within isThere := by
    obtain ⟨span, member, has⟩ := isSliced.covered i within isThere
    obtain ⟨other, isOther, contains⟩ := keeps span member
    exact ⟨other, isOther, contains.has has⟩
  lines isNoTable isNoCode lo hi isLine line isTrimmed isFit := by
    obtain ⟨span, member, inSpan⟩ :=
      isSliced.lines isNoTable isNoCode lo hi isLine line isTrimmed isFit
    obtain ⟨other, isOther, contains⟩ := keeps span member
    exact ⟨other, isOther, contains.trans inSpan⟩

theorem sliced_nil (node : DocumentNode) (fits : Text → Prop) (isEmpty : node.text = []) :
    Sliced node fits [] where
  ordered := ⟨by simp, List.Pairwise.nil⟩
  covered i within _ := by simp [isEmpty] at within
  lines _ _ lo hi isLine line isTrimmed _ := by
    have ends := mem_trimmed_within isTrimmed
    have within := isLine.within.2
    rw [isEmpty, length_nil] at within
    have placed := (trimmed_covers node.text lo hi).within line (Option.mem_toList.mpr isTrimmed)
    omega

theorem map_text_mapIdx (nodeId : String) (texts : List Text) : (texts.mapIdx fun ordinal text =>
      ({ nodeId, ordinal, text, tokenEstimate := estimateTokens text } : Chunk)).map
        Chunk.text = texts := by
  refine ext_getElem? fun ordinal => ?_
  rw [getElem?_map, getElem?_mapIdx]
  cases texts[ordinal]? <;> rfl

theorem nodeChunks_spec (large : 4 ≤ maxTokens) (minTokens overlapTokens : Int)
    (isNoHeading : node.representation.isStructural = false) :
    ∃ chunks, nodeChunks maxTokens minTokens overlapTokens node = some chunks ∧
      Chunked (fun line => units line ≤ maxTokens * 4) maxTokens node chunks := by
  rw [nodeChunks]
  by_cases isEmpty : node.text = []
  · refine ⟨[], if_pos (.inr isEmpty), by simp, fun _ => ⟨[], rfl, ?_⟩⟩
    exact sliced_nil node _ isEmpty
  · rw [if_neg (by simp [isNoHeading, isEmpty])]
    obtain ⟨parts, isParts, light, slices⟩ := nodeParts_spec large overlapTokens node
    have lightMerged : ∀ part ∈ merged node.text maxTokens minTokens none parts,
        estimateTokens part.1 ≤ maxTokens := merged_light light
    refine ⟨_, by rw [isParts]; rfl, ?_, fun noSplit => ?_⟩
    · intro chunk member
      have isText := mem_map_of_mem (f := Chunk.text) member
      rw [map_text_mapIdx] at isText
      obtain ⟨part, isPart, isSame⟩ := mem_map.mp isText
      exact isSame ▸ lightMerged part isPart
    · obtain ⟨spans, rfl, isSliced⟩ := slices noSplit
      obtain ⟨others, isMerged, ordered, keeps⟩ :=
        merged_slices_of_none maxTokens minTokens isSliced.ordered
      refine ⟨others, ?_, isSliced.keeps ordered keeps⟩
      rw [map_text_mapIdx, mergeTiny, isMerged, map_map]
      rfl

/-- A structural node has no chunks, any other one those of its text. -/
def IsChunked (fits : Text → Prop) (maxTokens : Nat) (node : DocumentNode)
    (chunks : List Chunk) : Prop :=
  if node.representation.isStructural then chunks = []
  else Chunked fits maxTokens node chunks

theorem chunks_cover (nodes : List DocumentNode) {maxTokens : Nat} (large : 4 ≤ maxTokens)
    (minTokens overlapTokens : Int) :
    ∃ each, chunkNodes nodes maxTokens minTokens overlapTokens = some each.flatten ∧
      List.Forall₂ (IsChunked (fun line => units line ≤ maxTokens * 4) maxTokens) nodes each := by
  have each : ∀ node ∈ nodes, ∃ chunks,
      nodeChunks maxTokens minTokens overlapTokens node = some chunks ∧
        IsChunked (fun line => units line ≤ maxTokens * 4) maxTokens node chunks := by
    intro node _
    simp only [IsChunked]
    split
    · next isHeading => exact ⟨[], if_pos (.inl isHeading), rfl⟩
    · next isNoHeading =>
        exact nodeChunks_spec large minTokens overlapTokens
          (Bool.eq_false_of_not_eq_true isNoHeading)
  have isSome : nodes.mapM (nodeChunks maxTokens minTokens overlapTokens) =
      some (nodes.map fun node => (nodeChunks maxTokens minTokens overlapTokens node).getD []) := by
    refine mapM_some fun node member => ?_
    obtain ⟨chunks, isChunks, -⟩ := each node member
    rw [isChunks, getD_some]
  refine ⟨_, by rw [chunkNodes, isSome]; rfl, ?_⟩
  refine List.forall₂_map_right_iff.mpr (List.forall₂_same.mpr fun node member => ?_)
  obtain ⟨chunks, isChunks, isChunked⟩ := each node member
  rw [isChunks, getD_some]
  exact isChunked

/-- Two lines, of which the second is just within the maximum by its estimate. -/
def letter : DocumentNode :=
  { nodeId := "letter", representation := .paragraph, text := "To\nPaid now. Ship all.".toList }

def heading : DocumentNode :=
  { nodeId := "heading", representation := .section_, text := "Terms".toList }

theorem chunks_cover_of_letter :
    4 ≤ 4 ∧ ∃ each, chunkNodes [letter, heading] 4 40 40 = some each.flatten ∧
      List.Forall₂ (IsChunked (fun line => units line ≤ 4 * 4) 4) [letter, heading] each :=
  ⟨Nat.le_refl 4, chunks_cover [letter, heading] (Nat.le_refl 4) 40 40⟩

theorem chunked_of_single
    {chunks : List Chunk}
    (covered : ∃ each, some chunks = some each.flatten ∧
      List.Forall₂ (Chunked fits maxTokens) [node] each) :
    Chunked fits maxTokens node chunks := by
  obtain ⟨each, isSame, all⟩ := covered
  rcases List.forall₂_cons_left_iff.mp all with ⟨own, others, isOwn, rest, rfl⟩
  rw [List.forall₂_nil_left_iff.mp rest, flatten_cons, flatten_nil, append_nil] at isSame
  exact Option.some.inj isSame ▸ isOwn

/-- The letter's second line has the weight of four tokens and three quarters, and is broken;
the text of a heading is in no chunk. -/
theorem line_of_letter_is_broken :
    estimateTokens "Paid now. Ship all.".toList = 4 ∧
      (¬∃ each, chunkNodes [letter] 4 40 40 = some each.flatten ∧
        List.Forall₂ (Chunked (fun line => estimateTokens line ≤ 4) 4) [letter] each) ∧
      ¬∃ each, chunkNodes [heading] 4 40 40 = some each.flatten ∧
        List.Forall₂ (Chunked (fun line => estimateTokens line ≤ 4) 4) [heading] each := by
  refine ⟨by decide +kernel, fun covered => ?_, fun covered => ?_⟩
  · have isChunks : (chunkNodes [letter] 4 40 40).map (List.map Chunk.text) =
        some ["To\nPaid now.".toList, "Ship all.".toList] := by decide +kernel
    cases isSome : chunkNodes [letter] 4 40 40 with
    | none =>
      rw [isSome] at isChunks
      cases isChunks
    | some chunks =>
      rw [isSome] at covered isChunks
      obtain ⟨spans, isSliced, inOrder⟩ := (chunked_of_single covered).slices
        fun split => absurd split.1 (by decide)
      rw [map_some, Option.some.injEq, isSliced] at isChunks
      have isLine : IsLine letter.text 3 22 :=
        ⟨by decide +kernel, by decide +kernel, by decide +kernel, by decide +kernel⟩
      obtain ⟨span, member, contains⟩ := inOrder.lines (by decide) (by decide) 3 22 isLine
        (3, 22) (by decide +kernel) (by decide +kernel)
      have within := (inOrder.ordered.within span member).2.2
      have isLong : 19 ≤ (slice letter.text span).length := by
        rw [slice, length_take, length_drop]
        have := contains.1
        have := contains.2
        omega
      have isText : slice letter.text span ∈ ["To\nPaid now.".toList, "Ship all.".toList] :=
        isChunks ▸ mem_map_of_mem member
      have short : ∀ text ∈ ["To\nPaid now.".toList, "Ship all.".toList], text.length < 19 := by
        decide +kernel
      exact absurd isLong (Nat.not_le.mpr (short _ isText))
  · have isNone : chunkNodes [heading] 4 40 40 = some [] := rfl
    rw [isNone] at covered
    obtain ⟨spans, isSliced, inOrder⟩ := (chunked_of_single covered).slices
      fun split => absurd split.1 (by decide)
    obtain ⟨span, member, -⟩ := inOrder.covered 0 (by decide +kernel) rfl
    rw [map_nil] at isSliced
    rw [map_eq_nil_iff.mp isSliced.symm] at member
    cases member

end MemoryService.Ingestion
