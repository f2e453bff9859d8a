import MemoryService.Ingestion.Chunks

/-!
# The rows of a split table

A table that is too heavy for one chunk is cut between its rows, and its header is repeated
before every part.
-/

namespace MemoryService.Ingestion

open Foundation List
open Rag (isSpace)

variable {text : Text}

/-- A span that starts and ends with something. -/
def Firm (text : Text) (span : Span) : Prop := Matters text span.1 ∧ Matters text (span.2 - 1)

theorem firm_of_trimmed {start stop : Nat} {span : Span}
    (isSpan : span ∈ trimmed text start stop) : Firm text span := by
  rcases trimmed_cases text start stop with
    ⟨first, last, isSome, -, -, -, isFirst, isLast, -⟩ | ⟨isNone, -⟩
  · rw [isSome] at isSpan
    cases isSpan
    exact ⟨isFirst, isLast⟩
  · rw [isNone] at isSpan
    cases isSpan

variable {budget index maxTokens : Nat} {row before : Text}

theorem cuts_firm :
    ∀ {most : Nat} {scan : Scan},
      ∀ span ∈ (cuts text budget index most scan).1, Firm text span := by
  intro most
  induction most with
  | zero =>
    intro scan span member
    simp [cuts] at member
  | succ most ih =>
    intro scan span member
    rw [cuts] at member
    split at member
    · rcases mem_append.mp member with isCut | isLater
      · exact firm_of_trimmed (Option.mem_toList.mp isCut)
      · exact ih span isLater
    · simp at member

theorem scanned_firm :
    ∀ (count : Nat) {index : Nat} {scan : Scan} {spans : List Span},
      scanned text budget count index scan = some spans → ∀ span ∈ spans, Firm text span := by
  intro count
  induction count with
  | zero =>
    intro index scan spans isScanned span member
    rw [scanned, Option.some.injEq] at isScanned
    rw [← isScanned] at member
    exact firm_of_trimmed (Option.mem_toList.mp member)
  | succ count ih =>
    intro index scan spans isScanned span member
    rw [scanned] at isScanned
    split at isScanned
    · cases isScanned
    · obtain ⟨rest, isRest, rfl⟩ := Option.map_eq_some_iff.mp isScanned
      rcases mem_append.mp member with isCut | isLater
      · exact cuts_firm span isCut
      · exact ih isRest span isLater

theorem cuts_of_room {most : Nat} {scan : Scan} (room : scan.weight + cost text index ≤ budget) :
    cuts text budget index most scan = ([], scan) := by
  cases most with
  | zero => rfl
  | succ most => rw [cuts, if_neg fun isFull => Nat.not_lt.mpr room isFull.1]

theorem scanned_of_light :
    ∀ (count : Nat) {index : Nat} {scan : Scan},
      scan.weight + (weights text (index + count) - weights text index) ≤ budget →
        scanned text budget count index scan =
          some (trimmed text scan.start (index + count)).toList := by
  intro count
  induction count with
  | zero =>
    intro index scan _
    rfl
  | succ count ih =>
    intro index scan light
    have isNext : weights text (index + 1) = weights text index + cost text index :=
      weights_succ index
    have isEnd : index + 1 + count = index + (count + 1) := by omega
    have rising : weights text (index + 1) ≤ weights text (index + 1 + count) :=
      weights_mono text (Nat.le_add_right _ _)
    rw [isEnd] at rising
    have room : scan.weight + cost text index ≤ budget := by omega
    have added : (scan.add text index).weight = scan.weight + cost text index := by
      rw [Scan.add]
      split <;> rfl
    have sameStart : (scan.add text index).start = scan.start := by
      rw [Scan.add]
      split <;> rfl
    have lightRest : (scan.add text index).weight +
        (weights text (index + 1 + count) - weights text (index + 1)) ≤ budget := by
      rw [added, isEnd, isNext]
      omega
    rw [scanned, if_neg (by omega), cuts_of_room room]
    dsimp only
    rw [ih lightRest, sameStart, isEnd]
    rfl

/-- Slices of a text that hold all of it but white space, in order; none has white space at
its ends. -/
def Splits (text : Text) (fragments : List Text) : Prop :=
  ∃ spans, fragments = spans.map (slice text) ∧
    Covers (Matters text) 0 text.length spans ∧ ∀ span ∈ spans, Firm text span

structure KeepsRow (available : Nat) (row : Text) (fragments : List Text) : Prop where
  splits : Splits row fragments
  whole : units row ≤ available * 4 → fragments = (trimmed row 0 row.length).toList.map (slice row)

theorem hardSplit_keeps (large : 4 ≤ maxTokens) (row : Text) :
    ∃ fragments, hardSplit row maxTokens = some fragments ∧ KeepsRow maxTokens row fragments := by
  obtain ⟨spans, isSplit, covers, -⟩ := hardSplitSpans_spec row large (Nat.zero_le row.length)
  have isScanned : scanned row (maxTokens * 4) row.length 0 { start := 0 } = some spans := by
    rw [← isSplit, hardSplitSpans, if_neg (by omega), Nat.sub_zero]
  refine ⟨spans.map (slice row), by rw [hardSplit, isSplit]; rfl,
    ⟨spans, rfl, covers, scanned_firm row.length isScanned⟩, fun light => ?_⟩
  have isWhole : 0 + (weights row (0 + row.length) - weights row 0) ≤ maxTokens * 4 := by
    rw [Nat.zero_add, Nat.zero_add, weights, take_length]
    exact Nat.le_trans (Nat.sub_le _ _) light
  have isOne : scanned row (maxTokens * 4) row.length 0 { start := 0 } =
      some (trimmed row 0 (0 + row.length)).toList := scanned_of_light row.length isWhole
  rw [isScanned, Nat.zero_add, Option.some.injEq] at isOne
  rw [isOne]

def Blank (row : Text) : Prop := row.all isSpace = true

theorem blank_iff : Blank row ↔ ∀ i, i < row.length → ¬Matters row i := by
  rw [Blank, all_eq_true]
  constructor
  · intro all i within matters
    rw [Matters, isBlank, getElem?_eq_getElem within, Option.any_some,
      all _ (getElem_mem within)] at matters
    cases matters
  · intro free c member
    obtain ⟨i, within, rfl⟩ := mem_iff_getElem.mp member
    have isThere := free i within
    rw [Matters, isBlank, getElem?_eq_getElem within, Option.any_some, Bool.not_eq_false] at isThere
    exact isThere

theorem Splits.eq_nil_iff {fragments : List Text} (splits : Splits row fragments) :
    fragments = [] ↔ Blank row := by
  obtain ⟨spans, rfl, covers, firm⟩ := splits
  rw [map_eq_nil_iff, blank_iff]
  constructor
  · intro isEmpty i within matters
    obtain ⟨span, member, -⟩ := covers.covered i (Nat.zero_le i) within matters
    rw [isEmpty] at member
    cases member
  · intro free
    refine eq_nil_iff_forall_not_mem.mpr fun span member => ?_
    have placed := covers.within span member
    exact free span.1 (Nat.lt_of_lt_of_le placed.2.1 placed.2.2) (firm span member).1

def headerRows (text : Text) : List Text :=
  if (text.splitOn '\n')[1]?.any isRule then (text.splitOn '\n').take 2
  else (text.splitOn '\n').take 1

def bodyRows (text : Text) : List Text := (text.splitOn '\n').drop (headerRows text).length

/-- What every part begins with. -/
def headerText (text : Text) : Text := joined (headerRows text) ++ ['\n']

def HasRoom (text : Text) (maxTokens : Nat) : Prop := units (headerText text) + 16 ≤ maxTokens * 4

theorem splitTable_of_room (isTable : 3 ≤ (text.splitOn '\n').length)
    (room : HasRoom text maxTokens) :
    splitTable text maxTokens = packUnits (bodyRows text) maxTokens (headerText text) := by
  simp only [splitTable]
  rw [if_neg (Nat.not_lt.mpr isTable)]
  exact if_neg (Nat.not_lt.mpr room)

theorem splitTable_of_no_room (isTable : 3 ≤ (text.splitOn '\n').length)
    (full : ¬HasRoom text maxTokens) :
    splitTable text maxTokens = hardSplit text maxTokens := by
  simp only [splitTable]
  rw [if_neg (Nat.not_lt.mpr isTable)]
  exact if_pos (Nat.lt_of_not_le full)

theorem filled_bodies (budget : Nat) (before : Text) (fragments : List Text) :
    ∀ (current : List Text) (weight : Nat), ∃ bodies : List (List Text),
      filled budget before current weight fragments =
          bodies.map (fun body => before ++ joined body) ∧
        bodies.flatten = current ++ fragments ∧ [] ∉ bodies := by
  induction fragments with
  | nil =>
    intro current weight
    rw [filled]
    split
    · next isEmpty => exact ⟨[], rfl, by rw [isEmpty]; rfl, not_mem_nil⟩
    · next isOpen =>
        refine ⟨[current], rfl, by simp, fun member => ?_⟩
        exact isOpen (mem_singleton.mp member).symm
  | cons fragment rest ih =>
    intro current weight
    rw [filled]
    generalize (units fragment + if current = [] then 0 else units ['\n']) = added
    split
    · next isFull =>
        obtain ⟨bodies, isFilled, inOrder, nonempty⟩ :=
          ih [fragment] (units before + units fragment)
        refine ⟨current :: bodies, by rw [isFilled]; rfl, by simp [inOrder], ?_⟩
        intro member
        rcases mem_cons.mp member with isCurrent | isLater
        · exact isFull.1 isCurrent.symm
        · exact nonempty isLater
    · obtain ⟨bodies, isFilled, inOrder, nonempty⟩ := ih (current ++ [fragment]) (weight + added)
      exact ⟨bodies, isFilled, by rw [inOrder, append_assoc]; rfl, nonempty⟩

structure Headed (available : Nat) (before : Text) (rows : List Text)
    (parts : List Text) (bodies : List (List Text)) : Prop where
  partsEq : parts = bodies.map fun body => before ++ joined body
  nonempty : [] ∉ bodies
  rowsKept : ∃ each, List.Forall₂ (KeepsRow available) rows each ∧ bodies.flatten = each.flatten

theorem packUnits_headed (room : units before + 16 ≤ maxTokens * 4) (rows : List Text) :
    ∃ parts bodies, packUnits rows maxTokens before = some parts ∧
      Headed ((maxTokens * 4 - units before) / 4) before rows parts bodies := by
  generalize isAvailable : (maxTokens * 4 - units before) / 4 = available
  have large : 4 ≤ available := by omega
  have each : ∀ row ∈ rows, hardSplit row available =
      some ((hardSplit row available).getD []) := by
    intro row _
    obtain ⟨fragments, isSplit, -⟩ := hardSplit_keeps large row
    rw [isSplit, Option.getD_some]
  have isSplit := mapM_some each
  obtain ⟨bodies, isFilled, inOrder, nonempty⟩ := filled_bodies (maxTokens * 4) before
    (rows.map fun row => (hardSplit row available).getD []).flatten [] (units before)
  refine ⟨_, bodies, by rw [packUnits, isAvailable, isSplit, Option.map_some], isFilled,
    nonempty, _, ?_, inOrder⟩
  refine List.forall₂_map_right_iff.mpr (List.forall₂_same.mpr fun row _ => ?_)
  obtain ⟨fragments, isRow, keeps⟩ := hardSplit_keeps large row
  rw [isRow, Option.getD_some]
  exact keeps

theorem Headed.eq_nil_iff {available : Nat} {rows parts : List Text}
    {bodies : List (List Text)} (headed : Headed available before rows parts bodies) :
    parts = [] ↔ ∀ row ∈ rows, Blank row := by
  obtain ⟨isParts, nonempty, each, keeps, inOrder⟩ := headed
  have isEmpty : parts = [] ↔ each.flatten = [] := by
    rw [isParts, map_eq_nil_iff, ← inOrder, flatten_eq_nil_iff]
    constructor
    · intro none_ body member
      rw [none_] at member
      cases member
    · intro all
      refine eq_nil_iff_forall_not_mem.mpr fun body member => ?_
      exact nonempty (all body member ▸ member)
  rw [isEmpty]
  clear isEmpty isParts nonempty inOrder
  induction keeps with
  | nil => simp
  | cons isRow _ ih =>
    rw [flatten_cons, append_eq_nil_iff, forall_mem_cons]
    exact and_congr isRow.splits.eq_nil_iff ih

theorem infix_joined {lines : List Text} {line : Text} (member : line ∈ lines) :
    line <:+: joined lines := by
  induction lines with
  | nil => cases member
  | cons first rest ih =>
    cases rest with
    | nil =>
      rw [mem_singleton.mp member]
      exact infix_rfl
    | cons next rest =>
      have isJoined : joined (first :: next :: rest) = first ++ '\n' :: joined (next :: rest) := rfl
      rw [isJoined]
      rcases mem_cons.mp member with rfl | isLater
      · exact (prefix_append _ _).isInfix
      · obtain ⟨start, stop, isInfix⟩ := ih isLater
        exact ⟨first ++ '\n' :: start, stop, by simp [← isInfix]⟩

/-- The parts of a table with all its rows: under the header where that leaves room, or cut
like any other text. -/
structure KeepsRows (text : Text) (maxTokens : Nat) (parts : List Text) : Prop where
  light : ∀ part ∈ parts, units part ≤ maxTokens * 4
  headed : HasRoom text maxTokens → ∃ bodies,
    Headed ((maxTokens * 4 - units (headerText text)) / 4) (headerText text) (bodyRows text)
      parts bodies
  header : HasRoom text maxTokens → ∀ row ∈ headerRows text, ¬Blank row →
    ∃ part ∈ parts, row <:+: part
  unheaded : ¬HasRoom text maxTokens → hardSplit text maxTokens = some parts ∧ Splits text parts

/-- The rows of a table are kept unless its header has room and nothing under it. -/
theorem split_table_keeps_rows_iff {maxTokens : Nat} (large : 4 ≤ maxTokens) (text : Text)
    (isTable : 3 ≤ (text.splitOn '\n').length) :
    (∃ parts, splitTable text maxTokens = some parts ∧ KeepsRows text maxTokens parts) ↔
      ¬HasRoom text maxTokens ∨ (∃ row ∈ bodyRows text, ¬Blank row) ∨
        ∀ row ∈ headerRows text, Blank row := by
  obtain ⟨parts, isSplit, light⟩ := splitTable_spec large text
  by_cases room : HasRoom text maxTokens
  · obtain ⟨others, bodies, isPacked, headed⟩ := packUnits_headed room (bodyRows text)
    have isSame : others = parts := by
      rw [← splitTable_of_room isTable room, isSplit] at isPacked
      exact (Option.some.inj isPacked).symm
    rw [isSame] at headed
    constructor
    · intro ⟨kept, isKept, keeps⟩
      rw [isSplit, Option.some.injEq] at isKept
      refine .inr (Classical.or_iff_not_imp_left.mpr fun blankBody row member => ?_)
      by_contra isThere
      obtain ⟨part, isPart, -⟩ := keeps.header room row member isThere
      have isEmpty : parts = [] := headed.eq_nil_iff.mpr fun other isOther => by
        by_contra notBlank
        exact blankBody ⟨other, isOther, notBlank⟩
      rw [← isKept, isEmpty] at isPart
      cases isPart
    · intro condition
      refine ⟨parts, isSplit, light, fun _ => ⟨bodies, headed⟩, ?_, fun full => absurd room full⟩
      intro _ row member isThere
      rcases condition with full | ⟨other, isOther, notBlank⟩ | blankHeader
      · exact absurd room full
      · cases isBodies : bodies with
        | nil =>
          have isEmpty : parts = [] := by rw [headed.partsEq, isBodies]; rfl
          exact absurd (headed.eq_nil_iff.mp isEmpty other isOther) notBlank
        | cons body rest =>
          refine ⟨headerText text ++ joined body, by rw [headed.partsEq, isBodies]; simp, ?_⟩
          refine (infix_joined member).trans ?_
          rw [headerText, append_assoc]
          exact (prefix_append _ _).isInfix
      · exact absurd (blankHeader row member) isThere
  · refine ⟨fun _ => .inl room, fun _ => ?_⟩
    obtain ⟨fragments, isHard, keeps⟩ := hardSplit_keeps large text
    have isSame : fragments = parts := by
      rw [← splitTable_of_no_room isTable room, isSplit] at isHard
      exact (Option.some.inj isHard).symm
    rw [isSame] at isHard keeps
    exact ⟨parts, isSplit, light, fun has => absurd has room, fun has => absurd has room,
      fun _ => ⟨isHard, keeps.splits⟩⟩

/-- Two rows under a header, of which one is cut. -/
def branches : Text := "City|Staff\n--|--\nOslo|12\nReykjavik old town|7".toList

theorem split_table_keeps_rows_of_branches :
    4 ≤ 11 ∧ 3 ≤ (branches.splitOn '\n').length ∧
      ∃ parts, splitTable branches 11 = some parts ∧ KeepsRows branches 11 parts := by
  have isTable : 3 ≤ (branches.splitOn '\n').length := by decide +kernel
  have isThere : ∃ row ∈ bodyRows branches, ¬Blank row := by
    refine ⟨"Oslo|12".toList, by decide +kernel, ?_⟩
    rw [Blank]
    decide +kernel
  exact ⟨by decide, isTable,
    (split_table_keeps_rows_iff (by decide) branches isTable).mpr (.inr (.inl isThere))⟩

/-- A table with a header, and so many spaces under it that it is cut. -/
def staff : Text := "City|Staff\n--|--\n".toList ++ List.replicate 40 ' '

/-- There is no part of it, so the header is in none. -/
theorem header_of_staff_is_lost :
    4 ≤ 11 ∧ 3 ≤ (staff.splitOn '\n').length ∧ 11 < estimateTokens staff ∧
      splitTable staff 11 = some [] ∧
      ¬∃ parts, splitTable staff 11 = some parts ∧ KeepsRows staff 11 parts := by
  have isNone : splitTable staff 11 = some [] := by decide +kernel
  have room : HasRoom staff 11 := by
    rw [HasRoom]
    decide +kernel
  have isThere : ¬Blank "City|Staff".toList := by
    rw [Blank]
    decide +kernel
  refine ⟨by decide, by decide +kernel, by decide +kernel, isNone, ?_⟩
  intro ⟨parts, isSplit, keeps⟩
  obtain ⟨part, isPart, -⟩ := keeps.header room "City|Staff".toList (by decide +kernel) isThere
  rw [isNone, Option.some.injEq] at isSplit
  rw [← isSplit] at isPart
  cases isPart

end MemoryService.Ingestion
