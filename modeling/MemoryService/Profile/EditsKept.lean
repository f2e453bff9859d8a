import MemoryService.Foundation.Table
import MemoryService.Profile.Blocks

/-!
# Edits of the profile

The lines of an edited block are put together again with the new ones below, up to the first that
does not fit.
-/

namespace MemoryService.Profile

open Domain Foundation List

variable {casefold : List Char → List Char} {template : List ProfileMemory → List Char}
  {text : List Char} {memories : List ProfileMemory} {since : Instant}
  {lines first : List (List Char)} {edit : Edit} {state next : State} {found : List ProfileMemory}
  {latest : Option ProfileBlock} {refresh : Refresh} {written : List Char} {now : Instant}

theorem total_lineCost (isLine : lines ≠ []) :
    Spending.total lineCost lines = (joined lines).length + 1 := by
  induction lines with
  | nil => exact absurd rfl isLine
  | cons line rest ih =>
    rw [Spending.total_cons, lineCost]
    by_cases isRest : rest = []
    · subst isRest
      rw [Spending.total_nil, joined, intercalate_singleton, Int.add_zero]
    · rw [ih isRest, joined, joined, intercalate_cons_of_ne_nil isRest]
      simp only [length_append, length_singleton]
      omega

theorem lineCost_nonneg (line : List Char) : 0 ≤ lineCost line := by
  rw [lineCost]
  omega

theorem affordable_of_fits (new : List (List Char)) (isFirst : first ≠ [])
    (fits : Spending.total lineCost first ≤ profileBlockMaxChars) :
    ∃ taken, taken <+: new ∧
      Spending.affordable lineCost profileBlockMaxChars (first ++ new) = first ++ taken := by
  obtain ⟨taken, isTaken⟩ := (Spending.prefix_affordable_iff lineCost_nonneg
    (prefix_append first new) isFirst).mpr fits
  refine ⟨taken, ?_, isTaken.symm⟩
  have isPrefix : first ++ taken <+: first ++ new := isTaken ▸ Spending.affordable_isPrefix
  exact (prefix_append_right_inj first).mp isPrefix

theorem joined_append {taken : List (List Char)} (isFirst : first ≠ []) (isTaken : taken ≠ []) :
    joined (first ++ taken) = joined first ++ '\n' :: joined taken := by
  rw [joined, intercalate_append isFirst isTaken, append_assoc]
  rfl

theorem below_of_ne_nil (isLine : lines ≠ []) : below text lines = glue text ++ joined lines := by
  cases lines with
  | nil => exact absurd rfl isLine
  | cons line rest => rfl

theorem bounded_of_roomy {new : List (List Char)} (roomy : Roomy text new) (isNew : new ≠ []) :
    ∃ taken, taken <+: new ∧ bounded (splitlines text ++ new) = text ++ below text taken := by
  obtain ⟨feeds, room⟩ := roomy
  by_cases isText : text = []
  · subst isText
    refine ⟨Spending.affordable lineCost profileBlockMaxChars new, Spending.affordable_isPrefix, ?_⟩
    rw [bounded, splitlines, nil_append, nil_append]
    by_cases isTaken : Spending.affordable lineCost profileBlockMaxChars new = []
    · rw [isTaken]
      rfl
    · rw [below_of_ne_nil isTaken]
      rfl
  · have isLines := splitlines_ne_nil isText
    have whole := joined_splitlines feeds
    have cost := total_lineCost isLines
    have fits := room.resolve_left isText
    by_cases isEnded : text.getLast? = some '\n'
    · rw [if_pos isEnded] at fits
      rw [ended, if_pos isEnded] at whole
      obtain ⟨line, rest, rfl⟩ := exists_cons_of_ne_nil isNew
      have size := congrArg List.length whole
      rw [length_append, length_singleton] at size
      have fitsLine := fits line rfl
      have isRoom : Spending.total lineCost (splitlines text ++ [line]) ≤
          profileBlockMaxChars := by
        rw [Spending.total_append, cost, Spending.total_cons, Spending.total_nil, lineCost, joined]
        omega
      obtain ⟨taken, isPrefix, isTaken⟩ := affordable_of_fits rest (by simp) isRoom
      refine ⟨line :: taken, (prefix_cons_inj line).mpr isPrefix, ?_⟩
      rw [bounded, append_cons, isTaken, ← append_cons,
        joined_append isLines (cons_ne_nil _ _), below_of_ne_nil (cons_ne_nil _ _), glue,
        if_pos (.inr isEnded), nil_append]
      conv_rhs => rw [← whole]
      rw [append_assoc]
      rfl
    · rw [if_neg isEnded] at fits
      rw [ended, if_neg isEnded, append_nil] at whole
      have isRoom : Spending.total lineCost (splitlines text) ≤ profileBlockMaxChars := by
        rw [cost, joined, whole]
        omega
      obtain ⟨taken, isPrefix, isTaken⟩ := affordable_of_fits new isLines isRoom
      refine ⟨taken, isPrefix, ?_⟩
      rw [bounded, isTaken]
      by_cases none_ : taken = []
      · rw [none_, append_nil, joined, whole]
        exact (append_nil text).symm
      · rw [joined_append isLines none_, joined, whole, below_of_ne_nil none_, glue,
          if_neg (not_or.mpr ⟨isText, isEnded⟩)]
        rfl

theorem not_feed_of_mem_squeezed {content : List Char} {c : Char} (member : c ∈ squeezed content) :
    c ≠ '\n' := by
  rcases mem_intercalate member with isSpace | ⟨run, isRun, inRun⟩
  · rw [mem_singleton.mp isSpace]
    decide
  · rintro rfl
    have notSpace := (mem_filter.mp isRun).2
    rw [Bool.not_eq_true', any_eq_false] at notSpace
    exact notSpace '\n' inRun (by decide)

theorem getLast?_factLine (m : ProfileMemory) : (factLine m).getLast? ≠ some '\n' := by
  intro isLast
  rcases mem_cons.mp (mem_of_getLast? isLast) with isDash | isLater
  · exact absurd isDash (by decide)
  · rcases mem_cons.mp isLater with isSpace | isContent
    · exact absurd isSpace (by decide)
    · exact not_feed_of_mem_squeezed isContent rfl

theorem below_below (facts : List ProfileMemory) (lines : List (List Char)) :
    (text ++ below text (facts.map factLine)) ++
        below (text ++ below text (facts.map factLine)) lines =
      text ++ below text (facts.map factLine ++ lines) := by
  by_cases isLine : lines = []
  · rw [isLine, append_nil]
    exact append_nil _
  · rcases eq_nil_or_concat facts with rfl | ⟨others, last, rfl⟩
    · rw [map_nil, nil_append]
      change text ++ [] ++ below (text ++ []) lines = _
      rw [append_nil]
    · have isFact : (others.concat last).map factLine ≠ [] := by simp
      have isSome : (factLine last).getLast?.isSome = true := getLast?_isSome.mpr (cons_ne_nil _ _)
      have isLast : (joined ((others.concat last).map factLine)).getLast? =
          (factLine last).getLast? := by
        rw [concat_eq_append, map_append, joined]
        exact getLast?_intercalate (cons_ne_nil _ _)
      have notEnded : (text ++ below text ((others.concat last).map factLine)).getLast? ≠
          some '\n' := by
        rw [below_of_ne_nil isFact, getLast?_append, getLast?_append, isLast,
          Option.or_of_isSome isSome, Option.or_of_isSome isSome]
        exact getLast?_factLine last
      have isText : text ++ below text ((others.concat last).map factLine) ≠ [] := by
        intro none_
        rw [below_of_ne_nil isFact, append_eq_nil_iff, append_eq_nil_iff] at none_
        rw [← isLast, none_.2.2] at isSome
        cases isSome
      rw [below_of_ne_nil isLine, glue, if_neg (not_or.mpr ⟨isText, notEnded⟩),
        below_of_ne_nil isFact, below_of_ne_nil (by simp), joined_append isFact isLine]
      simp only [append_assoc, cons_append, nil_append]

theorem follows_appended (isFound : memories ⊆ found) (follows : Follows found edit text)
    (room : newLines casefold text memories edit.editedAt = [] ∨
      Roomy text (newLines casefold text memories edit.editedAt)) :
    Follows found edit (appended casefold text memories edit.editedAt) := by
  by_cases isNew : newLines casefold text memories edit.editedAt = []
  · rw [appended, isNew]
    exact follows
  have roomy := room.resolve_left isNew
  obtain ⟨facts, areFound, since, rfl⟩ := follows
  obtain ⟨taken, isPrefix, isBounded⟩ := bounded_of_roomy roomy isNew
  have learned : ∀ line ∈ taken,
      ∃ m, (m ∈ found ∧ edit.editedAt < m.createdAt) ∧ factLine m = line := by
    intro line isLine
    have inNew := mem_eraseDups.mp (isPrefix.subset isLine)
    obtain ⟨m, isMemory, rfl⟩ := mem_map.mp inNew
    obtain ⟨isRead, isLater⟩ := mem_filter.mp isMemory
    exact ⟨m, ⟨isFound isRead, (of_decide_eq_true isLater).1⟩, rfl⟩
  obtain ⟨others, otherFacts, isTaken⟩ := exists_map_eq factLine learned
  refine ⟨facts ++ others, append_subset.mpr ⟨areFound, fun m member => (otherFacts m member).1⟩,
    ?_, ?_⟩
  · intro m member
    exact (mem_append.mp member).elim (since m) fun isOther => (otherFacts m isOther).2
  · rw [map_append, isTaken, ← below_below, ← isBounded, appended]
    split
    case h_1 none_ => exact absurd none_ isNew
    case h_2 => rfl

/-- A refresh has read the stored block or an earlier one. -/
def ReadBefore (latest : Option ProfileBlock) (refresh : Refresh) : Prop :=
  ∀ block ∈ refresh.current, ∃ stored ∈ latest,
    block.version ≤ stored.version ∧ (block.version = stored.version → block = stored)

/-- What every step keeps: the last edit stands in the block, which is dated by it. -/
structure Sound (state : State) : Prop where
  reads : ∀ refresh ∈ state.refreshes, ReadBefore state.block refresh
  found : ∀ refresh ∈ state.refreshes, refresh.memories ⊆ state.found
  edited : ∀ edit ∈ state.edit, ∃ block ∈ state.block, block.source = .edited ∧
    block.updatedAt = edit.editedAt ∧ Follows state.found edit block.text

theorem Sound.editKept (sound : Sound state) : state.EditKept := by
  intro edit isEdit
  obtain ⟨block, isBlock, -, -, follows⟩ := sound.edited edit isEdit
  exact ⟨block, isBlock, follows⟩

theorem ReadBefore.put (before : ReadBefore latest refresh) (block : ProfileBlock) :
    ReadBefore (some (put latest block)) refresh := by
  intro current isCurrent
  obtain ⟨stored, rfl, isEarlier, -⟩ := before current isCurrent
  have later : current.version < (Profile.put (some stored) block).version :=
    Nat.lt_succ_of_le isEarlier
  exact ⟨_, rfl, later.le, fun same => absurd same later.ne⟩

theorem follows_edit (text : List Char) (now : Instant) : Follows found ⟨text, now⟩ text :=
  ⟨[], nil_subset _, by simp, (append_nil text).symm⟩

theorem Follows.mono {more : List ProfileMemory} (isPart : found ⊆ more)
    (follows : Follows found edit text) : Follows more edit text := by
  obtain ⟨facts, areFound, since, isText⟩ := follows
  exact ⟨facts, Subset.trans areFound isPart, since, isText⟩

theorem written_cases {current after : Option ProfileBlock}
    (isAfter : writtenBlock latest current written now = after) :
    after = latest ∨
      (∃ block ∈ current, (∀ stored ∈ latest, stored.version = block.version) ∧
        after = some (put latest { block with text := written })) ∨
      (current = none ∧ after = some (put latest
        { text := written, version := 0, source := .learned, updatedAt := now })) := by
  rw [writtenBlock.eq_def] at isAfter
  split at isAfter
  case h_1 stored block =>
    split at isAfter
    case isTrue => exact .inl isAfter.symm
    case isFalse same =>
      refine .inr (.inl ⟨block, rfl, fun other isOther => ?_, isAfter.symm⟩)
      rw [← Option.some_inj.mp isOther]
      exact not_not.mp same
  case h_2 block =>
    exact .inr (.inl ⟨block, rfl, fun other isOther => (by cases isOther), isAfter.symm⟩)
  case h_3 => exact .inr (.inr ⟨rfl, isAfter.symm⟩)

theorem compose_edited {block : ProfileBlock}
    (isBlock : refresh.current = some block) (isEdited : block.source = .edited)
    (written : List Char) :
    compose casefold template refresh.memories refresh.current written =
      appended casefold block.text refresh.memories block.updatedAt := by
  have kept : refresh.current.filter (·.source = .edited) = some block := by
    rw [isBlock]
    exact Option.filter_some_pos (by simpa using isEdited)
  rw [compose, kept]

section

variable (sound : Sound state)
include sound

theorem sound_edit {old : List Char} {new : Option (List Char)}
    (stepped : step casefold template state (.edit old new now) = some next) : Sound next := by
  obtain ⟨text, -, rfl⟩ := Option.map_eq_some_iff.mp stepped
  refine ⟨fun refresh isRefresh => (sound.reads refresh isRefresh).put _, sound.found, ?_⟩
  intro edit isEdit
  obtain rfl : _ = edit := Option.some_inj.mp isEdit
  exact ⟨_, rfl, rfl, rfl, follows_edit text now⟩

theorem sound_read
    (stepped : step casefold template state (.read memories) = some next) : Sound next := by
  rw [step] at stepped
  split at stepped
  case isTrue =>
    cases stepped
    exact sound
  case isFalse =>
    cases stepped
    refine ⟨fun refresh isRefresh => ?_, fun refresh isRefresh => ?_, fun edit isEdit => ?_⟩
    · rcases mem_concat.mp isRefresh with isOld | rfl
      · exact sound.reads refresh isOld
      · exact fun block isBlock => ⟨block, isBlock, le_rfl, fun _ => rfl⟩
    · rcases mem_concat.mp isRefresh with isOld | rfl
      · exact Subset.trans (sound.found refresh isOld) (subset_append_left _ _)
      · exact subset_append_right _ _
    · obtain ⟨block, isBlock, isEdited, since, follows⟩ := sound.edited edit isEdit
      exact ⟨block, isBlock, isEdited, since, follows.mono (subset_append_left _ _)⟩

theorem sound_write {place : Nat} (harmless : Harmless casefold state (.write place written now))
    (stepped : step casefold template state (.write place written now) = some next) :
    Sound next := by
  obtain ⟨refresh, isRefresh, rfl⟩ := Option.map_eq_some_iff.mp stepped
  obtain ⟨blind, sighted⟩ := harmless refresh isRefresh
  have others (other : Refresh) (isOther : other ∈ state.refreshes.eraseIdx place) :
      ReadBefore state.block other :=
    sound.reads other (mem_of_mem_eraseIdx isOther)
  have found : ∀ other ∈ state.refreshes.eraseIdx place, other.memories ⊆ state.found :=
    fun other isOther => sound.found other (mem_of_mem_eraseIdx isOther)
  dsimp only
  split
  case isTrue => exact ⟨others, found, sound.edited⟩
  case isFalse changed =>
    rcases written_cases rfl with same | ⟨block, isBlock, sameVersion, isAfter⟩ | ⟨none_, isAfter⟩
    · rw [same]
      exact ⟨others, found, sound.edited⟩
    · rw [isAfter]
      refine ⟨fun other isOther => (others other isOther).put _, found, fun edit isEdit => ?_⟩
      obtain ⟨stored, isStored, isEdited, since, follows⟩ := sound.edited edit isEdit
      obtain ⟨latest, isLatest, -, isSame⟩ :=
        sound.reads refresh (mem_of_getElem? isRefresh) block isBlock
      obtain rfl : latest = stored := Option.some_inj.mp (isLatest.symm.trans isStored)
      obtain rfl : block = latest := isSame (sameVersion latest isLatest).symm
      refine ⟨_, rfl, isEdited, since, ?_⟩
      change Follows state.found edit
        (compose casefold template refresh.memories refresh.current written)
      rw [compose_edited isBlock isEdited written, since]
      exact follows_appended (sound.found refresh (mem_of_getElem? isRefresh)) follows
        (since ▸ sighted block isBlock isEdited isStored)
    · rw [isAfter]
      refine ⟨fun other isOther => (others other isOther).put _, found, fun edit isEdit => ?_⟩
      obtain ⟨stored, isStored, isEdited, -⟩ := sound.edited edit isEdit
      have isLearned := blind none_ stored isStored
      rw [isEdited] at isLearned
      cases isLearned

theorem sound_step {action : Action} (harmless : Harmless casefold state action)
    (stepped : step casefold template state action = some next) : Sound next := by
  cases action with
  | edit old new now => exact sound_edit sound stepped
  | read memories => exact sound_read sound stepped
  | write place written now => exact sound_write sound harmless stepped

end

/-- In every run whose refreshes are harmless, from a block nobody has edited and no refresh, the
text of the last edit is in the block, and only facts that were found and learned after it
follow. -/
theorem edits_are_kept (casefold : List Char → List Char)
    (template : List ProfileMemory → List Char) (block : Option ProfileBlock)
    (actions : List Action) (last : State)
    (reached : run (step casefold template) { block } actions = some last)
    (meets : Meets (step casefold template) (Harmless casefold) { block } actions) :
    last.EditKept := by
  have sound : Sound { block } := ⟨by simp, by simp, by simp⟩
  have soundLast : Sound last := run_invariant_of_meets
    (fun stepped harmless sound => sound_step sound harmless stepped) reached meets sound
  exact soundLast.editKept

theorem Follows.isPrefix (follows : Follows found edit text) : edit.text <+: text := by
  obtain ⟨facts, -, -, rfl⟩ := follows
  exact prefix_append _ _

section Closed

private def name : List Char := "Ada".toList

/-- Learned after the edit. -/
private def tea : ProfileMemory where
  content := "tea".toList
  createdAt := ⟨2⟩

/-- Learned before it. -/
private def coffee : ProfileMemory where
  content := "coffee".toList
  createdAt := ⟨0⟩

private def noTemplate (_ : List ProfileMemory) : List Char := []

private def appendedTo : State where
  block := some
    { text := "Ada\n- tea".toList
      version := 2
      source := .edited
      updatedAt := ⟨1⟩ }
  edit := some ⟨name, ⟨1⟩⟩
  found := [coffee, tea]

/-- A refresh that reads the block after the edit. -/
theorem edits_are_kept_inTurn : appendedTo.EditKept :=
  edits_are_kept id noTemplate none [.edit [] (some name) ⟨1⟩, .read [coffee, tea], .write 0 [] ⟨3⟩]
    appendedTo (by decide +kernel) (by decide +kernel)

private def writtenOver : State where
  block := some
    { text := "tea".toList, version := 2, source := .learned, updatedAt := ⟨3⟩ }
  edit := some ⟨name, ⟨1⟩⟩
  found := [tea]

/-- A refresh reads no block, the user writes one, and the refresh writes over it. -/
theorem blind_refresh_undoes_edit :
    ¬ ∀ (casefold : List Char → List Char) (template : List ProfileMemory → List Char)
      (block : Option ProfileBlock) (actions : List Action) (last : State),
      run (step casefold template) { block } actions = some last → last.EditKept := by
  intro kept
  obtain ⟨block, isBlock, follows⟩ := kept id noTemplate none
    [.read [tea], .edit [] (some name) ⟨1⟩, .write 0 "tea".toList ⟨3⟩] writtenOver
    (by decide +kernel) ⟨name, ⟨1⟩⟩ rfl
  obtain rfl : _ = block := Option.some_inj.mp isBlock
  exact absurd follows.isPrefix (by decide)

end Closed

end MemoryService.Profile
