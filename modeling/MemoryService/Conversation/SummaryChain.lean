import MemoryService.Conversation.AppendsKept
import MemoryService.Conversation.Recall
import MemoryService.Profile.Blocks
import Mathlib.Data.List.MinMax
import Mathlib.Data.List.SplitBy

/-!
# What a thread's summary was made from

A refresh reads the latest summary, then the messages after it, and folds them into a new one
without a lock: with a model, which is given the end of the messages' text, or as a digest.
-/

namespace MemoryService.Conversation.Summaries

open Domain Foundation List
open Profile (squeezed joined)
open Rag (isSpace strip)

def lineChars : Nat := 160

/-- The model's text may be half as long again as a summary. -/
def writtenMaxChars : Nat := Recall.summaryMaxChars * 3 / 2

def givenChars : Nat := 8000

def extractiveModel : String := "extractive"

structure Message where
  sequence : Nat
  role : MessageRole
  kind : MessageKind
  content : List Char
  deriving DecidableEq

variable (m : Message)

def Message.shown : Bool := m.kind = .visible ∧ strip m.content ≠ []

def Message.label : List Char := m.role.value.toList.map Char.toLower ++ [':', ' ']

/-- `re.split(r"(?<=[.!?])\s+", text)`. -/
def sentences (mark between : Bool) : List Char → List (List Char)
  | [] => [[]]
  | c :: rest =>
    if isSpace c ∧ between then sentences false true rest
    else if isSpace c ∧ mark then [] :: sentences false true rest
    else
      match sentences (c = '.' ∨ c = '!' ∨ c = '?') false rest with
      | [] => [[c]]
      | sentence :: later => (c :: sentence) :: later

def lengthened (line : List Char) : List (List Char) → List Char
  | [] => line
  | sentence :: rest =>
    if lineChars < line.length + 1 + sentence.length then line
    else lengthened (line ++ ' ' :: sentence) rest

/-- `_line`. -/
def line (content : List Char) : List Char :=
  match sentences false false (strip content) with
  | [] => []
  | first :: rest => lengthened (first.take lineChars) rest

def Message.digestLine : List Char := m.label ++ line m.content

def Message.givenLine : List Char := m.label ++ squeezed m.content

def digest (messages : List Message) : List (List Char) :=
  (messages.filter Message.shown).map Message.digestLine

/-- The oldest lines are dropped until the rest fits. -/
def fitted : List (List Char) → List (List Char)
  | [] => []
  | line :: lines =>
    if Recall.summaryMaxChars < ((line :: lines).map fun l => l.length + 1).sum then
      fitted lines
    else line :: lines

def rolled (previous : List Char) (messages : List Message) : List Char :=
  joined (fitted (splitlines previous ++ digest messages))

def givenLines (messages : List Message) : List Char :=
  joined ((messages.filter Message.shown).map Message.givenLine)

/-- The end of a text: `text[-8000:]`. -/
def given (text : List Char) : List Char := text.drop (text.length - givenChars)

/-- What the model is asked. -/
def prompt (previous : List Char) (messages : List Message) : List Char :=
  "Previous summary:\n".toList ++ (if previous = [] then "(none)".toList else previous) ++
    "\n\nNew messages:\n".toList ++ given (givenLines messages)

/-- `_abstractive`, with what the model answered. -/
def abstractive (answer : Option (List Char)) : Option (List Char) :=
  let text := strip (answer.getD [])
  if text ≠ [] ∧ text.length ≤ writtenMaxChars then some text else none

structure Fold where
  previous : List Char
  messages : List Message
  /-- none without a model too -/
  answer : Option (List Char)
  deriving DecidableEq

variable (fold : Fold)

/-- `_fold`: the summary and who made it. -/
def Fold.result (model : String) : List Char × String :=
  match abstractive fold.answer with
  | some written => (written, model)
  | none => (rolled fold.previous fold.messages, extractiveModel)

def whole : List Message → List Message
  | [] => []
  | m :: later =>
    if (joined ((m :: later).map Message.givenLine)).length ≤ givenChars then m :: later
    else whole later

def Fold.text : List Char :=
  if (abstractive fold.answer).isSome then prompt fold.previous fold.messages
  else joined (splitlines fold.previous ++ digest fold.messages)

def Fold.lineOf (m : Message) : List Char :=
  if (abstractive fold.answer).isSome then m.givenLine else m.digestLine

def Fold.handed : List Message :=
  if (abstractive fold.answer).isSome then whole (fold.messages.filter Message.shown)
  else fold.messages.filter Message.shown

/-! ## A thread -/

structure Row where
  sequence : Nat
  role : MessageRole
  kind : MessageKind
  /-- none once it is purged -/
  content : Option (List Char)
  appended : List Char

def Row.message (row : Row) : Message where
  sequence := row.sequence
  role := row.role
  kind := row.kind
  content := row.content.getD []

structure ThreadSummary where
  version : Nat
  text : List Char
  coversToSequence : Nat
  model : String
  /-- what it was made from, which no step reads -/
  fold : Fold
  deriving DecidableEq

inductive Refresh where
  | reading (previous : Option ThreadSummary)
  | folding (previous : Option ThreadSummary) (new : List Message) (last : Message)

structure State where
  deleted : Bool := false
  /-- in the order of their sequences -/
  rows : List Row := []
  summaries : List ThreadSummary := []
  refreshes : List Refresh := []

def latest (summaries : List ThreadSummary) : Option ThreadSummary :=
  summaries.argmax ThreadSummary.version

variable (previous : Option ThreadSummary)

def covered : Nat := previous.elim 0 (·.coversToSequence)

def nextVersion : Nat := previous.elim 0 (·.version) + 1

def listAfter (afterSequence : Nat) (rows : List Row) : List Message :=
  ((rows.filter fun row => row.kind = .visible ∧ afterSequence < row.sequence).take
    Recall.summarySourceMessages).map Row.message

variable (new : List Message)

def refreshOf : Option Refresh := new.getLast?.map (Refresh.folding previous new)

/-- `add`: nothing where the version is taken. -/
def add (summary : ThreadSummary) (summaries : List ThreadSummary) : List ThreadSummary :=
  if ∃ other ∈ summaries, other.version = summary.version then summaries
  else summaries ++ [summary]

def foldOf (answer : Option (List Char)) : Fold where
  previous := previous.elim [] (·.text)
  messages := new
  answer

def summaryOf (last : Message)
    (answer : Option (List Char)) (model : String) : ThreadSummary :=
  let fold := foldOf previous new answer
  { version := nextVersion previous
    text := (fold.result model).1
    coversToSequence := last.sequence
    model := (fold.result model).2
    fold }

inductive Action where
  | append (role : MessageRole) (kind : MessageKind) (content : List Char)
  | purge (sequence : Nat)
  | delete
  /-- a refresh finds the thread and reads its latest summary -/
  | start
  | read (place : Nat)
  /-- the refresh at a place has folded them and stores the summary -/
  | write (place : Nat) (answer : Option (List Char)) (model : String)
  | fail (place : Nat)

def Row.purged (row : Row) (sequence : Nat) : Row :=
  if row.sequence = sequence then { row with content := none } else row

variable (state : State)

def step : Action → Option State
  | .append role kind content =>
    let sequence := Threads.nextSequence (state.rows.map Row.sequence)
    some
      { state with
        rows := state.rows ++ [⟨sequence, role, kind, some content, content⟩] }
  | .purge sequence => some { state with rows := state.rows.map (·.purged sequence) }
  | .delete => some { state with deleted := true }
  | .start =>
    if state.deleted then none
    else some { state with refreshes := state.refreshes ++ [.reading (latest state.summaries)] }
  | .read place =>
    match state.refreshes[place]? with
    | some (.reading previous) =>
      let new := listAfter (covered previous) state.rows
      some
        { state with
          refreshes := state.refreshes.eraseIdx place ++ (refreshOf previous new).toList }
    | _ => none
  | .write place answer model =>
    match state.refreshes[place]? with
    | some (.folding previous new last) =>
      some
        { state with
          summaries := add (summaryOf previous new last answer model) state.summaries
          refreshes := state.refreshes.eraseIdx place }
    | _ => none
  | .fail place =>
    if place < state.refreshes.length then
      some { state with refreshes := state.refreshes.eraseIdx place }
    else none

def Row.owed (row : Row) : Bool := row.kind = .visible ∧ strip row.appended ≠ []

def State.handed : List Nat :=
  state.summaries.flatMap fun summary => summary.fold.handed.map Message.sequence

/-- Every message up to where the latest summary covers was handed to one fold of the chain,
and once. -/
def State.Covered : Prop :=
  ∀ row ∈ state.rows, row.owed → row.sequence ≤ covered (latest state.summaries) →
    state.handed.count row.sequence = 1

def Complete : Action → Prop
  | .write place answer _ =>
    match state.refreshes[place]? with
    | some (.folding previous new _) =>
      (∀ other ∈ state.summaries, other.version ≠ nextVersion previous) →
        (∀ m ∈ new, ∀ row ∈ state.rows, row.sequence = m.sequence → row.owed → m.shown) ∧
          ((abstractive answer).isSome → (givenLines new).length ≤ givenChars)
    | _ => True
  | _ => True

instance (state : State) (action : Action) : Decidable (Complete state action) := by
  unfold Complete
  split
  · split
    · infer_instance
    · infer_instance
  · infer_instance

/-! ## The texts of a fold -/

theorem length_given (text : List Char) : (given text).length = min text.length givenChars := by
  rw [given, length_drop]
  omega

variable {text : List Char} {m last : Message} {row : Row} {new : List Message} {rows : List Row}
  {previous : Option ThreadSummary} {summaries : List ThreadSummary} {summary : ThreadSummary}
  {place : Nat} {answer : Option (List Char)} {model : String}

theorem given_suffix {part : List Char} (isPart : part <:+ text) : given part <:+ given text := by
  have within : given part <:+ text := (drop_suffix _ _).trans isPart
  have isEnd : given text <:+ text := drop_suffix _ _
  apply suffix_of_suffix_length_le within isEnd
  have shorter := isPart.length_le
  rw [length_given, length_given]
  omega

variable (messages : List Message)

theorem whole_suffix : whole messages <:+ messages := by
  induction messages with
  | nil => exact suffix_rfl
  | cons m later ih =>
    rw [whole]
    split
    case isTrue => exact suffix_rfl
    case isFalse => exact ih.trans (suffix_cons m later)

theorem joined_whole :
    joined ((whole messages).map Message.givenLine) <:+
      given (joined (messages.map Message.givenLine)) := by
  induction messages with
  | nil => simp [whole, joined]
  | cons m later ih =>
    rw [whole]
    split
    case isTrue fits => rw [given, Nat.sub_eq_zero_of_le fits, drop_zero]
    case isFalse => exact ih.trans (given_suffix (intercalate_suffix _ _))

theorem whole_eq_self_iff :
    whole messages = messages ↔ (joined (messages.map Message.givenLine)).length ≤ givenChars := by
  cases messages with
  | nil => simp [whole, joined]
  | cons m later =>
    rw [whole]
    split
    case isTrue fits => exact iff_of_true rfl fits
    case isFalse tooLong =>
      refine iff_of_false (fun same => ?_) tooLong
      have shorter := (whole_suffix later).length_le
      rw [same] at shorter
      exact Nat.not_succ_le_self _ shorter

namespace Fold

variable (fold : Fold)

theorem handed_sublist : fold.handed.Sublist (fold.messages.filter Message.shown) := by
  rw [handed]
  split
  case isTrue => exact (whole_suffix _).sublist
  case isFalse => exact List.Sublist.refl _

theorem handed_eq_iff :
    fold.handed = fold.messages.filter Message.shown ↔
      ((abstractive fold.answer).isSome → (givenLines fold.messages).length ≤ givenChars) := by
  rw [handed]
  split
  case isTrue isWritten => simp [isWritten, whole_eq_self_iff, givenLines]
  case isFalse notWritten => simp [notWritten]

theorem line_in_text (member : m ∈ fold.handed) : fold.lineOf m <:+: fold.text := by
  rw [handed] at member
  rw [lineOf, text]
  split
  case isTrue isWritten =>
    rw [if_pos isWritten] at member
    have isLine : m.givenLine <:+:
        joined ((whole (fold.messages.filter Message.shown)).map Message.givenLine) :=
      infix_intercalate (mem_map_of_mem member)
    have isGiven := isLine.trans (joined_whole _).isInfix
    exact isGiven.trans (suffix_append _ _).isInfix
  case isFalse notWritten =>
    rw [if_neg notWritten] at member
    exact infix_intercalate (mem_append_right _ (mem_map_of_mem member))

end Fold

/-! ## What a refresh has read -/

structure Listed (rows : List Row) (afterSequence : Nat) (new : List Message)
    (last : Message) : Prop where
  ordered : (new.map Message.sequence).Pairwise (· < ·)
  after : ∀ m ∈ new, afterSequence < m.sequence
  stored : ∀ m ∈ new, ∃ row ∈ rows,
    row.sequence = m.sequence ∧ row.kind = .visible ∧ (m.content = row.appended ∨ m.content = [])
  isLast : last ∈ new
  before : ∀ m ∈ new, m.sequence ≤ last.sequence
  all : ∀ row ∈ rows, row.kind = .visible → afterSequence < row.sequence →
    row.sequence ≤ last.sequence → ∃ m ∈ new, m.sequence = row.sequence

def Row.Intact (row : Row) : Prop := ∀ content ∈ row.content, content = row.appended

theorem Row.Intact.content_message (intact : row.Intact) :
    row.message.content = row.appended ∨ row.message.content = [] := by
  cases isContent : row.content with
  | none => simp [message, isContent]
  | some content => simp [message, isContent, intact content isContent]

theorem sequence_le_last
    (ordered : (new.map Message.sequence).Pairwise (· < ·)) (isLast : new.getLast? = some last) :
    last ∈ new ∧ ∀ m ∈ new, m.sequence ≤ last.sequence := by
  obtain ⟨before, rfl⟩ := getLast?_eq_some_iff.mp isLast
  simp only [map_append, pairwise_append, mem_map] at ordered
  refine ⟨by simp, fun m member => ?_⟩
  rcases mem_append.mp member with isBefore | isLast
  · exact (ordered.2.2 _ ⟨m, isBefore, rfl⟩ _ ⟨last, by simp, rfl⟩).le
  · rw [mem_singleton.mp isLast]

theorem listed_listAfter {afterSequence : Nat}
    (ordered : (rows.map Row.sequence).Pairwise (· < ·)) (intact : ∀ row ∈ rows, row.Intact)
    (isLast : (listAfter afterSequence rows).getLast? = some last) :
    Listed rows afterSequence (listAfter afterSequence rows) last := by
  let isAfter : Row → Bool := fun row => row.kind = .visible ∧ afterSequence < row.sequence
  let listed := rows.filter isAfter
  have isNew : listAfter afterSequence rows =
      (listed.take Recall.summarySourceMessages).map Row.message := rfl
  have listedOrdered : listed.Pairwise fun first second => first.sequence < second.sequence :=
    (pairwise_map.mp ordered).sublist filter_sublist
  have newOrdered : ((listAfter afterSequence rows).map Message.sequence).Pairwise (· < ·) := by
    rw [isNew, map_map]
    exact pairwise_map.mpr (listedOrdered.sublist (take_sublist _ _))
  have fromListed : ∀ m ∈ listAfter afterSequence rows, ∃ row ∈ listed, row.message = m := by
    intro m member
    rw [isNew] at member
    obtain ⟨row, isTaken, isMessage⟩ := mem_map.mp member
    exact ⟨row, mem_of_mem_take isTaken, isMessage⟩
  obtain ⟨lastIsNew, before⟩ := sequence_le_last newOrdered isLast
  constructor
  case ordered => exact newOrdered
  case after =>
    intro m member
    obtain ⟨row, isListed, rfl⟩ := fromListed m member
    exact (of_decide_eq_true (mem_filter.mp isListed).2).2
  case stored =>
    intro m member
    obtain ⟨row, isListed, rfl⟩ := fromListed m member
    obtain ⟨isRow, isVisible⟩ := mem_filter.mp isListed
    exact ⟨row, isRow, rfl, (of_decide_eq_true isVisible).1, (intact row isRow).content_message⟩
  case isLast => exact lastIsNew
  case before => exact before
  case all =>
    intro row isRow isVisible isLater upToLast
    have isListed : row ∈ listed := mem_filter.mpr ⟨isRow, decide_eq_true ⟨isVisible, isLater⟩⟩
    rw [← take_append_drop Recall.summarySourceMessages listed] at isListed listedOrdered
    rcases mem_append.mp isListed with isTaken | isDropped
    · exact ⟨row.message, isNew ▸ mem_map_of_mem isTaken, rfl⟩
    · -- what the limit leaves out comes after the last message
      rw [isNew] at lastIsNew
      obtain ⟨lastRow, lastTaken, rfl⟩ := mem_map.mp lastIsNew
      have isBeyond := (pairwise_append.mp listedOrdered).2.2 lastRow lastTaken row isDropped
      exact absurd upToLast (Nat.not_le.mpr isBeyond)

namespace Listed

variable {rows : List Row} {afterSequence : Nat} {new : List Message} {last : Message}
  (listed : Listed rows afterSequence new last)
include listed

theorem append (isNew : ∀ other ∈ rows, other.sequence < row.sequence) :
    Listed (rows ++ [row]) afterSequence new last where
  ordered := listed.ordered
  after := listed.after
  stored m member := by
    obtain ⟨stored, isRow, facts⟩ := listed.stored m member
    exact ⟨stored, mem_append_left _ isRow, facts⟩
  isLast := listed.isLast
  before := listed.before
  all other member isVisible isLater upToLast := by
    rcases mem_concat.mp member with isRow | rfl
    · exact listed.all other isRow isVisible isLater upToLast
    · obtain ⟨stored, isRow, same, -⟩ := listed.stored last listed.isLast
      have less := isNew stored isRow
      omega

theorem map {change : Row → Row} (sameSequence : ∀ row, (change row).sequence = row.sequence)
    (sameKind : ∀ row, (change row).kind = row.kind)
    (sameAppended : ∀ row, (change row).appended = row.appended) :
    Listed (rows.map change) afterSequence new last where
  ordered := listed.ordered
  after := listed.after
  stored m member := by
    simpa [sameSequence, sameKind, sameAppended] using listed.stored m member
  isLast := listed.isLast
  before := listed.before
  all := by simpa [sameSequence, sameKind] using listed.all

theorem eq_of_sequence {other : Message}
    (member : m ∈ new) (isOther : other ∈ new) (same : m.sequence = other.sequence) :
    m = other :=
  inj_on_of_nodup_map (listed.ordered.imp Nat.ne_of_lt) member isOther same

theorem owed (member : m ∈ new)
    (isShown : m.shown) : ∃ row ∈ rows, row.sequence = m.sequence ∧ row.owed := by
  obtain ⟨row, isRow, same, isVisible, isContent⟩ := listed.stored m member
  have notBlank : strip m.content ≠ [] := (of_decide_eq_true isShown).2
  rcases isContent with isAppended | isEmpty
  · rw [isAppended] at notBlank
    exact ⟨row, isRow, same, decide_eq_true ⟨isVisible, notBlank⟩⟩
  · exact absurd (by rw [isEmpty]; rfl) notBlank

end Listed

theorem handed_all_iff (answer : Option (List Char))
    (listed : Listed rows (covered previous) new last) :
    (∀ row ∈ rows, row.owed → covered previous < row.sequence → row.sequence ≤ last.sequence →
        row.sequence ∈ (foldOf previous new answer).handed.map Message.sequence) ↔
      (∀ m ∈ new, ∀ row ∈ rows, row.sequence = m.sequence → row.owed → m.shown) ∧
        ((abstractive answer).isSome → (givenLines new).length ≤ givenChars) := by
  have isPart : (foldOf previous new answer).handed.Sublist (new.filter Message.shown) :=
    (foldOf previous new answer).handed_sublist
  constructor
  · intro handedAll
    have handedNew : ∀ m ∈ new, ∀ row ∈ rows, row.sequence = m.sequence → row.owed →
        m ∈ (foldOf previous new answer).handed := by
      intro m member row isRow same isOwed
      have isLater : covered previous < row.sequence := same ▸ listed.after m member
      have upToLast : row.sequence ≤ last.sequence := same ▸ listed.before m member
      obtain ⟨other, isHanded, isSame⟩ := mem_map.mp (handedAll row isRow isOwed isLater upToLast)
      have isNew : other ∈ new := (mem_filter.mp (isPart.subset isHanded)).1
      rwa [← listed.eq_of_sequence isNew member (isSame.trans same)]
    constructor
    · intro m member row isRow same isOwed
      have isHanded := handedNew m member row isRow same isOwed
      exact (mem_filter.mp (isPart.subset isHanded)).2
    · apply (foldOf previous new answer).handed_eq_iff.mp
      have sequences : (new.map Message.sequence).Nodup := listed.ordered.imp Nat.ne_of_lt
      have distinct : (new.filter Message.shown).Nodup :=
        (List.Nodup.of_map Message.sequence sequences).filter _
      have isAll : new.filter Message.shown ⊆ (foldOf previous new answer).handed := by
        intro m member
        obtain ⟨isNew, isShown⟩ := mem_filter.mp member
        obtain ⟨row, isRow, same, isOwed⟩ := listed.owed isNew isShown
        exact handedNew m isNew row isRow same isOwed
      exact isPart.eq_of_length_le (subperm_of_subset distinct isAll).length_le
  · rintro ⟨areShown, isGiven⟩ row isRow isOwed isLater upToLast
    have isVisible : row.kind = .visible := (of_decide_eq_true isOwed).1
    obtain ⟨m, member, same⟩ := listed.all row isRow isVisible isLater upToLast
    have isHanded := (foldOf previous new answer).handed_eq_iff.mpr isGiven
    rw [isHanded, ← same]
    have isShown := areShown m member row isRow same.symm isOwed
    exact mem_map_of_mem (mem_filter.mpr ⟨member, isShown⟩)

/-! ## Versions -/

def Numbered (summaries : List ThreadSummary) : Prop :=
  summaries.map ThreadSummary.version = List.range' 1 summaries.length

theorem numbered_append :
    Numbered (summaries ++ [summary]) ↔
      Numbered summaries ∧ summary.version = summaries.length + 1 := by
  rw [Numbered, Numbered, length_append, length_singleton, List.range'_1_concat,
    map_append, append_eq_append_iff_of_size_eq_left (by simp), Nat.add_comm]
  simp

section

variable (numbered : Numbered summaries)
include numbered

theorem Numbered.version_iff {version : Nat} :
    (∃ summary ∈ summaries, summary.version = version) ↔
      1 ≤ version ∧ version ≤ summaries.length := by
  rw [← mem_map, numbered, mem_range'_1]
  omega

theorem Numbered.latest_eq :
    latest summaries = summaries.getLast? := by
  induction summaries using List.reverseRecOn with
  | nil => rfl
  | append_singleton rest last ih =>
    obtain ⟨restNumbered, isNext⟩ := numbered_append.mp numbered
    rw [latest] at ih ⊢
    rw [argmax_concat, ih restNumbered, getLast?_concat]
    cases isLast : rest.getLast? with
    | none => rfl
    | some summary =>
      have isThere := restNumbered.version_iff.mp ⟨summary, mem_of_getLast? isLast, rfl⟩
      simp only
      rw [if_pos (by omega)]

theorem Numbered.latest_of_free (wasStored : ∀ summary ∈ previous, summary ∈ summaries)
    (isFree : ∀ other ∈ summaries, other.version ≠ nextVersion previous) :
    previous = latest summaries ∧ nextVersion previous = summaries.length + 1 := by
  have beyond : ¬(1 ≤ nextVersion previous ∧ nextVersion previous ≤ summaries.length) := by
    rw [← numbered.version_iff]
    simpa using isFree
  rw [numbered.latest_eq]
  cases previous with
  | none =>
    have isEmpty : summaries = [] := by
      apply length_eq_zero_iff.mp
      simp only [nextVersion, Option.elim] at beyond
      omega
    rw [isEmpty]
    exact ⟨rfl, rfl⟩
  | some summary =>
    have isThere := wasStored summary rfl
    have within := numbered.version_iff.mp ⟨summary, isThere, rfl⟩
    simp only [nextVersion, Option.elim] at beyond ⊢
    have isLength : summary.version = summaries.length := by omega
    induction summaries using List.reverseRecOn with
    | nil => cases isThere
    | append_singleton rest last =>
      obtain ⟨restNumbered, isNext⟩ := numbered_append.mp numbered
      rw [length_append, length_singleton] at isLength
      rcases mem_concat.mp isThere with isEarlier | rfl
      · have isLess := restNumbered.version_iff.mp ⟨summary, isEarlier, rfl⟩
        omega
      · simp [isNext]

end

/-! ## The invariant -/

def Refresh.Fits (state : State) : Refresh → Prop
  | .reading previous => ∀ summary ∈ previous, summary ∈ state.summaries
  | .folding previous new last =>
    (∀ summary ∈ previous, summary ∈ state.summaries) ∧
      Listed state.rows (covered previous) new last

structure State.Sound (state : State) : Prop where
  ordered : (state.rows.map Row.sequence).Pairwise (· < ·)
  intact : ∀ row ∈ state.rows, row.Intact
  numbered : Numbered state.summaries
  fits : ∀ refresh ∈ state.refreshes, refresh.Fits state
  isCovered : state.Covered
  behind : ∀ sequence ∈ state.handed, sequence ≤ covered (latest state.summaries)
  reached : covered (latest state.summaries) < Threads.nextSequence (state.rows.map Row.sequence)

theorem sound_initial : ({} : State).Sound where
  ordered := List.Pairwise.nil
  intact := by simp
  numbered := rfl
  fits := by simp
  isCovered := by simp [State.Covered]
  behind := by simp [State.handed]
  reached := by decide

namespace State.Sound

variable {state : State}

section

variable (sound : state.Sound)
include sound

theorem with_refreshes {refreshes : List Refresh}
    (fits : ∀ refresh ∈ refreshes, refresh.Fits state) :
    State.Sound { state with refreshes } where
  ordered := sound.ordered
  intact := sound.intact
  numbered := sound.numbered
  fits refresh member := by cases refresh <;> exact fits _ member
  isCovered := sound.isCovered
  behind := sound.behind
  reached := sound.reached

theorem without (place : Nat) :
    State.Sound { state with refreshes := state.refreshes.eraseIdx place } :=
  sound.with_refreshes fun refresh member => sound.fits refresh (mem_of_mem_eraseIdx member)

theorem append (role : MessageRole) (kind : MessageKind) (content : List Char) :
    State.Sound
      { state with
        rows := state.rows ++
          [⟨Threads.nextSequence (state.rows.map Row.sequence), role, kind, some content,
            content⟩] } := by
  have isNew : ∀ row ∈ state.rows,
      row.sequence < Threads.nextSequence (state.rows.map Row.sequence) :=
    fun row isRow => Threads.lt_nextSequence (mem_map_of_mem isRow)
  constructor
  case ordered =>
    rw [map_append, pairwise_append]
    exact ⟨sound.ordered, by simp, by simpa using isNew⟩
  case intact =>
    intro row member
    rcases mem_concat.mp member with isRow | rfl
    · exact sound.intact row isRow
    · simp [Row.Intact]
  case numbered => exact sound.numbered
  case fits =>
    intro refresh member
    have fits := sound.fits refresh member
    cases refresh with
    | reading previous => exact fits
    | folding previous new last => exact ⟨fits.1, fits.2.append isNew⟩
  case isCovered =>
    intro row member isOwed within
    rcases mem_concat.mp member with isRow | rfl
    · exact sound.isCovered row isRow isOwed within
    · exact absurd within (Nat.not_le.mpr sound.reached)
  case behind => exact sound.behind
  case reached =>
    apply sound.reached.trans
    apply Threads.lt_nextSequence
    simp

theorem purge (sequence : Nat) :
    State.Sound { state with rows := state.rows.map (·.purged sequence) } := by
  have sameSequence : ∀ row : Row, (row.purged sequence).sequence = row.sequence := by
    intro row
    rw [Row.purged]
    split <;> rfl
  have sameKind : ∀ row : Row, (row.purged sequence).kind = row.kind := by
    intro row
    rw [Row.purged]
    split <;> rfl
  have sameAppended : ∀ row : Row, (row.purged sequence).appended = row.appended := by
    intro row
    rw [Row.purged]
    split <;> rfl
  have sameSequences :
      (state.rows.map (·.purged sequence)).map Row.sequence = state.rows.map Row.sequence := by
    simp [sameSequence]
  constructor
  case ordered => exact sameSequences ▸ sound.ordered
  case intact =>
    rw [forall_mem_map]
    intro row isRow
    rw [Row.purged]
    split
    case isTrue => simp [Row.Intact]
    case isFalse => exact sound.intact row isRow
  case numbered => exact sound.numbered
  case fits =>
    intro refresh member
    have fits := sound.fits refresh member
    cases refresh with
    | reading previous => exact fits
    | folding previous new last =>
      exact ⟨fits.1, fits.2.map sameSequence sameKind sameAppended⟩
  case isCovered =>
    rw [State.Covered, forall_mem_map]
    intro row isRow isOwed within
    rw [sameSequence] at within ⊢
    rw [Row.owed, sameKind, sameAppended] at isOwed
    exact sound.isCovered row isRow isOwed within
  case behind => exact sound.behind
  case reached => exact sameSequences ▸ sound.reached

theorem read (isThere : state.refreshes[place]? = some (.reading previous)) :
    State.Sound
      { state with
        refreshes := state.refreshes.eraseIdx place ++
          (refreshOf previous (listAfter (covered previous) state.rows)).toList } := by
  have wasStored := sound.fits _ (mem_of_getElem? isThere)
  apply sound.with_refreshes
  intro refresh member
  rcases mem_append.mp member with isOther | isThis
  · exact sound.fits refresh (mem_of_mem_eraseIdx isOther)
  · obtain ⟨last, isLast, rfl⟩ := Option.map_eq_some_iff.mp (Option.mem_toList.mp isThis)
    exact ⟨wasStored, listed_listAfter sound.ordered sound.intact isLast⟩

end

end State.Sound

section Stored

variable {state : State} {previous : Option ThreadSummary} {new : List Message} {last : Message}
  (answer : Option (List Char)) (model : String)

def State.stored (state : State) (summary : ThreadSummary) : State :=
  { state with summaries := state.summaries ++ [summary] }

theorem handed_stored (summary : ThreadSummary) :
    (state.stored summary).handed = state.handed ++ summary.fold.handed.map Message.sequence := by
  simp [State.handed, State.stored]

theorem numbered_stored (sound : state.Sound)
    (wasStored : ∀ summary ∈ previous, summary ∈ state.summaries)
    (isFree : ∀ other ∈ state.summaries, other.version ≠ nextVersion previous) :
    Numbered (state.summaries ++ [summaryOf previous new last answer model]) :=
  numbered_append.mpr ⟨sound.numbered, (sound.numbered.latest_of_free wasStored isFree).2⟩

theorem covered_stored_eq (sound : state.Sound)
    (wasStored : ∀ summary ∈ previous, summary ∈ state.summaries)
    (isFree : ∀ other ∈ state.summaries, other.version ≠ nextVersion previous) :
    covered (latest (state.stored (summaryOf previous new last answer model)).summaries) =
      last.sequence := by
  have numbered : Numbered (state.summaries ++ [summaryOf previous new last answer model]) :=
    numbered_stored answer model sound wasStored isFree
  rw [State.stored, numbered.latest_eq, getLast?_concat]
  rfl

section

variable (listed : Listed state.rows (covered previous) new last)
include listed

theorem fold_handed_mem {sequence : Nat}
    (member : sequence ∈ (foldOf previous new answer).handed.map Message.sequence) :
    covered previous < sequence ∧ sequence ≤ last.sequence := by
  obtain ⟨m, isHanded, rfl⟩ := mem_map.mp member
  have isShown := (foldOf previous new answer).handed_sublist.subset isHanded
  have isNew := (mem_filter.mp isShown).1
  exact ⟨listed.after m isNew, listed.before m isNew⟩

theorem fold_handed_nodup :
    ((foldOf previous new answer).handed.map Message.sequence).Nodup := by
  have isPart : (foldOf previous new answer).handed.Sublist new :=
    (foldOf previous new answer).handed_sublist.trans filter_sublist
  have distinct : (new.map Message.sequence).Nodup := listed.ordered.imp Nat.ne_of_lt
  exact distinct.sublist (isPart.map Message.sequence)

end

section

variable (sound : state.Sound)
  (wasStored : ∀ summary ∈ previous, summary ∈ state.summaries)
  (listed : Listed state.rows (covered previous) new last)
  (isFree : ∀ other ∈ state.summaries, other.version ≠ nextVersion previous)
include sound wasStored listed isFree

theorem covered_stored_iff :
    (state.stored (summaryOf previous new last answer model)).Covered ↔
      ∀ row ∈ state.rows, row.owed → covered previous < row.sequence →
        row.sequence ≤ last.sequence →
          row.sequence ∈ (foldOf previous new answer).handed.map Message.sequence := by
  have isLatest := (sound.numbered.latest_of_free wasStored isFree).1
  have beforeLast : covered previous < last.sequence := listed.after last listed.isLast
  rw [State.Covered, covered_stored_eq answer model sound wasStored isFree, handed_stored]
  refine forall₂_congr fun row isRow => imp_congr_right fun isOwed => ?_
  rw [count_append]
  by_cases isOld : row.sequence ≤ covered previous
  case pos =>
    have isOnce := sound.isCovered row isRow isOwed (isLatest ▸ isOld)
    have notNew : row.sequence ∉ (foldOf previous new answer).handed.map Message.sequence :=
      fun member => absurd (fold_handed_mem answer listed member).1 (Nat.not_lt.mpr isOld)
    have isZero := count_eq_zero_of_not_mem notNew
    constructor
    · intro _ isLater
      omega
    · intro _ _
      rw [isOnce]
      exact congrArg (1 + ·) isZero
  case neg =>
    have notOld : row.sequence ∉ state.handed :=
      fun member => isOld (isLatest ▸ sound.behind row.sequence member)
    rw [count_eq_zero_of_not_mem notOld, Nat.zero_add]
    constructor
    · intro counted _ upToLast
      exact count_pos_iff.mp (Nat.lt_of_lt_of_eq Nat.one_pos (counted upToLast).symm)
    · intro isHanded upToLast
      exact count_eq_one_of_mem (fold_handed_nodup answer listed)
        (isHanded (Nat.not_le.mp isOld) upToLast)

theorem State.Sound.stored
    (isCovered : (state.stored (summaryOf previous new last answer model)).Covered) :
    (state.stored (summaryOf previous new last answer model)).Sound := by
  have isLatest := (sound.numbered.latest_of_free wasStored isFree).1
  have beforeLast : covered previous < last.sequence := listed.after last listed.isLast
  constructor
  case ordered => exact sound.ordered
  case intact => exact sound.intact
  case numbered => exact numbered_stored answer model sound wasStored isFree
  case fits =>
    intro refresh member
    have fits := sound.fits refresh member
    cases refresh with
    | reading previous =>
      exact fun summary isIt => mem_append_left _ (fits summary isIt)
    | folding previous new last =>
      exact ⟨fun summary isIt => mem_append_left _ (fits.1 summary isIt), fits.2⟩
  case isCovered => exact isCovered
  case behind =>
    intro sequence member
    rw [covered_stored_eq answer model sound wasStored isFree]
    rw [handed_stored] at member
    rcases mem_append.mp member with isOld | isNew
    · have within := sound.behind sequence isOld
      rw [← isLatest] at within
      omega
    · exact (fold_handed_mem answer listed isNew).2
  case reached =>
    rw [covered_stored_eq answer model sound wasStored isFree]
    obtain ⟨row, isRow, same, -⟩ := listed.stored last listed.isLast
    exact same ▸ Threads.lt_nextSequence (mem_map_of_mem isRow)

end

end Stored

section Steps

variable {state next : State} {action : Action}

theorem write_cases (stepped : step state (.write place answer model) = some next) :
    ∃ previous new last, state.refreshes[place]? = some (.folding previous new last) ∧
      next =
        { state with
          summaries := add (summaryOf previous new last answer model) state.summaries
          refreshes := state.refreshes.eraseIdx place } := by
  simp only [step] at stepped
  split at stepped
  case h_1 previous new last isThere =>
    exact ⟨previous, new, last, isThere, (Option.some.inj stepped).symm⟩
  case h_2 => cases stepped

theorem add_of_free (isFree : ∀ other ∈ summaries, other.version ≠ summary.version) :
    add summary summaries = summaries ++ [summary] := by
  rw [add, if_neg]
  rintro ⟨other, isOther, same⟩
  exact isFree other isOther same

theorem add_of_taken (isTaken : ¬∀ other ∈ summaries, other.version ≠ summary.version) :
    add summary summaries = summaries := by
  rw [add, if_pos]
  simpa using isTaken

section

variable (stepped : step state (.write place answer model) = some next)
include stepped

theorem sound_write
    (complete : Complete state (.write place answer model)) (sound : state.Sound) :
    next.Sound := by
  obtain ⟨previous, new, last, isThere, rfl⟩ := write_cases stepped
  obtain ⟨wasStored, listed⟩ := sound.fits _ (mem_of_getElem? isThere)
  simp only [Complete, isThere] at complete
  by_cases isFree : ∀ other ∈ state.summaries, other.version ≠ nextVersion previous
  case pos =>
    have handedAll := (handed_all_iff answer listed).mpr (complete isFree)
    have isCovered := (covered_stored_iff answer model sound wasStored listed isFree).mpr handedAll
    rw [add_of_free isFree]
    exact (sound.stored answer model wasStored listed isFree isCovered).without place
  case neg =>
    rw [add_of_taken isFree]
    exact sound.without place

theorem complete_of_covered
    (sound : state.Sound)
    (isCovered : next.Covered) : Complete state (.write place answer model) := by
  obtain ⟨previous, new, last, isThere, rfl⟩ := write_cases stepped
  obtain ⟨wasStored, listed⟩ := sound.fits _ (mem_of_getElem? isThere)
  simp only [Complete, isThere]
  intro isFree
  rw [add_of_free isFree] at isCovered
  exact (handed_all_iff answer listed).mp <|
    (covered_stored_iff answer model sound wasStored listed isFree).mp isCovered

end

theorem sound_step (stepped : step state action = some next) (complete : Complete state action)
    (sound : state.Sound) : next.Sound := by
  cases action with
  | append role kind content =>
    cases stepped
    exact sound.append role kind content
  | purge sequence =>
    cases stepped
    exact sound.purge sequence
  | delete =>
    cases stepped
    have fits : ∀ refresh ∈ state.refreshes, refresh.Fits { state with deleted := true } := by
      intro refresh member
      cases refresh <;> exact sound.fits _ member
    exact { sound with fits }
  | start =>
    simp only [step] at stepped
    obtain ⟨-, stepped⟩ := Option.ite_none_left_eq_some.mp stepped
    cases stepped
    apply sound.with_refreshes
    intro refresh member
    rcases mem_concat.mp member with isOther | rfl
    · exact sound.fits refresh isOther
    · exact fun summary isLatest => argmax_mem isLatest
  | read place =>
    simp only [step] at stepped
    split at stepped
    case h_1 previous isThere =>
      cases stepped
      exact sound.read isThere
    case h_2 => cases stepped
  | write place answer model => exact sound_write stepped complete sound
  | fail place =>
    simp only [step] at stepped
    obtain ⟨-, stepped⟩ := Option.ite_none_right_eq_some.mp stepped
    cases stepped
    exact sound.without place

theorem complete_step (stepped : step state action = some next) (sound : state.Sound)
    (isCovered : next.Covered) : Complete state action := by
  cases action with
  | write place answer model => exact complete_of_covered stepped sound isCovered
  | append role kind content => trivial
  | purge sequence => trivial
  | delete => trivial
  | start => trivial
  | read place => trivial
  | fail place => trivial

end Steps

/-- Over a run the summaries cover what they were made from, just when every fold that is stored
was complete. -/
theorem covers_what_it_read {actions : List Action} {state : State}
    (reached : run step {} actions = some state) :
    (Meets step Complete {} actions ↔
      ∀ first, first <+: actions → ∀ middle, run step {} first = some middle → middle.Covered) ∧
      ∀ summary ∈ state.summaries, ∀ m ∈ summary.fold.handed,
        summary.fold.lineOf m <:+: summary.fold.text :=
  ⟨meets_iff_along State.Sound.isCovered
      (fun stepped complete sound => sound_step stepped complete sound)
      (fun stepped sound isCovered => complete_step stepped sound isCovered)
      reached sound_initial,
    fun summary _ _ isHanded => summary.fold.line_in_text isHanded⟩

/-! ## A thread that is too long for the model -/

theorem squeezed_of_solid (isText : text ≠ [])
    (solid : ∀ c ∈ text, isSpace c = false) : squeezed text = text := by
  have isChain : text.IsChain fun first second => isSpace first = isSpace second :=
    (pairwise_of_forall_mem_list fun first isFirst second isSecond =>
      (solid first isFirst).trans (solid second isSecond).symm).isChain
  have isWord : text.any isSpace = false := by simpa using solid
  rw [squeezed, Profile.split, splitBy_of_isChain isText (by simpa using isChain)]
  simp [isWord]

/-- Two folds, the second by a model. -/
def greeting : List Action :=
  [.append .user .visible "Hello.".toList, .start, .read 0, .write 0 none "",
    .append .assistant .visible "Hi.".toList, .start, .read 0,
    .write 0 (some "They greet each other.".toList) "model"]

theorem greeting_is_covered :
    Meets step Complete {} greeting ∧ ∀ first, first <+: greeting →
      ∀ middle, run step {} first = some middle → middle.Covered := by
  have isComplete : Meets step Complete {} greeting := by decide
  exact ⟨isComplete, (covers_what_it_read (rfl : run step {} greeting = some _)).1.mp isComplete⟩

/-- A thousand characters more than the model is given. -/
def pastedChars : Nat := 9000

@[irreducible]
def pasted : List Char := List.replicate pastedChars 'x'

def longMessage : Message := ⟨1, .user, .visible, pasted⟩

def longRow : Row := ⟨1, .user, .visible, some pasted, pasted⟩

def longThread : List Action :=
  [.append .user .visible pasted, .start, .read 0, .write 0 (some "A long text.".toList) "model"]

theorem solid_pasted : ∀ c ∈ pasted, isSpace c = false := by
  intro c member
  rw [pasted] at member
  rw [eq_of_mem_replicate member]
  rfl

theorem pasted_ne_nil : pasted ≠ [] := by
  rw [pasted]
  exact cons_ne_nil 'x' _

theorem whole_of_solid {m : Message} (isText : m.content ≠ [])
    (solid : ∀ c ∈ m.content, isSpace c = false) (isLong : givenChars < m.content.length) :
    whole [m] = [] := by
  have isMore : ¬m.givenLine.length ≤ givenChars := by
    rw [Message.givenLine, length_append, squeezed_of_solid isText solid]
    omega
  rw [whole, map_singleton, joined, intercalate_singleton, if_neg isMore, whole]

theorem whole_long : whole [longMessage] = [] := by
  have isLong : givenChars < pasted.length := by
    rw [pasted, length_replicate]
    decide
  exact whole_of_solid pasted_ne_nil solid_pasted isLong

theorem handed_answered (new : List Message) (last : Message) (model : String) :
    (summaryOf none new last (some "A long text.".toList) model).fold.handed =
      whole (new.filter Message.shown) := rfl

/-- The summary covers the message, of which the model was given only the end. -/
theorem end_of_message_is_covered :
    ¬∀ actions state, run step {} actions = some state → state.Covered := by
  intro always
  let summary := summaryOf none [longMessage] longMessage (some "A long text.".toList) "model"
  have isCovered := always longThread { rows := [longRow], summaries := [summary] } rfl
  have isOwed : longRow.owed := by decide +kernel
  have counted := isCovered longRow mem_cons_self isOwed (le_refl 1)
  have isShown : [longMessage].filter Message.shown = [longMessage] := filter_cons_of_pos isOwed
  have isHanded : summary.fold.handed = whole ([longMessage].filter Message.shown) :=
    handed_answered [longMessage] longMessage "model"
  rw [isShown, whole_long] at isHanded
  simp [State.handed, isHanded] at counted

end MemoryService.Conversation.Summaries
