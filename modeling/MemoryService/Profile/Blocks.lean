import MemoryService.Foundation.Lines
import MemoryService.Foundation.Spending
import MemoryService.Rag.Indexer

/-!
# A user's profile block

The block is pinned into every context of its user. The profile job writes it from the user's
memories while the job owns it, and only appends to it once somebody has edited it.
-/

namespace MemoryService.Profile

open Domain Foundation

def profileBlockMaxChars : Nat := 4000

/-- `str.split`. -/
def split (text : List Char) : List (List Char) :=
  (text.splitBy fun first second => Rag.isSpace first = Rag.isSpace second).filter fun run =>
    !run.any Rag.isSpace

/-- `" ".join(text.split())`. -/
def squeezed (text : List Char) : List Char := [' '].intercalate (split text)

/-- `"\n".join(lines)`. -/
def joined (lines : List (List Char)) : List Char := ['\n'].intercalate lines

def lineCost (line : List Char) : ℤ := line.length + 1

/-- `_bounded`: the lines up to the first that does not fit. -/
def bounded (lines : List (List Char)) : List Char :=
  joined (Spending.affordable lineCost profileBlockMaxChars lines)

/-- `text.replace(old, new, 1)`, where `old` is in the text. -/
def replaceOnce (old new : List Char) : List Char → Option (List Char)
  | [] => if old = [] then some new else none
  | c :: rest =>
    if old.isPrefixOf (c :: rest) then some (new ++ (c :: rest).drop old.length)
    else (replaceOnce old new rest).map (c :: ·)

structure ProfileMemory where
  content : List Char
  createdAt : Instant
  shortTerm : Bool := false
  deriving DecidableEq

inductive BlockSource where
  | learned
  | edited
  deriving DecidableEq

structure ProfileBlock where
  text : List Char
  version : Nat
  source : BlockSource
  updatedAt : Instant
  deriving DecidableEq

def factLine (m : ProfileMemory) : List Char := '-' :: ' ' :: squeezed m.content

section Texts

variable (casefold : List Char → List Char)

def newLines (text : List Char) (memories : List ProfileMemory) (since : Instant) :
    List (List Char) :=
  ((memories.filter fun m =>
    since < m.createdAt ∧ ¬ casefold (squeezed m.content) <:+: casefold text).map
      factLine).eraseDups

/-- An edited block with the facts learned after the edit added below it. -/
def appended (text : List Char) (memories : List ProfileMemory) (since : Instant) : List Char :=
  match newLines casefold text memories since with
  | [] => text
  | new => bounded (splitlines text ++ new)

/-- `_compose`, with what the model wrote and the text without a model. -/
def compose (template : List ProfileMemory → List Char) (memories : List ProfileMemory)
    (current : Option ProfileBlock)
    (written : List Char) : List Char :=
  match current.filter (·.source = .edited) with
  | some block => appended casefold block.text memories block.updatedAt
  | none =>
    let profile := Rag.strip written
    if profile ≠ [] ∧ profile.length ≤ profileBlockMaxChars then profile
    else template memories

end Texts

structure Refresh where
  memories : List ProfileMemory
  current : Option ProfileBlock
  deriving DecidableEq

structure Edit where
  text : List Char
  editedAt : Instant
  deriving DecidableEq

/-- The block and the refreshes that have read it.  With them go the last edit, and every
memory that a refresh has found: only what is said of a run looks at these. -/
structure State where
  block : Option ProfileBlock := none
  refreshes : List Refresh := []
  edit : Option Edit := none
  found : List ProfileMemory := []
  deriving DecidableEq

inductive Action where
  | edit (old : List Char) (new : Option (List Char)) (now : Instant)
  | read (memories : List ProfileMemory)
  | write (place : Nat) (written : List Char) (now : Instant)

def editedText (current : Option ProfileBlock) (old : List Char) (new : Option (List Char)) :
    Option (List Char) :=
  let text :=
    match new with
    | none => some (current.elim [] (·.text))
    | some new =>
      if old = [] then some new else current.bind fun block => replaceOnce old new block.text
  text.filter fun text => text.length ≤ profileBlockMaxChars

/-- `SqlProfileRepository.put`: the version is the stored one plus one. -/
def put (stored : Option ProfileBlock) (block : ProfileBlock) : ProfileBlock :=
  { block with version := stored.elim 1 (·.version + 1) }

/-- What `refresh_user` does under the lock: the block afterwards. -/
def writtenBlock (latest current : Option ProfileBlock) (text : List Char) (now : Instant) :
    Option ProfileBlock :=
  match latest, current with
  | some latest, some current =>
    -- edited meanwhile: the next refresh appends to the edit
    if latest.version ≠ current.version then some latest
    else some (put (some latest) { current with text })
  | none, some current => some (put none { current with text })
  | latest, none => some (put latest { text, version := 0, source := .learned, updatedAt := now })

section Steps

variable (casefold : List Char → List Char) (template : List ProfileMemory → List Char)

def step (state : State) : Action → Option State
  | .edit old new now =>
    (editedText state.block old new).map fun text =>
      { state with
        block := some (put state.block { text, version := 0, source := .edited, updatedAt := now })
        edit := some { text, editedAt := now } }
  | .read memories =>
    let lasting := memories.filter fun m => !m.shortTerm
    if lasting = [] then some state
    else
      some { state with
        refreshes := state.refreshes ++ [⟨lasting, state.block⟩]
        found := state.found ++ lasting }
  | .write place written now =>
    (state.refreshes[place]?).map fun refresh =>
      let text := compose casefold template refresh.memories refresh.current written
      { state with
        block :=
          if refresh.current.any (·.text = text) then state.block
          else writtenBlock state.block refresh.current text now
        refreshes := state.refreshes.eraseIdx place }

end Steps

/-- The line break between a text and the lines put below it. -/
def glue (text : List Char) : List Char :=
  if text = [] ∨ text.getLast? = some '\n' then [] else ['\n']

def below (text : List Char) : List (List Char) → List Char
  | [] => []
  | lines => glue text ++ joined lines

/-- The text of an edit, and below it lines of memories that were found and learned after it. -/
def Follows (found : List ProfileMemory) (edit : Edit) (text : List Char) : Prop :=
  ∃ facts ⊆ found, (∀ m ∈ facts, edit.editedAt < m.createdAt) ∧
    text = edit.text ++ below edit.text (facts.map factLine)

/-- The whole text of the last edit is in the block, followed only by facts learned after it. -/
def State.EditKept (state : State) : Prop :=
  ∀ edit ∈ state.edit, ∃ block ∈ state.block, Follows state.found edit block.text

/-- The lines of the text and the first new one fit: it has no other line breaks than line feeds,
and is shorter than a block or, where it ends with a line feed, leaves room for the new line. -/
def Roomy (text : List Char) (new : List (List Char)) : Prop :=
  (∀ c ∈ text, isLineBreak c = true → c = '\n') ∧
    (text = [] ∨
      if text.getLast? = some '\n' then
        ∀ line ∈ new.head?, text.length + line.length < profileBlockMaxChars
      else text.length < profileBlockMaxChars)

/-- A refresh that read no block writes over none that was edited, and one that appends to an
edited block finds room below it. -/
def Harmless (casefold : List Char → List Char) (state : State) : Action → Prop
  | .write place _ _ => ∀ refresh ∈ state.refreshes[place]?,
      (refresh.current = none → ∀ block ∈ state.block, block.source = .learned) ∧
        ∀ block ∈ refresh.current, block.source = .edited → state.block = some block →
          newLines casefold block.text refresh.memories block.updatedAt = [] ∨
            Roomy block.text (newLines casefold block.text refresh.memories block.updatedAt)
  | _ => True

instance (text : List Char) (new : List (List Char)) : Decidable (Roomy text new) :=
  haveI : Decidable (∀ c ∈ text, isLineBreak c = true → c = '\n') := List.decidableBAll _ text
  inferInstanceAs (Decidable (_ ∧ (_ ∨ ite _ _ _)))

instance (casefold : List Char → List Char) (state : State) (action) :
    Decidable (Harmless casefold state action) := by
  unfold Harmless
  split <;> infer_instance

end MemoryService.Profile
