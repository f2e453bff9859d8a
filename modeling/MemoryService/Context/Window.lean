import MemoryService.Domain.Conversation
import MemoryService.Foundation.Table

/-!
# The conversation window, as messages

A thread's most recent turns, for a caller that replays them to its model. A call and its results
are one piece; a turn is a question and every piece up to the next question.
-/

namespace MemoryService.Context

open Domain Foundation

def messageOverheadTokens : ℤ := 4

def runRecordText : String := "run_record"

def argumentChars : Nat := 60

def questionChars : Nat := 120

def fromStepChars : Nat := 3

def callOk : String := "ok"

def runFailed : List String := ["FAILED", "CANCELLED", "TIMED_OUT", "REJECTED"]

/-- Why a message may not carry these tool fields; `none` where it may. -/
def toolFieldsProblem (role : MessageRole) (toolCalls : List MessageToolCall)
    (toolCallId : Option String) : Option String :=
  if toolCalls ≠ [] ∧ role ≠ .assistant then
    some "only an ASSISTANT message makes tool calls"
  else if toolCallId ≠ none ∧ role ≠ .tool then
    some "only a TOOL message answers a tool call (tool_call_id)"
  else none

def isascii (c : Char) : Bool := c.toNat < 128

def tokenUnits (c : Char) : Nat :=
  if isascii c then if c = '\n' then 5 else 1 else 4 * c.utf8Size

def estimateTokens (text : String) : Nat :=
  let characters := text.toList
  if characters.all isascii then max 1 (characters.length / 4 + characters.count '\n')
  else max 1 ((characters.map tokenUnits).foldr (· + ·) 0 / 4)

def dumped (value : Json) : String := String.ofList value.dumps

def messageTokens (message : Message) : ℤ :=
  let calls : List ℤ := message.toolCalls.map fun c =>
    estimateTokens c.name + estimateTokens (dumped (.obj c.arguments))
  estimateTokens message.content + calls.foldr (· + ·) 0 + messageOverheadTokens

def replayable (message : Message) : Bool :=
  message.kind = .visible || (message.role = .tool && message.toolCallId.isSome)

/-- The message is the result of a call that `head` makes. -/
def IsResultOf (head m : Message) : Prop :=
  m.role = .tool ∧ ∃ c ∈ head.toolCalls, m.toolCallId = some c.id
deriving Decidable

structure Piece where
  head : Message
  results : List Message := []
  answer : ∀ m ∈ results, IsResultOf head m := by simp

def Piece.messages (piece : Piece) : List Message := piece.head :: piece.results

def Piece.append (piece : Piece) (m : Message) (answers : IsResultOf piece.head m) : Piece where
  head := piece.head
  results := piece.results ++ [m]
  answer := by
    intro other member
    rcases mem_concat.mp member with earlier | rfl
    · exact piece.answer other earlier
    · exact answers

def unit (out : List Piece) (m : Message) : List Piece :=
  match out with
  | [] => [{ head := m }]
  | last :: before =>
    if answers : IsResultOf last.head m then last.append m answers :: before
    else { head := m } :: last :: before

def units (messages : List Message) : List Piece := (messages.foldl unit []).reverse

def whole (piece : Piece) : Option Piece :=
  if piece.head.role = .tool then none
  else if piece.head.toolCalls.all fun c =>
      piece.results.any fun m => m.toolCallId = some c.id then
    some piece
  else if piece.head.content = "" then none
  else some { head := { piece.head with toolCalls := [] } }

abbrev Turn := List Piece

def turn (out : List Turn) (piece : Piece) : List Turn :=
  match out with
  | [] => [[piece]]
  | last :: before =>
    if piece.head.role = .user then [piece] :: last :: before
    else (last ++ [piece]) :: before

def turns (pieces : List Piece) : List Turn := (pieces.foldl turn []).reverse

def fromAQuestion (found : List Turn) : List Turn :=
  match found with
  | first :: next :: later =>
    if first.head?.any fun piece => piece.head.role ≠ .user then next :: later
    else first :: next :: later
  | found => found

/-- What the texts of a record ask of the language: how it splits and folds text and writes
values, and when a time written down is further back than a number of seconds. -/
structure Wording where
  split : String → List String
  lower : String → String
  upper : String → String
  str : Json → String
  isZero : JsonNumber → Bool
  /-- `f"{value:.1f}"` of a number or a truth value -/
  decimal : Json → String
  older : Instant → String → Json → Bool

section

variable (wording : Wording) (now : Instant)

def cut (text : String) (most : Nat) : String :=
  if text.toList.length ≤ most then text
  else String.ofList (text.toList.take (most - 1)) ++ "…"

def short (value : Json) : String := cut (dumped value) argumentChars

def truthy : Json → Bool
  | .null => false
  | .bool value => value
  | .num value => !wording.isZero value
  | .str value => value ≠ ""
  | .arr items => !items.isEmpty
  | .obj members => !members.isEmpty

variable (turn : Turn)

def asked : String :=
  let question := turn.head?.bind fun piece =>
    if piece.head.role = .user then some (wording.split piece.head.content) else none
  match question with
  | none | some [] => "an answer whose question is not in the conversation"
  | some words => "\"" ++ cut (" ".intercalate words) questionChars ++ "\""

abbrev Facts := List (String × Json)

def facts (message : Option Message) : Facts :=
  match message.bind fun m => m.customMetadata.lookup runRecordText with
  | some (.obj found) => found
  | _ => []

def Facts.said (found : Facts) (key : String) : Option Json :=
  (found.lookup key).filter (truthy wording)

def isNumber : Json → Bool
  | .num _ | .bool _ => true
  | _ => false

def seconds (found : Facts) : Option String :=
  match found.lookup "seconds" with
  | some value => if isNumber value then some (wording.decimal value ++ " s") else none
  | none => none

def said (label : String) : Option Json → Option String
  | some (.str value) => if value = "" then none else some (label ++ ": " ++ value)
  | _ => none

/-- `v in text`. -/
def isIn (v text : String) : Bool := text.toList.tails.any fun rest => v.toList.isPrefixOf rest

def fromStep (arguments : List (String × Json)) (earlier : List String) : Option String :=
  let values := (arguments.map fun pair => wording.str pair.2).filter fun v =>
    fromStepChars ≤ v.toList.length
  (earlier.findIdx? fun text => values.any (isIn · text)).map fun n =>
    "from step " ++ toString (n + 1)

/-- One call of a turn, with what the caller recorded of its result. -/
structure Step where
  name : String
  arguments : List (String × Json)
  facts : Facts
  result : String

def Step.line (step : Step) (n : Nat) (earlier : List String) : String :=
  let args := ", ".intercalate (step.arguments.map fun pair => pair.1 ++ "=" ++ short pair.2)
  let told := ", ".intercalate
    ([ (step.facts.said wording "status").map wording.str,
       seconds wording step.facts,
       said "fetched" (step.facts.lookup "fetched"),
       said "source" (step.facts.lookup "sources"),
       fromStep wording step.arguments earlier ].reduceOption.filter (· ≠ ""))
  toString n ++ ". " ++ step.name ++ "(" ++ args ++ ")" ++
    if told = "" then "" else ": " ++ told

def Step.outOfDate (step : Step) : Bool :=
  match step.facts.lookup "max_age", step.facts.lookup "fetched" with
  | some age, some (.str fetched) => isNumber age && wording.older now fetched age
  | _, _ => false

def resultOf (id : String) : Option Message :=
  (turn.flatMap Piece.results).reverse.find? fun m => m.toolCallId = some id

def steps : List Step :=
  turn.flatMap fun piece =>
    piece.head.toolCalls.map fun call =>
      let result := resultOf turn call.id
      { name := call.name
        arguments := call.arguments
        facts := facts result
        result := result.elim "" Message.content }

/-- `text.split("; ")`. -/
def splitSources : List Char → List (List Char)
  | [] => [[]]
  | ';' :: ' ' :: rest => [] :: splitSources rest
  | c :: rest => (splitSources rest).modifyHead (c :: ·)

def sources (found : List Step) : String :=
  let named := found.flatMap fun step =>
    let texts := splitSources ((step.facts.said wording "sources").elim "" wording.str).toList
    (texts.map String.ofList).filter (· ≠ "")
  let names := named.eraseDups
  if names = [] then "no call named a source"
  else
    let each := "; ".intercalate (names.map fun name =>
      name ++ " (named by " ++ toString (named.count name) ++ " of " ++
        toString found.length ++ ")")
    toString names.length ++ (if names.length = 1 then " source: " else " sources: ") ++ each

def grade (found : List Step) (run : Facts) (ok : Nat) (recorded stale : Bool) : String :=
  let status := wording.upper ((run.lookup "status").elim "" wording.str)
  if status ∈ runFailed || (recorded && ok = 0) then "low"
  else
    let named := found.any fun step => (step.facts.said wording "sources").isSome
    if ok = found.length && named && !stale then "high" else "medium"

def evidence (found : List Step) (run : Facts) : Option String :=
  if run.isEmpty && found.all fun step => step.facts.isEmpty then none
  else
    let ok := (found.filter fun step =>
      wording.lower ((step.facts.lookup "status").elim "" wording.str) = callOk).length
    let recorded := found.any fun step => (step.facts.said wording "status").isSome
    let stale := ((found.filter (Step.outOfDate wording now)).map Step.name).eraseDups
    let counted :=
      if recorded then toString ok ++ " of " ++ toString found.length ++ " calls succeeded"
      else "no call status recorded"
    let late :=
      if stale = [] then []
      else ["out of date now: " ++ ", ".intercalate stale ++ " (fetch again for current values)"]
    some
      ("Evidence: " ++ "; ".intercalate (counted :: sources wording found :: late) ++
        ". How sure, from this record: " ++
        grade wording found run ok recorded (!stale.isEmpty) ++ ".")

def stepsList : String :=
  let found := steps turn
  if found.isEmpty then ""
  else
    let lines := found.zipIdx.map fun (step, n) =>
      step.line wording (n + 1) ((found.take n).map Step.result)
    let run := facts (turn.getLast?.bind fun piece => piece.messages.getLast?)
    let told := ", ".intercalate
      ([ (run.said wording "status").map fun status => "status " ++ wording.str status,
         seconds wording run,
         said "approvals" (run.lookup "approvals") ].reduceOption.filter (· ≠ ""))
    let head := "For " ++ asked wording turn ++ " (" ++ toString lines.length ++
      (if lines.length = 1 then " call):" else " calls):")
    "\n".intercalate
      (head :: lines ++ (if told = "" then [] else ["The run: " ++ told ++ "."]) ++
        (evidence wording now found run).toList)

structure WindowMessage where
  messageId : String
  role : String
  text : String
  toolCalls : List MessageToolCall := []
  toolCallId : Option String := none
  runRecord : Option Facts := none

def shown (m : Message) (calls : Bool) : WindowMessage where
  messageId := m.messageId
  role := m.role.value
  text := m.content
  toolCalls := if calls then m.toolCalls else []
  toolCallId := if calls then m.toolCallId else none
  runRecord := let found := facts (some m); if found.isEmpty then none else some found

/-- A turn's three forms. -/
structure Layers where
  steps : Option String
  text : List Message
  whole : List Message

def Layers.of : Layers :=
  let messages := turn.flatMap Piece.messages
  let list := stepsList wording now turn
  { steps := if list = "" then none else some list
    text := messages.filter fun m => m.role ≠ .tool && m.content ≠ ""
    whole := messages }

namespace Layers

variable (layers : Layers)

def stepsCost : ℤ := layers.steps.elim 0 fun list => estimateTokens list

def textCost : ℤ :=
  (layers.text.map fun m => messageTokens { m with toolCalls := [] }).foldr (· + ·) 0

def wholeCost : ℤ := (layers.whole.map messageTokens).foldr (· + ·) 0 - layers.textCost

def messages (text whole : Bool) : List WindowMessage :=
  (if whole then layers.whole else if text then layers.text else []).map (shown · whole)

end Layers

end

section

variable (budget : ℤ)

def coresOf : List Layers → Nat → ℤ → Nat × ℤ
  | [], kept, used => (kept, used)
  | turn :: rest, kept, used =>
    let core := if turn.steps.isSome then turn.stepsCost else turn.textCost
    if budget < used + core then (kept, used) else coresOf rest (kept + 1) (used + core)

/-- How many turns give their core, the newest always and its text too, and the tokens
used. -/
def cores (newest : Layers) (older : List Layers) : Nat × ℤ :=
  coresOf budget older 1 (newest.stepsCost + newest.textCost)

def textsOf : List Layers → Nat → ℤ → Nat × ℤ
  | [], texts, used => (texts, used)
  | turn :: rest, texts, used =>
    if turn.steps.isSome then
      if budget < used + turn.textCost then (texts, used)
      else textsOf rest (texts + 1) (used + turn.textCost)
    else textsOf rest (texts + 1) used

def texts (older : List Layers) (kept : Nat) (used : ℤ) : Nat × ℤ :=
  textsOf budget (older.take (kept - 1)) 1 used

end

def shownTurns (layers : List Layers) (texts : Nat) (full : Bool) : List WindowMessage :=
  layers.zipIdx.reverse.flatMap fun (turn, n) => turn.messages (n < texts) (n = 0 && full)

inductive WindowFormat where
  | rendered
  | messages
  deriving DecidableEq

structure ConversationWindow where
  threadId : Option String := none
  messageIds : List String := []
  messages : List WindowMessage := []
  rendered : String := ""
  tokenEstimate : ℤ := 0
  form : WindowFormat := .rendered
  overBudget : Bool := false
  record : String := ""

/-- The last `max_turns` turns. -/
def newestTurns (found : List Turn) : Option ℤ → List Turn
  | none => found
  | some maxTurns =>
    if 0 < maxTurns then found.drop (found.length - maxTurns.toNat) else []

def replayWindow (wording : Wording) (threadId : String) (messages : List Message)
    (tokenBudget : ℤ) (maxTurns : Option ℤ) (now : Instant) : ConversationWindow :=
  let pieces := (units (messages.filter replayable)).filterMap whole
  let found := newestTurns (fromAQuestion (turns pieces)) maxTurns
  match found.reverse.map (Layers.of wording now) with
  | [] => { threadId := some threadId, form := .messages }
  | newest :: older =>
    let (kept, usedCores) := cores tokenBudget newest older
    let (texts, usedTexts) := texts tokenBudget older kept usedCores
    let full := newest.steps.isSome && usedTexts + newest.wholeCost ≤ tokenBudget
    let used := if full then usedTexts + newest.wholeCost else usedTexts
    let given := (newest :: older).take kept
    let messages := shownTurns given texts full
    { threadId := some threadId
      messageIds := messages.map WindowMessage.messageId
      messages
      record := "\n\n".intercalate (given.reverse.filterMap Layers.steps)
      rendered := "\n".intercalate
        ((messages.filter fun m => m.text ≠ "").map fun m => m.role ++ ": " ++ m.text)
      tokenEstimate := used
      form := .messages
      overBudget := tokenBudget < used }

end MemoryService.Context
