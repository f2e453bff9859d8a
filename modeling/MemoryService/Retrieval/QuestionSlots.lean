import MemoryService.Retrieval.Duplicates
import Mathlib.Data.Finset.Sort
import Mathlib.Data.Finset.Union

/-!
# What a question asks for

A question names things, by their names and identifiers, and asks with words of its own.
-/

namespace MemoryService.Retrieval.Slots

open Foundation Duplicates

structure Anchors where
  names : Finset Text
  ids : Finset (Text × Text)

structure Reader where
  unicode : Unicode
  detectLanguage : Text → String
  contentTerms : Text → Finset Text
  stemmedTerms : Finset Text → String → Finset Text
  functionWords : String → Finset Text
  labelWords : Finset Text
  questionNames : Text → String → Finset Text
  anchors : Text → String → Anchors
  /-- a stop after a digit set apart from it -/
  unstopped : Text → Text
  isdigit : Char → Bool
  isupper : Char → Bool
  numbers : Text → List Text
  /-- the capitalised words that open no sentence, in lower case -/
  capitalised : Text → Finset Text
  asksLatest : Text → Bool
  latestWord : Text → Bool
  asksPast : Text → Bool
  asksMany : Text → Bool
  timeQualifiers : Text → Finset (String × String)

def oneOf (words : List String) (word : Text) : Prop := String.ofList word ∈ words
deriving Decidable

def maxChars : Nat := 2000

def askingWords : List String :=
  ["what", "which", "who", "whom", "whose", "where", "when", "how", "why", "tell", "give", "show",
    "list", "find", "get", "need", "please", "current", "currently", "now", "still", "latest",
    "today", "right", "moment", "these", "days", "welche", "welcher", "welches", "welchen", "wer",
    "wen", "wem", "wo", "wann", "wie", "warum", "gib", "sag", "zeig", "aktuell", "jetzt", "noch",
    "derzeit", "gerade", "momentan", "qué", "que", "cuál", "cuáles", "quién", "quiénes", "dónde",
    "cuándo", "cómo", "dame", "dime", "muestra", "actual", "ahora", "todavía", "sigue", "ما",
    "ماذا", "من", "أين", "متى", "كيف", "لماذا", "هل", "الآن", "حاليا", "حاليًا", "क्या", "कौन",
    "कहाँ", "कब", "कैसे", "क्यों", "अभी", "किस", "किसे", "किसका", "किसकी", "किसके", "कौनसा",
    "कौनसी", "सा", "सी", "أي", "اي", "أيّ", "इस", "समय"]

/-- Determiners and auxiliaries that the languages' function words leave out. -/
def moreFunction : List String :=
  ["dies", "diese", "dieser", "dieses", "diesen", "hat", "hatte", "haben", "wird", "werden",
    "soll", "sollte", "kann", "este", "esta", "estos", "estas", "ha", "han", "tiene", "does",
    "should", "could", "would", "can"]

def nounsCapitalised : List String := ["de"]

def standingWords : List String :=
  ["never", "nie", "niemals", "nunca", "أبدا", "أبدًا", "always", "from", "now", "permanently",
    "every", "time", "whenever", "immer", "jedes", "mal", "siempre", "cada", "vez", "دائما",
    "دائمًا", "हमेशा", "कभी", "नहीं"]

section Reading

variable (reader : Reader)

/-- An inner capital or a digit: `_marked`. -/
def marked (word : Text) : Bool :=
  let letters := word.filter reader.unicode.isAlpha
  (word.any reader.isdigit && letters ≠ []) || 2 ≤ letters.countP reader.isupper

def hasDigit (word : Text) : Bool := word.any reader.isdigit

/-- The words of a text, joined by one space each: `_flat`. -/
def flat (text : Text) : Text :=
  [' '].intercalate
    (((reader.unicode.lower text).splitOnP fun c => !reader.unicode.isWord c).filter (· ≠ []))

def idName (label value : Text) : Text :=
  let label := reader.unicode.lower (label.dropWhile (· = '#'))
  if label = [] ∨ label.isPrefixOf value then value else label ++ value

/-- The spellings of an identifier that name the same thing: `_id_forms`. -/
def idForms (label value : Text) : Finset Text := {value, idName reader label value}

def windowStarts (length step : Nat) : List Nat :=
  (List.range ((length + step - 1) / step)).map (· * step)

/-- `_anchors`: a long text is read in windows. -/
def wholeAnchors (text : Text) (lang : String) : Anchors :=
  let unstopped := reader.unstopped text
  if unstopped.length ≤ maxChars then reader.anchors unstopped lang
  else
    let parts := (windowStarts unstopped.length (maxChars / 2)).map fun i =>
      reader.anchors ((unstopped.drop i).take maxChars) lang
    { names := parts.foldr (fun part names => part.names ∪ names) ∅
      ids := parts.foldr (fun part ids => part.ids ∪ ids) ∅ }

structure Slot where
  ids : Finset (Finset Text)
  names : Finset Text
  asked : List (Finset Text)
  lang : String
  latest : Bool

variable (slot : Slot)

def Slot.anchored : Bool := slot.ids ≠ ∅ ∨ slot.names ≠ ∅

/-- How many asked words a statement must share. -/
def Slot.needed : Nat := if slot.anchored then 1 else slot.asked.length

/-- There is something to look for. -/
def Slot.asks : Bool := slot.asked ≠ [] ∧ (slot.anchored ∨ 2 ≤ slot.asked.length ∨ slot.latest)

/-- `_asked_words`. -/
def askedWords (question : Text) (lang : String) (names : Finset Text) : Finset Text :=
  let labels := ((reader.anchors (reader.unstopped question) lang).ids.filter
    fun id => id.1 ≠ []).image fun id => id.1.dropWhile (· = '#')
  let named := names.biUnion (fun n => (split reader.unicode n).toFinset) ∪ labels
  (reader.contentTerms question).filter fun w =>
    ¬oneOf askingWords w ∧ w ∉ reader.labelWords ∧ w ∉ reader.functionWords lang ∧
      ¬oneOf moreFunction w ∧ ¬reader.latestWord w ∧ w ∉ named ∧ ¬hasDigit reader w

def questionSlot (question : Text) : Slot :=
  let lang := reader.detectLanguage question
  let found := reader.questionNames question lang
  -- where nouns are capitalised, only what is marked as a name is one
  let names :=
    if lang ∈ nounsCapitalised then
      found.filter fun n => (split reader.unicode n).any (marked reader)
    else found
  { ids := (wholeAnchors reader question lang).ids.image fun id => idForms reader id.1 id.2
    names
    asked := ((askedWords reader question lang names).sort fun a b => a ≤ b).map fun w =>
      reader.stemmedTerms {w} lang
    lang
    latest := reader.asksLatest question }

/-- `_shares`. -/
def shares (forms stems : Finset Text) : Bool :=
  (forms ∩ stems).Nonempty ∨ ∃ f ∈ forms, ∃ w ∈ stems, 4 ≤ f.length ∧ (f <:+ w ∨ f <+: w)

variable (text : Text)

/-- `_names_in`. -/
def namesIn : Bool := ∀ n ∈ slot.names, [' '].intercalate (split reader.unicode n) <:+: text

/-- `_asked_in`. -/
def askedIn : Bool :=
  let stems := reader.stemmedTerms (reader.contentTerms text) slot.lang
  slot.needed ≤ slot.asked.countP fun forms => shares forms stems

/-- What a statement says about a slot. -/
structure Reading where
  namesAll : Bool
  asks : Bool
  /-- what it holds that the question does not name -/
  values : Finset Text

def Slot.askedIds : Finset Text := slot.ids.biUnion id

/-- `read`. -/
def read : Reading :=
  let found := wholeAnchors reader text slot.lang
  let held := found.ids.biUnion fun said => idForms reader said.1 said.2
  let otherIds := (found.ids.filter fun said =>
    idForms reader said.1 said.2 ∩ slot.askedIds = ∅).image fun said => idName reader said.1 said.2
  let numbers := (reader.numbers text).filter fun n => ¬∃ value ∈ slot.askedIds, n <:+: value
  { namesAll := (∀ forms ∈ slot.ids, (forms ∩ held).Nonempty) ∧
      namesIn reader slot (flat reader text)
    asks := askedIn reader slot text
    values := otherIds ∪ (found.names \ slot.names) ∪
      (numbers.map fun n => n.map fun c => if c = ',' then '.' else c).toFinset }

/-- `_may_hold`. -/
def mayHold : Bool := namesIn reader slot (flat reader text) && askedIn reader slot text

def qualified (question text : Text) : Bool :=
  ∀ said ∈ reader.timeQualifiers text, ∀ asked ∈ reader.timeQualifiers question,
    said.2 = asked.2 → said.1 = asked.1

/-- `slots._frame`: a statement's content words without its values. -/
def slotFrame (lang : String) (values : Finset Text) : Finset Text :=
  let held := values.biUnion fun value => (split reader.unicode value).toFinset
  reader.stemmedTerms
    ((reader.contentTerms text).filter fun w => w ∉ held ∧ ¬hasDigit reader w) lang

/-- Half of the words of the shorter frame at least are in the other. -/
def sameSubject (first second : Finset Text) : Bool :=
  let shorter := min first.card second.card
  shorter ≠ 0 ∧ shorter ≤ 2 * (first ∩ second).card

/-- `standing._frame`: what a statement says, without what it says it about. -/
def frame (lang : String) : Finset Text :=
  let words := (reader.contentTerms text).filter fun w =>
    w ∉ reader.labelWords ∧ ¬hasDigit reader w ∧ ¬oneOf standingWords w
  (reader.stemmedTerms (words \ reader.capitalised text) lang).filter fun w =>
    ¬oneOf standingWords w

def frameOf : Finset Text := frame reader text (reader.detectLanguage text)

end Reading

end MemoryService.Retrieval.Slots
