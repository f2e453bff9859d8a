import Mathlib.Data.Finset.Prod
import MemoryService.Domain.Memory
import MemoryService.Foundation.Binary64
import MemoryService.Foundation.Dict
import MemoryService.Foundation.IgnoredCase

/-!
# How two statements relate

Two statements are about one thing when they share a name or an identifier, and about two when
they label one kind of thing with different identifiers and share no other name.
-/

namespace MemoryService.Memory.Relating

open Domain Foundation Foundation.Regex

structure Anchors where
  names : Finset String := ∅
  ids : Finset (String × String) := ∅
  bare : Finset String := ∅

namespace Anchors

variable (anchors : Anchors)

def labels : Finset String := (anchors.ids.image Prod.fst).filter (· ≠ "")

def labelled (label : String) : Finset String :=
  (anchors.ids.filter fun id => id.1 = label).image Prod.snd

def values : Finset String := anchors.ids.image Prod.snd

end Anchors

structure Relation where
  sharedName : Bool
  sharedId : Bool
  apart : Bool
  valueChanged : Bool := false
  sharedSlot : Bool := false

def Relation.anchored (relation : Relation) : Bool :=
  relation.sharedName || relation.sharedId || relation.sharedSlot

def startsWithHash (label : String) : Bool := label.toList.head? = some '#'

section

variable (unicode : Unicode)

def findall (pattern : Regex Char) (text : String) : List (List Char) :=
  (pattern.finditer text.toList).map Match.text

/-- `\S+` -/
def nonspaces : Regex Char := plus (one fun c => !unicode.isSpace c)

def digitRun : Regex Char := plus (digit unicode)

/-- `_NUMBER` -/
def numberPattern : Regex Char :=
  .seq (digitRun unicode) (.star (.seq (one ['.', ','].contains) (digitRun unicode)))

def labelPattern : Regex Char :=
  all [.group 1 (nonspaces unicode), spaces unicode,
    .ahead true (.seq (.star (one fun c => unicode.isWord c || c == '-')) (digit unicode))]

variable (text : String)

/-- `str.split` -/
def split : Finset String := ((findall (nonspaces unicode) text).map String.ofList).toFinset

def numbers : Finset String :=
  ((findall (numberPattern unicode) text).map fun number =>
    String.ofList (number.filter (· ≠ ','))).toFinset

def digitRuns : Finset String := ((findall (digitRun unicode) text).map String.ofList).toFinset

def codeLabels : Finset String :=
  (((labelPattern unicode).finditer text.toList).map fun found =>
    String.ofList (unicode.lower ((found.group 1).getD []))).toFinset

def labelWords (label : String) : Finset String :=
  split unicode (String.ofList (label.toList.dropWhile (· = '#')))

end

def codes (anchors : Anchors) : Finset String :=
  (anchors.ids.filter fun id => startsWithHash id.1).image Prod.snd

/-- The labels that both use for different things, and `#` when each names codes of its own. -/
def clashing (new old : Anchors) : Finset String :=
  ((new.labels ∩ old.labels).filter fun label =>
      new.labelled label ∩ old.labelled label = ∅ ∧ startsWithHash label = false) ∪
    if (codes new).Nonempty ∧ (codes old).Nonempty ∧ codes new ∩ codes old = ∅ then {"#"} else ∅

/-- A shorter name is a run of the words of a longer one, and more than one word. -/
def RunOf (short long : String) : Prop :=
  short ≠ long ∧ (' ' :: short.toList ++ [' ']) <:+: (' ' :: long.toList ++ [' ']) ∧
    ' ' ∈ short.toList
deriving Decidable

def byLength (names : String × String) : String × String :=
  if names.1.length ≤ names.2.length then names else (names.2, names.1)

def commonNames (a b : Finset String) : Finset String :=
  (a ∩ b) ∪ (((a ×ˢ b).image byLength).filter fun names => RunOf names.1 names.2).image Prod.fst

section

variable (unicode : Unicode)

def changed (newText oldText : String) (ids : Finset (String × String)) : Bool :=
  let named := (ids.filter fun id => id.2.toList.any unicode.isAlpha).biUnion fun id =>
    digitRuns unicode id.2
  let a := numbers unicode newText \ named
  let b := numbers unicode oldText \ named
  decide (a \ b).Nonempty && decide (b \ a).Nonempty

variable (new old : Anchors) (newText oldText : String)

def common : Finset String :=
  (commonNames new.names old.names ∪ (new.bare ∩ old.bare)).filter fun name =>
    name ∉ codeLabels unicode newText ∪ codeLabels unicode oldText

def rescuing : Finset String :=
  (common unicode new old newText oldText).filter fun name =>
    split unicode name ∩ (clashing new old).biUnion (labelWords unicode) = ∅

def relate : Relation :=
  let shared := decide (new.values ∩ old.values).Nonempty
  let clashes := decide (clashing new old).Nonempty
  let rescued := decide (rescuing unicode new old newText oldText).Nonempty
  let named := decide (common unicode new old newText oldText).Nonempty && (!clashes || rescued)
  let anchored := named || shared
  { sharedName := named
    sharedId := shared
    apart := clashes && !shared && !rescued
    valueChanged :=
      anchored && (newText ≠ "" && oldText ≠ "") &&
        changed unicode newText oldText (new.ids ∪ old.ids) }

end

inductive StatementKind where
  | fact
  | rule
  | conditionalRule
  | status
  | correction
  | lifecycle
  deriving DecidableEq

def changeKinds : List (StatementKind × String) :=
  [(.correction, "CORRECTION"), (.lifecycle, "LIFECYCLE"), (.status, "STATUS")]

def relatedCosine : Rat := 1 / 2

structure Thresholds where
  earlier : Rat := Binary64.round (17 / 20)
  change : Rat := Binary64.round (2 / 5)
  supersede : Rat := Binary64.round (9 / 10)

structure PairScores where
  cosine : Option Rat := none
  contradiction : Rat := 0

structure Decision where
  grade : Option Grade
  score : Rat
  reason : String

/-- Worth asking about. -/
def related (relation : Relation) (cosine : Option Rat) : Bool :=
  if relation.apart then false
  else relation.anchored || cosine.any (relatedCosine ≤ ·)

/-- The grade that a new statement gives an old one; `decimals` writes a score with two. -/
def decide_ (decimals : Rat → String) (relation : Relation) (scores : PairScores)
    (kinds : List (Option StatementKind)) (t : Thresholds) : Decision :=
  if related relation scores.cosine = false then
    { grade := none, score := 0, reason := "not about the same thing" }
  else
    let c := scores.contradiction
    let contradiction := "contradiction " ++ decimals c
    if t.supersede ≤ c then { grade := some .superseded, score := c, reason := contradiction }
    else if t.earlier ≤ c then { grade := some .earlier, score := c, reason := contradiction }
    else
      let change := (changeKinds.filter fun kind => kinds.contains (some kind.1)).map Prod.snd ++
        if relation.valueChanged then ["a changed value"] else []
      if change ≠ [] ∧ relation.anchored = true ∧ t.change ≤ c then
        { grade := some .earlier, score := c,
          reason := "/".intercalate change ++ " about the same thing (" ++ decimals c ++ ")" }
      else { grade := none, score := c, reason := contradiction }

/-- The values that readings give the single-valued slots of their subjects. -/
abbrev Slots := Dict (String × String) (Finset String)

/-- A slot both name, with no value in common. -/
def slotChanged (new old : Slots) : Bool :=
  new.items.any fun entry => (old.get? entry.1).any fun held => entry.2 ∩ held = ∅

structure Said where
  memory : CanonicalMemory
  lang : Option String := none

namespace Said

def content (said : Said) : String := said.memory.content

end Said

structure StatementReader where
  anchors : String → Option String → Anchors
  spokenSlots : String → Slots
  slotsOf : List Said → Slots
  links : Said → Said → Bool
  isRule : Said → Bool
  cosine : Option (String → String → Rat)

namespace StatementReader

variable (reader : StatementReader)

def slotsBySource (memories : List Said) (source : EvidenceRef) : Slots :=
  match memories.filter fun said => said.memory.evidence.contains source with
  | [] => ∅
  | ofSource => reader.slotsOf ofSource

def slotsChanged (unit old : Said) (newSlots : Slots) (oldSlots : EvidenceRef → Slots) : Bool :=
  (old.memory.evidence.any fun source => slotChanged newSlots (oldSlots source)) ||
    slotChanged (reader.spokenSlots unit.content) (reader.spokenSlots old.content)

def slotRelation (relation : Relation) (unit old : Said) (newSlots : Slots)
    (oldSlots : EvidenceRef → Slots) : Relation :=
  if reader.slotsChanged unit old newSlots oldSlots then
    { sharedName := relation.sharedName
      sharedId := relation.sharedId
      apart := false
      valueChanged := true
      sharedSlot := true }
  else relation

end StatementReader

structure Pair where
  unit : Said
  old : Said
  relation : Relation
  cosine : Option Rat := none

inductive Offer where
  | passed
  | offered (pair : Pair)
  | pending (pair : Pair)

def Pair.offer (pair : Pair) (linked ruled : Bool) : Offer :=
  if pair.relation.apart then .passed
  else if pair.relation.anchored && !pair.relation.sharedSlot && linked then .passed
  else if pair.relation.anchored then .offered pair
  else if !ruled then .pending pair
  else .passed

namespace StatementReader

variable (reader : StatementReader) (unicode : Unicode)

def ofAnchors (unit old : Said) : Relation :=
  relate unicode (reader.anchors unit.content unit.lang) (reader.anchors old.content old.lang)
    unit.content old.content

def offer (unit old : Said) (newSlots : Slots) (oldSlots : EvidenceRef → Slots) : Offer :=
  if unit.memory.temporal.observedAt < old.memory.temporal.observedAt then .passed
  else if old.memory.normalizedHash = unit.memory.normalizedHash then .passed
  else
    let relation :=
      reader.slotRelation (reader.ofAnchors unicode unit old) unit old newSlots oldSlots
    Pair.offer { unit, old, relation } (reader.links unit old)
      (reader.isRule old || reader.isRule unit)

def closeEnough (pending : List Pair) : List Pair :=
  match reader.cosine with
  | none => []
  | some cosine =>
    (pending.map fun pair =>
      { pair with cosine := some (cosine pair.unit.content pair.old.content) }).filter
        fun pair => pair.cosine.any (relatedCosine ≤ ·)

/-- `_related`: the pairs that are offered to the decision. -/
def relatedPairs (units earlier : List Said) (newSlots : Slots) (closed : List Said) :
    List Pair :=
  let oldSlots := reader.slotsBySource (earlier ++ closed)
  let offers := units.flatMap fun unit => earlier.map fun old =>
    reader.offer unicode unit old newSlots oldSlots
  (offers.filterMap fun offer =>
      match offer with
      | .offered pair => some pair
      | _ => none) ++
    reader.closeEnough (offers.filterMap fun offer =>
      match offer with
      | .pending pair => some pair
      | _ => none)

end StatementReader

end MemoryService.Memory.Relating
