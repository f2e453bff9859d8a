import MemoryService.Memory.Consolidation
import MemoryService.Retrieval.Duplicates

/-!
# What a rendering would only repeat

A memory is left out whose sources the window shows, or whose words another memory of the same
message contains, and a `mentions` fact whose object the shown text names.
-/

namespace MemoryService.Context.Rendering

open Domain Foundation List
open Retrieval.Duplicates (Text split)

structure EvidenceRef extends Domain.EvidenceRef where
  messageId : Option String := none
  deriving DecidableEq

structure Attributes where
  subject : String := ""
  predicate : String := ""
  object : Text := []
  /-- none where the attribute is there and has no value -/
  observedAt : Option String := some ""
  derived : Bool := false
  earlierValue : Bool := false
  sourceObservedTo : Bool := false
  category : Option String := none
  provider : Option String := none
  datedMentions : List (Text × Text) := []
  deriving DecidableEq

structure ContextItem where
  itemId : String
  text : Text
  evidence : List EvidenceRef := []
  attributes : Attributes := {}
  deriving DecidableEq

def ContextItem.sources (m : ContextItem) : List String :=
  m.evidence.filterMap fun e => e.messageId.filter (· ≠ "")

structure ConversationWindow where
  messageIds : List String := []
  rendered : Text := []

structure ContextBundle where
  conversation : ConversationWindow := {}
  memories : List ContextItem := []
  graphFacts : List ContextItem := []
  summaries : List ContextItem := []
  knowledge : List ContextItem := []
  history : List ContextItem := []
  distinct :
    ((memories ++ graphFacts ++ summaries ++ knowledge ++ history).map
      ContextItem.itemId).Nodup := by decide

namespace ContextBundle

variable (bundle : ContextBundle)

theorem memories_distinct : (bundle.memories.map ContextItem.itemId).Nodup := by
  have distinct := bundle.distinct
  simp only [map_append, append_assoc] at distinct
  exact distinct.of_append_left

theorem facts_distinct : (bundle.graphFacts.map ContextItem.itemId).Nodup := by
  have distinct := bundle.distinct
  simp only [map_append, append_assoc] at distinct
  exact distinct.of_append_right.of_append_left

variable {m f : ContextItem}

theorem memory_ne_fact (isMemory : m ∈ bundle.memories)
    (isFact : f ∈ bundle.graphFacts) : m.itemId ≠ f.itemId := by
  have distinct := bundle.distinct
  simp only [map_append, append_assoc] at distinct
  have apart := disjoint_of_nodup_append distinct
  intro same
  apply apart (mem_map_of_mem isMemory)
  rw [same]
  exact mem_append_left _ (mem_map_of_mem isFact)

end ContextBundle

theorem eq_of_itemId {items : List ContextItem}
    (distinct : (items.map ContextItem.itemId).Nodup) {other : ContextItem}
    (member : m ∈ items) (isOther : other ∈ items) (same : m.itemId = other.itemId) :
    m = other :=
  inj_on_of_nodup_map distinct member isOther same

def mentionsPredicate : String := "mentions"

section Redundant

variable (unicode : Unicode)

/-- `str.casefold`. -/
def folded (text : Text) : Text := text.flatMap unicode.casefold

/-- The words of an item, whatever their case and the white space between them. -/
def norm (m : ContextItem) : Text := [' '].intercalate (split unicode (folded unicode m.text))

/-- Another memory of the same message that is still shown has these words and more. -/
def holds (out found : List String) (m other : ContextItem) : Bool :=
  other.itemId ≠ m.itemId ∧ other.itemId ∉ out ∧ other.itemId ∉ found ∧
    (∃ source ∈ m.sources, source ∈ other.sources) ∧
      (norm unicode m).length < (norm unicode other).length ∧ norm unicode m <:+: norm unicode other

def contain (memories : List ContextItem) (out found : List String) (m : ContextItem) :
    List String :=
  if m.itemId ∈ out ∨ m.sources = [] ∨ norm unicode m = [] then found
  else if memories.any (holds unicode out found m) then found ++ [m.itemId]
  else found

/-- `_contained`. -/
def contained (memories : List ContextItem) (out : List String) : List String :=
  memories.foldl (contain unicode memories out) []

namespace ContextBundle

variable (bundle : ContextBundle)

/-- All sources of a memory are messages that the window shows. -/
def Heard (m : ContextItem) : Prop :=
  m.sources ≠ [] ∧ ∀ source ∈ m.sources, source ∈ bundle.conversation.messageIds
deriving Decidable

def heard : List String := (bundle.memories.filter (bundle.Heard ·)).map ContextItem.itemId

def unshown : List String := bundle.heard ++ contained unicode bundle.memories bundle.heard

def shownTexts : List Text :=
  bundle.conversation.rendered ::
    ((bundle.memories.filter fun m => m.itemId ∉ bundle.unshown unicode).map
      ContextItem.text ++ bundle.history.map ContextItem.text)

def said : Text := folded unicode ([' '].intercalate (bundle.shownTexts unicode))

def named (f : ContextItem) : Text := folded unicode f.attributes.object

def redundant : List String :=
  bundle.unshown unicode ++
    (bundle.graphFacts.filter fun f =>
      f.attributes.predicate = mentionsPredicate ∧ named unicode f ≠ [] ∧
        named unicode f <:+: bundle.said unicode).map ContextItem.itemId

end ContextBundle

def Names (phrase text : Text) : Prop :=
  ∃ place ∈ List.range (text.length + 1),
    phrase <+: text.drop place ∧ ((text.take place).getLast?.any unicode.isWord) = false ∧
      ((text.drop (place + phrase.length)).head?.any unicode.isWord) = false
deriving Decidable

def ContextBundle.NamesObject (bundle : ContextBundle) (f : ContextItem) : Prop :=
  ∃ text ∈ bundle.shownTexts unicode,
    Names unicode (ContextBundle.named unicode f) (folded unicode text)
deriving Decidable

end Redundant

section Shown

variable {unicode : Unicode}

theorem longer_of_mem {memories : List ContextItem} {out : List String} {id : String}
    (items : List ContextItem) (found : List String)
    (member : id ∈ items.foldl (contain unicode memories out) found) :
    id ∈ found ∨ ∃ m ∈ items, m.itemId = id ∧ m.itemId ∉ out ∧
      ∃ other ∈ memories, other.itemId ∉ out ∧
        (norm unicode m).length < (norm unicode other).length ∧
          norm unicode m <:+: norm unicode other := by
  induction items generalizing found with
  | nil => exact .inl member
  | cons m rest ih =>
    rw [foldl_cons] at member
    rcases ih _ member with isFound | ⟨later, isLater, facts⟩
    · rw [contain] at isFound
      split at isFound
      case isTrue => exact .inl isFound
      case isFalse isOpen =>
        split at isFound
        case isFalse => exact .inl isFound
        case isTrue isHeld =>
          rcases mem_append.mp isFound with isEarlier | isThis
          · exact .inl isEarlier
          · obtain ⟨other, isOther, holdsIt⟩ := any_eq_true.mp isHeld
            simp only [holds, decide_eq_true_eq] at holdsIt
            rw [not_or] at isOpen
            exact .inr ⟨m, mem_cons_self, (mem_singleton.mp isThis).symm, isOpen.1,
              other, isOther, holdsIt.2.1, holdsIt.2.2.2.2⟩
    · exact .inr ⟨later, mem_cons_of_mem m isLater, facts⟩

theorem contained_shown {memories : List ContextItem} {out : List String} {m : ContextItem}
    (distinct : (memories.map ContextItem.itemId).Nodup) (isMemory : m ∈ memories)
    (member : m.itemId ∈ contained unicode memories out) :
    ∃ other ∈ memories, other.itemId ∉ out ∧ other.itemId ∉ contained unicode memories out ∧
      norm unicode m <:+: norm unicode other := by
  have longer : ∀ other ∈ memories, other.itemId ∈ contained unicode memories out →
      other.itemId ∉ out ∧ ∃ third ∈ memories, third.itemId ∉ out ∧
        (norm unicode other).length < (norm unicode third).length ∧
          norm unicode other <:+: norm unicode third := by
    intro other isOther isContained
    rcases longer_of_mem memories [] isContained with isNone | ⟨same, isSame, sameId, facts⟩
    · cases isNone
    · rw [eq_of_itemId distinct isSame isOther sameId] at facts
      exact facts
  let candidates := memories.filter fun other =>
    other.itemId ∉ out ∧ norm unicode m <:+: norm unicode other
  have isCandidate : m ∈ candidates :=
    mem_filter.mpr ⟨isMemory, by simpa using (longer m isMemory member).1⟩
  cases isLongest : candidates.argmax fun other => (norm unicode other).length with
  | none => simp [argmax_eq_none.mp isLongest] at isCandidate
  | some longest =>
    obtain ⟨isThere, facts⟩ := mem_filter.mp (argmax_mem isLongest)
    have facts := of_decide_eq_true facts
    refine ⟨longest, isThere, facts.1, fun isContained => ?_, facts.2⟩
    obtain ⟨-, third, isThird, notOut, isLonger, isPart⟩ := longer longest isThere isContained
    have alsoCandidate : third ∈ candidates :=
      mem_filter.mpr ⟨isThird, decide_eq_true ⟨notOut, facts.2.trans isPart⟩⟩
    exact not_lt_of_mem_argmax alsoCandidate isLongest isLonger

namespace ContextBundle

variable {bundle : ContextBundle}

theorem mem_redundant_memory (isMemory : m ∈ bundle.memories) :
    m.itemId ∈ bundle.redundant unicode ↔ m.itemId ∈ bundle.unshown unicode := by
  rw [redundant, mem_append, or_iff_left]
  intro member
  obtain ⟨f, isFact, same⟩ := mem_map.mp member
  exact bundle.memory_ne_fact isMemory (mem_filter.mp isFact).1 same.symm

theorem unshown_subset {id : String} (member : id ∈ bundle.unshown unicode) :
    ∃ m ∈ bundle.memories, m.itemId = id := by
  rcases mem_append.mp member with isHeard | isContained
  · obtain ⟨m, isMemory, same⟩ := mem_map.mp isHeard
    exact ⟨m, (mem_filter.mp isMemory).1, same⟩
  · rcases longer_of_mem bundle.memories [] isContained with isNone | ⟨m, isMemory, same, -⟩
    · cases isNone
    · exact ⟨m, isMemory, same⟩

theorem mem_redundant_fact (isFact : f ∈ bundle.graphFacts) :
    f.itemId ∈ bundle.redundant unicode ↔
      f.attributes.predicate = mentionsPredicate ∧ named unicode f ≠ [] ∧
        named unicode f <:+: bundle.said unicode := by
  rw [redundant, mem_append]
  constructor
  · rintro (isUnshown | isNamed)
    · obtain ⟨m, isMemory, same⟩ := unshown_subset isUnshown
      exact absurd same (bundle.memory_ne_fact isMemory isFact)
    · obtain ⟨other, isOther, same⟩ := mem_map.mp isNamed
      obtain ⟨otherFact, facts⟩ := mem_filter.mp isOther
      rw [eq_of_itemId bundle.facts_distinct otherFact isFact same] at facts
      exact of_decide_eq_true facts
  · intro facts
    exact .inr (mem_map_of_mem (mem_filter.mpr ⟨isFact, decide_eq_true facts⟩))

theorem memory_repeated (isMemory : m ∈ bundle.memories)
    (leftOut : m.itemId ∈ bundle.redundant unicode) :
    bundle.Heard m ∨ ∃ other ∈ bundle.memories, other.itemId ∉ bundle.redundant unicode ∧
      norm unicode m <:+: norm unicode other := by
  rw [mem_redundant_memory isMemory, unshown, mem_append] at leftOut
  rcases leftOut with isHeard | isContained
  · obtain ⟨other, isOther, same⟩ := mem_map.mp isHeard
    obtain ⟨otherMemory, heard⟩ := mem_filter.mp isOther
    rw [eq_of_itemId bundle.memories_distinct otherMemory isMemory same] at heard
    exact .inl (of_decide_eq_true heard)
  · obtain ⟨other, isOther, notHeard, notContained, isPart⟩ :=
      contained_shown bundle.memories_distinct isMemory isContained
    refine .inr ⟨other, isOther, ?_, isPart⟩
    rw [mem_redundant_memory isOther, unshown, mem_append, not_or]
    exact ⟨notHeard, notContained⟩

end ContextBundle

end Shown

end MemoryService.Context.Rendering
