import MemoryService.Context.Repeated
import MemoryService.Foundation.Lines
import Mathlib.Algebra.BigOperators.Group.List.Basic
import Mathlib.Algebra.GroupWithZero.Nat

/-!
# The lines that show a memory

The best-ranked memories stand at the head, each with the memories of its sources; the timeline
shows the others by their dates and gathers the values of one slot into one block.
-/

namespace MemoryService.Context.Rendering

open Domain Foundation List
open Retrieval.Duplicates (Text)

def mostRelevantMax : Nat := 30

def mostRelevantShare : Rat := 0

def shownAbove : String := "(see Most relevant)"

def groupBySource : Bool := true

def aggregateMinMembers : Nat := 2

/-- The prefix of a section, and the place in it from 1. -/
structure Handle where
  kind : Char
  number : Nat

def Handle.text (handle : Handle) : Text := handle.kind :: (toString handle.number).toList

def numbered (kind : Char) (items : List ContextItem) : List (Handle × String) :=
  (items.zipIdx 1).map fun (item, i) => (⟨kind, i⟩, item.itemId)

def ContextBundle.handles (bundle : ContextBundle) : List (Handle × String) :=
  numbered 'm' bundle.memories ++ numbered 'f' bundle.graphFacts ++
    numbered 's' bundle.summaries ++ numbered 'd' bundle.knowledge ++ numbered 'h' bundle.history

def ContextBundle.refs (bundle : ContextBundle) (itemId : String) : Option Handle :=
  (bundle.handles.reverse.find? fun entry => entry.2 = itemId).map Prod.fst

def mostRelevantCount (total : Nat) : Nat :=
  max mostRelevantMax ((total : Rat) * mostRelevantShare).ceil.toNat

def sourceIds (m : ContextItem) : List (EvidenceSource × String) :=
  firstSeen id ((m.evidence.filter fun e => e.sourceId ≠ "").map fun e =>
    (e.sourceType, e.sourceId))

/-- `by_source[sid]`. -/
def siblings (memories : List ContextItem) (sid : EvidenceSource × String) :
    List ContextItem :=
  memories.filter fun m => sid ∈ sourceIds m

/-- The head is full, or has the memory. -/
def Closed (count : Nat) (head : List ContextItem) (m : ContextItem) : Prop :=
  count ≤ head.length ∨ m.itemId ∈ head.map ContextItem.itemId
deriving Decidable

def admitted (count : Nat) (head : List ContextItem) (m : ContextItem) : List ContextItem :=
  if Closed count head m then head else head ++ [m]

def lead (memories : List ContextItem) (count : Nat) (head : List ContextItem)
    (m : ContextItem) : List ContextItem :=
  if Closed count head m then head
  else
    (sourceIds m).foldl (fun head sid => (siblings memories sid).foldl (admitted count) head)
      (head ++ [m])

def headWithSiblings (memories : List ContextItem) (count : Nat) : List ContextItem :=
  if groupBySource then memories.foldl (lead memories count) []
  else memories.take count

inductive Line where
  /-- a memory by itself, or where it is shown -/
  | own (m : ContextItem) (above : Bool)
  /-- the memories of one slot -/
  | gathered (key : String × String) (members : List ContextItem)
  deriving DecidableEq

def spaced (parts : List Text) : Text := [' '].intercalate (parts.filter (· ≠ []))

def resolvedDates (m : ContextItem) : Text :=
  let pairs := (m.attributes.datedMentions.filter fun mention =>
    mention.1 ≠ [] ∧ mention.2 ≠ []).map fun mention => mention.1 ++ " = ".toList ++ mention.2
  if pairs = [] then [] else '(' :: "; ".toList.intercalate pairs ++ [')']

def unverified (m : ContextItem) : Bool :=
  Memory.Consolidation.unverifiedRepresentation m.attributes.category m.attributes.provider

def unverifiedMark : String := "model-extracted, unverified; source speaker"

def predicateLabel (predicate : String) : Text :=
  predicate.toList.map fun c => if c = '_' then ' ' else c

section Texts

-- the day and the weekday of an instant, where its text is one
variable (parsed : String → Option (Text × Text)) (refs : String → Option Handle)

/-- `_observed`. -/
def observed (m : ContextItem) : Text × Text :=
  let raw := m.attributes.observedAt.getD ""
  (parsed raw).getD (raw.toList.take 10, [])

def refText (itemId : String) : Text := (refs itemId).elim [] Handle.text

def memoryLine (m : ContextItem) (ref : Text) (body : Option Text) : Text :=
  let subject := m.attributes.subject.toList
  let who := if "user:".toList.isPrefixOf subject then subject.drop 5 else []
  spaced
    [ "- [".toList ++ ref ++ [']'],
      if unverified m then unverifiedMark.toList else [],
      if m.attributes.sourceObservedTo then "sources through".toList
        else if m.attributes.derived then "summary created".toList else [],
      (observed parsed m).1,
      (observed parsed m).2,
      if m.attributes.earlierValue then "(earlier value, since replaced)".toList else [],
      if who ≠ [] then who ++ [':'] else [],
      body.getD m.text,
      if body.isNone then resolvedDates m else [] ]

def datedStatement (m : ContextItem) : Text :=
  "[observed ".toList ++ (observed parsed m).1 ++ "] ".toList ++ spaced [m.text, resolvedDates m]

/-- The statements of a block; what is said twice on one day stands once. -/
def statements (members : List ContextItem) : List Text :=
  firstSeen id (members.map (datedStatement parsed))

def aggregateLine (key : String × String) (members : List ContextItem) : Text :=
  let citations := "; ".toList.intercalate
    (firstSeen id (members.map fun m => refText refs m.itemId))
  spaced
      [ "- [".toList ++ citations ++ [']'],
        if members.any unverified then unverifiedMark.toList else [] ] ++ ' ' ::
    (key.1.toList ++ " — ".toList ++ predicateLabel key.2 ++
      " (source statements):\n".toList ++ ['\n'].intercalate (statements parsed members))

namespace Line

def text : Line → Text
  | own m above =>
    memoryLine parsed m (refText refs m.itemId)
      (if above then some shownAbove.toList else none)
  | gathered key members => aggregateLine parsed refs key members

def memories : Line → List ContextItem
  | own m _ => [m]
  | gathered _ members => members

def cites (line : Line) : List Handle := line.memories.filterMap fun m => refs m.itemId

def prints (m : ContextItem) : Line → Nat
  | own other above => if other.itemId = m.itemId ∧ above = false then 1 else 0
  | gathered _ members =>
    if m ∈ members then (statements parsed members).count (datedStatement parsed m) else 0

end Line

end Texts

def isMultiValued (predicate : String) : Bool :=
  predicate ≠ "" ∧ Memory.Consolidation.isSingleValued (some predicate) = false

/-- The slot of a memory that holds one of several values. -/
def aggregateKey (m : ContextItem) : Option (String × String) :=
  if m.attributes.derived then none
  else if m.attributes.subject = "" ∨ isMultiValued m.attributes.predicate = false then none
  else some (m.attributes.subject, m.attributes.predicate)

section Timeline

variable (ordered : List ContextItem) (shown : List String)

/-- The memories of a slot that the head does not show. -/
def group (key : String × String) : List ContextItem :=
  ordered.filter fun m => aggregateKey m = some key ∧ m.itemId ∉ shown

def gatheredKey (m : ContextItem) : Option (String × String) :=
  (if m.itemId ∈ shown then none else aggregateKey m).filter fun key =>
    aggregateMinMembers ≤ (group ordered shown key).length

/-- One memory of the timeline: the lines so far and the slots that have theirs. -/
def timelineStep (state : List Line × List (String × String)) (m : ContextItem) :
    List Line × List (String × String) :=
  match gatheredKey ordered shown m with
  | none => (state.1 ++ [.own m (m.itemId ∈ shown)], state.2)
  | some key =>
    if key ∈ state.2 then state
    else (state.1 ++ [.gathered key (group ordered shown key)], state.2 ++ [key])

def timelineLines : List Line := (ordered.foldl (timelineStep ordered shown) ([], [])).1

end Timeline

namespace ContextBundle

variable (unicode : Unicode) (bundle : ContextBundle)

def shownMemories : List ContextItem :=
  bundle.memories.filter fun m => m.itemId ∉ bundle.redundant unicode

def sortKey (m : ContextItem) : String := m.attributes.observedAt.getD "None"

def memorySections : List (String × List Line) :=
  let memories := bundle.shownMemories unicode
  let ranked := headWithSiblings memories (mostRelevantCount memories.length)
  let ordered := memories.mergeSort fun first second => sortKey first ≤ sortKey second
  if memories = [] then []
  else if ranked.length < memories.length then
    [ ("Most relevant", ranked.map fun m => .own m false),
      ("Memories", timelineLines ordered (ranked.map ContextItem.itemId)) ]
  else [("Memories", timelineLines ordered [])]

def memoryLines : List Line := (bundle.memorySections unicode).flatMap Prod.snd

end ContextBundle

def Heads (memories head : List ContextItem) : Prop :=
  (head.map ContextItem.itemId).Nodup ∧ ∀ m ∈ head, m ∈ memories

variable {memories head : List ContextItem} {m : ContextItem}

theorem heads_append (heads : Heads memories head) (isMemory : m ∈ memories)
    (isNew : m.itemId ∉ head.map ContextItem.itemId) : Heads memories (head ++ [m]) := by
  constructor
  · rw [map_append, map_singleton]
    exact heads.1.append (nodup_singleton _) (by simpa using isNew)
  · intro other member
    rcases mem_append.mp member with isOld | isThis
    · exact heads.2 other isOld
    · rwa [mem_singleton.mp isThis]

theorem heads_admit (count : Nat)
    (heads : Heads memories head) (isMemory : m ∈ memories) :
    Heads memories (admitted count head m) := by
  rw [admitted]
  split
  case isTrue => exact heads
  case isFalse isOpen => exact heads_append heads isMemory (not_or.mp isOpen).2

theorem heads_lead (count : Nat)
    (heads : Heads memories head) (isMemory : m ∈ memories) :
    Heads memories (lead memories count head m) := by
  rw [lead]
  split
  case isTrue => exact heads
  case isFalse isOpen =>
    apply List.foldlRecOn
    · exact heads_append heads isMemory (not_or.mp isOpen).2
    · intro head heads sid _
      apply List.foldlRecOn
      · exact heads
      · intro head heads sibling isSibling
        exact heads_admit count heads (mem_filter.mp isSibling).1

theorem heads_with_siblings {memories : List ContextItem}
    (distinct : (memories.map ContextItem.itemId).Nodup) (count : Nat) :
    Heads memories (headWithSiblings memories count) := by
  rw [headWithSiblings]
  split
  case isTrue =>
    apply List.foldlRecOn
    · exact ⟨nodup_nil, by simp⟩
    · intro head heads m isMemory
      exact heads_lead count heads isMemory
  case isFalse =>
    exact ⟨distinct.sublist ((take_sublist _ _).map _), fun m => mem_of_mem_take⟩

def Line.key : Line → String ⊕ (String × String)
  | .own m _ => .inl m.itemId
  | .gathered key _ => .inr key

@[simp] theorem Line.key_own (m : ContextItem) (above : Bool) :
    (Line.own m above).key = .inl m.itemId := rfl

@[simp] theorem Line.key_gathered (key : String × String) (members : List ContextItem) :
    (Line.gathered key members).key = .inr key := rfl

section Timeline

variable {ordered : List ContextItem} {shown : List String}

def entry (ordered : List ContextItem) (shown : List String) (m : ContextItem) : Line :=
  match gatheredKey ordered shown m with
  | none => .own m (m.itemId ∈ shown)
  | some key => .gathered key (group ordered shown key)

theorem entry_of_none (isAlone : gatheredKey ordered shown m = none) :
    entry ordered shown m = .own m (m.itemId ∈ shown) := by
  rw [entry, isAlone]

theorem entry_of_some {key : String × String}
    (isGathered : gatheredKey ordered shown m = some key) :
    entry ordered shown m = .gathered key (group ordered shown key) := by
  rw [entry, isGathered]

theorem eq_entry_of_key {m other : ContextItem} (isOther : other ∈ ordered)
    (member : m ∈ ordered) (distinct : (ordered.map ContextItem.itemId).Nodup)
    (same : (entry ordered shown other).key = (entry ordered shown m).key) :
    entry ordered shown other = entry ordered shown m := by
  cases isOtherKey : gatheredKey ordered shown other with
  | none =>
    rw [entry_of_none isOtherKey] at same
    cases isKey : gatheredKey ordered shown m with
    | none =>
      rw [entry_of_none isKey] at same
      rw [eq_of_itemId distinct isOther member (Sum.inl.inj same)]
    | some key =>
      rw [entry_of_some isKey] at same
      cases same
  | some otherKey =>
    rw [entry_of_some isOtherKey] at same
    cases isKey : gatheredKey ordered shown m with
    | none =>
      rw [entry_of_none isKey] at same
      cases same
    | some key =>
      rw [entry_of_some isKey] at same
      rw [entry_of_some isOtherKey, entry_of_some isKey, Sum.inr.inj same]

theorem foldl_timeline (first : List ContextItem)
    (distinct : (first.map ContextItem.itemId).Nodup) :
    (first.foldl (timelineStep ordered shown) ([], [])).1 =
        firstSeen Line.key (first.map (entry ordered shown)) ∧
      ∀ key, key ∈ (first.foldl (timelineStep ordered shown) ([], [])).2 ↔
        Sum.inr key ∈ (firstSeen Line.key (first.map (entry ordered shown))).map Line.key := by
  induction first using List.reverseRecOn with
  | nil => simp
  | append_singleton rest m ih =>
    rw [map_append, map_singleton, nodup_append] at distinct
    obtain ⟨restDistinct, -, apart⟩ := distinct
    obtain ⟨sameLines, sameKeys⟩ := ih restDistinct
    rw [foldl_append, foldl_cons, foldl_nil, map_append, map_singleton, firstSeen_concat]
    cases isKey : gatheredKey ordered shown m with
    | none =>
      have isNew : ¬((firstSeen Line.key (rest.map (entry ordered shown))).any fun other =>
          other.key = (entry ordered shown m).key) = true := by
        rw [any_eq_true]
        rintro ⟨line, isLine, same⟩
        obtain ⟨other, isOther, rfl⟩ := mem_map.mp (mem_of_mem_firstSeen isLine)
        rw [entry_of_none isKey] at same
        have same := of_decide_eq_true same
        cases isOtherKey : gatheredKey ordered shown other with
        | none =>
          rw [entry_of_none isOtherKey] at same
          exact apart _ (mem_map_of_mem isOther) _ (mem_singleton_self _) (Sum.inl.inj same)
        | some key =>
          rw [entry_of_some isOtherKey] at same
          cases same
      rw [if_neg isNew, timelineStep, isKey, entry_of_none isKey]
      refine ⟨by rw [sameLines], fun key => ?_⟩
      rw [sameKeys]
      simp
    | some key =>
      have isSeen : ((firstSeen Line.key (rest.map (entry ordered shown))).any fun other =>
          other.key = (entry ordered shown m).key) = true ↔
            key ∈ (rest.foldl (timelineStep ordered shown) ([], [])).2 := by
        rw [sameKeys, entry_of_some isKey, Line.key_gathered, any_eq_true, mem_map]
        exact exists_congr fun line => and_congr_right fun _ => decide_eq_true_iff
      simp only [timelineStep, isKey, isSeen]
      split
      case isTrue => exact ⟨sameLines, sameKeys⟩
      case isFalse =>
        refine ⟨by rw [sameLines, entry_of_some isKey], fun other => ?_⟩
        rw [mem_append, sameKeys, entry_of_some isKey]
        simp

section

variable (distinct : (ordered.map ContextItem.itemId).Nodup)
include distinct

theorem timeline_eq :
    timelineLines ordered shown = firstSeen Line.key (ordered.map (entry ordered shown)) :=
  (foldl_timeline ordered distinct).1

theorem mem_timeline {line : Line} :
    line ∈ timelineLines ordered shown ↔ ∃ m ∈ ordered, entry ordered shown m = line := by
  rw [timeline_eq distinct]
  constructor
  · intro member
    exact mem_map.mp (mem_of_mem_firstSeen member)
  · rintro ⟨m, member, rfl⟩
    have isSeen : ∃ kept ∈ firstSeen Line.key (ordered.map (entry ordered shown)),
        kept.key = (entry ordered shown m).key :=
      exists_firstSeen _ (mem_map_of_mem member)
    obtain ⟨kept, isKept, same⟩ := isSeen
    obtain ⟨other, isOther, rfl⟩ := mem_map.mp (mem_of_mem_firstSeen isKept)
    rwa [← eq_entry_of_key isOther member distinct same]

theorem timeline_nodup :
    (timelineLines ordered shown).Nodup := by
  rw [timeline_eq distinct]
  exact (keys_firstSeen_nodup _ _).of_map

end

end Timeline

section Printed

variable (parsed : String → Option (Text × Text)) (refs : String → Option Handle)
  {ordered : List ContextItem} {shown : List String} {m : ContextItem}

theorem statement_once {members : List ContextItem} (member : m ∈ members) :
    (statements parsed members).count (datedStatement parsed m) = 1 := by
  have distinct : (statements parsed members).Nodup := by
    have keys := keys_firstSeen_nodup id (members.map (datedStatement parsed))
    rwa [map_id] at keys
  have isStated : ∃ kept ∈ statements parsed members, id kept = datedStatement parsed m :=
    exists_firstSeen _ (mem_map_of_mem member)
  obtain ⟨kept, isKept, rfl⟩ := isStated
  exact count_eq_one_of_mem distinct isKept

theorem gatheredKey_eq_some_iff {key : String × String} :
    gatheredKey ordered shown m = some key ↔
      m.itemId ∉ shown ∧ aggregateKey m = some key ∧
        aggregateMinMembers ≤ (group ordered shown key).length := by
  rw [gatheredKey, Option.filter_eq_some_iff, decide_eq_true_iff]
  split
  case isTrue isShown => simp [isShown]
  case isFalse notShown => simp [notShown]

theorem mem_group {key : String × String} :
    m ∈ group ordered shown key ↔ m ∈ ordered ∧ aggregateKey m = some key ∧ m.itemId ∉ shown := by
  simp [group]

theorem prints_entry (member : m ∈ ordered) :
    (entry ordered shown m).prints parsed m = if m.itemId ∈ shown then 0 else 1 := by
  cases isKey : gatheredKey ordered shown m with
  | none =>
    rw [entry_of_none isKey]
    by_cases isShown : m.itemId ∈ shown
    · simp [Line.prints, isShown]
    · simp [Line.prints, isShown]
  | some key =>
    obtain ⟨notShown, isSlot, -⟩ := gatheredKey_eq_some_iff.mp isKey
    have isMember : m ∈ group ordered shown key := mem_group.mpr ⟨member, isSlot, notShown⟩
    rw [entry_of_some isKey, Line.prints, if_pos isMember, if_neg notShown,
      statement_once parsed isMember]

theorem eq_entry_of_prints (distinct : (ordered.map ContextItem.itemId).Nodup)
    (member : m ∈ ordered) {line : Line} (isLine : line ∈ timelineLines ordered shown)
    (isPrinted : line.prints parsed m ≠ 0) : line = entry ordered shown m := by
  obtain ⟨other, isOther, rfl⟩ := (mem_timeline distinct).mp isLine
  cases isKey : gatheredKey ordered shown other with
  | none =>
    rw [entry_of_none isKey, Line.prints, ite_ne_right_iff] at isPrinted
    rw [eq_of_itemId distinct isOther member isPrinted.1.1]
  | some key =>
    rw [entry_of_some isKey, Line.prints, ite_ne_right_iff] at isPrinted
    obtain ⟨-, isSlot, notShown⟩ := mem_group.mp isPrinted.1
    have isLarge := (gatheredKey_eq_some_iff.mp isKey).2.2
    rw [entry_of_some isKey,
      entry_of_some (gatheredKey_eq_some_iff.mpr ⟨notShown, isSlot, isLarge⟩)]

theorem sum_timeline (distinct : (ordered.map ContextItem.itemId).Nodup) (member : m ∈ ordered) :
    ((timelineLines ordered shown).map (Line.prints parsed m)).sum =
      if m.itemId ∈ shown then 0 else 1 := by
  have isEntry : entry ordered shown m ∈ timelineLines ordered shown :=
    (mem_timeline distinct).mpr ⟨m, member, rfl⟩
  have others : ∀ line, line ≠ entry ordered shown m → line ∈ timelineLines ordered shown →
      line.prints parsed m = 0 := by
    intro line isOther isLine
    by_contra isPrinted
    exact isOther (eq_entry_of_prints parsed distinct member isLine isPrinted)
  rw [sum_map_eq_nsmul_single _ _ others,
    count_eq_one_of_mem (timeline_nodup distinct) isEntry, one_nsmul,
    prints_entry parsed member]

theorem sum_head (m : ContextItem) (ranked : List ContextItem) :
    ((ranked.map fun m => Line.own m false).map (Line.prints parsed m)).sum =
      (ranked.map ContextItem.itemId).count m.itemId := by
  induction ranked with
  | nil => rfl
  | cons first rest ih =>
    simp only [map_cons, sum_cons, ih, count_cons, Line.prints, and_true, beq_iff_eq]
    exact Nat.add_comm _ _

theorem infix_spaced {part : Text} {parts : List Text} (member : part ∈ parts) :
    part <:+: spaced parts := by
  by_cases isEmpty : part = []
  · rw [isEmpty]
    exact nil_infix
  · exact infix_intercalate (mem_filter.mpr ⟨member, by simpa using isEmpty⟩)

theorem infix_datedStatement (m : ContextItem) : m.text <:+: datedStatement parsed m := by
  have isPart : m.text <:+: spaced [m.text, resolvedDates m] := infix_spaced (by simp)
  exact isPart.trans (suffix_append _ _).isInfix

theorem infix_memoryLine (m : ContextItem) (ref : Text) :
    m.text <:+: memoryLine parsed m ref none := by
  simp only [memoryLine]
  apply infix_spaced
  simp only [mem_cons, Option.getD_none, true_or, or_true]

theorem text_in_line {line : Line} (isPrinted : line.prints parsed m ≠ 0)
    (same : ∀ other ∈ line.memories, other.itemId = m.itemId → other = m) :
    m ∈ line.memories ∧ m.text <:+: line.text parsed refs := by
  cases line with
  | own other above =>
    rw [Line.prints, ite_ne_right_iff] at isPrinted
    obtain ⟨⟨sameId, rfl⟩, -⟩ := isPrinted
    obtain rfl := same other (by simp [Line.memories]) sameId
    exact ⟨by simp [Line.memories], infix_memoryLine parsed other _⟩
  | gathered key members =>
    rw [Line.prints, ite_ne_right_iff] at isPrinted
    obtain ⟨isMember, isStated⟩ := isPrinted
    refine ⟨isMember, (infix_datedStatement parsed m).trans ?_⟩
    have isStatement := count_pos_iff.mp (Nat.pos_of_ne_zero isStated)
    have inBlock : datedStatement parsed m <:+:
        ['\n'].intercalate (statements parsed members) := infix_intercalate isStatement
    have blockEnds : ['\n'].intercalate (statements parsed members) <:+
        aggregateLine parsed refs key members :=
      (suffix_append _ _).trans <| (suffix_cons _ _).trans <| suffix_append _ _
    exact inBlock.trans blockEnds.isInfix

end Printed

namespace ContextBundle

variable {unicode : Unicode} {bundle : ContextBundle}

theorem ids_numbered (kind : Char) (items : List ContextItem) :
    (numbered kind items).map Prod.snd = items.map ContextItem.itemId := by
  have isItems : (items.zipIdx 1).map Prod.fst = items := zipIdx_map_fst 1 items
  conv_rhs => rw [← isItems]
  rw [numbered, map_map, map_map]
  rfl

theorem handles_distinct (bundle : ContextBundle) : (bundle.handles.map Prod.snd).Nodup := by
  have distinct := bundle.distinct
  simpa only [handles, map_append, ids_numbered] using distinct

theorem refs_memory {place : Nat} (isThere : bundle.memories[place]? = some m) :
    bundle.refs m.itemId = some ⟨'m', place + 1⟩ := by
  have isNumbered : (⟨'m', place + 1⟩, m.itemId) ∈ numbered 'm' bundle.memories := by
    apply mem_map.mpr
    exact ⟨(m, place + 1), mk_mem_zipIdx_iff_le_and_getElem?_sub.mpr ⟨by omega, isThere⟩, rfl⟩
  have isHandle : (⟨'m', place + 1⟩, m.itemId) ∈ bundle.handles := by
    simp only [handles, append_assoc]
    exact mem_append_left _ isNumbered
  rw [refs]
  cases found : bundle.handles.reverse.find? fun entry => entry.2 = m.itemId with
  | none => simpa using find?_eq_none.mp found _ (mem_reverse.mpr isHandle)
  | some entry =>
    have isEntry := mem_reverse.mp (mem_of_find?_eq_some found)
    have sameId : entry.2 = m.itemId := by simpa using find?_some found
    rw [inj_on_of_nodup_map bundle.handles_distinct isEntry isHandle sameId]
    rfl

theorem shown_distinct (unicode : Unicode) (bundle : ContextBundle) :
    ((bundle.shownMemories unicode).map ContextItem.itemId).Nodup :=
  bundle.memories_distinct.sublist (filter_sublist.map _)

theorem memories_timeline {ordered : List ContextItem} {shown : List String}
    (distinct : (ordered.map ContextItem.itemId).Nodup) {line : Line}
    (isLine : line ∈ timelineLines ordered shown) : ∀ m ∈ line.memories, m ∈ ordered := by
  obtain ⟨other, isOther, rfl⟩ := (mem_timeline distinct).mp isLine
  intro m member
  cases isKey : gatheredKey ordered shown other with
  | none =>
    rw [entry_of_none isKey] at member
    rwa [mem_singleton.mp member]
  | some key =>
    rw [entry_of_some isKey] at member
    exact (mem_group.mp member).1

section Sections

variable (parsed : String → Option (Text × Text)) {m : ContextItem}

theorem sum_memoryLines (isShown : m ∈ bundle.shownMemories unicode) :
    ((bundle.memoryLines unicode).map (Line.prints parsed m)).sum = 1 := by
  have distinct := bundle.shown_distinct unicode
  have sorted : ((bundle.shownMemories unicode).mergeSort fun first second =>
      sortKey first ≤ sortKey second).Perm (bundle.shownMemories unicode) :=
    mergeSort_perm _ _
  have sortedDistinct := (sorted.map ContextItem.itemId).nodup_iff.mpr distinct
  have isSorted := sorted.mem_iff.mpr isShown
  rw [memoryLines, memorySections]
  split
  case isTrue isNone => simp [isNone] at isShown
  case isFalse =>
    have heads := heads_with_siblings distinct
      (mostRelevantCount (bundle.shownMemories unicode).length)
    split
    case isTrue =>
      simp only [flatMap_cons, flatMap_nil, append_nil, map_append, sum_append]
      rw [sum_head, sum_timeline parsed sortedDistinct isSorted, heads.1.count]
      split
      · rfl
      · rfl
    case isFalse =>
      simp only [flatMap_cons, flatMap_nil, append_nil]
      rw [sum_timeline parsed sortedDistinct isSorted, if_neg not_mem_nil]

theorem memories_memoryLines {line : Line} (isLine : line ∈ bundle.memoryLines unicode) :
    ∀ m ∈ line.memories, m ∈ bundle.shownMemories unicode := by
  have distinct := bundle.shown_distinct unicode
  have sorted : ((bundle.shownMemories unicode).mergeSort fun first second =>
      sortKey first ≤ sortKey second).Perm (bundle.shownMemories unicode) :=
    mergeSort_perm _ _
  have sortedDistinct := (sorted.map ContextItem.itemId).nodup_iff.mpr distinct
  intro m member
  rw [memoryLines, memorySections] at isLine
  split at isLine
  case isTrue => cases isLine
  case isFalse =>
    have heads := heads_with_siblings distinct
      (mostRelevantCount (bundle.shownMemories unicode).length)
    split at isLine
    case isTrue =>
      simp only [flatMap_cons, flatMap_nil, append_nil, mem_append] at isLine
      rcases isLine with isHead | isTimeline
      · obtain ⟨other, isOther, rfl⟩ := mem_map.mp isHead
        rw [mem_singleton.mp member]
        exact heads.2 other isOther
      · exact sorted.mem_iff.mp (memories_timeline sortedDistinct isTimeline m member)
    case isFalse =>
      simp only [flatMap_cons, flatMap_nil, append_nil] at isLine
      exact sorted.mem_iff.mp (memories_timeline sortedDistinct isLine m member)

end Sections

/-- What is left out is shown elsewhere, and every other memory is printed once, in a line that
cites it by its place. -/
structure HidesNothing (unicode : Unicode) (parsed : String → Option (Text × Text))
    (bundle : ContextBundle) : Prop where
  memories : ∀ m ∈ bundle.memories, m.itemId ∈ bundle.redundant unicode →
    bundle.Heard m ∨ ∃ other ∈ bundle.memories, other.itemId ∉ bundle.redundant unicode ∧
      norm unicode m <:+: norm unicode other
  facts : ∀ f ∈ bundle.graphFacts, f.itemId ∈ bundle.redundant unicode →
    f.attributes.predicate = mentionsPredicate ∧ bundle.NamesObject unicode f
  once : ∀ place m, bundle.memories[place]? = some m → m.itemId ∉ bundle.redundant unicode →
    ((bundle.memoryLines unicode).map (Line.prints parsed m)).sum = 1 ∧
      ∀ line ∈ bundle.memoryLines unicode, line.prints parsed m ≠ 0 →
        ⟨'m', place + 1⟩ ∈ line.cites bundle.refs ∧ m.text <:+: line.text parsed bundle.refs

/-- The object of every `mentions` fact that is a part of the shown text stands there as a word. -/
def MentionsWords (unicode : Unicode) (bundle : ContextBundle) : Prop :=
  ∀ f ∈ bundle.graphFacts, f.attributes.predicate = mentionsPredicate → named unicode f ≠ [] →
    named unicode f <:+: bundle.said unicode → bundle.NamesObject unicode f

theorem printed_once (parsed : String → Option (Text × Text)) {place : Nat}
    (isThere : bundle.memories[place]? = some m)
    (isShown : m.itemId ∉ bundle.redundant unicode) :
    ((bundle.memoryLines unicode).map (Line.prints parsed m)).sum = 1 ∧
      ∀ line ∈ bundle.memoryLines unicode, line.prints parsed m ≠ 0 →
        ⟨'m', place + 1⟩ ∈ line.cites bundle.refs ∧ m.text <:+: line.text parsed bundle.refs := by
  have isMemory : m ∈ bundle.shownMemories unicode :=
    mem_filter.mpr ⟨mem_of_getElem? isThere, by simpa using isShown⟩
  refine ⟨sum_memoryLines parsed isMemory, fun line isLine isPrinted => ?_⟩
  have same : ∀ other ∈ line.memories, other.itemId = m.itemId → other = m := by
    intro other isOther sameId
    have otherShown := memories_memoryLines isLine other isOther
    exact eq_of_itemId (bundle.shown_distinct unicode) otherShown isMemory sameId
  obtain ⟨isAbout, isText⟩ := text_in_line parsed bundle.refs isPrinted same
  exact ⟨mem_filterMap.mpr ⟨m, isAbout, refs_memory isThere⟩, isText⟩

/-- A rendering hides nothing just when the objects that it takes for named are named. -/
theorem hides_nothing_iff (unicode : Unicode) (parsed : String → Option (Text × Text))
    (bundle : ContextBundle) :
    HidesNothing unicode parsed bundle ↔ MentionsWords unicode bundle := by
  constructor
  · intro hidesNothing f isFact isMention isNamed isPart
    exact (hidesNothing.facts f isFact
      ((mem_redundant_fact isFact).mpr ⟨isMention, isNamed, isPart⟩)).2
  · intro areWords
    constructor
    case memories => exact fun m isMemory leftOut => memory_repeated isMemory leftOut
    case facts =>
      intro f isFact leftOut
      obtain ⟨isMention, isNamed, isPart⟩ := (mem_redundant_fact isFact).mp leftOut
      exact ⟨isMention, areWords f isFact isMention isNamed isPart⟩
    case once => exact fun place m isThere isShown => printed_once parsed isThere isShown

end ContextBundle

def lateReport : ContextItem where
  itemId := "mem_report"
  text := "The annual report is late.".toList

def mentionsAnn : ContextItem where
  itemId := "fact_ann"
  text := "user mentions Ann".toList
  attributes := { predicate := mentionsPredicate, object := "Ann".toList }

def annualBundle : ContextBundle where
  memories := [lateReport]
  graphFacts := [mentionsAnn]

/-- The fact is left out for three letters of another word. -/
theorem name_inside_word_is_hidden :
    ¬∀ (unicode : Unicode) (parsed : String → Option (Text × Text)) (bundle : ContextBundle),
      ContextBundle.HidesNothing unicode parsed bundle := by
  intro always
  have leftOut : mentionsAnn.itemId ∈ annualBundle.redundant latin := by decide +kernel
  have unnamed : ¬annualBundle.NamesObject latin mentionsAnn := by decide +kernel
  exact unnamed
    ((always latin (fun _ => none) annualBundle).facts mentionsAnn mem_cons_self leftOut).2

end MemoryService.Context.Rendering
