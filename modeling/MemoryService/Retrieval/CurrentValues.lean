import MemoryService.Retrieval.QuestionSlots
import Mathlib.Data.Set.Finite.Basic

/-!
# Earlier values for a question about now

Three rules mark candidates, each reading the marks of the former: a newer value of the same slot,
a newer rule of the same frame, and the newest answer to the question.
-/

namespace MemoryService.Retrieval.CurrentValues

open Foundation Slots List
open Duplicates (Text memoryKind normalised)

structure Payload where
  subject : Option String := none
  predicate : Option String := none
  ownerPrincipal : Option String := none
  object : Option String := none
  observedAt : Option String := none
  derived : Bool := false
  category : Option String := none
  statementKind : Option String := none
  standingInstruction : Option Json := none
  earlierValue : Bool := false
  replacedBy : Option String := none
  replacedInSlot : Bool := false

structure Candidate (Other : Type) where
  recordId : String
  kind : String
  text : Text
  payload : Payload := {}
  other : Other

namespace Candidate

variable {Other : Type} (c : Candidate Other)

/-- `_said_at`. -/
def saidAt : String := c.payload.observedAt.getD ""

def replaced (latest : String) : Candidate Other :=
  { c with
    payload :=
      { c.payload with
        earlierValue := true, replacedBy := some latest, replacedInSlot := true } }

def outdated : Candidate Other :=
  { c with payload := { c.payload with earlierValue := true, replacedInSlot := true } }

end Candidate

section Rules

variable {Other : Type} (reader : Reader)

def noSlotPredicates : List String := ["said", "task", "event", "instruction", "decided"]

def noSlotSubjects : List String :=
  ["it", "this", "that", "these", "those", "there", "here", "he", "she", "they", "we", "i", "you",
    "one", "everything", "something", "anything", "nothing", "someone", "everyone", "what",
    "which", "who"]

/-- The speaker, the subject and the predicate of a current memory that has a value. -/
abbrev SlotKey : Type := String × Text × Text

/-- `_slot`. -/
def slotOf (c : Candidate Other) : Option SlotKey :=
  let subject := normalised reader.unicode (c.payload.subject.getD "").toList
  let predicate := reader.unicode.lower (c.payload.predicate.getD "").toList
  if c.kind ≠ memoryKind ∨ c.payload.earlierValue ∨ c.payload.derived then none
  else
    match Forms.given c.payload.ownerPrincipal with
    | none => none
    | some owner =>
      if subject = [] ∨ predicate = [] ∨ Forms.given c.payload.object = none ∨
          Forms.given c.payload.observedAt = none ∨ oneOf noSlotPredicates predicate ∨
          oneOf noSlotSubjects subject ∨ ':' ∈ subject ∨
          "thr_".toList <+: subject ∨ "run_".toList <+: subject then none
      else some (Forms.speakerKey owner, subject, predicate)

variable (candidates : List (Candidate Other))

def newest : Dict SlotKey (Candidate Other) :=
  candidates.foldl (fun table c =>
    match slotOf reader c with
    | none => table
    | some key =>
      if (table.get? key).all fun latest => latest.saidAt < c.saidAt then table.set key c
      else table) ∅

variable (c : Candidate Other)

def latestInSlot :
    Option (Candidate Other) :=
  ((slotOf reader c).bind (newest reader candidates).get?).filter fun latest =>
    c.saidAt < latest.saidAt ∧
      normalised reader.unicode (c.payload.object.getD "").toList ≠
        normalised reader.unicode (latest.payload.object.getD "").toList

def latestPerSlot : List (Candidate Other) :=
  candidates.map fun c =>
    match latestInSlot reader candidates c with
    | none => c
    | some latest => c.replaced latest.recordId

def ruleCategories : List String := ["rule", "instruction"]

def ruleKinds : List String := ["RULE", "CONDITIONAL_RULE"]

/-- The number that a JSON numeral stands for. -/
def numeral (number : JsonNumber) : Rat :=
  let (sign, unsigned) : Rat × List Char := match number.word with
    | '-' :: rest => (-1, rest)
    | rest => (1, rest)
  let (whole, rest) := JsonText.digits unsigned
  let (fraction, exponent) := match rest with
    | '.' :: rest => JsonText.digits rest
    | rest => ([], rest)
  let power : Int := match exponent with
    | _ :: '-' :: rest => -Nat.ofDigitChars 10 rest 0
    | _ :: '+' :: rest | _ :: rest => Nat.ofDigitChars 10 rest 0
    | [] => 0
  sign * Nat.ofDigitChars 10 (whole ++ fraction) 0 * 10 ^ (power - fraction.length)

/-- `value in (True, "yes")`: a number that is 1 as a double equals `True`. -/
def isYes : Json → Bool
  | .bool value => value
  | .num number => Binary64.round (numeral number) = 1
  | .str text => text = "yes"
  | _ => false

def isRule (payload : Payload) : Bool :=
  payload.category.any (· ∈ ruleCategories) || payload.statementKind.getD "" ∈ ruleKinds ||
    payload.standingInstruction.any isYes

structure Framed where
  recordId : String
  frame : Finset Text
  said : String

def framed : Option Framed :=
  if c.text = [] then none
  else c.payload.observedAt.map fun said => ⟨c.recordId, frameOf reader c.text, said⟩

def olderOf (first second : Framed) : Option String :=
  if ¬sameSubject first.frame second.frame ∨ first.said = second.said then none
  else some (if first.said < second.said then first.recordId else second.recordId)

/-- `restated`. -/
def restated : List Framed → List String
  | [] => []
  | first :: rest => rest.filterMap (olderOf first) ++ restated rest

def compared : Bool :=
  c.kind = memoryKind ∧ ¬c.payload.earlierValue ∧ isRule c.payload ∧ frameOf reader c.text ≠ ∅

def ruleGroups :
    Dict (Finset Text) (List (Candidate Other)) :=
  gathered (fun c => frameOf reader c.text) (fun _ => []) (fun same c => same ++ [c])
    (candidates.filter (compared reader))

def gone : List String :=
  (ruleGroups reader candidates).items.flatMap fun (_, same) =>
    if 1 < same.length then restated (same.filterMap (framed reader)) else []

def restatedRulesFirst : List (Candidate Other) :=
  if gone reader candidates = [] then candidates
  else
    candidates.map fun c =>
      if c.recordId ∈ gone reader candidates then c.outdated else c

variable (question : Text)

/-- `_holders`: the current memories that hold a value of the slot. -/
def holders (slot : Slot) (candidates : List (Candidate Other)) :
    List (Candidate Other × Reading) :=
  candidates.filterMap fun c =>
    if c.kind ≠ memoryKind ∨ c.payload.earlierValue ∨ Forms.given c.payload.observedAt = none then
      none
    else if ¬mayHold reader slot c.text then none
    else
      let reading := read reader slot c.text
      if reading.namesAll ∧ reading.asks ∧ reading.values ≠ ∅ ∧ qualified reader question c.text
      then some (c, reading)
      else none

def latestHolder (candidates : List (Candidate Other)) :
    Option (Candidate Other × Reading) :=
  (holders reader question (questionSlot reader question) candidates).argmax fun holder =>
    toLex (holder.1.saidAt, holder.1.recordId)

def asksForOne : Bool :=
  let slot := questionSlot reader question
  slot.asks && !(reader.asksPast question && !reader.asksLatest question) &&
    !(!slot.anchored && !reader.asksLatest question && reader.asksMany question)

def replacedHolders (candidates : List (Candidate Other))
    (latest : Candidate Other × Reading) : List String :=
  let slot := questionSlot reader question
  ((holders reader question slot candidates).filter fun holder =>
    holder.1.saidAt < latest.1.saidAt ∧ holder.2.values ≠ latest.2.values ∧
      sameSubject (slotFrame reader holder.1.text slot.lang holder.2.values)
        (slotFrame reader latest.1.text slot.lang latest.2.values)).map fun holder =>
          holder.1.recordId

def latestValues (candidates : List (Candidate Other)) :
    List (Candidate Other) :=
  if ¬asksForOne reader question then candidates
  else if (holders reader question (questionSlot reader question) candidates).length < 2 then
    candidates
  else
    match latestHolder reader question candidates with
    | none => candidates
    | some latest =>
      candidates.map fun c =>
        if c.recordId ∈ replacedHolders reader question candidates latest then
          c.replaced latest.1.recordId
        else c

def currentFirst : List (Candidate Other) :=
  candidates.filter (fun c => !c.payload.earlierValue) ++
    candidates.filter fun c => c.payload.earlierValue

/-- What `retrieve` makes of the candidates for a question about now. -/
def currentValues (candidates : List (Candidate Other)) :
    List (Candidate Other) :=
  currentFirst (latestValues reader question
    (restatedRulesFirst reader (latestPerSlot reader candidates)))

end Rules

variable {id answer : String}

section Marks

variable {Other : Type} {reader : Reader} {candidates : List (Candidate Other)}
  {c latest : Candidate Other} {key : SlotKey}

theorem current_of_slot (isSlot : slotOf reader c = some key) :
    c.payload.earlierValue = false := by
  rw [slotOf] at isSlot
  split at isSlot
  case isTrue => cases isSlot
  case isFalse notMarked => simpa using (not_or.mp (not_or.mp notMarked).2).1

theorem newest_concat_other {last : Candidate Other} (other : slotOf reader last ≠ some key) :
    (newest reader (candidates ++ [last])).get? key = (newest reader candidates).get? key := by
  rw [newest, foldl_concat, ← newest]
  cases isSlot : slotOf reader last with
  | none => rfl
  | some own =>
    have apart : key ≠ own := fun same => other (by rw [isSlot, same])
    dsimp only
    split
    · exact Dict.get?_set_other _ _ apart
    · rfl

theorem newest_concat_self {last : Candidate Other} (isSlot : slotOf reader last = some key) :
    (newest reader (candidates ++ [last])).get? key =
      some (((newest reader candidates).get? key).elim last fun latest =>
        if latest.saidAt < last.saidAt then last else latest) := by
  rw [newest, foldl_concat, ← newest, isSlot]
  dsimp only
  cases found : (newest reader candidates).get? key with
  | none => simp [Dict.get?_set_self]
  | some latest =>
    by_cases isNewer : latest.saidAt < last.saidAt
    · rw [Option.all_some, if_pos (decide_eq_true isNewer), Option.elim_some, if_pos isNewer,
        Dict.get?_set_self]
    · rw [Option.all_some, if_neg (by simpa only [decide_eq_true_eq] using isNewer),
        Option.elim_some, if_neg isNewer, found]

/-- What is kept for a slot is one of its values, and none of them is newer. -/
def IsNewest (reader : Reader) (candidates : List (Candidate Other)) (key : SlotKey)
    (latest : Candidate Other) : Prop :=
  latest ∈ candidates ∧ slotOf reader latest = some key ∧
    ∀ c ∈ candidates, slotOf reader c = some key → c.saidAt ≤ latest.saidAt

theorem newest_spec (reader : Reader) (candidates : List (Candidate Other)) (key : SlotKey) :
    match (newest reader candidates).get? key with
    | none => ∀ c ∈ candidates, slotOf reader c ≠ some key
    | some latest => IsNewest reader candidates key latest := by
  induction candidates using List.reverseRecOn with
  | nil => simp [newest, Dict.get?, EmptyCollection.emptyCollection, Dict.empty]
  | append_singleton candidates last ih =>
    by_cases isSlot : slotOf reader last = some key
    · rw [newest_concat_self isSlot]
      cases found : (newest reader candidates).get? key with
      | none =>
        rw [found] at ih
        refine ⟨by simp, isSlot, ?_⟩
        intro c member isKey
        cases mem_append.mp member with
        | inl isEarlier => exact absurd isKey (ih c isEarlier)
        | inr isLast => rw [mem_singleton.mp isLast]; exact le_refl _
      | some latest =>
        rw [found] at ih
        obtain ⟨isIn, isKey, notNewer⟩ := ih
        by_cases isNewer : latest.saidAt < last.saidAt
        · simp only [Option.elim_some, if_pos isNewer]
          refine ⟨by simp, isSlot, ?_⟩
          intro c member isOwn
          cases mem_append.mp member with
          | inl isEarlier => exact (notNewer c isEarlier isOwn).trans isNewer.le
          | inr isLast => rw [mem_singleton.mp isLast]
        · simp only [Option.elim_some, if_neg isNewer]
          refine ⟨mem_append_left _ isIn, isKey, ?_⟩
          intro c member isOwn
          cases mem_append.mp member with
          | inl isEarlier => exact notNewer c isEarlier isOwn
          | inr isLast =>
            rw [mem_singleton.mp isLast]
            exact not_lt.mp isNewer
    · rw [newest_concat_other isSlot]
      have sameMembers : ∀ c, slotOf reader c = some key →
          (c ∈ candidates ++ [last] ↔ c ∈ candidates) := by
        intro c isKey
        have apart : c ≠ last := fun same => isSlot (same ▸ isKey)
        simp [apart]
      cases found : (newest reader candidates).get? key with
      | none =>
        rw [found] at ih
        intro c member isKey
        exact ih c ((sameMembers c isKey).mp member) isKey
      | some latest =>
        rw [found] at ih
        obtain ⟨isIn, isKey, notNewer⟩ := ih
        refine ⟨mem_append_left _ isIn, isKey, ?_⟩
        intro c member isOwn
        exact notNewer c ((sameMembers c isOwn).mp member) isOwn

theorem exists_newest (member : c ∈ candidates) (isSlot : slotOf reader c = some key) :
    ∃ latest, (newest reader candidates).get? key = some latest ∧
      IsNewest reader candidates key latest := by
  have spec := newest_spec reader candidates key
  cases found : (newest reader candidates).get? key with
  | none =>
    rw [found] at spec
    exact absurd isSlot (spec c member)
  | some latest =>
    rw [found] at spec
    exact ⟨latest, rfl, spec⟩

theorem latestInSlot_spec (isLatest : latestInSlot reader candidates c = some latest) :
    latest ∈ candidates ∧ c.saidAt < latest.saidAt ∧ c.payload.earlierValue = false ∧
      latest.payload.earlierValue = false := by
  obtain ⟨found, isNewer⟩ := Option.filter_eq_some_iff.mp isLatest
  obtain ⟨key, isSlot, isFound⟩ := Option.bind_eq_some_iff.mp found
  have spec := newest_spec reader candidates key
  rw [isFound] at spec
  rw [decide_eq_true_eq] at isNewer
  exact ⟨spec.1, isNewer.1, current_of_slot isSlot, current_of_slot spec.2.1⟩

theorem latestInSlot_newest (found : (newest reader candidates).get? key = some latest) :
    latestInSlot reader candidates latest = none := by
  have spec := newest_spec reader candidates key
  rw [found] at spec
  rw [latestInSlot, spec.2.1, Option.bind_some, found]
  simp [Option.filter]

theorem olderOf_eq_some {first second : Framed} (isOlder : olderOf first second = some id) :
    (first.recordId = id ∧ first.said < second.said) ∨
      (second.recordId = id ∧ second.said < first.said) := by
  rw [olderOf] at isOlder
  obtain ⟨compared, isOlder⟩ := Option.ite_none_left_eq_some.mp isOlder
  rw [Option.some.injEq] at isOlder
  split at isOlder
  case isTrue isBefore => exact .inl ⟨isOlder, isBefore⟩
  case isFalse notBefore =>
    exact .inr ⟨isOlder, lt_of_le_of_ne (not_lt.mp notBefore)
      fun same => compared (.inr same.symm)⟩

theorem mem_restated {rules : List Framed} (isGone : id ∈ restated rules) :
    ∃ older ∈ rules, ∃ newer ∈ rules, older.recordId = id ∧ older.said < newer.said := by
  induction rules with
  | nil => cases isGone
  | cons first rest ih =>
    rw [restated, mem_append, mem_filterMap] at isGone
    cases isGone with
    | inl isPair =>
      obtain ⟨second, isLater, isOlder⟩ := isPair
      have isSecond := mem_cons_of_mem first isLater
      cases olderOf_eq_some isOlder with
      | inl isFirst => exact ⟨first, mem_cons_self, second, isSecond, isFirst⟩
      | inr isSecondOlder =>
        exact ⟨second, isSecond, first, mem_cons_self, isSecondOlder⟩
    | inr isLater =>
      obtain ⟨older, isOlder, newer, isNewer, isBefore⟩ := ih isLater
      exact ⟨older, mem_cons_of_mem first isOlder, newer, mem_cons_of_mem first isNewer, isBefore⟩

theorem foldl_collect (items : List (Candidate Other)) :
    items.foldl (fun same c => same ++ [c]) [] = items := by
  induction items using List.reverseRecOn with
  | nil => rfl
  | append_singleton items last ih =>
    rw [foldl_concat, ih]

theorem mem_ruleGroups {frame : Finset Text} {same : List (Candidate Other)}
    (isGroup : (frame, same) ∈ (ruleGroups reader candidates).items) :
    same = (candidates.filter (compared reader)).filter
      fun c => frameOf reader c.text = frame := by
  have found := Dict.get?_eq_some_iff.mpr isGroup
  rw [ruleGroups, get?_gathered] at found
  cases isSame : (candidates.filter (compared reader)).filter
      fun c => frameOf reader c.text = frame with
  | nil =>
    rw [isSame] at found
    cases found
  | cons first rest =>
    rw [isSame, combined, Option.some.injEq, foldl_collect] at found
    exact found.symm

structure Restates (reader : Reader) (newer older : Candidate Other) : Prop where
  isOlder : compared reader older = true
  isNewer : compared reader newer = true
  sameFrame : frameOf reader older.text = frameOf reader newer.text
  later : older.saidAt < newer.saidAt

theorem framed_eq_some {rule : Framed} (isFramed : framed reader c = some rule) :
    rule.recordId = c.recordId ∧ rule.said = c.saidAt := by
  rw [framed] at isFramed
  obtain ⟨-, isFramed⟩ := Option.ite_none_left_eq_some.mp isFramed
  obtain ⟨said, isSaid, rfl⟩ := Option.map_eq_some_iff.mp isFramed
  exact ⟨rfl, by simp [Candidate.saidAt, isSaid]⟩

theorem mem_gone (isGone : id ∈ gone reader candidates) :
    ∃ older ∈ candidates, ∃ newer ∈ candidates, older.recordId = id ∧
      Restates reader newer older := by
  obtain ⟨⟨frame, same⟩, isGroup, isRestated⟩ := mem_flatMap.mp isGone
  dsimp only at isRestated
  split at isRestated
  case isFalse => cases isRestated
  case isTrue =>
    obtain ⟨old, isOld, new, isNew, isId, isBefore⟩ := mem_restated isRestated
    obtain ⟨older, isOlder, oldFramed⟩ := mem_filterMap.mp isOld
    obtain ⟨newer, isNewer, newFramed⟩ := mem_filterMap.mp isNew
    rw [mem_ruleGroups isGroup, mem_filter, mem_filter, decide_eq_true_eq] at isOlder isNewer
    refine ⟨older, isOlder.1.1, newer, isNewer.1.1, ?_, isOlder.1.2, isNewer.1.2,
      isOlder.2.trans isNewer.2.symm, ?_⟩
    · rw [← (framed_eq_some oldFramed).1, isId]
    · rwa [← (framed_eq_some oldFramed).2, ← (framed_eq_some newFramed).2]

theorem restatedRulesFirst_eq (candidates : List (Candidate Other)) :
    restatedRulesFirst reader candidates = candidates.map fun c =>
      if c.recordId ∈ gone reader candidates then c.outdated else c := by
  rw [restatedRulesFirst]
  split
  case isTrue noneGone => simp [noneGone]
  case isFalse => rfl

variable {question : Text}

theorem mem_holders {slot : Slot} {holder : Candidate Other × Reading}
    (isHolder : holder ∈ holders reader question slot candidates) :
    holder.1 ∈ candidates ∧ holder.1.payload.earlierValue = false := by
  obtain ⟨c, member, isRead⟩ := mem_filterMap.mp isHolder
  obtain ⟨isCurrent, isRead⟩ := Option.ite_none_left_eq_some.mp isRead
  obtain ⟨-, isRead⟩ := Option.ite_none_left_eq_some.mp isRead
  dsimp only at isRead
  split at isRead
  case isFalse => cases isRead
  case isTrue =>
    cases isRead
    exact ⟨member, by simpa using (not_or.mp (not_or.mp isCurrent).2).1⟩

variable (reader candidates question) in
def answerOf (id : String) : Option String :=
  if asksForOne reader question ∧
      2 ≤ (holders reader question (questionSlot reader question) candidates).length then
    (latestHolder reader question candidates).bind fun latest =>
      if id ∈ replacedHolders reader question candidates latest then some latest.1.recordId
      else none
  else none

theorem latestValues_eq : latestValues reader question candidates = candidates.map fun c =>
      (answerOf reader candidates question c.recordId).elim c c.replaced := by
  simp only [latestValues, answerOf]
  split
  case isTrue noSlot => simp [noSlot]
  case isFalse isSlot =>
    split
    case isTrue isFew => simp [Nat.not_le.mpr isFew]
    case isFalse notFew =>
      have isSlot : asksForOne reader question = true := by simpa using isSlot
      cases isLatest : latestHolder reader question candidates with
      | none => simp
      | some latest =>
        apply map_congr_left
        intro c _
        simp only [isSlot, Nat.not_lt.mp notFew, and_self, if_true, Option.bind_some]
        split <;> rfl

theorem mem_replacedHolders {held : Candidate Other × Reading}
    (isReplaced : id ∈ replacedHolders reader question candidates held) :
    ∃ older ∈ candidates, older.recordId = id ∧ older.payload.earlierValue = false ∧
      older.saidAt < held.1.saidAt := by
  obtain ⟨holder, isHolder, isId⟩ := mem_map.mp isReplaced
  obtain ⟨isHolder, isOlder⟩ := mem_filter.mp isHolder
  have isBefore := (of_decide_eq_true isOlder).1
  exact ⟨holder.1, (mem_holders isHolder).1, isId, (mem_holders isHolder).2, isBefore⟩

theorem answerOf_eq_some (isAnswer : answerOf reader candidates question id = some answer) :
    ∃ held, latestHolder reader question candidates = some held ∧
      id ∈ replacedHolders reader question candidates held ∧ held.1.recordId = answer := by
  rw [answerOf] at isAnswer
  obtain ⟨-, isAnswer⟩ := Option.ite_none_right_eq_some.mp isAnswer
  obtain ⟨held, isLatest, isReplaced⟩ := Option.bind_eq_some_iff.mp isAnswer
  split at isReplaced
  case isFalse => cases isReplaced
  case isTrue isIn => exact ⟨held, isLatest, isIn, Option.some.inj isReplaced⟩

end Marks

section Distinct

variable {Other : Type} {reader : Reader} {candidates : List (Candidate Other)}
  {c d : Candidate Other} {question : Text} (distinct : (candidates.map Candidate.recordId).Nodup)
include distinct

theorem eq_of_recordId (isFirst : c ∈ candidates) (isSecond : d ∈ candidates)
    (sameRecord : c.recordId = d.recordId) : c = d :=
  inj_on_of_nodup_map distinct isFirst isSecond sameRecord

section

variable (member : c ∈ candidates)
include member

theorem not_gone_of_earlier (isEarlier : c.payload.earlierValue = true) :
    c.recordId ∉ gone reader candidates := by
  intro isGone
  obtain ⟨older, isOlder, newer, -, sameRecord, restates⟩ := mem_gone isGone
  have isCurrent := restates.isOlder
  rw [eq_of_recordId distinct isOlder member sameRecord] at isCurrent
  simp [compared, isEarlier] at isCurrent

theorem exists_newest_rule (isGone : c.recordId ∈ gone reader candidates) :
    ∃ newer ∈ candidates, Restates reader newer c ∧ newer.recordId ∉ gone reader candidates := by
  obtain ⟨older, isOlder, newer, isNewer, sameRecord, restates⟩ := mem_gone isGone
  rw [eq_of_recordId distinct isOlder member sameRecord] at restates
  let newerRules := candidates.filter fun e =>
    compared reader e ∧ frameOf reader c.text = frameOf reader e.text ∧ c.saidAt < e.saidAt
  have memNewerRules : ∀ e, e ∈ newerRules ↔ e ∈ candidates ∧ Restates reader e c := by
    intro e
    rw [mem_filter, decide_eq_true_eq]
    refine and_congr_right fun _ => ⟨fun rule => ?_, fun rule => ?_⟩
    · exact ⟨restates.isOlder, rule.1, rule.2.1, rule.2.2⟩
    · exact ⟨rule.isNewer, rule.sameFrame, rule.later⟩
  have isSome : newerRules ≠ [] := ne_nil_of_mem ((memNewerRules newer).mpr ⟨isNewer, restates⟩)
  obtain ⟨newest, isNewest⟩ := Option.ne_none_iff_exists'.mp
    (mt (argmax_eq_none (f := Candidate.saidAt)).mp isSome)
  obtain ⟨inCandidates, isRule⟩ := (memNewerRules newest).mp (argmax_mem isNewest)
  refine ⟨newest, inCandidates, isRule, ?_⟩
  -- what restates the newest would restate the older rule too, and be newer
  intro newestGone
  obtain ⟨other, isOther, further, isFurther, sameOther, again⟩ := mem_gone newestGone
  rw [eq_of_recordId distinct isOther inCandidates sameOther] at again
  have isIn : further ∈ newerRules :=
    (memNewerRules further).mpr ⟨isFurther, restates.isOlder, again.isNewer,
      isRule.sameFrame.trans again.sameFrame, isRule.later.trans again.later⟩
  exact absurd again.later (not_lt.mpr (le_of_mem_argmax isIn isNewest))

theorem no_answerOf_earlier (isEarlier : c.payload.earlierValue = true) :
    answerOf reader candidates question c.recordId = none := by
  rw [Option.eq_none_iff_forall_ne_some]
  intro answer isAnswer
  obtain ⟨held, -, isReplaced, -⟩ := answerOf_eq_some isAnswer
  obtain ⟨older, isOlder, sameRecord, isCurrent, -⟩ := mem_replacedHolders isReplaced
  rw [eq_of_recordId distinct isOlder member sameRecord, isEarlier] at isCurrent
  cases isCurrent

theorem exists_answer (isAnswer : answerOf reader candidates question c.recordId = some answer) :
    ∃ latest ∈ candidates, latest.recordId = answer ∧ latest.payload.earlierValue = false ∧
      c.saidAt < latest.saidAt ∧ answerOf reader candidates question latest.recordId = none := by
  obtain ⟨held, isLatest, isReplaced, isHeld⟩ := answerOf_eq_some isAnswer
  obtain ⟨older, isOlder, sameRecord, -, isBefore⟩ := mem_replacedHolders isReplaced
  have isHolder := mem_holders (argmax_mem isLatest)
  rw [eq_of_recordId distinct isOlder member sameRecord] at isBefore
  refine ⟨held.1, isHolder.1, isHeld, isHolder.2, isBefore, ?_⟩
  rw [Option.eq_none_iff_forall_ne_some]
  intro other isOther
  obtain ⟨again, isAgain, isReplaced, -⟩ := answerOf_eq_some isOther
  rw [isLatest, Option.some.injEq] at isAgain
  rw [← isAgain] at isReplaced
  obtain ⟨older, isOlder, sameRecord, -, isBefore⟩ := mem_replacedHolders isReplaced
  rw [eq_of_recordId distinct isOlder isHolder.1 sameRecord] at isBefore
  exact lt_irrefl _ isBefore

end

end Distinct

/-! ## The three rules together -/

/-- What a rule writes on a candidate. -/
inductive Mark where
  | inSlot (latest : String)
  | restated
  | answered (latest : String)

def Mark.names : Mark → Option String
  | .inSlot latest => some latest
  | .restated => none
  | .answered latest => some latest

section Together

variable {Other : Type}

def Candidate.marked (c : Candidate Other) : Option Mark → Candidate Other
  | none => c
  | some (.inSlot latest) => c.replaced latest
  | some .restated => c.outdated
  | some (.answered latest) => c.replaced latest

variable (reader : Reader) (question : Text) (candidates : List (Candidate Other))

def slotted : List (Candidate Other) := latestPerSlot reader candidates

def ruled : List (Candidate Other) := restatedRulesFirst reader (slotted reader candidates)

def markOf (c : Candidate Other) : Option Mark :=
  match latestInSlot reader candidates c with
  | some latest => some (.inSlot latest.recordId)
  | none =>
    if c.recordId ∈ gone reader (slotted reader candidates) then some .restated
    else (answerOf reader (ruled reader candidates) question c.recordId).map .answered

variable {reader question candidates} {c : Candidate Other}

theorem record_ids_slotted (reader : Reader) (candidates : List (Candidate Other)) :
    (slotted reader candidates).map Candidate.recordId = candidates.map Candidate.recordId := by
  rw [slotted, latestPerSlot, map_map]
  apply map_congr_left
  intro c _
  rw [Function.comp_apply]
  cases latestInSlot reader candidates c <;> rfl

theorem record_ids_ruled :
    (ruled reader candidates).map Candidate.recordId = candidates.map Candidate.recordId := by
  rw [ruled, restatedRulesFirst_eq, map_map, ← record_ids_slotted reader candidates]
  apply map_congr_left
  intro c _
  rw [Function.comp_apply]
  split <;> rfl

section

variable (isCurrent : c.payload.earlierValue = false)
include isCurrent

theorem mem_slotted_of_current :
    c ∈ slotted reader candidates ↔ c ∈ candidates ∧ latestInSlot reader candidates c = none := by
  rw [slotted, latestPerSlot, mem_map]
  constructor
  · intro isMapped
    obtain ⟨before, member, rfl⟩ := isMapped
    cases isLatest : latestInSlot reader candidates before with
    | none =>
      exact ⟨member, isLatest⟩
    | some latest =>
      rw [isLatest] at isCurrent
      cases isCurrent
  · intro unmarked
    exact ⟨c, unmarked.1, by rw [unmarked.2]⟩

theorem mem_ruled_of_current :
    c ∈ ruled reader candidates ↔
      c ∈ slotted reader candidates ∧ c.recordId ∉ gone reader (slotted reader candidates) := by
  rw [ruled, restatedRulesFirst_eq, mem_map]
  constructor
  · intro isMapped
    obtain ⟨before, member, rfl⟩ := isMapped
    by_cases isGone : before.recordId ∈ gone reader (slotted reader candidates)
    · rw [if_pos isGone] at isCurrent
      cases isCurrent
    · rw [if_neg isGone]
      exact ⟨member, isGone⟩
  · intro unmarked
    exact ⟨c, unmarked.1, by rw [if_neg unmarked.2]⟩

theorem mem_ruled_iff :
    c ∈ ruled reader candidates ↔ c ∈ candidates ∧
      (markOf reader question candidates c = none ∨
        ∃ latest, markOf reader question candidates c = some (.answered latest)) := by
  rw [mem_ruled_of_current isCurrent, mem_slotted_of_current isCurrent, and_assoc, markOf]
  refine and_congr_right fun _ => ?_
  cases latestInSlot reader candidates c with
  | some latest => simp
  | none =>
    by_cases isGone : c.recordId ∈ gone reader (slotted reader candidates)
    · simp [isGone]
    · cases answerOf reader (ruled reader candidates) question c.recordId <;> simp [isGone]

end

section Distinct

variable (distinct : (candidates.map Candidate.recordId).Nodup)
include distinct

theorem distinct_slotted : ((slotted reader candidates).map Candidate.recordId).Nodup := by
  rw [record_ids_slotted]
  exact distinct

theorem distinct_ruled : ((ruled reader candidates).map Candidate.recordId).Nodup := by
  rw [record_ids_ruled]
  exact distinct

theorem latestValues_eq_marked :
    latestValues reader question (ruled reader candidates) =
      candidates.map fun c => c.marked (markOf reader question candidates c) := by
  have isRuled : ruled reader candidates = (slotted reader candidates).map fun c =>
      if c.recordId ∈ gone reader (slotted reader candidates) then c.outdated else c :=
    restatedRulesFirst_eq _
  rw [latestValues_eq]
  refine (congrArg (List.map _) isRuled).trans ?_
  have isSlotted : slotted reader candidates = candidates.map fun c =>
      match latestInSlot reader candidates c with
      | none => c
      | some latest => c.replaced latest.recordId := rfl
  refine (congrArg (fun list => List.map _ (List.map _ list)) isSlotted).trans ?_
  rw [map_map, map_map]
  apply map_congr_left
  intro c member
  simp only [Function.comp_apply, markOf]
  cases isLatest : latestInSlot reader candidates c with
  | some latest =>
    have inSlotted : c.replaced latest.recordId ∈ slotted reader candidates :=
      mem_map.mpr ⟨c, member, by rw [isLatest]⟩
    have notGone : (c.replaced latest.recordId).recordId ∉
        gone reader (slotted reader candidates) :=
      not_gone_of_earlier (distinct_slotted distinct) inSlotted rfl
    have inRuled : c.replaced latest.recordId ∈ ruled reader candidates := by
      rw [isRuled]
      exact mem_map.mpr ⟨_, inSlotted, if_neg notGone⟩
    have noAnswer : answerOf reader (ruled reader candidates) question
        (c.replaced latest.recordId).recordId = none :=
      no_answerOf_earlier (distinct_ruled distinct) inRuled rfl
    simp only [if_neg notGone, noAnswer]
    rfl
  | none =>
    by_cases isGone : c.recordId ∈ gone reader (slotted reader candidates)
    · have inSlotted : c ∈ slotted reader candidates := mem_map.mpr ⟨c, member, by rw [isLatest]⟩
      have inRuled : c.outdated ∈ ruled reader candidates := by
        rw [isRuled]
        exact mem_map.mpr ⟨c, inSlotted, if_pos isGone⟩
      have noAnswer : answerOf reader (ruled reader candidates) question
          c.outdated.recordId = none :=
        no_answerOf_earlier (distinct_ruled distinct) inRuled rfl
      simp only [if_pos isGone, noAnswer]
      rfl
    · simp only [if_neg isGone]
      cases answerOf reader (ruled reader candidates) question c.recordId <;> rfl

end Distinct

end Together

section Sound

variable {Other : Type}

def Leads (mark : Candidate Other → Option Mark) (candidates : List (Candidate Other))
    (c d : Candidate Other) : Prop :=
  c ∈ candidates ∧ d ∈ candidates ∧ (mark c).bind Mark.names = some d.recordId

/-- What the marks of the three rules say of the candidates that they are on. -/
structure SoundMarks (reader : Reader) (candidates : List (Candidate Other))
    (mark : Candidate Other → Option Mark) : Prop where
  current : ∀ c ∈ candidates, mark c ≠ none → c.payload.earlierValue = false
  later : ∀ c ∈ candidates, ∀ id, (mark c).bind Mark.names = some id →
    ∃ d ∈ candidates, d.recordId = id ∧ d.payload.earlierValue = false ∧ c.saidAt < d.saidAt
  restated : ∀ c ∈ candidates, mark c = some .restated →
    ∃ newer ∈ candidates, Restates reader newer c ∧
      (mark newer = none ∨ ∃ latest, mark newer = some (.answered latest))
  answered : ∀ c ∈ candidates, ∀ id, mark c = some (.answered id) →
    ∃ d ∈ candidates, d.recordId = id ∧ mark d = none
  slots : ∀ key, (∃ c ∈ candidates, slotOf reader c = some key) →
    ∃ d, IsNewest reader candidates key d ∧ ∀ id, mark d ≠ some (.inSlot id)

variable {reader : Reader} {question : Text} {candidates : List (Candidate Other)}
  {mark : Candidate Other → Option Mark} {c : Candidate Other}

theorem current_of_compared (isCompared : compared reader c = true) :
    c.payload.earlierValue = false := by
  rw [compared, decide_eq_true_eq] at isCompared
  simpa using isCompared.2.1

theorem markOf_cases {m : Mark} (isMarked : markOf reader question candidates c = some m) :
    (∃ latest, latestInSlot reader candidates c = some latest ∧ m = .inSlot latest.recordId) ∨
      latestInSlot reader candidates c = none ∧
        (c.recordId ∈ gone reader (slotted reader candidates) ∧ m = .restated ∨
          c.recordId ∉ gone reader (slotted reader candidates) ∧
            ∃ id, answerOf reader (ruled reader candidates) question c.recordId = some id ∧
              m = .answered id) := by
  rw [markOf] at isMarked
  split at isMarked
  case h_1 latest isLatest => exact .inl ⟨latest, isLatest, (Option.some.inj isMarked).symm⟩
  case h_2 isLatest =>
    split at isMarked
    case isTrue isGone => exact .inr ⟨isLatest, .inl ⟨isGone, (Option.some.inj isMarked).symm⟩⟩
    case isFalse notGone =>
      obtain ⟨id, isAnswer, isMark⟩ := Option.map_eq_some_iff.mp isMarked
      exact .inr ⟨isLatest, .inr ⟨notGone, id, isAnswer, isMark.symm⟩⟩

theorem mem_slotted_of_unmarked (member : c ∈ candidates)
    (noLatest : latestInSlot reader candidates c = none) : c ∈ slotted reader candidates :=
  mem_map.mpr ⟨c, member, by rw [noLatest]⟩

theorem mem_ruled_of_unmarked (member : c ∈ slotted reader candidates)
    (notGone : c.recordId ∉ gone reader (slotted reader candidates)) :
    c ∈ ruled reader candidates := by
  rw [ruled, restatedRulesFirst_eq]
  exact mem_map.mpr ⟨c, member, if_neg notGone⟩

section Distinct

variable (distinct : (candidates.map Candidate.recordId).Nodup)
include distinct

theorem restated_spec (member : c ∈ candidates)
    (isMarked : markOf reader question candidates c = some .restated) :
    ∃ newer ∈ candidates, Restates reader newer c ∧
      (markOf reader question candidates newer = none ∨
        ∃ latest, markOf reader question candidates newer = some (.answered latest)) := by
  obtain ⟨_, -, ⟨⟩⟩ | ⟨noLatest, ⟨isGone, -⟩ | ⟨-, _, -, ⟨⟩⟩⟩ := markOf_cases isMarked
  obtain ⟨newer, isNewer, restates, notGone⟩ := exists_newest_rule (distinct_slotted distinct)
    (mem_slotted_of_unmarked member noLatest) isGone
  have isCurrent := current_of_compared restates.isNewer
  have inRuled := (mem_ruled_of_current isCurrent).mpr ⟨isNewer, notGone⟩
  obtain ⟨inCandidates, isAnswered⟩ := (mem_ruled_iff isCurrent).mp inRuled
  exact ⟨newer, inCandidates, restates, isAnswered⟩

theorem answered_spec (member : c ∈ candidates)
    (isMarked : markOf reader question candidates c = some (.answered id)) :
    c.payload.earlierValue = false ∧ ∃ latest ∈ candidates, latest.recordId = id ∧
      latest.payload.earlierValue = false ∧ c.saidAt < latest.saidAt ∧
        markOf reader question candidates latest = none := by
  obtain ⟨_, -, ⟨⟩⟩ | ⟨noLatest, ⟨-, ⟨⟩⟩ | ⟨notGone, _, isAnswer, ⟨⟩⟩⟩ := markOf_cases isMarked
  have inRuled := mem_ruled_of_unmarked (mem_slotted_of_unmarked member noLatest) notGone
  obtain ⟨latest, isIn, isId, isCurrent, isLater, noAnswer⟩ :=
    exists_answer (distinct_ruled distinct) inRuled isAnswer
  obtain ⟨inCandidates, isUnmarked⟩ := (mem_ruled_iff isCurrent).mp isIn
  refine ⟨?_, latest, inCandidates, isId, isCurrent, isLater, ?_⟩
  · by_contra isEarlier
    rw [Bool.not_eq_false] at isEarlier
    rw [no_answerOf_earlier (distinct_ruled distinct) inRuled isEarlier] at isAnswer
    cases isAnswer
  · refine isUnmarked.resolve_right fun isAnswered => ?_
    obtain ⟨other, isOther⟩ := isAnswered
    obtain ⟨_, -, ⟨⟩⟩ | ⟨-, ⟨-, ⟨⟩⟩ | ⟨-, _, answers, -⟩⟩ := markOf_cases isOther
    rw [answers] at noAnswer
    cases noAnswer

end Distinct

theorem soundMarks (distinct : (candidates.map Candidate.recordId).Nodup) :
    SoundMarks reader candidates (markOf reader question candidates) where
  current := by
    intro c member isMarked
    cases isMark : markOf reader question candidates c with
    | none => exact absurd isMark isMarked
    | some written =>
      cases written with
      | inSlot id =>
        obtain ⟨latest, isLatest, -⟩ | ⟨-, ⟨-, ⟨⟩⟩ | ⟨-, _, -, ⟨⟩⟩⟩ := markOf_cases isMark
        exact (latestInSlot_spec isLatest).2.2.1
      | restated =>
        obtain ⟨newer, -, restates, -⟩ := restated_spec distinct member isMark
        exact current_of_compared restates.isOlder
      | answered id => exact (answered_spec distinct member isMark).1
  later := by
    intro c member id isNamed
    obtain ⟨written, isMark, isName⟩ := Option.bind_eq_some_iff.mp isNamed
    cases written with
    | inSlot latest =>
      obtain ⟨latest, isLatest, ⟨⟩⟩ | ⟨-, ⟨-, ⟨⟩⟩ | ⟨-, _, -, ⟨⟩⟩⟩ := markOf_cases isMark
      obtain ⟨isIn, isLater, -, isCurrent⟩ := latestInSlot_spec isLatest
      exact ⟨latest, isIn, Option.some.inj isName, isCurrent, isLater⟩
    | restated => cases isName
    | answered latest =>
      obtain ⟨-, latest, isIn, isId, isCurrent, isLater, -⟩ := answered_spec distinct member isMark
      exact ⟨latest, isIn, isId.trans (Option.some.inj isName), isCurrent, isLater⟩
  restated := fun c member isMark => restated_spec distinct member isMark
  answered := by
    intro c member id isMark
    obtain ⟨-, latest, isIn, isId, -, -, isUnmarked⟩ := answered_spec distinct member isMark
    exact ⟨latest, isIn, isId, isUnmarked⟩
  slots := by
    intro key isValue
    obtain ⟨c, member, isSlot⟩ := isValue
    obtain ⟨latest, found, isNewest⟩ := exists_newest member isSlot
    refine ⟨latest, isNewest, ?_⟩
    intro id isMarked
    rw [markOf, latestInSlot_newest found] at isMarked
    dsimp only at isMarked
    split at isMarked
    · cases isMarked
    · simp at isMarked

theorem later_wellFounded (candidates : List (Candidate Other)) :
    WellFounded fun later c : { c // c ∈ candidates } => c.1.saidAt < later.1.saidAt := by
  have isFinite : Finite { c // c ∈ candidates } := (finite_toSet candidates).to_subtype
  have isIrrefl : Std.Irrefl fun later c : { c // c ∈ candidates } =>
      c.1.saidAt < later.1.saidAt := ⟨fun _ => lt_irrefl _⟩
  have isTrans : IsTrans { c // c ∈ candidates } fun later c =>
      c.1.saidAt < later.1.saidAt := ⟨fun _ _ _ isLater isBefore => isBefore.trans isLater⟩
  exact Finite.wellFounded_of_trans_of_irrefl _

namespace SoundMarks

variable (sound : SoundMarks reader candidates mark)
include sound

section

variable (distinct : (candidates.map Candidate.recordId).Nodup)
include distinct

theorem leads_later {d : Candidate Other}
    (leads : Leads mark candidates c d) : c.saidAt < d.saidAt := by
  obtain ⟨isIn, isOther, isNamed⟩ := leads
  obtain ⟨named, inCandidates, sameRecord, -, isLater⟩ := sound.later c isIn _ isNamed
  rw [eq_of_recordId distinct inCandidates isOther sameRecord] at isLater
  exact isLater

theorem acyclic (c : Candidate Other) :
    ¬Relation.TransGen (Leads mark candidates) c c := by
  have isLater : ∀ {d}, Relation.TransGen (Leads mark candidates) c d → c.saidAt < d.saidAt := by
    intro d path
    induction path with
    | single leads => exact sound.leads_later distinct leads
    | tail _ leads ih =>
      exact ih.trans (sound.leads_later distinct leads)
  exact fun cycle => lt_irrefl _ (isLater cycle)

end

theorem ends (member : c ∈ candidates) (isCurrent : c.payload.earlierValue = false) :
    ∃ d ∈ candidates, Relation.ReflTransGen (Leads mark candidates) c d ∧
      d.payload.earlierValue = false ∧ (mark d = none ∨ mark d = some .restated) := by
  suffices fromHere : ∀ c : { c // c ∈ candidates }, c.1.payload.earlierValue = false →
      ∃ d ∈ candidates, Relation.ReflTransGen (Leads mark candidates) c.1 d ∧
        d.payload.earlierValue = false ∧ (mark d = none ∨ mark d = some .restated) from
    fromHere ⟨c, member⟩ isCurrent
  intro c
  induction c using (later_wellFounded candidates).induction with
  | h c ih =>
    intro isCurrent
    cases isNamed : (mark c.1).bind Mark.names with
    | none =>
      refine ⟨c.1, c.2, Relation.ReflTransGen.refl, isCurrent, ?_⟩
      cases isMark : mark c.1 with
      | none => exact .inl rfl
      | some written =>
        cases written with
        | restated => exact .inr rfl
        | inSlot id | answered id => simp [isMark, Mark.names] at isNamed
    | some id =>
      obtain ⟨next, isNext, sameRecord, nextCurrent, isLater⟩ := sound.later c.1 c.2 id isNamed
      obtain ⟨d, isEnd, path, isRest⟩ := ih ⟨next, isNext⟩ isLater nextCurrent
      have leads : Leads mark candidates c.1 next := ⟨c.2, isNext, by rw [isNamed, sameRecord]⟩
      exact ⟨d, isEnd, Relation.ReflTransGen.head leads path, isRest⟩

theorem current_later (member : c ∈ candidates) (isMarked : mark c ≠ none) :
    ∃ d ∈ candidates, c.saidAt < d.saidAt ∧ d.payload.earlierValue = false ∧ mark d = none := by
  suffices fromHere : ∀ c : { c // c ∈ candidates }, mark c.1 ≠ none →
      ∃ d ∈ candidates, c.1.saidAt < d.saidAt ∧ d.payload.earlierValue = false ∧ mark d = none from
    fromHere ⟨c, member⟩ isMarked
  intro c
  induction c using (later_wellFounded candidates).induction with
  | h c ih =>
    intro isMarked
    have isNext : ∃ next ∈ candidates, next.payload.earlierValue = false ∧
        c.1.saidAt < next.saidAt := by
      cases isNamed : (mark c.1).bind Mark.names with
      | some id =>
        obtain ⟨next, isNext, -, nextCurrent, isLater⟩ := sound.later c.1 c.2 id isNamed
        exact ⟨next, isNext, nextCurrent, isLater⟩
      | none =>
        cases isMark : mark c.1 with
        | none => exact absurd isMark isMarked
        | some written =>
          cases written with
          | restated =>
            obtain ⟨newer, isNewer, restates, -⟩ := sound.restated c.1 c.2 isMark
            exact ⟨newer, isNewer, current_of_compared restates.isNewer, restates.later⟩
          | inSlot id | answered id => simp [isMark, Mark.names] at isNamed
    obtain ⟨next, isNext, nextCurrent, isLater⟩ := isNext
    by_cases isEnd : mark next = none
    · exact ⟨next, isNext, isLater, nextCurrent, isEnd⟩
    · obtain ⟨d, isIn, isLast, isRest⟩ := ih ⟨next, isNext⟩ isLater isEnd
      exact ⟨d, isIn, isLater.trans isLast, isRest⟩

end SoundMarks

theorem currentFirst_perm (candidates : List (Candidate Other)) :
    (currentFirst candidates).Perm candidates := by
  have parts := filter_append_perm (fun c => !c.payload.earlierValue) candidates
  simpa only [currentFirst, Bool.not_not] using parts

/-- The rules give marks to candidates that were current and change nothing else.  What a mark
names is in hand and later; following the marks never comes back, and ends at a candidate without
a mark or at a restated rule; of every marked candidate a later one stays current; and the newest
value of a slot is marked only as a restated rule or an older answer. -/
theorem earlier_values_are_founded (reader : Reader) (question : Text)
    (candidates : List (Candidate Other))
    (distinct : (candidates.map Candidate.recordId).Nodup) :
    (currentValues reader question candidates =
        currentFirst (candidates.map fun c => c.marked (markOf reader question candidates c)) ∧
      (currentValues reader question candidates).Perm
        (candidates.map fun c => c.marked (markOf reader question candidates c))) ∧
    SoundMarks reader candidates (markOf reader question candidates) ∧
    (∀ c, ¬Relation.TransGen (Leads (markOf reader question candidates) candidates) c c) ∧
    (∀ c ∈ candidates, c.payload.earlierValue = false → ∃ d ∈ candidates,
      Relation.ReflTransGen (Leads (markOf reader question candidates) candidates) c d ∧
        d.payload.earlierValue = false ∧
          (markOf reader question candidates d = none ∨
            markOf reader question candidates d = some .restated)) ∧
    ∀ c ∈ candidates, markOf reader question candidates c ≠ none → ∃ d ∈ candidates,
      c.saidAt < d.saidAt ∧ d.payload.earlierValue = false ∧
        markOf reader question candidates d = none := by
  have isMarked : currentValues reader question candidates = currentFirst
      (candidates.map fun c => c.marked (markOf reader question candidates c)) :=
    congrArg currentFirst (latestValues_eq_marked distinct)
  have sound : SoundMarks reader candidates (markOf reader question candidates) :=
    soundMarks distinct
  refine ⟨⟨isMarked, isMarked ▸ currentFirst_perm _⟩, sound, sound.acyclic distinct, ?_, ?_⟩
  · exact fun c member isCurrent => sound.ends member isCurrent
  · exact fun c member isWritten => sound.current_later member isWritten

end Sound

section Lost

def plainWords (text : Text) : Finset Text :=
  (((latin.lower text).splitOnP (· = ' ')).filter fun w => 3 < w.length).toFinset

def plainStem (word : Text) : Text :=
  if word = "tickets".toList then "ticket".toList
  else if word = "require".toList then "requir".toList
  else if word = "approval".toList then "approv".toList
  else word

def plainReader : Reader where
  unicode := latin
  detectLanguage _ := "en"
  contentTerms := plainWords
  stemmedTerms terms _ := terms ∪ terms.image plainStem
  functionWords _ := ∅
  labelWords := ∅
  questionNames _ _ := ∅
  anchors _ _ := ⟨∅, ∅⟩
  unstopped text := text
  isdigit := Char.isDigit
  isupper := Char.isUpper
  numbers _ := []
  capitalised text :=
    ((((text.splitOnP (· = ' ')).drop 1).filter fun w => w.head?.any Char.isUpper).map
      latin.lower).toFinset
  asksLatest _ := false
  latestWord _ := false
  asksPast _ := false
  asksMany _ := false
  timeQualifiers _ := ∅

def required (recordId name value day : String) (kind : Option String) : Candidate Unit where
  recordId
  kind := memoryKind
  text := ("Tickets for " ++ name ++ " require " ++ value).toList
  payload :=
    { subject := some name
      predicate := some "requires"
      ownerPrincipal := some "user:ana"
      object := some value
      observedAt := some day
      statementKind := kind }
  other := ()

/-- An older value of a slot, its newest value, and a newer rule about another thing. -/
def tickets : List (Candidate Unit) :=
  [required "mem_1" "Alder" "review" "2026-01-01" none,
    required "mem_2" "Alder" "approval" "2026-01-02" (some "RULE"),
    required "mem_3" "Birch" "approval" "2026-01-03" (some "RULE")]

/-- Two values of one slot under one record id. -/
def twice : List (Candidate Unit) :=
  [required "mem_1" "Alder" "review" "2026-01-01" none,
    required "mem_1" "Alder" "approval" "2026-01-02" none]

/-- A question that asks with no word of its own. -/
def whatNow : Text := "What now".toList

/-- What a reader of the bundle sees of the marks. -/
def Candidate.seen (c : Candidate Unit) : String × Bool × Option String :=
  (c.recordId, c.payload.earlierValue, c.payload.replacedBy)

theorem tickets_are_founded :
    (tickets.map Candidate.recordId).Nodup ∧
      SoundMarks plainReader tickets (markOf plainReader whatNow tickets) :=
  ⟨by decide, (earlier_values_are_founded plainReader whatNow tickets (by decide)).2.1⟩

theorem newest_of_slot_is_restated :
    (tickets.map Candidate.recordId).Nodup ∧
      (currentValues plainReader whatNow tickets).map Candidate.seen =
        [("mem_3", false, none), ("mem_1", true, some "mem_2"), ("mem_2", true, none)] ∧
      (∃ c ∈ tickets, slotOf plainReader c = some ("user:ana", "alder".toList, "requires".toList)) ∧
      (∀ c ∈ currentValues plainReader whatNow tickets,
        slotOf plainReader c ≠ some ("user:ana", "alder".toList, "requires".toList)) ∧
      (currentValues plainReader whatNow twice).map Candidate.seen =
        [("mem_1", false, none), ("mem_1", true, some "mem_1")] := by
  decide +kernel

end Lost

end MemoryService.Retrieval.CurrentValues
