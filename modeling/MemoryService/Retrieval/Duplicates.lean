import MemoryService.Context.Evidence
import MemoryService.Foundation.IgnoredCase
import MemoryService.Retrieval.StatementForms

/-!
# Copies of the same evidence

A candidate collapses into one that is kept: into that of its record, into one with the same words
from the same person, instant and sources, or into one of its context whose words contain its own.
-/

namespace MemoryService.Retrieval.Duplicates

open Foundation List
open Option (getD_none getD_some map_some none_or or_eq_none_iff some_or)

abbrev Text : Type := List Char

structure Payload where
  textHash : Option String := none
  sourceRefs : List Forms.SourceRef := []
  subject : Option String := none
  ownerPrincipal : Option String := none
  observedAt : Option String := none
  duplicates : List String := []
  deriving DecidableEq

structure Candidate where
  recordId : String
  kind : String
  text : Text
  score : Rat := 0
  retrievers : List String := []
  payload : Payload := {}
  deriving DecidableEq

def memoryKind : String := "memory"

/-- Below this, containment is coincidence. -/
def subsumptionMinChars : Nat := 25

variable (c : Candidate)

def Candidate.identity : String × String := (c.kind, c.recordId)

def inHand (candidates : List Candidate) : List String :=
  candidates.flatMap fun c => c.recordId :: c.payload.duplicates

/-! ## Contexts -/

/-- Where words have to agree to be one evidence. -/
inductive DedupContext where
  | kind (kind : String)
  | record (kind recordId : String)
  | event (kind : String) (subject owner observedAt : Option String)
      (sources : List (String × String))
  deriving DecidableEq

def starts (start text : String) : Bool := start.toList.isPrefixOf text.toList

def isScope (subject : String) : Bool := starts "thread:" subject || starts "workspace:" subject

def Candidate.sources : List (String × String) :=
  (c.payload.sourceRefs.filterMap fun ref => Forms.sourceOf (some ref)).insertionSort
    fun first second => toLex first ≤ toLex second

def Candidate.saidOf : Option String :=
  match (Forms.given c.payload.subject).filter fun subject => !isScope subject with
  | some subject => some subject
  | none => Forms.given c.payload.ownerPrincipal

/-- `_dedup_context`. -/
def dedupContext : DedupContext :=
  if c.kind ≠ memoryKind then .kind c.kind
  else if c.sources = [] ∨ c.sources.length ≠ c.payload.sourceRefs.length then
    .record c.kind c.recordId
  else
    match c.saidOf with
    | none => .record c.kind c.recordId
    | some subject =>
      .event c.kind (some subject) c.payload.ownerPrincipal c.payload.observedAt c.sources

/-- `_speaker`. -/
def speaker (principal : Option String) : Option String := principal.map Forms.speakerKey

/-- Whether a subject names who spoke: `_SPEAKER_SUBJECTS`. -/
def namesSpeaker (subject : Option String) : Bool :=
  subject.any fun subject => starts "user:" subject || starts "agent:" subject

/-- `_twin_context`: who said the words, when, and from which source turns. -/
def twinContext : DedupContext → DedupContext
  | .event kind subject owner observedAt sources =>
    let subject := if namesSpeaker subject then subject else owner
    .event kind (speaker subject) (speaker owner) observedAt sources
  | context => context

section Pass

variable (unicode : Unicode) (contentHash : Text → String)

/-- `split()`. -/
def split (text : Text) : List Text := (text.splitOnP unicode.isSpace).filter (· ≠ [])

/-- `_normalised`. -/
def normalised (text : Text) : Text := [' '].intercalate (split unicode (unicode.lower text))

def Candidate.digest (c : Candidate) : Option String :=
  match Forms.given c.payload.textHash with
  | some digest => some digest
  | none => if c.text = [] then none else some (contentHash c.text)

def Candidate.hashKey (c : Candidate) : Option (DedupContext × String) :=
  (c.digest contentHash).map fun digest => (twinContext (dedupContext c), digest)

/-! ## The pass -/

/-- An entry of `groups`: a kept candidate's normalised text, under its context. -/
structure Grouped where
  context : DedupContext
  body : Text
  recordId : String
  place : Nat

/-- The tables of `_dedup`; a kept candidate is known by its place in `out`. -/
structure Tables where
  out : List Candidate := []
  aliases : Dict (String × String) Nat := ∅
  byHash : Dict (DedupContext × String) Nat := ∅
  groups : List Grouped := []

/-- `_subsumed_by`. -/
def subsumedBy (text : Text) (recordId : String) (kept : List Grouped) : Option Nat :=
  if text.length < subsumptionMinChars then none
  else
    (kept.find? fun other =>
      other.recordId ≠ recordId ∧ text.length < other.body.length ∧ text <:+: other.body).map
        Grouped.place

def Candidate.absorb (twin candidate : Candidate) (known : Bool) : Candidate :=
  { twin with
    score := max twin.score candidate.score
    retrievers := Context.sortedSet (twin.retrievers ++ candidate.retrievers)
    payload :=
      if twin.recordId ≠ candidate.recordId ∧ !known then
        { twin.payload with duplicates := twin.payload.duplicates ++ [candidate.recordId] }
      else twin.payload }

def Tables.twin (tables : Tables) (candidate : Candidate) : Option Nat :=
  (tables.aliases.get? candidate.identity).or <|
    ((candidate.hashKey contentHash).bind tables.byHash.get?).or <|
      subsumedBy (normalised unicode candidate.text) candidate.recordId
        (tables.groups.filter fun other => other.context = dedupContext candidate)

def Tables.collapse (tables : Tables) (candidate : Candidate) : Tables :=
  let place := (tables.twin unicode contentHash candidate).getD tables.out.length
  let aliases := tables.aliases.set candidate.identity place
  let byHash :=
    match candidate.hashKey contentHash with
    | some key => tables.byHash.set key place
    | none => tables.byHash
  match tables.twin unicode contentHash candidate with
  | none =>
    { out := tables.out ++ [candidate]
      aliases, byHash
      groups := tables.groups ++
        [⟨dedupContext candidate, normalised unicode candidate.text, candidate.recordId, place⟩] }
  | some twin =>
    { tables with
      out := tables.out.modify twin fun kept =>
        kept.absorb candidate (tables.aliases.contains candidate.identity)
      aliases, byHash }

def collapsed (candidates : List Candidate) : Tables :=
  candidates.foldl (Tables.collapse unicode contentHash) {}

/-- `_dedup`. -/
def dedup (candidates : List Candidate) : List Candidate :=
  (collapsed unicode contentHash candidates).out

end Pass

/-! ## What a kept candidate keeps -/

def Candidate.frozen (c : Candidate) : Candidate :=
  { c with score := 0, retrievers := [], payload := { c.payload with duplicates := [] } }

namespace Candidate

variable (c twin : Candidate) (known : Bool)

@[simp] theorem frozen_identity : c.frozen.identity = c.identity := rfl

@[simp] theorem frozen_text : c.frozen.text = c.text := rfl

@[simp] theorem frozen_hashKey (contentHash : Text → String) :
    c.frozen.hashKey contentHash = c.hashKey contentHash := rfl

@[simp]
theorem frozen_absorb : (twin.absorb c known).frozen = twin.frozen := by
  rw [absorb]
  split <;> rfl

end Candidate

structure Candidate.Carries (kept c : Candidate) : Prop where
  kind : kept.kind = c.kind
  score : c.score ≤ kept.score
  inHand : c.recordId = kept.recordId ∨ c.recordId ∈ kept.payload.duplicates

theorem Candidate.carries_self (c : Candidate) : c.Carries c := ⟨rfl, le_refl _, .inl rfl⟩

variable {kept c other after : Candidate} {known : Bool} {identity : String × String} {twin : Nat}
  {candidates : List Candidate}

theorem Candidate.Carries.absorb (carries : kept.Carries c)
    (other : Candidate) (known : Bool) : (kept.absorb other known).Carries c where
  kind := carries.kind
  score := carries.score.trans (le_max_left _ _)
  inHand := by
    refine carries.inHand.imp id fun member => ?_
    rw [Candidate.absorb]
    simp only
    split
    · exact mem_append_left _ member
    · exact member

theorem Candidate.carries_absorb (sameKind : kept.kind = c.kind)
    (already : known = true → c.recordId = kept.recordId ∨ c.recordId ∈ kept.payload.duplicates) :
    (kept.absorb c known).Carries c where
  kind := sameKind
  score := le_max_right _ _
  inHand := by
    rw [Candidate.absorb]
    simp only
    split
    case isTrue => exact .inr (mem_append_right _ (mem_singleton.mpr rfl))
    case isFalse isOld =>
      by_cases sameRecord : kept.recordId = c.recordId
      · exact .inl sameRecord.symm
      · cases known with
        | true => exact already rfl
        | false => exact absurd ⟨sameRecord, rfl⟩ isOld

section Tables

variable (unicode : Unicode) (contentHash : Text → String)

def Tables.keptFor (tables : Tables) (c : Candidate) : Option Candidate :=
  (tables.aliases.get? c.identity).bind fun place => tables.out[place]?

def grouped (entry : Candidate × Nat) : Grouped :=
  ⟨dedupContext entry.1, normalised unicode entry.1.text, entry.1.recordId, entry.2⟩

structure Sound (came : List Candidate) (tables : Tables) : Prop where
  carried : ∀ c ∈ came, ∃ kept, tables.keptFor c = some kept ∧ kept.Carries c
  aliases : ∀ identity place, tables.aliases.get? identity = some place →
    ∃ c ∈ came, c.identity = identity
  keyed : ∀ key place, tables.byHash.get? key = some place →
    ∃ c ∈ came, c.hashKey contentHash = some key ∧ tables.aliases.get? c.identity = some place
  keys : ∀ c ∈ came, ∀ key, c.hashKey contentHash = some key →
    ∃ place, tables.byHash.get? key = some place
  groups : tables.groups = (tables.out.map Candidate.frozen).zipIdx.map (grouped unicode)
  order : (tables.out.map Candidate.frozen).Sublist
    ((firstSeen Candidate.identity came).map Candidate.frozen)
  own : ∀ place kept, tables.out[place]? = some kept →
    tables.aliases.get? kept.identity = some place ∧
      ∃ c ∈ came, tables.aliases.get? c.identity = some place ∧ c.score = kept.score

theorem sound_nil : Sound unicode contentHash [] {} where
  carried := by simp
  aliases := by simp [Dict.get?, EmptyCollection.emptyCollection, Dict.empty]
  keyed := by simp [Dict.get?, EmptyCollection.emptyCollection, Dict.empty]
  keys := by simp
  groups := rfl
  order := List.Sublist.slnil
  own := by simp

variable {unicode contentHash} {came : List Candidate} {tables : Tables} {c kept : Candidate}
  {place : Nat}

def DedupContext.kindOf : DedupContext → String
  | .kind name => name
  | .record name _ => name
  | .event name _ _ _ _ => name

theorem kindOf_context (c : Candidate) : (dedupContext c).kindOf = c.kind := by
  rw [dedupContext]
  split
  · rfl
  · split
    · rfl
    · split <;> rfl

theorem kindOf_twinContext (context : DedupContext) :
    (twinContext context).kindOf = context.kindOf := by
  cases context <;> rfl

theorem kindOf_hashKey {key : DedupContext × String} (isKey : c.hashKey contentHash = some key)
    (otherKey : other.hashKey contentHash = some key) : other.kind = c.kind := by
  obtain ⟨digest, -, rfl⟩ := Option.map_eq_some_iff.mp isKey
  obtain ⟨otherDigest, -, same⟩ := Option.map_eq_some_iff.mp otherKey
  have contexts := congrArg DedupContext.kindOf (Prod.mk.inj same).1
  rw [kindOf_twinContext, kindOf_twinContext, kindOf_context, kindOf_context] at contexts
  exact contexts

variable (unicode contentHash) in
inductive Reason (came : List Candidate) (tables : Tables) (c kept : Candidate) (place : Nat) :
    Prop where
  | again (other : Candidate) (member : other ∈ came) (same : other.identity = c.identity)
      (isAlias : tables.aliases.get? c.identity = some place)
  | words (isNew : tables.aliases.get? c.identity = none) (other : Candidate)
      (member : other ∈ came) (key : DedupContext × String)
      (isKey : c.hashKey contentHash = some key)
      (otherKey : other.hashKey contentHash = some key)
      (isAlias : tables.aliases.get? other.identity = some place)
  | part (isNew : tables.aliases.get? c.identity = none)
      (context : dedupContext kept = dedupContext c) (apart : kept.recordId ≠ c.recordId)
      (isPart : normalised unicode c.text <:+: normalised unicode kept.text)

theorem keptFor_eq_some (isAlias : tables.aliases.get? c.identity = some place)
    (isKept : tables.out[place]? = some kept) : tables.keptFor c = some kept := by
  rw [Tables.keptFor, isAlias]
  exact isKept

theorem kept_of_alias (sound : Sound unicode contentHash came tables) (member : c ∈ came)
    (isAlias : tables.aliases.get? c.identity = some place) :
    ∃ kept, tables.out[place]? = some kept ∧ kept.Carries c := by
  obtain ⟨kept, isKept, carries⟩ := sound.carried c member
  rw [Tables.keptFor, isAlias] at isKept
  exact ⟨kept, isKept, carries⟩

theorem twin_spec (sound : Sound unicode contentHash came tables)
    (isTwin : tables.twin unicode contentHash c = some place) :
    ∃ kept, tables.out[place]? = some kept ∧ kept.kind = c.kind ∧
      Reason unicode contentHash came tables c kept place := by
  rw [Tables.twin] at isTwin
  cases isAlias : tables.aliases.get? c.identity with
  | some found =>
    rw [isAlias, some_or] at isTwin
    cases isTwin
    obtain ⟨other, member, same⟩ := sound.aliases c.identity place isAlias
    obtain ⟨kept, isKept, carries⟩ := kept_of_alias sound member (same ▸ isAlias)
    have sameKind : other.kind = c.kind := congrArg Prod.fst same
    exact ⟨kept, isKept, carries.kind.trans sameKind, .again other member same isAlias⟩
  | none =>
    rw [isAlias, none_or] at isTwin
    cases isHashed : (c.hashKey contentHash).bind tables.byHash.get? with
    | some found =>
      rw [isHashed, some_or] at isTwin
      cases isTwin
      obtain ⟨key, isKey, isPlace⟩ := Option.bind_eq_some_iff.mp isHashed
      obtain ⟨other, member, otherKey, leads⟩ := sound.keyed key place isPlace
      obtain ⟨kept, isKept, carries⟩ := kept_of_alias sound member leads
      exact ⟨kept, isKept, carries.kind.trans (kindOf_hashKey isKey otherKey),
        .words isAlias other member key isKey otherKey leads⟩
    | none =>
      rw [isHashed, none_or, subsumedBy] at isTwin
      split at isTwin
      · cases isTwin
      · obtain ⟨entry, isFound, rfl⟩ := Option.map_eq_some_iff.mp isTwin
        have isPart := find?_some isFound
        have isGrouped := mem_filter.mp (mem_of_find?_eq_some isFound)
        simp only [decide_eq_true_eq] at isPart isGrouped
        obtain ⟨inGroups, context⟩ := isGrouped
        rw [sound.groups] at inGroups
        obtain ⟨⟨shown, index⟩, isPlaced, rfl⟩ := mem_map.mp inGroups
        have isAt := mk_mem_zipIdx_iff_getElem?.mp isPlaced
        rw [getElem?_map] at isAt
        obtain ⟨kept, isKept, rfl⟩ := Option.map_eq_some_iff.mp isAt
        have sameContext : dedupContext kept = dedupContext c := context
        have sameKind : kept.kind = c.kind := by
          rw [← kindOf_context, sameContext, kindOf_context]
        exact ⟨kept, isKept, sameKind, .part isAlias sameContext isPart.1 isPart.2.2⟩

theorem alias_collapse_self :
    (tables.collapse unicode contentHash c).aliases.get? c.identity =
      some ((tables.twin unicode contentHash c).getD tables.out.length) := by
  rw [Tables.collapse]
  split <;> exact Dict.get?_set_self _ _ _

theorem alias_collapse (isAlias : tables.aliases.get? identity = some place) :
    (tables.collapse unicode contentHash c).aliases.get? identity = some place := by
  by_cases same : identity = c.identity
  case pos =>
    subst same
    rw [alias_collapse_self, Tables.twin, isAlias]
    rfl
  case neg =>
    rw [Tables.collapse]
    split
    · rw [Dict.get?_set_other _ _ same, isAlias]
    · rw [Dict.get?_set_other _ _ same, isAlias]

theorem alias_of_collapse
    (isAlias : (tables.collapse unicode contentHash c).aliases.get? identity = some place)
    (apart : identity ≠ c.identity) : tables.aliases.get? identity = some place := by
  rw [Tables.collapse] at isAlias
  split at isAlias
  · rwa [Dict.get?_set_other _ _ apart] at isAlias
  · rwa [Dict.get?_set_other _ _ apart] at isAlias

theorem byHash_collapse (key : DedupContext × String) :
    (tables.collapse unicode contentHash c).byHash.get? key =
      if c.hashKey contentHash = some key then
        some ((tables.twin unicode contentHash c).getD tables.out.length)
      else tables.byHash.get? key := by
  have table : (tables.collapse unicode contentHash c).byHash =
      match c.hashKey contentHash with
      | some key =>
        tables.byHash.set key ((tables.twin unicode contentHash c).getD tables.out.length)
      | none => tables.byHash := by
    rw [Tables.collapse]
    split <;> rfl
  rw [table]
  cases isKey : c.hashKey contentHash with
  | none => simp
  | some own =>
    by_cases same : own = key
    case pos =>
      subst same
      simp [Dict.get?_set_self]
    case neg =>
      have other : some own ≠ some key := fun equal => same (Option.some.inj equal)
      simp only [if_neg other]
      exact Dict.get?_set_other _ _ (Ne.symm same)

theorem map_frozen_modify (twin : Nat) (known : Bool) (out : List Candidate) :
    (out.modify twin fun kept => kept.absorb c known).map Candidate.frozen =
      out.map Candidate.frozen := by
  apply ext_getElem?
  intro index
  rw [getElem?_map, getElem?_map, getElem?_modify]
  cases out[index]? with
  | none => rfl
  | some kept =>
    simp only [Option.map_eq_map, map_some]
    split
    · rw [Candidate.frozen_absorb]
    · rfl

theorem firstSeen_sublist_concat (came : List Candidate) (c : Candidate) :
    (firstSeen Candidate.identity came).Sublist (firstSeen Candidate.identity (came ++ [c])) := by
  rw [firstSeen_concat]
  split
  · exact List.Sublist.refl _
  · exact sublist_append_left _ _

theorem frozen_eq_of_kept
    (isAfter : (tables.out.modify twin fun kept => kept.absorb c known)[place]? = some after) :
    ∃ kept, tables.out[place]? = some kept ∧
      after = if twin = place then kept.absorb c known else kept := by
  rw [getElem?_modify] at isAfter
  obtain ⟨kept, isKept, rfl⟩ := Option.map_eq_some_iff.mp isAfter
  refine ⟨kept, isKept, ?_⟩
  split <;> rfl

theorem collapse_new (isNew : tables.twin unicode contentHash c = none) :
    (tables.collapse unicode contentHash c).out = tables.out ++ [c] ∧
      (tables.collapse unicode contentHash c).groups =
        tables.groups ++ [grouped unicode (c.frozen, tables.out.length)] := by
  rw [Tables.collapse, isNew]
  exact ⟨rfl, rfl⟩

theorem collapse_twin (isTwin : tables.twin unicode contentHash c = some place) :
    (tables.collapse unicode contentHash c).out = tables.out.modify place (fun kept =>
        kept.absorb c (tables.aliases.contains c.identity)) ∧
      (tables.collapse unicode contentHash c).groups = tables.groups := by
  rw [Tables.collapse, isTwin]
  exact ⟨rfl, rfl⟩

theorem not_alias_of_new (isNew : tables.twin unicode contentHash c = none) :
    tables.aliases.get? c.identity = none := by
  rw [Tables.twin, or_eq_none_iff] at isNew
  exact isNew.1

section

variable (sound : Sound unicode contentHash came tables)
include sound

theorem Sound.aliases_collapse :
    ∀ identity place, (tables.collapse unicode contentHash c).aliases.get? identity = some place →
      ∃ other ∈ came ++ [c], other.identity = identity := by
  intro identity place isAlias
  by_cases same : identity = c.identity
  case pos => exact ⟨c, by simp, same.symm⟩
  case neg =>
    obtain ⟨other, member, isOther⟩ := sound.aliases identity place (alias_of_collapse isAlias same)
    exact ⟨other, mem_append_left _ member, isOther⟩

theorem Sound.keyed_collapse :
    ∀ key place, (tables.collapse unicode contentHash c).byHash.get? key = some place →
      ∃ other ∈ came ++ [c], other.hashKey contentHash = some key ∧
        (tables.collapse unicode contentHash c).aliases.get? other.identity = some place := by
  intro key place leads
  rw [byHash_collapse] at leads
  split at leads
  case isTrue isKey =>
    refine ⟨c, by simp, isKey, ?_⟩
    rw [alias_collapse_self]
    exact leads
  case isFalse =>
    obtain ⟨other, member, isKey, isAlias⟩ := sound.keyed key place leads
    exact ⟨other, mem_append_left _ member, isKey, alias_collapse isAlias⟩

theorem Sound.keys_collapse :
    ∀ other ∈ came ++ [c], ∀ key, other.hashKey contentHash = some key →
      ∃ place, (tables.collapse unicode contentHash c).byHash.get? key = some place := by
  intro other member key isKey
  rw [byHash_collapse]
  split
  case isTrue => exact ⟨_, rfl⟩
  case isFalse isOther =>
    cases mem_append.mp member with
    | inl isEarlier => exact sound.keys other isEarlier key isKey
    | inr isLast =>
      rw [mem_singleton.mp isLast] at isKey
      exact absurd isKey isOther

theorem sound_new (isNew : tables.twin unicode contentHash c = none) :
    Sound unicode contentHash (came ++ [c]) (tables.collapse unicode contentHash c) := by
  obtain ⟨isOut, isGroups⟩ := collapse_new isNew
  have noAlias := not_alias_of_new isNew
  have ownAlias : (tables.collapse unicode contentHash c).aliases.get? c.identity =
      some tables.out.length := by
    rw [alias_collapse_self, isNew, getD_none]
  have notSeen : ¬(firstSeen Candidate.identity came).any
      (fun other => other.identity = c.identity) := by
    intro seen
    obtain ⟨other, isFirst, same⟩ := any_eq_true.mp seen
    obtain ⟨kept, isKept, -⟩ := sound.carried other (mem_of_mem_firstSeen isFirst)
    rw [Tables.keptFor, of_decide_eq_true same, noAlias] at isKept
    cases isKept
  constructor
  case carried =>
    intro other member
    cases mem_append.mp member with
    | inl isEarlier =>
      obtain ⟨kept, isKept, carries⟩ := sound.carried other isEarlier
      obtain ⟨place, isAlias, isAt⟩ := Option.bind_eq_some_iff.mp isKept
      refine ⟨kept, keptFor_eq_some (alias_collapse isAlias) ?_, carries⟩
      rw [isOut]
      exact List.getElem?_append_left (List.getElem?_eq_some_iff.mp isAt).1 ▸ isAt
    | inr isLast =>
      rw [mem_singleton.mp isLast]
      refine ⟨c, keptFor_eq_some ownAlias ?_, c.carries_self⟩
      rw [isOut, getElem?_concat_length]
  case aliases => exact sound.aliases_collapse
  case keyed => exact sound.keyed_collapse
  case keys => exact sound.keys_collapse
  case groups =>
    rw [isGroups, isOut, sound.groups, map_append, zipIdx_append, map_append]
    simp
  case order =>
    rw [isOut, firstSeen_concat, if_neg notSeen, map_append, map_append]
    exact sound.order.append (List.Sublist.refl _)
  case own =>
    intro place kept isAt
    rw [isOut] at isAt
    by_cases isEarlier : place < tables.out.length
    case pos =>
      rw [getElem?_append_left isEarlier] at isAt
      obtain ⟨isAlias, other, member, otherAlias, sameScore⟩ := sound.own place kept isAt
      exact ⟨alias_collapse isAlias, other, mem_append_left _ member,
        alias_collapse otherAlias, sameScore⟩
    case neg =>
      have inside := (List.getElem?_eq_some_iff.mp isAt).1
      rw [length_append, length_singleton] at inside
      have isLast : place = tables.out.length := by omega
      rw [isLast, getElem?_concat_length] at isAt
      cases isAt
      subst isLast
      exact ⟨ownAlias, c, by simp, ownAlias, rfl⟩

theorem sound_twin (isTwin : tables.twin unicode contentHash c = some twin) :
    Sound unicode contentHash (came ++ [c]) (tables.collapse unicode contentHash c) := by
  obtain ⟨isOut, isGroups⟩ := collapse_twin isTwin
  obtain ⟨target, isTarget, sameKind, -⟩ := twin_spec sound isTwin
  have ownAlias : (tables.collapse unicode contentHash c).aliases.get? c.identity = some twin := by
    rw [alias_collapse_self, isTwin, getD_some]
  have after : ∀ {place : Nat} {kept : Candidate}, tables.out[place]? = some kept →
      (tables.collapse unicode contentHash c).out[place]? = some
        (if twin = place then kept.absorb c (tables.aliases.contains c.identity) else kept) := by
    intro place kept isKept
    rw [isOut, getElem?_modify, isKept]
    rfl
  constructor
  case carried =>
    intro other member
    cases mem_append.mp member with
    | inl isEarlier =>
      obtain ⟨kept, isKept, carries⟩ := sound.carried other isEarlier
      obtain ⟨place, isAlias, isAt⟩ := Option.bind_eq_some_iff.mp isKept
      refine ⟨_, keptFor_eq_some (alias_collapse isAlias) (after isAt), ?_⟩
      split
      · exact carries.absorb c _
      · exact carries
    | inr isLast =>
      rw [mem_singleton.mp isLast]
      refine ⟨_, keptFor_eq_some ownAlias (after isTarget), ?_⟩
      rw [if_pos rfl]
      apply Candidate.carries_absorb sameKind
      intro isKnown
      obtain ⟨place, isAlias⟩ := Dict.exists_get? (Dict.contains_iff.mp isKnown)
      have samePlace : place = twin := by
        rw [Tables.twin, isAlias, some_or] at isTwin
        exact Option.some.inj isTwin
      obtain ⟨other, isEarlier, same⟩ := sound.aliases c.identity place isAlias
      obtain ⟨kept, isKept, carries⟩ := kept_of_alias sound isEarlier (same ▸ isAlias)
      rw [samePlace, isTarget] at isKept
      have sameRecord : other.recordId = c.recordId := congrArg Prod.snd same
      rw [Option.some.inj isKept, ← sameRecord]
      exact carries.inHand
  case aliases => exact sound.aliases_collapse
  case keyed => exact sound.keyed_collapse
  case keys => exact sound.keys_collapse
  case groups => rw [isGroups, isOut, sound.groups, map_frozen_modify]
  case order =>
    rw [isOut, map_frozen_modify]
    exact sound.order.trans ((firstSeen_sublist_concat came c).map _)
  case own =>
    intro place kept isAt
    rw [isOut] at isAt
    obtain ⟨before, isBefore, rfl⟩ := frozen_eq_of_kept isAt
    obtain ⟨isAlias, other, member, otherAlias, sameScore⟩ := sound.own place before isBefore
    have earlier : other ∈ came ++ [c] := mem_append_left _ member
    split
    case isFalse =>
      exact ⟨alias_collapse isAlias, other, earlier, alias_collapse otherAlias, sameScore⟩
    case isTrue isHere =>
      subst isHere
      refine ⟨alias_collapse isAlias, ?_⟩
      cases le_total before.score c.score with
      | inl isMore => exact ⟨c, by simp, ownAlias, (max_eq_right isMore).symm⟩
      | inr isLess =>
        exact ⟨other, earlier, alias_collapse otherAlias, sameScore.trans (max_eq_left isLess).symm⟩

end

theorem collapsed_concat (came : List Candidate) (c : Candidate) :
    collapsed unicode contentHash (came ++ [c]) =
      (collapsed unicode contentHash came).collapse unicode contentHash c := by
  rw [collapsed, foldl_append]
  rfl

theorem sound_collapsed (candidates : List Candidate) :
    Sound unicode contentHash candidates (collapsed unicode contentHash candidates) := by
  induction candidates using List.reverseRecOn with
  | nil => exact sound_nil unicode contentHash
  | append_singleton came c ih =>
    rw [collapsed_concat]
    cases isTwin : (collapsed unicode contentHash came).twin unicode contentHash c with
    | none => exact sound_new ih isTwin
    | some twin => exact sound_twin ih isTwin

/-! ## Who said what is kept -/

/-- Who said the words of a memory and wrote them down, when, and from which turns. -/
structure Said where
  speaker : Option String
  writer : Option String
  observedAt : Option String
  sources : List (String × String)
  deriving DecidableEq

def Candidate.said (c : Candidate) : Said where
  speaker := speaker (if namesSpeaker c.saidOf then c.saidOf else c.payload.ownerPrincipal)
  writer := speaker c.payload.ownerPrincipal
  observedAt := c.payload.observedAt
  sources := c.sources

variable (unicode) in
/-- The kept candidate has the words of the other and, for a memory, who said them. -/
structure Candidate.Speaks (kept c : Candidate) : Prop where
  said : c.kind = memoryKind → kept.said = c.said
  words : normalised unicode c.text <:+: normalised unicode kept.text

theorem Candidate.speaks_self (c : Candidate) : c.Speaks unicode c := ⟨fun _ => rfl, infix_refl _⟩

theorem Candidate.Speaks.of_frozen (speaks : kept.Speaks unicode c)
    (same : after.frozen = kept.frozen) : after.Speaks unicode c where
  said isMemory := (congrArg Candidate.said same).trans (speaks.said isMemory)
  words := by
    have sameText : after.frozen.text = kept.frozen.text := by rw [same]
    rw [Candidate.frozen_text, Candidate.frozen_text] at sameText
    rw [sameText]
    exact speaks.words

theorem context_cases (isMemory : c.kind = memoryKind) :
    dedupContext c = .record c.kind c.recordId ∨
      ∃ subject, c.saidOf = some subject ∧ dedupContext c =
        .event c.kind (some subject) c.payload.ownerPrincipal c.payload.observedAt c.sources := by
  rw [dedupContext, if_neg (not_not.mpr isMemory)]
  split
  case isTrue => exact .inl rfl
  case isFalse =>
    cases isSubject : c.saidOf with
    | none => exact .inl rfl
    | some subject => exact .inr ⟨subject, rfl, rfl⟩

theorem saidOf_context (isMemory : c.kind = memoryKind)
    (same : twinContext (dedupContext other) = twinContext (dedupContext c)) :
    other.said = c.said ∨ other.identity = c.identity := by
  have sameKind := congrArg DedupContext.kindOf same
  rw [kindOf_twinContext, kindOf_twinContext, kindOf_context, kindOf_context] at sameKind
  rcases context_cases isMemory with isRecord | ⟨subject, isSubject, isEvent⟩
  · rcases context_cases (sameKind.trans isMemory) with otherRecord | ⟨_, -, otherEvent⟩
    · rw [isRecord, otherRecord] at same
      obtain ⟨kinds, records⟩ := DedupContext.record.inj same
      exact .inr (Prod.ext kinds records)
    · rw [isRecord, otherEvent] at same
      cases same
  · rcases context_cases (sameKind.trans isMemory) with otherRecord | ⟨_, otherSubject, otherEvent⟩
    · rw [isEvent, otherRecord] at same
      cases same
    · rw [isEvent, otherEvent] at same
      obtain ⟨-, speakers, writers, instants, sources⟩ := DedupContext.event.inj same
      left
      rw [Candidate.said, Candidate.said, isSubject, otherSubject, speakers, writers, instants,
        sources]

/-- Candidates of one record say the same. -/
def Consistent (unicode : Unicode) (candidates : List Candidate) : Prop :=
  ∀ first ∈ candidates, ∀ second ∈ candidates, first.identity = second.identity →
    (first.kind = memoryKind → first.said = second.said) ∧
      normalised unicode first.text = normalised unicode second.text

/-- A digest belongs to one normalised text. -/
def Injective (unicode : Unicode) (contentHash : Text → String) (candidates : List Candidate) :
    Prop :=
  ∀ first ∈ candidates, ∀ second ∈ candidates, ∀ digest,
    first.digest contentHash = some digest → second.digest contentHash = some digest →
      normalised unicode first.text = normalised unicode second.text

theorem Candidate.Speaks.trans (speaks : kept.Speaks unicode other)
    (said : c.kind = memoryKind → other.said = c.said) (kinds : other.kind = c.kind)
    (words : normalised unicode other.text = normalised unicode c.text) :
    kept.Speaks unicode c where
  said isMemory := (speaks.said (kinds.trans isMemory)).trans (said isMemory)
  words := words ▸ speaks.words

theorem speaks_of_reason
    (consistent : Consistent unicode candidates)
    (injective : Injective unicode contentHash candidates)
    (within : ∀ other ∈ came, other ∈ candidates) (member : c ∈ candidates)
    (speaks : ∀ other ∈ came, tables.aliases.get? other.identity = some place →
      kept.Speaks unicode other)
    (reason : Reason unicode contentHash came tables c kept place) : kept.Speaks unicode c := by
  have ofRecord : ∀ other ∈ came, other.identity = c.identity →
      tables.aliases.get? other.identity = some place → kept.Speaks unicode c := by
    intro other isEarlier same isAlias
    obtain ⟨said, words⟩ := consistent other (within other isEarlier) c member same
    have kinds : other.kind = c.kind := congrArg Prod.fst same
    exact (speaks other isEarlier isAlias).trans (fun isMemory => said (kinds.trans isMemory))
      kinds words
  cases reason with
  | again other isEarlier same isAlias => exact ofRecord other isEarlier same (same ▸ isAlias)
  | words isNew other isEarlier key isKey otherKey isAlias =>
    have kinds := kindOf_hashKey isKey otherKey
    obtain ⟨digest, isDigest, rfl⟩ := Option.map_eq_some_iff.mp isKey
    obtain ⟨otherDigest, isOther, same⟩ := Option.map_eq_some_iff.mp otherKey
    obtain ⟨contexts, rfl⟩ := Prod.mk.inj same
    have texts := injective other (within other isEarlier) c member _ isOther isDigest
    by_cases sameRecord : other.identity = c.identity
    case pos => exact ofRecord other isEarlier sameRecord isAlias
    case neg =>
      refine (speaks other isEarlier isAlias).trans (fun isMemory => ?_) kinds texts
      exact (saidOf_context isMemory contexts).resolve_right sameRecord
  | part isNew context apart isPart =>
    refine ⟨fun isMemory => ?_, isPart⟩
    refine (saidOf_context isMemory (congrArg twinContext context)).resolve_right ?_
    intro sameRecord
    exact apart (congrArg Prod.snd sameRecord)

theorem out_collapse (isKept : tables.out[place]? = some kept) (last : Candidate) :
    ∃ after, (tables.collapse unicode contentHash last).out[place]? = some after ∧
      after.frozen = kept.frozen := by
  cases isTwin : tables.twin unicode contentHash last with
  | none =>
    refine ⟨kept, ?_, rfl⟩
    rw [(collapse_new isTwin).1]
    exact List.getElem?_append_left (List.getElem?_eq_some_iff.mp isKept).1 ▸ isKept
  | some twin =>
    rw [(collapse_twin isTwin).1, getElem?_modify, isKept]
    refine ⟨_, rfl, ?_⟩
    split
    · rw [Candidate.frozen_absorb]
    · rfl

theorem keptFor_unique {first second : Candidate}
    (isAlias : tables.aliases.get? c.identity = some place)
    (isFirst : tables.out[place]? = some first) (isSecond : tables.keptFor c = some second) :
    first = second :=
  Option.some.inj ((keptFor_eq_some isAlias isFirst).symm.trans isSecond)

theorem speaks_collapsed
    (consistent : Consistent unicode candidates)
    (injective : Injective unicode contentHash candidates)
    (within : ∀ other ∈ came, other ∈ candidates) :
    ∀ c ∈ came, ∀ kept, (collapsed unicode contentHash came).keptFor c = some kept →
      kept.Speaks unicode c := by
  induction came using List.reverseRecOn with
  | nil => simp
  | append_singleton came last ih =>
    have before : ∀ other ∈ came, other ∈ candidates := fun other member =>
      within other (mem_append_left _ member)
    have earlier := ih before
    have sound : Sound unicode contentHash came (collapsed unicode contentHash came) :=
      sound_collapsed came
    rw [collapsed_concat]
    intro c member after isAfter
    cases mem_append.mp member with
    | inl isEarlier =>
      obtain ⟨kept, isKept, -⟩ := sound.carried c isEarlier
      obtain ⟨place, isAlias, isAt⟩ := Option.bind_eq_some_iff.mp isKept
      obtain ⟨stays, isThere, sameFrozen⟩ := out_collapse isAt last
      rw [← keptFor_unique (alias_collapse isAlias) isThere isAfter]
      exact (earlier c isEarlier kept isKept).of_frozen sameFrozen
    | inr isLast =>
      rw [mem_singleton.mp isLast] at isAfter ⊢
      have ownAlias : ((collapsed unicode contentHash came).collapse unicode contentHash
          last).aliases.get? last.identity = _ := alias_collapse_self
      cases isTwin : (collapsed unicode contentHash came).twin unicode contentHash last with
      | none =>
        rw [isTwin, getD_none] at ownAlias
        have isThere : ((collapsed unicode contentHash came).collapse unicode contentHash
            last).out[(collapsed unicode contentHash came).out.length]? = some last := by
          rw [(collapse_new isTwin).1, getElem?_concat_length]
        rw [← keptFor_unique ownAlias isThere isAfter]
        exact last.speaks_self
      | some twin =>
        rw [isTwin, getD_some] at ownAlias
        obtain ⟨kept, isKept, -, reason⟩ := twin_spec sound isTwin
        obtain ⟨stays, isThere, sameFrozen⟩ := out_collapse isKept last
        rw [← keptFor_unique ownAlias isThere isAfter]
        refine (speaks_of_reason consistent injective before (within last (by simp)) ?_
          reason).of_frozen sameFrozen
        intro other isEarlier isAlias
        exact earlier other isEarlier kept (keptFor_eq_some isAlias isKept)

/-! ## A second pass -/

variable (unicode contentHash) in
structure Apart (earlier later : Candidate) : Prop where
  records : earlier.identity ≠ later.identity
  words : ∀ key, earlier.hashKey contentHash = some key → later.hashKey contentHash ≠ some key
  part : dedupContext earlier = dedupContext later → earlier.recordId ≠ later.recordId →
    subsumptionMinChars ≤ (normalised unicode later.text).length →
      (normalised unicode later.text).length < (normalised unicode earlier.text).length →
        ¬normalised unicode later.text <:+: normalised unicode earlier.text

/-- The words of the candidate are not part of those of the kept one in its context. -/
def Unsubsumed (unicode : Unicode) (kept c : Candidate) : Prop :=
  dedupContext kept = dedupContext c → kept.recordId ≠ c.recordId →
    subsumptionMinChars ≤ (normalised unicode c.text).length →
      (normalised unicode c.text).length < (normalised unicode kept.text).length →
        ¬normalised unicode c.text <:+: normalised unicode kept.text

theorem apart_frozen_iff {earlier later : Candidate} :
    Apart unicode contentHash earlier.frozen later.frozen ↔
      Apart unicode contentHash earlier later := by
  constructor
  · rintro ⟨records, words, part⟩
    exact ⟨records, words, part⟩
  · rintro ⟨records, words, part⟩
    exact ⟨records, words, part⟩

section

variable (sound : Sound unicode contentHash came tables)
include sound

theorem alias_eq_none_iff :
    tables.aliases.get? c.identity = none ↔ ∀ other ∈ came, other.identity ≠ c.identity := by
  constructor
  · intro noAlias other member same
    obtain ⟨kept, isKept, -⟩ := sound.carried other member
    rw [Tables.keptFor, same, noAlias] at isKept
    cases isKept
  · intro fresh
    cases isAlias : tables.aliases.get? c.identity with
    | none => rfl
    | some place =>
      obtain ⟨other, member, same⟩ := sound.aliases c.identity place isAlias
      exact absurd same (fresh other member)

theorem hashed_eq_none_iff :
    (c.hashKey contentHash).bind tables.byHash.get? = none ↔
      ∀ other ∈ came, ∀ key, other.hashKey contentHash = some key →
        c.hashKey contentHash ≠ some key := by
  rw [Option.bind_eq_none_iff]
  constructor
  · intro noneFound other member key otherKey isKey
    obtain ⟨place, leads⟩ := sound.keys other member key otherKey
    rw [noneFound key isKey] at leads
    cases leads
  · intro fresh key isKey
    cases leads : tables.byHash.get? key with
    | none => rfl
    | some place =>
      obtain ⟨other, member, otherKey, -⟩ := sound.keyed key place leads
      exact absurd isKey (fresh other member key otherKey)

theorem mem_groups_iff {entry : Grouped} :
    entry ∈ tables.groups ↔ ∃ kept place, tables.out[place]? = some kept ∧
      grouped unicode (kept, place) = entry := by
  rw [sound.groups, mem_map]
  constructor
  · rintro ⟨⟨shown, place⟩, isPlaced, rfl⟩
    have isAt := mk_mem_zipIdx_iff_getElem?.mp isPlaced
    rw [getElem?_map] at isAt
    obtain ⟨kept, isKept, rfl⟩ := Option.map_eq_some_iff.mp isAt
    exact ⟨kept, place, isKept, rfl⟩
  · rintro ⟨kept, place, isKept, rfl⟩
    refine ⟨(kept.frozen, place), mk_mem_zipIdx_iff_getElem?.mpr ?_, rfl⟩
    rw [getElem?_map, isKept, map_some]

theorem subsumed_eq_none_iff :
    subsumedBy (normalised unicode c.text) c.recordId
        (tables.groups.filter fun other => other.context = dedupContext c) = none ↔
      ∀ kept ∈ tables.out, Unsubsumed unicode kept c := by
  rw [subsumedBy]
  split
  case isTrue short =>
    refine iff_of_true rfl fun kept _ _ _ long => ?_
    omega
  case isFalse long =>
    rw [Option.map_eq_none_iff, find?_eq_none]
    simp only [mem_filter, decide_eq_true_eq, mem_groups_iff sound]
    constructor
    · intro noneFound kept member context apart _ less isPart
      obtain ⟨place, inside, isKept⟩ := getElem_of_mem member
      exact noneFound (grouped unicode (kept, place))
        ⟨⟨kept, place, by rw [getElem?_eq_getElem inside, isKept], rfl⟩, context⟩
        ⟨apart, less, isPart⟩
    · rintro noneContains _ ⟨⟨kept, place, isKept, rfl⟩, context⟩ ⟨apart, less, isPart⟩
      exact noneContains kept (mem_of_getElem? isKept) context apart (by omega) less isPart

theorem twin_eq_none_iff :
    tables.twin unicode contentHash c = none ↔
      (∀ other ∈ came, other.identity ≠ c.identity) ∧
      (∀ other ∈ came, ∀ key, other.hashKey contentHash = some key →
        c.hashKey contentHash ≠ some key) ∧
      ∀ kept ∈ tables.out, Unsubsumed unicode kept c := by
  rw [Tables.twin, or_eq_none_iff, or_eq_none_iff, alias_eq_none_iff sound,
    hashed_eq_none_iff sound, subsumed_eq_none_iff sound]

theorem came_of_kept (member : kept ∈ tables.out) : ∃ c ∈ came, c.frozen = kept.frozen := by
  have inOrder := sound.order.subset (mem_map_of_mem member)
  obtain ⟨c, isFirst, same⟩ := mem_map.mp inOrder
  exact ⟨c, mem_of_mem_firstSeen isFirst, same⟩

end

theorem apart_collapsed (candidates : List Candidate) :
    ((collapsed unicode contentHash candidates).out.map Candidate.frozen).Pairwise
      (Apart unicode contentHash) := by
  induction candidates using List.reverseRecOn with
  | nil => exact List.Pairwise.nil
  | append_singleton came last ih =>
    have sound : Sound unicode contentHash came (collapsed unicode contentHash came) :=
      sound_collapsed came
    rw [collapsed_concat]
    cases isTwin : (collapsed unicode contentHash came).twin unicode contentHash last with
    | some twin =>
      rw [(collapse_twin isTwin).1, map_frozen_modify]
      exact ih
    | none =>
      obtain ⟨records, words, part⟩ := (twin_eq_none_iff sound).mp isTwin
      rw [(collapse_new isTwin).1, map_append, pairwise_append]
      refine ⟨ih, pairwise_singleton _ _, ?_⟩
      intro first isEarlier second isLast
      obtain ⟨kept, member, rfl⟩ := mem_map.mp isEarlier
      rw [map_singleton, mem_singleton] at isLast
      subst isLast
      rw [apart_frozen_iff]
      obtain ⟨c, isCame, same⟩ := came_of_kept sound member
      refine ⟨?_, ?_, part kept member⟩
      · rw [← kept.frozen_identity, ← same]
        exact records c isCame
      · rw [← kept.frozen_hashKey, ← same]
        exact words c isCame

theorem out_of_apart (apart : candidates.Pairwise (Apart unicode contentHash)) :
    (collapsed unicode contentHash candidates).out = candidates := by
  induction candidates using List.reverseRecOn with
  | nil => rfl
  | append_singleton came last ih =>
    obtain ⟨earlier, -, fromLast⟩ := pairwise_append.mp apart
    have isOut := ih earlier
    have sound : Sound unicode contentHash came (collapsed unicode contentHash came) :=
      sound_collapsed came
    have isNew : (collapsed unicode contentHash came).twin unicode contentHash last = none := by
      rw [twin_eq_none_iff sound, isOut]
      refine ⟨?_, ?_, ?_⟩
      · intro other member
        exact (fromLast other member last (by simp)).records
      · intro other member
        exact (fromLast other member last (by simp)).words
      · intro kept member
        exact (fromLast kept member last (by simp)).part
    rw [collapsed_concat, (collapse_new isNew).1, isOut]

theorem dedup_dedup (candidates : List Candidate) :
    dedup unicode contentHash (dedup unicode contentHash candidates) =
      dedup unicode contentHash candidates := by
  apply out_of_apart
  exact (pairwise_map.mp (apart_collapsed candidates)).imp apart_frozen_iff.mp

theorem injective_of_texts (computed : ∀ c ∈ candidates, c.payload.textHash = none)
    (injective : Function.Injective contentHash) : Injective unicode contentHash candidates := by
  intro first isFirst second isSecond digest firstDigest secondDigest
  have digestOf : ∀ c ∈ candidates, c.digest contentHash = some digest →
      contentHash c.text = digest := by
    intro c member isDigest
    rw [Candidate.digest, computed c member] at isDigest
    simp only [Forms.given, Option.filter_none] at isDigest
    split at isDigest
    · cases isDigest
    · exact Option.some.inj isDigest
  exact congrArg _ (injective
    ((digestOf first isFirst firstDigest).trans (digestOf second isSecond secondDigest).symm))

end Tables

/-- A pass loses no record, keeps the kind and the order of what it keeps and the best score of
what it collapses, and a second pass changes nothing.  Where the candidates of one record agree,
it loses no words and no attribution either. -/
theorem collapse_loses_nothing (unicode : Unicode) (contentHash : Text → String)
    (candidates : List Candidate) :
    (∀ c ∈ candidates, c.recordId ∈ inHand (dedup unicode contentHash candidates)) ∧
      (∀ c ∈ candidates, ∃ kept ∈ dedup unicode contentHash candidates,
        (collapsed unicode contentHash candidates).keptFor c = some kept ∧
          kept.kind = c.kind ∧ c.score ≤ kept.score) ∧
      (∀ kept ∈ dedup unicode contentHash candidates, ∃ c ∈ candidates,
        (collapsed unicode contentHash candidates).keptFor c = some kept ∧ c.score = kept.score) ∧
      ((dedup unicode contentHash candidates).map Candidate.frozen).Sublist
        ((firstSeen Candidate.identity candidates).map Candidate.frozen) ∧
      dedup unicode contentHash (dedup unicode contentHash candidates) =
        dedup unicode contentHash candidates ∧
      (Consistent unicode candidates → Injective unicode contentHash candidates →
        ∀ c ∈ candidates, ∀ kept,
          (collapsed unicode contentHash candidates).keptFor c = some kept →
            kept.Speaks unicode c) := by
  have sound : Sound unicode contentHash candidates (collapsed unicode contentHash candidates) :=
    sound_collapsed candidates
  refine ⟨?_, ?_, ?_, sound.order, dedup_dedup candidates, ?_⟩
  · intro c member
    obtain ⟨kept, isKept, carries⟩ := sound.carried c member
    obtain ⟨place, -, isAt⟩ := Option.bind_eq_some_iff.mp isKept
    refine mem_flatMap.mpr ⟨kept, mem_of_getElem? isAt, ?_⟩
    exact mem_cons.mpr carries.inHand
  · intro c member
    obtain ⟨kept, isKept, carries⟩ := sound.carried c member
    obtain ⟨place, -, isAt⟩ := Option.bind_eq_some_iff.mp isKept
    exact ⟨kept, mem_of_getElem? isAt, isKept, carries.kind, carries.score⟩
  · intro kept member
    obtain ⟨place, inside, isKept⟩ := getElem_of_mem member
    have isAt := (getElem?_eq_getElem inside).trans (congrArg some isKept)
    obtain ⟨-, c, isCame, isAlias, sameScore⟩ := sound.own place kept isAt
    exact ⟨c, isCame, keptFor_eq_some isAlias isAt, sameScore⟩
  · intro consistent injective
    exact speaks_collapsed consistent injective fun _ => id

def cageCode : List Candidate :=
  [{ recordId := "mem_turn", kind := memoryKind, text := "The cage code is 8492".toList, score := 2
     payload :=
      { sourceRefs := [⟨some "message", some "msg_1"⟩], subject := some "user:u"
        ownerPrincipal := some "user:u", observedAt := some "2024-05-01" } },
    { recordId := "mem_fact", kind := memoryKind, text := "The cage code is 8492".toList, score := 3
      payload :=
       { sourceRefs := [⟨some "message", some "msg_1"⟩], subject := some "cage"
         ownerPrincipal := some "agent:u/h", observedAt := some "2024-05-01" } }]

theorem collapse_loses_nothing_cage : ∀ c ∈ cageCode, ∃ kept,
    (collapsed latin String.ofList cageCode).keptFor c = some kept ∧
      kept.recordId = "mem_turn" ∧ kept.Speaks latin c := by
  have consistent : Consistent latin cageCode := by
    rw [Consistent]
    decide +kernel
  have injective : Injective latin String.ofList cageCode :=
    injective_of_texts (by decide) fun _ _ => String.ofList_injective
  have oneKept : (dedup latin String.ofList cageCode).map Candidate.recordId = ["mem_turn"] := by
    decide +kernel
  obtain ⟨-, carried, -, -, -, speaks⟩ := collapse_loses_nothing latin String.ofList cageCode
  intro c member
  obtain ⟨kept, isKept, isFor, -⟩ := carried c member
  have isTurn : kept.recordId ∈ ["mem_turn"] := oneKept ▸ mem_map_of_mem isKept
  exact ⟨kept, isFor, mem_singleton.mp isTurn, speaks consistent injective c member kept isFor⟩

def twoTexts : List Candidate :=
  [{ recordId := "mem_1", kind := memoryKind, text := "Tea.".toList },
    { recordId := "mem_1", kind := memoryKind, text := "No more tea.".toList }]

theorem repeated_record_loses_words :
    ¬∀ candidates : List Candidate, Injective latin String.ofList candidates →
      ∀ c ∈ candidates, ∀ kept,
        (collapsed latin String.ofList candidates).keptFor c = some kept →
          normalised latin c.text <:+: normalised latin kept.text := by
  intro contained
  have injective : Injective latin String.ofList twoTexts :=
    injective_of_texts (by decide) fun _ _ => String.ofList_injective
  have isKept : ∃ second ∈ twoTexts, ∃ kept ∈ twoTexts,
      (collapsed latin String.ofList twoTexts).keptFor second = some kept ∧
        ¬normalised latin second.text <:+: normalised latin kept.text := by
    decide +kernel
  obtain ⟨second, member, kept, -, isFor, lost⟩ := isKept
  exact lost (contained twoTexts injective second member kept isFor)

end MemoryService.Retrieval.Duplicates
