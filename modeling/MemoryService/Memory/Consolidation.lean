import MemoryService.Foundation.Binary64
import MemoryService.Foundation.Newest
import MemoryService.Memory.Replacement
import MemoryService.Memory.Supersession
import MemoryService.Subjects.Subject
import Mathlib.Data.List.MinMax
import Mathlib.Data.Prod.Lex

/-!
# Consolidation

A candidate is compared with the current memories of its scope, its writer's own first.
-/

namespace MemoryService.Memory.Consolidation

open Domain Foundation Subjects Option List

inductive Lifetime where
  /-- in the cache only -/
  | ephemeral
  | shortTerm
  | longTerm
  | archival
  deriving DecidableEq

structure MemoryCandidate where
  content : String
  memoryType : MemoryType
  lifetime : Lifetime := .longTerm
  visibility : Option Visibility := none
  subject : Option String := none
  predicate : Option String := none
  object : Option String := none
  validFrom : Option Instant := none
  validTo : Option Instant := none
  confidence : Rat := 1 / 2
  evidence : List EvidenceRef := []
  observedAt : Option Instant := none
  entities : List String := []
  provider : String := "native"
  /-- the statement says that it replaces an earlier one -/
  negatesPrior : Bool := false
  category : Option String := none

/-- `unverified_representation`: a model's rewrite that nothing verified. -/
def unverifiedRepresentation (category provider : Option String) : Bool :=
  category.any (· ∈ ["contextual_fact", "assisted", "reflection"]) || provider = some "llm"

def MemoryCandidate.generated (candidate : MemoryCandidate) : Bool :=
  unverifiedRepresentation candidate.category (some candidate.provider)

def transcript (category : Option String) : Bool := category = some "verbatim_turn"

def singleValued : List String :=
  ["name", "timezone", "time_zone", "role", "title", "team", "email", "location", "birthday",
    "manager", "company", "employer", "city", "country", "language", "pronouns", "phone",
    "department", "working_hours", "handle", "username", "works_at", "lives_in", "favourite"]

def isSingleValued (predicate : Option String) : Bool :=
  predicate.any fun p => p ≠ "" ∧ (p ∈ singleValued ∨ p.startsWith "favourite_")

structure SubjectMatch where
  verdict : SubjectVerdict
  score : Rat := 0
  noSubject : Bool := false

/-- A candidate against one stored memory. -/
structure SubjectPair where
  subject : SubjectMatch
  statement : SubjectMatch
  apart : Bool := false

/-- What the model says of a candidate and a memory. -/
inductive ConflictVerdict where
  | same
  | update
  | contradict
  | different

/-- The regular expressions, the database's folding, the subject matcher, the encoder and
the model. -/
structure Reader where
  normalizedHash : String → Digest
  tokens : String → Finset String
  figures : String → Finset String
  hasNegation : String → Bool
  cleanObject : String → String
  spelled : Option String → Option String → Bool
  pairs : MemoryCandidate → List CanonicalMemory → CanonicalMemory → SubjectPair
  /-- the pairs once the encoder was asked too -/
  withVectors : MemoryCandidate → List CanonicalMemory → CanonicalMemory → SubjectPair
  /-- the cosine of two texts, where there is a real encoder -/
  cosine : Option (String → String → Rat)
  assist : Option (MemoryCandidate → CanonicalMemory → ConflictVerdict)

structure MemoryIntelligenceSettings where
  dedupLexicalThreshold : Rat := 8286623314361713 / 9007199254740992
  dedupDenseThreshold : Rat := statedConfidence
  dedupCandidateK : Nat := 20

def jaccard (a b : Finset String) : Rat :=
  if a = ∅ ∨ b = ∅ then 0 else Binary64.round ((a ∩ b).card / (a ∪ b).card)

inductive DedupDecision where
  | create
  | reinforce
  | merge
  | update
  | supersede
  | contradict
  | ignore
  deriving DecidableEq

structure ConsolidationOutcome where
  decision : DedupDecision
  targetMemoryId : Option String := none
  deriving DecidableEq

def ConsolidationOutcome.on (decision : DedupDecision) (mem : CanonicalMemory) :
    ConsolidationOutcome :=
  { decision, targetMemoryId := some mem.memoryId }

section Consolidate

variable (reader : Reader) (settings : MemoryIntelligenceSettings) (candidate : MemoryCandidate)
  (ctx : MemoryExecutionContext) (mem : CanonicalMemory)

def sameFigures : Bool :=
  reader.figures mem.content = reader.figures candidate.content ∧
    reader.hasNegation mem.content = reader.hasNegation candidate.content

/-- `_adjudicate`. -/
def adjudicate (native same : ConsolidationOutcome) :
    ConsolidationOutcome :=
  match reader.assist with
  | none => native
  | some verdict =>
    if sameFigures reader candidate mem then
      match verdict candidate mem with
      | .same => same
      | .update => .on .supersede mem
      | .contradict => .on .contradict mem
      | .different => native
    else native

/-- Not compared at all. -/
def passedOver : Bool :=
  mem.temporal.status ≠ .current ∨ mem.deletedAt ≠ none ∨
    mem.systemMetadata.sourceRevisions ≠ [] ∨
    -- a generated rewrite has no say on an asserted source
    candidate.generated ≠
      unverifiedRepresentation mem.systemMetadata.category mem.systemMetadata.provider ∨
    -- a turn as said is kept beside a reading of it
    transcript candidate.category ≠ transcript mem.systemMetadata.category

/-- Only the same words are the same statement. -/
def literal (category : Option String) : Bool :=
  category.any (· ∈ ["verbatim_turn", "narrative_unit"])

def verbatim : Bool :=
  candidate.generated || literal candidate.category || literal mem.systemMetadata.category

variable (pair : SubjectPair)

def sameSlot (mem : CanonicalMemory) : Bool :=
  candidate.predicate.any (· ≠ "") ∧ mem.predicate = candidate.predicate ∧
    pair.subject.verdict = .same

/-- `_clean_object` of an object that may be missing. -/
def cleaned (object : Option String) : String := reader.cleanObject (object.getD "")

def bothValued : Bool := cleaned reader mem.object ≠ "" ∧ cleaned reader candidate.object ≠ ""

def sameValue : Bool :=
  bothValued reader candidate mem ∧ cleaned reader mem.object = cleaned reader candidate.object

def sharedLevel (scopeKey : String) : Bool :=
  (scopeKey.toList.splitOn '/')[1]?.any fun level =>
    level ∈ ["l=AGENT_GROUP".toList, "l=THREAD".toList, "l=TENANT".toList]

def otherPrincipalsShared : Bool := mem.ownerPrincipal ≠ ctx.principalId ∧ sharedLevel mem.scopeKey

def replacementOverlap : Rat := 5404319552844595 / 18014398509481984

def settled (mem : CanonicalMemory) : Option ConsolidationOutcome :=
  if passedOver candidate mem then none
  else if mem.normalizedHash = reader.normalizedHash candidate.content then
    some (.on .reinforce mem)
  else if verbatim candidate mem then none
  else if sameSlot candidate pair mem then
    if sameValue reader candidate mem then some (.on .reinforce mem)
    else if bothValued reader candidate mem ∧ isSingleValued candidate.predicate then
      if otherPrincipalsShared ctx mem ∧ ¬candidate.negatesPrior then
        some (adjudicate reader candidate mem (.on .contradict mem) (.on .reinforce mem))
      else some (.on .supersede mem)
    else if candidate.negatesPrior ∧ replacementOverlap ≤
        jaccard (reader.tokens candidate.content) (reader.tokens mem.content) then
      some (.on .supersede mem)
    else none
  else none

/-- What the loop keeps for later. -/
structure Weighing where
  best : Option (ConsolidationOutcome × Rat) := none
  askable : List (CanonicalMemory × Rat) := []
  denseBand : List CanonicalMemory := []

def better (best : Option (ConsolidationOutcome × Rat)) (outcome : ConsolidationOutcome)
    (score : Rat) : Option (ConsolidationOutcome × Rat) :=
  if best.all fun found => found.2 < score then some (outcome, score) else best

def mergeOrReinforce : ConsolidationOutcome :=
  if (reader.tokens candidate.content \ reader.tokens mem.content).Nonempty then .on .merge mem
  else .on .reinforce mem

def weigh (weighing : Weighing) (mem : CanonicalMemory) : Weighing :=
  if passedOver candidate mem ∨ verbatim candidate mem then weighing
  else
    let sim := jaccard (reader.tokens candidate.content) (reader.tokens mem.content)
    if settings.dedupLexicalThreshold ≤ sim ∧ ¬pair.apart then
      if sameFigures reader candidate mem then
        { weighing with
          best := better weighing.best (mergeOrReinforce reader candidate mem) sim }
      else weighing
    else
      { weighing with
        askable :=
          if reader.assist.isSome ∧ sameFigures reader candidate mem then
            weighing.askable ++ [(mem, sim)]
          else weighing.askable
        denseBand :=
          if reader.cosine.isSome ∧ 1 / 2 ≤ sim ∧ ¬pair.apart then weighing.denseBand ++ [mem]
          else weighing.denseBand }

def densely (cosine : String → String → Rat) (best : Option (ConsolidationOutcome × Rat))
    (mem : CanonicalMemory) : Option (ConsolidationOutcome × Rat) :=
  let cos := cosine candidate.content mem.content
  if settings.dedupDenseThreshold ≤ cos ∧ sameFigures reader candidate mem then
    better best (.on .merge mem) cos
  else best

variable (pairs : CanonicalMemory → SubjectPair)

/-- `closest` of `_uncertain`. -/
def closest (askable : List (CanonicalMemory × Rat)) :
    Option (CanonicalMemory × Rat) :=
  (askable.filter fun asked =>
    let statement := (pairs asked.1).statement
    statement.verdict ≠ .different ∨ (statement.noSubject ∧ 1 / 2 ≤ asked.2)).argmax
      fun asked =>
        let statement := (pairs asked.1).statement
        toLex (decide (statement.verdict = .same), toLex (statement.score, asked.2))

def uncertain (askable : List (CanonicalMemory × Rat)) :
    Option (CanonicalMemory × Rat) :=
  (closest pairs askable).orElse fun _ =>
    closest (reader.withVectors candidate (askable.map Prod.fst)) askable

def ownFirst (existing : List CanonicalMemory) : List CanonicalMemory :=
  existing.filter (fun mem => mem.ownerPrincipal = ctx.principalId) ++
    existing.filter fun mem => mem.ownerPrincipal ≠ ctx.principalId

def weighed (ordered : List CanonicalMemory) :
    ConsolidationOutcome :=
  let weighing := ordered.foldl
    (fun weighing mem => weigh reader settings candidate (pairs mem) weighing mem) {}
  let best :=
    match reader.cosine with
    | none => weighing.best
    | some cosine =>
      weighing.denseBand.foldl (densely reader settings candidate cosine) weighing.best
  match best with
  | some (outcome, _) => outcome
  | none =>
    match uncertain reader candidate pairs weighing.askable with
    | none => { decision := .create }
    | some (mem, _) =>
      adjudicate reader candidate mem { decision := .create }
        (mergeOrReinforce reader candidate mem)

def consolidate (existing : List CanonicalMemory) : ConsolidationOutcome :=
  if existing = [] then { decision := .create }
  else
    let ordered := ownFirst ctx existing
    let pairs := reader.pairs candidate ordered
    (ordered.findSome? fun mem => settled reader candidate ctx (pairs mem) mem).getD
      (weighed reader settings candidate pairs ordered)

variable {reader settings candidate ctx} {pair : SubjectPair} {mem : CanonicalMemory}
  {outcome : ConsolidationOutcome}

theorem settled_own (isOwn : mem.ownerPrincipal = ctx.principalId)
    (isSettled : settled reader candidate ctx pair mem = some outcome) :
    outcome = .on .reinforce mem ∨
      outcome = .on .supersede mem ∧ passedOver candidate mem = false ∧
        verbatim candidate mem = false ∧ sameSlot candidate pair mem = true ∧
        sameValue reader candidate mem = false := by
  have notShared : otherPrincipalsShared ctx mem = false := by
    simp [otherPrincipalsShared, isOwn]
  unfold settled at isSettled
  split_ifs at isSettled with passed sameWords literally slot equal newValue shared replaces
  · exact .inl (some.inj isSettled).symm
  · exact .inl (some.inj isSettled).symm
  · rw [notShared] at shared
    cases shared.1
  · exact .inr ⟨(some.inj isSettled).symm, Bool.eq_false_iff.mpr passed,
      Bool.eq_false_iff.mpr literally, slot, Bool.eq_false_iff.mpr equal⟩
  · exact .inr ⟨(some.inj isSettled).symm, Bool.eq_false_iff.mpr passed,
      Bool.eq_false_iff.mpr literally, slot, Bool.eq_false_iff.mpr equal⟩

theorem settled_of_slot (compared : passedOver candidate mem = false)
    (worded : verbatim candidate mem = false) (slot : sameSlot candidate pair mem = true)
    (valued : bothValued reader candidate mem = true)
    (single : isSingleValued candidate.predicate = true) :
    (settled reader candidate ctx pair mem).isSome = true := by
  unfold settled
  rw [compared, worded, slot, valued, single]
  simp only [Bool.false_eq_true, if_false, if_true, and_self]
  split_ifs with sameWords equal shared
  · rfl
  · rfl
  · rfl
  · rfl

theorem consolidate_own {existing : List CanonicalMemory} (member : mem ∈ existing)
    (isOwn : mem.ownerPrincipal = ctx.principalId)
    (isSettled : (settled reader candidate ctx
      (reader.pairs candidate (ownFirst ctx existing) mem) mem).isSome = true) :
    ∃ own ∈ existing, own.ownerPrincipal = ctx.principalId ∧
      settled reader candidate ctx (reader.pairs candidate (ownFirst ctx existing) own) own =
        some (consolidate reader settings candidate ctx existing) := by
  have nonempty : existing ≠ [] := ne_nil_of_mem member
  rw [consolidate, if_neg nonempty]
  simp only
  have found : ((existing.filter fun mem => mem.ownerPrincipal = ctx.principalId).findSome?
      fun mem => settled reader candidate ctx
        (reader.pairs candidate (ownFirst ctx existing) mem) mem).isSome = true := by
    rw [findSome?_isSome_iff]
    exact ⟨mem, mem_filter.mpr ⟨member, decide_eq_true isOwn⟩, isSettled⟩
  obtain ⟨outcome, isOutcome⟩ := isSome_iff_exists.mp found
  have first : ((ownFirst ctx existing).findSome? fun mem => settled reader candidate ctx
      (reader.pairs candidate (ownFirst ctx existing) mem) mem) = some outcome := by
    nth_rewrite 2 [ownFirst]
    rw [findSome?_append, isOutcome]
    rfl
  rw [first, getD_some]
  obtain ⟨own, isFirst, ownSettled⟩ := exists_of_findSome?_eq_some isOutcome
  rw [mem_filter, decide_eq_true_eq] at isFirst
  exact ⟨own, isFirst.1, isFirst.2, ownSettled⟩

end Consolidate

end MemoryService.Memory.Consolidation
