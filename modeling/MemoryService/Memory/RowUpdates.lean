import MemoryService.Feedback.Votes
import MemoryService.Foundation.Versioned
import MemoryService.Memory.Consolidation
import Mathlib.Data.List.Permutation

/-!
# Units of work on one memory

The pipeline, a vote, a correction, an owner's rewrite and a forget each read a memory and write
it back.
-/

namespace MemoryService.Memory.RowUpdates

open Domain Foundation Consolidation Feedback Statements

structure Row where
  memory : CanonicalMemory
  importance : Rat := 1 / 2
  lifetime : Lifetime := .longTerm
  contributors : List String := []
  echoes : Nat := 0
  indexedAt : Option Instant := none
  /-- `system_metadata["indexed_at"]`, which `_to_domain` adds and `update` leaves in -/
  receipt : Option (Option Instant) := none

/-- `_to_domain`. -/
def Row.toDomain (r : Row) : Row := { r with receipt := some r.indexedAt }

/-- The `system_metadata` column is one JSON value. -/
def Row.metadata (r : Row) :
    SystemMetadata × List String × Nat × Option (Option Instant) :=
  ({ r.memory.systemMetadata with expiresAt := none, provider := none },
    r.contributors, r.echoes, r.receipt)

/-- A column is written where it is not as it was read. -/
def pick {α : Type} [DecidableEq α] (base mine theirs : α) : α :=
  if mine = base then theirs else mine

def Row.version (r : Row) : ℕ := r.memory.revision

/-- The statement that `update` flushes: from what was read to what is kept, over the row as
it is by then.  The revision is one more than what was read. -/
def Row.assign (base mine theirs : Row) : Row :=
  let column {α : Type} [DecidableEq α] (c : CanonicalMemory → α) : α :=
    pick (c base.memory) (c mine.memory) (c theirs.memory)
  let metadata := pick base.metadata mine.metadata theirs.metadata
  { memory :=
      { theirs.memory with
        memoryType := column CanonicalMemory.memoryType
        content := column CanonicalMemory.content
        normalizedHash := column CanonicalMemory.normalizedHash
        subject := column CanonicalMemory.subject
        predicate := column CanonicalMemory.predicate
        object := column CanonicalMemory.object
        temporal :=
          { status := column fun m => m.temporal.status
            validFrom := column fun m => m.temporal.validFrom
            validTo := column fun m => m.temporal.validTo
            observedAt := theirs.memory.temporal.observedAt
            supersededBy := column fun m => m.temporal.supersededBy
            supersedes := column fun m => m.temporal.supersedes }
        evidence := column CanonicalMemory.evidence
        confidence := column CanonicalMemory.confidence
        reinforcementCount := column CanonicalMemory.reinforcementCount
        systemMetadata :=
          { metadata.1 with
            expiresAt := some (column fun m => m.systemMetadata.expiresAt.join)
            provider := theirs.memory.systemMetadata.provider }
        updatedAt := column CanonicalMemory.updatedAt
        deletedAt := column CanonicalMemory.deletedAt
        revision := base.memory.revision + 1 }
    importance := pick base.importance mine.importance theirs.importance
    lifetime := pick base.lifetime mine.lifetime theirs.lifetime
    contributors := metadata.2.1
    echoes := metadata.2.2.1
    indexedAt := pick base.indexedAt mine.indexedAt theirs.indexedAt
    receipt := metadata.2.2.2 }

theorem Row.versionAssign (base mine theirs : Row) :
    (Row.assign base mine theirs).version = base.version + 1 := rfl

/-- A change of the memory itself; whatever `update` writes is to be indexed again. -/
def Row.change (f : CanonicalMemory → CanonicalMemory) (r : Row) : Row :=
  { r.toDomain with memory := f r.memory, indexedAt := none }

def contributorStep : Rat := Binary64.round (3 / 20)

def repeatStep : Rat := Binary64.round (1 / 20)

/-- `SHORT_TERM_TTL`, in seconds. -/
def shortTermTtl : Nat := 7 * Instant.secondsPerDay

/-- `_is_echo`: nothing behind the candidate is independent of the agent's own output. -/
def isEcho (candidate : MemoryCandidate) : Bool :=
  candidate.evidence ≠ [] ∧ candidate.evidence.all fun ev => ev.sourceType = .agentResult

def gather (evidence more : List EvidenceRef) : List EvidenceRef :=
  more.foldl (fun evidence ev => if ev ∈ evidence then evidence else evidence ++ [ev]) evidence

section

variable (normalizedHash : String → Digest)

/-- `_apply` on `REINFORCE` and on `MERGE`. -/
def reinforced (principalId : String) (merges : Bool) (candidate : MemoryCandidate)
    (importance : Rat) (now : Instant) (target : Row) : Row :=
  let echo := isEcho candidate
  let corroborates := !echo && decide
    (principalId ∉ target.contributors ∧ principalId ≠ target.memory.ownerPrincipal)
  let m := target.memory
  let step := if corroborates then contributorStep else repeatStep
  let rewords := merges && decide (m.content.length < candidate.content.length)
  { target.toDomain with
    memory :=
      { m with
        reinforcementCount := m.reinforcementCount + 1
        confidence := if echo then m.confidence else min 1 (Binary64.add m.confidence step)
        evidence := gather m.evidence candidate.evidence
        content := if rewords then candidate.content else m.content
        normalizedHash :=
          if rewords then normalizedHash candidate.content else m.normalizedHash
        systemMetadata :=
          { m.systemMetadata with
            expiresAt :=
              -- the clock of a short-term memory restarts
              if target.lifetime = .shortTerm then some (some (now.after shortTermTtl))
              else m.systemMetadata.expiresAt }
        updatedAt := now }
    importance := max target.importance importance
    contributors :=
      if corroborates then target.contributors ++ [principalId] else target.contributors
    echoes := if echo then target.echoes + 1 else target.echoes
    indexedAt := none }

/-- A unit that writes the memory. -/
inductive Work where
  | reinforce (userId : Option String) (principalId : String) (merges : Bool)
      (candidate : MemoryCandidate) (importance : Rat) (now : Instant)
  | close (userId : Option String) (replacement : CanonicalMemory) (now : Instant)
  | mark (userId : Option String) (unit : CanonicalMemory) (grade : Grade) (now : Instant)
  | affirm (now : Instant)
  | takeBack (now : Instant)
  | reject (targetId : String) (now : Instant)
  | lift (targetId : String) (retractedAt now : Instant)
  | correct (targetId : String) (new : CanonicalMemory) (now : Instant)
  | adjust (step : Rat) (more : Int) (now : Instant)
  /-- the owner's supersede -/
  | rewrite (targetId : String) (new : CanonicalMemory) (reason : String) (now : Instant)
  | forget (targetId : String) (now : Instant)
  | reinstate (forgets : Bool) (ids : List String) (now : Instant)
  | invalidate (now : Instant)

inductive Lock where
  | statements (userId : String)
  | memory (memoryId : String)
  | row
  deriving DecidableEq

/-- `_one_writer_per_user`. -/
def oneWriterPerUser (userId : Option String) : List Lock :=
  match userId with
  | some userId => if userId = "" then [] else [.statements userId]
  | none => []

variable (memoryId : String)

def Work.locks : Work → List Lock
  | .reinforce userId .. => oneWriterPerUser userId
  | .close userId .. => oneWriterPerUser userId
  | .mark userId .. => oneWriterPerUser userId
  | .affirm .. => [.memory memoryId]
  | .takeBack .. => [.memory memoryId]
  | .reject targetId .. => [.memory targetId]
  | .lift targetId .. => [.memory targetId]
  | .correct targetId .. => [.memory targetId]
  | .adjust .. => [.memory memoryId]
  | .rewrite .. => []
  | .forget .. => [.row]
  | .reinstate forgets .. => if forgets then [.row] else []
  | .invalidate .. => []

/-- What is found and `CURRENT`. -/
def standing (r : Row) : Bool := r.memory.deletedAt = none ∧ r.memory.temporal.status = .current

/-- What `get` finds. -/
def found (now : Instant) (r : Row) : Bool :=
  r.memory.deletedAt = none ∧ ¬invalidDerived now r.memory

def reaches (now : Instant) (targetId : String) (r : Row) : Bool :=
  standing r && (targetId ≠ memoryId || found now r)

/-- What a unit makes of the row that it read; `none` where it leaves it. -/
def Work.effect (r : Row) : Work → Option Row
  | .reinforce _ principalId merges candidate importance now =>
    if standing r then
      some (reinforced normalizedHash principalId merges candidate importance now r)
    else none
  | .close _ replacement now =>
    if standing r then
      some (r.change fun m => Pipeline.superseded m replacement now)
    else none
  | .mark _ unit grade now =>
    if standing r then some (r.change fun m => Replacement.apply m unit grade now) else none
  | .affirm now =>
    if reaches memoryId now memoryId r then some (r.change (Votes.reinforced now)) else none
  | .takeBack now =>
    if reaches memoryId now memoryId r then some (r.change (Votes.unreinforced now))
    else none
  | .reject targetId now =>
    if reaches memoryId now targetId r then some (r.change (Votes.retracted now)) else none
  | .lift targetId retractedAt now =>
    if r.memory.deletedAt = none ∧ (targetId = memoryId → found now r) ∧
        r.memory.temporal.status = .retracted ∧
        r.memory.temporal.validTo = some retractedAt then
      some (r.change (Votes.lifted now))
    else none
  | .correct targetId new now =>
    if reaches memoryId now targetId r then some (r.change fun m => revised m new now)
    else none
  | .adjust step more now =>
    if reaches memoryId now memoryId r then some (r.change (Votes.adjusted step more now))
    else none
  | .rewrite targetId new reason now =>
    if reaches memoryId now targetId r then
      some (r.change fun m =>
        let closed := Pipeline.superseded m new now
        { closed with
          systemMetadata := { closed.systemMetadata with supersedeReason := some reason } })
    else none
  | .forget targetId now =>
    if r.memory.deletedAt = none ∧ (targetId = memoryId → found now r) then
      some { r with memory := forgotten now r.memory, indexedAt := none }
    else none
  | .reinstate _ ids now =>
    if r.memory.deletedAt = none ∧
        (replacedBy r.memory).any (fun newer => newer ∈ ids) then
      some (r.change (Replacement.reinstated ids now))
    else none
  | .invalidate now =>
    if r.memory.temporal.status ≠ .retracted then
      some { r with memory := Votes.invalidated now r.memory, indexedAt := none }
    else none

def Work.exclusive : Work → Bool
  | .forget .. => true
  | .reinstate forgets .. => forgets
  | _ => false

def system : Versioned Row Work Lock where
  version := Row.version
  effect work r := work.effect normalizedHash memoryId r
  assign := Row.assign
  versionAssign := Row.versionAssign
  locks := Work.locks memoryId
  exclusive := Work.exclusive

abbrev Run (first : Row) (moves : List (Versioned.Move Work))
    (state : Versioned.State Row Work) : Prop :=
  run (system normalizedHash memoryId).step
    ((system normalizedHash memoryId).start first) moves = some state

/-- Units that all take one lock in common write the row as they read it. -/
theorem row_updates_of_locked (first : Row) (moves : List (Versioned.Move Work)) (lock : Lock)
    (locked : ∀ move ∈ moves, (system normalizedHash memoryId).Takes lock move) :
    Meets (system normalizedHash memoryId).step (system normalizedHash memoryId).Fresh
      ((system normalizedHash memoryId).start first) moves :=
  Versioned.fresh_of_locked locked
    ⟨Nat.zero_le 1, fun _ isRunning => absurd isRunning List.not_mem_nil⟩

end

section

private def hash (_ : String) : Digest := ⟨"3d", by decide⟩

private def opening : Row where
  memory :=
    { memoryId := "mem_1"
      tenantId := "acme"
      ownerPrincipal := "user:ana"
      memoryType := .semantic
      content := "The east dock opens at seven."
      normalizedHash := hash ""
      temporal := { observedAt := ⟨0⟩ }
      evidence := [⟨.message, "msg_dock_1"⟩]
      updatedAt := ⟨0⟩ }

private def saidAgain : Work :=
  .reinforce (some "ana") "user:ana" false
    { content := "The east dock opens at seven."
      memoryType := .semantic
      evidence := [⟨.message, "msg_dock_2"⟩] }
    (1 / 2) ⟨10⟩

private def inTurn : List (Versioned.Move Work) :=
  [.read saidAgain, .write 0, .read (.affirm ⟨20⟩), .write 0]

end

end MemoryService.Memory.RowUpdates
