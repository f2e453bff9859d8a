import MemoryService.Domain.Instant

/-!
# Memories

A memory is a compact canonical text with the time it holds for.  The system
metadata keeps what the service itself wrote beside it; only the entries that a
modelled function reads are fields here.
-/

namespace MemoryService.Domain

inductive MemoryType where
  | working
  | conversation
  | episodic
  | semantic
  | procedural
  | user
  | preference
  | agent
  | shared
  | task
  | work
  | tool
  | skill
  | decision
  | failure
  | outcome
  | artifact
  | knowledgeRag
  | summary
  | derived
  | policy
  | observation
  | belief
  | entitySummary
  | custom
  deriving DecidableEq

def MemoryType.value : MemoryType → String
  | .working => "WORKING"
  | .conversation => "CONVERSATION"
  | .episodic => "EPISODIC"
  | .semantic => "SEMANTIC"
  | .procedural => "PROCEDURAL"
  | .user => "USER"
  | .preference => "PREFERENCE"
  | .agent => "AGENT"
  | .shared => "SHARED"
  | .task => "TASK"
  | .work => "WORK"
  | .tool => "TOOL"
  | .skill => "SKILL"
  | .decision => "DECISION"
  | .failure => "FAILURE"
  | .outcome => "OUTCOME"
  | .artifact => "ARTIFACT"
  | .knowledgeRag => "KNOWLEDGE_RAG"
  | .summary => "SUMMARY"
  | .derived => "DERIVED"
  | .policy => "POLICY"
  | .observation => "OBSERVATION"
  | .belief => "BELIEF"
  | .entitySummary => "ENTITY_SUMMARY"
  | .custom => "CUSTOM"

/-- Validity state of a memory in time. -/
inductive TemporalStatus where
  | current
  | superseded
  | expired
  | contradicted
  | retracted
  /-- forgotten by policy: kept, restorable, out of retrieval -/
  | archived
  deriving DecidableEq

/-- When the fact was true and when it was said. -/
structure TemporalState where
  status : TemporalStatus := .current
  validFrom : Option Instant := none
  validTo : Option Instant := none
  observedAt : Instant
  supersededBy : Option String := none
  supersedes : Option String := none
  deriving DecidableEq

/-- When the statement starts to hold: the date it names, else when it was said. -/
def TemporalState.since (t : TemporalState) : Instant := t.validFrom.getD t.observedAt

structure PrecedingTurn where
  text : String := ""
  speaker : String := ""
  deriving DecidableEq

/-- What kind of object a piece of evidence points at. -/
inductive EvidenceSource where
  | message
  | file
  | documentChunk
  | agentResult
  | toolResult
  | imported
  | observation
  | statement
  | memory
  | graphFact
  | summary
  | episode
  | feedback
  deriving DecidableEq

structure EvidenceRef where
  sourceType : EvidenceSource
  sourceId : String
  deriving DecidableEq

/-- How a later statement replaced an earlier one. -/
inductive Grade where
  | earlier
  /-- closed where the later one begins -/
  | superseded
  deriving DecidableEq

structure ReplacedBy where
  memoryId : String
  grade : Option Grade
  deriving DecidableEq

structure SystemMetadata where
  restatement : Option String := none
  category : Option String := none
  precedingTurn : Option PrecedingTurn := none
  expiresAt : Option (Option Instant) := none
  sourceRevisions : List (String × Nat) := []
  derivedSlot : Option String := none
  replacedBy : Option ReplacedBy := none
  supersedeReason : Option String := none
  /-- what read the memory out of its source -/
  provider : Option String := none
  deriving DecidableEq

structure Digest where
  text : String
  hexadecimal : text.toList.all (fun c => c.isDigit || 'a' ≤ c && c ≤ 'f') = true
  deriving DecidableEq

structure CanonicalMemory where
  memoryId : String
  tenantId : String
  scopeKey : String := ""
  ownerPrincipal : String := ""
  memoryType : MemoryType
  content : String
  normalizedHash : Digest
  subject : Option String := none
  predicate : Option String := none
  object : Option String := none
  temporal : TemporalState
  evidence : List EvidenceRef
  /-- a double -/
  confidence : Rat := 1 / 2
  reinforcementCount : Nat := 1
  systemMetadata : SystemMetadata := {}
  updatedAt : Instant
  revision : Nat := 1
  deletedAt : Option Instant := none
  deriving DecidableEq

end MemoryService.Domain
