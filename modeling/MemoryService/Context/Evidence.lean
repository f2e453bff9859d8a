import Mathlib.Data.List.Dedup
import Mathlib.Data.List.Sort
import MemoryService.Context.Window
import MemoryService.Domain.Memory
import MemoryService.Foundation.Binary64
import MemoryService.Foundation.Dict

/-!
# Required evidence

The best passages retrieved for a question may need companions: the definition of a term they
use, a footnote, the section they refer to.
-/

namespace MemoryService.Context

open Domain Foundation

/-- `sorted(set(names))`. -/
def sortedSet (names : List String) : List String :=
  names.dedup.insertionSort fun first second => first ≤ second

theorem mem_sortedSet {names : List String} {name : String} :
    name ∈ sortedSet names ↔ name ∈ names := by
  rw [sortedSet, List.mem_insertionSort, List.mem_dedup]

/-- What a retrieved record is. -/
inductive CandidateKind where
  | chunk
  | memory
  | fact
  | summary
  | message
  | episode
  deriving DecidableEq

structure NodeRef extends EvidenceRef where
  nodeId : Option String := none

structure Payload where
  nodeId : Option String := none
  category : Option String := none
  provider : Option String := none
  subject : Option String := none
  contradicts : List String := []
  earlierValue : Bool := false
  sourceRefs : List NodeRef := []

/-- `str(payload.get("node_id"))`. -/
def Payload.nodeText (payload : Payload) : String := payload.nodeId.getD "None"

structure Candidate where
  recordId : String
  kind : CandidateKind
  text : String
  /-- a double, as the similarity is -/
  score : Rat := 0
  retrievers : List String := []
  payload : Payload := {}
  expandedFrom : Option String := none
  expansionEdge : Option String := none
  similarity : Option Rat := none

def unverifiedMemoryCategories : List String := ["contextual_fact", "assisted", "reflection"]

def unverifiedRepresentation (payload : Payload) : Bool :=
  payload.category.any unverifiedMemoryCategories.contains || payload.provider = some "llm"

inductive QueryType where
  | exactIdentifier
  | conversationHistory
  | userMemory
  | decision
  | documentLocal
  | documentMultiHop
  | entityRelation
  | temporal
  | globalSummary
  | generalSemantic
  deriving DecidableEq

structure RoutedQuery where
  query : String
  queryType : QueryType
  /-- the question asks what was -/
  history : Bool := false

inductive ContextGraphEdge where
  | parent
  | child
  | previous
  | next
  | onPage
  | inTable
  | footnote
  | crossReference
  | mentions
  | definedBy
  | defines
  deriving DecidableEq

/-- `edge.value.lower()`. -/
def ContextGraphEdge.lower : ContextGraphEdge → String
  | .parent => "parent"
  | .child => "child"
  | .previous => "previous"
  | .next => "next"
  | .onPage => "on_page"
  | .inTable => "in_table"
  | .footnote => "footnote"
  | .crossReference => "cross_reference"
  | .mentions => "mentions"
  | .definedBy => "defined_by"
  | .defines => "defines"

structure ContextEdge where
  sourceId : String
  targetId : String
  edge : ContextGraphEdge
  label : Option String := none

def requiredEdges : List ContextGraphEdge := [.definedBy, .footnote, .crossReference]

/-- The edges of a tenant's documents that start at the nodes. -/
def edgesFrom (rows : List ContextEdge) (sourceIds : List String)
    (kinds : List ContextGraphEdge) : List ContextEdge :=
  rows.filter fun e => sourceIds.contains e.sourceId && kinds.contains e.edge

def evidenceGroupKey (edge : ContextEdge) : String :=
  let label := (edge.label.filter (· ≠ "")).getD edge.targetId
  edge.edge.lower ++ ":" ++ label ++ ":" ++ edge.targetId

def edgesToGroups (edges : List ContextEdge) : Dict String String :=
  edges.foldl (fun out e =>
    if e.edge ∈ requiredEdges then out.set (evidenceGroupKey e) e.targetId else out) ∅

structure Chunk where
  chunkId : String
  nodeId : String
  ordinal : Int
  text : String

def chunkCandidate (c : Chunk) (score : Rat) (edge source : String) : Candidate where
  recordId := c.chunkId
  kind := .chunk
  text := c.text
  score := score
  retrievers := ["expansion"]
  payload := { nodeId := some c.nodeId }
  expandedFrom := some source
  expansionEdge := some edge

def chunksForNodes (rows : List Chunk) (nodeIds : List String) : List Chunk :=
  (rows.filter fun c => nodeIds.contains c.nodeId).insertionSort fun first second =>
    if first.nodeId ≠ second.nodeId then first.nodeId ≤ second.nodeId
    else first.ordinal ≤ second.ordinal

structure Requirements where
  groups : Dict String (List String) := ∅
  seedGroups : Dict String (List String) := ∅
  seedNodes : List String := []

def withChildren (parentOf : Dict String String) (ids : List String) : List String :=
  parentOf.items.foldl (fun ids (child, parent) =>
    if ids.contains parent && !ids.contains child then ids ++ [child] else ids) ids

/-- Section, subsection, paragraph. -/
def descend (rows : List ContextEdge) :
    Nat → List String → Dict String (List String) → Dict String (List String)
  | 0, _, groups => groups
  | levels + 1, frontier, groups =>
    if frontier = [] then groups
    else
      match edgesFrom rows frontier [.child] with
      | [] => groups
      | children =>
        let parentOf := Dict.ofList (children.map fun e => (e.targetId, e.sourceId))
        descend rows levels (sortedSet parentOf.keys)
          (groups.mapValues (withChildren parentOf))

def seedGroups (groups : Dict String (List String)) (edges : List ContextEdge) :
    Dict String (List String) :=
  edges.foldl (fun needs e =>
    let name := evidenceGroupKey e
    if groups.contains name then needs.set e.sourceId (needs.values e.sourceId ++ [name])
    else needs) ∅

def requirements (rows : List ContextEdge) (seeds : List Candidate) : Requirements :=
  let nodeIds := seeds.filterMap fun c => c.payload.nodeId.filter (· ≠ "")
  if nodeIds = [] then { seedNodes := nodeIds }
  else
    let edges := edgesFrom rows nodeIds requiredEdges
    let targets := edgesToGroups edges
    let groups := targets.mapValues fun target => [target]
    { groups := descend rows 3 (sortedSet (targets.items.map Prod.snd)) groups
      seedGroups := seedGroups groups edges
      seedNodes := nodeIds }

def satisfied (groups : Dict String (List String)) (candidates : List Candidate) :
    List String :=
  let nodes := (candidates.filter fun c => c.kind = .chunk || c.kind = .summary).filterMap
    fun c => c.payload.nodeId
  (groups.items.filter fun (_, ids) => ids.any nodes.contains).map Prod.fst

inductive EvidenceStatus where
  | complete
  | incomplete
  | insufficient
  deriving DecidableEq

structure UnusedEvidence where
  itemId : String
  kind : CandidateKind
  text : String

structure EvidenceReport where
  status : EvidenceStatus
  requiredGroups : List String := []
  satisfiedGroups : List String := []
  missingGroups : List String := []
  escalations : List String := []
  notes : List String := []
  unused : List UnusedEvidence := []

def noSharedTerm : String := "no retrieved evidence shares a content term with the query"

/-- What a retrieval says about itself, as far as the builder reads it. -/
structure Diagnostics where
  evidence : Option EvidenceReport := none
  evidenceTargets : Dict String (List String) := ∅
  evidenceSeedGroups : Dict String (List String) := ∅
  unused : List UnusedEvidence := []

structure RetrievalSettings where
  escalationMaxRounds : Nat := 2
  abstainWhenInsufficient : Bool := true
  subjectEvidenceCheck : Bool := true
  coverageCheck : Bool := true
  relatedEvidenceRelevance : Rat := Binary64.round (2 / 5)

/-- The text rules: whether an item shares a content term with the question, and a note when
the question is about someone whom no memory is about. -/
structure TextRules where
  overlaps : String → List Candidate → Bool
  unsupportedSubject : String → List Candidate → Option String

structure VerificationStage where
  edges : List ContextEdge
  chunks : List Chunk
  cfg : RetrievalSettings
  seeds : Nat := 3
  rules : TextRules

def conflictingMemories (candidates : List Candidate) : List (String × String) :=
  let memories := Dict.ofList ((candidates.filter fun c => c.kind = .memory).map fun c =>
    (c.recordId, c))
  let pairs := memories.items.flatMap fun (_, c) =>
    (c.payload.contradicts.filter memories.contains).map fun other =>
      if c.recordId ≤ other then (c.recordId, other) else (other, c.recordId)
  pairs.dedup.insertionSort fun first second =>
    if first.1 ≠ second.1 then first.1 ≤ second.1 else first.2 ≤ second.2

namespace VerificationStage

variable (stage : VerificationStage)

def escalate (seeds candidates : List Candidate) (targets : List String) : List Candidate :=
  let source := (seeds.head?.map Candidate.recordId).getD "verify"
  let start : List Candidate × List String × List String :=
    ([], [], candidates.map Candidate.recordId)
  ((chunksForNodes stage.chunks targets).foldl (fun (out, seenNodes, present) c =>
    if present.contains c.chunkId || seenNodes.contains c.nodeId then (out, seenNodes, present)
    else
      (out ++ [chunkCandidate c (1 / 2) "ESCALATION" source], c.nodeId :: seenNodes,
        c.chunkId :: present)) start).1

def beforeFacts (candidates added : List Candidate) : List Candidate :=
  candidates.takeWhile (fun c => c.kind ≠ .fact) ++ added ++
    candidates.dropWhile fun c => c.kind ≠ .fact

def escalations (groups : Dict String (List String)) (seeds : List Candidate) :
    Nat → Nat → List Candidate → List Candidate × List String
  | 0, _, candidates => (candidates, [])
  | left + 1, rounds, candidates =>
    let done := satisfied groups candidates
    if groups.items.length ≤ done.length then (candidates, [])
    else
      let missingTargets := sortedSet <|
        (groups.items.filter fun (name, _) => !done.contains name).flatMap Prod.snd
      let added := stage.escalate seeds candidates missingTargets
      let line := "round " ++ toString rounds ++ ": fetched " ++ toString added.length ++
        " companion(s)"
      if added.isEmpty then (candidates, [line])
      else
        let (later, lines) :=
          escalations groups seeds left (rounds + 1) (beforeFacts candidates added)
        (later, line :: lines)

def call (routed : RoutedQuery) (candidates : List Candidate) (diagnostics : Diagnostics) :
    List Candidate × Diagnostics :=
  let evidence := candidates.filter fun c =>
    c.kind = .chunk || c.kind = .memory || c.kind = .summary
  if evidence.isEmpty then
    (candidates,
      { diagnostics with
        evidence := some { status := .insufficient, notes := ["no evidence retrieved"] } })
  else if routed.queryType = .exactIdentifier then
    (candidates, { diagnostics with evidence := some { status := .complete } })
  else if stage.cfg.abstainWhenInsufficient && !stage.rules.overlaps routed.query evidence then
    (candidates,
      { diagnostics with
        evidence := some { status := .insufficient, notes := [noSharedTerm] } })
  else
    let seeds := (candidates.filter fun c =>
      c.kind = .chunk && c.expansionEdge.isNone).take stage.seeds
    let unsupported :=
      if seeds.isEmpty && stage.cfg.subjectEvidenceCheck then
        (stage.rules.unsupportedSubject routed.query candidates).filter (· ≠ "")
      else none
    let required := requirements stage.edges seeds
    let groups := required.groups
    let noGroups :=
      if groups.items ≠ [] then []
      else if seeds.isEmpty then ["no document seeds to derive requirements from"]
      else ["no companion evidence was required"]
    let noNodes :=
      if seeds.isEmpty || !required.seedNodes.isEmpty then []
      else ["seed chunks carry no context-graph node, so requirements could not be derived " ++
        "from them"]
    let (found, lines) := stage.escalations groups seeds stage.cfg.escalationMaxRounds 1 candidates
    let done := satisfied groups found
    let missing := sortedSet (groups.keys.filter fun name => !done.contains name)
    let conflicts := conflictingMemories found
    let conflicting :=
      if conflicts.isEmpty then []
      else ["conflicting memories from different principals: " ++
        "; ".intercalate (conflicts.map fun (a, b) => a ++ " vs " ++ b)]
    let notFound :=
      if missing.isEmpty then [] else ["required companion evidence could not be retrieved"]
    (found,
      { diagnostics with
        evidence := some
          { status := if missing.isEmpty && unsupported.isNone then .complete else .incomplete
            requiredGroups := sortedSet groups.keys
            satisfiedGroups := sortedSet done
            missingGroups := missing
            escalations := lines
            notes := unsupported.toList ++ noGroups ++ noNodes ++ conflicting ++ notFound }
        evidenceTargets := groups.mapValues sortedSet
        evidenceSeedGroups := required.seedGroups.mapValues sortedSet })

end VerificationStage

end MemoryService.Context
