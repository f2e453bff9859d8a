import MemoryService.Context.Evidence

/-!
# The bundle

A bundle packs the candidates of a retrieval, best first, into sections under one budget.
-/

namespace MemoryService.Context

open Domain Foundation

inductive Representation where
  | chunk
  | memory
  | relation
  | summary

def Candidate.representation (c : Candidate) : Representation :=
  match c.kind with
  | .chunk => .chunk
  | .memory => .memory
  | .fact => .relation
  | .summary => .summary
  | _ => .chunk

inductive ScoreKind where
  | fusion
  | exact

def fusionCeiling : Rat := Binary64.round (1 / 20)

def relevance (c : Candidate) : ScoreKind × Rat :=
  if c.retrievers.contains "exact" then (.exact, 1)
  else
    match c.similarity with
    | some similarity => (.fusion, min (max similarity 0) 1)
    | none => (.fusion, Binary64.round (min c.score 1 * fusionCeiling))

def evidenceSource : CandidateKind → EvidenceSource
  | .chunk => .documentChunk
  | .memory => .memory
  | .fact => .graphFact
  | .summary => .summary
  | .message => .message
  | .episode => .episode

structure ContextItem where
  itemId : String
  representation : Representation
  text : String
  score : Rat
  scoreKind : ScoreKind
  relevance : Rat
  retrievers : List String
  evidence : List NodeRef
  expandedFrom : Option String
  expansionEdge : Option String
  tokenEstimate : ℤ
  /-- the payload's, as far as a reader of the item is given them -/
  attributes : Payload

def candidateToItem (c : Candidate) : ContextItem where
  itemId := c.recordId
  representation := c.representation
  text := c.text
  score := c.score
  scoreKind := (relevance c).1
  relevance := (relevance c).2
  retrievers := c.retrievers
  evidence :=
    if c.kind = .memory ∧ c.payload.sourceRefs ≠ [] then c.payload.sourceRefs
    else
      [{ sourceType := evidenceSource c.kind, sourceId := c.recordId,
         nodeId := c.payload.nodeId }]
  expandedFrom := c.expandedFrom
  expansionEdge := c.expansionEdge
  tokenEstimate := estimateTokens c.text
  attributes := c.payload

def ContextItem.nodes (item : ContextItem) : List String :=
  item.evidence.filterMap fun ref => ref.nodeId.filter (· ≠ "")

structure ContextSettings where
  memoriesMax : Nat := 100
  knowledgeMax : Nat := 12
  graphFactsMax : Nat := 12
  summariesMax : Nat := 4
  conversationTokenBudget : ℤ := 2000

def historyMax : Nat := 4

def unusedMax : Nat := 8

structure BuilderRules where
  answersAsList : String → String → Bool
  unanswered : String → List ContextItem → List String → Option String
  decimals : Rat → String

structure ContextBuilder where
  cfg : ContextSettings
  retrievalCfg : RetrievalSettings
  relevanceFloor : Rat
  rules : BuilderRules

structure RetrievalResult where
  routed : RoutedQuery
  candidates : List Candidate
  diagnostics : Diagnostics

structure ContextBundle where
  query : String
  queryType : QueryType
  conversation : ConversationWindow
  memories : List ContextItem
  knowledge : List ContextItem
  graphFacts : List ContextItem
  summaries : List ContextItem
  history : List ContextItem
  evidence : EvidenceReport
  tokenBudget : ℤ
  tokenEstimate : ℤ
  revisionFingerprint : String
  belowRelevanceFloor : Nat

structure Packed where
  remaining : ℤ
  memories : List ContextItem := []
  primaryMemories : Nat := 0
  knowledge : List ContextItem := []
  graphFacts : List ContextItem := []
  summaries : List ContextItem := []
  history : List ContextItem := []
  includedIds : List String := []
  skippedSeeds : List String := []
  belowFloor : Nat := 0

namespace Packed

def included (packed : Packed) (c : Candidate) : Bool := packed.includedIds.contains c.recordId

def place (packed : Packed) (c : Candidate) : Packed :=
  if packed.included c then packed
  else
    let placed :=
      if c.kind = .summary then
        { packed with summaries := packed.summaries ++ [candidateToItem c] }
      else { packed with knowledge := packed.knowledge ++ [candidateToItem c] }
    { placed with includedIds := c.recordId :: packed.includedIds }

def take (packed : Packed) (c : Candidate) : Packed :=
  { packed with
    includedIds := c.recordId :: packed.includedIds
    remaining := packed.remaining - (candidateToItem c).tokenEstimate }

end Packed

def byNode (candidates : List Candidate) (node : String) : List Candidate :=
  candidates.filter fun c =>
    c.payload.nodeId = some node && node ≠ "" && (c.kind = .chunk || c.kind = .summary)

def expansionEdges : List String := ["GRAPH_EVIDENCE", "DERIVED_SOURCE", "REPLACEMENT",
  "SECOND_HOP"]

namespace ContextBuilder

variable (builder : ContextBuilder)

def belowFloor (query : String) (c : Candidate) : Bool :=
  c.similarity.any (· < builder.relevanceFloor) && c.expandedFrom.isNone &&
    !c.retrievers.contains "exact" &&
    !(c.kind = .memory && builder.rules.answersAsList query c.text)

section

variable (result : RetrievalResult) (packed : Packed)

def companionsFor (node : String) : List Candidate :=
  (result.diagnostics.evidenceSeedGroups.values node).filterMap fun group =>
    let targets := result.diagnostics.evidenceTargets.values group
    if result.candidates.any fun c =>
        packed.included c && targets.contains c.payload.nodeText then none
    else
      targets.findSome? fun target =>
        (byNode result.candidates target).find? fun c => !packed.included c

def unitOf (c : Candidate) : List Candidate :=
  let node := c.payload.nodeId.getD ""
  c :: if result.diagnostics.evidenceSeedGroups.contains node then
      companionsFor result packed node
    else []

def unitCost (unit : List Candidate) : ℤ :=
  (unit.map fun c => (candidateToItem c).tokenEstimate).foldr (· + ·) 0

def pack (query : String) (packed : Packed) (c : Candidate) : Packed :=
  let item := candidateToItem c
  if packed.included c then packed
  else if builder.belowFloor query c then { packed with belowFloor := packed.belowFloor + 1 }
  else if c.kind = .chunk ∧ packed.knowledge.length < builder.cfg.knowledgeMax then
    let unit := unitOf result packed c
    if packed.remaining < unitCost unit then
      if 1 < unit.length then
        { packed with skippedSeeds := packed.skippedSeeds ++ [c.recordId] }
      else packed
    else { unit.foldl Packed.place packed with remaining := packed.remaining - unitCost unit }
  else if packed.remaining < item.tokenEstimate then packed
  else if c.kind = .memory ∧ c.payload.earlierValue = true ∧ result.routed.history = false then
    if historyMax ≤ packed.history.length then packed
    else { packed.take c with history := packed.history ++ [item] }
  else if c.kind = .memory ∧ (packed.primaryMemories < builder.cfg.memoriesMax ∨
      c.expansionEdge.any expansionEdges.contains = true) then
    { packed.take c with
      memories := packed.memories ++ [item]
      primaryMemories :=
        if c.expansionEdge.any expansionEdges.contains then packed.primaryMemories
        else packed.primaryMemories + 1 }
  else if c.kind = .fact ∧ packed.graphFacts.length < builder.cfg.graphFactsMax then
    { packed.take c with graphFacts := packed.graphFacts ++ [item] }
  else if c.kind = .summary ∧ packed.summaries.length < builder.cfg.summariesMax then
    { packed.take c with summaries := packed.summaries ++ [item] }
  else packed

def packAll (query : String) (budget : ℤ) : Packed :=
  result.candidates.foldl (builder.pack result query) { remaining := budget }

def reported : EvidenceReport :=
  result.diagnostics.evidence.getD
    { status :=
        if packed.knowledge.isEmpty && packed.memories.isEmpty && packed.graphFacts.isEmpty then
          .insufficient
        else .complete }

def includedNodes : List String := (packed.knowledge ++ packed.summaries).flatMap ContextItem.nodes

def applicable : List String :=
  let seedsIn := (result.candidates.filter fun c =>
    packed.included c && c.kind = .chunk).map fun c => c.payload.nodeText
  result.diagnostics.evidenceSeedGroups.items.flatMap fun (node, names) =>
    if seedsIn.contains node then names else []

/-- The groups that still apply, and whether what is in the bundle satisfies them. -/
def recheck (report : EvidenceReport) : EvidenceReport :=
  if report.requiredGroups = [] ∨ report.status = .insufficient then report
  else
    let found := applicable result packed
    let stays := fun group : String =>
      if found = [] then report.requiredGroups.contains group else found.contains group
    let leftOut :=
      if packed.skippedSeeds = [] then []
      else [toString packed.skippedSeeds.length ++ " lower-ranked passage(s) left out: their " ++
        "companion evidence did not fit the token budget"]
    let report := { report with
      requiredGroups := report.requiredGroups.filter stays
      satisfiedGroups := report.satisfiedGroups.filter stays
      missingGroups := report.missingGroups.filter stays
      notes := report.notes ++ leftOut }
    let dropped := report.requiredGroups.filter fun group =>
      let targets := result.diagnostics.evidenceTargets.values group
      !targets.isEmpty && !targets.any (includedNodes packed).contains
    if dropped = [] then report
    else
      let missing := sortedSet (report.missingGroups ++ dropped)
      { report with
        status := .incomplete
        missingGroups := missing
        satisfiedGroups := report.satisfiedGroups.filter fun group => !missing.contains group
        notes := report.notes ++ ["companion evidence exceeded the token budget"] }

end

def relatedEvidence (report : EvidenceReport) (memories knowledge : List ContextItem) :
    EvidenceReport :=
  let floor := builder.retrievalCfg.relatedEvidenceRelevance
  match memories with
  | [] => report
  | first :: others =>
    let best := others.foldl (fun best m => max best m.relevance) first.relevance
    if floor ≤ 0 ∨ report.status ≠ .insufficient ∨ knowledge ≠ [] ∨
        noSharedTerm ∉ report.notes ∨ best < floor then report
    else
      { report with
        status := .complete
        notes := report.notes.filter (· ≠ noSharedTerm) ++
          ["no word in common with the question; a memory is related at " ++
            builder.rules.decimals best] }

def coverage (report : EvidenceReport) (query : String) (items : List ContextItem)
    (retrieved : List String) : EvidenceReport :=
  if !builder.retrievalCfg.abstainWhenInsufficient || !builder.retrievalCfg.coverageCheck ||
      report.status = .insufficient then report
  else
    match (builder.rules.unanswered query items retrieved).filter (· ≠ "") with
    | none => report
    | some gap => { report with status := .insufficient, notes := report.notes ++ [gap] }

def unusedOf (result : RetrievalResult) (packed : Packed) : List UnusedEvidence :=
  ((result.candidates.filter fun c =>
      !packed.included c && (c.kind = .chunk || c.kind = .memory || c.kind = .summary) &&
        !unverifiedRepresentation c.payload).map fun c =>
    { itemId := c.recordId, kind := c.kind, text := c.text }) ++ result.diagnostics.unused

def drawn (window : ConversationWindow) : ℤ :=
  if window.form = .rendered then window.tokenEstimate
  else min window.tokenEstimate builder.cfg.conversationTokenBudget

def assemble (query : String) (result : RetrievalResult) (window : ConversationWindow)
    (budget : ℤ) (revisionFp : String) : ContextBundle :=
  let packed := builder.packAll result query (budget - builder.drawn window)
  let report := recheck result packed (reported result packed)
  let report := builder.relatedEvidence report packed.memories packed.knowledge
  let report := builder.coverage report query
    (packed.memories ++ packed.knowledge ++ packed.graphFacts ++ packed.summaries)
    (result.candidates.map Candidate.text)
  let report :=
    if packed.knowledge.isEmpty && packed.memories.isEmpty && packed.graphFacts.isEmpty &&
        packed.summaries.isEmpty && packed.history.isEmpty then
      { report with status := .insufficient }
    else report
  { query
    queryType := result.routed.queryType
    conversation := window
    memories := packed.memories
    knowledge := packed.knowledge
    graphFacts := packed.graphFacts
    summaries := packed.summaries
    history := packed.history
    evidence := { report with unused := (unusedOf result packed).take unusedMax }
    tokenBudget := budget
    tokenEstimate := budget - packed.remaining
    revisionFingerprint := revisionFp
    belowRelevanceFloor := packed.belowFloor }

end ContextBuilder

end MemoryService.Context
