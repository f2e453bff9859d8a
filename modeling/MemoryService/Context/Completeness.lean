import MemoryService.Context.Bundle

/-!
# A complete bundle has its evidence

What the verification stage writes accounts for every group of a seed: the group has targets, and
the report requires it.
-/

namespace MemoryService.Context

open Domain Foundation Option List

/-- Every group of a seed has targets and is required by the report. -/
def Diagnostics.Accounted (diagnostics : Diagnostics) : Prop :=
  diagnostics.evidenceSeedGroups.All fun _ names => ∀ group ∈ names,
    diagnostics.evidenceTargets.values group ≠ [] ∧
      ∃ report, diagnostics.evidence = some report ∧ group ∈ report.requiredGroups

theorem sortedSet_ne_nil {names : List String} (some_ : names ≠ []) : sortedSet names ≠ [] := by
  obtain ⟨name, member⟩ := exists_mem_of_ne_nil names some_
  exact ne_nil_of_mem (mem_sortedSet.mpr member)

theorem mem_withChildren {parentOf : Dict String String} {ids : List String} {id : String}
    (member : id ∈ ids) : id ∈ withChildren parentOf ids := by
  refine List.foldlRecOn (motive := fun grown => id ∈ grown) parentOf.items _ member
    fun grown isIn entry _ => ?_
  dsimp only
  split
  · exact mem_append_left _ isIn
  · exact isIn

theorem descend_spec (rows : List ContextEdge) (levels : Nat) (frontier : List String)
    (groups : Dict String (List String)) (targeted : groups.All fun _ ids => ids ≠ []) :
    (descend rows levels frontier groups).keys = groups.keys ∧
      (descend rows levels frontier groups).All fun _ ids => ids ≠ [] := by
  induction levels generalizing frontier groups with
  | zero => exact ⟨rfl, targeted⟩
  | succ levels ih =>
    rw [descend]
    split
    · exact ⟨rfl, targeted⟩
    · split
      · exact ⟨rfl, targeted⟩
      next =>
        let parentOf := Dict.ofList ((edgesFrom rows frontier [.child]).map fun e =>
          (e.targetId, e.sourceId))
        have grown : (groups.mapValues (withChildren parentOf)).All fun _ ids => ids ≠ [] :=
          targeted.mapValues fun _ ids someIds => by
            obtain ⟨id, member⟩ := exists_mem_of_ne_nil ids someIds
            exact ne_nil_of_mem (mem_withChildren member)
        obtain ⟨sameKeys, stillTargeted⟩ := ih (sortedSet parentOf.keys) _ grown
        exact ⟨sameKeys.trans (Dict.keys_mapValues _ groups), stillTargeted⟩

theorem seedGroups_known (groups : Dict String (List String)) (edges : List ContextEdge) :
    (seedGroups groups edges).All fun _ names => ∀ group ∈ names, group ∈ groups.keys := by
  refine Dict.all_foldl (fun needs e known => ?_) Dict.all_empty
  dsimp only
  split
  next isGroup =>
    refine known.set fun group member => ?_
    rcases mem_concat.mp member with earlier | rfl
    · obtain ⟨names, found, inNames⟩ := Dict.mem_values earlier
      exact known.get? found group inNames
    · exact Dict.contains_iff.mp isGroup
  next => exact known

theorem requirements_spec (rows : List ContextEdge) (seeds : List Candidate) :
    (requirements rows seeds).groups.All (fun _ ids => ids ≠ []) ∧
      (requirements rows seeds).seedGroups.All fun _ names =>
        ∀ group ∈ names, group ∈ (requirements rows seeds).groups.keys := by
  rw [requirements]
  split
  · exact ⟨Dict.all_empty, Dict.all_empty⟩
  · have targeted : ((edgesToGroups (edgesFrom rows
        (seeds.filterMap fun c => c.payload.nodeId.filter (· ≠ "")) requiredEdges)).mapValues
          fun target => [target]).All fun _ ids => ids ≠ [] := by
      intro entry member
      obtain ⟨old, -, rfl⟩ := mem_map.mp member
      exact cons_ne_nil _ _
    obtain ⟨sameKeys, stillTargeted⟩ := descend_spec rows 3 (sortedSet ((edgesToGroups
      (edgesFrom rows (seeds.filterMap fun c => c.payload.nodeId.filter (· ≠ ""))
        requiredEdges)).items.map Prod.snd)) _ targeted
    refine ⟨stillTargeted, ?_⟩
    dsimp only
    rw [sameKeys]
    exact seedGroups_known _ _

variable {edge : ContextEdge}

theorem mem_keys_edgesToGroups {edges : List ContextEdge}
    (member : edge ∈ edges) (isRequired : edge.edge ∈ requiredEdges) :
    evidenceGroupKey edge ∈ (edgesToGroups edges).keys := by
  obtain ⟨before, after, rfl⟩ := append_of_mem member
  rw [edgesToGroups, foldl_append, foldl_cons, if_pos isRequired]
  refine List.foldlRecOn (motive := fun out : Dict String String =>
    evidenceGroupKey edge ∈ out.keys) after _ ((Dict.mem_keys_set _ _).mpr (.inl rfl))
    fun out isKey other _ => ?_
  split
  · exact (Dict.mem_keys_set _ _).mpr (.inr isKey)
  · exact isKey

theorem mem_values_set {needs : Dict String (List String)} {source node name group : String}
    (member : name ∈ needs.values node) :
    name ∈ (needs.set source (needs.values source ++ [group])).values node := by
  by_cases same : node = source
  · rw [same, Dict.values, Dict.get?_set_self, ← same]
    exact mem_append_left _ member
  · rwa [Dict.values, Dict.get?_set_other _ _ same]

theorem mem_seedGroups {groups : Dict String (List String)} {edges : List ContextEdge}
    (member : edge ∈ edges)
    (isGroup : evidenceGroupKey edge ∈ groups.keys) :
    evidenceGroupKey edge ∈ (seedGroups groups edges).values edge.sourceId := by
  obtain ⟨before, after, rfl⟩ := append_of_mem member
  rw [seedGroups, foldl_append, foldl_cons, if_pos (Dict.contains_iff.mpr isGroup)]
  refine List.foldlRecOn (motive := fun needs : Dict String (List String) =>
    evidenceGroupKey edge ∈ needs.values edge.sourceId) after _ ?_ fun needs kept other _ => ?_
  · rw [Dict.values, Dict.get?_set_self]
    exact mem_concat_self
  · dsimp only
    split
    · exact mem_values_set kept
    · exact kept

theorem mem_requirements {rows : List ContextEdge} {seeds : List Candidate} {seed : Candidate}
    (isSeed : seed ∈ seeds) (isRow : edge ∈ rows)
    (named : edge.sourceId ≠ "") (isSource : seed.payload.nodeId = some edge.sourceId)
    (isRequired : edge.edge ∈ requiredEdges) :
    evidenceGroupKey edge ∈ (requirements rows seeds).seedGroups.values edge.sourceId := by
  have isNode : edge.sourceId ∈ seeds.filterMap fun c => c.payload.nodeId.filter (· ≠ "") :=
    mem_filterMap.mpr ⟨seed, isSeed, filter_eq_some_iff.mpr ⟨isSource, by simpa⟩⟩
  rw [requirements]
  dsimp only
  rw [if_neg (ne_nil_of_mem isNode)]
  have isEdge : edge ∈ edgesFrom rows
      (seeds.filterMap fun c => c.payload.nodeId.filter (· ≠ "")) requiredEdges :=
    mem_filter.mpr ⟨isRow, by simp only [contains_iff_mem.mpr isNode,
      contains_iff_mem.mpr isRequired, Bool.and_true]⟩
  refine mem_seedGroups isEdge ?_
  rw [Dict.keys_mapValues]
  exact mem_keys_edgesToGroups isEdge isRequired

/-- Every required edge of a passage the stage verifies is among its recorded groups. -/
theorem VerificationStage.required_edge_is_group {stage : VerificationStage}
    {routed : RoutedQuery} {candidates : List Candidate} {diagnostics : Diagnostics}
    {seed : Candidate} (asked : routed.queryType ≠ .exactIdentifier)
    (isSeed : seed ∈ (candidates.filter fun c =>
      c.kind = .chunk && c.expansionEdge.isNone).take stage.seeds)
    (isRow : edge ∈ stage.edges) (named : edge.sourceId ≠ "")
    (isSource : seed.payload.nodeId = some edge.sourceId)
    (isRequired : edge.edge ∈ requiredEdges) :
    (stage.call routed candidates diagnostics).2.evidence =
        some { status := .insufficient, notes := [noSharedTerm] } ∨
      evidenceGroupKey edge ∈
        (stage.call routed candidates diagnostics).2.evidenceSeedGroups.values
          edge.sourceId := by
  obtain ⟨isCandidate, isPassage⟩ := mem_filter.mp (mem_of_mem_take isSeed)
  have isEvidence : seed ∈ candidates.filter fun c =>
      c.kind = .chunk || c.kind = .memory || c.kind = .summary :=
    mem_filter.mpr ⟨isCandidate, by simp [(Bool.and_eq_true _ _ ▸ isPassage).1]⟩
  rw [call]
  dsimp only
  rw [if_neg (by simpa using ne_nil_of_mem isEvidence), if_neg asked]
  split
  · exact .inl rfl
  · right
    have recorded := mem_requirements isSeed isRow named isSource isRequired
    obtain ⟨names, found, member⟩ := Dict.mem_values recorded
    dsimp only
    rw [Dict.values, Dict.get?_mapValues, found]
    exact mem_sortedSet.mpr member

theorem VerificationStage.call_accounted (stage : VerificationStage) (routed : RoutedQuery)
    (candidates : List Candidate) (unused : List UnusedEvidence) :
    (stage.call routed candidates { unused }).2.Accounted := by
  rw [call]
  dsimp only
  split
  · exact Dict.all_empty
  · split
    · exact Dict.all_empty
    · split
      · exact Dict.all_empty
      · set seeds := (candidates.filter fun c =>
          c.kind = .chunk && c.expansionEdge.isNone).take stage.seeds
        obtain ⟨targeted, known⟩ := requirements_spec stage.edges seeds
        refine known.mapValues fun node names isKnown group member => ?_
        have isGroup := isKnown group (mem_sortedSet.mp member)
        obtain ⟨ids, found⟩ := Dict.exists_get? isGroup
        refine ⟨?_, _, rfl, mem_sortedSet.mpr isGroup⟩
        rw [Dict.values, Dict.get?_mapValues, found, map_some, getD_some]
        exact sortedSet_ne_nil (targeted.get? found)

def Packed.Sourced (candidates : List Candidate) (packed : Packed) : Prop :=
  ∀ item ∈ packed.knowledge, ∃ c ∈ candidates,
    item = candidateToItem c ∧ c.kind = .chunk ∧ packed.included c = true

variable {candidates : List Candidate} {packed next : Packed} {c : Candidate}
  {node query group : String} {report : EvidenceReport}

theorem Packed.Sourced.of_same
    (sourced : packed.Sourced candidates) (same : next.knowledge = packed.knowledge)
    (kept : ∀ c, packed.included c = true → next.included c = true) :
    next.Sourced candidates := by
  intro item member
  rw [same] at member
  obtain ⟨c, isCandidate, isItem, isChunk, isIn⟩ := sourced item member
  exact ⟨c, isCandidate, isItem, isChunk, kept c isIn⟩

theorem included_of_cons {other : Candidate}
    (ids : next.includedIds = c.recordId :: packed.includedIds)
    (isIn : packed.included other = true) : next.included other = true := by
  rw [Packed.included] at isIn ⊢
  rw [ids, contains_cons, isIn, Bool.or_true]

theorem Packed.Sourced.place (sourced : packed.Sourced candidates) (isCandidate : c ∈ candidates)
    (isKind : c.kind = .chunk ∨ c.kind = .summary) :
    (packed.place c).Sourced candidates := by
  rw [Packed.place]
  split
  · exact sourced
  · split
    · exact sourced.of_same rfl fun other isIn => included_of_cons rfl isIn
    next notSummary =>
      intro item member
      rcases mem_append.mp member with earlier | last
      · obtain ⟨other, isOther, isItem, isChunk, isIn⟩ := sourced item earlier
        exact ⟨other, isOther, isItem, isChunk, included_of_cons rfl isIn⟩
      · refine ⟨c, isCandidate, mem_singleton.mp last, isKind.resolve_right notSummary, ?_⟩
        simp [Packed.included]

theorem mem_byNode (member : c ∈ byNode candidates node) :
    c ∈ candidates ∧ (c.kind = .chunk ∨ c.kind = .summary) := by
  obtain ⟨isCandidate, selected⟩ := mem_filter.mp member
  simp only [Bool.and_eq_true, Bool.or_eq_true, decide_eq_true_eq] at selected
  exact ⟨isCandidate, selected.2⟩

namespace ContextBuilder

variable {builder : ContextBuilder} {result : RetrievalResult}

/-- A companion is a new candidate of a target of one of the groups of the node. -/
theorem companion_found (member : c ∈ companionsFor result packed node) :
    ∃ group ∈ result.diagnostics.evidenceSeedGroups.values node,
      ∃ target ∈ result.diagnostics.evidenceTargets.values group,
        c ∈ byNode result.candidates target ∧ packed.included c = false := by
  obtain ⟨group, isGroup, chosen⟩ := mem_filterMap.mp member
  dsimp only at chosen
  split at chosen
  · cases chosen
  · obtain ⟨target, isTarget, found⟩ := exists_of_findSome?_eq_some chosen
    have isNew := find?_some found
    rw [Bool.not_eq_true'] at isNew
    exact ⟨group, isGroup, target, isTarget, mem_of_find?_eq_some found, isNew⟩

theorem mem_companionsFor (member : c ∈ companionsFor result packed node) :
    c ∈ result.candidates ∧ (c.kind = .chunk ∨ c.kind = .summary) := by
  obtain ⟨_, -, _, -, atTarget, -⟩ := companion_found member
  exact mem_byNode atTarget

theorem mem_unitOf {seed : Candidate} (isCandidate : seed ∈ result.candidates)
    (isChunk : seed.kind = .chunk) (member : c ∈ unitOf result packed seed) :
    c ∈ result.candidates ∧ (c.kind = .chunk ∨ c.kind = .summary) := by
  rcases mem_cons.mp member with rfl | companion
  · exact ⟨isCandidate, .inl isChunk⟩
  · split at companion
    · exact mem_companionsFor companion
    · cases companion

theorem pack_sourced
    (sourced : packed.Sourced result.candidates) (isCandidate : c ∈ result.candidates) :
    (builder.pack result query packed c).Sourced result.candidates := by
  have taken : ∀ {next : Packed}, next.knowledge = packed.knowledge →
      next.includedIds = c.recordId :: packed.includedIds →
      next.Sourced result.candidates :=
    fun same ids => sourced.of_same same fun _ isIn => included_of_cons ids isIn
  have left : ∀ {next : Packed}, next.knowledge = packed.knowledge →
      next.includedIds = packed.includedIds → next.Sourced result.candidates :=
    fun same ids => sourced.of_same same fun _ isIn => by
      rw [Packed.included, ids]
      exact isIn
  rw [pack]
  dsimp only
  split
  · exact sourced
  split
  · exact left rfl rfl
  split
  next isChunk =>
    split
    · split
      · exact left rfl rfl
      · exact sourced
    · have placed : ((unitOf result packed c).foldl Packed.place packed).Sourced
          result.candidates := by
        refine List.foldlRecOn (motive := fun next : Packed => next.Sourced result.candidates)
          _ _ sourced fun next isSourced other member => ?_
        obtain ⟨isOther, isKind⟩ := mem_unitOf isCandidate isChunk.1 member
        exact isSourced.place isOther isKind
      exact placed.of_same rfl fun _ isIn => isIn
  split
  · exact sourced
  split
  · split
    · exact sourced
    · exact taken rfl rfl
  split
  · exact taken rfl rfl
  split
  · exact taken rfl rfl
  split
  · exact taken rfl rfl
  · exact sourced

theorem packAll_sourced (query : String) (budget : ℤ) :
    (builder.packAll result query budget).Sourced result.candidates := by
  refine List.foldlRecOn (motive := fun next : Packed => next.Sourced result.candidates) _ _ ?_
    fun packed sourced c isCandidate => pack_sourced sourced isCandidate
  intro item member
  cases member

theorem coverage_complete {items : List ContextItem} {retrieved : List String}
    (complete : (builder.coverage report query items retrieved).status = .complete) :
    report.status = .complete := by
  rw [coverage] at complete
  split at complete
  · exact complete
  · split at complete
    · exact complete
    · cases complete

theorem relatedEvidence_of_passage (report : EvidenceReport) (memories : List ContextItem)
    {knowledge : List ContextItem} (hasPassage : knowledge ≠ []) :
    builder.relatedEvidence report memories knowledge = report := by
  cases memories with
  | nil => rfl
  | cons first others =>
    rw [relatedEvidence]
    exact if_pos (.inr (.inr (.inl hasPassage)))

theorem complete_of_assemble {window : ConversationWindow} {budget : ℤ} {revisionFp : String}
    (complete : (builder.assemble query result window budget revisionFp).evidence.status =
      .complete)
    (hasPassage : (builder.packAll result query (budget - builder.drawn window)).knowledge ≠ []) :
    (recheck result (builder.packAll result query (budget - builder.drawn window))
      (reported result (builder.packAll result query (budget - builder.drawn window)))).status =
        .complete := by
  rw [assemble] at complete
  dsimp only at complete
  split at complete
  · cases complete
  · rw [relatedEvidence_of_passage _ _ hasPassage] at complete
    exact coverage_complete complete

theorem recheck_satisfied (complete : (recheck result packed report).status = .complete)
    (isRequired : group ∈ report.requiredGroups) (applies : group ∈ applicable result packed)
    (targeted : result.diagnostics.evidenceTargets.values group ≠ []) :
    ∃ target ∈ result.diagnostics.evidenceTargets.values group, target ∈ includedNodes packed := by
  have someRequired : report.requiredGroups ≠ [] := ne_nil_of_mem isRequired
  have someApply : applicable result packed ≠ [] := ne_nil_of_mem applies
  rw [recheck] at complete
  split at complete
  next passedBy =>
    rcases passedBy with noneRequired | insufficient
    · exact absurd noneRequired someRequired
    · rw [insufficient] at complete
      cases complete
  · simp only [if_neg someApply] at complete
    split at complete
    next noneDropped =>
      have notDropped := filter_eq_nil_iff.mp noneDropped group <|
        mem_filter.mpr ⟨isRequired, contains_iff_mem.mpr applies⟩
      have covered : (result.diagnostics.evidenceTargets.values group).any
          (includedNodes packed).contains = true := by
        by_contra notCovered
        exact notDropped (by simp [targeted, notCovered])
      obtain ⟨target, isTarget, isIn⟩ := any_eq_true.mp covered
      exact ⟨target, isTarget, contains_iff_mem.mp isIn⟩
    next => cases complete

theorem mem_applicable (isCandidate : c ∈ result.candidates) (isChunk : c.kind = .chunk)
    (isIn : packed.included c = true) (isNode : c.payload.nodeText = node)
    (isGroup : group ∈ result.diagnostics.evidenceSeedGroups.values node) :
    group ∈ applicable result packed := by
  obtain ⟨names, found, member⟩ := Dict.mem_values isGroup
  refine mem_flatMap.mpr ⟨(node, names), Dict.get?_eq_some_iff.mp found, ?_⟩
  dsimp only
  rw [if_pos]
  · exact member
  · refine contains_iff_mem.mpr (mem_map.mpr ⟨c, mem_filter.mpr ?_, isNode⟩)
    exact ⟨isCandidate, by rw [isIn, isChunk]; decide⟩

theorem nodeText_of_mem_nodes (isChunk : c.kind = .chunk)
    (member : node ∈ (candidateToItem c).nodes) : c.payload.nodeText = node := by
  rw [ContextItem.nodes, candidateToItem] at member
  dsimp only at member
  rw [if_neg (fun isMemory => by rw [isChunk] at isMemory; cases isMemory.1)] at member
  obtain ⟨ref, isRef, isNode⟩ := mem_filterMap.mp member
  rw [mem_singleton.mp isRef] at isNode
  have ofNode : c.payload.nodeId = some node := (filter_eq_some_iff.mp isNode).1
  rw [Payload.nodeText, ofNode, getD_some]

end ContextBuilder

/-- An item of the bundle shows a target of the group. -/
def ContextBundle.Satisfies (bundle : ContextBundle) (diagnostics : Diagnostics)
    (group : String) : Prop :=
  ∃ target ∈ diagnostics.evidenceTargets.values group,
    ∃ item ∈ bundle.knowledge ++ bundle.summaries, target ∈ item.nodes

open ContextBuilder in
/-- Whatever the stage that verified a retrieval found, whatever became of the candidates
after it, and whatever the budget: a complete bundle satisfies every group of every passage
that is in it. -/
theorem complete_has_its_evidence (stage : VerificationStage) (builder : ContextBuilder)
    (routed : RoutedQuery) (retrieved candidates : List Candidate) (unused : List UnusedEvidence)
    (query : String) (window : ConversationWindow) (budget : ℤ) (revisionFp : String) :
    let diagnostics := (stage.call routed retrieved { unused }).2
    let bundle :=
      builder.assemble query { routed, candidates, diagnostics } window budget revisionFp
    bundle.evidence.status = .complete →
      ∀ item ∈ bundle.knowledge, ∀ node ∈ item.nodes,
        ∀ group ∈ diagnostics.evidenceSeedGroups.values node,
          bundle.Satisfies diagnostics group := by
  intro diagnostics bundle complete item isPassage node isNode group isGroup
  have accounted : diagnostics.Accounted := stage.call_accounted routed retrieved unused
  let result : RetrievalResult := { routed, candidates, diagnostics }
  let packed := builder.packAll result query (budget - builder.drawn window)
  obtain ⟨c, isCandidate, rfl, isChunk, isIn⟩ :=
    @packAll_sourced builder result query (budget - builder.drawn window) item isPassage
  obtain ⟨names, found, inNames⟩ := Dict.mem_values isGroup
  obtain ⟨targeted, report, isReport, isRequired⟩ := accounted.get? found group inNames
  have isReported : reported result packed = report := by
    rw [reported, isReport, getD_some]
  have rechecked : (recheck result packed report).status = .complete := by
    rw [← isReported]
    exact complete_of_assemble complete (ne_nil_of_mem isPassage)
  obtain ⟨target, isTarget, inNodes⟩ := recheck_satisfied rechecked isRequired
    (mem_applicable isCandidate isChunk isIn (nodeText_of_mem_nodes isChunk isNode) isGroup)
    targeted
  obtain ⟨other, isOther, ofOther⟩ := mem_flatMap.mp inNodes
  exact ⟨target, isTarget, other, isOther, ofOther⟩

def definitionEdge : ContextEdge where
  sourceId := "sec_2"
  targetId := "sec_1"
  edge := .definedBy

def usesTerm : Candidate where
  recordId := "chk_2"
  kind := .chunk
  text := "EBITDA rose."
  payload := { nodeId := some "sec_2" }

def definesTerm : Candidate where
  recordId := "chk_1"
  kind := .chunk
  text := "EBITDA means earnings."
  payload := { nodeId := some "sec_1" }

def plainStage : VerificationStage where
  edges := [definitionEdge]
  chunks := []
  cfg := {}
  rules := { overlaps := fun _ _ => true, unsupportedSubject := fun _ _ => none }

def plainBuilder : ContextBuilder where
  cfg := {}
  retrievalCfg := {}
  relevanceFloor := 0
  rules :=
    { answersAsList := fun _ _ => false
      unanswered := fun _ _ _ => none
      decimals := fun _ => "" }

def aboutTerm : RoutedQuery where
  query := "How did EBITDA do?"
  queryType := .documentLocal

def verifiedTerm : Diagnostics := (plainStage.call aboutTerm [usesTerm, definesTerm] {}).2

def bundleOf (candidates : List Candidate) : ContextBundle :=
  plainBuilder.assemble aboutTerm.query
    { routed := aboutTerm, candidates, diagnostics := verifiedTerm } {} 100 ""

theorem term_has_its_definition :
    (bundleOf [usesTerm, definesTerm]).evidence.status = .complete ∧
      (bundleOf [usesTerm, definesTerm]).Satisfies verifiedTerm "defined_by:sec_1:sec_1" := by
  have complete : (bundleOf [usesTerm, definesTerm]).evidence.status = .complete := by
    decide +kernel
  refine ⟨complete, ?_⟩
  refine complete_has_its_evidence plainStage plainBuilder aboutTerm [usesTerm, definesTerm]
    [usesTerm, definesTerm] [] aboutTerm.query {} 100 "" complete (candidateToItem usesTerm) ?_
    "sec_2" (mem_singleton_self _) _ ?_
  · exact mem_cons_self
  · exact mem_singleton_self _

/-- Without its definition among the candidates, the same passage is not complete. -/
example : (bundleOf [usesTerm]).evidence.status = .incomplete := by decide +kernel

end MemoryService.Context
