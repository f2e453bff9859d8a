import MemoryService.Context.Charged

/-!
# Whether a passage has its evidence with it

A companion, and a summary that stands by itself, may have groups of their own, and nothing asks
for those.
-/

namespace MemoryService.Context

open Domain Foundation List

def Candidate.groupNode (c : Candidate) : String := c.payload.nodeId.getD ""

namespace RetrievalResult

variable (result : RetrievalResult)

def groupsOf (c : Candidate) : List String :=
  result.diagnostics.evidenceSeedGroups.values c.groupNode

def targetsOf (group : String) : List String := result.diagnostics.evidenceTargets.values group

def Retrieved (group : String) : Prop :=
  ∃ target ∈ result.targetsOf group, byNode result.candidates target ≠ []

def AnsweredBy (group : String) (ids : List String) : Prop :=
  ∃ other ∈ result.candidates, other.recordId ∈ ids ∧
    (result.targetsOf group).contains other.payload.nodeText = true

def WholeIn (c : Candidate) (ids : List String) : Prop :=
  ∀ group ∈ result.groupsOf c, result.Retrieved group → result.AnsweredBy group ids

/-- Every passage that is in has its evidence with it. -/
def Atomic (ids : List String) : Prop :=
  ∀ c ∈ result.candidates, c.recordId ∈ ids → result.WholeIn c ids

variable {result} {group : String} {c : Candidate} {ids more : List String}

theorem AnsweredBy.mono (within : ids ⊆ more) (answered : result.AnsweredBy group ids) :
    result.AnsweredBy group more := by
  obtain ⟨other, isCandidate, isIn, answers⟩ := answered
  exact ⟨other, isCandidate, within isIn, answers⟩

theorem WholeIn.mono (within : ids ⊆ more) (whole : result.WholeIn c ids) : result.WholeIn c more :=
  fun group isGroup retrieved => (whole group isGroup retrieved).mono within

theorem atomic_congr (same : ∀ id, id ∈ ids ↔ id ∈ more) :
    result.Atomic ids ↔ result.Atomic more := by
  have within : ids ⊆ more := fun id => (same id).mp
  have back : more ⊆ ids := fun id => (same id).mpr
  exact ⟨fun atomic c isCandidate isIn => (atomic c isCandidate (back isIn)).mono within,
    fun atomic c isCandidate isIn => (atomic c isCandidate (within isIn)).mono back⟩

theorem atomic_grow_iff (within : ids ⊆ more) (atomic : result.Atomic ids) :
    result.Atomic more ↔
      ∀ c ∈ result.candidates, c.recordId ∈ more → c.recordId ∉ ids → result.WholeIn c more := by
  constructor
  · intro later c isCandidate isIn _
    exact later c isCandidate isIn
  · intro news c isCandidate isIn
    by_cases already : c.recordId ∈ ids
    · exact (atomic c isCandidate already).mono within
    · exact news c isCandidate isIn already

theorem nodeText_of_mem_byNode {candidates : List Candidate} {node : String}
    (member : c ∈ byNode candidates node) : c.payload.nodeText = node := by
  have selected := (mem_filter.mp member).2
  simp only [Bool.and_eq_true, decide_eq_true_eq] at selected
  rw [Payload.nodeText, selected.1.1]
  rfl

end RetrievalResult

namespace ContextBuilder

open RetrievalResult

variable {builder : ContextBuilder} {result : RetrievalResult} {query : String} {packed : Packed}
  {c : Candidate}

theorem companion_chosen {node group : String}
    (isGroup : group ∈ result.diagnostics.evidenceSeedGroups.values node)
    (retrieved : result.Retrieved group) :
    result.AnsweredBy group packed.includedIds ∨
      ∃ companion ∈ companionsFor result packed node, companion ∈ result.candidates ∧
        (result.targetsOf group).contains companion.payload.nodeText = true := by
  by_cases answered : (result.candidates.any fun other =>
      packed.included other && (result.targetsOf group).contains other.payload.nodeText) = true
  · obtain ⟨other, isCandidate, answers⟩ := any_eq_true.mp answered
    rw [Bool.and_eq_true, Packed.included_iff] at answers
    exact .inl ⟨other, isCandidate, answers.1, answers.2⟩
  · refine .inr ?_
    obtain ⟨target, isTarget, found⟩ := retrieved
    obtain ⟨first, isFirst⟩ := exists_mem_of_ne_nil _ found
    have isNew : packed.included first = false := by
      by_contra isIn
      rw [Bool.not_eq_false] at isIn
      refine answered (any_eq_true.mpr ⟨first, (mem_byNode isFirst).1, ?_⟩)
      rw [isIn, Bool.true_and, nodeText_of_mem_byNode isFirst, contains_iff_mem]
      exact isTarget
    have isSome : ((result.targetsOf group).findSome? fun target =>
        (byNode result.candidates target).find? fun other => !packed.included other).isSome := by
      rw [findSome?_isSome_iff]
      refine ⟨target, isTarget, ?_⟩
      rw [find?_isSome]
      exact ⟨first, isFirst, by rw [isNew]; rfl⟩
    obtain ⟨companion, chosen⟩ := Option.isSome_iff_exists.mp isSome
    obtain ⟨other, isOther, isFound⟩ := exists_of_findSome?_eq_some chosen
    have atOther := mem_of_find?_eq_some isFound
    refine ⟨companion, mem_filterMap.mpr ⟨group, isGroup, ?_⟩, (mem_byNode atOther).1, ?_⟩
    · dsimp only
      rw [targetsOf] at answered
      rw [if_neg answered]
      exact chosen
    · rw [nodeText_of_mem_byNode atOther, contains_iff_mem]
      exact isOther

theorem unit_whole {other : Candidate} (same : other.groupNode = c.groupNode) :
    result.WholeIn other
      (packed.includedIds ++ (unitOf result packed c).map Candidate.recordId) := by
  intro group isGroup retrieved
  rw [groupsOf, same] at isGroup
  rcases @companion_chosen result packed c.groupNode group isGroup retrieved with
    answered | chosen
  · exact answered.mono (subset_append_left _ _)
  · obtain ⟨companion, isCompanion, isCandidate, answers⟩ := chosen
    have hasGroups : result.diagnostics.evidenceSeedGroups.contains c.groupNode = true := by
      obtain ⟨groups, found, -⟩ := Dict.mem_values isGroup
      rw [Dict.contains_iff]
      exact Dict.mem_keys_of_get? found
    have inUnit : companion ∈ unitOf result packed c := by
      refine mem_cons_of_mem c ?_
      change companion ∈ if result.diagnostics.evidenceSeedGroups.contains c.groupNode then
        companionsFor result packed c.groupNode else []
      rw [if_pos hasGroups]
      exact isCompanion
    exact ⟨companion, isCandidate, mem_append_right _ (mem_map_of_mem inUnit), answers⟩

theorem ids_pack (builder : ContextBuilder) (result : RetrievalResult) (query : String)
    (packed : Packed) (c : Candidate) (id : String) :
    id ∈ (builder.pack result query packed c).includedIds ↔
      id ∈ packed.includedIds ++ (builder.brings result query packed c).map Candidate.recordId := by
  have does := pack_does builder result query packed c
  cases isEntry : builder.entry result query packed c with
  | left =>
    rw [isEntry] at does
    rw [brings, isEntry, does.ids, map_nil, append_nil]
  | unit =>
    rw [isEntry] at does
    rw [brings, isEntry, does.placed, mem_append]
    exact Packed.ids_places (unitOf result packed c) id
  | alone =>
    rw [isEntry] at does
    rw [brings, isEntry, does.gains.ids, mem_cons, mem_append, map_singleton, mem_singleton]
    exact or_comm

/-- Every candidate that a step brings in, other than a passage with its own unit, finds the
companions of its groups in the bundle or among what comes with it. -/
def EntersWhole (builder : ContextBuilder) (result : RetrievalResult) (query : String)
    (packed : Packed) (c : Candidate) : Prop :=
  ∀ entering ∈ result.candidates,
    entering.recordId ∈ (builder.brings result query packed c).map Candidate.recordId →
      packed.included entering = false →
        (builder.entry result query packed c = .unit → entering.groupNode ≠ c.groupNode) →
          result.WholeIn entering
            (packed.includedIds ++ (builder.brings result query packed c).map Candidate.recordId)

theorem pack_atomic_iff (atomic : result.Atomic packed.includedIds) :
    result.Atomic (builder.pack result query packed c).includedIds ↔
      builder.EntersWhole result query packed c := by
  rw [atomic_congr (ids_pack builder result query packed c),
    atomic_grow_iff (subset_append_left _ _) atomic]
  constructor
  · intro whole entering isCandidate isBrought isNew _
    refine whole entering isCandidate (mem_append_right _ isBrought) ?_
    rw [← Packed.included_iff, isNew]
    decide
  · intro enters entering isCandidate isThere notBefore
    have isBrought := (mem_append.mp isThere).resolve_left notBefore
    have isNew : packed.included entering = false := by
      rw [← Bool.not_eq_true, Packed.included_iff]
      exact notBefore
    by_cases ownUnit : builder.entry result query packed c = .unit ∧
        entering.groupNode = c.groupNode
    · have broughtUnit : builder.brings result query packed c = unitOf result packed c := by
        rw [brings, ownUnit.1]
      rw [broughtUnit]
      exact unit_whole ownUnit.2
    · exact enters entering isCandidate isBrought isNew (not_and.mp ownUnit)

/-- At every step of the packing what comes in finds its companions. -/
def AllEnterWhole (builder : ContextBuilder) (result : RetrievalResult) (query : String)
    (room : ℤ) : Prop :=
  Admits (builder.pack result query) (builder.EntersWhole result query) { remaining := room }
    result.candidates

theorem passing_whole_iff (builder : ContextBuilder) (result : RetrievalResult) (query : String)
    (room : ℤ) :
    (∀ seen, seen <+: result.candidates →
        result.Atomic ((seen.foldl (builder.pack result query) { remaining := room }).items.map
          ContextItem.itemId)) ↔
      builder.AllEnterWhole result query room := by
  have fromEmpty : result.Atomic (Packed.includedIds { remaining := room }) := by
    intro c _ isIn
    cases isIn
  have along := @admits_iff_along _ _ _ _ (fun packed : Packed => result.Atomic packed.includedIds)
    (@pack_atomic_iff builder result query) result.candidates { remaining := room } fromEmpty
  rw [AllEnterWhole, along]
  refine forall₂_congr fun seen _ => ?_
  exact (atomic_congr (sound_foldl seen room).listed).symm

/-- Where at every step what comes in finds its companions, and only there, the packing never
holds a candidate without the companions of its groups; and then the bundle does not. -/
theorem bundle_whole_iff (builder : ContextBuilder) (query : String) (result : RetrievalResult)
    (window : ConversationWindow) (budget : ℤ) (revisionFp : String) :
    ((∀ seen, seen <+: result.candidates →
        result.Atomic ((seen.foldl (builder.pack result query)
          { remaining := budget - builder.drawn window }).items.map ContextItem.itemId)) ↔
      builder.AllEnterWhole result query (budget - builder.drawn window)) ∧
    (builder.AllEnterWhole result query (budget - builder.drawn window) →
      result.Atomic ((builder.assemble query result window budget revisionFp).items.map
        ContextItem.itemId)) := by
  have exactly := passing_whole_iff builder result query (budget - builder.drawn window)
  refine ⟨exactly, fun enters => ?_⟩
  rw [assemble_items]
  exact exactly.mpr enters result.candidates prefix_rfl

/-- In the graph of evidence only passages have groups, and none of these is a target. -/
structure TargetsPlain (result : RetrievalResult) : Prop where
  sameNode : ∀ c ∈ result.candidates, ∀ other ∈ result.candidates, c.recordId = other.recordId →
    c.groupNode = other.groupNode
  passage : ∀ c ∈ result.candidates, result.groupsOf c ≠ [] → c.kind = .chunk
  noTarget : ∀ c ∈ result.candidates, result.groupsOf c ≠ [] → ∀ node,
    ∀ group ∈ result.diagnostics.evidenceSeedGroups.values node,
      c.payload.nodeText ∉ result.targetsOf group

theorem entry_alone_ne_chunk (isAlone : builder.entry result query packed c = .alone) :
    c.kind ≠ .chunk := by
  intro isChunk
  grind [entry]

theorem entersWhole_of_plain (plain : TargetsPlain result) (isCandidate : c ∈ result.candidates) :
    builder.EntersWhole result query packed c := by
  intro entering isEntering isBrought _ notOwn group isGroup _
  obtain ⟨brought, isOne, sameId⟩ := mem_map.mp isBrought
  have hasGroups : result.groupsOf entering ≠ [] := ne_nil_of_mem isGroup
  rw [brings] at isOne
  split at isOne
  case h_1 => cases isOne
  case h_2 isUnit =>
    rcases mem_cons.mp isOne with rfl | isCompanion
    · exact absurd (plain.sameNode _ isEntering _ isCandidate sameId.symm) (notOwn isUnit)
    · split at isCompanion
      case isFalse => cases isCompanion
      case isTrue =>
        obtain ⟨chosen, isChosen, target, isTarget, atTarget, -⟩ := companion_found isCompanion
        have same := plain.sameNode _ (mem_byNode atTarget).1 _ isEntering sameId
        rw [groupsOf, ← same] at hasGroups
        refine absurd isTarget ?_
        rw [← nodeText_of_mem_byNode atTarget]
        exact plain.noTarget brought (mem_byNode atTarget).1 hasGroups _ chosen isChosen
  case h_3 isAlone =>
    cases mem_singleton.mp isOne
    have same := plain.sameNode _ isCandidate _ isEntering sameId
    rw [groupsOf, ← same] at hasGroups
    exact absurd (plain.passage c isCandidate hasGroups) (entry_alone_ne_chunk isAlone)

/-- Where no companion has groups of its own, the bundle is whole. -/
theorem bundle_whole_of_plain (plain : TargetsPlain result) (window : ConversationWindow)
    (budget : ℤ) (revisionFp : String) :
    result.Atomic ((builder.assemble query result window budget revisionFp).items.map
      ContextItem.itemId) := by
  rw [assemble_items]
  exact (passing_whole_iff builder result query _).mpr
    (admits_of_forall _ fun c isCandidate _ => entersWhole_of_plain plain isCandidate)
    result.candidates prefix_rfl

end ContextBuilder

def outlineEdge : ContextEdge where
  sourceId := "sec_3"
  targetId := "sec_2"
  edge := .crossReference

def refersToUse : Candidate where
  recordId := "chk_3"
  kind := .chunk
  text := "See the results."
  payload := { nodeId := some "sec_3" }

def chainedStage : VerificationStage := { plainStage with edges := [outlineEdge, definitionEdge] }

def chainedResult : RetrievalResult where
  routed := aboutTerm
  candidates := [refersToUse, usesTerm, definesTerm]
  diagnostics := (chainedStage.call aboutTerm [refersToUse, usesTerm, definesTerm] {}).2

def chainedBundle (budget : ℤ) : ContextBundle :=
  plainBuilder.assemble aboutTerm.query chainedResult {} budget ""

/-- The second passage comes in as a companion, and its definition has no room left. -/
theorem companion_without_its_definition :
    (chainedBundle 7).items.map ContextItem.itemId = ["chk_3", "chk_2"] ∧
      ¬chainedResult.Atomic ((chainedBundle 7).items.map ContextItem.itemId) := by
  have listed : (chainedBundle 7).items.map ContextItem.itemId = ["chk_3", "chk_2"] := by
    decide +kernel
  refine ⟨listed, ?_⟩
  rw [listed]
  intro atomic
  have isCandidate : usesTerm ∈ chainedResult.candidates := mem_cons_of_mem _ mem_cons_self
  obtain ⟨other, isOther, isIn, answers⟩ := atomic usesTerm isCandidate
    (by decide +kernel) "defined_by:sec_1:sec_1" (by decide +kernel)
    ⟨"sec_1", by decide +kernel, by decide +kernel⟩
  revert other
  decide +kernel

end MemoryService.Context
