import MemoryService.Graph.Relations

/-!
# Reading the graph

Three reads return relations: the bounded traversal from some entities, the relations on an
entity's profile, and the facts of the retrieval stage, which are those of a traversal.
-/

namespace MemoryService.Graph

open Domain Foundation List

structure Ask where
  tenantId : String
  scopeKeys : List String
  layers : Option (List Layer) := none
  asOf : Option Instant := none
  validAt : Option Instant := none

/-- `visibility_keys ?| keys`. -/
def visible (scopeKeys visibilityKeys : List String) : Bool :=
  visibilityKeys.any fun key => scopeKeys.contains key

structure Assertion where
  subjectId : EntityId
  predicate : String
  objectId : EntityId
  documentId : Option String
  layer : Layer
  validFrom : Option Instant
  validTo : Option Instant
  attributes : List (String × Option String)
  deriving DecidableEq

def Relation.assertion (r : Relation) : Assertion where
  subjectId := r.subjectId
  predicate := r.predicate
  objectId := r.objectId
  documentId := r.documentId
  layer := r.layer
  validFrom := r.validFrom
  validTo := r.validTo
  attributes := r.attributes

def distinctBy {α κ : Type} [DecidableEq κ] (key : α → κ) : List α → List α
  | [] => []
  | first :: rest => first :: (distinctBy key rest).filter fun other => key other ≠ key first

abbrev Digests := RelationId → String

structure Edge where
  relation : Relation
  neighbourMentions : Nat

/-- `ORDER BY confidence DESC, neighbour_mentions DESC, observed_at DESC, relation_id`. -/
def Edge.before (digests : Digests) (first second : Edge) : Bool :=
  if first.relation.confidence ≠ second.relation.confidence then
    second.relation.confidence < first.relation.confidence
  else if first.neighbourMentions ≠ second.neighbourMentions then
    second.neighbourMentions < first.neighbourMentions
  else if first.relation.observedAt ≠ second.relation.observedAt then
    second.relation.observedAt < first.relation.observedAt
  else digests first.relation.relationId ≤ digests second.relation.relationId

def neighbour (frontier : List EntityId) (r : Relation) : EntityId :=
  if r.subjectId ∈ frontier then r.objectId else r.subjectId

def Ask.admits (ask : Ask) (frontier expanded : List EntityId) (earlier : List Relation)
    (r : Relation) : Bool :=
  r.tenantId = ask.tenantId && (r.subjectId ∈ frontier || r.objectId ∈ frontier) &&
    visible ask.scopeKeys r.visibilityKeys && (timeConditions r ask.asOf ask.validAt).all id &&
    ask.layers.all (fun layers => layers.isEmpty || layers.contains r.layer) &&
    neighbour frontier r ∉ expanded && !(earlier.any fun e => e.assertion = r.assertion)

section

variable (digests : Digests) (ask : Ask) (tables : Tables)

def edgeOf (frontier : List EntityId) (r : Relation) : Option Edge :=
  (tables.entities.find? fun e =>
    e.entityId = neighbour frontier r ∧ visible ask.scopeKeys e.visibilityKeys).map fun e =>
      { relation := r, neighbourMentions := e.mentionCount }

def neighborhoodQuery (frontier expanded : List EntityId) (earlier : List Relation)
    (limit : Nat) : List Relation :=
  let edges := (tables.relations.filter (ask.admits frontier expanded earlier)).filterMap
    (edgeOf ask tables frontier)
  let ranked := edges.insertionSort fun first second => first.before digests second
  let distinct := distinctBy (fun edge => edge.relation.assertion) ranked
  (distinct.take limit).map Edge.relation

structure Walk where
  frontier : List EntityId
  visited : List EntityId
  expanded : List EntityId := []
  steps : List (List Relation) := []

/-- A hop runs while fewer than `max_visited` entities are visited. -/
def Walk.hop (maxVisited : Nat) (walk : Walk) : Walk :=
  let step :=
    if walk.visited.length < maxVisited then
      neighborhoodQuery digests ask tables walk.frontier walk.expanded walk.steps.flatten
        (maxVisited * 3)
    else []
  let ends := step.flatMap fun r => [r.subjectId, r.objectId]
  let frontier := ((ends.filter fun e => e ∉ walk.visited).eraseDups).take
    (maxVisited - walk.visited.length)
  { frontier
    visited := walk.visited ++ frontier
    expanded := walk.visited
    steps := walk.steps ++ [step] }

def Walk.hops (maxVisited : Nat) : Nat → Walk → Walk
  | 0, walk => walk
  | hops + 1, walk => Walk.hops maxVisited hops (walk.hop digests ask tables maxVisited)

/-- `traversal_query`: the assertions of every hop whose two ends were visited. -/
def traversalQuery (seeds : List EntityId) (maxVisited hops : Nat) :
    List Relation × List EntityId :=
  let walk := Walk.hops digests ask tables maxVisited hops { frontier := seeds, visited := seeds }
  let known := fun e => tables.entities.any fun row => row.entityId = e
  (walk.steps.flatten.filter fun r =>
    known r.subjectId && known r.objectId && walk.visited.contains r.subjectId &&
      walk.visited.contains r.objectId, walk.visited)

structure GraphNeighborhood where
  entities : List EntityId
  relations : List Relation
  visited : Nat

def neighborhood (entityIds : List EntityId) (hops maxVisited : Nat) : GraphNeighborhood :=
  let seeds := entityIds.eraseDups.take maxVisited
  if seeds.isEmpty || ask.scopeKeys.isEmpty then { entities := [], relations := [], visited := 0 }
  else
    let (found, visited) :=
      if 0 < hops then traversalQuery digests ask tables seeds maxVisited hops else ([], seeds)
    let ends := (found.flatMap fun r => [r.subjectId, r.objectId]).eraseDups
    -- a start entity that no relation came with is read by itself
    let unread := seeds.filter fun seed => seed ∉ ends ∧ tables.entities.any fun e =>
      e.entityId = seed ∧ e.entityId.tenantId = ask.tenantId ∧
        visible ask.scopeKeys e.visibilityKeys
    { entities := seeds.filter (fun seed => seed ∈ ends ∨ seed ∈ unread) ++
        ends.filter (fun e => e ∉ seeds)
      relations := found
      visited := if found.isEmpty then seeds.length else visited.length }

/-- Newest first. -/
def newer (first second : Relation) : Bool :=
  if first.observedAt ≠ second.observedAt then second.observedAt < first.observedAt
  else digests first.relationId ≤ digests second.relationId

def entityRelations (entityId : EntityId) (current : Bool) (limit : Nat) : List Relation :=
  if ask.scopeKeys.isEmpty then []
  else
    let branch := fun isEnd : Relation → Bool =>
      ((tables.relations.filter fun r =>
        r.tenantId = ask.tenantId && isEnd r && (current == decide (r.status = .current)) &&
          r.predicate ≠ "invalidated_by" && visible ask.scopeKeys r.visibilityKeys).insertionSort
            fun first second => newer digests first second).take limit
    let ids := (branch (fun r => r.subjectId = entityId) ++
      branch (fun r => r.objectId = entityId)).map Relation.relationId
    ((tables.relations.filter fun r => r.relationId ∈ ids).insertionSort
      fun first second => newer digests first second).take limit

structure EntityProfile where
  current : List Relation
  relations : List Relation
  history : List Relation
  neighborhood : Option GraphNeighborhood

/-- `profile`, of an entity that the caller sees; the traversal when a depth is asked for. -/
def profile (entityId : EntityId) (depth profileRelationsMax profileHistoryMax maxVisited :
    Nat) : EntityProfile :=
  let relations := entityRelations digests ask tables entityId true profileRelationsMax
  let own := relations.filter fun r => r.subjectId = entityId ∧ r.layer ≠ .structural
  { -- the first relation of a predicate is its newest
    current := distinctBy Relation.predicate own
    relations
    history := entityRelations digests ask tables entityId false profileHistoryMax
    neighborhood :=
      if depth = 0 then none
      else some (neighborhood digests ask tables [entityId] depth maxVisited) }

def seedsOf (matched : List EntityId) : List EntityId :=
  (matched.insertionSort fun first second =>
    if first.canonicalName.length ≠ second.canonicalName.length then
      second.canonicalName.length < first.canonicalName.length
    else first.canonicalName ≤ second.canonicalName).take 8

structure StageSettings where
  maxFacts : Nat := 12
  maxVisited : Nat := 40

def factBefore (boost : String → Nat) (seeds : List EntityId) (first second : Relation) : Bool :=
  let key := fun r : Relation =>
    (r.layer = .structural || r.layer = .procedural, boost r.predicate,
      r.subjectId ∈ seeds || r.objectId ∈ seeds)
  if (key first).1 ≠ (key second).1 then (key second).1
  else if (key first).2.1 ≠ (key second).2.1 then (key second).2.1 < (key first).2.1
  else if (key first).2.2 ≠ (key second).2.2 then (key first).2.2
  else if first.confidence ≠ second.confidence then second.confidence < first.confidence
  else digests first.relationId ≤ digests second.relationId

/-- `_distinct`. -/
def distinctFacts (relations : List Relation) : List Relation :=
  distinctBy (fun r => (r.subjectId, r.predicate, r.objectId, r.attributes.lookup "period"))
    relations

/-- The facts that `GraphStage` adds: the best of a traversal, but those it has already and
those read from a memory that is an earlier value among the candidates. -/
def stageFacts (settings : StageSettings) (boost : String → Nat) (hops : Nat)
    (matched : List EntityId) (existing : List RelationId) (replaced : List String) :
    List Relation :=
  let answer := neighborhood digests ask tables (seedsOf matched) hops settings.maxVisited
  let ranked := distinctFacts (answer.relations.insertionSort fun first second =>
    factBefore digests boost (seedsOf matched) first second)
  ((ranked.take settings.maxFacts).filter fun r => r.relationId ∉ existing).filter fun r =>
    !(r.memoryId.any fun memoryId => replaced.contains memoryId)

end

variable {limit maxVisited hops : Nat}

section

variable {digests : Digests} {ask : Ask} {tables : Tables} {r : Relation}

theorem mem_distinctBy {α κ : Type} [DecidableEq κ] {key : α → κ} {list : List α} {a : α}
    (member : a ∈ distinctBy key list) : a ∈ list := by
  induction list with
  | nil => cases member
  | cons first rest ih =>
    rcases mem_cons.mp member with isFirst | isLater
    · rw [isFirst]
      exact mem_cons_self
    · exact mem_cons_of_mem _ (ih (mem_filter.mp isLater).1)

/-- A row that the read's times admit. -/
def Ask.Passes (ask : Ask) (tables : Tables) (r : Relation) : Prop :=
  r ∈ tables.relations ∧ passesTime r ask.asOf ask.validAt = true

theorem mem_neighborhoodQuery {frontier expanded : List EntityId} {earlier : List Relation}
    (member : r ∈ neighborhoodQuery digests ask tables frontier expanded earlier limit) :
    ask.Passes tables r := by
  obtain ⟨edge, isTaken, rfl⟩ := mem_map.mp member
  have isRanked := mem_distinctBy (mem_of_mem_take isTaken)
  rw [mem_insertionSort] at isRanked
  obtain ⟨row, isAdmitted, becomes⟩ := mem_filterMap.mp isRanked
  obtain ⟨e, -, isEdge⟩ := Option.map_eq_some_iff.mp becomes
  obtain ⟨inTables, admits⟩ := mem_filter.mp isAdmitted
  rw [← isEdge]
  refine ⟨inTables, ?_⟩
  rw [← timeConditions_all]
  simp only [Ask.admits, Bool.and_eq_true] at admits
  exact admits.1.1.1.2

theorem hop_passes {walk : Walk} (before : ∀ r ∈ walk.steps.flatten, ask.Passes tables r) :
    ∀ r ∈ (walk.hop digests ask tables maxVisited).steps.flatten, ask.Passes tables r := by
  intro r member
  simp only [Walk.hop, flatten_append, flatten_singleton] at member
  rcases mem_append.mp member with isEarlier | isStep
  · exact before r isEarlier
  · split at isStep
    case isTrue => exact mem_neighborhoodQuery isStep
    case isFalse => cases isStep

theorem hops_pass (hops : Nat) :
    ∀ {walk : Walk}, (∀ r ∈ walk.steps.flatten, ask.Passes tables r) →
      ∀ r ∈ (Walk.hops digests ask tables maxVisited hops walk).steps.flatten,
        ask.Passes tables r := by
  induction hops with
  | zero => exact fun before => before
  | succ hops ih => exact fun before => ih (hop_passes before)

theorem neighborhood_passes {entityIds : List EntityId} :
    ∀ r ∈ (neighborhood digests ask tables entityIds hops maxVisited).relations,
      ask.Passes tables r := by
  intro r member
  simp only [neighborhood] at member
  split at member
  case isTrue => cases member
  case isFalse =>
    simp only at member
    split at member
    case isTrue =>
      exact hops_pass hops (by simp) r (mem_filter.mp member).1
    case isFalse => cases member

theorem stageFacts_pass {settings : StageSettings} {boost : String → Nat}
    {matched : List EntityId} {existing : List RelationId} {replaced : List String} :
    ∀ r ∈ stageFacts digests ask tables settings boost hops matched existing replaced,
      ask.Passes tables r := by
  intro r member
  have isTaken := (mem_filter.mp (mem_filter.mp member).1).1
  have isRanked := mem_distinctBy (mem_of_mem_take isTaken)
  rw [mem_insertionSort] at isRanked
  exact neighborhood_passes r isRanked

theorem mem_entityRelations {entityId : EntityId} {current : Bool}
    (member : r ∈ entityRelations digests ask tables entityId current limit) :
    r ∈ tables.relations ∧ ∃ selected ∈ tables.relations,
      selected.relationId = r.relationId ∧ decide (selected.status = .current) = current := by
  rw [entityRelations] at member
  split at member
  case isTrue => cases member
  case isFalse =>
    have isTaken := mem_of_mem_take member
    rw [mem_insertionSort] at isTaken
    obtain ⟨inTables, isNamed⟩ := mem_filter.mp isTaken
    simp only [decide_eq_true_eq] at isNamed
    obtain ⟨selected, inBranch, sameId⟩ := mem_map.mp isNamed
    refine ⟨inTables, ?_⟩
    have ofBranch : ∀ isEnd : Relation → Bool, selected ∈ ((tables.relations.filter fun r =>
          r.tenantId = ask.tenantId && isEnd r && (current == decide (r.status = .current)) &&
            r.predicate ≠ "invalidated_by" && visible ask.scopeKeys r.visibilityKeys).insertionSort
            fun first second => newer digests first second).take limit →
          selected ∈ tables.relations ∧ decide (selected.status = .current) = current := by
      intro isEnd inBranch
      have isSelected := mem_of_mem_take inBranch
      rw [mem_insertionSort, mem_filter] at isSelected
      simp only [Bool.and_eq_true, beq_iff_eq] at isSelected
      exact ⟨isSelected.1, isSelected.2.1.1.2.symm⟩
    rcases mem_append.mp inBranch with isSubject | isObject
    · obtain ⟨inRows, kind⟩ := ofBranch _ isSubject
      exact ⟨selected, inRows, sameId, kind⟩
    · obtain ⟨inRows, kind⟩ := ofBranch _ isObject
      exact ⟨selected, inRows, sameId, kind⟩

theorem hops_grow (hops more : ℕ) (walk : Walk) :
    (walk.hops digests ask tables maxVisited hops).steps <+:
        (walk.hops digests ask tables maxVisited (hops + more)).steps ∧
      (walk.hops digests ask tables maxVisited hops).visited <+:
        (walk.hops digests ask tables maxVisited (hops + more)).visited := by
  induction hops generalizing walk with
  | zero =>
    induction more generalizing walk with
    | zero => exact ⟨prefix_rfl, prefix_rfl⟩
    | succ more ih =>
      have later := ih (walk.hop digests ask tables maxVisited)
      exact ⟨(prefix_append _ _).trans later.1, (prefix_append _ _).trans later.2⟩
  | succ hops ih =>
    rw [Nat.add_right_comm]
    exact ih _

theorem hops_capped (hops : ℕ) {walk : Walk} (capped : walk.visited.length ≤ maxVisited) :
    (walk.hops digests ask tables maxVisited hops).visited.length ≤ maxVisited := by
  induction hops generalizing walk with
  | zero => exact capped
  | succ hops ih =>
    refine ih ?_
    simp only [Walk.hop, length_append, length_take]
    omega

theorem traversalQuery_grows (seeds : List EntityId) (hops more : ℕ) :
    (traversalQuery digests ask tables seeds maxVisited hops).1 ⊆
      (traversalQuery digests ask tables seeds maxVisited (hops + more)).1 := by
  intro r member
  obtain ⟨isStep, isSeen⟩ := mem_filter.mp member
  obtain ⟨step, isOwn, inStep⟩ := mem_flatten.mp isStep
  obtain ⟨steps, visited⟩ := @hops_grow maxVisited digests ask tables hops more
    { frontier := seeds, visited := seeds }
  simp only [Bool.and_eq_true, contains_iff_mem] at isSeen
  refine mem_filter.mpr ⟨mem_flatten.mpr ⟨step, steps.subset isOwn, inStep⟩, ?_⟩
  simp only [Bool.and_eq_true, contains_iff_mem]
  exact ⟨⟨isSeen.1.1, visited.subset isSeen.1.2⟩, visited.subset isSeen.2⟩

/-- A neighborhood never counts more entities than `max_visited`, and one of more hops loses no
relation of one of fewer. -/
theorem neighborhood_widens (entityIds : List EntityId) (hops more : ℕ) :
    (neighborhood digests ask tables entityIds hops maxVisited).relations ⊆
        (neighborhood digests ask tables entityIds (hops + more) maxVisited).relations ∧
      (neighborhood digests ask tables entityIds hops maxVisited).visited ≤ maxVisited := by
  have few : (entityIds.eraseDups.take maxVisited).length ≤ maxVisited := length_take_le _ _
  rw [neighborhood, neighborhood]
  split
  · exact ⟨Subset.refl _, Nat.zero_le _⟩
  · cases hops with
    | zero => exact ⟨nil_subset _, few⟩
    | succ hops =>
      rw [if_pos (Nat.succ_pos hops), if_pos (by omega)]
      refine ⟨traversalQuery_grows _ (hops + 1) more, ?_⟩
      dsimp only
      split
      · exact few
      · exact hops_capped (hops + 1) few

end

end MemoryService.Graph
