import MemoryService.Graph.Relations
import MemoryService.Memory.Consolidation

/-!
# Graph enrichment of memories

An enrichment reads the memories of its job, closes the relations of those that are gone or not
CURRENT, and writes what it reads out of the others.
-/

namespace MemoryService.Graph

open Domain Foundation Memory List

structure Rules where
  strip : String → String
  canonicalEntity : String → String
  usableEntity : String → Bool
  layerFor : String → Layer

structure Named where
  subject : String
  predicate : String
  object : String
  confidence : Rat

/-- What an enrichment finds in a memory beside the columns kept here. -/
structure Reading where
  visibilityKeys : List String
  /-- the names that were declared, then those found in the content -/
  names : List String
  opened : List Named
  restated : List Named
  memoryRelations : List EntityId → List (EntityId × String × EntityId × Rat)

structure Found where
  entities : List EntityId := []
  relations : List Relation := []

def Found.ent (found : Found) (e : EntityId) : Found :=
  if e ∈ found.entities then found else { found with entities := found.entities ++ [e] }

/-- `name.split(":", 1)[-1]`. -/
def afterColon (name : String) : String :=
  match name.toList.dropWhile (· ≠ ':') with
  | [] => name
  | _ :: bare => .ofList bare

def mentionConfidence : Rat := 5404319552844595 / 9007199254740992

section

variable (rules : Rules) (m : CanonicalMemory) (reading : Reading)

def entity (name : String) : EntityId where
  tenantId := m.tenantId
  scopeKey := m.scopeKey
  canonicalName := rules.canonicalEntity name

def subject : Option EntityId := (m.subject.filter (· ≠ "")).map (entity rules m)

def speaker : String :=
  (m.subject.filter (· ≠ "")).elim "" fun name => rules.canonicalEntity (afterColon name)

def person (name : String) : EntityId :=
  match subject rules m with
  | some subject =>
    if rules.canonicalEntity name = speaker rules m then subject else entity rules m name
  | none => entity rules m name

def relationOf (subject : EntityId) (predicate : String) (object : EntityId)
    (confidence : Rat) (attributes : List (String × Option String)) : Relation where
  relationId := ⟨m.tenantId, subject, predicate, object, .memory m.memoryId⟩
  layer := rules.layerFor predicate
  scopeKey := m.scopeKey
  visibilityKeys := reading.visibilityKeys
  observedAt := m.temporal.observedAt
  status := if m.temporal.status = .current then .current else .superseded
  confidence
  attributes := ("memory_type", some m.memoryType.value) :: attributes

/-- One that has the memory's span too. -/
def dated (r : Relation) : Relation :=
  { r with validFrom := m.temporal.validFrom, validTo := m.temporal.validTo }

/-- The triple of a structured memory; a long object makes none. -/
def stated : List Relation :=
  match subject rules m, m.predicate with
  | some subject, some predicate =>
    let object := rules.strip (m.object.getD "")
    if predicate ≠ "" ∧ object ≠ "" ∧ object.length ≤ 80 then
      [dated m (relationOf rules m reading subject predicate (entity rules m object)
        m.confidence [("category", m.systemMetadata.category)])]
    else []
  | _, _ => []

def mention (found : Found) (name : String) : Found :=
  if rules.usableEntity name = false then found
  else
    let e := entity rules m name
    let found := found.ent e
    match subject rules m with
    | none => found
    | some subject =>
      if e = subject ∨ found.relations.any (fun r => r.objectId = e) then found
      else
        { found with
          relations := found.relations ++
            [relationOf rules m reading subject "mentions" e
              (min m.confidence mentionConfidence) []] }

/-- `_model_relation`. -/
def modelRelation (subject : EntityId) (predicate : String) (object : EntityId)
    (confidence : Rat) : Relation :=
  dated m (relationOf rules m reading subject predicate object (min confidence m.confidence)
    [("extraction", some "llm")])

def learn (found : Found) (r : Relation) : Found :=
  if found.relations.any (fun known => known.relationId = r.relationId) then found
  else { found with relations := found.relations ++ [r] }

/-- The names of the text, those that the model's relations join among them. -/
def mentionedNames : List String :=
  (reading.names ++ reading.opened.flatMap (fun n => [n.subject, n.object]) ++
    (reading.restated.flatMap fun n => [n.subject, n.object]).filter fun name =>
      rules.canonicalEntity name ≠ speaker rules m).eraseDups

def found : Found :=
  let stated := stated rules m reading
  let start : Found :=
    { entities := (subject rules m).toList ++ stated.map Relation.objectId
      relations := stated }
  (mentionedNames rules m reading).foldl (mention rules m reading)
    { start with entities := start.entities.eraseDups }

def namedRelations : List Relation :=
  ((reading.opened ++ reading.restated).filter fun n =>
    rules.usableEntity n.subject && rules.usableEntity n.object).map fun n =>
      modelRelation rules m reading (person rules m n.subject) n.predicate
        (entity rules m n.object) n.confidence

/-- `enrich_memory`; the model is asked for relations where the text gives none. -/
def enrichMemory : Found :=
  let found := found rules m reading
  if reading.opened ≠ [] ∨ reading.restated ≠ [] then
    let extracted := namedRelations rules m reading
    let found := extracted.foldl (fun found r => (found.ent r.subjectId).ent r.objectId) found
    extracted.foldl learn found
  else if 2 ≤ found.entities.length ∧
      found.relations.all (fun r => r.predicate = "mentions") then
    ((reading.memoryRelations found.entities).map fun (subject, predicate, object, confidence) =>
      modelRelation rules m reading subject predicate object confidence).foldl learn found
  else found

end

structure ReadFrom (m : CanonicalMemory) (r : Relation) : Prop where
  tenant : r.tenantId = m.tenantId
  source : r.memoryId = some m.memoryId
  status : r.status = if m.temporal.status = .current then .current else .superseded
  observed : r.observedAt = m.temporal.observedAt
  times : r.span = m.temporal.span ∨ r.predicate = "mentions" ∧ r.span = ⟨none, none⟩
  asserted : r.invalidatedAt = none

def Found.ReadFrom (m : CanonicalMemory) (found : Found) : Prop :=
  ∀ r ∈ found.relations, Graph.ReadFrom m r

section

variable {rules : Rules} {m : CanonicalMemory} {reading : Reading} {found : Found} {r : Relation}

theorem readFrom_mentions (subject object : EntityId) (confidence : Rat) :
    ReadFrom m (relationOf rules m reading subject "mentions" object confidence []) where
  tenant := rfl
  source := rfl
  status := rfl
  observed := rfl
  times := .inr ⟨rfl, rfl⟩
  asserted := rfl

theorem readFrom_dated (subject object : EntityId) (predicate : String)
    (confidence : Rat) (attributes : List (String × Option String)) :
    ReadFrom m
      (dated m (relationOf rules m reading subject predicate object confidence attributes)) where
  tenant := rfl
  source := rfl
  status := rfl
  observed := rfl
  times := .inl rfl
  asserted := rfl

theorem readFrom_stated (member : r ∈ stated rules m reading) : ReadFrom m r := by
  simp only [stated] at member
  split at member
  case h_1 =>
    split at member
    case isTrue =>
      rw [mem_singleton.mp member]
      exact readFrom_dated _ _ _ _ _
    case isFalse => cases member
  case h_2 => cases member

theorem ent_relations (e : EntityId) : (found.ent e).relations = found.relations := by
  rw [Found.ent]
  split <;> rfl

theorem readFrom_mention (name : String) (before : found.ReadFrom m) :
    (mention rules m reading found name).ReadFrom m := by
  have afterEnt : (found.ent (entity rules m name)).ReadFrom m := by
    rw [Found.ReadFrom, ent_relations]
    exact before
  simp only [mention]
  split
  case isTrue => exact before
  case isFalse =>
    split
    case h_1 => exact afterEnt
    case h_2 =>
      split
      case isTrue => exact afterEnt
      case isFalse =>
        intro r member
        rcases mem_concat.mp member with isOld | rfl
        · exact afterEnt r isOld
        · exact readFrom_mentions _ _ _

theorem readFrom_found : (Graph.found rules m reading).ReadFrom m := by
  simp only [Graph.found]
  refine foldlRecOn (motive := Found.ReadFrom m) _ _ ?_ ?_
  · exact fun r member => readFrom_stated member
  · exact fun found before name _ => readFrom_mention name before

theorem readFrom_learn {extracted : List Relation}
    (before : found.ReadFrom m) (new : ∀ r ∈ extracted, ReadFrom m r) :
    (extracted.foldl learn found).ReadFrom m := by
  refine foldlRecOn (motive := Found.ReadFrom m) _ _ ?_ ?_
  · exact before
  · intro found before added isNew r member
    rw [learn] at member
    split at member
    case isTrue => exact before r member
    case isFalse =>
      rcases mem_append.mp member with isOld | isAdded
      · exact before r isOld
      · rw [mem_singleton.mp isAdded]
        exact new added isNew

theorem enrichMemory_readFrom : (enrichMemory rules m reading).ReadFrom m := by
  have modelled : ∀ subject predicate object confidence,
      ReadFrom m (modelRelation rules m reading subject predicate object confidence) :=
    fun _ _ _ _ => readFrom_dated _ _ _ _ _
  simp only [enrichMemory]
  split
  case isTrue =>
    apply readFrom_learn
    · refine foldlRecOn (motive := Found.ReadFrom m) _ _ ?_ ?_
      · exact readFrom_found
      · intro found before added _
        rw [Found.ReadFrom, ent_relations, ent_relations]
        exact before
    · intro r member
      obtain ⟨n, -, rfl⟩ := mem_map.mp member
      exact modelled _ _ _ _
  case isFalse =>
    split
    case isTrue =>
      apply readFrom_learn readFrom_found
      intro r member
      obtain ⟨n, -, rfl⟩ := mem_map.mp member
      exact modelled _ _ _ _
    case isFalse => exact readFrom_found

end

def getMany (now : Instant) (tenantId : String) (memoryIds : List String)
    (rows : List CanonicalMemory) : List CanonicalMemory :=
  memoryIds.filterMap fun memoryId => Statements.get now tenantId memoryId rows

/-- Not CURRENT, or a model's rewrite that nothing verified. -/
def closes (m : CanonicalMemory) : Bool :=
  m.temporal.status ≠ .current ∨
    Consolidation.unverifiedRepresentation m.systemMetadata.category m.systemMetadata.provider

def Tables.close (tenantId memoryId : String) (now : Instant) (tables : Tables) : Tables :=
  { tables with relations := supersedeForMemory tenantId memoryId now tables.relations }

def Tables.write (found : Found) (visibilityKeys : List String) (tables : Tables) : Tables where
  entities :=
    upsertEntities (found.entities.map fun e => { entityId := e, visibilityKeys })
      tables.entities
  relations := upsertRelations found.relations tables.relations

def Tables.enrich (rules : Rules) (now : Instant) (read : CanonicalMemory → Reading)
    (tables : Tables) (m : CanonicalMemory) : Tables :=
  if closes m then tables.close m.tenantId m.memoryId now
  else tables.write (enrichMemory rules m (read m)) (read m).visibilityKeys

def missing (memoryIds : List String) (memories : List CanonicalMemory) : List String :=
  memoryIds.filter fun memoryId => memoryId ∉ memories.map CanonicalMemory.memoryId

/-- `enrich_memories`. -/
def enrichMemories (rules : Rules) (read : CanonicalMemory → Reading) (now : Instant)
    (tenantId : String) (memoryIds : List String) (rows : List CanonicalMemory)
    (tables : Tables) : Tables :=
  let memories := getMany now tenantId memoryIds rows
  let tables := (missing memoryIds memories).foldl
    (fun tables memoryId => tables.close tenantId memoryId now) tables
  memories.foldl (Tables.enrich rules now read) tables

end MemoryService.Graph
