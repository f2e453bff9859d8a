import MemoryService.Domain.Memory
import MemoryService.Foundation.Span
import MemoryService.Foundation.Table
import Mathlib.Data.List.Sort

/-!
# The relations of the knowledge graph

A relation is a triple with two times: it is true over its span, and it was asserted from when it
was observed until it was invalidated. A row is written once for each triple and source.
-/

namespace MemoryService.Graph

open Domain Foundation Option

/-- `entity_id_for`; its digest is the three parts here. -/
structure EntityId where
  tenantId : String
  scopeKey : String
  canonicalName : String
  deriving DecidableEq

/-- What a relation was read from. -/
inductive Source where
  | memory (memoryId : String)
  | document (documentId part : String)
  | invocation (invocationId : String)
  deriving DecidableEq

/-- `relation_id_for`; its digest is the five parts here, and the columns that repeat them
are read off it. -/
structure RelationId where
  tenantId : String
  subjectId : EntityId
  predicate : String
  objectId : EntityId
  source : Source
  deriving DecidableEq

inductive Layer where
  | entity
  | temporal
  | causal
  | structural
  | procedural
  deriving DecidableEq

inductive RelationStatus where
  /-- holds now -/
  | current
  /-- stopped holding -/
  | superseded
  /-- was withdrawn -/
  | retracted
  /-- was never right -/
  | invalidated
  deriving DecidableEq

structure Relation where
  relationId : RelationId
  layer : Layer
  scopeKey : String
  visibilityKeys : List String
  validFrom : Option Instant := none
  validTo : Option Instant := none
  observedAt : Instant
  invalidatedAt : Option Instant := none
  status : RelationStatus := .current
  supersededBy : Option RelationId := none
  confidence : Rat := 1 / 2
  attributes : List (String × Option String) := []
  deriving DecidableEq

namespace Relation

variable (r : Relation)

def tenantId : String := r.relationId.tenantId

def subjectId : EntityId := r.relationId.subjectId

def predicate : String := r.relationId.predicate

def objectId : EntityId := r.relationId.objectId

def memoryId (r : Relation) : Option String :=
  match r.relationId.source with
  | .memory memoryId => some memoryId
  | _ => none

def documentId (r : Relation) : Option String :=
  match r.relationId.source with
  | .document documentId _ => some documentId
  | _ => none

end Relation

/-- The time it is true in, whatever became of it. -/
def Relation.span (r : Relation) : Span Instant where
  start := r.validFrom
  stop := r.validTo

structure Entity where
  entityId : EntityId
  visibilityKeys : List String
  mentionCount : Nat := 1

structure Tables where
  entities : List Entity := []
  relations : List Relation := []

/-- `passes_time`. -/
def passesTime (r : Relation) (asOf validAt : Option Instant) : Bool :=
  match asOf, validAt with
  | none, none => r.status = .current
  | _, _ =>
    (asOf.all fun asOf =>
      r.status ≠ .retracted && r.status ≠ .invalidated &&
        !(r.validFrom.any fun validFrom => asOf < validFrom) &&
        !(r.validTo.any fun validTo => validTo ≤ asOf)) &&
    validAt.all fun validAt =>
      r.observedAt ≤ validAt && !(r.invalidatedAt.any fun invalidatedAt => invalidatedAt ≤ validAt)

/-- `_time_conditions`, the conditions of the statement. -/
def timeConditions (r : Relation) (asOf validAt : Option Instant) : List Bool :=
  match asOf, validAt with
  | none, none => [r.status = .current]
  | _, _ =>
    (asOf.elim [] fun asOf =>
      [r.validFrom.all (· ≤ asOf), r.validTo.all (asOf < ·),
        decide (r.status ∉ [.retracted, .invalidated])]) ++
    validAt.elim [] fun validAt =>
      [decide (r.observedAt ≤ validAt), r.invalidatedAt.all (validAt < ·)]

section

variable {r : Relation} {asOf validAt : Option Instant} {instant : Instant}

theorem not_any_lt (limit : Option Instant) :
    (!(limit.any fun stop => stop ≤ instant)) = limit.all (instant < ·) := by
  cases limit with
  | none => rfl
  | some stop =>
    by_cases early : stop ≤ instant
    · simp [early]
    · simp [early, lt_of_not_ge early]

theorem not_any_gt (limit : Option Instant) :
    (!(limit.any fun start => instant < start)) = limit.all (· ≤ instant) := by
  cases limit with
  | none => rfl
  | some start =>
    by_cases late : instant < start
    · simp [late]
    · simp [late, le_of_not_gt late]

theorem timeConditions_all :
    (timeConditions r asOf validAt).all id = passesTime r asOf validAt := by
  cases asOf with
  | none =>
    cases validAt with
    | none => simp [timeConditions, passesTime]
    | some validAt => simp [timeConditions, passesTime, not_any_lt]
  | some asOf =>
    cases validAt with
    | none =>
      simp [timeConditions, passesTime, not_any_lt, not_any_gt, Bool.and_comm,
        Bool.and_left_comm, Bool.and_assoc]
    | some validAt =>
      simp [timeConditions, passesTime, not_any_lt, not_any_gt, Bool.and_comm,
        Bool.and_left_comm, Bool.and_assoc]

theorem passes_now_iff : passesTime r none none = true ↔ r.status = .current := by
  simp [passesTime]

theorem passes_asOf_iff :
    passesTime r (some instant) none = true ↔
      (r.status ≠ .retracted ∧ r.status ≠ .invalidated) ∧ r.span.Holds instant := by
  simp only [passesTime, not_any_gt, not_any_lt, all_some, all_none,
    Bool.and_true, Bool.and_eq_true, Span.Holds, Relation.span, all_eq_true,
    decide_eq_true_eq, ne_eq, mem_def, and_assoc]

theorem passes_asOf_holds (passes : passesTime r (some instant) validAt = true) :
    r.span.Holds instant := by
  have alone : passesTime r (some instant) none = true := by
    simp only [passesTime, all_none, Bool.and_true]
    cases validAt with
    | none => simpa only [passesTime, all_none, Bool.and_true] using passes
    | some validAt =>
      simp only [passesTime, Bool.and_eq_true] at passes
      simpa only [Bool.and_eq_true] using passes.1
  exact (passes_asOf_iff.mp alone).2

theorem passes_validAt_before (passes : passesTime r asOf (some instant) = true) :
    ∀ invalidatedAt ∈ r.invalidatedAt, instant < invalidatedAt := by
  intro invalidatedAt isInvalidated
  cases asOf with
  | none =>
    simp only [passesTime, not_any_lt, Bool.and_eq_true, all_some] at passes
    simpa [mem_def.mp isInvalidated] using passes.2.2
  | some asOf =>
    simp only [passesTime, not_any_lt, Bool.and_eq_true, all_some] at passes
    simpa [mem_def.mp isInvalidated] using passes.2.2

end

def Relation.upserted (excluded r : Relation) : Relation :=
  { r with
    confidence := max r.confidence excluded.confidence
    status := excluded.status
    layer := excluded.layer
    validTo := excluded.validTo
    invalidatedAt := excluded.invalidatedAt
    supersededBy := excluded.supersededBy
    visibilityKeys := excluded.visibilityKeys }

/-- `INSERT … ON CONFLICT (relation_id) DO UPDATE`. -/
def upsertRelation (rows : List Relation) (excluded : Relation) : List Relation :=
  let selects := fun r : Relation => decide (r.relationId = excluded.relationId)
  if rows.any selects then updateWhere selects excluded.upserted rows
  else rows ++ [excluded]

def upsertRelations (relations rows : List Relation) : List Relation :=
  relations.foldl upsertRelation rows

def Relation.openFor (tenantId memoryId : String) (r : Relation) : Bool :=
  r.tenantId = tenantId ∧ r.memoryId = some memoryId ∧ r.status = .current

def Relation.closedAt (at_ : Instant) (r : Relation) : Relation :=
  { r with status := .superseded, validTo := some at_, invalidatedAt := some at_ }

def supersedeForMemory (tenantId memoryId : String) (at_ : Instant)
    (rows : List Relation) : List Relation :=
  updateWhere (Relation.openFor tenantId memoryId) (Relation.closedAt at_) rows

def mergedKeys (keys others : List String) : List String :=
  (keys ++ others).eraseDups.insertionSort (· ≤ ·)

/-- `upsert_entities`: the audience of an entity grows by that of the row that was there when
the batch began. -/
def upsertEntities (entities rows : List Entity) : List Entity :=
  entities.foldl
    (fun written e =>
      let prev := rows.find? fun r => r.entityId = e.entityId
      let keys := mergedKeys e.visibilityKeys (prev.elim [] Entity.visibilityKeys)
      let selects := fun r : Entity => decide (r.entityId = e.entityId)
      if written.any selects then
        updateWhere selects
          (fun r => { r with visibilityKeys := keys, mentionCount := r.mentionCount + 1 })
          written
      else written ++ [{ e with visibilityKeys := keys }])
    rows

end MemoryService.Graph
