import MemoryService.Foundation.Reach
import MemoryService.Graph.Reads

/-!
# The graph store in memory

The store in memory has a traversal of its own: a loop over all relations for every hop, with the
audience of entities looked at once it is over.
-/

namespace MemoryService.Graph

open Foundation List

def Ask.wants (ask : Ask) (r : Relation) : Bool :=
  r.tenantId = ask.tenantId && visible ask.scopeKeys r.visibilityKeys &&
    ask.layers.all (fun layers => layers.isEmpty || layers.contains r.layer) &&
    passesTime r ask.asOf ask.validAt

structure Trail where
  visited : List EntityId
  frontier : List EntityId
  found : List Relation := []

/-- An entity is visited once, while fewer than `max_visited` are. -/
def Trail.visit (maxVisited : Nat) (trail : Trail) (eid : EntityId) : Trail :=
  if eid ∉ trail.visited ∧ trail.visited.length < maxVisited then
    { trail with visited := trail.visited ++ [eid], frontier := trail.frontier ++ [eid] }
  else trail

/-- `found.setdefault` -/
def Trail.find (trail : Trail) (r : Relation) : Trail :=
  if trail.found.any fun other => other.relationId = r.relationId then trail
  else { trail with found := trail.found ++ [r] }

variable (ask : Ask) (tables : Tables)

def touches (frontier : List EntityId) (r : Relation) : Bool :=
  ask.wants r && (r.subjectId ∈ frontier || r.objectId ∈ frontier)

def Trail.follow (frontier : List EntityId) (maxVisited : Nat) (trail : Trail) (r : Relation) :
    Trail :=
  if touches ask frontier r then
    ((trail.find r).visit maxVisited r.subjectId).visit maxVisited r.objectId
  else trail

/-- One turn of the loop, which ends where the frontier is empty or the cap is met. -/
def Trail.hop (maxVisited : Nat) (trail : Trail) : Trail :=
  if trail.frontier = [] ∨ maxVisited ≤ trail.visited.length then trail
  else
    (tables.relations.insertionSort fun first second =>
      second.confidence ≤ first.confidence).foldl
        (Trail.follow ask trail.frontier maxVisited) { trail with frontier := [] }

def Trail.hops (maxVisited : Nat) : Nat → Trail → Trail
  | 0, trail => trail
  | hops + 1, trail => Trail.hops maxVisited hops (trail.hop ask tables maxVisited)

def sees (eid : EntityId) : Bool :=
  tables.entities.any fun e =>
    e.entityId = eid && eid.tenantId = ask.tenantId && visible ask.scopeKeys e.visibilityKeys

variable (entityIds : List EntityId)

/-- `MemoryGraphStore.neighborhood` -/
def memoryNeighborhood (hops maxVisited : Nat) :
    GraphNeighborhood :=
  let trail := Trail.hops ask tables maxVisited hops
    { visited := entityIds.eraseDups, frontier := entityIds }
  let entities := trail.visited.filter (sees ask tables)
  { entities
    relations := trail.found.filter fun r => r.subjectId ∈ entities && r.objectId ∈ entities
    visited := trail.visited.length }

def Relation.Ends (r : Relation) (x : EntityId) : Prop := r.subjectId = x ∨ r.objectId = x

/-- The two ends of a relation, whichever way it points. -/
def Relation.Joins (r : Relation) (x y : EntityId) : Prop :=
  r.subjectId = x ∧ r.objectId = y ∨ r.subjectId = y ∧ r.objectId = x

def Linked (x y : EntityId) : Prop := ∃ r ∈ tables.relations, ask.wants r = true ∧ r.Joins x y

def Mentioned (x : EntityId) : Prop := x ∈ entityIds ∨ ∃ r ∈ tables.relations, r.Ends x

/-- No cap is met: fewer than `max_visited` entities are named, whatever is visited. -/
def Room (maxVisited : Nat) : Prop :=
  ∀ list : List EntityId, list.Nodup → (∀ x ∈ list, Mentioned tables entityIds x) →
    list.length < maxVisited

/-- Relations are told apart by their ids. -/
def KeyedRelations : Prop :=
  ∀ r ∈ tables.relations, ∀ other ∈ tables.relations, r.relationId = other.relationId → r = other

variable {r : Relation} {x y : EntityId} {trail : Trail} {frontier : List EntityId} {k : Nat}

section Visits

variable {ask tables} {entityIds : List EntityId} {maxVisited : Nat}

theorem Relation.Ends.joins (isX : r.Ends x) (isY : r.Ends y) (apart : x ≠ y) : r.Joins x y := by
  rcases isX with isX | isX
  · exact .inl ⟨isX, isY.resolve_left fun same => apart (isX.symm.trans same)⟩
  · exact .inr ⟨isY.resolve_right fun same => apart (isX.symm.trans same), isX⟩

theorem Relation.Joins.ends (joins : r.Joins x y) : r.Ends x ∧ r.Ends y := by
  rcases joins with ⟨isX, isY⟩ | ⟨isY, isX⟩
  · exact ⟨.inl isX, .inr isY⟩
  · exact ⟨.inr isX, .inl isY⟩

structure Trail.Sound (tables : Tables) (entityIds : List EntityId) (trail : Trail) : Prop where
  distinct : trail.visited.Nodup
  named : ∀ x ∈ trail.visited, Mentioned tables entityIds x
  found : ∀ r ∈ trail.found, r ∈ tables.relations

theorem visit_spec (sound : trail.Sound tables entityIds)
    (room : Room tables entityIds maxVisited) {eid : EntityId}
    (isNamed : Mentioned tables entityIds eid) :
    (trail.visit maxVisited eid).Sound tables entityIds ∧
      (∀ x, x ∈ (trail.visit maxVisited eid).visited ↔ x ∈ trail.visited ∨ x = eid) ∧
      (∀ x, x ∈ (trail.visit maxVisited eid).frontier ↔
        x ∈ trail.frontier ∨ x ∉ trail.visited ∧ x = eid) ∧
      (trail.visit maxVisited eid).found = trail.found := by
  have small := room trail.visited sound.distinct sound.named
  rw [Trail.visit]
  by_cases isVisited : eid ∈ trail.visited
  · rw [if_neg (fun isNew => isNew.1 isVisited)]
    refine ⟨sound, fun x => ⟨.inl, ?_⟩, fun x => ⟨.inl, ?_⟩, rfl⟩
    · rintro (isOld | rfl)
      · exact isOld
      · exact isVisited
    · rintro (isOld | ⟨isNew, rfl⟩)
      · exact isOld
      · exact absurd isVisited isNew
  · rw [if_pos ⟨isVisited, small⟩]
    refine ⟨⟨?_, ?_, sound.found⟩, fun x => ?_, fun x => ?_, rfl⟩
    · exact nodup_append.mpr ⟨sound.distinct, nodup_singleton eid, fun a isOld b isNew =>
        fun same => isVisited (mem_singleton.mp isNew ▸ same ▸ isOld)⟩
    · intro x member
      rcases mem_append.mp member with isOld | isNew
      · exact sound.named x isOld
      · exact mem_singleton.mp isNew ▸ isNamed
    · rw [mem_append, mem_singleton]
    · rw [mem_append, mem_singleton]
      refine or_congr_right ⟨fun same => ⟨same ▸ isVisited, same⟩, And.right⟩

theorem find_spec (sound : trail.Sound tables entityIds)
    (keyed : KeyedRelations tables) (isRow : r ∈ tables.relations) :
    (trail.find r).Sound tables entityIds ∧
      (∀ other, other ∈ (trail.find r).found ↔ other ∈ trail.found ∨ other = r) ∧
      (trail.find r).visited = trail.visited ∧ (trail.find r).frontier = trail.frontier := by
  rw [Trail.find]
  split
  · next isFound =>
      obtain ⟨known, isKnown, sameId⟩ := any_eq_true.mp isFound
      have same : known = r := keyed known (sound.found known isKnown) r isRow
        (of_decide_eq_true sameId)
      refine ⟨sound, fun other => ⟨.inl, ?_⟩, rfl, rfl⟩
      rintro (isOld | rfl)
      · exact isOld
      · exact same ▸ isKnown
  · refine ⟨⟨sound.distinct, sound.named, ?_⟩, fun other => ?_, rfl, rfl⟩
    · intro other member
      rcases mem_append.mp member with isOld | isNew
      · exact sound.found other isOld
      · exact mem_singleton.mp isNew ▸ isRow
    · rw [mem_append, mem_singleton]

theorem isNew_iff {last visited isSubject isObject later : Prop} :
    (((last ∨ ¬visited ∧ isSubject) ∨ ¬(visited ∨ isSubject) ∧ isObject) ∨
        ¬((visited ∨ isSubject) ∨ isObject) ∧ later) ↔
      last ∨ ¬visited ∧ ((isSubject ∨ isObject) ∨ later) := by
  by_cases old : visited <;> by_cases first : isSubject <;> by_cases second : isObject <;>
    simp [old, first, second]

theorem follow_spec (room : Room tables entityIds maxVisited) (keyed : KeyedRelations tables) :
    ∀ {rows : List Relation} {trail : Trail}, (∀ r ∈ rows, r ∈ tables.relations) →
      trail.Sound tables entityIds →
      let after := rows.foldl (Trail.follow ask frontier maxVisited) trail
      after.Sound tables entityIds ∧
        (∀ x, x ∈ after.visited ↔
          x ∈ trail.visited ∨ ∃ r ∈ rows, touches ask frontier r = true ∧ r.Ends x) ∧
        (∀ x, x ∈ after.frontier ↔ x ∈ trail.frontier ∨
          x ∉ trail.visited ∧ ∃ r ∈ rows, touches ask frontier r = true ∧ r.Ends x) ∧
        ∀ r, r ∈ after.found ↔ r ∈ trail.found ∨ r ∈ rows ∧ touches ask frontier r = true := by
  intro rows
  induction rows with
  | nil =>
    intro trail _ sound
    refine ⟨sound, fun x => ?_, fun x => ?_, fun r => ?_⟩ <;> simp
  | cons r rest ih =>
    intro trail inTables sound
    have isRow := inTables r mem_cons_self
    have others : ∀ other ∈ rest, other ∈ tables.relations :=
      fun other member => inTables other (mem_cons_of_mem r member)
    rw [foldl_cons]
    cases isTouched : touches ask frontier r with
    | false =>
      have same : trail.follow ask frontier maxVisited r = trail := by
        rw [Trail.follow, isTouched, if_neg Bool.false_ne_true]
      rw [same]
      obtain ⟨soundAfter, visited, last, found⟩ := ih others sound
      refine ⟨soundAfter, fun x => ?_, fun x => ?_, fun other => ?_⟩
      · rw [visited x]
        simp [isTouched]
      · rw [last x]
        simp [isTouched]
      · rw [found other, mem_cons]
        refine or_congr_right ⟨fun isIn => ⟨.inr isIn.1, isIn.2⟩, ?_⟩
        rintro ⟨rfl | isIn, touched⟩
        · rw [isTouched] at touched
          cases touched
        · exact ⟨isIn, touched⟩
    | true =>
      have isFollow : trail.follow ask frontier maxVisited r =
          ((trail.find r).visit maxVisited r.subjectId).visit maxVisited r.objectId := by
        rw [Trail.follow, isTouched, if_pos rfl]
      obtain ⟨soundFound, foundFound, visitedFound, lastFound⟩ := find_spec sound keyed isRow
      obtain ⟨soundFirst, visitedFirst, lastFirst, foundFirst⟩ :=
        visit_spec soundFound room (.inr ⟨r, isRow, .inl rfl⟩)
      obtain ⟨soundSecond, visitedSecond, lastSecond, foundSecond⟩ :=
        visit_spec soundFirst room (.inr ⟨r, isRow, .inr rfl⟩)
      rw [isFollow]
      obtain ⟨soundAfter, visited, last, found⟩ := ih others soundSecond
      refine ⟨soundAfter, fun x => ?_, fun x => ?_, fun other => ?_⟩
      · rw [visited x, visitedSecond x, visitedFirst x, visitedFound]
        simp only [mem_cons, exists_eq_or_imp, isTouched, true_and, Relation.Ends,
          eq_comm (a := x), or_assoc]
      · rw [last x, lastSecond x, lastFirst x, visitedSecond x, visitedFirst x, visitedFound,
          lastFound, isNew_iff]
        simp only [mem_cons, exists_eq_or_imp, isTouched, true_and, Relation.Ends, eq_comm (a := x)]
      · rw [found other, foundSecond, foundFirst, foundFound other, mem_cons, or_assoc]
        refine or_congr_right ⟨?_, ?_⟩
        · rintro (rfl | ⟨isIn, touched⟩)
          · exact ⟨.inl rfl, isTouched⟩
          · exact ⟨.inr isIn, touched⟩
        · rintro ⟨rfl | isIn, touched⟩
          · exact .inl rfl
          · exact .inr ⟨isIn, touched⟩

def Followed (ask : Ask) (tables : Tables) (followed : EntityId → Prop) (r : Relation) : Prop :=
  r ∈ tables.relations ∧ ask.wants r = true ∧ ∃ x, r.Ends x ∧ followed x

theorem touches_iff :
    touches ask frontier r = true ↔ ask.wants r = true ∧ ∃ x, r.Ends x ∧ x ∈ frontier := by
  simp [touches, Relation.Ends, or_and_right, exists_or]

/-- A trail after so many hops. -/
structure Trail.Walked (ask : Ask) (tables : Tables) (entityIds : List EntityId) (k : Nat)
    (trail : Trail) : Prop where
  sound : trail.Sound tables entityIds
  searched : Searched (Linked ask tables) (· ∈ entityIds) k (· ∈ trail.visited)
    (· ∈ trail.frontier)
  found : ∀ r, r ∈ trail.found ↔
    Followed ask tables (fun x => x ∈ trail.visited ∧ x ∉ trail.frontier) r

theorem walked_start :
    Trail.Walked ask tables entityIds 0
      { visited := entityIds.eraseDups, frontier := entityIds } where
  sound := ⟨nodup_eraseDups entityIds, fun x member => .inl (mem_eraseDups.mp member), by simp⟩
  searched := searched_start.congr (fun _ => mem_eraseDups) (fun _ => Iff.rfl)
  found r := by
    refine iff_of_false (not_mem_nil) ?_
    rintro ⟨-, -, x, -, isVisited, isOld⟩
    exact isOld (mem_eraseDups.mp isVisited)

theorem isNext_iff {visited : List EntityId} (sub : ∀ x ∈ frontier, x ∈ visited) :
    (y ∉ visited ∧ ∃ r ∈ tables.relations, touches ask frontier r = true ∧ r.Ends y) ↔
      y ∉ visited ∧ ∃ x, x ∈ frontier ∧ Linked ask tables x y := by
  refine and_congr_right fun isNew => ⟨?_, ?_⟩
  · rintro ⟨r, isRow, touched, isEnd⟩
    obtain ⟨wanted, x, isOther, isLast⟩ := touches_iff.mp touched
    have differs : x ≠ y := fun same => isNew (same ▸ sub x isLast)
    refine ⟨x, isLast, r, isRow, wanted, ?_⟩
    rcases isOther with isX | isX
    · rcases isEnd with isY | isY
      · exact absurd (isX.symm.trans isY) differs
      · exact .inl ⟨isX, isY⟩
    · rcases isEnd with isY | isY
      · exact .inr ⟨isY, isX⟩
      · exact absurd (isX.symm.trans isY) differs
  · rintro ⟨x, isLast, r, isRow, wanted, joins⟩
    exact ⟨r, isRow, touches_iff.mpr ⟨wanted, x, joins.ends.1, isLast⟩, joins.ends.2⟩

theorem hop_walked (room : Room tables entityIds maxVisited) (keyed : KeyedRelations tables)
    (walked : trail.Walked ask tables entityIds k) :
    (trail.hop ask tables maxVisited).Walked ask tables entityIds (k + 1) := by
  have small := room trail.visited walked.sound.distinct walked.sound.named
  have sub : ∀ x ∈ trail.frontier, x ∈ trail.visited :=
    fun x isLast => walked.searched.visited_of_last isLast
  rw [Trail.hop]
  by_cases isEnded : trail.frontier = []
  · rw [if_pos (.inl isEnded)]
    have nothing : ∀ y, False ↔ ¬y ∈ trail.visited ∧
        ∃ x, x ∈ trail.frontier ∧ Linked ask tables x y := fun y => by simp [isEnded]
    exact ⟨walked.sound, (walked.searched.step nothing).congr (fun x => (or_false _).symm.to_iff)
      (fun x => by simp [isEnded]), walked.found⟩
  · rw [if_neg (by simp [isEnded, small])]
    have soundStart : Trail.Sound tables entityIds { trail with frontier := [] } :=
      ⟨walked.sound.distinct, walked.sound.named, walked.sound.found⟩
    have isRow : ∀ r, r ∈ tables.relations.insertionSort (fun first second =>
        second.confidence ≤ first.confidence) ↔ r ∈ tables.relations :=
      fun r => mem_insertionSort _
    generalize tables.relations.insertionSort (fun first second =>
      second.confidence ≤ first.confidence) = rows at isRow ⊢
    obtain ⟨sound, visited, last, found⟩ :=
      follow_spec room keyed (fun r member => (isRow r).mp member) soundStart
    have isNext : ∀ y, y ∈ (rows.foldl (Trail.follow ask trail.frontier maxVisited)
        { trail with frontier := [] }).frontier ↔
          y ∉ trail.visited ∧ ∃ x, x ∈ trail.frontier ∧ Linked ask tables x y := by
      intro y
      rw [last y, ← isNext_iff sub]
      simp only [isRow, not_mem_nil, false_or]
    have isVisited : ∀ x, x ∈ (rows.foldl (Trail.follow ask trail.frontier maxVisited)
        { trail with frontier := [] }).visited ↔ x ∈ trail.visited ∨
          x ∈ (rows.foldl (Trail.follow ask trail.frontier maxVisited)
            { trail with frontier := [] }).frontier := by
      intro x
      rw [visited x, last x]
      by_cases old : x ∈ trail.visited <;> simp [old]
    refine ⟨sound, (walked.searched.step isNext).congr isVisited (fun _ => Iff.rfl), fun r => ?_⟩
    rw [found r, walked.found r, isRow, touches_iff]
    constructor
    · rintro (⟨inTables, wanted, x, isEnd, old, -⟩ | ⟨inTables, wanted, x, isEnd, isLast⟩)
      · exact ⟨inTables, wanted, x, isEnd, (isVisited x).mpr (.inl old),
          fun isNew => ((isNext x).mp isNew).1 old⟩
      · exact ⟨inTables, wanted, x, isEnd, (isVisited x).mpr (.inl (sub x isLast)),
          fun isNew => ((isNext x).mp isNew).1 (sub x isLast)⟩
    · rintro ⟨inTables, wanted, x, isEnd, isThere, notNew⟩
      have old : x ∈ trail.visited := ((isVisited x).mp isThere).resolve_right notNew
      by_cases isLast : x ∈ trail.frontier
      · exact .inr ⟨inTables, wanted, x, isEnd, isLast⟩
      · exact .inl ⟨inTables, wanted, x, isEnd, old, isLast⟩

theorem hops_walked (room : Room tables entityIds maxVisited) (keyed : KeyedRelations tables)
    (hops : Nat) (walked : trail.Walked ask tables entityIds k) :
    (Trail.hops ask tables maxVisited hops trail).Walked ask tables entityIds (k + hops) := by
  induction hops generalizing k trail with
  | zero => exact walked
  | succ hops ih =>
    have later := ih (hop_walked room keyed walked)
    rw [Nat.add_right_comm] at later
    exact later

def Near (ask : Ask) (tables : Tables) (entityIds : List EntityId) (hops : Nat)
    (r : Relation) : Prop :=
  Followed ask tables (fun x => ∃ k < hops, Within (Linked ask tables) (· ∈ entityIds) k x) r

theorem Near.ends {hops : Nat} (near : Near ask tables entityIds hops r)
    (isEnd : r.Ends x) : Within (Linked ask tables) (· ∈ entityIds) hops x := by
  obtain ⟨inTables, wanted, y, isOther, k, early, isReached⟩ := near
  by_cases same : y = x
  · exact same ▸ isReached.mono (Nat.le_of_lt early)
  · have joins := isOther.joins isEnd same
    exact Within.mono early (.inr ⟨y, isReached, r, inTables, wanted, joins⟩)

variable (ask) in
theorem memoryNeighborhood_spec (room : Room tables entityIds maxVisited)
    (keyed : KeyedRelations tables) (hops : Nat) :
    (∀ x, x ∈ (memoryNeighborhood ask tables entityIds hops maxVisited).entities ↔
      sees ask tables x = true ∧ Within (Linked ask tables) (· ∈ entityIds) hops x) ∧
    ∀ r, r ∈ (memoryNeighborhood ask tables entityIds hops maxVisited).relations ↔
      Near ask tables entityIds hops r ∧ ∀ x, r.Ends x → sees ask tables x = true := by
  have start : Trail.Walked ask tables entityIds 0
      { visited := entityIds.eraseDups, frontier := entityIds } := walked_start
  have walked := hops_walked room keyed hops start
  rw [Nat.zero_add] at walked
  simp only [memoryNeighborhood]
  generalize Trail.hops ask tables maxVisited hops
    { visited := entityIds.eraseDups, frontier := entityIds } = trail at walked
  have isEntity : ∀ x, x ∈ trail.visited.filter (sees ask tables) ↔
      sees ask tables x = true ∧ Within (Linked ask tables) (· ∈ entityIds) hops x := by
    intro x
    rw [mem_filter, walked.searched.reached x, and_comm]
  refine ⟨isEntity, fun r => ?_⟩
  have isNear : r ∈ trail.found ↔ Near ask tables entityIds hops r := by
    rw [walked.found r, Near, Followed, Followed]
    refine and_congr_right fun _ => and_congr_right fun _ => exists_congr fun x =>
      and_congr_right fun _ => ?_
    rw [walked.searched.reached x, walked.searched.last x]
    constructor
    · rintro ⟨isReached, notLast⟩
      obtain ⟨j, notAfter, isLevel⟩ := isReached.exists_level
      have differs : j ≠ hops := fun same => notLast (same ▸ isLevel)
      exact ⟨j, by omega, isLevel.1⟩
    · rintro ⟨k, early, isReached⟩
      exact ⟨isReached.mono (Nat.le_of_lt early), fun isLast => isLast.2 k early isReached⟩
  rw [mem_filter, isNear, Bool.and_eq_true, decide_eq_true_eq, decide_eq_true_eq, isEntity,
    isEntity]
  constructor
  · rintro ⟨near, isSubject, isObject⟩
    refine ⟨near, fun x isEnd => ?_⟩
    rcases isEnd with rfl | rfl
    · exact isSubject.1
    · exact isObject.1
  · rintro ⟨near, seen⟩
    exact ⟨near, ⟨seen _ (.inl rfl), near.ends (.inl rfl)⟩, seen _ (.inr rfl), near.ends (.inr rfl)⟩

end Visits

end MemoryService.Graph
