import MemoryService.Graph.Traversal

/-!
# Two stores, one answer

The store in memory looks at the audience of an entity once it is done, the statement before it
follows a relation.
-/

namespace MemoryService.Graph

open Foundation List

variable (ask : Ask) (tables : Tables) (entityIds : List EntityId) (hops maxVisited : Nat)

/-- What holds of the rows of a graph. -/
structure WellFormed : Prop where
  keyed : KeyedRelations tables
  oneEach : OneEach tables
  ends : ∀ r ∈ tables.relations, Known tables r.subjectId ↔ Known tables r.objectId
  own : ∀ r ∈ tables.relations, ∀ x, r.Ends x → Known tables x → x.tenantId = r.tenantId

/-- Fewer entities than may be visited, and no more relations than a hop may return. -/
def WithinCaps : Prop :=
  (entityIds ++ tables.relations.flatMap fun r => [r.subjectId, r.objectId]).eraseDups.length <
      maxVisited ∧
    tables.relations.length ≤ maxVisited * 3

theorem room_of_caps {tables : Tables} {entityIds : List EntityId} {maxVisited : Nat}
    (caps : WithinCaps tables entityIds maxVisited) : Room tables entityIds maxVisited := by
  intro list distinct named
  refine Nat.lt_of_le_of_lt (List.Subperm.length_le (subperm_of_subset distinct ?_)) caps.1
  intro x member
  rw [mem_eraseDups, mem_append, mem_flatMap]
  refine (named x member).imp_right fun ⟨r, isRow, isEnd⟩ => ⟨r, isRow, ?_⟩
  simpa [Relation.Ends, eq_comm] using isEnd

def SeenLink (x y : EntityId) : Prop :=
  ∃ r ∈ tables.relations, ask.wants r = true ∧ r.Joins x y ∧ sees ask tables y = true

/-- Reached in at most so many relations from a seed, through entities that the caller sees. -/
def SeenWithin (k : Nat) (x : EntityId) : Prop :=
  Within (SeenLink ask tables) (fun seed => seed ∈ entityIds ∧ sees ask tables seed = true) k x

/-- What is expected of the two stores. -/
def StoresAgree (digests : Digests) : Prop :=
  let hood := neighborhood digests ask tables entityIds hops maxVisited
  let memory := memoryNeighborhood ask tables entityIds hops maxVisited
  ((∀ x, x ∈ hood.entities ↔ x ∈ memory.entities) ∧
    ∀ r, r ∈ hood.relations ↔ r ∈ memory.relations) ∧
    (∀ x ∈ hood.entities, ∃ k, SeenWithin ask tables entityIds k x) ∧
    ∀ x ∈ memory.entities, ∃ k, SeenWithin ask tables entityIds k x

/-- No entity that the caller does not see makes a difference. -/
structure NoDetour : Prop where
  seeds : ∀ u ∈ entityIds, Known tables u → sees ask tables u = false →
    ∀ r ∈ tables.relations, ask.wants r = true → ∀ v, r.Joins u v → sees ask tables v = true →
      v ∈ entityIds ∧ r.objectId = u
  /-- What is near is as near through entities that are seen. -/
  entities : ∀ x, sees ask tables x = true →
    Within (Linked ask tables) (· ∈ entityIds) hops x → SeenWithin ask tables entityIds hops x
  relations : ∀ r, (∀ x, r.Ends x → sees ask tables x = true) →
    Near ask tables entityIds hops r →
      ∃ x, r.Ends x ∧ ∃ k < hops, SeenWithin ask tables entityIds k x

variable {x y : EntityId} {r : Relation} {k : Nat}

section Paths

variable {ask tables entityIds hops maxVisited} {digests : Digests}

theorem shown_of_sees (isSeen : sees ask tables x = true) : Shown ask tables x :=
  (sees_iff.mp isSeen).1

theorem known_of_shown (isShown : Shown ask tables x) : Known tables x := by
  obtain ⟨e, isRow, same, -⟩ := isShown
  exact ⟨e, isRow, same⟩

theorem tenant_of_wants (wanted : ask.wants r = true) : r.tenantId = ask.tenantId := by
  simp only [Ask.wants, Bool.and_eq_true, decide_eq_true_eq] at wanted
  exact wanted.1.1.1

theorem WellFormed.sees_of_shown (wellFormed : WellFormed tables)
    (isRow : r ∈ tables.relations) (wanted : ask.wants r = true)
    (isEnd : r.Ends x) (isShown : Shown ask tables x) : sees ask tables x = true :=
  sees_iff.mpr ⟨isShown, (wellFormed.own r isRow x isEnd (known_of_shown isShown)).trans
    (tenant_of_wants wanted)⟩

theorem WellFormed.known_of_joins (wellFormed : WellFormed tables)
    (isRow : r ∈ tables.relations) (joins : r.Joins x y)
    (isKnown : Known tables y) : Known tables x := by
  rcases joins with ⟨rfl, rfl⟩ | ⟨rfl, rfl⟩
  · exact (wellFormed.ends r isRow).mpr isKnown
  · exact (wellFormed.ends r isRow).mp isKnown

section

variable (reached : SeenWithin ask tables entityIds k x)
include reached

theorem SeenWithin.sees :
    sees ask tables x = true := by
  induction k generalizing x with
  | zero => exact reached.2
  | succ k ih =>
    rcases reached with before | ⟨y, -, r, -, -, -, isSeen⟩
    · exact ih before
    · exact isSeen

theorem SeenWithin.leads :
    Within (Leads ask tables) (· ∈ entityIds) k x :=
  reached.imp (fun _ _ ⟨r, isRow, wanted, joins, isSeen⟩ =>
    ⟨r, isRow, wanted, joins, shown_of_sees isSeen⟩) fun _ starts => starts.1

theorem SeenWithin.linked :
    Within (Linked ask tables) (· ∈ entityIds) k x :=
  reached.imp (fun _ _ ⟨r, isRow, wanted, joins, _⟩ => ⟨r, isRow, wanted, joins⟩)
    fun _ starts => starts.1

end

theorem shown_of_leads
    (reached : Within (Leads ask tables) (· ∈ entityIds) k x) (isNew : x ∉ entityIds) :
    ∃ r ∈ tables.relations, ask.wants r = true ∧ r.Ends x ∧ Shown ask tables x := by
  obtain ⟨-, y, -, -, r, isRow, wanted, joins, isShown⟩ := reached.linked isNew
  exact ⟨r, isRow, wanted, joins.ends.2, isShown⟩

/-- The seeds' part of the condition. -/
def SeedsApart (ask : Ask) (tables : Tables) (entityIds : List EntityId) : Prop :=
  ∀ u ∈ entityIds, Known tables u → sees ask tables u = false →
    ∀ r ∈ tables.relations, ask.wants r = true → ∀ v, r.Joins u v → sees ask tables v = true →
      v ∈ entityIds ∧ r.objectId = u

theorem WellFormed.seen_or_seed (wellFormed : WellFormed tables)
    (isRow : r ∈ tables.relations) (joins : r.Joins y x)
    (isShown : Shown ask tables x) (reached : Within (Leads ask tables) (· ∈ entityIds) k y) :
    sees ask tables y = true ∨ y ∈ entityIds ∧ Known tables y ∧ sees ask tables y = false := by
  cases isSeen : sees ask tables y with
  | true => exact .inl rfl
  | false =>
    refine .inr ⟨?_, wellFormed.known_of_joins isRow joins (known_of_shown isShown), rfl⟩
    by_contra isNew
    obtain ⟨other, isOther, wanted, isEnd, shown⟩ := shown_of_leads reached isNew
    rw [wellFormed.sees_of_shown isOther wanted isEnd shown] at isSeen
    cases isSeen

theorem seenWithin_of_leads (wellFormed : WellFormed tables)
    (apart : SeedsApart ask tables entityIds) :
    ∀ {k : Nat} {x : EntityId}, Within (Leads ask tables) (· ∈ entityIds) k x →
      sees ask tables x = true → SeenWithin ask tables entityIds k x := by
  intro k
  induction k with
  | zero => exact fun isSeed isSeen => ⟨isSeed, isSeen⟩
  | succ k ih =>
    rintro x (before | ⟨y, reached, r, isRow, wanted, joins, isShown⟩) isSeen
    · exact (ih before isSeen).succ
    · rcases wellFormed.seen_or_seed isRow joins isShown reached with
        seenBefore | ⟨isSeed, isKnown, isHidden⟩
      · exact .inr ⟨y, ih reached seenBefore, r, isRow, wanted, joins, isSeen⟩
      · have others := apart y isSeed isKnown isHidden r isRow wanted x joins isSeen
        exact Within.of_start ⟨others.1, isSeen⟩ (k + 1)

def SeenNear (ask : Ask) (tables : Tables) (entityIds : List EntityId) (hops : Nat)
    (r : Relation) : Prop :=
  r ∈ tables.relations ∧ ask.wants r = true ∧ (∀ x, r.Ends x → sees ask tables x = true) ∧
    ∃ x, r.Ends x ∧ ∃ k < hops, SeenWithin ask tables entityIds k x

theorem SeenNear.ends (near : SeenNear ask tables entityIds hops r)
    (isEnd : r.Ends x) : SeenWithin ask tables entityIds hops x := by
  obtain ⟨isRow, wanted, seen, y, isOther, k, early, reached⟩ := near
  by_cases same : y = x
  · exact same ▸ reached.mono (Nat.le_of_lt early)
  · have joins := isOther.joins isEnd same
    exact Within.mono early (.inr ⟨y, reached, r, isRow, wanted, joins, seen x isEnd⟩)

theorem crossed_of_seenNear (near : SeenNear ask tables entityIds hops r) :
    ∃ j < hops, Crossed ask tables entityIds j r := by
  classical
  obtain ⟨isRow, wanted, seen, y, isOther, k, early, reached⟩ := near
  have some_ : ∃ j, ∃ x, r.Ends x ∧ Within (Leads ask tables) (· ∈ entityIds) j x :=
    ⟨k, y, isOther, reached.leads⟩
  have least : ∀ i < Nat.find some_, ∀ x, r.Ends x →
      ¬Within (Leads ask tables) (· ∈ entityIds) i x :=
    fun i before x isEnd isReached => Nat.find_min some_ before ⟨x, isEnd, isReached⟩
  have notLate : Nat.find some_ ≤ k := Nat.find_min' some_ ⟨y, isOther, reached.leads⟩
  obtain ⟨x, isEnd, isReached⟩ := Nat.find_spec some_
  refine ⟨Nat.find some_, Nat.lt_of_le_of_lt notLate early, isRow, wanted, ?_⟩
  generalize Nat.find some_ = j at least isReached
  by_cases isSubject : Level (Leads ask tables) (· ∈ entityIds) j r.subjectId
  · exact .inl ⟨isSubject, fun i before => least i before _ (.inr rfl),
      shown_of_sees (seen _ (.inr rfl))⟩
  · refine .inr ⟨isSubject, ⟨?_, fun i before => least i before _ (.inr rfl)⟩,
      fun i before => least i before _ (.inl rfl), shown_of_sees (seen _ (.inl rfl))⟩
    rcases isEnd with rfl | rfl
    · exact absurd ⟨isReached, fun i before => least i before _ (.inl rfl)⟩ isSubject
    · exact isReached

theorem seenNear_of_crossed (wellFormed : WellFormed tables)
    (apart : SeedsApart ask tables entityIds) {j : Nat} (early : j < hops)
    (crossed : Crossed ask tables entityIds j r) : SeenNear ask tables entityIds hops r := by
  obtain ⟨isRow, wanted, ⟨isLevel, -, isShown⟩ | ⟨notLevel, isLevel, -, isShown⟩⟩ := crossed
  · have isObject := wellFormed.sees_of_shown isRow wanted (.inr rfl) isShown
    rcases wellFormed.seen_or_seed isRow (.inl ⟨rfl, rfl⟩) isShown isLevel.1 with
      isSubject | ⟨isSeed, isKnown, isHidden⟩
    · refine ⟨isRow, wanted, ?_, r.subjectId, .inl rfl, j, early,
        seenWithin_of_leads wellFormed apart isLevel.1 isSubject⟩
      rintro x (rfl | rfl)
      · exact isSubject
      · exact isObject
    · have others := apart _ isSeed isKnown isHidden r isRow wanted _ (.inl ⟨rfl, rfl⟩) isObject
      rw [← others.2, isObject] at isHidden
      cases isHidden
  · have isSubject := wellFormed.sees_of_shown isRow wanted (.inl rfl) isShown
    rcases wellFormed.seen_or_seed isRow (.inr ⟨rfl, rfl⟩) isShown isLevel.1 with
      isObject | ⟨isSeed, isKnown, isHidden⟩
    · refine ⟨isRow, wanted, ?_, r.objectId, .inr rfl, j, early,
        seenWithin_of_leads wellFormed apart isLevel.1 isObject⟩
      rintro x (rfl | rfl)
      · exact isSubject
      · exact isObject
    · -- the subject is a seed as well, and so was reached first
      have others := apart _ isSeed isKnown isHidden r isRow wanted _ (.inr ⟨rfl, rfl⟩) isSubject
      have isFirst : j = 0 := by
        by_contra later
        exact isLevel.2 0 (Nat.pos_of_ne_zero later) isSeed
      subst isFirst
      exact absurd ⟨others.1, fun i none_ => absurd none_ (Nat.not_lt_zero i)⟩ notLevel

variable (digests hops) in
theorem neighborhood_of_apart (wellFormed : WellFormed tables)
    (caps : WithinCaps tables entityIds maxVisited) (apart : SeedsApart ask tables entityIds) :
    (∀ r, r ∈ (neighborhood digests ask tables entityIds hops maxVisited).relations ↔
      SeenNear ask tables entityIds hops r) ∧
    ∀ x, x ∈ (neighborhood digests ask tables entityIds hops maxVisited).entities ↔
      SeenWithin ask tables entityIds hops x := by
  obtain ⟨isRelation, isEntity⟩ :=
    neighborhood_spec ask digests (room_of_caps caps) wellFormed.oneEach caps.2 hops
  have isNear : ∀ r, r ∈ (neighborhood digests ask tables entityIds hops maxVisited).relations ↔
      SeenNear ask tables entityIds hops r := by
    intro r
    rw [isRelation r]
    constructor
    · rintro ⟨⟨j, early, crossed⟩, -⟩
      exact seenNear_of_crossed wellFormed apart early crossed
    · exact fun near => ⟨crossed_of_seenNear near,
        fun x isEnd => known_of_shown (shown_of_sees (near.2.2.1 x isEnd))⟩
  refine ⟨isNear, fun x => ?_⟩
  rw [isEntity x]
  constructor
  · rintro (⟨r, isThere, isEnd⟩ | ⟨isSeed, isSeen⟩)
    · exact ((isNear r).mp isThere).ends isEnd
    · exact Within.of_start ⟨isSeed, isSeen⟩ hops
  · intro reached
    by_cases isSeed : x ∈ entityIds
    · exact .inr ⟨isSeed, reached.sees⟩
    · obtain ⟨k, y, early, before, r, isRow, wanted, joins, isSeen⟩ :=
        Within.linked reached fun starts => isSeed starts.1
      refine .inl ⟨r, (isNear r).mpr ⟨isRow, wanted, ?_, y, joins.ends.1, k, early, before⟩,
        joins.ends.2⟩
      have seenBefore := SeenWithin.sees before
      intro z isEnd
      rcases joins with ⟨rfl, rfl⟩ | ⟨rfl, rfl⟩ <;> rcases isEnd with rfl | rfl <;> assumption

/-- The two stores agree, and hold what is reached in sight only, exactly if no hidden entity
makes a difference, or no relation is followed at all. -/
theorem storesAgree_iff (digests : Digests) (ask : Ask) {tables : Tables}
    (wellFormed : WellFormed tables) {entityIds : List EntityId} {maxVisited : Nat}
    (caps : WithinCaps tables entityIds maxVisited) (hops : Nat) :
    StoresAgree ask tables entityIds hops maxVisited digests ↔
      (0 < hops → NoDetour ask tables entityIds hops) := by
  obtain ⟨memoryEntity, memoryRelation⟩ :=
    memoryNeighborhood_spec ask (room_of_caps caps) wellFormed.keyed hops
  rw [StoresAgree]
  constructor
  · rintro ⟨⟨sameEntities, sameRelations⟩, -, -⟩ some_
    have apart : SeedsApart ask tables entityIds := by
      intro u isSeed isKnown isHidden r isRow wanted v joins isSeen
      by_contra notApart
      have crossed : Crossed ask tables entityIds 0 r := by
        have isLevel : ∀ {x}, x ∈ entityIds → Level (Leads ask tables) (· ∈ entityIds) 0 x :=
          fun starts => ⟨starts, fun i none_ => absurd none_ (Nat.not_lt_zero i)⟩
        refine ⟨isRow, wanted, ?_⟩
        rcases joins with ⟨rfl, rfl⟩ | ⟨rfl, rfl⟩
        · exact .inl ⟨isLevel isSeed, fun i none_ => absurd none_ (Nat.not_lt_zero i),
            shown_of_sees isSeen⟩
        · exact .inr ⟨fun isFirst => notApart ⟨isFirst.1, rfl⟩, isLevel isSeed,
            fun i none_ => absurd none_ (Nat.not_lt_zero i), shown_of_sees isSeen⟩
      obtain ⟨isRelation, -⟩ :=
        neighborhood_spec ask digests (room_of_caps caps) wellFormed.oneEach caps.2 hops
      have isThere := (isRelation r).mpr ⟨⟨0, some_, crossed⟩, by
        have isKnown' := known_of_shown (shown_of_sees isSeen)
        intro x isEnd
        rcases joins with ⟨rfl, rfl⟩ | ⟨rfl, rfl⟩ <;> rcases isEnd with rfl | rfl <;> assumption⟩
      have seen := ((memoryRelation r).mp ((sameRelations r).mp isThere)).2 u joins.ends.1
      rw [isHidden] at seen
      cases seen
    obtain ⟨isNear, isEntity⟩ := neighborhood_of_apart hops digests wellFormed caps apart
    refine ⟨apart, fun x isSeen reached => ?_, fun r seen near => ?_⟩
    · exact (isEntity x).mp ((sameEntities x).mpr ((memoryEntity x).mpr ⟨isSeen, reached⟩))
    · exact ((isNear r).mp ((sameRelations r).mpr ((memoryRelation r).mpr ⟨near, seen⟩))).2.2.2
  · intro noDetour
    rcases Nat.eq_zero_or_pos hops with rfl | some_
    · obtain ⟨isRelation, isEntity⟩ :=
        neighborhood_spec ask digests (room_of_caps caps) wellFormed.oneEach caps.2 0
      have noRelation : ∀ r, r ∉ (neighborhood digests ask tables entityIds 0
          maxVisited).relations := by
        intro r isThere
        obtain ⟨⟨j, none_, -⟩, -⟩ := (isRelation r).mp isThere
        exact Nat.not_lt_zero j none_
      have isStart : ∀ x, x ∈ (neighborhood digests ask tables entityIds 0
          maxVisited).entities ↔ SeenWithin ask tables entityIds 0 x := by
        intro x
        rw [isEntity x]
        exact or_iff_right fun ⟨r, isThere, _⟩ => noRelation r isThere
      have sameEntities : ∀ x, x ∈ (neighborhood digests ask tables entityIds 0
          maxVisited).entities ↔
            x ∈ (memoryNeighborhood ask tables entityIds 0 maxVisited).entities := by
        intro x
        rw [isStart x, memoryEntity x]
        exact and_comm
      refine ⟨⟨sameEntities, fun r => iff_of_false (noRelation r) ?_⟩,
        fun x isThere => ⟨0, (isStart x).mp isThere⟩,
        fun x isThere => ⟨0, (isStart x).mp ((sameEntities x).mpr isThere)⟩⟩
      rw [memoryRelation r]
      rintro ⟨⟨-, -, x, -, k, none_, -⟩, -⟩
      exact Nat.not_lt_zero k none_
    · have holds := noDetour some_
      obtain ⟨isNear, isEntity⟩ := neighborhood_of_apart hops digests wellFormed caps holds.seeds
      have sameEntities : ∀ x, x ∈ (neighborhood digests ask tables entityIds hops
          maxVisited).entities ↔
            x ∈ (memoryNeighborhood ask tables entityIds hops maxVisited).entities := by
        intro x
        rw [isEntity x, memoryEntity x]
        exact ⟨fun reached => ⟨reached.sees, reached.linked⟩,
          fun isThere => holds.entities x isThere.1 isThere.2⟩
      refine ⟨⟨sameEntities, fun r => ?_⟩, fun x isThere => ⟨hops, (isEntity x).mp isThere⟩,
        fun x isThere => ⟨hops, (isEntity x).mp ((sameEntities x).mpr isThere)⟩⟩
      rw [isNear r, memoryRelation r]
      constructor
      · rintro ⟨isRow, wanted, seen, x, isEnd, k, early, reached⟩
        exact ⟨⟨isRow, wanted, x, isEnd, k, early, reached.linked⟩, seen⟩
      · rintro ⟨near, seen⟩
        exact ⟨near.1, near.2.1, seen, holds.relations r seen near⟩

end Paths

def acquaintance (canonicalName : String) : EntityId := ⟨"acme", "tenant:acme", canonicalName⟩

def knows (subject object memoryId : String) : Relation where
  relationId := ⟨"acme", acquaintance subject, "knows", acquaintance object, .memory memoryId⟩
  layer := .entity
  scopeKey := "tenant:acme"
  visibilityKeys := ["tenant:acme"]
  observedAt := ⟨1⟩

def acquaintances : Tables where
  entities := [⟨acquaintance "ann", ["tenant:acme"], 1⟩,
    ⟨acquaintance "ben", ["user:acme/auditor"], 1⟩,
    ⟨acquaintance "cleo", ["tenant:acme"], 1⟩]
  relations := [knows "ann" "ben" "mem_1", knows "ben" "cleo" "mem_2"]

def everyone : Ask := { tenantId := "acme", scopeKeys := ["tenant:acme"] }

def byPredicate : Digests := fun id => id.predicate

theorem acquaintances_wellFormed : WellFormed acquaintances where
  keyed := by
    rw [KeyedRelations]
    decide +kernel
  oneEach := by
    rw [OneEach]
    decide +kernel
  ends := by simp [acquaintances, Known, knows, acquaintance, Relation.subjectId, Relation.objectId]
  own := by
    intro r isRow x isEnd _
    have allOwn : ∀ r ∈ acquaintances.relations, r.tenantId = "acme" ∧
        r.subjectId.tenantId = "acme" ∧ r.objectId.tenantId = "acme" := by decide +kernel
    have isTenant := allOwn r isRow
    rcases isEnd with rfl | rfl
    · exact isTenant.2.1.trans isTenant.1.symm
    · exact isTenant.2.2.trans isTenant.1.symm

theorem acquaintances_withinCaps : WithinCaps acquaintances [acquaintance "ann"] 200 := by
  rw [WithinCaps]
  decide +kernel

theorem storesAgree_iff_of_acquaintances :
    (WellFormed acquaintances ∧ WithinCaps acquaintances [acquaintance "ann"] 200) ∧
      (StoresAgree everyone acquaintances [acquaintance "ann"] 2 200 byPredicate ↔
        (0 < 2 → NoDetour everyone acquaintances [acquaintance "ann"] 2)) :=
  ⟨⟨acquaintances_wellFormed, acquaintances_withinCaps⟩,
    storesAgree_iff byPredicate everyone acquaintances_wellFormed acquaintances_withinCaps 2⟩

/-- From Ann, the store in memory goes on to Cleo through Ben, of whom the caller may not read;
the statement does not. -/
theorem memory_store_goes_through_ben :
    (WellFormed acquaintances ∧ WithinCaps acquaintances [acquaintance "ann"] 200) ∧
      acquaintance "cleo" ∈
        (memoryNeighborhood everyone acquaintances [acquaintance "ann"] 2 200).entities ∧
      acquaintance "cleo" ∉
        (neighborhood byPredicate everyone acquaintances [acquaintance "ann"] 2 200).entities ∧
      ¬StoresAgree everyone acquaintances [acquaintance "ann"] 2 200 byPredicate := by
  have inMemory : acquaintance "cleo" ∈
      (memoryNeighborhood everyone acquaintances [acquaintance "ann"] 2 200).entities := by
    decide +kernel
  have notInStatement : acquaintance "cleo" ∉
      (neighborhood byPredicate everyone acquaintances [acquaintance "ann"] 2 200).entities := by
    decide +kernel
  refine ⟨⟨acquaintances_wellFormed, acquaintances_withinCaps⟩, inMemory, notInStatement, ?_⟩
  exact fun agree => notInStatement ((agree.1.1 _).mpr inMemory)

end MemoryService.Graph
