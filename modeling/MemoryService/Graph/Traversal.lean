import MemoryService.Graph.MemoryStore

/-!
# What the statement visits

The statement follows a relation only to an entity that the caller sees.  Within its caps it
visits just what such links reach, and returns the relations that it has crossed, each once.
-/

namespace MemoryService.Graph

open Foundation List

variable (ask : Ask) (tables : Tables)

/-- A row with the audience of the caller. -/
def Shown (x : EntityId) : Prop :=
  ∃ e ∈ tables.entities, e.entityId = x ∧ visible ask.scopeKeys e.visibilityKeys = true

def Leads (x y : EntityId) : Prop :=
  ∃ r ∈ tables.relations, ask.wants r = true ∧ r.Joins x y ∧ Shown ask tables y

/-- The one end is reached in just so many links; the other is shown, and reached in no fewer. -/
def Crossed (entityIds : List EntityId) (j : Nat) (r : Relation) : Prop :=
  r ∈ tables.relations ∧ ask.wants r = true ∧
    (Level (Leads ask tables) (· ∈ entityIds) j r.subjectId ∧
        (∀ i < j, ¬Within (Leads ask tables) (· ∈ entityIds) i r.objectId) ∧
        Shown ask tables r.objectId ∨
      ¬Level (Leads ask tables) (· ∈ entityIds) j r.subjectId ∧
        Level (Leads ask tables) (· ∈ entityIds) j r.objectId ∧
        (∀ i < j, ¬Within (Leads ask tables) (· ∈ entityIds) i r.subjectId) ∧
        Shown ask tables r.subjectId)

def OneEach : Prop :=
  ∀ r ∈ tables.relations, ∀ other ∈ tables.relations, r.assertion = other.assertion → r = other

variable {α κ : Type} {key : α → κ} {frontier expanded : List EntityId} {r : Relation}
  {earlier : List Relation} {limit j : Nat} {x : EntityId}

section Statement

variable {ask tables} {entityIds : List EntityId} {maxVisited : Nat} {digests : Digests}

theorem mem_distinctBy_iff [DecidableEq κ] {list : List α}
    (distinct : ∀ a ∈ list, ∀ b ∈ list, key a = key b → a = b) {a : α} :
    a ∈ distinctBy key list ↔ a ∈ list := by
  refine ⟨mem_distinctBy, ?_⟩
  induction list with
  | nil => exact id
  | cons first rest ih =>
    intro member
    rw [distinctBy]
    by_cases isFirst : a = first
    · exact isFirst ▸ mem_cons_self
    · have isLater : a ∈ rest := (mem_cons.mp member).resolve_left isFirst
      refine mem_cons_of_mem _ (mem_filter.mpr ⟨?_, ?_⟩)
      · exact ih (fun x inRest y inRest' =>
          distinct x (mem_cons_of_mem _ inRest) y (mem_cons_of_mem _ inRest')) isLater
      · exact decide_eq_true fun same => isFirst (distinct a member first mem_cons_self same)

theorem length_distinctBy_le [DecidableEq κ] (list : List α) :
    (distinctBy key list).length ≤ list.length := by
  induction list with
  | nil => exact Nat.le_refl _
  | cons first rest ih =>
    rw [distinctBy, length_cons, length_cons]
    exact Nat.succ_le_succ (Nat.le_trans (length_filter_le _ _) ih)

theorem edgeOf_eq_some {edge : Edge} (isEdge : edgeOf ask tables frontier r = some edge) :
    edge.relation = r ∧ Shown ask tables (neighbour frontier r) := by
  obtain ⟨e, isRow, rfl⟩ := Option.map_eq_some_iff.mp isEdge
  have isShown := find?_some isRow
  exact ⟨rfl, e, mem_of_find?_eq_some isRow, by simpa using isShown⟩

theorem exists_edgeOf (isShown : Shown ask tables (neighbour frontier r)) :
    ∃ edge, edgeOf ask tables frontier r = some edge := by
  obtain ⟨e, isRow, same, isVisible⟩ := isShown
  cases found : tables.entities.find? (fun e =>
      e.entityId = neighbour frontier r ∧ visible ask.scopeKeys e.visibilityKeys) with
  | none =>
    have none_ := find?_eq_none.mp found e isRow
    simp [same, isVisible] at none_
  | some other => exact ⟨_, by rw [edgeOf, found]; rfl⟩

theorem mem_query_iff (oneEach : OneEach tables) (fits : tables.relations.length ≤ limit) :
    r ∈ neighborhoodQuery digests ask tables frontier expanded earlier limit ↔
      r ∈ tables.relations ∧ ask.admits frontier expanded earlier r = true ∧
        Shown ask tables (neighbour frontier r) := by
  simp only [neighborhoodQuery]
  have isEdge : ∀ edge, edge ∈ ((tables.relations.filter
      (ask.admits frontier expanded earlier)).filterMap (edgeOf ask tables frontier)) ↔
      (edge.relation ∈ tables.relations ∧
        ask.admits frontier expanded earlier edge.relation = true) ∧
        edgeOf ask tables frontier edge.relation = some edge := by
    intro edge
    rw [mem_filterMap]
    constructor
    · rintro ⟨row, isRow, becomes⟩
      rw [(edgeOf_eq_some becomes).1]
      exact ⟨mem_filter.mp isRow, becomes⟩
    · rintro ⟨isRow, becomes⟩
      exact ⟨edge.relation, mem_filter.mpr isRow, becomes⟩
  have few : ((tables.relations.filter (ask.admits frontier expanded earlier)).filterMap
      (edgeOf ask tables frontier)).length ≤ limit :=
    Nat.le_trans (length_filterMap_le _ _) (Nat.le_trans (length_filter_le _ _) fits)
  generalize (tables.relations.filter (ask.admits frontier expanded earlier)).filterMap
    (edgeOf ask tables frontier) = edges at isEdge few ⊢
  have ranked : ∀ edge, edge ∈ edges.insertionSort (fun first second =>
      first.before digests second) ↔ edge ∈ edges := fun edge => mem_insertionSort _
  have distinct : ∀ a ∈ edges.insertionSort (fun first second => first.before digests second),
      ∀ b ∈ edges.insertionSort (fun first second => first.before digests second),
        a.relation.assertion = b.relation.assertion → a = b := by
    intro a isA b isB same
    obtain ⟨⟨rowA, -⟩, edgeA⟩ := (isEdge a).mp ((ranked a).mp isA)
    obtain ⟨⟨rowB, -⟩, edgeB⟩ := (isEdge b).mp ((ranked b).mp isB)
    rw [oneEach _ rowA _ rowB same, edgeB] at edgeA
    exact (Option.some.inj edgeA).symm
  have uncut : (distinctBy (fun edge : Edge => edge.relation.assertion)
      (edges.insertionSort fun first second => first.before digests second)).length ≤ limit := by
    refine Nat.le_trans (length_distinctBy_le _) ?_
    rwa [length_insertionSort]
  rw [take_of_length_le uncut, mem_map]
  constructor
  · rintro ⟨edge, member, rfl⟩
    obtain ⟨isRow, becomes⟩ :=
      (isEdge edge).mp ((ranked edge).mp ((mem_distinctBy_iff distinct).mp member))
    exact ⟨isRow.1, isRow.2, (edgeOf_eq_some becomes).2⟩
  · rintro ⟨isRow, admitted, isShown⟩
    obtain ⟨edge, becomes⟩ := exists_edgeOf isShown
    have isRelation := (edgeOf_eq_some becomes).1
    subst isRelation
    exact ⟨edge, (mem_distinctBy_iff distinct).mpr
      ((ranked edge).mpr ((isEdge edge).mpr ⟨⟨isRow, admitted⟩, becomes⟩)), rfl⟩

theorem admits_iff :
    ask.admits frontier expanded earlier r = true ↔
      ask.wants r = true ∧ (r.subjectId ∈ frontier ∨ r.objectId ∈ frontier) ∧
        neighbour frontier r ∉ expanded ∧ ∀ e ∈ earlier, e.assertion ≠ r.assertion := by
  rw [Ask.admits, Ask.wants, timeConditions_all]
  simp only [Bool.and_eq_true, Bool.or_eq_true, decide_eq_true_eq, Bool.not_eq_true', any_eq_false]
  tauto

/-- A walk after so many hops. -/
structure Walk.Walked (ask : Ask) (tables : Tables) (entityIds : List EntityId) (k : Nat)
    (walk : Walk) : Prop where
  distinct : walk.visited.Nodup
  named : ∀ x ∈ walk.visited, Mentioned tables entityIds x
  searched : Searched (Leads ask tables) (· ∈ entityIds) k (· ∈ walk.visited)
    (· ∈ walk.frontier)
  expanded : ∀ x, x ∈ walk.expanded ↔ ∃ i < k, Within (Leads ask tables) (· ∈ entityIds) i x
  steps : ∀ r, r ∈ walk.steps.flatten ↔ ∃ j < k, Crossed ask tables entityIds j r

theorem Crossed.ends (crossed : Crossed ask tables entityIds j r) (isEnd : r.Ends x) :
    Within (Leads ask tables) (· ∈ entityIds) (j + 1) x := by
  obtain ⟨isRow, wanted, ⟨isLevel, -, isShown⟩ | ⟨-, isLevel, -, isShown⟩⟩ := crossed
  · rcases isEnd with rfl | rfl
    · exact isLevel.1.succ
    · exact .inr ⟨r.subjectId, isLevel.1, r, isRow, wanted, .inl ⟨rfl, rfl⟩, isShown⟩
  · rcases isEnd with rfl | rfl
    · exact .inr ⟨r.objectId, isLevel.1, r, isRow, wanted, .inr ⟨rfl, rfl⟩, isShown⟩
    · exact isLevel.1.succ

section Hop

variable {k : Nat} {walk : Walk}

section

variable (walked : walk.Walked ask tables entityIds k)
include walked

theorem Walk.Walked.visited_of_step
    (isStep : r ∈ walk.steps.flatten) (isEnd : r.Ends x) : x ∈ walk.visited := by
  obtain ⟨j, early, crossed⟩ := (walked.steps r).mp isStep
  exact (walked.searched.reached x).mpr ((crossed.ends isEnd).mono early)

variable (digests) in
theorem Walk.Walked.step_iff (oneEach : OneEach tables)
    (fits : tables.relations.length ≤ limit) (r : Relation) :
    r ∈ neighborhoodQuery digests ask tables walk.frontier walk.expanded walk.steps.flatten limit ↔
      Crossed ask tables entityIds k r ∧ r ∉ walk.steps.flatten := by
  rw [mem_query_iff oneEach fits, admits_iff]
  have isNew : r ∈ tables.relations →
      ((∀ e ∈ walk.steps.flatten, e.assertion ≠ r.assertion) ↔ r ∉ walk.steps.flatten) := by
    intro isRow
    constructor
    · exact fun differs isStep => differs r isStep rfl
    · intro notStep e isStep same
      obtain ⟨j, -, crossed⟩ := (walked.steps e).mp isStep
      exact notStep (oneEach e crossed.1 r isRow same ▸ isStep)
  have isLast : ∀ x, Level (Leads ask tables) (· ∈ entityIds) k x ↔ x ∈ walk.frontier :=
    fun x => (walked.searched.last x).symm
  have isFresh : ∀ x, (∀ i < k, ¬Within (Leads ask tables) (· ∈ entityIds) i x) ↔
      x ∉ walk.expanded := by
    intro x
    rw [walked.expanded x]
    simp only [not_exists, not_and]
  rw [Crossed]
  simp only [isLast, isFresh, neighbour]
  constructor
  · rintro ⟨isRow, ⟨wanted, isEnd, notExpanded, differs⟩, isShown⟩
    refine ⟨⟨isRow, wanted, ?_⟩, (isNew isRow).mp differs⟩
    by_cases isSubject : r.subjectId ∈ walk.frontier
    · rw [if_pos isSubject] at notExpanded isShown
      exact .inl ⟨isSubject, notExpanded, isShown⟩
    · rw [if_neg isSubject] at notExpanded isShown
      exact .inr ⟨isSubject, isEnd.resolve_left isSubject, notExpanded, isShown⟩
  · rintro ⟨⟨isRow, wanted, ⟨isSubject, notExpanded, isShown⟩ |
      ⟨notSubject, isObject, notExpanded, isShown⟩⟩, notStep⟩
    · rw [if_pos isSubject]
      exact ⟨isRow, ⟨wanted, .inl isSubject, notExpanded, (isNew isRow).mpr notStep⟩, isShown⟩
    · rw [if_neg notSubject]
      exact ⟨isRow, ⟨wanted, .inr isObject, notExpanded, (isNew isRow).mpr notStep⟩, isShown⟩

theorem Walk.Walked.new_iff (y : EntityId) :
    (y ∉ walk.visited ∧ ∃ r, (Crossed ask tables entityIds k r ∧ r ∉ walk.steps.flatten) ∧
      r.Ends y) ↔
      y ∉ walk.visited ∧ ∃ x, x ∈ walk.frontier ∧ Leads ask tables x y := by
  refine and_congr_right fun isNew => ⟨?_, ?_⟩
  · rintro ⟨r, ⟨⟨isRow, wanted, ⟨isLevel, -, isShown⟩ | ⟨-, isLevel, -, isShown⟩⟩, -⟩, isEnd⟩
    · have isLast := (walked.searched.last _).mpr isLevel
      rcases isEnd with rfl | rfl
      · exact absurd (walked.searched.visited_of_last isLast) isNew
      · exact ⟨_, isLast, r, isRow, wanted, .inl ⟨rfl, rfl⟩, isShown⟩
    · have isLast := (walked.searched.last _).mpr isLevel
      rcases isEnd with rfl | rfl
      · exact ⟨_, isLast, r, isRow, wanted, .inr ⟨rfl, rfl⟩, isShown⟩
      · exact absurd (walked.searched.visited_of_last isLast) isNew
  · rintro ⟨x, isLast, r, isRow, wanted, joins, isShown⟩
    have isLevel := (walked.searched.last x).mp isLast
    have fresh : ∀ i < k, ¬Within (Leads ask tables) (· ∈ entityIds) i y := fun i early before =>
      isNew ((walked.searched.reached y).mpr (before.mono (Nat.le_of_lt early)))
    have notLevel : ¬Level (Leads ask tables) (· ∈ entityIds) k y := fun isThere =>
      isNew ((walked.searched.reached y).mpr isThere.1)
    refine ⟨r, ⟨⟨isRow, wanted, ?_⟩, fun isStep =>
      isNew (walked.visited_of_step isStep joins.ends.2)⟩, joins.ends.2⟩
    rcases joins with ⟨rfl, rfl⟩ | ⟨rfl, rfl⟩
    · exact .inl ⟨isLevel, fresh, isShown⟩
    · exact .inr ⟨notLevel, isLevel, fresh, isShown⟩

variable (digests) in
theorem Walk.Walked.hop (room : Room tables entityIds maxVisited) (oneEach : OneEach tables)
    (fits : tables.relations.length ≤ maxVisited * 3) :
    (walk.hop digests ask tables maxVisited).Walked ask tables entityIds (k + 1) := by
  have small := room walk.visited walked.distinct walked.named
  have isStep := walked.step_iff digests oneEach fits
  simp only [Walk.hop, if_pos small]
  generalize neighborhoodQuery digests ask tables walk.frontier walk.expanded
    walk.steps.flatten (maxVisited * 3) = step at isStep ⊢
  have isNew : ∀ y, y ∈ ((step.flatMap fun r => [r.subjectId, r.objectId]).filter
      fun e => e ∉ walk.visited).eraseDups ↔
        y ∉ walk.visited ∧ ∃ x, x ∈ walk.frontier ∧ Leads ask tables x y := by
    intro y
    rw [mem_eraseDups, mem_filter, decide_eq_true_eq, and_comm, ← walked.new_iff y, mem_flatMap]
    refine and_congr_right fun _ => exists_congr fun r => and_congr (isStep r) ?_
    simp only [mem_cons, not_mem_nil, or_false, Relation.Ends, eq_comm]
  have newDistinct := nodup_eraseDups ((step.flatMap fun r => [r.subjectId, r.objectId]).filter
    fun e => e ∉ walk.visited)
  generalize ((step.flatMap fun r => [r.subjectId, r.objectId]).filter
    fun e => e ∉ walk.visited).eraseDups = new at isNew newDistinct ⊢
  have allDistinct : (walk.visited ++ new).Nodup := by
    refine nodup_append.mpr ⟨walked.distinct, newDistinct, fun a isOld b isFresh same => ?_⟩
    exact ((isNew b).mp isFresh).1 (same ▸ isOld)
  have allNamed : ∀ x ∈ walk.visited ++ new, Mentioned tables entityIds x := by
    intro x member
    rcases mem_append.mp member with isOld | isFresh
    · exact walked.named x isOld
    · obtain ⟨-, y, -, r, isRow, -, joins, -⟩ := (isNew x).mp isFresh
      exact .inr ⟨r, isRow, joins.ends.2⟩
  have uncut : new.length ≤ maxVisited - walk.visited.length := by
    have fewer := room _ allDistinct allNamed
    rw [length_append] at fewer
    omega
  rw [take_of_length_le uncut]
  refine ⟨allDistinct, allNamed, ?_, fun x => ?_, fun r => ?_⟩
  · exact (walked.searched.step isNew).congr (fun x => mem_append) fun _ => Iff.rfl
  · rw [walked.searched.reached x]
    constructor
    · exact fun isReached => ⟨k, Nat.lt_succ_self k, isReached⟩
    · rintro ⟨i, early, isReached⟩
      exact isReached.mono (Nat.le_of_lt_succ early)
  · rw [flatten_append, flatten_singleton, mem_append, isStep r, walked.steps r]
    constructor
    · rintro (⟨j, early, crossed⟩ | ⟨crossed, -⟩)
      · exact ⟨j, Nat.lt_succ_of_lt early, crossed⟩
      · exact ⟨k, Nat.lt_succ_self k, crossed⟩
    · rintro ⟨j, early, crossed⟩
      by_cases isOld : ∃ j < k, Crossed ask tables entityIds j r
      · exact .inl isOld
      · rcases Nat.eq_or_lt_of_le (Nat.le_of_lt_succ early) with rfl | earlier
        · exact .inr ⟨crossed, isOld⟩
        · exact absurd ⟨j, earlier, crossed⟩ isOld

end

variable (digests) in
theorem Walk.Walked.hops (room : Room tables entityIds maxVisited) (oneEach : OneEach tables)
    (fits : tables.relations.length ≤ maxVisited * 3) (hops : Nat) :
    ∀ {k : Nat} {walk : Walk}, walk.Walked ask tables entityIds k →
      (Walk.hops digests ask tables maxVisited hops walk).Walked ask tables entityIds
        (k + hops) := by
  induction hops with
  | zero => exact fun walked => walked
  | succ hops ih =>
    intro k walk walked
    have later := ih (walked.hop digests room oneEach fits)
    rw [Nat.add_right_comm] at later
    exact later

end Hop

def Known (tables : Tables) (x : EntityId) : Prop := ∃ e ∈ tables.entities, e.entityId = x

theorem any_known_iff :
    (tables.entities.any fun row => row.entityId = x) = true ↔ Known tables x := by
  simp [Known]

theorem sees_iff : sees ask tables x = true ↔ Shown ask tables x ∧ x.tenantId = ask.tenantId := by
  simp only [sees, any_eq_true, Bool.and_eq_true, decide_eq_true_eq, Shown]
  constructor
  · rintro ⟨e, isRow, ⟨same, isOwn⟩, isVisible⟩
    exact ⟨⟨e, isRow, same, isVisible⟩, isOwn⟩
  · rintro ⟨⟨e, isRow, same, isVisible⟩, isOwn⟩
    exact ⟨e, isRow, ⟨same, isOwn⟩, isVisible⟩

theorem visible_nil (visibilityKeys : List String) : visible [] visibilityKeys = false := by
  simp [visible]

theorem Crossed.given (crossed : Crossed ask tables entityIds j r) :
    entityIds ≠ [] ∧ ask.scopeKeys ≠ [] := by
  have nowhere : ∀ {k x}, ¬Within (Leads ask tables) (· ∈ ([] : List EntityId)) k x := by
    intro k
    induction k with
    | zero => exact fun isSeed => not_mem_nil isSeed
    | succ k ih =>
      rintro x (before | ⟨y, before, -⟩)
      · exact ih before
      · exact ih before
  constructor
  · rintro rfl
    obtain ⟨-, -, ⟨isLevel, -⟩ | ⟨-, isLevel, -⟩⟩ := crossed
    · exact nowhere isLevel.1
    · exact nowhere isLevel.1
  · intro none_
    have wanted := crossed.2.1
    rw [Ask.wants, none_, visible_nil, Bool.and_false, Bool.false_and, Bool.false_and] at wanted
    cases wanted

theorem sees_nil (none_ : ask.scopeKeys = []) (x : EntityId) : sees ask tables x = false := by
  rw [sees, none_]
  simp [visible_nil]

theorem walk_start (small : entityIds.eraseDups.length ≤ maxVisited) :
    Walk.Walked ask tables entityIds 0
      { frontier := entityIds.eraseDups.take maxVisited
        visited := entityIds.eraseDups.take maxVisited } := by
  rw [take_of_length_le small]
  refine ⟨nodup_eraseDups entityIds, fun x member => .inl (mem_eraseDups.mp member),
    searched_start.congr (fun _ => mem_eraseDups) (fun _ => mem_eraseDups), ?_, ?_⟩
  · exact fun x => iff_of_false not_mem_nil fun ⟨i, none_, _⟩ => absurd none_ (Nat.not_lt_zero i)
  · exact fun r => iff_of_false not_mem_nil fun ⟨i, none_, _⟩ => absurd none_ (Nat.not_lt_zero i)

variable (ask) in
theorem neighborhood_spec (digests : Digests) (room : Room tables entityIds maxVisited)
    (oneEach : OneEach tables) (fits : tables.relations.length ≤ maxVisited * 3) (hops : Nat) :
    (∀ r, r ∈ (neighborhood digests ask tables entityIds hops maxVisited).relations ↔
      (∃ j < hops, Crossed ask tables entityIds j r) ∧ ∀ x, r.Ends x → Known tables x) ∧
    ∀ x, x ∈ (neighborhood digests ask tables entityIds hops maxVisited).entities ↔
      (∃ r ∈ (neighborhood digests ask tables entityIds hops maxVisited).relations, r.Ends x) ∨
        x ∈ entityIds ∧ sees ask tables x = true := by
  have few := room _ (nodup_eraseDups entityIds) fun x member => .inl (mem_eraseDups.mp member)
  have isSeed : ∀ x, x ∈ entityIds.eraseDups.take maxVisited ↔ x ∈ entityIds := by
    intro x
    rw [take_of_length_le (Nat.le_of_lt few), mem_eraseDups]
  have start : Walk.Walked ask tables entityIds 0
      { frontier := entityIds.eraseDups.take maxVisited
        visited := entityIds.eraseDups.take maxVisited } := walk_start (Nat.le_of_lt few)
  simp only [neighborhood]
  generalize entityIds.eraseDups.take maxVisited = seeds at isSeed start ⊢
  split
  · next isEmpty =>
      have noCross : ∀ r j, ¬Crossed ask tables entityIds j r := by
        intro r j crossed
        rcases Bool.or_eq_true_iff.mp isEmpty with noSeeds | noKeys
        · refine crossed.given.1 (eq_nil_iff_forall_not_mem.mpr fun x member => ?_)
          rw [isEmpty_iff.mp noSeeds] at isSeed
          exact not_mem_nil ((isSeed x).mpr member)
        · exact crossed.given.2 (isEmpty_iff.mp noKeys)
      refine ⟨fun r => iff_of_false not_mem_nil ?_, fun x => iff_of_false not_mem_nil ?_⟩
      · rintro ⟨⟨j, -, crossed⟩, -⟩
        exact noCross r j crossed
      · rintro (⟨r, none_, -⟩ | ⟨isThere, isSeen⟩)
        · exact not_mem_nil none_
        · rcases Bool.or_eq_true_iff.mp isEmpty with noSeeds | noKeys
          · rw [isEmpty_iff.mp noSeeds] at isSeed
            exact not_mem_nil ((isSeed x).mpr isThere)
          · rw [sees_nil (isEmpty_iff.mp noKeys)] at isSeen
            cases isSeen
  · have isFound : ∀ r, r ∈ (if 0 < hops then
          traversalQuery digests ask tables seeds maxVisited hops else ([], seeds)).1 ↔
        (∃ j < hops, Crossed ask tables entityIds j r) ∧ ∀ x, r.Ends x → Known tables x := by
      intro r
      by_cases some_ : 0 < hops
      · have walked := Walk.Walked.hops digests room oneEach fits hops start
        rw [Nat.zero_add] at walked
        rw [if_pos some_, traversalQuery]
        simp only
        rw [mem_filter, walked.steps r]
        refine and_congr_right fun crossed => ?_
        have visited : ∀ x, r.Ends x → x ∈ (Walk.hops digests ask tables maxVisited hops
            { frontier := seeds, visited := seeds }).visited :=
          fun x isEnd => walked.visited_of_step ((walked.steps r).mpr crossed) isEnd
        simp only [Bool.and_eq_true, any_known_iff, contains_iff_mem,
          visited _ (.inl rfl), visited _ (.inr rfl), and_true]
        constructor
        · rintro known x (rfl | rfl)
          · exact known.1
          · exact known.2
        · exact fun known => ⟨known _ (.inl rfl), known _ (.inr rfl)⟩
      · rw [if_neg some_]
        refine iff_of_false not_mem_nil ?_
        rintro ⟨⟨j, early, -⟩, -⟩
        omega
    generalize (if 0 < hops then traversalQuery digests ask tables seeds maxVisited hops
      else ([], seeds)) = answer at isFound ⊢
    refine ⟨isFound, fun x => ?_⟩
    have isEnd : x ∈ (answer.1.flatMap fun r => [r.subjectId, r.objectId]).eraseDups ↔
        ∃ r ∈ answer.1, r.Ends x := by
      rw [mem_eraseDups, mem_flatMap]
      simp only [mem_cons, not_mem_nil, or_false, Relation.Ends, eq_comm]
    have isSeen : (tables.entities.any fun e => e.entityId = x ∧
        e.entityId.tenantId = ask.tenantId ∧ visible ask.scopeKeys e.visibilityKeys) = true ↔
          sees ask tables x = true := by
      rw [sees_iff]
      simp only [any_eq_true, decide_eq_true_eq, Shown]
      constructor
      · rintro ⟨e, isRow, rfl, isOwn, isVisible⟩
        exact ⟨⟨e, isRow, rfl, isVisible⟩, isOwn⟩
      · rintro ⟨⟨e, isRow, rfl, isVisible⟩, isOwn⟩
        exact ⟨e, isRow, rfl, isOwn, isVisible⟩
    simp only [mem_append, mem_filter, decide_eq_true_eq, isSeed, isEnd, isSeen]
    by_cases isEndOf : ∃ r ∈ answer.1, r.Ends x <;> by_cases isThere : x ∈ entityIds <;>
      simp [isEndOf, isThere]

end Statement

end MemoryService.Graph
