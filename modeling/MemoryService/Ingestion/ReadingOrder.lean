import MemoryService.Ingestion.Links

/-!
# The order of reading

Leaves are sorted by page and by their position in their section, which starts again in every
section.
-/

namespace MemoryService.Ingestion

open Foundation List

def leaves (nodes : List Node) : List Node := nodes.filter Node.isLeaf

/-- A leaf is linked to no other leaf than the one right after it. -/
def NextOnly (nodes : List Node) (edges : List ContextEdge) : Prop :=
  ∀ source target, Linked edges .next source target → source ∈ ids (leaves nodes) →
    target ∈ ids (leaves nodes) → [source, target] <:+: ids (leaves nodes)

def ReadsInOrder (readings : Readings) (titleRoot : Text) (documentId : String)
    (blocks : List Block) : Prop :=
  let nodes := buildHierarchy readings titleRoot blocks
  let edges := buildContextGraph readings documentId nodes
  (leaves nodes).map (fun node => node.text) = (places 0 0 blocks).map Place.text ∧
    NextOnly nodes edges ∧ Inverse edges .next .previous ∧ Inverse edges .parent .child ∧
    ∀ edge ∈ edges, Anchored documentId nodes edge

/-- By page, then by position since the heading. -/
def Place.notAfter (place other : Place) : Prop :=
  place.page < other.page ∨ place.page = other.page ∧ place.ordinal ≤ other.ordinal

/-- Of two texts with a heading between them, or right before the first or right after the
second, the first is not sorted after the second. -/
def InOrder (standing : List Place) : Prop :=
  ∀ i j m place other before after, i < j → i ≤ m + 1 → m ≤ j →
    standing[i]? = some place → standing[j]? = some other →
    standing[m]? = some before → standing[m + 1]? = some after →
    before.section_ ≠ after.section_ → place.notAfter other

variable {source target : String}

theorem infix_pair_cons {a b : α} {rest : List α} :
    [x, y] <:+: a :: b :: rest ↔ (x = a ∧ y = b) ∨ [x, y] <:+: b :: rest := by
  rw [infix_cons_iff, cons_prefix_cons, cons_prefix_cons]
  simp

theorem linked_neighbours {previous current : Node} :
    Linked (neighbours previous current) .next source target ↔
      previous.nodeId = source ∧ current.nodeId = target := by
  simp [neighbours, linked_both]

theorem linked_parentEdges {kid : Node} :
    ¬Linked (parentEdges parentId kid) .next source target := by
  cases parentId with
  | none => exact linked_nil
  | some parent =>
    rw [parentEdges]
    split
    · exact linked_nil
    · simp [linked_both]

theorem linked_siblings :
    ∀ {kids : List Node} {previous : Option Node},
      Linked (siblings parentId previous kids) .next source target →
      ∃ first second, [first, second] <:+: previous.toList ++ kids ∧
        first.nodeId = source ∧ second.nodeId = target := by
  intro kids
  induction kids with
  | nil => exact fun linked => absurd linked linked_nil
  | cons kid rest ih =>
    intro previous linked
    rw [siblings_cons, linked_append, linked_append, or_iff_right linked_parentEdges] at linked
    rcases linked with isNeighbour | isLater
    · cases previous with
      | none => exact absurd isNeighbour linked_nil
      | some sibling =>
        obtain ⟨isFirst, isSecond⟩ := linked_neighbours.mp isNeighbour
        exact ⟨sibling, kid, infix_pair_cons.mpr (.inl ⟨rfl, rfl⟩), isFirst, isSecond⟩
    · obtain ⟨first, second, isNext, isIds⟩ := ih isLater
      exact ⟨first, second, isNext.trans (suffix_append _ _).isInfix, isIds⟩

theorem linked_transitions :
    ∀ {sorted : List Node}, Linked (transitions sorted) .next source target ↔
      ∃ first second, [first, second] <:+: sorted ∧ first.parentId ≠ second.parentId ∧
        first.nodeId = source ∧ second.nodeId = target
  | [] => by simp [transitions, linked_nil]
  | [leaf] => by
    refine iff_of_false linked_nil ?_
    rintro ⟨first, second, isNext, -⟩
    have := isNext.length_le
    simp at this
  | previous :: current :: rest => by
    rw [transitions, linked_append, linked_transitions]
    simp only [infix_pair_cons, or_and_right, exists_or]
    refine or_congr_left ?_
    constructor
    · intro linked
      split at linked
      · exact absurd linked linked_nil
      · next differs =>
          exact ⟨previous, current, ⟨rfl, rfl⟩, differs, linked_neighbours.mp linked⟩
    · rintro ⟨_, _, ⟨rfl, rfl⟩, differs, isIds⟩
      rw [if_neg differs]
      exact linked_neighbours.mpr isIds

theorem infix_filter {kind : α → Bool} {list : List α} (isNext : [x, y] <:+: list.filter kind) :
    ∃ early middle late, list = early ++ x :: (middle ++ y :: late) ∧
      (∀ z ∈ middle, ¬kind z = true) ∧ kind x = true ∧ kind y = true := by
  obtain ⟨start, rest, isFilter⟩ := isNext
  rw [append_assoc] at isFilter
  obtain ⟨early, others, rfl, -, isRest⟩ := filter_eq_append_iff.mp isFilter.symm
  obtain ⟨before, later, rfl, -, isX, isLater⟩ := filter_eq_cons_iff.mp isRest
  obtain ⟨middle, late, rfl, free, isY, -⟩ := filter_eq_cons_iff.mp isLater
  exact ⟨early ++ before, middle, late, by simp, free, isX, isY⟩

variable {nodes : List Node} {standing : List Place}

section

variable (tree : Tree nodes standing)
include tree

theorem Tree.eq_of_id {other : Node} (member : node ∈ nodes)
    (isOther : other ∈ nodes) (same : node.nodeId = other.nodeId) : node = other :=
  inj_on_of_nodup_map tree.distinct member isOther same

theorem Tree.isLeaf_of_id (member : node ∈ nodes)
    (isLeaf : node.nodeId ∈ ids (leaves nodes)) : node.isLeaf = true := by
  obtain ⟨leaf, isThere, same⟩ := mem_map.mp isLeaf
  obtain ⟨inNodes, leafIsLeaf⟩ := mem_filter.mp isThere
  exact tree.eq_of_id inNodes member same ▸ leafIsLeaf

theorem Tree.children_eq (parentId : Option String) :
    children nodes parentId = nodes.filter fun node => node.parentId = parentId := by
  refine List.Pairwise.insertionSort_eq ?_
  refine List.Pairwise.imp_of_mem ?_ (tree.rising.filter _)
  intro first second isFirst isSecond rises
  have sameFirst := of_decide_eq_true (mem_filter.mp isFirst).2
  have sameSecond := of_decide_eq_true (mem_filter.mp isSecond).2
  exact Nat.le_of_lt (rises (sameFirst.trans sameSecond.symm))

theorem Tree.sibling_next (linked : Linked (siblingEdges nodes) .next source target)
    (isSource : source ∈ ids (leaves nodes)) (isTarget : target ∈ ids (leaves nodes)) :
    [source, target] <:+: ids (leaves nodes) := by
  obtain ⟨parentId, -, isOwn⟩ := linked_flatMap.mp linked
  obtain ⟨first, second, isNext, rfl, rfl⟩ := linked_siblings isOwn
  rw [tree.children_eq, Option.toList_none, nil_append] at isNext
  obtain ⟨early, middle, late, isNodes, free, isFirst, isSecond⟩ := infix_filter isNext
  have sameParent : first.parentId = second.parentId :=
    (of_decide_eq_true isFirst).trans (of_decide_eq_true isSecond).symm
  have leafFirst := tree.isLeaf_of_id (by rw [isNodes]; simp) isSource
  have leafSecond := tree.isLeaf_of_id (by rw [isNodes]; simp) isTarget
  have isLeaves : leaves nodes = leaves early ++ first :: (leaves middle ++ second ::
      leaves late) := by
    simp only [leaves, isNodes, filter_append, filter_cons_of_pos leafFirst,
      filter_cons_of_pos leafSecond]
  obtain ⟨paired, isPaired, -, -, follow⟩ := tree.stands
  have isMap := isPaired.symm.trans isLeaves
  obtain ⟨before, rest, rfl, -, isRest⟩ := map_eq_append_iff.mp isMap
  obtain ⟨one, others, rfl, rfl, isOthers⟩ := map_eq_cons_iff.mp isRest
  obtain ⟨between_, after_, rfl, isMiddle, isAfter⟩ := map_eq_append_iff.mp isOthers
  obtain ⟨two, last, rfl, rfl, -⟩ := map_eq_cons_iff.mp isAfter
  obtain ⟨fromFirst, fromRest⟩ := pairwise_cons.mp (pairwise_append.mp follow).2.1
  have isNone : between_ = [] := by
    refine eq_nil_iff_forall_not_mem.mpr fun pair member => ?_
    have toPair := fromFirst pair (mem_append_left _ member)
    have toSecond := fromFirst two (mem_append_right _ mem_cons_self)
    have onwards := (pairwise_append.mp fromRest).2.2 pair member two mem_cons_self
    have sameSection := toSecond.2.mp sameParent
    have sameAsFirst : one.1.parentId = pair.1.parentId :=
      toPair.2.mpr (Nat.le_antisymm toPair.1 (sameSection ▸ onwards.1))
    have inMiddle : pair.1 ∈ leaves middle := isMiddle ▸ mem_map_of_mem member
    exact free pair.1 (mem_filter.mp inMiddle).1
      (decide_eq_true (sameAsFirst.symm.trans (of_decide_eq_true isFirst)))
  rw [isNone, map_nil] at isMiddle
  rw [isLeaves, ← isMiddle]
  exact ⟨ids (leaves early), ids (leaves late), by simp [ids]⟩

end

instance : Std.Total Node.notAfter where
  total first second := by
    rw [Node.notAfter, Node.notAfter]
    omega

instance : IsTrans Node Node.notAfter where
  trans first second third := by
    rw [Node.notAfter, Node.notAfter, Node.notAfter]
    omega

theorem position_unique {α : Type} {list : List α} (distinct : list.Nodup) {i j : Nat} {x : α}
    (isFirst : list[i]? = some x) (isSecond : list[j]? = some x) : i = j := by
  obtain ⟨within, same⟩ := List.getElem?_eq_some_iff.mp isFirst
  obtain ⟨within', same'⟩ := List.getElem?_eq_some_iff.mp isSecond
  exact distinct.getElem_inj_iff.mp (same.trans same'.symm)

def sectionAt (standing : List Place) (i : Nat) : Nat := (standing[i]?).elim 0 Place.section_

theorem inOrder_iff (rank : Nat → Nat)
    (ordered : ∀ {i j x y}, standing[i]? = some x → standing[j]? = some y → i < j →
      (rank i < rank j ↔ x.notAfter y)) :
    InOrder standing ↔ RisesAtBorders standing.length rank (sectionAt standing) := by
  constructor
  · intro inOrder i j m earlier within starts ends withinNext border
    have isThere : ∀ {k}, (small : k < standing.length) → standing[k]? = some standing[k] :=
      fun small => getElem?_eq_getElem small
    have isFirst := isThere (show i < standing.length by omega)
    have isBefore := isThere (show m < standing.length by omega)
    rw [sectionAt, sectionAt, isBefore, isThere withinNext] at border
    exact (ordered isFirst (isThere within) earlier).mpr (inOrder i j m _ _ _ _ earlier starts
      ends isFirst (isThere within) isBefore (isThere withinNext) border)
  · intro rises i j m place other before later earlier starts ends isFirst isSecond isBefore
      isLater border
    refine (ordered isFirst isSecond earlier).mp (rises i j m earlier ?_ starts ends ?_ ?_)
    · exact (List.getElem?_eq_some_iff.mp isSecond).1
    · exact (List.getElem?_eq_some_iff.mp isLater).1
    · rw [sectionAt, sectionAt, isBefore, isLater]
      exact border

section

variable {paired : List (Node × Place)} {i j : Nat} {pair other : Node × Place}

theorem getElem?_map_of_pair {β : Type} (f : Node × Place → β) (isPair : paired[i]? = some pair) :
    (paired.map f)[i]? = some (f pair) := by
  rw [getElem?_map, isPair, Option.map_some]

theorem sectionAt_of_pair (isPair : paired[i]? = some pair) :
    sectionAt (paired.map Prod.snd) i = pair.2.section_ := by
  rw [sectionAt, getElem?_map_of_pair Prod.snd isPair]
  rfl

theorem pair_of_map {β : Type} {f : Node × Place → β} {value : β}
    (isThere : (paired.map f)[i]? = some value) : ∃ pair, paired[i]? = some pair ∧ f pair = value :=
  Option.map_eq_some_iff.mp (getElem?_map ▸ isThere)

variable (follow : paired.Pairwise Follow)
include follow

theorem follow_at (isPair : paired[i]? = some pair) (isOther : paired[j]? = some other)
    (earlier : i < j) : Follow pair other := by
  obtain ⟨within, rfl⟩ := List.getElem?_eq_some_iff.mp isPair
  obtain ⟨within', rfl⟩ := List.getElem?_eq_some_iff.mp isOther
  exact pairwise_iff_getElem.mp follow i j within within' earlier

theorem same_parent_iff (isPair : paired[i]? = some pair) (isOther : paired[j]? = some other) :
    pair.1.parentId = other.1.parentId ↔ pair.2.section_ = other.2.section_ := by
  rcases Nat.lt_trichotomy i j with earlier | rfl | later
  · exact (follow_at follow isPair isOther earlier).2
  · rw [isPair] at isOther
    cases isOther
    exact iff_of_true rfl rfl
  · rw [eq_comm, (follow_at follow isOther isPair later).2, eq_comm]

theorem sections_rise (i j : Nat) (notAfter : i ≤ j) (within : j < (paired.map Prod.snd).length) :
    sectionAt (paired.map Prod.snd) i ≤ sectionAt (paired.map Prod.snd) j := by
  rw [length_map] at within
  rcases Nat.eq_or_lt_of_le notAfter with rfl | earlier
  · exact Nat.le_refl _
  · have isPair := getElem?_eq_getElem (l := paired) (Nat.lt_trans earlier within)
    have isLater := getElem?_eq_getElem within
    rw [sectionAt_of_pair isPair, sectionAt_of_pair isLater]
    exact (follow_at follow isPair isLater earlier).1

end

theorem Tree.nextOnly_iff (tree : Tree nodes standing) (readings : Readings)
    (documentId : String) :
    NextOnly nodes (buildContextGraph readings documentId nodes) ↔ InOrder standing := by
  have distinctIds : (ids (leaves nodes)).Nodup :=
    List.Nodup.sublist (filter_sublist.map _) tree.distinct
  have inNodes : ∀ {leaf}, leaf ∈ leaves nodes → leaf ∈ nodes :=
    fun member => (mem_filter.mp member).1
  obtain ⟨rank, ranking, ordered, adjacent⟩ :=
    exists_ranking (r := Node.notAfter) distinctIds.of_map
  obtain ⟨paired, isPaired, rfl, stands, follow⟩ := tree.stands
  have isLeaves : leaves nodes = paired.map Prod.fst := isPaired
  have isLength : (leaves nodes).length = (paired.map Prod.snd).length := by
    rw [isLeaves, length_map, length_map]
  have orderedPlaces : ∀ {i j : Nat} {x y : Place}, (paired.map Prod.snd)[i]? = some x →
      (paired.map Prod.snd)[j]? = some y → i < j → (rank i < rank j ↔ x.notAfter y) := by
    intro i j x y isFirst isSecond earlier
    obtain ⟨pair, isPair, rfl⟩ := pair_of_map isFirst
    obtain ⟨other, isOther, rfl⟩ := pair_of_map isSecond
    have standsFirst := stands _ (mem_of_getElem? isPair)
    have standsSecond := stands _ (mem_of_getElem? isOther)
    rw [ordered (isLeaves ▸ getElem?_map_of_pair Prod.fst isPair)
      (isLeaves ▸ getElem?_map_of_pair Prod.fst isOther) earlier, Node.notAfter, Place.notAfter,
      standsFirst.2.1, standsFirst.2.2, standsSecond.2.1, standsSecond.2.2]
  rw [inOrder_iff rank orderedPlaces,
    ← turnsAtBorders_iff (isLength ▸ ranking) (sections_rise follow)]
  constructor
  · intro nextOnly i j isFirst isSecond isNext differs
    rw [length_map] at isFirst isSecond
    have isPair := getElem?_eq_getElem isFirst
    have isOther := getElem?_eq_getElem isSecond
    rw [sectionAt_of_pair isPair, sectionAt_of_pair isOther] at differs
    have isLeaf : (leaves nodes)[i]? = some paired[i].1 :=
      isLeaves ▸ getElem?_map_of_pair Prod.fst isPair
    have isLeafOther : (leaves nodes)[j]? = some paired[j].1 :=
      isLeaves ▸ getElem?_map_of_pair Prod.fst isOther
    have isAdjacent := (adjacent isLeaf isLeafOther).mpr isNext
    have isLink : Linked (readingEdges nodes) .next paired[i].1.nodeId paired[j].1.nodeId :=
      linked_transitions.mpr ⟨_, _, isAdjacent,
        fun same => differs ((same_parent_iff follow isPair isOther).mp same), rfl, rfl⟩
    have idAt : ∀ {k : Nat} {leaf : Node}, (leaves nodes)[k]? = some leaf →
        (ids (leaves nodes))[k]? = some leaf.nodeId := by
      intro k leaf isThere
      rw [ids, getElem?_map, isThere, Option.map_some]
    have noLoop : paired[i].1.nodeId ≠ paired[j].1.nodeId := by
      intro same
      have sameLeaf := tree.eq_of_id (inNodes (mem_of_getElem? isLeaf))
        (inNodes (mem_of_getElem? isLeafOther)) same
      exact differs ((same_parent_iff follow isPair isOther).mp (congrArg _ sameLeaf))
    have isInfix := nextOnly _ _ (linked_graph.mpr ⟨noLoop,
      (linked_structure rfl).mpr (.inr isLink)⟩) (mem_of_getElem? (idAt isLeaf))
      (mem_of_getElem? (idAt isLeafOther))
    obtain ⟨k, isSource, isTarget⟩ := infix_pair_iff.mp isInfix
    have first := position_unique distinctIds isSource (idAt isLeaf)
    have second := position_unique distinctIds isTarget (idAt isLeafOther)
    omega
  · intro turns source target linked isSource isTarget
    rcases (linked_structure rfl).mp (linked_graph.mp linked).2 with isSibling | isReading
    · exact tree.sibling_next isSibling isSource isTarget
    · obtain ⟨first, second, isAdjacent, differs, rfl, rfl⟩ := linked_transitions.mp isReading
      have isFirst : first ∈ sortedLeaves nodes := isAdjacent.subset (by simp)
      have isSecond : second ∈ sortedLeaves nodes := isAdjacent.subset (by simp)
      rw [sortedLeaves, mem_insertionSort] at isFirst isSecond
      obtain ⟨i, isLeaf⟩ := mem_iff_getElem?.mp isFirst
      obtain ⟨j, isLeafOther⟩ := mem_iff_getElem?.mp isSecond
      obtain ⟨pair, isPair, rfl⟩ := pair_of_map ((congrArg (·[i]?) isLeaves).symm.trans isLeaf)
      obtain ⟨other, isOther, rfl⟩ :=
        pair_of_map ((congrArg (·[j]?) isLeaves).symm.trans isLeafOther)
      have isNext := (adjacent isLeaf isLeafOther).mp isAdjacent
      have isThere := (List.getElem?_eq_some_iff.mp isLeaf).1
      have isThereOther := (List.getElem?_eq_some_iff.mp isLeafOther).1
      have follows := turns i j (isLength ▸ isThere) (isLength ▸ isThereOther) isNext
        (by rw [sectionAt_of_pair isPair, sectionAt_of_pair isOther]
            exact fun same => differs ((same_parent_iff follow isPair isOther).mpr same))
      have isInfix : [pair.1, other.1] <:+: leaves nodes :=
        infix_pair_iff.mpr ⟨i, isLeaf, follows ▸ isLeafOther⟩
      exact isInfix.map fun node => node.nodeId

theorem Tree.texts (tree : Tree nodes standing) :
    (leaves nodes).map (fun node => node.text) = standing.map Place.text := by
  obtain ⟨paired, isPaired, rfl, stands, -⟩ := tree.stands
  rw [leaves, isPaired, map_map, map_map]
  exact map_congr_left fun pair member => (stands pair member).1

/-- A document is linked in the order of reading exactly if its texts are sorted in order
wherever a heading is near. -/
theorem readsInOrder_iff (readings : Readings) (injective : readings.fresh.Injective)
    (titleRoot : Text) (documentId : String) (blocks : List Block) :
    ReadsInOrder readings titleRoot documentId blocks ↔ InOrder (places 0 0 blocks) := by
  have tree : Tree (buildHierarchy readings titleRoot blocks) (places 0 0 blocks) :=
    buildHierarchy_tree injective blocks
  rw [ReadsInOrder, ← tree.nextOnly_iff readings documentId]
  constructor
  · exact fun inOrder => inOrder.2.1
  · exact fun nextOnly =>
      ⟨tree.texts, nextOnly, mirrored_graph.1, mirrored_graph.2, anchored_graph tree⟩

/-- Texts in which no pattern finds anything. -/
def plain : Readings where
  fresh n := "node_" ++ String.ofList (List.replicate n '0')
  headingNumber _ := none
  titlePart _ := none
  tableNumber _ := none
  extractEntities _ := []
  extractDefinitions _ := []
  extractReferences _ := []
  extractFootnoteRefs _ := []
  canonicalEntity text := text
  casefold text := text

theorem plain_fresh_injective : plain.fresh.Injective := by
  intro n m same
  have sameText := congrArg (fun id => id.toList.length) same
  simpa [plain] using sameText

/-- Two sections of a page of Markdown, of two paragraphs each. -/
def offices : List Block :=
  [{ kind := .heading, text := "overview".toList, level := 2 },
    { kind := .paragraph, text := "it is in dortmund.".toList },
    { kind := .paragraph, text := "it makes pumps.".toList },
    { kind := .heading, text := "operations".toList, level := 2 },
    { kind := .paragraph, text := "the city hosts a plant.".toList },
    { kind := .paragraph, text := "it runs at night.".toList }]

theorem readsInOrder_iff_of_offices :
    ReadsInOrder plain "offices".toList "doc_1" offices ↔ InOrder (places 0 0 offices) :=
  readsInOrder_iff plain plain_fresh_injective "offices".toList "doc_1" offices

/-- The first text of the second section is linked to the second text of the first. -/
theorem second_section_leads_back : ¬ReadsInOrder plain "offices".toList "doc_1" offices := by
  intro inOrder
  have isLink : Linked (buildContextGraph plain "doc_1"
      (buildHierarchy plain "offices".toList offices)) .next "node_00000" "node_000" := by
    rw [linked_iff_mem_keys]
    decide +kernel
  have isInfix := inOrder.2.1 "node_00000" "node_000" isLink (by decide +kernel) (by decide +kernel)
  have isElsewhere : ¬["node_00000", "node_000"] <:+: ids (leaves
      (buildHierarchy plain "offices".toList offices)) := by decide +kernel
  exact isElsewhere isInfix

end MemoryService.Ingestion
