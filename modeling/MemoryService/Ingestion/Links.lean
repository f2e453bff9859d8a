import MemoryService.Ingestion.Tree

/-!
# The links that are made

A link is in the graph exactly if it was proposed and is no loop.  Neighbours, and parents and
children, are linked there and back; every link starts at a node and ends at a node, or at a
page or an entity of one.
-/

namespace MemoryService.Ingestion

open List

def Linked (edges : List ContextEdge) (kind : ContextGraphEdge) (source target : String) : Prop :=
  ∃ edge ∈ edges, edge.edge = kind ∧ edge.sourceId = source ∧ edge.targetId = target

variable {edges others : List ContextEdge} {kind : ContextGraphEdge} {source target : String}

theorem linked_append :
    Linked (edges ++ others) kind source target ↔
      Linked edges kind source target ∨ Linked others kind source target := by
  simp only [Linked, mem_append, or_and_right, exists_or]

variable {α : Type} {list : List α} {f : α → List ContextEdge} {edge : ContextEdge}
  {first second : String} {there back : ContextGraphEdge} {node : Node} {parentId : Option String}

theorem linked_flatMap :
    Linked (list.flatMap f) kind source target ↔ ∃ x ∈ list, Linked (f x) kind source target := by
  constructor
  · rintro ⟨edge, member, isEdge⟩
    obtain ⟨x, isElement, isIn⟩ := mem_flatMap.mp member
    exact ⟨x, isElement, edge, isIn, isEdge⟩
  · rintro ⟨x, isElement, edge, isIn, isEdge⟩
    exact ⟨edge, mem_flatMap.mpr ⟨x, isElement, isIn⟩, isEdge⟩

theorem linked_nil : ¬Linked [] kind source target := by
  rintro ⟨edge, isNone, -⟩
  cases isNone

theorem linked_iff_mem_keys :
    Linked edges kind source target ↔ (source, target, kind) ∈ edges.map ContextEdge.key := by
  constructor
  · rintro ⟨edge, member, rfl, rfl, rfl⟩
    exact mem_map_of_mem member
  · intro member
    obtain ⟨edge, isEdge, isKey⟩ := mem_map.mp member
    obtain ⟨isSource, isTarget, isKind⟩ : edge.sourceId = source ∧ edge.targetId = target ∧
        edge.edge = kind := by simpa [ContextEdge.key] using isKey
    exact ⟨edge, isEdge, isKind, isSource, isTarget⟩

theorem linked_add (edge : ContextEdge) :
    Linked (add edges edge) kind source target ↔
      Linked edges kind source target ∨ source ≠ target ∧ Linked [edge] kind source target := by
  have isSame : Linked [edge] kind source target ↔
      edge.edge = kind ∧ edge.sourceId = source ∧ edge.targetId = target := by
    simp [Linked]
  rw [add]
  split
  · next noNew =>
      refine ⟨.inl, ?_⟩
      rintro (isOld | ⟨noLoop, isNew⟩)
      · exact isOld
      · obtain ⟨rfl, rfl, rfl⟩ := isSame.mp isNew
        rcases noNew with loop | isThere
        · exact absurd loop noLoop
        · exact linked_iff_mem_keys.mpr isThere
  · next isNew =>
      rw [linked_append]
      refine or_congr_right ⟨fun isLast => ⟨?_, isLast⟩, And.right⟩
      obtain ⟨-, rfl, rfl⟩ := isSame.mp isLast
      exact fun loop => isNew (.inl loop)

theorem linked_foldl_add (proposals : List ContextEdge) :
    Linked (proposals.foldl add edges) kind source target ↔
      Linked edges kind source target ∨ source ≠ target ∧ Linked proposals kind source target := by
  induction proposals generalizing edges with
  | nil => simp [linked_nil]
  | cons edge rest ih =>
    have isCons : Linked (edge :: rest) kind source target ↔
        Linked [edge] kind source target ∨ Linked rest kind source target := by
      rw [← singleton_append, linked_append]
    rw [foldl_cons, ih, linked_add, isCons, or_assoc, and_or_left]

theorem mem_add {added : ContextEdge} (member : edge ∈ add edges added) :
    edge ∈ edges ∨ edge = added := by
  rw [add] at member
  split at member
  · exact .inl member
  · rcases mem_append.mp member with isOld | isNew
    · exact .inl isOld
    · exact .inr (mem_singleton.mp isNew)

theorem mem_foldl_add {proposals : List ContextEdge}
    (member : edge ∈ proposals.foldl add edges) : edge ∈ edges ∨ edge ∈ proposals := by
  induction proposals generalizing edges with
  | nil => exact .inl member
  | cons added rest ih =>
    rcases ih member with isEarly | isLater
    · rcases mem_add isEarly with isOld | rfl
      · exact .inl isOld
      · exact .inr mem_cons_self
    · exact .inr (mem_cons_of_mem _ isLater)

variable {readings : Readings} {documentId : String} {nodes : List Node}

theorem linked_graph :
    Linked (buildContextGraph readings documentId nodes) kind source target ↔
      source ≠ target ∧ Linked (proposed readings documentId nodes) kind source target := by
  rw [buildContextGraph, linked_foldl_add]
  exact or_iff_right linked_nil

def Inverse (edges : List ContextEdge) (kind other : ContextGraphEdge) : Prop :=
  ∀ source target, Linked edges kind source target ↔ Linked edges other target source

/-- The neighbours are linked there and back, and so are parents and children. -/
def Mirrored (edges : List ContextEdge) : Prop :=
  Inverse edges .next .previous ∧ Inverse edges .parent .child

theorem Mirrored.append (first : Mirrored edges) (second : Mirrored others) :
    Mirrored (edges ++ others) := by
  constructor
  · intro source target
    rw [linked_append, linked_append, first.1 source target, second.1 source target]
  · intro source target
    rw [linked_append, linked_append, first.2 source target, second.2 source target]

theorem Mirrored.flatMap (each : ∀ x ∈ list, Mirrored (f x)) : Mirrored (list.flatMap f) := by
  constructor
  · intro source target
    rw [linked_flatMap, linked_flatMap]
    exact exists_congr fun x => and_congr_right fun member => (each x member).1 source target
  · intro source target
    rw [linked_flatMap, linked_flatMap]
    exact exists_congr fun x => and_congr_right fun member => (each x member).2 source target

/-- A link between nodes of a section, or of sections. -/
def ContextGraphEdge.isStructure : ContextGraphEdge → Bool
  | .parent | .child | .previous | .next => true
  | _ => false

section

variable (none_ : ∀ edge ∈ edges, edge.edge.isStructure = false)
include none_

theorem linked_other
    (isStructure : kind.isStructure = true) : ¬Linked edges kind source target := by
  rintro ⟨edge, member, rfl, -⟩
  rw [none_ edge member] at isStructure
  cases isStructure

theorem mirrored_of_other :
    Mirrored edges :=
  ⟨fun _ _ => iff_of_false (linked_other none_ rfl) (linked_other none_ rfl),
    fun _ _ => iff_of_false (linked_other none_ rfl) (linked_other none_ rfl)⟩

end

theorem mirrored_nil : Mirrored [] := mirrored_of_other (by simp)

theorem linked_both :
    Linked (both first second there back) kind source target ↔
      (there = kind ∧ first = source ∧ second = target) ∨
        back = kind ∧ second = source ∧ first = target := by
  simp [Linked, both]

theorem mirrored_neighbours (previous current : Node) : Mirrored (neighbours previous current) := by
  constructor <;> intro source target <;> rw [neighbours, linked_both, linked_both] <;>
    simp [and_comm]

theorem mirrored_family (child parent : String) : Mirrored (both child parent .parent .child) := by
  constructor <;> intro source target <;> rw [linked_both, linked_both] <;> simp [and_comm]

def parentEdges (parentId : Option String) (kid : Node) : List ContextEdge :=
  match parentId with
  | some parent => if parent = "" then [] else both kid.nodeId parent .parent .child
  | none => []

theorem siblings_cons (parentId : Option String) (previous : Option Node) (kid : Node)
    (rest : List Node) :
    siblings parentId previous (kid :: rest) =
      parentEdges parentId kid ++ (previous.elim [] fun sibling => neighbours sibling kid) ++
        siblings parentId (some kid) rest := by
  cases parentId <;> cases previous <;> rfl

theorem mirrored_siblings (parentId : Option String) (kids : List Node) :
    ∀ previous, Mirrored (siblings parentId previous kids) := by
  induction kids with
  | nil => exact fun _ => mirrored_nil
  | cons kid rest ih =>
    intro previous
    rw [siblings_cons]
    refine .append (.append ?_ ?_) (ih _)
    · cases parentId with
      | none => exact mirrored_nil
      | some parent =>
        rw [parentEdges]
        split
        · exact mirrored_nil
        · exact mirrored_family _ _
    · cases previous with
      | none => exact mirrored_nil
      | some sibling => exact mirrored_neighbours _ _

theorem mirrored_transitions : ∀ leaves, Mirrored (transitions leaves)
  | [] => mirrored_nil
  | [_] => mirrored_nil
  | previous :: current :: rest => by
    rw [transitions]
    refine .append ?_ (mirrored_transitions (current :: rest))
    split
    · exact mirrored_nil
    · exact mirrored_neighbours _ _

def Anchored (documentId : String) (nodes : List Node) (edge : ContextEdge) : Prop :=
  edge.sourceId ∈ ids nodes ∧
    (edge.targetId ∈ ids nodes ∨
      (∃ node ∈ nodes, ∃ page ∈ node.pageStart, edge.targetId = pageId documentId page) ∨
      ∃ entity, edge.targetId = entityId entity)

theorem id_mem (member : node ∈ nodes) : node.nodeId ∈ ids nodes := mem_map_of_mem member

theorem anchored_both (isFirst : first ∈ ids nodes) (isSecond : second ∈ ids nodes) :
    ∀ edge ∈ both first second there back, Anchored documentId nodes edge := by
  intro edge member
  rcases mem_cons.mp member with rfl | isBack
  · exact ⟨isFirst, .inl isSecond⟩
  · rw [mem_singleton.mp isBack]
    exact ⟨isSecond, .inl isFirst⟩

theorem anchored_siblings (known : ∀ parent ∈ parentId, parent ∈ ids nodes) :
    ∀ {kids : List Node} {previous : Option Node}, (∀ kid ∈ kids, kid ∈ nodes) →
      (∀ sibling ∈ previous, sibling ∈ nodes) →
      ∀ edge ∈ siblings parentId previous kids, Anchored documentId nodes edge := by
  intro kids
  induction kids with
  | nil =>
    intro previous _ _ edge isNone
    cases isNone
  | cons kid rest ih =>
    intro previous inNodes isKnown edge member
    have isKid := inNodes kid mem_cons_self
    rw [siblings_cons] at member
    rcases mem_append.mp member with isOwn | isLater
    · rcases mem_append.mp isOwn with isFamily | isNeighbour
      · cases parentId with
        | none => cases isFamily
        | some parent =>
          rw [parentEdges] at isFamily
          split at isFamily
          · cases isFamily
          · exact anchored_both (id_mem isKid) (known parent rfl) edge isFamily
      · cases previous with
        | none => cases isNeighbour
        | some sibling =>
          exact anchored_both (id_mem isKid) (id_mem (isKnown sibling rfl)) edge isNeighbour
    · refine ih (fun other isOther =>
        inNodes other (mem_cons_of_mem kid isOther)) ?_ edge isLater
      intro sibling isSibling
      cases isSibling
      exact isKid

theorem anchored_transitions :
    ∀ {leaves : List Node}, (∀ leaf ∈ leaves, leaf ∈ nodes) →
      ∀ edge ∈ transitions leaves, Anchored documentId nodes edge
  | [], _, edge, isNone => by cases isNone
  | [_], _, edge, isNone => by cases isNone
  | previous :: current :: rest, inNodes, edge, member => by
    rw [transitions] at member
    rcases mem_append.mp member with isFirst | isLater
    · split at isFirst
      · cases isFirst
      · exact anchored_both (id_mem (inNodes current (by simp)))
          (id_mem (inNodes previous (by simp))) edge isFirst
    · exact anchored_transitions
        (fun leaf isLeaf => inNodes leaf (mem_cons_of_mem previous isLeaf)) edge isLater

def Notes.Of (notes : Notes) (nodes : List Node) : Prop := ∀ note ∈ notes, note.2 ∈ ids nodes

theorem Notes.Of.get {notes : Notes} (isOf : notes.Of nodes) {key : Text}
    (found : notes.get key = some target) : target ∈ ids nodes := by
  obtain ⟨note, isFirst, rfl⟩ := Option.map_eq_some_iff.mp found
  exact isOf note (mem_of_find?_eq_some isFirst)

theorem sectionByNumber_of (readings : Readings) (nodes : List Node) :
    (sectionByNumber readings nodes).Of nodes := by
  intro note member
  obtain ⟨node, isNode, isNote⟩ := mem_flatMap.mp member
  have isId : note.2 = node.nodeId := by
    simp only [sectionNotes] at isNote
    split at isNote
    · rcases mem_append.mp isNote with isPart | isNumber
      · obtain ⟨part, -, rfl⟩ := Option.map_eq_some_iff.mp (Option.mem_toList.mp isPart)
        rfl
      · split at isNumber
        · rw [mem_singleton.mp isNumber]
        · cases isNumber
    · cases isNote
  exact isId ▸ id_mem (mem_reverse.mp isNode)

theorem tables_of (readings : Readings) (nodes : List Node) : (tables readings nodes).Of nodes := by
  intro note member
  obtain ⟨node, isNode, isNote⟩ := mem_filterMap.mp member
  split at isNote
  · obtain ⟨number, -, rfl⟩ := Option.map_eq_some_iff.mp isNote
    exact id_mem (mem_reverse.mp isNode)
  · cases isNote

theorem footnotes_of (nodes : List Node) : (footnotes nodes).Of nodes := by
  intro note member
  obtain ⟨node, isNode, isNote⟩ := mem_filterMap.mp member
  split at isNote
  · cases isNote
    exact id_mem (mem_reverse.mp isNode)
  · cases isNote

theorem definitions_of (readings : Readings) (nodes : List Node) :
    (definitions readings nodes).Of nodes := by
  have keeps : ∀ added notes : Notes, added.Of nodes → notes.Of nodes →
      Notes.Of (added.foldl (fun (notes : Notes) note =>
        if (notes.get note.1).isSome then notes else notes ++ [note]) notes) nodes := by
    intro added
    induction added with
    | nil => exact fun notes _ isOf => isOf
    | cons note rest ih =>
      intro notes isAdded isOf
      refine ih _ (fun other isOther => isAdded other (mem_cons_of_mem note isOther)) ?_
      dsimp only
      split
      · exact isOf
      · intro other isOther
        rcases mem_append.mp isOther with isOld | isNew
        · exact isOf other isOld
        · rw [mem_singleton.mp isNew]
          exact isAdded note mem_cons_self
  refine keeps _ [] (fun note member => ?_) (fun note isNone => by cases isNone)
  obtain ⟨node, isNode, isNote⟩ := mem_flatMap.mp member
  split at isNote
  · cases isNote
  · obtain ⟨term, -, rfl⟩ := mem_map.mp isNote
    exact id_mem isNode

theorem referenceTarget_mem {kind number : Text}
    (found : referenceTarget readings nodes kind number = some target) :
    target ∈ ids nodes := by
  have ofSections := sectionByNumber_of readings nodes
  rw [referenceTarget] at found
  split at found
  · exact (tables_of readings nodes).get found
  · split at found
    · exact ofSections.get found
    · split at found
      · exact ofSections.get found
      · split at found
        · rcases Option.or_eq_some_iff.mp found with isNote | ⟨-, isSection⟩
          · exact (footnotes_of nodes).get isNote
          · exact ofSections.get isSection
        · cases found

def Textual (documentId : String) (nodes : List Node) (edge : ContextEdge) : Prop :=
  Anchored documentId nodes edge ∧ edge.edge.isStructure = false

section

variable (member : node ∈ nodes)
include member

theorem textual_definedBy {definer : String} (known : definer ∈ ids nodes) (label : Text) :
    ∀ edge ∈ definedBy node definer label, Textual documentId nodes edge := by
  intro edge isEdge
  rw [definedBy] at isEdge
  split at isEdge
  · cases isEdge
  · rcases mem_cons.mp isEdge with rfl | isBack
    · exact ⟨⟨id_mem member, .inl known⟩, rfl⟩
    · rw [mem_singleton.mp isBack]
      exact ⟨⟨known, .inl (id_mem member)⟩, rfl⟩

theorem textual_entityEdges :
    ∀ edge ∈ entityEdges readings nodes node, Textual documentId nodes edge := by
  intro edge isEdge
  obtain ⟨entity, -, isOwn⟩ := mem_flatMap.mp isEdge
  rcases mem_cons.mp isOwn with rfl | isDefined
  · exact ⟨⟨id_mem member, .inr (.inr ⟨_, rfl⟩)⟩, rfl⟩
  · cases found : (definitions readings nodes).get (readings.canonicalEntity entity) with
    | none =>
      rw [found] at isDefined
      cases isDefined
    | some definer =>
      rw [found, Option.elim_some] at isDefined
      exact textual_definedBy member ((definitions_of readings nodes).get found) entity edge
        isDefined

theorem textual_definitionEdges :
    ∀ edge ∈ definitionEdges readings nodes node, Textual documentId nodes edge := by
  intro edge isEdge
  obtain ⟨note, isNote, isOwn⟩ := mem_flatMap.mp isEdge
  split at isOwn
  · exact textual_definedBy member (definitions_of readings nodes note isNote) note.1 edge isOwn
  · cases isOwn

theorem textual_referenceEdges :
    ∀ edge ∈ referenceEdges readings nodes node, Textual documentId nodes edge := by
  intro edge isEdge
  rcases mem_append.mp isEdge with isNote | isReference
  · obtain ⟨label, -, isOwn⟩ := mem_flatMap.mp isNote
    obtain ⟨found, isFound, rfl⟩ := Option.map_eq_some_iff.mp (Option.mem_toList.mp isOwn)
    exact ⟨⟨id_mem member, .inl ((footnotes_of nodes).get isFound)⟩, rfl⟩
  · obtain ⟨reference, -, isOwn⟩ := mem_flatMap.mp isReference
    obtain ⟨found, isFound, rfl⟩ := Option.map_eq_some_iff.mp (Option.mem_toList.mp isOwn)
    exact ⟨⟨id_mem member, .inl (referenceTarget_mem isFound)⟩, rfl⟩

theorem textual_tableEdges :
    ∀ edge ∈ tableEdges nodes node, Textual documentId nodes edge := by
  intro edge isEdge
  rw [tableEdges] at isEdge
  split at isEdge
  · next parent found =>
      split at isEdge
      · rw [mem_singleton.mp isEdge]
        exact ⟨⟨id_mem member, .inl (id_mem (mem_of_find?_eq_some found))⟩, rfl⟩
      · cases isEdge
  · cases isEdge

end

theorem textual_textEdges :
    ∀ edge ∈ nodes.flatMap (textEdges readings nodes), Textual documentId nodes edge := by
  intro edge isEdge
  obtain ⟨node, member, isOwn⟩ := mem_flatMap.mp isEdge
  rw [textEdges] at isOwn
  split at isOwn
  · cases isOwn
  · simp only [mem_append] at isOwn
    rcases isOwn with ((isEntity | isDefinition) | isReference) | isTable
    · exact textual_entityEdges member edge isEntity
    · exact textual_definitionEdges member edge isDefinition
    · exact textual_referenceEdges member edge isReference
    · exact textual_tableEdges member edge isTable

theorem textual_pageEdges :
    ∀ edge ∈ pageEdges documentId nodes, Textual documentId nodes edge := by
  intro edge isEdge
  obtain ⟨node, member, isOwn⟩ := mem_flatMap.mp isEdge
  split at isOwn
  · next page isPage =>
      split at isOwn
      · cases isOwn
      · rw [mem_singleton.mp isOwn]
        exact ⟨⟨id_mem member, .inr (.inl ⟨node, member, page, isPage, rfl⟩)⟩, rfl⟩
  · cases isOwn

theorem mem_children :
    node ∈ children nodes parentId ↔ node ∈ nodes ∧ node.parentId = parentId := by
  rw [children, mem_insertionSort, mem_filter, decide_eq_true_eq]

theorem mem_sortedLeaves : node ∈ sortedLeaves nodes ↔ node ∈ nodes ∧ node.isLeaf = true := by
  rw [sortedLeaves, mem_insertionSort, mem_filter]

theorem linked_structure (isStructure : kind.isStructure = true) :
    Linked (proposed readings documentId nodes) kind source target ↔
      Linked (siblingEdges nodes) kind source target ∨
        Linked (readingEdges nodes) kind source target := by
  have noPage : ¬Linked (pageEdges documentId nodes) kind source target :=
    linked_other (fun edge member => (textual_pageEdges edge member).2) isStructure
  have textual : ∀ edge ∈ nodes.flatMap (textEdges readings nodes),
      Textual documentId nodes edge := textual_textEdges
  have noText : ¬Linked (nodes.flatMap (textEdges readings nodes)) kind source target :=
    linked_other (fun edge member => (textual edge member).2) isStructure
  rw [proposed, linked_append, linked_append, linked_append, or_iff_left noText, or_iff_left noPage]

theorem mirrored_graph : Mirrored (buildContextGraph readings documentId nodes) := by
  have isSiblings : Mirrored (siblingEdges nodes) :=
    .flatMap fun parentId _ => mirrored_siblings parentId _ none
  have isReading : Mirrored (readingEdges nodes) := mirrored_transitions _
  constructor
  · intro source target
    rw [linked_graph, linked_graph, linked_structure rfl, linked_structure rfl,
      isSiblings.1 source target, isReading.1 source target, ne_comm]
  · intro source target
    rw [linked_graph, linked_graph, linked_structure rfl, linked_structure rfl,
      isSiblings.2 source target, isReading.2 source target, ne_comm]

theorem anchored_graph {standing : List Place} (tree : Tree nodes standing) :
    ∀ edge ∈ buildContextGraph readings documentId nodes, Anchored documentId nodes edge := by
  intro edge member
  rcases mem_foldl_add member with isNone | isProposed
  · cases isNone
  · simp only [proposed, mem_append] at isProposed
    rcases isProposed with ((isSibling | isReading) | isPage) | isText
    · obtain ⟨parentId, isParent, isOwn⟩ := mem_flatMap.mp isSibling
      obtain ⟨child, isChild, rfl⟩ := mem_map.mp (mem_eraseDups.mp isParent)
      exact anchored_siblings (tree.parents child isChild)
        (fun kid isKid => (mem_children.mp isKid).1) (by simp) edge isOwn
    · exact anchored_transitions (fun leaf isLeaf => (mem_sortedLeaves.mp isLeaf).1) edge isReading
    · exact (textual_pageEdges edge isPage).1
    · exact (textual_textEdges edge isText).1

end MemoryService.Ingestion
