import MemoryService.Foundation.Reach
import MemoryService.Ingestion.Tree

/-!
# The shape of the tree

The headings that only repeat the document's title come first, and make no node; from there on
every heading and every block of text makes one, under the section that is open last.
-/

namespace MemoryService.Ingestion

open Foundation List
open Rag (strip)

/-- `max(1, min(block.level, 6))` -/
def Block.headingLevel (block : Block) : Int := max 1 (min block.level 6)

variable (titleRoot : Text) (block : Block)

def Block.isTitle : Bool :=
  block.kind = .heading && block.headingLevel = 1 && strip block.text = titleRoot

def Block.makesNode : Bool := block.kind = .heading || !(strip block.text).isEmpty

def Block.isOpening : Bool := block.isTitle titleRoot || !block.makesNode

/-- The headings that stand for the document itself. -/
def titles (blocks : List Block) : List Block :=
  (blocks.takeWhile (Block.isOpening titleRoot)).filter (Block.isTitle titleRoot)

def made (blocks : List Block) : List Block :=
  (blocks.dropWhile (Block.isOpening titleRoot)).filter Block.makesNode

def Represents (node : Node) : Prop :=
  if block.kind = .heading then
    node.representation.isStructural = true ∧ node.title = some (strip block.text) ∧ node.text = []
  else node.representation = block.kind.representation ∧ node.text = strip block.text

variable {readings : Readings} {titleRoot : Text}

def Builder.closed (builder : Builder) (block : Block) : Builder :=
  if block.kind = .heading then builder.popped block.headingLevel else builder

def Builder.opening (builder : Builder) (block : Block) (node : Node) : Builder :=
  if block.kind = .heading then
    { builder with opened := (block.headingLevel, node) :: builder.opened }
  else builder

structure Grown (readings : Readings) (builder : Builder) (block : Block) (node : Node)
    (next : Builder) : Prop where
  nextEq : next = ((builder.closed block).add node).opening block node
  isChild : (builder.closed block).IsChild readings node
  depth : node.depth = (builder.closed block).parent.depth + 1
  represents : Represents block node
  pageStart : node.pageStart = block.page
  pageEnd : node.pageEnd = block.page

variable (readings) in
theorem block_grown {builder : Builder} {block : Block} (makes : block.makesNode = true)
    (noTitle : block.isTitle titleRoot = true → builder.nodes.length ≠ 1) :
    ∃ node, Grown readings builder block node (builder.block readings titleRoot block) := by
  rw [Builder.block]
  by_cases isHeading : block.kind = .heading
  · rw [if_pos isHeading]
    have isNew : ¬(block.headingLevel = 1 ∧ builder.nodes.length = 1 ∧
        strip block.text = titleRoot) := by
      rintro ⟨isFirst, isOnly, isSame⟩
      refine noTitle ?_ isOnly
      simp [Block.isTitle, isHeading, isFirst, isSame]
    have isClosed : builder.closed block = builder.popped block.headingLevel := if_pos isHeading
    simp only [Builder.heading]
    rw [if_neg (by exact isNew)]
    generalize isNode : (builder.popped (max 1 (min block.level 6))).child readings titleRoot _ []
      (some (strip block.text)) block.page _ = node
    refine ⟨node, ?_, ?_, ?_, ?_, ?_, ?_⟩
    · rw [Builder.opening, if_pos isHeading, isClosed]
      rfl
    · rw [isClosed, ← isNode]
      exact isChild_child _ _ _ _ _ _
    · rw [isClosed, ← isNode]
      rfl
    · rw [Represents, if_pos isHeading, ← isNode]
      refine ⟨?_, rfl, rfl⟩
      change (if _ then Representation.section_ else .subsection).isStructural = true
      split <;> rfl
    · rw [← isNode]
      rfl
    · rw [← isNode]
      rfl
  · rw [if_neg isHeading]
    have isThere : (strip block.text).isEmpty = false := by
      simpa [Block.makesNode, isHeading] using makes
    have isClosed : builder.closed block = builder := if_neg isHeading
    simp only [Builder.content, isThere, Bool.false_eq_true, if_false]
    generalize isNode : builder.child readings titleRoot block.kind.representation
      (strip block.text) _ block.page _ = node
    refine ⟨node, ?_, ?_, ?_, ?_, ?_, ?_⟩
    · rw [Builder.opening, if_neg isHeading, isClosed]
    · rw [isClosed, ← isNode]
      exact isChild_child _ _ _ _ _ _
    · rw [isClosed, ← isNode]
      rfl
    · rw [Represents, if_neg isHeading, ← isNode]
      exact ⟨rfl, rfl⟩
    · rw [← isNode]
      rfl
    · rw [← isNode]
      rfl

section Closed

variable (builder : Builder) (block : Block)

@[simp] theorem closed_nodes : (builder.closed block).nodes = builder.nodes := by
  rw [Builder.closed]
  split <;> rfl

@[simp] theorem closed_bottom : (builder.closed block).bottom = builder.bottom := by
  rw [Builder.closed]
  split <;> rfl

@[simp] theorem closed_ordinals : (builder.closed block).ordinals = builder.ordinals := by
  rw [Builder.closed]
  split <;> rfl

@[simp] theorem closed_pageSpan : (builder.closed block).pageSpan = builder.pageSpan := by
  rw [Builder.closed]
  split <;> rfl

theorem closed_stack_suffix : (builder.closed block).stack <:+ builder.stack := by
  rw [Builder.closed]
  split
  · obtain ⟨shut, isShut⟩ := dropWhile_suffix (l := builder.opened)
      fun entry : Int × Node => block.headingLevel ≤ entry.1
    exact ⟨shut, by rw [Builder.stack, Builder.stack, ← isShut, append_assoc]; rfl⟩
  · exact suffix_rfl

end Closed

def IsParent (nodes : List Node) (parent id : String) : Prop :=
  ∃ node ∈ nodes, node.nodeId = id ∧ node.parentId = some parent

/-- What stands in a section, or in a section that stands in it. -/
def Under (nodes : List Node) : String → String → Prop := Relation.TransGen (IsParent nodes)

variable {nodes : List Node} {node : Node} {id : String}

theorem isParent_append {parent : String}
    (isChild : node.parentId = some parent) {other : String} :
    IsParent (nodes ++ [node]) other id ↔
      IsParent nodes other id ∨ node.nodeId = id ∧ other = parent := by
  simp only [IsParent, mem_append, mem_singleton]
  constructor
  · intro ⟨found, isOne, isId, isOther⟩
    rcases isOne with isOld | rfl
    · exact .inl ⟨found, isOld, isId, isOther⟩
    · rw [isChild, Option.some.injEq] at isOther
      exact .inr ⟨isId, isOther.symm⟩
  · intro linked
    rcases linked with ⟨found, isOld, isId, isOther⟩ | ⟨isId, rfl⟩
    · exact ⟨found, .inl isOld, isId, isOther⟩
    · exact ⟨node, .inr rfl, isId, isChild⟩

section Append

variable {nodes : List Node} {node : Node} {parent : String}

theorem isParent_append_of_ne (isChild : node.parentId = some parent)
    (differs : node.nodeId ≠ id) (other : String) :
    IsParent (nodes ++ [node]) other id ↔ IsParent nodes other id := by
  rw [isParent_append isChild]
  exact or_iff_left fun isNew => differs isNew.1

theorem under_append_of_mem (isChild : node.parentId = some parent)
    (isNew : node.nodeId ∉ ids nodes)
    (known : ∀ other ∈ nodes, ∀ above ∈ other.parentId, above ∈ ids nodes)
    (isOld : id ∈ ids nodes) (above : String) :
    Under (nodes ++ [node]) above id ↔ Under nodes above id := by
  constructor
  · intro under
    induction under with
    | single isLink =>
      have differs : node.nodeId ≠ _ := fun same => isNew (same ▸ isOld)
      exact .single ((isParent_append_of_ne isChild differs above).mp isLink)
    | tail _ isLink ih =>
      have differs : node.nodeId ≠ _ := fun same => isNew (same ▸ isOld)
      have link := (isParent_append_of_ne isChild differs _).mp isLink
      obtain ⟨found, isFound, -, isAbove⟩ := link
      exact (ih (known found isFound _ isAbove)).tail
        ((isParent_append_of_ne isChild differs _).mp isLink)
  · intro under
    exact Relation.TransGen.mono (fun _ _ isLink => (isParent_append isChild).mpr (.inl isLink))
      above id under

end Append

def childrenOf (nodes : List Node) (id : String) : List Node :=
  nodes.filter fun node => node.parentId = some id

def Builder.path (builder : Builder) : List String := builder.stack.map fun entry => entry.2.nodeId

theorem Builder.path_eq (builder : Builder) :
    ∃ above, builder.path = builder.parent.nodeId :: above := by
  rw [Builder.path, Builder.stack, Builder.parent]
  cases builder.opened with
  | nil => exact ⟨[], rfl⟩
  | cons entry rest => exact ⟨_, rfl⟩

def Descends (nodes : List Node) : Prop :=
  ∀ (i : Nat) (node : Node), nodes[i]? = some node → 0 < i →
    ∃ (j : Nat) (parent : Node), j < i ∧ nodes[j]? = some parent ∧
      node.parentId = some parent.nodeId ∧ node.depth = parent.depth + 1

theorem Descends.append {parent : Node} (descends : Descends nodes)
    (member : parent ∈ nodes) (isChild : node.parentId = some parent.nodeId)
    (deeper : node.depth = parent.depth + 1) : Descends (nodes ++ [node]) := by
  intro i found isFound notFirst
  rcases Nat.lt_or_ge i nodes.length with isOld | isNew
  · rw [getElem?_append_left isOld] at isFound
    obtain ⟨j, above, before, isAbove, linked⟩ := descends i found isFound notFirst
    exact ⟨j, above, before, getElem?_append_left (Nat.lt_trans before isOld) ▸ isAbove, linked⟩
  · rw [getElem?_append_right isNew] at isFound
    obtain ⟨j, within, isAbove⟩ := mem_iff_getElem.mp member
    have isNode : found = node := by
      have single := mem_of_getElem? isFound
      exact mem_singleton.mp single
    refine ⟨j, parent, Nat.lt_of_lt_of_le within isNew, ?_, isNode ▸ isChild, isNode ▸ deeper⟩
    rw [getElem?_append_left within, getElem?_eq_getElem within, isAbove]

/-- The nodes that were made of blocks, on the document's own. -/
structure Builder.Shaped (readings : Readings) (titleRoot : Text) (builder : Builder)
    (pairs : List (Block × Node)) : Prop where
  nodesEq : builder.nodes = root readings titleRoot :: pairs.map Prod.snd
  bottom : builder.bottom.2 = root readings titleRoot
  stacked : ∀ entry ∈ builder.stack, entry.2 ∈ builder.nodes
  isPath : IsPath (IsParent builder.nodes) builder.path
  apart : builder.path.Nodup
  descends : Descends builder.nodes
  counted : ∀ id ∈ ids builder.nodes,
    (childrenOf builder.nodes id).map (fun node => node.ordinal) = List.range (builder.ordinals id)
  represents : ∀ pair ∈ pairs, Represents pair.1 pair.2 ∧
    pair.2.pageStart = pair.1.page ∧ pair.2.pageEnd = pair.1.page

section Grows

variable {builder next : Builder} {block : Block} {node : Node} {pairs : List (Block × Node)}

theorem Builder.Sound.closed (sound : builder.Sound readings) (block : Block) :
    (builder.closed block).Sound readings := by
  rw [Builder.closed]
  split
  · exact sound.popped _
  · exact sound

section

variable (grown : Grown readings builder block node next)
include grown

theorem Grown.stack_eq :
    next.stack = (builder.closed block).stack ∨
      next.stack = (block.headingLevel, node) :: (builder.closed block).stack := by
  rw [grown.nextEq, Builder.opening]
  split
  · exact .inr rfl
  · exact .inl rfl

theorem Grown.nodesEq :
    next.nodes = builder.nodes ++ [node] := by
  rw [grown.nextEq, ← closed_nodes builder block, Builder.opening]
  split <;> rfl

theorem Grown.ordinals_eq :
    next.ordinals = ((builder.closed block).add node).ordinals := by
  rw [grown.nextEq, Builder.opening]
  split <;> rfl

theorem Grown.pageSpan_eq :
    next.pageSpan = ((builder.closed block).add node).pageSpan := by
  rw [grown.nextEq, Builder.opening]
  split <;> rfl

theorem Grown.sound (sound : builder.Sound readings) (injective : readings.fresh.Injective) :
    next.Sound readings := by
  have added := grown.isChild.add_sound (sound.closed block) injective
  have isNext := grown.stack_eq
  rw [grown.nextEq, Builder.opening] at isNext ⊢
  split
  · next isHeading =>
      refine added.restacked fun entry member => ?_
      rcases mem_cons.mp member with rfl | isOld
      · exact (ids_append (builder.closed block).nodes node).symm ▸
          mem_append_right _ (mem_singleton_self _)
      · exact added.stacked entry isOld
  · exact added

theorem Grown.isNew (sound : builder.Sound readings) (injective : readings.fresh.Injective) :
    node.nodeId ∉ ids builder.nodes := by
  rw [grown.isChild.drawn, closed_nodes]
  exact sound.fresh_notMem injective

end

theorem Builder.Sound.closed_parent_mem (sound : builder.Sound readings) (block : Block) :
    (builder.closed block).parent.nodeId ∈ ids builder.nodes := by
  have member := (sound.closed block).parent_mem
  rwa [closed_nodes] at member

theorem Grown.childrenOf_eq (grown : Grown readings builder block node next) (id : String) :
    childrenOf next.nodes id = childrenOf builder.nodes id ++
      if (builder.closed block).parent.nodeId = id then [node] else [] := by
  rw [grown.nodesEq, childrenOf, childrenOf, filter_append, filter_singleton, grown.isChild.child]
  simp only [Option.some.injEq, Bool.cond_decide]

theorem childrenOf_of_notMem (sound : builder.Sound readings)
    (isNew : id ∉ ids builder.nodes) : childrenOf builder.nodes id = [] := by
  refine filter_eq_nil_iff.mpr fun other member isParent => ?_
  exact isNew (sound.parents other member id (of_decide_eq_true isParent))

theorem Grown.counted (grown : Grown readings builder block node next)
    (sound : builder.Sound readings) (injective : readings.fresh.Injective)
    (counted : ∀ id ∈ ids builder.nodes, (childrenOf builder.nodes id).map
      (fun node => node.ordinal) = List.range (builder.ordinals id)) :
    ∀ id ∈ ids next.nodes, (childrenOf next.nodes id).map (fun node => node.ordinal) =
      List.range (next.ordinals id) := by
  have isNew := grown.isNew sound injective
  have isParent := sound.closed_parent_mem block
  intro id member
  rw [grown.nodesEq, ids_append, mem_append, mem_singleton] at member
  rw [grown.childrenOf_eq, grown.ordinals_eq]
  by_cases isOwn : (builder.closed block).parent.nodeId = id
  · rw [if_pos isOwn, map_append, counted id (isOwn ▸ isParent), ← isOwn,
      grown.isChild.ordinals_parent (sound.closed block) injective, range_succ,
      map_singleton, grown.isChild.counted, closed_ordinals]
  · rw [if_neg isOwn, append_nil]
    rcases member with isOld | rfl
    · have differs : id ≠ node.nodeId := fun same => isNew (same ▸ isOld)
      have isSame : ((builder.closed block).add node).ordinals id = builder.ordinals id := by
        simp only [Builder.add, Function.update_of_ne differs,
          Function.update_of_ne (Ne.symm isOwn), closed_ordinals]
      rw [counted id isOld, isSame]
    · have isFirst : ((builder.closed block).add node).ordinals node.nodeId = 0 :=
        Function.update_self _ _ _
      rw [childrenOf_of_notMem sound isNew, isFirst]
      rfl

theorem closed_path_suffix (builder : Builder) (block : Block) :
    (builder.closed block).path <:+ builder.path :=
  (closed_stack_suffix builder block).map _

theorem Builder.Sound.path_subset (sound : builder.Sound readings) :
    builder.path ⊆ ids builder.nodes := by
  intro id member
  obtain ⟨entry, isOpen, rfl⟩ := mem_map.mp member
  exact sound.stacked entry isOpen

variable (grown : Grown readings builder block node next)
include grown

theorem Grown.isPath_own (sound : builder.Sound readings) (injective : readings.fresh.Injective)
    (isPath : IsPath (IsParent builder.nodes) builder.path) :
    IsPath (IsParent next.nodes) (node.nodeId :: (builder.closed block).path) := by
  have isNew := grown.isNew sound injective
  have closed : IsPath (IsParent next.nodes) (builder.closed block).path := by
    refine (isPath.suffix (closed_path_suffix builder block)).congr fun id member other => ?_
    have isOld := sound.path_subset ((closed_path_suffix builder block).subset member)
    rw [grown.nodesEq]
    exact isParent_append_of_ne grown.isChild.child (fun same => isNew (same ▸ isOld)) other
  obtain ⟨above, isAbove⟩ := (builder.closed block).path_eq
  rw [isAbove] at closed ⊢
  refine closed.cons fun other => ?_
  rw [grown.nodesEq, isParent_append grown.isChild.child]
  refine ⟨fun linked => ?_, fun same => .inr ⟨rfl, same⟩⟩
  rcases linked with ⟨found, isFound, isId, -⟩ | ⟨-, same⟩
  · exact absurd (mem_map.mpr ⟨found, isFound, isId⟩) isNew
  · exact same

theorem Grown.path_eq :
    next.path = (builder.closed block).path ∨
      next.path = node.nodeId :: (builder.closed block).path := by
  rcases grown.stack_eq with same | opened
  · exact .inl (congrArg (List.map fun entry : Int × Node => entry.2.nodeId) same)
  · exact .inr (congrArg (List.map fun entry : Int × Node => entry.2.nodeId) opened)

theorem Grown.isPath (sound : builder.Sound readings) (injective : readings.fresh.Injective)
    (isPath : IsPath (IsParent builder.nodes) builder.path) :
    IsPath (IsParent next.nodes) next.path := by
  have own := grown.isPath_own sound injective isPath
  rcases grown.path_eq with same | opened
  · exact same ▸ own.tail
  · exact opened ▸ own

theorem Grown.apart (sound : builder.Sound readings) (injective : readings.fresh.Injective)
    (apart : builder.path.Nodup) : next.path.Nodup := by
  have isSuffix := closed_path_suffix builder block
  have closed := apart.sublist isSuffix.sublist
  rcases grown.path_eq with same | opened
  · exact same ▸ closed
  · rw [opened]
    refine nodup_cons.mpr ⟨fun member => ?_, closed⟩
    exact grown.isNew sound injective (sound.path_subset (isSuffix.subset member))

theorem Grown.bottom_eq :
    next.bottom = builder.bottom := by
  rw [grown.nextEq, ← closed_bottom builder block, Builder.opening]
  split <;> rfl

theorem Grown.shaped (sound : builder.Sound readings) (injective : readings.fresh.Injective)
    (shaped : builder.Shaped readings titleRoot pairs) :
    next.Shaped readings titleRoot (pairs ++ [(block, node)]) where
  nodesEq := by
    rw [grown.nodesEq, shaped.nodesEq, map_append]
    rfl
  bottom := grown.bottom_eq ▸ shaped.bottom
  stacked entry member := by
    have known : ∀ entry ∈ (builder.closed block).stack, entry.2 ∈ builder.nodes :=
      fun entry isOpen => shaped.stacked entry ((closed_stack_suffix builder block).subset isOpen)
    rw [grown.nodesEq]
    rcases grown.stack_eq with same | opened
    · exact mem_append_left _ (known entry (same ▸ member))
    · rw [opened] at member
      rcases mem_cons.mp member with rfl | isOld
      · exact mem_append_right _ (mem_singleton_self _)
      · exact mem_append_left _ (known entry isOld)
  isPath := grown.isPath sound injective shaped.isPath
  apart := grown.apart sound injective shaped.apart
  descends := by
    obtain ⟨entry, member, isParent⟩ := mem_stack_parent (builder.closed block)
    have known := shaped.stacked entry ((closed_stack_suffix builder block).subset member)
    rw [grown.nodesEq]
    exact shaped.descends.append (isParent ▸ known) grown.isChild.child grown.depth
  counted := grown.counted sound injective shaped.counted
  represents pair member := by
    rcases mem_append.mp member with isOld | isNew
    · exact shaped.represents pair isOld
    · rw [mem_singleton.mp isNew]
      exact ⟨grown.represents, grown.pageStart, grown.pageEnd⟩

end Grows

theorem grown_induction (injective : readings.fresh.Injective)
    {keeps : Builder → List (Block × Node) → Prop}
    (step : ∀ {builder next : Builder} {block : Block} {node : Node} {pairs},
      builder.Sound readings → keeps builder pairs → Grown readings builder block node next →
        keeps next (pairs ++ [(block, node)])) :
    ∀ {blocks : List Block} {builder : Builder} {pairs : List (Block × Node)},
      builder.Sound readings → keeps builder pairs →
      (∀ block ∈ blocks, block.makesNode = true) →
      (builder.nodes.length = 1 → ∀ block ∈ blocks.head?, block.isTitle titleRoot = false) →
      ∃ later, keeps (blocks.foldl (Builder.block readings titleRoot) builder) (pairs ++ later) ∧
        (blocks.foldl (Builder.block readings titleRoot) builder).Sound readings ∧
        later.map Prod.fst = blocks := by
  intro blocks
  induction blocks with
  | nil =>
    intro builder pairs sound isKept _ _
    exact ⟨[], by rwa [append_nil], sound, rfl⟩
  | cons block rest ih =>
    intro builder pairs sound isKept make noTitle
    obtain ⟨node, grown⟩ := block_grown readings (make block mem_cons_self) fun isTitle isOnly => by
        rw [noTitle isOnly block rfl] at isTitle
        cases isTitle
    have isLonger : (builder.block readings titleRoot block).nodes.length ≠ 1 := by
      have isThere := sound.nodes_pos
      rw [grown.nodesEq, length_append, length_singleton]
      omega
    obtain ⟨later, isKeptLater, soundLater, isRest⟩ :=
      ih (grown.sound sound injective) (step sound isKept grown)
        (fun other member => make other (mem_cons_of_mem block member))
        fun isOnly => absurd isOnly isLonger
    refine ⟨(block, node) :: later, ?_, soundLater, by rw [map_cons, isRest]⟩
    rwa [append_assoc] at isKeptLater

def Builder.openedAt (readings : Readings) (titleRoot : Text) (level : Int) : Builder :=
  { Builder.start readings titleRoot with bottom := (level, root readings titleRoot) }

variable (readings titleRoot) in
theorem opening_fold (blocks : List Block)
    (isOpening : ∀ block ∈ blocks, block.isOpening titleRoot = true) :
    ∀ level, ∃ after, blocks.foldl (Builder.block readings titleRoot)
      (Builder.openedAt readings titleRoot level) = Builder.openedAt readings titleRoot after := by
  induction blocks with
  | nil =>
    intro level
    exact ⟨level, rfl⟩
  | cons block rest ih =>
    intro level
    have isFirst := isOpening block mem_cons_self
    have isRest := ih fun other member => isOpening other (mem_cons_of_mem block member)
    rw [foldl_cons, Builder.block]
    by_cases isHeading : block.kind = .heading
    · have isTitle : block.headingLevel = 1 ∧ strip block.text = titleRoot := by
        simpa [Block.isOpening, Block.isTitle, Block.makesNode, isHeading] using isFirst
      have isSame : (Builder.openedAt readings titleRoot level).heading readings titleRoot
          block = Builder.openedAt readings titleRoot 1 := by
        simp only [Builder.heading]
        exact if_pos ⟨isTitle.1, rfl, isTitle.2⟩
      rw [if_pos isHeading, isSame]
      exact isRest 1
    · have isBlank : (strip block.text).isEmpty = true := by
        simpa [Block.isOpening, Block.isTitle, Block.makesNode, isHeading] using isFirst
      have isSame : (Builder.openedAt readings titleRoot level).content readings titleRoot
          block = Builder.openedAt readings titleRoot level := by
        simp only [Builder.content, isBlank, if_true]
      rw [if_neg isHeading, isSame]
      exact isRest level

theorem filter_fold (blocks : List Block) : ∀ builder : Builder,
    blocks.foldl (Builder.block readings titleRoot) builder =
      (blocks.filter Block.makesNode).foldl (Builder.block readings titleRoot) builder := by
  induction blocks with
  | nil => exact fun _ => rfl
  | cons block rest ih =>
    intro builder
    rw [foldl_cons, ih]
    cases makes : block.makesNode with
    | true => rw [filter_cons_of_pos makes, foldl_cons]
    | false =>
      obtain ⟨noHeading, isBlank⟩ : block.kind ≠ .heading ∧ (strip block.text).isEmpty = true := by
        simpa [Block.makesNode] using makes
      rw [filter_cons_of_neg (by rw [makes]; exact Bool.false_ne_true), Builder.block,
        if_neg noHeading]
      simp only [Builder.content, isBlank, if_true]

variable (readings titleRoot) in
theorem made_fold (blocks : List Block) : ∃ level,
    blocks.foldl (Builder.block readings titleRoot) (Builder.start readings titleRoot) =
      (made titleRoot blocks).foldl (Builder.block readings titleRoot)
        (Builder.openedAt readings titleRoot level) := by
  obtain ⟨level, isOpened⟩ := opening_fold readings titleRoot
    (blocks.takeWhile (Block.isOpening titleRoot)) (fun block member =>
      (mem_takeWhile_imp member)) 0
  refine ⟨level, ?_⟩
  conv_lhs => rw [← takeWhile_append_dropWhile (p := Block.isOpening titleRoot) (l := blocks)]
  rw [foldl_append, filter_fold (blocks.dropWhile _), made, ← isOpened]
  rfl

theorem made_makes (titleRoot : Text) (blocks : List Block) :
    ∀ block ∈ made titleRoot blocks, block.makesNode = true :=
  fun _ member => (mem_filter.mp member).2

theorem made_head (titleRoot : Text) (blocks : List Block) :
    ∀ block ∈ (made titleRoot blocks).head?, block.isTitle titleRoot = false := by
  intro block isHead
  rw [made] at isHead
  cases isRest : blocks.dropWhile (Block.isOpening titleRoot) with
  | nil =>
    rw [isRest] at isHead
    cases isHead
  | cons first rest =>
    have notOpening : first.isOpening titleRoot = false := by
      have isFirst := head?_dropWhile_not (Block.isOpening titleRoot) blocks
      rw [isRest] at isFirst
      simpa using isFirst
    rw [Block.isOpening, Bool.or_eq_false_iff, Bool.not_eq_false'] at notOpening
    rw [isRest, filter_cons_of_pos notOpening.2] at isHead
    cases isHead
    exact notOpening.1

theorem openedAt_sound (level : Int) :
    (Builder.openedAt readings titleRoot level).Sound readings := by
  refine start_sound.restacked fun entry member => ?_
  rw [mem_singleton.mp member]
  exact mem_singleton_self _

theorem openedAt_shaped (level : Int) :
    (Builder.openedAt readings titleRoot level).Shaped readings titleRoot [] where
  nodesEq := rfl
  bottom := rfl
  stacked entry member := by
    rw [mem_singleton.mp member]
    exact mem_singleton_self _
  isPath other linked := by
    obtain ⟨node, member, -, isParent⟩ := linked
    rw [mem_singleton.mp member] at isParent
    cases isParent
  apart := nodup_singleton _
  descends i node isNode notFirst := by
    cases i with
    | zero => exact absurd notFirst (Nat.lt_irrefl 0)
    | succ i => cases isNode
  counted _ _ := rfl
  represents := by simp

end MemoryService.Ingestion
