import MemoryService.Ingestion.ContextGraph

/-!
# The tree that is built

Ids are distinct, a parent is a node, and siblings are counted up.  A section has no more leaves
once it has a section in it.
-/

namespace MemoryService.Ingestion

open List

open Rag (strip)

def ids (nodes : List Node) : List String := nodes.map fun node => node.nodeId

structure Place where
  text : Text
  page : Int
  ordinal : Nat
  section_ : Nat

/-- The places of the blocks of text. -/
def places : Nat → Nat → List Block → List Place
  | _, _, [] => []
  | section_, ordinal, block :: rest =>
    if block.kind = .heading then places (section_ + 1) 0 rest
    else if (strip block.text).isEmpty then places section_ ordinal rest
    else
      { text := strip block.text, page := block.page.getD 0, ordinal, section_ } ::
        places section_ (ordinal + 1) rest

def Stands (pair : Node × Place) : Prop :=
  pair.1.text = pair.2.text ∧ pair.1.page = pair.2.page ∧ pair.1.ordinal = pair.2.ordinal

def Follow (pair later : Node × Place) : Prop :=
  pair.2.section_ ≤ later.2.section_ ∧
    (pair.1.parentId = later.1.parentId ↔ pair.2.section_ = later.2.section_)

/-- What is said of the nodes of a document whose blocks of text have these places. -/
structure Tree (nodes : List Node) (standing : List Place) : Prop where
  distinct : (ids nodes).Nodup
  parents : ∀ node ∈ nodes, ∀ parent ∈ node.parentId, parent ∈ ids nodes
  rising : nodes.Pairwise fun node later =>
    node.parentId = later.parentId → node.ordinal < later.ordinal
  stands : ∃ paired : List (Node × Place), nodes.filter Node.isLeaf = paired.map Prod.fst ∧
    paired.map Prod.snd = standing ∧ (∀ pair ∈ paired, Stands pair) ∧ paired.Pairwise Follow

variable {readings : Readings} {titleRoot : Text}

/-- The nodes so far, the open sections among them, and the count of children. -/
structure Builder.Sound (readings : Readings) (builder : Builder) : Prop where
  drawn : ids builder.nodes = (List.range builder.nodes.length).map readings.fresh
  parents : ∀ node ∈ builder.nodes, ∀ parent ∈ node.parentId, parent ∈ ids builder.nodes
  stacked : ∀ entry ∈ builder.stack, entry.2.nodeId ∈ ids builder.nodes
  rising : builder.nodes.Pairwise fun node later =>
    node.parentId = later.parentId → node.ordinal < later.ordinal
  counted : ∀ node ∈ builder.nodes, ∀ parent ∈ node.parentId, node.ordinal < builder.ordinals parent

theorem mem_stack_parent (builder : Builder) :
    ∃ entry ∈ builder.stack, entry.2 = builder.parent := by
  cases isOpen : builder.opened with
  | nil => exact ⟨builder.bottom, by simp [Builder.stack], by simp [Builder.parent, isOpen]⟩
  | cons entry rest =>
    exact ⟨entry, by simp [Builder.stack, isOpen], by simp [Builder.parent, isOpen]⟩

variable {builder : Builder} {node : Node} {section_ ordinal : Nat} {paired : List (Node × Place)}

section

variable (sound : builder.Sound readings)
include sound

theorem Builder.Sound.parent_mem : builder.parent.nodeId ∈ ids builder.nodes := by
  obtain ⟨entry, member, isParent⟩ := mem_stack_parent builder
  exact isParent ▸ sound.stacked entry member

theorem Builder.Sound.fresh_notMem (injective : readings.fresh.Injective) :
    readings.fresh builder.nodes.length ∉ ids builder.nodes := by
  rw [sound.drawn]
  intro member
  obtain ⟨k, small, same⟩ := mem_map.mp member
  have isLength := injective same
  have := mem_range.mp small
  omega

theorem Builder.Sound.distinct
    (injective : readings.fresh.Injective) : (ids builder.nodes).Nodup := by
  rw [sound.drawn]
  exact nodup_range.map injective

theorem Builder.Sound.restacked {opened : List (Int × Node)} {bottom : Int × Node}
    (known : ∀ entry ∈ opened ++ [bottom], entry.2.nodeId ∈ ids builder.nodes) :
    { builder with opened, bottom }.Sound readings where
  drawn := sound.drawn
  parents := sound.parents
  stacked := known
  rising := sound.rising
  counted := sound.counted

theorem Builder.Sound.popped (level : Int) : (builder.popped level).Sound readings := by
  refine sound.restacked fun entry member => sound.stacked entry ?_
  rcases mem_append.mp member with isOpen | isBottom
  · exact mem_append_left _ ((dropWhile_sublist _).subset isOpen)
  · exact mem_append_right _ isBottom

end

theorem ids_append (nodes : List Node) (node : Node) :
    ids (nodes ++ [node]) = ids nodes ++ [node.nodeId] := map_append

/-- A child of the section that is open last. -/
structure Builder.IsChild (readings : Readings) (builder : Builder) (node : Node) : Prop where
  drawn : node.nodeId = readings.fresh builder.nodes.length
  child : node.parentId = some builder.parent.nodeId
  counted : node.ordinal = builder.ordinals builder.parent.nodeId

theorem isChild_child (builder : Builder) (representation : Representation) (text : Text)
    (title : Option Text) (page : Option Int) (metadata : Metadata) :
    builder.IsChild readings
      (builder.child readings titleRoot representation text title page metadata) :=
  ⟨rfl, rfl, rfl⟩

section Add

variable {builder : Builder} {node : Node}

section

variable (isChild : builder.IsChild readings node)
include isChild

section

variable (sound : builder.Sound readings)
include sound

section

variable (injective : readings.fresh.Injective)
include injective

theorem Builder.IsChild.ordinals_parent
    :
    (builder.add node).ordinals builder.parent.nodeId =
      builder.ordinals builder.parent.nodeId + 1 := by
  have differs : builder.parent.nodeId ≠ node.nodeId := fun same =>
    sound.fresh_notMem injective (isChild.drawn ▸ same ▸ sound.parent_mem)
  simp only [Builder.add, Function.update_of_ne differs, Function.update_self]

theorem Builder.IsChild.ordinals_le
    {id : String}
    (known : id ∈ ids builder.nodes) : builder.ordinals id ≤ (builder.add node).ordinals id := by
  by_cases isParent : id = builder.parent.nodeId
  · rw [isParent, isChild.ordinals_parent sound injective]
    exact Nat.le_succ _
  · have differs : id ≠ node.nodeId := fun same =>
      sound.fresh_notMem injective (isChild.drawn ▸ same ▸ known)
    simp only [Builder.add, Function.update_of_ne differs, Function.update_of_ne isParent,
      Nat.le_refl]

theorem Builder.IsChild.add_sound
    :
    (builder.add node).Sound readings where
  drawn := by
    have isNodes : (builder.add node).nodes = builder.nodes ++ [node] := rfl
    rw [isNodes, ids_append, sound.drawn, length_append, length_singleton,
      range_succ, map_append, isChild.drawn]
    rfl
  parents other member parent isParent := by
    have isIds : ids (builder.add node).nodes = ids builder.nodes ++ [node.nodeId] :=
      ids_append builder.nodes node
    rw [isIds]
    refine mem_append_left _ ?_
    rcases mem_append.mp member with isOld | isNew
    · exact sound.parents other isOld parent isParent
    · rw [mem_singleton.mp isNew, isChild.child] at isParent
      exact Option.some.inj isParent ▸ sound.parent_mem
  stacked entry member := by
    have isIds : ids (builder.add node).nodes = ids builder.nodes ++ [node.nodeId] :=
      ids_append builder.nodes node
    exact isIds ▸ mem_append_left _ (sound.stacked entry member)
  rising := by
    refine pairwise_append.mpr ⟨sound.rising, pairwise_singleton _ _, ?_⟩
    intro other isOld last isNew same
    rw [mem_singleton.mp isNew] at same ⊢
    rw [isChild.counted]
    exact sound.counted other isOld _ (same.trans isChild.child)
  counted other member parent isParent := by
    rcases mem_append.mp member with isOld | isNew
    · have known := sound.parents other isOld parent isParent
      exact Nat.lt_of_lt_of_le (sound.counted other isOld parent isParent)
        (isChild.ordinals_le sound injective known)
    · rw [mem_singleton.mp isNew] at isParent ⊢
      rw [isChild.child] at isParent
      rw [← Option.some.inj isParent, isChild.ordinals_parent sound injective, isChild.counted]
      exact Nat.lt_succ_self _

end

end

end

end Add

/-- The leaves so far with their places, up to so many headings and leaves since the last. -/
structure Builder.Paired (builder : Builder) (section_ ordinal : Nat)
    (paired : List (Node × Place)) : Prop where
  leaves : builder.nodes.filter Node.isLeaf = paired.map Prod.fst
  stand : ∀ pair ∈ paired, Stands pair
  follow : paired.Pairwise Follow
  current : ∀ pair ∈ paired, pair.2.section_ ≤ section_ ∧
    (pair.1.parentId = some builder.parent.nodeId ↔ pair.2.section_ = section_)
  counted : builder.ordinals builder.parent.nodeId = ordinal
  lone : builder.nodes.length ≤ 1 → builder.opened = [] ∧ ordinal = 0 ∧ paired = []

theorem Builder.Sound.nodes_pos (sound : builder.Sound readings) : 0 < builder.nodes.length := by
  have member := sound.parent_mem
  have nonempty := length_pos_of_mem member
  rwa [ids, length_map] at nonempty

section Child

variable {builder : Builder} {node : Node} {section_ ordinal : Nat}
  {paired : List (Node × Place)}

theorem filter_append_leaf (nodes : List Node) (isLeaf : node.isLeaf = true) :
    (nodes ++ [node]).filter Node.isLeaf = nodes.filter Node.isLeaf ++ [node] := by
  rw [filter_append, filter_cons_of_pos isLeaf, filter_nil]

theorem filter_append_other (nodes : List Node) (isOther : node.isLeaf = false) :
    (nodes ++ [node]).filter Node.isLeaf = nodes.filter Node.isLeaf := by
  rw [filter_append, filter_cons_of_neg (by rw [isOther]; exact Bool.false_ne_true),
    filter_nil, append_nil]

theorem Builder.IsChild.opens (isChild : builder.IsChild readings node)
    (sound : builder.Sound readings) (injective : readings.fresh.Injective)
    (isOther : node.isLeaf = false)
    (leaves : builder.nodes.filter Node.isLeaf = paired.map Prod.fst)
    (stand : ∀ pair ∈ paired, Stands pair) (follow : paired.Pairwise Follow)
    (early : ∀ pair ∈ paired, pair.2.section_ ≤ section_) (level : Int) :
    { builder.add node with opened := (level, node) :: builder.opened }.Sound readings ∧
      { builder.add node with opened := (level, node) :: builder.opened }.Paired
        (section_ + 1) 0 paired := by
  have added := isChild.add_sound sound injective
  have isIds : ids (builder.add node).nodes = ids builder.nodes ++ [node.nodeId] :=
    ids_append builder.nodes node
  refine ⟨added.restacked fun entry member => ?_, ?_, stand, follow, ?_, ?_, ?_⟩
  · rcases mem_cons.mp member with rfl | isOld
    · exact isIds ▸ mem_append_right _ (mem_singleton_self _)
    · exact added.stacked entry isOld
  · exact (filter_append_other builder.nodes isOther).trans leaves
  · intro pair member
    refine ⟨Nat.le_succ_of_le (early pair member), ?_, fun same => ?_⟩
    · intro isParent
      have isLeaf : pair.1 ∈ builder.nodes.filter Node.isLeaf := leaves ▸ mem_map_of_mem member
      have known := sound.parents pair.1 (mem_filter.mp isLeaf).1 _ isParent
      have isNew : node.nodeId ∈ ids builder.nodes := known
      exact absurd (isChild.drawn ▸ isNew) (sound.fresh_notMem injective)
    · have := early pair member
      omega
  · exact Function.update_self _ _ _
  · intro few
    have isLength : (builder.nodes ++ [node]).length ≤ 1 := few
    have := sound.nodes_pos
    rw [length_append, length_singleton] at isLength
    omega

theorem Builder.IsChild.stands (isChild : builder.IsChild readings node)
    (sound : builder.Sound readings) (injective : readings.fresh.Injective)
    (isLeaf : node.isLeaf = true) (isPaired : builder.Paired section_ ordinal paired) :
    (builder.add node).Paired section_ (ordinal + 1)
      (paired ++ [(node, { text := node.text, page := node.page, ordinal, section_ })]) := by
  have sameParent : (builder.add node).parent = builder.parent := rfl
  refine ⟨?_, ?_, ?_, ?_, ?_, ?_⟩
  · refine (filter_append_leaf builder.nodes isLeaf).trans ?_
    rw [isPaired.leaves, map_append]
    rfl
  · intro pair member
    rcases mem_append.mp member with isOld | isNew
    · exact isPaired.stand pair isOld
    · rw [mem_singleton.mp isNew]
      exact ⟨rfl, rfl, isChild.counted.trans isPaired.counted⟩
  · refine pairwise_append.mpr ⟨isPaired.follow, pairwise_singleton _ _, ?_⟩
    intro pair isOld last isNew
    obtain ⟨early, isCurrent⟩ := isPaired.current pair isOld
    rw [mem_singleton.mp isNew]
    exact ⟨early, isChild.child ▸ isCurrent⟩
  · intro pair member
    rw [sameParent]
    rcases mem_append.mp member with isOld | isNew
    · exact isPaired.current pair isOld
    · rw [mem_singleton.mp isNew]
      exact ⟨Nat.le_refl _, fun _ => rfl, fun _ => isChild.child⟩
  · rw [sameParent, isChild.ordinals_parent sound injective, isPaired.counted]
  · intro few
    have isLength : (builder.nodes ++ [node]).length ≤ 1 := few
    have := sound.nodes_pos
    rw [length_append, length_singleton] at isLength
    omega

end Child

variable (titleRoot) in
theorem heading_spec (sound : builder.Sound readings) (injective : readings.fresh.Injective)
    (isPaired : builder.Paired section_ ordinal paired)
    (block : Block) :
    (builder.heading readings titleRoot block).Sound readings ∧
      (builder.heading readings titleRoot block).Paired (section_ + 1) 0 paired := by
  simp only [Builder.heading]
  split
  · next isTitle =>
      obtain ⟨isOpen, isFirst, isNone⟩ := isPaired.lone (Nat.le_of_eq isTitle.2.1)
      have isParent : builder.parent = builder.bottom.2 := by
        rw [Builder.parent, isOpen, head?_nil, Option.getD_none]
      refine ⟨sound.restacked fun entry member => ?_, ?_⟩
      · rw [nil_append, mem_singleton] at member
        rw [member, ← isParent]
        exact sound.parent_mem
      · subst isNone
        exact ⟨isPaired.leaves, by simp, List.Pairwise.nil, by simp,
          (isParent ▸ isPaired.counted).trans isFirst, fun _ => ⟨rfl, rfl, rfl⟩⟩
  · exact (isChild_child _ _ _ _ _ _).opens (sound.popped _) injective rfl isPaired.leaves
      isPaired.stand isPaired.follow (fun pair member => (isPaired.current pair member).1) _

theorem isStructural_representation (kind : BlockKind) :
    kind.representation.isStructural = false := by
  cases kind <;> rfl

variable (titleRoot) in
theorem content_spec (sound : builder.Sound readings) (injective : readings.fresh.Injective)
    (isPaired : builder.Paired section_ ordinal paired)
    {block : Block} (isContent : (strip block.text).isEmpty = false) :
    ∃ node, (builder.content readings titleRoot block).Sound readings ∧
      (builder.content readings titleRoot block).Paired section_ (ordinal + 1) (paired ++
          [(node, { text := strip block.text, page := block.page.getD 0, ordinal, section_ })])
        := by
  simp only [Builder.content, isContent, Bool.false_eq_true, if_false]
  generalize isNode : builder.child readings titleRoot block.kind.representation
    (strip block.text) _ block.page _ = node
  have isChild : builder.IsChild readings node := isNode ▸ isChild_child _ _ _ _ _ _
  have isLeaf : node.isLeaf = true := by
    rw [← isNode, Node.isLeaf]
    simp only [Builder.child, isContent, isStructural_representation, Bool.not_false, Bool.and_self]
  have isText : node.text = strip block.text := by rw [← isNode]; rfl
  have isPage : node.page = block.page.getD 0 := by rw [← isNode]; rfl
  exact ⟨node, isChild.add_sound sound injective,
    isText ▸ isPage ▸ isChild.stands sound injective isLeaf isPaired⟩

variable (titleRoot) in
theorem blocks_spec (injective : readings.fresh.Injective) :
    ∀ {blocks : List Block} {builder : Builder} {section_ ordinal : Nat}
      {paired : List (Node × Place)}, builder.Sound readings →
      builder.Paired section_ ordinal paired →
      ∃ section' ordinal' paired',
        (blocks.foldl (Builder.block readings titleRoot) builder).Sound readings ∧
        (blocks.foldl (Builder.block readings titleRoot) builder).Paired section' ordinal'
          paired' ∧
        paired'.map Prod.snd = paired.map Prod.snd ++ places section_ ordinal blocks := by
  intro blocks
  induction blocks with
  | nil =>
    intro builder section_ ordinal paired sound isPaired
    exact ⟨section_, ordinal, paired, sound, isPaired, (append_nil _).symm⟩
  | cons block rest ih =>
    intro builder section_ ordinal paired sound isPaired
    rw [foldl_cons, places, Builder.block]
    by_cases isHeading : block.kind = .heading
    · rw [if_pos isHeading, if_pos isHeading]
      obtain ⟨soundNext, pairedNext⟩ := heading_spec titleRoot sound injective isPaired block
      exact ih soundNext pairedNext
    · rw [if_neg isHeading, if_neg isHeading]
      cases isContent : (strip block.text).isEmpty with
      | true =>
        have same : builder.content readings titleRoot block = builder := by
          simp only [Builder.content, isContent, if_true]
        rw [same, if_pos rfl]
        exact ih sound isPaired
      | false =>
        obtain ⟨node, soundNext, pairedNext⟩ :=
          content_spec titleRoot sound injective isPaired isContent
        obtain ⟨section', ordinal', paired', isSound, isPaired', isPlaces⟩ :=
          ih soundNext pairedNext
        refine ⟨section', ordinal', paired', isSound, isPaired', ?_⟩
        rw [isPlaces, map_append, if_neg Bool.false_ne_true, append_assoc]
        rfl

theorem start_sound : (Builder.start readings titleRoot).Sound readings where
  drawn := rfl
  parents node member parent isParent := by
    rw [mem_singleton.mp member] at isParent
    cases isParent
  stacked entry member := by
    rw [mem_singleton.mp member]
    exact mem_singleton_self _
  rising := pairwise_singleton _ _
  counted node member parent isParent := by
    rw [mem_singleton.mp member] at isParent
    cases isParent

theorem start_paired : (Builder.start readings titleRoot).Paired 0 0 [] where
  leaves := rfl
  stand := by simp
  follow := List.Pairwise.nil
  current := by simp
  counted := rfl
  lone _ := ⟨rfl, rfl, rfl⟩

section Paged

variable (builder : Builder) (node : Node)

theorem paged_cases : builder.paged node = node ∨
    node.representation.isStructural = true ∧
      ∃ start stop, builder.paged node = { node with pageStart := start, pageEnd := stop } := by
  rw [Builder.paged]
  cases builder.pageSpan node.nodeId with
  | none => exact .inl rfl
  | some span =>
    cases isStructural : node.representation.isStructural with
    | false => exact .inl (if_neg Bool.false_ne_true)
    | true => exact .inr ⟨rfl, _, _, if_pos rfl⟩

@[simp] theorem paged_nodeId : (builder.paged node).nodeId = node.nodeId := by
  rcases paged_cases builder node with same | ⟨-, start, stop, same⟩ <;> rw [same]

@[simp] theorem paged_parentId : (builder.paged node).parentId = node.parentId := by
  rcases paged_cases builder node with same | ⟨-, start, stop, same⟩ <;> rw [same]

@[simp] theorem paged_ordinal : (builder.paged node).ordinal = node.ordinal := by
  rcases paged_cases builder node with same | ⟨-, start, stop, same⟩ <;> rw [same]

@[simp] theorem paged_isLeaf : (builder.paged node).isLeaf = node.isLeaf := by
  rcases paged_cases builder node with same | ⟨-, start, stop, same⟩ <;> rw [same]
  rfl

theorem paged_leaf (isLeaf : node.isLeaf = true) : builder.paged node = node := by
  rcases paged_cases builder node with same | ⟨isStructural, -⟩
  · exact same
  · rw [Node.isLeaf, isStructural, Bool.not_true, Bool.and_false] at isLeaf
    cases isLeaf

end Paged

theorem filter_paged (builder : Builder) (nodes : List Node) :
    (nodes.map builder.paged).filter Node.isLeaf = nodes.filter Node.isLeaf := by
  induction nodes with
  | nil => rfl
  | cons node rest ih =>
    rw [map_cons, filter_cons, filter_cons, ih, paged_isLeaf]
    split
    · next isLeaf => rw [paged_leaf builder node isLeaf]
    · rfl

theorem buildHierarchy_tree (injective : readings.fresh.Injective) (blocks : List Block) :
    Tree (buildHierarchy readings titleRoot blocks) (places 0 0 blocks) := by
  obtain ⟨section_, ordinal, paired, sound, isPaired, isPlaces⟩ :=
    blocks_spec titleRoot injective start_sound start_paired
  rw [buildHierarchy]
  generalize blocks.foldl (Builder.block readings titleRoot)
    (Builder.start readings titleRoot) = builder at sound isPaired
  have isIds : ids (builder.nodes.map builder.paged) = ids builder.nodes := by
    rw [ids, ids, map_map]
    exact map_congr_left fun node _ => paged_nodeId builder node
  refine ⟨isIds ▸ sound.distinct injective, ?_, ?_, paired, ?_, isPlaces, isPaired.stand,
    isPaired.follow⟩
  · intro node member parent isParent
    obtain ⟨old, isOld, rfl⟩ := mem_map.mp member
    rw [paged_parentId] at isParent
    exact isIds ▸ sound.parents old isOld parent isParent
  · refine pairwise_map.mpr (sound.rising.imp fun rises => ?_)
    rwa [paged_parentId, paged_parentId, paged_ordinal, paged_ordinal]
  · rw [filter_paged, isPaired.leaves]

end MemoryService.Ingestion
