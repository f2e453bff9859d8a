import MemoryService.Foundation.Span
import MemoryService.Ingestion.ReadingOrder
import MemoryService.Ingestion.Sections

/-!
# The pages of a section

A page is noted for every section that is open when a node is made, so a section ranges over the
pages of what stands in it.
-/

namespace MemoryService.Ingestion

open Foundation List
open Rag (strip)

variable {readings : Readings} {titleRoot : Text}

def pagesOf (blocks : List Block) : Set Int := {page | ∃ block ∈ blocks, block.page = some page}

def pagesUnder (nodes : List Node) (id : String) : Set Int :=
  {page | ∃ node ∈ nodes, Under nodes id node.nodeId ∧ node.pageStart = some page}

def notedPage (bounds : Option (Int × Int)) (page : Option Int) : Option (Int × Int) :=
  page.elim bounds (noted bounds)

theorem bounds_notedPage {found others : Set Int} {bounds : Option (Int × Int)}
    (isBounds : Bounds found bounds) {page : Option Int}
    (same : ∀ other, other ∈ others ↔ other ∈ found ∨ page = some other) :
    Bounds others (notedPage bounds page) := by
  cases page with
  | none =>
    have isSame : others = found := by
      ext other
      rw [same other]
      simp
    rw [isSame]
    exact isBounds
  | some page =>
    have isSame : others = insert page found := by
      ext other
      rw [same other, Set.mem_insert_iff, or_comm, Option.some.injEq, eq_comm]
    rw [isSame]
    exact isBounds.insert page

theorem add_pageSpan (builder : Builder) (node : Node) (id : String) :
    (builder.add node).pageSpan id =
      if id ∈ builder.path then notedPage (builder.pageSpan id) node.pageStart
      else builder.pageSpan id := by
  have isOpen : (builder.stack.any fun entry => entry.2.nodeId = id) = true ↔
      id ∈ builder.path := by
    rw [any_eq_true, Builder.path, mem_map]
    simp only [decide_eq_true_eq]
  simp only [Builder.add]
  cases node.pageStart with
  | none =>
    rw [Option.elim_none, notedPage, Option.elim_none]
    exact (ite_self _).symm
  | some page =>
    rw [Option.elim_some, Builder.spanned]
    by_cases member : id ∈ builder.path
    · rw [if_pos member, if_pos (isOpen.mpr member)]
      rfl
    · rw [if_neg member, if_neg fun found => member (isOpen.mp found)]

section Grows

variable {builder next : Builder} {block : Block} {node : Node} {pairs : List (Block × Node)}

section

variable (grown : Grown readings builder block node next)
include grown

theorem Grown.pageSpan_of_mem {id : String} (isOpen : id ∈ (builder.closed block).path) :
    next.pageSpan id = notedPage (builder.pageSpan id) block.page := by
  rw [grown.pageSpan_eq, add_pageSpan, if_pos isOpen, closed_pageSpan, grown.pageStart]

theorem Grown.pageSpan_of_notMem {id : String} (isClosed : id ∉ (builder.closed block).path) :
    next.pageSpan id = builder.pageSpan id := by
  rw [grown.pageSpan_eq, add_pageSpan, if_neg isClosed, closed_pageSpan]

theorem Grown.mem_pagesUnder (sound : builder.Sound readings) (injective : readings.fresh.Injective)
    (isPath : IsPath (IsParent builder.nodes) builder.path) (id : String) (page : Int) :
    page ∈ pagesUnder next.nodes id ↔
      page ∈ pagesUnder builder.nodes id ∨
        id ∈ (builder.closed block).path ∧ block.page = some page := by
  have isNew := grown.isNew sound injective
  have own := grown.isPath_own sound injective isPath
  have isOld : ∀ other ∈ builder.nodes,
      (Under next.nodes id other.nodeId ↔ Under builder.nodes id other.nodeId) := by
    intro other member
    rw [grown.nodesEq]
    exact under_append_of_mem grown.isChild.child isNew sound.parents (mem_map_of_mem member) id
  simp only [pagesUnder, Set.mem_ofPred_eq]
  constructor
  · intro ⟨other, member, under, isPage⟩
    rw [grown.nodesEq] at member
    rcases mem_append.mp member with known | isLast
    · exact .inl ⟨other, known, (isOld other known).mp under, isPage⟩
    · rw [mem_singleton.mp isLast] at under isPage
      exact .inr ⟨own.transGen_iff.mp under, grown.pageStart ▸ isPage⟩
  · intro found
    rcases found with ⟨other, known, under, isPage⟩ | ⟨isOpen, isPage⟩
    · exact ⟨other, grown.nodesEq ▸ mem_append_left _ known, (isOld other known).mpr under, isPage⟩
    · exact ⟨node, grown.nodesEq ▸ mem_append_right _ (mem_singleton_self _),
        own.transGen_iff.mpr isOpen, grown.pageStart ▸ isPage⟩

end

structure Builder.Ranged (readings : Readings) (titleRoot : Text) (builder : Builder)
    (pairs : List (Block × Node)) : Prop extends builder.Shaped readings titleRoot pairs where
  spans : ∀ id, Bounds (pagesUnder builder.nodes id) (builder.pageSpan id)
  whole : Bounds (pagesOf (pairs.map Prod.fst))
    (builder.pageSpan (root readings titleRoot).nodeId)

theorem mem_pagesOf_append (blocks : List Block) (block : Block) (page : Int) :
    page ∈ pagesOf (blocks ++ [block]) ↔ page ∈ pagesOf blocks ∨ block.page = some page := by
  simp only [pagesOf, Set.mem_ofPred_eq, mem_append, mem_singleton]
  constructor
  · intro ⟨other, isOne, isPage⟩
    rcases isOne with member | rfl
    · exact .inl ⟨other, member, isPage⟩
    · exact .inr isPage
  · intro isOne
    rcases isOne with ⟨other, member, isPage⟩ | isPage
    · exact ⟨other, .inl member, isPage⟩
    · exact ⟨block, .inr rfl, isPage⟩

theorem bottom_mem_path (builder : Builder) : builder.bottom.2.nodeId ∈ builder.path :=
  mem_map.mpr ⟨builder.bottom, by simp [Builder.stack], rfl⟩

theorem Grown.ranged (grown : Grown readings builder block node next)
    (sound : builder.Sound readings) (injective : readings.fresh.Injective)
    (ranged : builder.Ranged readings titleRoot pairs) :
    next.Ranged readings titleRoot (pairs ++ [(block, node)]) where
  toShaped := grown.shaped sound injective ranged.toShaped
  spans id := by
    have isPage := grown.mem_pagesUnder sound injective ranged.isPath id
    by_cases isOpen : id ∈ (builder.closed block).path
    · rw [grown.pageSpan_of_mem isOpen]
      refine bounds_notedPage (ranged.spans id) fun page => ?_
      rw [isPage page, and_iff_right isOpen]
    · have isSame : pagesUnder next.nodes id = pagesUnder builder.nodes id := by
        ext page
        rw [isPage page]
        exact or_iff_left fun isOwn => isOpen isOwn.1
      rw [grown.pageSpan_of_notMem isOpen, isSame]
      exact ranged.spans id
  whole := by
    have isOpen : (root readings titleRoot).nodeId ∈ (builder.closed block).path := by
      have member := bottom_mem_path (builder.closed block)
      rwa [closed_bottom, ranged.bottom] at member
    rw [grown.pageSpan_of_mem isOpen, map_append]
    exact bounds_notedPage ranged.whole (mem_pagesOf_append _ block)

end Grows

def Block.closes (block heading : Block) : Bool :=
  block.kind = .heading && block.headingLevel ≤ heading.headingLevel

def sectionBlocks (heading : Block) (later : List Block) : List Block :=
  later.takeWhile fun block => !block.closes heading

variable {heading : Block} {blocks : List Block}

section

variable (isOpen : ∀ block ∈ blocks, block.closes heading = false)
include isOpen

theorem sectionBlocks_of_open :
    sectionBlocks heading blocks = blocks := by
  rw [sectionBlocks, takeWhile_eq_self_iff]
  intro block member
  rw [isOpen block member, Bool.not_false]

theorem sectionBlocks_append_of_open
    (block : Block) :
    sectionBlocks heading (blocks ++ [block]) =
      blocks ++ if block.closes heading then [] else [block] := by
  rw [sectionBlocks, takeWhile_append_of_pos fun other member => by
    rw [isOpen other member, Bool.not_false]]
  cases closes : block.closes heading <;> simp [closes]

end

theorem sectionBlocks_append_of_closed
    (isClosed : ∃ block ∈ blocks, block.closes heading = true) (block : Block) :
    sectionBlocks heading (blocks ++ [block]) = sectionBlocks heading blocks := by
  obtain ⟨last, member, closes⟩ := isClosed
  rw [sectionBlocks, sectionBlocks]
  induction blocks with
  | nil => cases member
  | cons first rest ih =>
    rw [cons_append, takeWhile_cons, takeWhile_cons]
    rcases mem_cons.mp member with rfl | isLater
    · simp [closes]
    · rw [ih isLater]

def Builder.Opened (builder : Builder) (heading : Block) (own : Node) (blocks : List Block) :
    Prop :=
  (∀ block ∈ blocks, block.closes heading = false) ∧ ∃ above below,
      builder.opened = above ++ (heading.headingLevel, own) :: below ∧
        ∀ entry ∈ above, heading.headingLevel < entry.1

def Builder.Closed (builder : Builder) (heading : Block) (own : Node) (blocks : List Block) :
    Prop :=
  (∃ block ∈ blocks, block.closes heading = true) ∧ own.nodeId ∉ builder.path

structure Builder.Spans (builder : Builder) (heading : Block) (own : Node)
    (blocks : List Block) : Prop where
  known : own.nodeId ∈ ids builder.nodes
  apart : builder.path.Nodup
  state : builder.Opened heading own blocks ∨ builder.Closed heading own blocks
  bounds : Bounds (pagesOf (sectionBlocks heading blocks)) (builder.pageSpan own.nodeId)

section Grows

variable {builder next : Builder} {block heading : Block} {node own : Node}
  {blocks : List Block}

theorem dropWhile_of_deeper {level limit : Int} (above below : List (Int × Node)) (own : Node)
    (deeper : limit < level) :
    ∃ rest, (above ++ (limit, own) :: below).dropWhile (fun entry => level ≤ entry.1) =
      rest ++ (limit, own) :: below ∧ ∀ entry ∈ rest, entry ∈ above := by
  induction above with
  | nil =>
    refine ⟨[], ?_, by simp⟩
    rw [nil_append, dropWhile_cons_of_neg]
    simpa using deeper
  | cons first rest ih =>
    rw [cons_append, dropWhile_cons]
    split
    · obtain ⟨left, isLeft, isAbove⟩ := ih
      exact ⟨left, isLeft, fun entry member => mem_cons_of_mem _ (isAbove entry member)⟩
    · exact ⟨first :: rest, rfl, fun _ member => member⟩

theorem Builder.Opened.closed_eq (opened : builder.Opened heading own blocks)
    (inside : block.closes heading = false) :
    ∃ above below, (builder.closed block).opened = above ++ (heading.headingLevel, own) :: below ∧
      ∀ entry ∈ above, heading.headingLevel < entry.1 := by
  obtain ⟨-, above, below, isOpened, deeper⟩ := opened
  rw [Builder.closed]
  split
  · next isHeading =>
      have isDeeper : heading.headingLevel < block.headingLevel := by
        simpa [Block.closes, isHeading] using inside
      obtain ⟨rest, isRest, isAbove⟩ := dropWhile_of_deeper above below own isDeeper
      exact ⟨rest, below, by rw [Builder.popped, isOpened]; exact isRest,
        fun entry member => deeper entry (isAbove entry member)⟩
  · exact ⟨above, below, isOpened, deeper⟩

theorem Builder.Opened.closed_path (opened : builder.Opened heading own blocks)
    (apart : builder.path.Nodup) (closes : block.closes heading = true) :
    own.nodeId ∉ (builder.closed block).path := by
  obtain ⟨-, above, below, isOpened, deeper⟩ := opened
  obtain ⟨isHeading, notDeeper⟩ : block.kind = .heading ∧
      block.headingLevel ≤ heading.headingLevel := by
    simpa [Block.closes] using closes
  have isShut : ∀ entry ∈ above ++ [(heading.headingLevel, own)],
      (fun entry : Int × Node => decide (block.headingLevel ≤ entry.1)) entry = true := by
    intro entry member
    refine decide_eq_true ?_
    rcases mem_append.mp member with isAbove | isOwn
    · exact Int.le_of_lt (Int.lt_of_le_of_lt notDeeper (deeper entry isAbove))
    · rw [mem_singleton.mp isOwn]
      exact notDeeper
  have isLeft : (builder.closed block).opened =
      below.dropWhile fun entry => block.headingLevel ≤ entry.1 := by
    have isSplit : builder.opened = (above ++ [(heading.headingLevel, own)]) ++ below := by
      rw [isOpened, append_assoc]
      rfl
    rw [Builder.closed, if_pos isHeading, Builder.popped, isSplit]
    exact dropWhile_append_of_pos isShut
  have isPath : builder.path = (above.map fun entry => entry.2.nodeId) ++
      own.nodeId :: (below ++ [builder.bottom]).map fun entry => entry.2.nodeId := by
    rw [Builder.path, Builder.stack, isOpened, append_assoc, map_append]
    rfl
  rw [isPath] at apart
  intro member
  rw [Builder.path, Builder.stack, isLeft, closed_bottom] at member
  have isBelow : own.nodeId ∈ (below ++ [builder.bottom]).map fun entry => entry.2.nodeId := by
    obtain ⟨entry, isOpen, isId⟩ := mem_map.mp member
    refine mem_map.mpr ⟨entry, ?_, isId⟩
    rcases mem_append.mp isOpen with isLater | isBottom
    · exact mem_append_left _ ((dropWhile_sublist _).subset isLater)
    · exact mem_append_right _ isBottom
  exact (nodup_cons.mp (nodup_append.mp apart).2.1).1 isBelow

section

variable (grown : Grown readings builder block node next)
include grown

theorem Grown.opened_eq :
    next.opened = (builder.closed block).opened ∨ block.kind = .heading ∧
      next.opened = (block.headingLevel, node) :: (builder.closed block).opened := by
  rw [grown.nextEq, Builder.opening]
  split
  · next isHeading => exact .inr ⟨isHeading, rfl⟩
  · exact .inl rfl

theorem Grown.notMem_path (sound : builder.Sound readings) (injective : readings.fresh.Injective)
    (known : own.nodeId ∈ ids builder.nodes)
    (isClosed : own.nodeId ∉ (builder.closed block).path) : own.nodeId ∉ next.path := by
  rcases grown.path_eq with same | opened
  · exact same ▸ isClosed
  · rw [opened]
    refine not_mem_cons_of_ne_of_not_mem (fun same => ?_) isClosed
    exact grown.isNew sound injective (same ▸ known)

theorem Grown.spans (sound : builder.Sound readings) (injective : readings.fresh.Injective)
    (spans : builder.Spans heading own blocks) :
    next.Spans heading own (blocks ++ [block]) := by
  have known : own.nodeId ∈ ids next.nodes := by
    rw [grown.nodesEq, ids_append]
    exact mem_append_left _ spans.known
  have apart := grown.apart sound injective spans.apart
  rcases spans.state with opened | ⟨isClosed, isShut⟩
  · cases closes : block.closes heading with
    | false =>
      obtain ⟨above, below, isOpened, deeper⟩ := opened.closed_eq closes
      have isOpen : own.nodeId ∈ (builder.closed block).path :=
        mem_map.mpr ⟨(heading.headingLevel, own), by simp [Builder.stack, isOpened], rfl⟩
      refine ⟨known, apart, .inl ⟨fun other member => ?_, ?_⟩, ?_⟩
      · rcases mem_append.mp member with isOld | isNew
        · exact opened.1 other isOld
        · exact mem_singleton.mp isNew ▸ closes
      · rcases grown.opened_eq with same | ⟨isHeading, isNext⟩
        · exact ⟨above, below, same.trans isOpened, deeper⟩
        · refine ⟨(block.headingLevel, node) :: above, below, by rw [isNext, isOpened]; rfl, ?_⟩
          intro entry member
          rcases mem_cons.mp member with rfl | isAbove
          · simpa [Block.closes, isHeading] using closes
          · exact deeper entry isAbove
      · have bounds := spans.bounds
        rw [sectionBlocks_of_open opened.1] at bounds
        rw [grown.pageSpan_of_mem isOpen, sectionBlocks_append_of_open opened.1, closes]
        exact bounds_notedPage bounds (mem_pagesOf_append _ block)
    | true =>
      have isShut := opened.closed_path spans.apart closes
      refine ⟨known, apart, .inr ⟨⟨block, by simp, closes⟩,
        grown.notMem_path sound injective spans.known isShut⟩, ?_⟩
      have bounds := spans.bounds
      rw [sectionBlocks_of_open opened.1] at bounds
      rw [grown.pageSpan_of_notMem isShut, sectionBlocks_append_of_open opened.1, closes,
        if_pos rfl, append_nil]
      exact bounds
  · have notOpen : own.nodeId ∉ (builder.closed block).path :=
      fun member => isShut ((closed_path_suffix builder block).subset member)
    obtain ⟨last, member, closes⟩ := isClosed
    refine ⟨known, apart, .inr ⟨⟨last, mem_append_left _ member, closes⟩,
      grown.notMem_path sound injective spans.known notOpen⟩, ?_⟩
    rw [grown.pageSpan_of_notMem notOpen, sectionBlocks_append_of_closed ⟨last, member, closes⟩]
    exact spans.bounds

end

theorem Grown.opens (grown : Grown readings builder heading own next)
    (sound : builder.Sound readings) (injective : readings.fresh.Injective)
    (isHeading : heading.kind = .heading) (apart : builder.path.Nodup)
    (spans : ∀ id, Bounds (pagesUnder builder.nodes id) (builder.pageSpan id)) :
    next.Spans heading own [] := by
  have isNew := grown.isNew sound injective
  have isShut : own.nodeId ∉ (builder.closed heading).path := fun member =>
    isNew (sound.path_subset ((closed_path_suffix builder heading).subset member))
  refine ⟨?_, grown.apart sound injective apart, .inl ⟨by simp, ?_⟩, ?_⟩
  · rw [grown.nodesEq, ids_append]
    exact mem_append_right _ (mem_singleton_self _)
  · refine ⟨[], (builder.closed heading).opened, ?_, by simp⟩
    rw [grown.nextEq, Builder.opening, if_pos isHeading]
    rfl
  · have none_ : pagesUnder builder.nodes own.nodeId = pagesOf (sectionBlocks heading []) := by
      ext page
      refine iff_of_false (fun found => ?_) (fun found => ?_)
      · obtain ⟨other, -, under, -⟩ := found
        obtain ⟨last, isLast, -⟩ := Relation.TransGen.head'_iff.mp under
        obtain ⟨child, member, -, isParent⟩ := isLast
        exact isNew (sound.parents child member _ isParent)
      · obtain ⟨block, member, -⟩ := found
        cases member
    rw [grown.pageSpan_of_notMem isShut, ← none_]
    exact spans own.nodeId

end Grows

def Node.Covers (node : Node) (page : Int) : Prop :=
  ∃ first last, node.pageStart = some first ∧ node.pageEnd = some last ∧ first ≤ page ∧ page ≤ last

def Amid (page : Int) (blocks : List Block) : Prop :=
  (∃ other ∈ pagesOf blocks, other ≤ page) ∧ ∃ other ∈ pagesOf blocks, page ≤ other

def blockNodes (titleRoot : Text) (blocks : List Block) (nodes : List Node) :
    List (Block × Node) := (made titleRoot blocks).zip nodes.tail

/-- A tree of all blocks in order, whose sections range over their pages. -/
structure DocumentTree (titleRoot : Text) (blocks : List Block) (nodes : List Node) : Prop where
  distinct : (ids nodes).Nodup
  document : ∃ document, nodes.head? = some document ∧ document.parentId = none ∧
    document.depth = 0 ∧ document.title = some titleRoot
  descends : Descends nodes
  counted : ∀ node ∈ nodes, (childrenOf nodes node.nodeId).map (fun child => child.ordinal) =
    List.range (childrenOf nodes node.nodeId).length
  placed : ∀ block ∈ blocks, (strip block.text).isEmpty = false →
    block ∈ titles titleRoot blocks ∧ strip block.text = titleRoot ∨ block ∈ made titleRoot blocks
  stands : List.Forall₂ Represents (made titleRoot blocks) nodes.tail
  pages : ∀ pair ∈ blockNodes titleRoot blocks nodes, ∀ section_ ∈ nodes,
    section_.representation.isStructural = true → Under nodes section_.nodeId pair.2.nodeId →
      ∀ page, pair.1.page = some page ∨ pair.2.pageStart = some page ∨
        pair.2.pageEnd = some page → section_.Covers page
  headingPages : ∀ pair ∈ blockNodes titleRoot blocks nodes, pair.1.kind = .heading →
    ∀ page ∈ pair.1.page, pair.2.Covers page
  titlePages : ∀ title ∈ titles titleRoot blocks, ∀ page ∈ title.page,
    ∀ document ∈ nodes.head?, document.Covers page

/-- The page of a heading, and of a title, lies between pages of what stands under it. -/
structure HeadingsAmid (titleRoot : Text) (blocks : List Block) : Prop where
  sections : ∀ before heading later, made titleRoot blocks = before ++ heading :: later →
    heading.kind = .heading → ∀ page ∈ heading.page,
      pagesOf (sectionBlocks heading later) = ∅ ∨ Amid page (sectionBlocks heading later)
  document : ∀ title ∈ titles titleRoot blocks, ∀ page ∈ title.page,
    Amid page (made titleRoot blocks)

theorem amid_of_bounds (isBounds : Bounds (pagesOf blocks) (some (first, last))) :
    first ≤ page ∧ page ≤ last ↔ Amid page blocks := isBounds.between_iff

section Paged

variable {builder : Builder} {node : Node} {page : Int}

theorem paged_of_none (isNone : builder.pageSpan node.nodeId = none) :
    builder.paged node = node := by
  rw [Builder.paged, isNone]

section

variable (isSpan : builder.pageSpan node.nodeId = some (first, last))
include isSpan

theorem paged_of_span
    (isStructural : node.representation.isStructural = true) :
    builder.paged node = { node with pageStart := some first, pageEnd := some last } := by
  rw [Builder.paged, isSpan]
  exact if_pos isStructural

theorem paged_covers_iff
    (isStructural : node.representation.isStructural = true) :
    (builder.paged node).Covers page ↔ first ≤ page ∧ page ≤ last := by
  rw [paged_of_span isSpan isStructural, Node.Covers]
  constructor
  · intro ⟨low, high, isLow, isHigh, between⟩
    cases isLow
    cases isHigh
    exact between
  · exact fun between => ⟨first, last, rfl, rfl, between⟩

end

end Paged

theorem placed_of_blocks (titleRoot : Text) (blocks : List Block)
    (member : block ∈ blocks) (isThere : (strip block.text).isEmpty = false) :
    block ∈ titles titleRoot blocks ∧ strip block.text = titleRoot ∨
      block ∈ made titleRoot blocks := by
  have makes : block.makesNode = true := by simp [Block.makesNode, isThere]
  rw [← takeWhile_append_dropWhile (p := Block.isOpening titleRoot) (l := blocks),
    mem_append] at member
  rcases member with isEarly | isLater
  · have isOpening := mem_takeWhile_imp isEarly
    have isTitle : block.isTitle titleRoot = true := by
      simpa [Block.isOpening, makes] using isOpening
    refine .inl ⟨mem_filter.mpr ⟨isEarly, isTitle⟩, ?_⟩
    rw [Block.isTitle, Bool.and_eq_true] at isTitle
    exact of_decide_eq_true isTitle.2
  · exact .inr (mem_filter.mpr ⟨isLater, makes⟩)

structure Builder.Noted (readings : Readings) (titleRoot : Text) (builder : Builder)
    (pairs : List (Block × Node)) : Prop extends builder.Ranged readings titleRoot pairs where
  sections : ∀ before heading own later, pairs = before ++ (heading, own) :: later →
    heading.kind = .heading → builder.Spans heading own (later.map Prod.fst)

theorem Grown.noted {builder next : Builder}
    {pairs : List (Block × Node)} (grown : Grown readings builder block node next)
    (sound : builder.Sound readings) (injective : readings.fresh.Injective)
    (isNoted : builder.Noted readings titleRoot pairs) :
    next.Noted readings titleRoot (pairs ++ [(block, node)]) where
  toRanged := grown.ranged sound injective isNoted.toRanged
  sections before heading own later isSplit isHeading := by
    rcases eq_nil_or_concat later with rfl | ⟨others, last, rfl⟩
    · obtain ⟨-, isLast⟩ := append_inj' isSplit rfl
      cases isLast
      exact grown.opens sound injective isHeading isNoted.apart isNoted.spans
    · rw [concat_eq_append, ← cons_append, ← append_assoc] at isSplit
      obtain ⟨isBefore, isLast⟩ := append_inj' isSplit rfl
      cases isLast
      rw [concat_eq_append, map_append]
      exact grown.spans sound injective
        (isNoted.sections before heading own others isBefore isHeading)

theorem openedAt_noted (level : Int) :
    (Builder.openedAt readings titleRoot level).Noted readings titleRoot [] where
  toShaped := openedAt_shaped level
  spans id := by
    have isEmpty : pagesUnder (Builder.openedAt readings titleRoot level).nodes id = ∅ := by
      ext page
      refine iff_of_false (fun found => ?_) (Set.notMem_empty page)
      obtain ⟨node, member, -, isPage⟩ := found
      rw [mem_singleton.mp member] at isPage
      cases isPage
    exact isEmpty
  whole := by
    ext page
    refine iff_of_false (fun found => ?_) (Set.notMem_empty page)
    obtain ⟨block, member, -⟩ := found
    cases member
  sections before heading own later isSplit _ := by simp at isSplit

variable (titleRoot) in
theorem buildHierarchy_noted (injective : readings.fresh.Injective) (blocks : List Block) :
    ∃ (builder : Builder) (pairs : List (Block × Node)),
      buildHierarchy readings titleRoot blocks = builder.nodes.map builder.paged ∧
        builder.Sound readings ∧ builder.Noted readings titleRoot pairs ∧
          pairs.map Prod.fst = made titleRoot blocks := by
  obtain ⟨level, isFold⟩ := made_fold readings titleRoot blocks
  obtain ⟨pairs, isNoted, sound, isMade⟩ := grown_induction injective
    (fun sound isNoted grown => grown.noted sound injective isNoted)
    (openedAt_sound level) (openedAt_noted level) (made_makes titleRoot blocks)
    (fun _ => made_head titleRoot blocks)
  exact ⟨_, pairs, by rw [buildHierarchy, isFold], sound, isNoted, isMade⟩

section Built

variable {builder : Builder} {pairs : List (Block × Node)} {blocks : List Block}

theorem ids_paged (builder : Builder) (nodes : List Node) :
    ids (nodes.map builder.paged) = ids nodes := by
  rw [ids, ids, map_map]
  exact map_congr_left fun node _ => paged_nodeId builder node

theorem isParent_paged (builder : Builder) (nodes : List Node) (parent id : String) :
    IsParent (nodes.map builder.paged) parent id ↔ IsParent nodes parent id := by
  simp only [IsParent, mem_map]
  constructor
  · rintro ⟨_, ⟨node, member, rfl⟩, isId, isParent⟩
    rw [paged_nodeId] at isId
    rw [paged_parentId] at isParent
    exact ⟨node, member, isId, isParent⟩
  · rintro ⟨node, member, isId, isParent⟩
    exact ⟨builder.paged node, ⟨node, member, rfl⟩, (paged_nodeId builder node).trans isId,
      (paged_parentId builder node).trans isParent⟩

theorem under_paged (builder : Builder) (nodes : List Node) :
    Under (nodes.map builder.paged) = Under nodes := by
  have isSame : IsParent (nodes.map builder.paged) = IsParent nodes := by
    ext parent id
    exact isParent_paged builder nodes parent id
  rw [Under, Under, isSame]

theorem childrenOf_paged (builder : Builder) (nodes : List Node) (id : String) :
    childrenOf (nodes.map builder.paged) id = (childrenOf nodes id).map builder.paged := by
  rw [childrenOf, childrenOf, filter_map]
  refine congrArg (List.map builder.paged) (filter_congr fun node _ => ?_)
  rw [Function.comp_apply, paged_parentId]

theorem paged_depth (builder : Builder) (node : Node) :
    (builder.paged node).depth = node.depth := by
  rcases paged_cases builder node with same | ⟨-, start, stop, same⟩ <;> rw [same]

theorem represents_paged (represents : Represents block node) :
    Represents block (builder.paged node) := by
  rcases paged_cases builder node with same | ⟨-, start, stop, same⟩
  · rwa [same]
  · rw [same]
    exact represents

theorem Descends.paged {nodes : List Node} (descends : Descends nodes) (builder : Builder) :
    Descends (nodes.map builder.paged) := by
  intro i found isFound notFirst
  rw [getElem?_map] at isFound
  obtain ⟨node, isNode, rfl⟩ := Option.map_eq_some_iff.mp isFound
  obtain ⟨j, parent, before, isAbove, isParent, deeper⟩ := descends i node isNode notFirst
  refine ⟨j, builder.paged parent, before, by rw [getElem?_map, isAbove]; rfl, ?_, ?_⟩
  · rw [paged_parentId, paged_nodeId, isParent]
  · rw [paged_depth, paged_depth, deeper]

theorem Represents.isStructural (represents : Represents block node)
    (isHeading : block.kind = .heading) : node.representation.isStructural = true := by
  rw [Represents, if_pos isHeading] at represents
  exact represents.1

variable (isNoted : builder.Noted readings titleRoot pairs)
include isNoted

theorem page_of_paged (member : pair ∈ pairs)
    (isPage : pair.1.page = some page ∨ (builder.paged pair.2).pageStart = some page ∨
      (builder.paged pair.2).pageEnd = some page) :
    pair.2.pageStart = some page ∨ page ∈ pagesUnder builder.nodes pair.2.nodeId := by
  obtain ⟨-, isStart, isEnd⟩ := isNoted.represents pair member
  cases isSpan : builder.pageSpan pair.2.nodeId with
  | none =>
    rw [paged_of_none isSpan, isStart, isEnd, or_self, or_self] at isPage
    exact .inl (isStart.trans isPage)
  | some span =>
    have bounds := isNoted.spans pair.2.nodeId
    rw [isSpan] at bounds
    cases isStructural : pair.2.representation.isStructural with
    | false =>
      have isSame : builder.paged pair.2 = pair.2 := by
        rcases paged_cases builder pair.2 with same | ⟨isOther, -⟩
        · exact same
        · rw [isStructural] at isOther
          cases isOther
      rw [isSame, isStart, isEnd, or_self, or_self] at isPage
      exact .inl (isStart.trans isPage)
    | true =>
      rw [paged_of_span isSpan isStructural] at isPage
      rcases isPage with isOwn | isFirst | isLast
      · exact .inl (isStart.trans isOwn)
      · cases isFirst
        exact .inr bounds.1.1
      · cases isLast
        exact .inr bounds.2.1

theorem covers_of_pagesUnder (isStructural : node.representation.isStructural = true)
    (member : page ∈ pagesUnder builder.nodes node.nodeId) :
    (builder.paged node).Covers page := by
  obtain ⟨first, last, isSpan, between⟩ := (isNoted.spans node.nodeId).of_mem member
  exact (paged_covers_iff isSpan isStructural).mpr between

theorem pages_covered (member : pair ∈ pairs) {section_ : Node}
    (isStructural : section_.representation.isStructural = true)
    (under : Under builder.nodes section_.nodeId pair.2.nodeId)
    (isPage : pair.1.page = some page ∨ (builder.paged pair.2).pageStart = some page ∨
      (builder.paged pair.2).pageEnd = some page) :
    (builder.paged section_).Covers page := by
  refine covers_of_pagesUnder isNoted isStructural ?_
  have isNode : pair.2 ∈ builder.nodes :=
    isNoted.nodesEq ▸ mem_cons_of_mem _ (mem_map_of_mem member)
  rcases page_of_paged isNoted member isPage with isOwn | ⟨other, isOther, further, isThere⟩
  · exact ⟨pair.2, isNode, under, isOwn⟩
  · exact ⟨other, isOther, under.trans further, isThere⟩

theorem heading_covered_iff {before later : List (Block × Node)} {own : Node}
    (isSplit : pairs = before ++ (heading, own) :: later) (isHeading : heading.kind = .heading)
    (isPage : heading.page = some page) :
    (builder.paged own).Covers page ↔
      pagesOf (sectionBlocks heading (later.map Prod.fst)) = ∅ ∨
        Amid page (sectionBlocks heading (later.map Prod.fst)) := by
  have member : (heading, own) ∈ pairs := by rw [isSplit]; simp
  obtain ⟨represents, isStart, isEnd⟩ := isNoted.represents _ member
  have isStructural := represents.isStructural isHeading
  have bounds := (isNoted.sections before heading own later isSplit isHeading).bounds
  cases isSpan : builder.pageSpan own.nodeId with
  | none =>
    rw [isSpan] at bounds
    rw [paged_of_none isSpan]
    refine iff_of_true ⟨page, page, ?_, ?_, Int.le_refl _, Int.le_refl _⟩ (.inl bounds)
    · exact isStart.trans isPage
    · exact isEnd.trans isPage
  | some span =>
    rw [isSpan] at bounds
    rw [paged_covers_iff isSpan isStructural, amid_of_bounds bounds]
    refine (or_iff_right fun isEmpty => ?_).symm
    have isFirst := bounds.1.1
    rw [isEmpty] at isFirst
    exact isFirst

theorem title_covered_iff :
    (builder.paged (root readings titleRoot)).Covers page ↔ Amid page (pairs.map Prod.fst) := by
  have bounds := isNoted.whole
  cases isSpan : builder.pageSpan (root readings titleRoot).nodeId with
  | none =>
    rw [isSpan] at bounds
    have isEmpty : pagesOf (pairs.map Prod.fst) = ∅ := bounds
    rw [paged_of_none isSpan, Amid, isEmpty]
    refine iff_of_false (fun ⟨first, last, isFirst, _⟩ => by cases isFirst) ?_
    intro ⟨⟨other, isThere, _⟩, _⟩
    exact isThere
  | some span =>
    rw [isSpan] at bounds
    rw [paged_covers_iff isSpan rfl, amid_of_bounds bounds]

theorem blockNodes_eq (isMade : pairs.map Prod.fst = made titleRoot blocks) :
    blockNodes titleRoot blocks (builder.nodes.map builder.paged) =
      pairs.map fun pair => (pair.1, builder.paged pair.2) := by
  rw [blockNodes, isNoted.nodesEq, map_cons, tail_cons, ← isMade, map_map, zip_map']
  rfl

theorem tree_of_noted (sound : builder.Sound readings) (injective : readings.fresh.Injective)
    (isMade : pairs.map Prod.fst = made titleRoot blocks)
    (sections : ∀ pair ∈ pairs, pair.1.kind = .heading → ∀ page ∈ pair.1.page,
      (builder.paged pair.2).Covers page)
    (document : ∀ title ∈ titles titleRoot blocks, ∀ page ∈ title.page,
      (builder.paged (root readings titleRoot)).Covers page) :
    DocumentTree titleRoot blocks (builder.nodes.map builder.paged) where
  distinct := (ids_paged builder builder.nodes).symm ▸ sound.distinct injective
  document := by
    refine ⟨builder.paged (root readings titleRoot), ?_, ?_, ?_, ?_⟩
    · rw [isNoted.nodesEq]
      rfl
    · rw [paged_parentId]
      rfl
    · rw [paged_depth]
      rfl
    · rcases paged_cases builder (root readings titleRoot) with same | ⟨-, start, stop, same⟩
      · rw [same]
        rfl
      · rw [same]
        rfl
  descends := isNoted.descends.paged builder
  counted found member := by
    obtain ⟨node, isNode, rfl⟩ := mem_map.mp member
    have isCounted := isNoted.counted node.nodeId (mem_map_of_mem isNode)
    have isLength := congrArg List.length isCounted
    rw [length_map, length_range] at isLength
    rw [paged_nodeId, childrenOf_paged, map_map, length_map, isLength, ← isCounted]
    exact map_congr_left fun child _ => paged_ordinal builder child
  placed block member isThere := placed_of_blocks titleRoot blocks member isThere
  stands := by
    rw [isNoted.nodesEq, map_cons, tail_cons, ← isMade, map_map]
    refine List.forall₂_map_left_iff.mpr (List.forall₂_map_right_iff.mpr ?_)
    exact List.forall₂_same.mpr fun pair member =>
      represents_paged (isNoted.represents pair member).1
  pages pair member section_ isSection isStructural under page isPage := by
    rw [blockNodes_eq isNoted isMade] at member
    obtain ⟨own, isPair, rfl⟩ := mem_map.mp member
    obtain ⟨node, isNode, rfl⟩ := mem_map.mp isSection
    rw [under_paged, paged_nodeId, paged_nodeId] at under
    refine pages_covered isNoted isPair ?_ under isPage
    rcases paged_cases builder node with same | ⟨isOther, -⟩
    · rwa [same] at isStructural
    · exact isOther
  headingPages pair member isHeading page isPage := by
    rw [blockNodes_eq isNoted isMade] at member
    obtain ⟨own, isPair, rfl⟩ := mem_map.mp member
    exact sections own isPair isHeading page isPage
  titlePages title isTitle page isPage found isFound := by
    rw [isNoted.nodesEq] at isFound
    cases isFound
    exact document title isTitle page isPage

end Built

/-- The tree of a document is well formed, and keeps all pages exactly if no heading stands on
a page before or after what is in its section. -/
theorem document_tree_iff (readings : Readings) (injective : readings.fresh.Injective)
    (titleRoot : Text) (blocks : List Block) :
    DocumentTree titleRoot blocks (buildHierarchy readings titleRoot blocks) ↔
      HeadingsAmid titleRoot blocks := by
  obtain ⟨builder, pairs, isBuilt, sound, isNoted, isMade⟩ :=
    buildHierarchy_noted titleRoot injective blocks
  rw [isBuilt]
  constructor
  · intro tree
    refine ⟨fun before heading later isSplit isHeading page isPage => ?_,
      fun title isTitle page isPage => ?_⟩
    · rw [← isMade, map_eq_append_iff] at isSplit
      obtain ⟨first, rest, isPairs, -, isRest⟩ := isSplit
      obtain ⟨pair, last, isPair, isOwn, isLater⟩ := map_eq_cons_iff.mp isRest
      rw [isPair] at isPairs
      have member : (pair.1, builder.paged pair.2) ∈
          blockNodes titleRoot blocks (builder.nodes.map builder.paged) := by
        rw [blockNodes_eq isNoted isMade, isPairs]
        exact mem_map.mpr ⟨pair, by simp, rfl⟩
      have covered := tree.headingPages _ member (isOwn ▸ isHeading) page (isOwn ▸ isPage)
      rw [← isOwn, ← isLater]
      exact (heading_covered_iff isNoted isPairs (isOwn ▸ isHeading) (isOwn ▸ isPage)).mp covered
    · rw [← isMade]
      refine (title_covered_iff isNoted).mp (tree.titlePages title isTitle page isPage _ ?_)
      rw [isNoted.nodesEq]
      rfl
  · intro amid
    refine tree_of_noted isNoted sound injective isMade
      (fun pair member isHeading page isPage => ?_) fun title isTitle page isPage => ?_
    · obtain ⟨before, later, isSplit⟩ := append_of_mem member
      refine (heading_covered_iff isNoted isSplit isHeading isPage).mpr ?_
      refine amid.sections (before.map Prod.fst) pair.1 (later.map Prod.fst) ?_ isHeading page
        isPage
      rw [← isMade, isSplit, map_append, map_cons]
    · exact (title_covered_iff isNoted).mpr (isMade ▸ amid.document title isTitle page isPage)

def contract : List Block :=
  [{ kind := .heading, text := "terms".toList, level := 2, page := some 1 },
    { kind := .paragraph, text := "paid within ten days.".toList, page := some 2 }]

theorem document_tree_iff_of_offices :
    plain.fresh.Injective ∧
      (DocumentTree "offices".toList offices (buildHierarchy plain "offices".toList offices) ↔
        HeadingsAmid "offices".toList offices) :=
  ⟨plain_fresh_injective, document_tree_iff plain plain_fresh_injective "offices".toList offices⟩

/-- The section ranges over its second page only. -/
theorem heading_of_contract_is_left_out :
    ¬DocumentTree "contract".toList contract
      (buildHierarchy plain "contract".toList contract) := by
  intro tree
  have isSection : (blockNodes "contract".toList contract
      (buildHierarchy plain "contract".toList contract)).head?.map
        (fun pair => (pair.1.kind, pair.1.page, pair.2.pageStart)) =
          some (.heading, some 1, some 2) := by decide +kernel
  obtain ⟨pair, isPair, isFound⟩ := Option.map_eq_some_iff.mp isSection
  obtain ⟨isHeading, isPage⟩ := Prod.mk.injEq .. ▸ isFound
  obtain ⟨isOwn, isStart⟩ := Prod.mk.injEq .. ▸ isPage
  obtain ⟨first, last, isFirst, -, isAfter, -⟩ :=
    tree.headingPages pair (mem_of_head? isPair) isHeading 1 isOwn
  rw [isStart, Option.some.injEq] at isFirst
  omega

end MemoryService.Ingestion
