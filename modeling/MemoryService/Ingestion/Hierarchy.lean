import MemoryService.Ingestion.Chunking

/-!
# The tree of a document

A parser hands over a flat list of blocks. A heading opens a section, in the deepest open section
of a lower level; any other block with text becomes a node of the section that is open last.
-/

namespace MemoryService.Ingestion

open Rag (strip)

inductive BlockKind where
  | heading
  | paragraph
  | table
  | code
  | list
  | footnote
  | caption
  deriving DecidableEq

def BlockKind.value : BlockKind → String
  | .heading => "heading"
  | .paragraph => "paragraph"
  | .table => "table"
  | .code => "code"
  | .list => "list"
  | .footnote => "footnote"
  | .caption => "caption"

/-- A dictionary, read by key; its values are read as text. -/
abbrev Metadata := String → Option Text

structure Block where
  kind : BlockKind
  text : Text
  level : Int := 0
  page : Option Int := none
  label : Option Text := none
  metadata : Metadata := fun _ => none

structure Node extends DocumentNode where
  parentId : Option String := none
  ordinal : Nat
  depth : Nat
  title : Option Text
  sectionPath : Text
  pageStart : Option Int := none
  pageEnd : Option Int := none
  tokenEstimate : Nat := 0
  entities : List Text := []
  systemMetadata : Metadata := fun _ => none

def BlockKind.representation : BlockKind → Representation
  | .table => .table
  | .code => .codeBlock
  | _ => .paragraph

/-- `bool(…)` of a string that may be missing. -/
def isGiven (text : Option Text) : Bool := text.any fun given => !given.isEmpty

/-- The state of the build. -/
structure Builder where
  nodes : List Node
  opened : List (Int × Node) := []
  bottom : Int × Node
  ordinals : String → Nat := fun _ => 0
  pageSpan : String → Option (Int × Int) := fun _ => none

variable (builder : Builder)

def Builder.stack : List (Int × Node) := builder.opened ++ [builder.bottom]

/-- `stack[-1][1]` -/
def Builder.parent : Node := (builder.opened.head?.getD builder.bottom).2

def Builder.popped (level : Int) : Builder :=
  { builder with opened := builder.opened.dropWhile fun entry => level ≤ entry.1 }

/-- What the text patterns and the supply of ids are to the build. -/
structure Readings where
  /-- The id of the node that is made so many nodes after the root. -/
  fresh : Nat → String
  headingNumber : Text → Option Text
  titlePart : Text → Option (Text × Text)
  tableNumber : Text → Option Text
  extractEntities : Text → List Text
  extractDefinitions : Text → List Text
  extractReferences : Text → List (Text × Text)
  extractFootnoteRefs : Text → List Text
  canonicalEntity : Text → Text
  casefold : Text → Text

variable (readings : Readings) (titleRoot : Text) (builder : Builder)

def Builder.child (representation : Representation) (text : Text)
    (title : Option Text) (page : Option Int) (metadata : Metadata) : Node :=
  let parent := builder.parent
  let path :=
    if parent.representation ≠ .document then parent.sectionPath else titleRoot
  let named := isGiven title ∧ (representation = .section_ ∨ representation = .subsection)
  { nodeId := readings.fresh builder.nodes.length
    representation
    text
    parentId := some parent.nodeId
    ordinal := builder.ordinals parent.nodeId
    depth := parent.depth + 1
    title
    sectionPath :=
      if named then
        if path.isEmpty then title.getD [] else path ++ " > ".toList ++ title.getD []
      else path
    pageStart := page
    pageEnd := page
    tokenEstimate := if text.isEmpty then 0 else estimateTokens text
    systemMetadata := metadata }

def Builder.spanned (page : Int) (id : String) : Option (Int × Int) :=
  if builder.stack.any fun entry => entry.2.nodeId = id then
    some ((builder.pageSpan id).elim (page, page) fun span => (min span.1 page, max span.2 page))
  else builder.pageSpan id

/-- `_child`: the node is added after all others. -/
def Builder.add (node : Node) : Builder :=
  let parent := builder.parent.nodeId
  { builder with
    nodes := builder.nodes ++ [node]
    ordinals := Function.update
      (Function.update builder.ordinals parent (builder.ordinals parent + 1)) node.nodeId 0
    pageSpan := node.pageStart.elim builder.pageSpan builder.spanned }

def Builder.heading (block : Block) : Builder :=
  let level := max 1 (min block.level 6)
  if level = 1 ∧ builder.nodes.length = 1 ∧ strip block.text = titleRoot then
    -- the document's own title: the root already represents it
    { builder with opened := [], bottom := (1, builder.bottom.2) }
  else
    let builder := builder.popped level
    let representation :=
      if builder.parent.representation = .document then Representation.section_
      else .subsection
    let text := strip block.text
    let metadata : Metadata := fun key =>
      if key = "section_number" then readings.headingNumber text
      else if key = "heading_level" then some (toString level).toList
      else none
    let node := builder.child readings titleRoot representation [] (some text) block.page metadata
    { builder.add node with opened := (level, node) :: builder.opened }

def Builder.content (block : Block) : Builder :=
  let text := strip block.text
  if text.isEmpty then builder
  else
    let metadata : Metadata := fun key =>
      if key = "label" ∧ isGiven block.label then block.label
      else (block.metadata key).or
        (if key = "block_kind" then some block.kind.value.toList else none)
    builder.add <| builder.child readings titleRoot block.kind.representation text
      (if block.kind = .table then block.label else none) block.page metadata

def Builder.block (builder : Builder) (block : Block) : Builder :=
  if block.kind = .heading then builder.heading readings titleRoot block
  else builder.content readings titleRoot block

def root : Node :=
  { nodeId := readings.fresh 0
    representation := .document
    text := []
    ordinal := 0
    depth := 0
    title := some titleRoot
    sectionPath := titleRoot }

def Builder.start : Builder :=
  { nodes := [root readings titleRoot], bottom := (0, root readings titleRoot) }

def Builder.paged (node : Node) : Node :=
  match builder.pageSpan node.nodeId with
  | some span =>
    if node.representation.isStructural then
      { node with pageStart := some span.1, pageEnd := some span.2 }
    else node
  | none => node

def buildHierarchy (blocks : List Block) : List Node :=
  let builder := blocks.foldl (Builder.block readings titleRoot)
    (Builder.start readings titleRoot)
  builder.nodes.map builder.paged

end MemoryService.Ingestion
