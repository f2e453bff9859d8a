import MemoryService.Foundation.Ranks
import MemoryService.Ingestion.Hierarchy

/-!
# The links of a document

The structural links between the nodes of a document, its pages and its entities.  What the
text patterns find in a text is taken as given; the links are made of it.
-/

namespace MemoryService.Ingestion

inductive ContextGraphEdge where
  | parent
  | child
  | previous
  | next
  | onPage
  | inTable
  | footnote
  | crossReference
  | mentions
  | definedBy
  | defines
  deriving DecidableEq

structure ContextEdge where
  sourceId : String
  targetId : String
  edge : ContextGraphEdge
  label : Option Text := none
  weight : Nat := 1

def ContextEdge.key (edge : ContextEdge) : String × String × ContextGraphEdge :=
  (edge.sourceId, edge.targetId, edge.edge)

/-- `add`: no loops, and each link once. -/
def add (edges : List ContextEdge) (edge : ContextEdge) : List ContextEdge :=
  if edge.sourceId = edge.targetId ∨ edge.key ∈ edges.map ContextEdge.key then edges
  else edges ++ [edge]

def Node.isLeaf (node : Node) : Bool := !node.text.isEmpty && !node.representation.isStructural

def both (first second : String) (there back : ContextGraphEdge) : List ContextEdge :=
  [{ sourceId := first, targetId := second, edge := there },
    { sourceId := second, targetId := first, edge := back }]

def neighbours (previous current : Node) : List ContextEdge :=
  both current.nodeId previous.nodeId .previous .next

/-- The siblings of one parent; `previous` is the sibling before them. -/
def siblings (parentId : Option String) : Option Node → List Node → List ContextEdge
  | _, [] => []
  | previous, kid :: rest =>
    (match parentId with
      | some parent => if parent = "" then [] else both kid.nodeId parent .parent .child
      | none => []) ++
    (match previous with
      | some sibling => neighbours sibling kid
      | none => []) ++
    siblings parentId (some kid) rest

variable (nodes : List Node)

def children (parentId : Option String) : List Node :=
  (nodes.filter fun node => node.parentId = parentId).insertionSort fun first second =>
    first.ordinal ≤ second.ordinal

def siblingEdges : List ContextEdge :=
  (nodes.map fun node => node.parentId).eraseDups.flatMap fun parentId =>
    siblings parentId none (children nodes parentId)

/-- `n.page_start or 0` -/
def Node.page (node : Node) : Int := node.pageStart.getD 0

/-- The order of the leaves: by page, and by position among siblings. -/
def Node.notAfter (first second : Node) : Prop :=
  first.page < second.page ∨ first.page = second.page ∧ first.ordinal ≤ second.ordinal
deriving Decidable

def sortedLeaves : List Node := (nodes.filter Node.isLeaf).insertionSort Node.notAfter

/-- Consecutive leaves of different sections; those of one are linked as siblings. -/
def transitions : List Node → List ContextEdge
  | previous :: current :: rest =>
    (if previous.parentId = current.parentId then [] else neighbours previous current) ++
      transitions (current :: rest)
  | _ => []

def readingEdges : List ContextEdge := transitions (sortedLeaves nodes)

def pageId (documentId : String) (page : Int) : String :=
  "page:" ++ documentId ++ ":" ++ toString page

def entityId (entity : Text) : String := "entity:" ++ String.ofList entity

def pageEdges (documentId : String) (nodes : List Node) : List ContextEdge :=
  nodes.flatMap fun node =>
    match node.pageStart with
    | some page =>
      if node.representation.isStructural then []
      else [{ sourceId := node.nodeId, targetId := pageId documentId page, edge := .onPage }]
    | none => []

/-- What was noted under a key, the latest note first. -/
abbrev Notes := List (Text × String)

def Notes.get (notes : Notes) (key : Text) : Option String :=
  (notes.find? fun note => note.1 = key).map Prod.snd

variable (readings : Readings)

def sectionNotes (node : Node) : Notes :=
  let title := node.title.getD []
  if (node.representation = .section_ ∨ node.representation = .subsection) ∧
      isGiven node.title then
    ((readings.titlePart title).map fun part => (part.1 ++ ' ' :: part.2, node.nodeId)).toList ++
    (if isGiven (node.systemMetadata "section_number") then
      [((node.systemMetadata "section_number").getD [], node.nodeId)]
    else [])
  else []

variable (nodes : List Node)

def sectionByNumber : Notes := nodes.reverse.flatMap (sectionNotes readings)

variable (node : Node)

/-- `str(meta.get("label") or n.title or "")` -/
def Node.tableLabel : Text :=
  if isGiven (node.systemMetadata "label") then (node.systemMetadata "label").getD []
  else node.title.getD []

def tables : Notes :=
  nodes.reverse.filterMap fun node =>
    if node.representation = .table then
      (readings.tableNumber node.tableLabel).map fun number => (number, node.nodeId)
    else none

def footnotes : Notes :=
  nodes.reverse.filterMap fun node =>
    if node.systemMetadata "block_kind" = some "footnote".toList ∧
        isGiven (node.systemMetadata "label") then
      some ((node.systemMetadata "label").getD [], node.nodeId)
    else none

/-- `definitions.setdefault`, in the order of the items. -/
def definitions : Notes :=
  (nodes.flatMap fun node =>
    if node.text.isEmpty then []
    else (readings.extractDefinitions node.text).map fun term =>
      (readings.canonicalEntity term, node.nodeId)).foldl
    (fun (notes : Notes) note => if (notes.get note.1).isSome then notes else notes ++ [note]) []

def occurs (inner text : Text) : Bool := text.tails.any inner.isPrefixOf

def definedBy (definer : String) (label : Text) : List ContextEdge :=
  if definer = node.nodeId then []
  else
    [{ sourceId := node.nodeId, targetId := definer, edge := .definedBy, label, weight := 2 },
      { sourceId := definer, targetId := node.nodeId, edge := .defines, label }]

def entityEdges : List ContextEdge :=
  let named :=
    if node.entities = [] then readings.extractEntities node.text else node.entities
  named.flatMap fun entity =>
    let canon := readings.canonicalEntity entity
    { sourceId := node.nodeId, targetId := entityId canon, edge := .mentions,
      label := some entity } ::
      (((definitions readings nodes).get canon).elim [] fun definer =>
        definedBy node definer entity)

def definitionEdges : List ContextEdge :=
  (definitions readings nodes).flatMap fun note =>
    if occurs note.1 (readings.casefold node.text) then definedBy node note.2 note.1 else []

def referenceTarget (kind number : Text) : Option String :=
  if kind = "Table".toList then (tables readings nodes).get number
  else if ["Section".toList, "Chapter".toList, "Part".toList, "Item".toList].any (kind = ·) then
    (sectionByNumber readings nodes).get number
  else if ["Appendix".toList, "Annex".toList, "Exhibit".toList,
      "Schedule".toList].any (kind = ·) then
    (sectionByNumber readings nodes).get (kind ++ ' ' :: number)
  else if kind = "Note".toList then
    ((footnotes nodes).get number).or ((sectionByNumber readings nodes).get number)
  else none

def referenceEdges : List ContextEdge :=
  ((readings.extractFootnoteRefs node.text).flatMap fun label =>
    (((footnotes nodes).get label).map fun target =>
      { sourceId := node.nodeId, targetId := target, edge := .footnote, label := some label,
        weight := 2 }).toList) ++
  (readings.extractReferences node.text).flatMap fun reference =>
    ((referenceTarget readings nodes reference.1 reference.2).map fun target =>
      { sourceId := node.nodeId, targetId := target, edge := .crossReference,
        label := some (reference.1 ++ ' ' :: reference.2) }).toList

def tableEdges : List ContextEdge :=
  match nodes.find? fun other => some other.nodeId = node.parentId with
  | some parent =>
    if parent.representation = .table then
      [{ sourceId := node.nodeId, targetId := parent.nodeId, edge := .inTable }]
    else []
  | none => []

def textEdges : List ContextEdge :=
  if node.text.isEmpty then []
  else
    entityEdges readings nodes node ++ definitionEdges readings nodes node ++
      referenceEdges readings nodes node ++ tableEdges nodes node

/-- What is added, in turn. -/
def proposed (documentId : String) (nodes : List Node) : List ContextEdge :=
  siblingEdges nodes ++ readingEdges nodes ++ pageEdges documentId nodes ++
    nodes.flatMap (textEdges readings nodes)

def buildContextGraph (documentId : String) (nodes : List Node) : List ContextEdge :=
  (proposed readings documentId nodes).foldl add []

end MemoryService.Ingestion
