import MemoryService.Context.Window
import MemoryService.Foundation.Cover
import MemoryService.Rag.Indexer

/-!
# Chunks of a document

A node of a document is cut into chunks of at most so many tokens. Weights are counted in
quarters of a token.
-/

namespace MemoryService.Ingestion

open Foundation List
open Context (tokenUnits)
open Rag (isSpace)

abbrev Text := List Char

abbrev Span := Piece

variable (text : Text)

def estimateTokens : Nat := Context.estimateTokens (String.ofList text)

/-- `sum(map(token_units, text))`. -/
def units : Text → Nat
  | [] => 0
  | c :: rest => tokenUnits c + units rest

def slice (span : Span) : Text := (text.drop span.1).take (span.2 - span.1)

def isBlank (i : Nat) : Bool := text[i]?.any isSpace

def isNewline (i : Nat) : Bool := text[i]? = some '\n'

def cost (i : Nat) : Nat := text[i]?.elim 0 tokenUnits

/-- `_weights`: what stands before a position. -/
def weights (i : Nat) : Nat := units (text.take i)

def runEnd (p : Nat → Bool) : Nat → Nat → Nat
  | 0, i => i
  | most + 1, i => if p i then runEnd p most (i + 1) else i

def runStart (p : Nat → Bool) : Nat → Nat → Nat
  | 0, i => i
  | most + 1, i => if p (i - 1) then runStart p most (i - 1) else i

/-- The span without its surrounding white space; none where nothing is left. -/
def trimmed (start stop : Nat) : Option Span :=
  let first := runEnd (isBlank text) (stop - start) start
  let last := runStart (isBlank text) (stop - first) stop
  if first < last then some (first, last) else none

structure Scan where
  start : Nat
  weight : Nat := 0
  boundary : Option Nat := none
  boundaryWeight : Nat := 0

/-- The piece that is left open by a cut: from the last white space on, or from the character
at `index`. -/
def Scan.reopen (scan : Scan) (index : Nat) : Scan :=
  match scan.boundary.filter (scan.start < ·) with
  | some boundary => { start := boundary, weight := scan.weight - scan.boundaryWeight }
  | none => { start := index }

/-- Pieces are cut off before a character that the piece has no room for; every cut is further
on, so there are no more than characters. -/
def cuts (text : Text) (budget index : Nat) : Nat → Scan → List Span × Scan
  | 0, scan => ([], scan)
  | most + 1, scan =>
    if budget < scan.weight + cost text index ∧ scan.start < index then
      let next := scan.reopen index
      let rest := cuts text budget index most next
      ((trimmed text scan.start next.start).toList ++ rest.1, rest.2)
    else ([], scan)

/-- The character at `index` is added to the piece. -/
def Scan.add (scan : Scan) (text : Text) (index : Nat) : Scan :=
  let weight := scan.weight + cost text index
  if isBlank text index then
    { scan with weight, boundary := some (index + 1), boundaryWeight := weight }
  else { scan with weight }

/-- The characters from `index` on, so many of them. -/
def scanned (text : Text) (budget : Nat) : Nat → Nat → Scan → Option (List Span)
  | 0, index, scan => some (trimmed text scan.start index).toList
  | count + 1, index, scan =>
    if budget < cost text index then none
    else
      let cut := cuts text budget index (index - scan.start) scan
      (scanned text budget count (index + 1) (cut.2.add text index)).map (cut.1 ++ ·)

/-- `_hard_split_spans`; none where it raises, of a budget that cannot hold a character. -/
def hardSplitSpans (maxTokens start stop : Nat) : Option (List Span) :=
  if maxTokens < 1 then none
  else scanned text (maxTokens * 4) (stop - start) start { start }

variable (maxTokens : Nat)

def hardSplit : Option (List Text) :=
  (hardSplitSpans text maxTokens 0 text.length).map fun spans => spans.map (slice text)

def boundedSpans (spans : List Span) (maxTokens : Nat) : Option (List Span) :=
  (spans.mapM fun span =>
    if maxTokens * 4 < weights text span.2 - weights text span.1 then
      hardSplitSpans text maxTokens span.1 span.2
    else some [span]).map flatten

/-- Where the part after `(previous, last)` begins, whose next unit is `(a, b)`: at the
earliest of the starts that keeps the tail within the overlap and the unit within the budget,
or at the unit. -/
def reopened (budget : Nat) (overlap : Int) (starts : List Nat)
    (previous last a b : Nat) : Nat :=
  if overlap = 0 then a
  else
    (((starts.dropWhile (· ≤ previous)).takeWhile (· < last)).find? fun point =>
      ((weights text last - weights text point : Nat) : Int) ≤ overlap &&
        weights text b - weights text point ≤ budget).getD a

def packed (text : Text) (budget : Nat) (overlap : Int) (starts : List Nat) :
    Option Span → List Span → List Span
  | current, [] => current.toList
  | none, unit :: rest => packed text budget overlap starts (some unit) rest
  | some (first, last), (a, b) :: rest =>
    if budget < weights text b - weights text first then
      (first, last) ::
        packed text budget overlap starts
          (some (reopened text budget overlap starts first last a b, b)) rest
    else packed text budget overlap starts (some (first, b)) rest

def packSpans (spans : List Span) (maxTokens : Nat) (overlapTokens : Int)
    (starts : List Nat) : List Span :=
  packed text (maxTokens * 4) (overlapTokens * 4) starts none spans

/-- Where the match of a separator that starts at a position ends, before a given stop. -/
abbrev Separator := Text → Nat → Nat → Option Nat

/-- `\n+` -/
def lineBreak : Separator := fun text stop i =>
  let last := runEnd (isNewline text) (stop - i) i
  if i < last then some last else none

/-- `\n\s*\n` -/
def blankLine : Separator := fun text stop i =>
  if i < stop ∧ isNewline text i then
    let last := runEnd (isBlank text) (stop - (i + 1)) (i + 1)
    (((range' (i + 1) (last - (i + 1))).filter (isNewline text)).getLast?).map (· + 1)
  else none

def after (i : Nat) (marks : List Char) : Bool := 0 < i && text[i - 1]?.any marks.contains

/-- `(?<=[.!?])\s+|(?<=[\u3002\uff01\uff1f\u0964\u0965\u061f\u06d4])\s*|\n+` -/
def sentenceBreak : Separator := fun text stop i =>
  let last := runEnd (isBlank text) (stop - i) i
  if after text i ['.', '!', '?'] ∧ i < last then some last
  else if after text i ['\u3002', '\uff01', '\uff1f', '\u0964', '\u0965', '\u061f', '\u06d4']
  then some last
  else lineBreak text stop i

/-- What stands between the matches from `i` on. -/
def between (text : Text) (separator : Separator) (stop : Nat) : Nat → Nat → Nat → List Span
  | 0, position, _ => (trimmed text position stop).toList
  | most + 1, position, i =>
    if stop < i then (trimmed text position stop).toList
    else
      match separator text stop i with
      | none => between text separator stop most position (i + 1)
      | some last =>
        (trimmed text position i).toList ++ between text separator stop most last (max last (i + 1))

def segments (separator : Separator) (start stop : Nat) : List Span :=
  between text separator stop (stop + 1 - start) start start

def sentences (line : Span) : Option (List Span) :=
  boundedSpans text (segments text sentenceBreak line.1 line.2) maxTokens

def lineUnits (line : Span) (cut : List Span) : List Span :=
  if weights text line.2 - weights text line.1 ≤ maxTokens * 4 then [line] else cut

def splitSentenceSpans (overlapTokens : Int) :
    Option (List Span) :=
  let lines := segments text lineBreak 0 text.length
  (lines.mapM (sentences text maxTokens)).map fun cut =>
    packSpans text (zipWith (lineUnits text maxTokens) lines cut).flatten maxTokens
      overlapTokens (cut.flatten.map Prod.fst)

def splitCodeSpans : Option (List Span) :=
  (boundedSpans text (segments text blankLine 0 text.length) maxTokens).map fun blocks =>
    packSpans text blocks maxTokens 0 []

/-- `"\n".join(…)` -/
def joined : List Text → Text
  | [] => []
  | [line] => line
  | line :: rest => line ++ '\n' :: joined rest

def filled (budget : Nat) (before : Text) : List Text → Nat → List Text → List Text
  | current, _, [] => if current = [] then [] else [before ++ joined current]
  | current, weight, fragment :: rest =>
    let added := units fragment + if current = [] then 0 else units ['\n']
    if current ≠ [] ∧ budget < weight + added then
      (before ++ joined current) ::
        filled budget before [fragment] (units before + units fragment) rest
    else filled budget before (current ++ [fragment]) (weight + added) rest

def packUnits (rows : List Text) (maxTokens : Nat) (before : Text) : Option (List Text) :=
  (rows.mapM fun row => hardSplit row ((maxTokens * 4 - units before) / 4)).map fun fragments =>
    filled (maxTokens * 4) before [] (units before) fragments.flatten

/-- `^\s*\|?\s*:?-{2,}` -/
def isRule (row : Text) : Bool :=
  let bar := row.dropWhile isSpace
  let colon := (if bar.head? = some '|' then bar.tail else bar).dropWhile isSpace
  ['-', '-'].isPrefixOf (if colon.head? = some ':' then colon.tail else colon)

def splitTable : Option (List Text) :=
  let rows := text.splitOn '\n'
  if rows.length < 3 then hardSplit text maxTokens
  else
    let header := if rows[1]?.any isRule then rows.take 2 else rows.take 1
    let before := joined header ++ ['\n']
    -- a header that takes the budget leaves no room for rows
    if maxTokens * 4 < units before + 16 then hardSplit text maxTokens
    else packUnits (rows.drop header.length) maxTokens before

inductive Representation where
  | rawFile
  | document
  | documentVersion
  | section_
  | subsection
  | paragraph
  | table
  | codeBlock
  | chunk
  | summary
  | entity
  | relation
  | embedding
  | message
  | memory
  deriving DecidableEq

def Representation.isStructural : Representation → Bool
  | .document | .section_ | .subsection => true
  | _ => false

structure DocumentNode where
  nodeId : String
  representation : Representation
  text : Text

structure Chunk where
  nodeId : String
  ordinal : Nat
  text : Text
  tokenEstimate : Nat

abbrev Part := Text × Option Span

def nodeParts (node : DocumentNode) (maxTokens : Nat) (overlapTokens : Int) :
    Option (List Part) :=
  let sliced (spans : List Span) : List Part :=
    spans.map fun span => (slice node.text span, some span)
  if estimateTokens node.text ≤ maxTokens then
    some (sliced (trimmed node.text 0 node.text.length).toList)
  else
    match node.representation with
    | .table =>
      (splitTable node.text maxTokens).map fun parts =>
        (parts.filter fun part => !part.all isSpace).map fun part => (part, none)
    | .codeBlock => (splitCodeSpans node.text maxTokens).map sliced
    | _ => (splitSentenceSpans node.text maxTokens overlapTokens).map sliced

def joinParts (previous next : Part) : Part :=
  match previous.2, next.2 with
  | some (first, _), some (_, last) => (slice text (first, last), some (first, last))
  | _, _ => (previous.1 ++ '\n' :: next.1, none)

/-- A tiny part is merged into the part before it where the two fit; `previous` is that. -/
def merged (text : Text) (maxTokens : Nat) (minTokens : Int) :
    Option Part → List Part → List Part
  | previous, [] => previous.toList
  | none, part :: rest => merged text maxTokens minTokens (some part) rest
  | some previous, part :: rest =>
    if (estimateTokens part.1 : Int) < minTokens ∧
        estimateTokens (joinParts text previous part).1 ≤ maxTokens then
      merged text maxTokens minTokens (some (joinParts text previous part)) rest
    else previous :: merged text maxTokens minTokens (some part) rest

def mergeTiny (node : DocumentNode) (parts : List Part) (maxTokens : Nat) (minTokens : Int) :
    List Text :=
  (merged node.text maxTokens minTokens none parts).map Prod.fst

def nodeChunks (minTokens overlapTokens : Int) (node : DocumentNode) :
    Option (List Chunk) :=
  if node.representation.isStructural ∨ node.text = [] then some []
  else
    (nodeParts node maxTokens overlapTokens).map fun parts =>
      (mergeTiny node parts maxTokens minTokens).mapIdx fun ordinal text =>
        { nodeId := node.nodeId, ordinal, text, tokenEstimate := estimateTokens text }

def chunkNodes (nodes : List DocumentNode) (maxTokens : Nat)
    (minTokens overlapTokens : Int) : Option (List Chunk) :=
  (nodes.mapM (nodeChunks maxTokens minTokens overlapTokens)).map flatten

end MemoryService.Ingestion
