import Mathlib.Data.Finset.Sort
import Mathlib.Algebra.Order.Ring.Rat
import Mathlib.Data.String.Basic

/-!
# Subjects

A subject is reduced to the parts that decide its identity: its identifiers, each with the word
it labels, its words, and what is set aside of it.
-/

namespace MemoryService.Subjects

structure Subject where
  text : String
  identity : Option String := none
  words : List String := []
  sequence : List String := []
  /-- every identifier with the word right before it, `""` where there is none -/
  labelled : List (String × String) := []
  loose : List String := []
  titles : Finset String := ∅
  directions : Finset String := ∅
  legal : Option String := none

def Subject.ids (a : Subject) : List String := a.labelled.map Prod.snd

def Subject.tokens (a : Subject) : Finset String := a.loose.toFinset

def Subject.empty (a : Subject) : Bool := a.identity.isNone && a.words.isEmpty && a.labelled.isEmpty

inductive EntryKind where
  | id
  | word
  | title
  | direction
  | connective
  | legal

structure Entry where
  kind : EntryKind
  strict : String
  folded : String

structure Reading where
  subject : Subject
  previous : String := ""

def Reading.entry (reading : Reading) (entry : Entry) : Reading :=
  let a := reading.subject
  match entry.kind with
  | .legal => { reading with subject := { a with legal := some entry.strict } }
  | .id =>
    { subject :=
        { a with
          sequence := a.sequence ++ [entry.strict]
          labelled := a.labelled ++ [(reading.previous, entry.strict)] } }
  | .title =>
    { reading with
      subject :=
        { a with
          sequence := a.sequence ++ [entry.strict]
          words := a.words ++ [entry.strict]
          titles := insert entry.folded a.titles } }
  | .word =>
    { subject :=
        { a with
          sequence := a.sequence ++ [entry.strict]
          words := a.words ++ [entry.strict]
          loose := a.loose ++ [entry.folded] }
      previous := entry.folded }
  | .direction =>
    { subject :=
        { a with
          sequence := a.sequence ++ [entry.strict]
          words := a.words ++ [entry.strict]
          loose := a.loose ++ [entry.folded]
          directions := insert entry.folded a.directions }
      previous := entry.folded }
  | .connective =>
    { reading with
      subject :=
        { a with
          sequence := a.sequence ++ [entry.strict]
          words := a.words ++ [entry.strict] } }

/-- `_subject`. -/
def subjectOf (text : String) (entries : List Entry) : Subject :=
  (entries.foldl Reading.entry { subject := { text } }).subject

/-- What is read off Unicode and the vocabulary. -/
structure Lexicon where
  casefold : String → String
  isalnum : Char → Bool
  isalpha : String → Bool
  isupper : String → Bool
  isStopword : String → Bool
  letters : String → String

structure SetOrder where
  iterate : Finset String → List String
  nodup : ∀ set, (iterate set).Nodup
  mem : ∀ set text, text ∈ iterate set ↔ text ∈ set

inductive SubjectVerdict where
  | same
  | possible
  | different
  deriving DecidableEq

section

variable (lexicon : Lexicon)

/-- Some prefix of `w`, of one character or more, starts `s`, and the rest goes on. -/
def afterPrefix (goesOn : List Char → Bool) : List Char → List Char → Bool
  | c :: s, d :: w => c = d && (goesOn s || afterPrefix goesOn s w)
  | _, _ => false

/-- `_covers`. -/
def covers (s : List Char) : List String → Bool
  | [] => s.isEmpty
  | w :: ws =>
    (lexicon.isStopword w && covers s ws) || afterPrefix (fun rest => covers rest ws) s w.toList

/-- `all(c in rest for c in s)`: the characters in order. -/
def inOrder : List Char → List Char → Bool
  | [], _ => true
  | _ :: _, [] => false
  | c :: s, d :: rest => if c = d then inOrder s rest else inOrder (c :: s) rest

def splitHyphen (w : String) : List String :=
  ((w.toList.splitOn '-').map String.ofList).filter (· ≠ "")

def abbreviates (short : String) (words : List String) : Bool :=
  let s := (lexicon.casefold short).toList.filter lexicon.isalnum
  let ws := words.flatMap fun w => splitHyphen (lexicon.casefold w)
  match s, ws with
  | c :: _ :: _, first :: later =>
    if s = (ws.flatMap String.toList) ∨ some c ≠ first.toList.head? then false
    else if later = [] ∧ lexicon.isupper short ∧ s.length ≤ 4 ∧ 8 ≤ first.toList.length then
      inOrder s.tail first.toList.tail
    else covers lexicon s ws
  | _, _ => false

end

def diffs (x y : List Char) : List Nat := (List.range x.length).filter fun i => x[i]? ≠ y[i]?

/-- One more letter at the first place where the texts differ. -/
def oneLonger (short long : List Char) : Bool :=
  match short, long with
  | [], [_] => true
  | c :: short, d :: long => if c = d then oneLonger short long else c :: short = long
  | _, _ => false

def editDistanceAtMostOne (x y : List Char) : Bool :=
  if x = y then true
  else if x.length = y.length then
    match diffs x y with
    | [_] => true
    | [i, j] => j = i + 1 && x[i]? = y[j]? && x[j]? = y[i]?
    | _ => false
  else if x.length < y.length then oneLonger x y
  else oneLonger y x

/-- One edit apart, and neither is a short word. -/
def near (x y : String) : Bool :=
  5 ≤ min x.toList.length y.toList.length && editDistanceAtMostOne x.toList y.toList

/-- Each word in turn takes the first word left that is near it. -/
def matchAll : List String → List String → Bool
  | [], _ => true
  | x :: xs, rest =>
    match rest.find? (near x) with
    | none => false
    | some y => matchAll xs (rest.erase y)

/-- `_spelling_variants` of the sets as they are iterated. -/
def variants (onlyA onlyB : List String) : Bool :=
  if onlyA.length ≠ onlyB.length ∨ 2 < onlyA.length then false else matchAll onlyA onlyB

section

variable (lexicon : Lexicon) (order : SetOrder)

def spellingVariants (onlyA onlyB : Finset String) : Bool :=
  variants (order.iterate onlyA) (order.iterate onlyB)

/-- One side of `_initialism`. -/
def abbreviatesRest (short : Finset String) (words : List String) : Bool :=
  match order.iterate short with
  | [token] =>
    let rest := words.filter (· ∉ short)
    2 ≤ token.toList.length && token.toList.length ≤ 8 && 2 ≤ rest.length &&
      abbreviates lexicon token rest
  | _ => false

def initialism (onlyA : Finset String) (a : List String) (onlyB : Finset String)
    (b : List String) : Bool :=
  abbreviatesRest lexicon order onlyA b || abbreviatesRest lexicon order onlyB a

def Subject.label (a : Subject) (word : String) : Option String := a.labelled.reverse.lookup word

variable (a b : Subject)

/-- An identifier of `b` that another one of `a` has the label of. -/
def labelsConflict : Bool := b.labelled.any fun (word, i) => word ≠ "" && (a.label word).getD i ≠ i

def bothDiffer (x y : Finset String) : Bool := x.Nonempty && y.Nonempty && x ≠ y

def truthy (text : Option String) : Bool := text.any (· ≠ "")

/-- `_conflict`, whether there is one. -/
def conflict : Bool :=
  (!a.ids.isEmpty && !b.ids.isEmpty && a.ids ≠ b.ids) || labelsConflict a b ||
    (truthy a.legal && truthy b.legal && a.legal ≠ b.legal) ||
    bothDiffer a.titles b.titles || bothDiffer a.directions b.directions

/-- `_blocked`: the verdicts nothing can override. -/
def blocked : Option SubjectVerdict :=
  if a.identity.isSome || b.identity.isSome then
    if a.identity = b.identity then some .same else some .different
  else if a.empty || b.empty then some .different
  else if conflict a b then some .different else none

def ambiguous (short : Subject) (names : List Subject) : Bool :=
  let extended := names.filter fun n =>
    short.tokens ⊂ n.tokens && (short.ids.isEmpty || short.ids = n.ids)
  ¬extended.Pairwise fun x y => x.tokens \ y.tokens = ∅ ∨ y.tokens \ x.tokens = ∅

def joined : Bool :=
  lexicon.letters a.text = lexicon.letters b.text || "".intercalate a.words = "".intercalate b.words

def codeAgainstName (code name : Subject) : Option SubjectVerdict :=
  if code.tokens.Nonempty || code.ids.isEmpty || !name.tokens.Nonempty || !name.ids.isEmpty then
    none
  else
    match code.ids with
    | [letters] =>
      if lexicon.isalpha letters && letters ≠ "" && abbreviates lexicon letters name.loose then
        some .possible
      else some .different
    | _ => some .different

def overlap (names : List Subject) : Option SubjectVerdict :=
  if a.sequence = b.sequence then some .same
  else if a.ids = b.ids ∧ a.labelled = b.labelled ∧ joined lexicon a b then some .same
  else if a.tokens = b.tokens then some .possible
  else
    match (codeAgainstName lexicon a b).orElse fun _ => codeAgainstName lexicon b a with
    | some verdict => some verdict
    | none =>
      if a.tokens ⊂ b.tokens ∨ b.tokens ⊂ a.tokens then
        if ambiguous (if a.tokens ⊂ b.tokens then a else b) names then some .different
        else some .possible
      else none

/-- The double that is written 0.77. -/
def densePossible : ℚ := 1733885856537641 / 2251799813685248

/-- The verdict of `compare`. -/
def compare (cosine : Option ℚ) (names : List Subject) (topic : Bool) :
    SubjectVerdict :=
  match blocked a b with
  | some verdict => verdict
  | none =>
    match overlap lexicon a b names with
    | some verdict => verdict
    | none =>
      let onlyA := a.tokens \ b.tokens
      let onlyB := b.tokens \ a.tokens
      if spellingVariants order onlyA onlyB then .possible
      else if initialism lexicon order onlyA a.words onlyB b.words then .possible
      else if cosine.any (densePossible ≤ ·) then .possible
      else if topic && (a.tokens ∩ b.tokens).Nonempty then .possible
      else .different

end

end MemoryService.Subjects
