import MemoryService.Foundation.IgnoredCase
import MemoryService.Memory.Consolidation

/-!
# Figures, negation and cleaned objects

What is read off the text of a statement before it is compared.
-/

namespace MemoryService.Memory.Consolidation

open Foundation Foundation.Regex Domain

namespace Native

def asciiWord (others : List Char) (c : Char) : Bool := c.isLower || c.isDigit || others.contains c

/-- `^` -/
def atStart : Regex Char := look fun before _ => before.isEmpty

/-- `$`: at the end, or before a line break that ends the text. -/
def atEnd : Regex Char := look fun _ after => after = [] || after = ['\n']

/-- `.` -/
def notLineBreak : Regex Char := one (· ≠ '\n')

section

variable (unicode : Unicode)

/-- `\w` -/
def word : Regex Char := one unicode.isWord

/-- `[\w-]` -/
def codeCharacter : Regex Char := one fun c => unicode.isWord c || c = '-'

/-- `[^\W\d_]` -/
def letter : Regex Char := one fun c => unicode.isWord c && (unicode.digit c).isNone && c != '_'

def wordPattern : Regex Char :=
  .seq (one (asciiWord [])) (opt (.seq
    (.star (one (asciiWord [apostrophe, '+', '-', '.', '/', '@']))) (one (asciiWord []))))

def separators : List (Char × List Char) :=
  [(',', []), ('\u066c', []), ('\uff0c', []), ('\u066b', ['.']), ('\uff0e', ['.'])]

def numberPattern : Regex Char :=
  .seq (plus (digit unicode)) (.star (.seq
    (one ['.', ',', '\u066b', '\u066c', '\uff0e', '\uff0c'].contains) (plus (digit unicode))))

def codePattern : Regex Char :=
  all [look fun before _ => !before.head?.any fun c => unicode.isWord c || c = '-',
    .ahead true (.seq (.star (codeCharacter unicode)) (letter unicode)),
    .ahead true (.seq (.star (codeCharacter unicode)) (digit unicode)),
    word unicode, .star (codeCharacter unicode), word unicode,
    look fun _ after => !after.head?.any fun c => unicode.isWord c || c = '-']

def objectTail : Regex Char :=
  all [.star (space unicode), boundary unicode,
    oneOf "since" ["as of", "from", "starting", "effective", "until", "through", "till",
      "from now on"],
    boundary unicode, .star notLineBreak, atEnd]

def objectHead : Regex Char :=
  all [atStart, oneOf "now" ["currently", "actually", "still", "also", "just"], spaces unicode]

def objectEnd : Regex Char :=
  all [spaces unicode,
    oneOf "now" ["currently", "these days", "anymore", "any more", "again"], atEnd]

end

def stopWords : List String :=
  ["a", "an", "the", "and", "or", "but", "if", "then", "of", "to", "in", "on", "at", "by", "for",
   "with", "from", "as", "is", "are", "was", "were", "be", "been", "being", "it", "its", "this",
   "that", "these", "those", "there", "here", "i", "me", "my", "we", "us", "our", "you", "your",
   "they", "them", "he", "she", "his", "her", "do", "does", "did", "done", "have", "has", "had",
   "having", "not", "no", "so", "than", "too", "very", "can", "will", "would", "should", "could",
   "may", "might", "must", "shall", "into", "onto", "about", "please"]

def negations : List String :=
  ["not", "no", "never", "none", "nobody", "nothing", "neither", "nor",
   String.ofList ['n', apostrophe, 't'], "cannot"]

def findall (pattern : Regex Char) (text : List Char) : List (List Char) :=
  (pattern.finditer text).map Match.text

/-- `text.rstrip(characters)` -/
def rstrip (characters : List Char) (text : List Char) : List Char :=
  (text.reverse.dropWhile characters.contains).reverse

section

variable (unicode : Unicode) (text : List Char)

/-- `normalize` -/
def normalize : List Char :=
  rstrip " .!?;:".toList ((spaces unicode).sub [' '] (unicode.lower (unicode.strip text)))

def tokens : Finset String :=
  (((findall wordPattern (unicode.lower text)).map String.ofList).filter fun w =>
    w ∉ stopWords ∧ 1 < w.length).toFinset

/-- `str(unicodedata.decimal(char))` of a digit; a separator groups, or is a point. -/
def normaliseNumber (raw : List Char) : List Char :=
  raw.flatMap fun c =>
    match unicode.digit c with
    | some value => Nat.toDigits 10 value
    | none => (separators.lookup c).getD [c]

def numbers : Finset String :=
  ((findall (numberPattern unicode) text).map fun n =>
    String.ofList (normaliseNumber unicode n)).toFinset

def codes : Finset String :=
  ((findall (codePattern unicode) text).map fun code =>
    String.ofList ('#' :: (unicode.lower code).filter (asciiWord []))).toFinset

def figures : Finset String := numbers unicode text ∪ codes unicode text

def hasNegation : Bool :=
  let lowered := unicode.lower text
  ((findall (plus (one fun c => c.isLower || c = apostrophe)) lowered).any fun w =>
    String.ofList w ∈ negations) ||
      lowered.tails.any fun rest => ['n', apostrophe, 't'].isPrefixOf rest

def cleanObject : List Char :=
  let t := (objectHead unicode).sub [] (unicode.strip text)
  let t := (objectTail unicode).sub [] t
  let t := (objectEnd unicode).sub [] (normalize unicode t)
  rstrip " ,;:".toList (t.dropWhile " ,;:".toList.contains)

end

end Native

def Reader.native (unicode : Unicode) (contentHash : String → Digest)
    (spelled : Option String → Option String → Bool)
    (pairs withVectors : MemoryCandidate → List CanonicalMemory → CanonicalMemory → SubjectPair)
    (cosine : Option (String → String → Rat))
    (assist : Option (MemoryCandidate → CanonicalMemory → ConflictVerdict)) : Reader where
  normalizedHash text := contentHash (String.ofList (Native.normalize unicode text.toList))
  tokens text := Native.tokens unicode text.toList
  figures text := Native.figures unicode text.toList
  hasNegation text := Native.hasNegation unicode text.toList
  cleanObject text := String.ofList (Native.cleanObject unicode text.toList)
  spelled := spelled
  pairs := pairs
  withVectors := withVectors
  cosine := cosine
  assist := assist

end MemoryService.Memory.Consolidation
