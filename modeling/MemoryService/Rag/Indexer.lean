import MemoryService.Domain.Memory
import MemoryService.Foundation.ReadThrough

/-!
# Indexing memories

A memory is embedded under two keys: its own text, and its text read after the turn it answers.
Every encoder stands behind one cache.
-/

namespace MemoryService.Rag

open Domain Foundation

/-- `str.isspace`. -/
def isSpace (c : Char) : Bool :=
  [0x09, 0x0a, 0x0b, 0x0c, 0x0d, 0x1c, 0x1d, 0x1e, 0x1f, 0x20, 0x85, 0xa0, 0x1680,
    0x2000, 0x2001, 0x2002, 0x2003, 0x2004, 0x2005, 0x2006, 0x2007, 0x2008, 0x2009,
    0x200a, 0x2028, 0x2029, 0x202f, 0x205f, 0x3000].contains c.toNat

def strip (text : List Char) : List Char :=
  ((text.dropWhile isSpace).reverse.dropWhile isSpace).reverse

/-- `text.split(":", 1)[-1].strip()`. -/
def afterColon (text : String) : String :=
  let chars := text.toList
  .ofList (strip (if ':' ∈ chars then (chars.dropWhile (· ≠ ':')).drop 1 else chars))

variable (m : CanonicalMemory)

def indexLine : String :=
  let subject := afterColon (m.subject.getD "")
  let named := subject ≠ "" ∧
    ¬("thr_".toList.isPrefixOf subject.toList || "run_".toList.isPrefixOf subject.toList)
  let who := if named then " " ++ subject ++ ":" else ""
  let tail := match m.systemMetadata.restatement with
    | some restated => if restated ≠ "" then "\n" ++ restated else ""
    | none => ""
  who ++ " " ++ m.memoryType.value.map Char.toLower ++ ": " ++ m.content ++ tail

/-- What gets embedded for a memory: the fact with its context. -/
def memoryIndexText : String :=
  let when_ := String.ofList m.temporal.observedAt.dateIsoformat
  "[" ++ when_ ++ "]" ++ indexLine m

def memoryContextText : String :=
  let text := memoryIndexText m
  let prior := m.systemMetadata.precedingTurn.getD {}
  if m.systemMetadata.category = some "verbatim_turn" ∧ prior.text ≠ "" then
    let speaker := afterColon prior.speaker
    if speaker ≠ "" then speaker ++ ": " ++ prior.text ++ "\n" ++ text
    else prior.text ++ "\n" ++ text
  else text

/-- The components of a vector, as single-precision patterns: vectors are compared up to the
rounding of the encoder's doubles that packing makes. -/
abbrev Vector := List (BitVec 32)

/-- `struct.pack("<nf", …)`: four bytes a component, the lowest first. -/
def encode (vector : Vector) : List (BitVec 8) :=
  vector.flatMap fun component =>
    [component.extractLsb' 0 8, component.extractLsb' 8 8,
      component.extractLsb' 16 8, component.extractLsb' 24 8]

def decode : List (BitVec 8) → Vector
  | a :: b :: c :: d :: raw => (d ++ c ++ b ++ a) :: decode raw
  | _ => []

theorem bytes_append (component : BitVec 32) :
    (component.extractLsb' 24 8 ++ component.extractLsb' 16 8 ++
      component.extractLsb' 8 8 ++ component.extractLsb' 0 8 : BitVec 32) =
      component := by
  grind

theorem decode_encode (vector : Vector) : decode (encode vector) = vector := by
  induction vector with
  | nil => rfl
  | cons component vector ih =>
    have unfolded :
        decode (encode (component :: vector)) =
          (component.extractLsb' 24 8 ++ component.extractLsb' 16 8 ++
            component.extractLsb' 8 8 ++ component.extractLsb' 0 8) ::
            decode (encode vector) := rfl
    rw [unfolded, bytes_append, ih]

def packing : ReadThrough.Packing Vector (List (BitVec 8)) where
  pack := encode
  unpack := decode
  unpackPack := decode_encode

structure DenseSpace where
  name : String
  fingerprint : String
  embed : String → Vector

structure DenseSpaces where
  spaces : List DenseSpace
  nonempty : spaces ≠ []
  names : (spaces.map DenseSpace.name).Nodup
  encoders : ∀ first ∈ spaces, ∀ second ∈ spaces,
    first.fingerprint = second.fingerprint → first.embed = second.embed

structure Request where
  space : DenseSpace
  text : String
  hash : String

def Request.key (request : Request) : String :=
  "emb:" ++ request.space.fingerprint ++ ":" ++ request.hash

def Request.vector (request : Request) : Vector := request.space.embed request.text

abbrev Cache := ReadThrough.Cache String (List (BitVec 8))

abbrev Weather := ReadThrough.Weather String

/-- `_embed_space`: every text read from the cache, the missing ones embedded and stored. -/
def embedSpace (weather : Weather) (cache : Cache) (space : DenseSpace)
    (texts hashes : List String) : List Vector × Cache :=
  ReadThrough.call packing Request.key Request.vector weather cache
    (List.zipWith (fun text hash => ⟨space, text, hash⟩) texts hashes)

/-- The vectors of `texts` in every space; each space's call has its own weather. -/
def embedCached (weather : String → Weather) (texts hashes : List String) :
    List DenseSpace → Cache → List (String × List Vector) × Cache
  | [], cache => ([], cache)
  | space :: spaces, cache =>
    let (vectors, cache) := embedSpace (weather space.name) cache space texts hashes
    let (others, cache) := embedCached weather texts hashes spaces cache
    ((space.name, vectors) :: others, cache)

def vectorsAt (dense : List (String × List Vector)) (i : Nat) :
    List (String × Vector) :=
  dense.map fun (name, vectors) => (name, vectors.getD i [])

structure SearchRecord where
  recordId : String
  dense : List (String × Vector)
  denseContext : List (String × Vector)
  deriving DecidableEq

def indexed : Bool := m.temporal.status = .current ∨ m.temporal.status = .superseded

/-- What the two rounds of cache calls of an indexing meet, by space. -/
structure IndexWeather where
  own : String → Weather
  context : String → Weather

section Indexing

variable (contentHash : String → Digest) (spaces : DenseSpaces)

def ownHash (m : CanonicalMemory) : String := m.normalizedHash.text ++ ":mem3"

def contextHash (m : CanonicalMemory) : String :=
  (contentHash (memoryContextText m)).text ++ ":ctx3"

/-- `index_memories`: what is written for each memory, and the cache after it. -/
def indexMemories (weather : IndexWeather) (cache : Cache)
    (memories : List CanonicalMemory) :
    List (CanonicalMemory × SearchRecord) × Cache :=
  let live := memories.filter indexed
  let texts := live.map memoryIndexText
  let (dense, cache) := embedCached weather.own texts (live.map ownHash) spaces.spaces cache
  -- A memory whose second key is its first is not embedded twice.
  let differs := live.filter fun m => memoryIndexText m ≠ memoryContextText m
  let (denseCtx, cache) :=
    embedCached weather.context (differs.map memoryContextText)
      (differs.map (contextHash contentHash)) spaces.spaces cache
  let records := live.zipIdx.map fun (m, i) =>
    let own := vectorsAt dense i
    let context :=
      if memoryIndexText m ≠ memoryContextText m then
        let before := (live.take i).filter fun m => memoryIndexText m ≠ memoryContextText m
        vectorsAt denseCtx before.length
      else own
    (m, { recordId := m.memoryId, dense := own, denseContext := context })
  (records, cache)

end Indexing

end MemoryService.Rag
