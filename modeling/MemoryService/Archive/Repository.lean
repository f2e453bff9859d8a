import MemoryService.Archive.Codec
import MemoryService.Foundation.Table
import Mathlib.Data.List.Sort

/-!
# The stores the archive works on

The message table and the segment table of the database, and the object store.
Every function is one statement or one call.
-/

namespace MemoryService.Archive

open Domain Foundation List

/-- A row of the message table. -/
structure MessageRow where
  message : Message
  content : Option String
  contentBytes : Nat
  archiveStatus : ArchiveStatus
  archivedAt : Option Instant
  archiveSegmentId : Option String

namespace MessageRow

def messageId (row : MessageRow) : String := row.message.messageId

end MessageRow

/-- `SqlMessageRepository.add`, of a message with the default archive status. -/
def addMessage (message : Message) : MessageRow where
  message := message
  content := some message.content
  contentBytes := message.content.utf8ByteSize
  archiveStatus := .staged
  archivedAt := none
  archiveSegmentId := none

/-- A payload that was purged is handed out as the empty string. -/
def rowToMessage (r : MessageRow) : Message :=
  { r.message with
    content := r.content.getD ""
    archiveStatus := r.archiveStatus
    attachments := [] }

def listStaged (tenantId threadId : String) (limit : Nat)
    (rows : List MessageRow) : List Message :=
  let staged := rows.filter fun r =>
    r.archiveStatus = .staged ∧ r.message.tenantId = tenantId ∧ r.message.threadId = threadId
  let ordered := staged.insertionSort
    fun r other => r.message.sequence ≤ other.message.sequence
  (ordered.take limit).map rowToMessage

theorem mem_listStaged
    {tenantId threadId : String} {limit : Nat} {rows : List MessageRow} {m : Message}
    (member : m ∈ listStaged tenantId threadId limit rows) :
    ∃ row ∈ rows, row.archiveStatus = .staged ∧ m = rowToMessage row := by
  obtain ⟨row, inPage, rfl⟩ := mem_map.mp member
  have inOrdered := mem_of_mem_take inPage
  rw [mem_insertionSort, mem_filter] at inOrdered
  exact ⟨row, inOrdered.1, (of_decide_eq_true inOrdered.2).1, rfl⟩

def markArchived (messageIds : List String) (segmentId : String)
    (archivedAt : Instant) : List MessageRow → List MessageRow :=
  updateWhere (fun r => r.messageId ∈ messageIds) fun r =>
    { r with
      archiveStatus := .archived
      archivedAt := some archivedAt
      archiveSegmentId := some segmentId }

/-- The rows `purge_payloads` may choose from; the grace period is over for them. -/
def purgeable (now : Instant) (graceSeconds minBytes : Nat) (r : MessageRow) : Bool :=
  r.archiveStatus = .archived ∧
    r.archivedAt.any (fun archivedAt => archivedAt.after graceSeconds ≤ now) ∧
    minBytes ≤ r.contentBytes ∧ r.content.isSome

def purgePayloads (ids : List String) : List MessageRow → List MessageRow :=
  updateWhere (fun r => r.messageId ∈ ids) fun r =>
    { r with content := none, archiveStatus := .purged }

inductive SegmentStatus where
  | uploading
  | verified
  | failed
  deriving DecidableEq

structure ArchiveSegment where
  segmentId : String
  tenantId : String
  threadId : String
  bucket : String
  key : String
  generation : Option String
  sizeBytes : Nat
  rawBytes : Nat
  checksumSha256 : String
  messageCount : Nat
  firstSequence : Nat
  lastSequence : Nat
  firstAt : Instant
  lastAt : Instant
  status : SegmentStatus
  manifest : Manifest
  createdAt : Instant
  verifiedAt : Option Instant
  lastError : Option String

def markVerified (segmentId : String) (generation : Option String)
    (verifiedAt : Instant) : List ArchiveSegment → List ArchiveSegment :=
  updateWhere (fun seg => seg.segmentId = segmentId) fun seg =>
    { seg with
      status := .verified
      generation := generation
      verifiedAt := some verifiedAt
      lastError := none }

def markFailed (segmentId error : String) :
    List ArchiveSegment → List ArchiveSegment :=
  updateWhere (fun seg => seg.segmentId = segmentId) fun seg =>
    { seg with status := .failed, lastError := some (.ofList (error.toList.take 2000)) }

def byCreation (segments : List ArchiveSegment) : List ArchiveSegment :=
  segments.insertionSort fun seg other => seg.createdAt ≤ other.createdAt

def listByStatus (status : SegmentStatus) (now : Instant) (staleSeconds : Nat)
    (segments : List ArchiveSegment) : List ArchiveSegment :=
  (byCreation (segments.filter fun seg =>
    seg.status = status ∧ seg.createdAt.after staleSeconds ≤ now)).take 200

def listVerified (limit : Nat) (segments : List ArchiveSegment) :
    List ArchiveSegment :=
  (byCreation (segments.filter fun seg => seg.status = .verified)).take limit

def listForThread (tenantId threadId : String)
    (segments : List ArchiveSegment) : List ArchiveSegment :=
  (segments.filter fun seg =>
      seg.tenantId = tenantId ∧ seg.threadId = threadId).insertionSort
    fun seg other => seg.firstSequence ≤ other.firstSequence

structure BlobRef where
  bucket : String
  key : String
  generation : Option String
  sizeBytes : Nat
  checksumSha256 : String

structure BlobObject where
  ref : BlobRef
  data : ByteArray

inductive BlobError where
  | blobNotFound
  | blobAlreadyExists
  | blobChecksumMismatch

/-- The name an error row keeps: `type(exc).__name__`. -/
def BlobError.name : BlobError → String
  | .blobNotFound => "BlobNotFound"
  | .blobAlreadyExists => "BlobAlreadyExists"
  | .blobChecksumMismatch => "BlobChecksumMismatch"

section Objects

variable (sha256 : ByteArray → String) (objects : List BlobObject) (bucket key : String)

def findObject : Option BlobObject :=
  objects.find? fun object => object.ref.bucket = bucket ∧ object.ref.key = key

/-- An immutable upload (`if_generation_match=0`): the object to be stored. -/
def put (data : ByteArray)
    (checksumSha256 : String) : Except BlobError BlobObject :=
  if checksumSha256 ≠ sha256 data then .error .blobChecksumMismatch
  else
    match findObject objects bucket key with
    | some _ => .error .blobAlreadyExists
    | none =>
      .ok
        { ref :=
            { bucket
              key
              generation := some "1"
              sizeBytes := data.size
              checksumSha256 := sha256 data }
          data }

def get (generation : Option String) : Except BlobError ByteArray :=
  match findObject objects bucket key with
  | some object =>
    if generation ≠ none ∧ object.ref.generation ≠ generation then
      .error .blobNotFound
    else .ok object.data
  | none => .error .blobNotFound

def head :
    Except BlobError BlobRef :=
  match findObject objects bucket key with
  | some object => .ok object.ref
  | none => .error .blobNotFound

def verify (ref : BlobRef) : Bool :=
  (findObject objects ref.bucket ref.key).any fun object =>
    object.ref.generation = ref.generation ∧ sha256 object.data = ref.checksumSha256

end Objects

end MemoryService.Archive
