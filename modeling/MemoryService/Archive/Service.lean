import MemoryService.Archive.Repository
import MemoryService.Foundation.Transition

/-!
# The archive service

`archive_thread`, `reconcile`, `purge_staged_payloads` and `load_message_content` run as tasks. A
task is what is left of a call after the statements and the object-store calls it has made, so
tasks can interleave and be lost between any two of them.
-/

namespace MemoryService.Archive

open Domain Foundation

structure ArchiveSettings where
  segmentTargetBytes : Nat := 4 * 1024 * 1024
  segmentMaxMessages : Nat := 5000
  purgeGraceSeconds : Nat := 24 * 3600
  purgeMinPayloadBytes : Nat := 4096
  tenantShards : Nat := 64

structure ArchiveService where
  zstd : Zstd
  sha256 : ByteArray → String
  cfg : ArchiveSettings
  chatBucket : String

/-- Where `_archive_messages` stands with the segment in hand. -/
inductive ArchivePhase where
  /-- the next planned segment is to be built and its manifest row inserted -/
  | next
  | uploading (built : BuiltSegment)
  | uploaded (built : BuiltSegment) (ref : BlobRef)
  | failing (built : BuiltSegment) (error : String)
  | verified (built : BuiltSegment) (ref : BlobRef)

structure ArchiveTask where
  tenantId : String
  threadId : String
  phase : ArchivePhase
  plans : List SegmentPlan

inductive ReconcilePhase where
  | listFailed
  | listVerified
  | next
  | repairing (seg : ArchiveSegment) (head : BlobRef)
  | repaired (seg : ArchiveSegment) (head : Option BlobRef)
  | checking (seg : ArchiveSegment) (ref : BlobRef)
  | mismatched (seg : ArchiveSegment)

structure ReconcileTask where
  now : Instant
  staleAfterSeconds : Nat
  verifySample : Nat
  phase : ReconcilePhase
  /-- `uploading + failed`, as far as they are not done -/
  repairs : List ArchiveSegment
  /-- the sample of verified segments, as far as it is not done -/
  checks : List ArchiveSegment

inductive LoadError where
  /-- the object store, or a line of the segment, could not be read -/
  | unreadable
  | corruptSource
  | notFound

inductive Task where
  | archive (task : ArchiveTask)
  | reconcile (task : ReconcileTask)
  | purge (ids : List String)
  | load (message : Message) (segments : Option (List ArchiveSegment))

inductive Write where
  | nothing
  | insertMessage (row : MessageRow)
  | insertSegment (seg : ArchiveSegment)
  | commitFailed (segmentId error : String)
  /-- `mark_verified` and `mark_archived` in one transaction -/
  | commitVerified (segmentId : String) (generation : Option String)
      (verifiedAt : Instant) (messageIds : List String)
  | commitPurged (ids : List String)
  | store (object : BlobObject)
  | lose (bucket key : String)
  | corrupt (bucket key : String) (data : ByteArray)
  | loaded (messageId : String) (result : Except LoadError String)

structure State where
  messages : List MessageRow := []
  segments : List ArchiveSegment := []
  objects : List BlobObject := []
  tasks : List Task := []
  loads : List (String × Except LoadError String) := []

def State.write (state : State) : Write → State
  | .nothing => state
  | .insertMessage row => { state with messages := state.messages ++ [row] }
  | .insertSegment seg => { state with segments := state.segments ++ [seg] }
  | .commitFailed segmentId error =>
    { state with segments := markFailed segmentId error state.segments }
  | .commitVerified segmentId generation verifiedAt messageIds =>
    { state with
      segments := markVerified segmentId generation verifiedAt state.segments
      messages := markArchived messageIds segmentId verifiedAt state.messages }
  | .commitPurged ids => { state with messages := purgePayloads ids state.messages }
  | .store object => { state with objects := state.objects ++ [object] }
  | .lose bucket key =>
    { state with
      objects := state.objects.filter fun object =>
        ¬(object.ref.bucket = bucket ∧ object.ref.key = key) }
  | .corrupt bucket key data =>
    { state with
      objects := updateWhere
        (fun object => object.ref.bucket = bucket ∧ object.ref.key = key)
        (fun object => { object with data }) state.objects }
  | .loaded messageId result => { state with loads := state.loads ++ [(messageId, result)] }

/-- How the object store takes one call. -/
inductive BlobReply where
  | answers
  | raises (error : String)
  /-- the call takes effect, and its answer is lost -/
  | raisesAfter (error : String)

/-- What a step gets from outside: the clock, a fresh id, the object store. -/
structure Reply where
  now : Instant := ⟨0⟩
  newId : String := ""
  blob : BlobReply := .answers

section Service

variable (service : ArchiveService)

def manifestRow (tenantId threadId : String) (createdAt : Instant)
    (built : BuiltSegment) : ArchiveSegment where
  segmentId := built.segmentId
  tenantId := tenantId
  threadId := threadId
  bucket := service.chatBucket
  key := built.key
  generation := none
  sizeBytes := built.data.size
  rawBytes := built.rawBytes
  checksumSha256 := built.checksumSha256
  messageCount := built.messageIds.length
  firstSequence := built.firstSequence
  lastSequence := built.lastSequence
  firstAt := built.firstAt
  lastAt := built.lastAt
  status := .uploading
  manifest := built.manifest
  createdAt := createdAt
  verifiedAt := none
  lastError := none

def taken (segments : List ArchiveSegment) (seg : ArchiveSegment) : Bool :=
  segments.any fun other =>
    other.segmentId = seg.segmentId ∨ other.bucket = seg.bucket ∧ other.key = seg.key

variable (state : State) (reply : Reply)

def archiveStep (task : ArchiveTask) :
    Write × Option ArchiveTask :=
  match task.phase with
  | .next =>
    match task.plans with
    | [] => (.nothing, none)
    | plan :: plans =>
      match
        buildSegment service.zstd service.sha256 plan.messages task.tenantId
          task.threadId service.cfg.tenantShards reply.newId
      with
      | none => (.nothing, none)
      | some built =>
        let seg := manifestRow service task.tenantId task.threadId reply.now built
        -- A taken id or key is refused by the table, and the task raises.
        if taken state.segments seg then (.nothing, none)
        else
          (.insertSegment seg, some { task with phase := .uploading built, plans })
  | .uploading built =>
    match
      reply.blob,
      put service.sha256 state.objects service.chatBucket built.key built.data
        built.checksumSha256
    with
    | .raises error, _ => (.nothing, some { task with phase := .failing built error })
    | .raisesAfter error, .ok object =>
      (.store object, some { task with phase := .failing built error })
    | .answers, .ok object =>
      (.store object, some { task with phase := .uploaded built object.ref })
    | _, .error error => (.nothing, some { task with phase := .failing built error.name })
  | .uploaded built ref =>
    match reply.blob with
    | .raises error | .raisesAfter error =>
      (.nothing, some { task with phase := .failing built error })
    | .answers =>
      if verify service.sha256 state.objects ref then
        (.nothing, some { task with phase := .verified built ref })
      else
        (.nothing, some { task with phase := .failing built "verification failed" })
  | .failing built error => (.commitFailed built.segmentId error, none)
  | .verified built ref =>
    (.commitVerified built.segmentId ref.generation reply.now built.messageIds,
      some { task with phase := .next })

def reconcileStep (task : ReconcileTask) :
    Write × Option ReconcileTask :=
  match task.phase with
  | .listFailed =>
    (.nothing,
      some
        { task with
          phase := .listVerified
          repairs := task.repairs ++
            listByStatus .failed task.now task.staleAfterSeconds state.segments })
  | .listVerified =>
    (.nothing,
      some
        { task with
          phase := .next
          checks := listVerified task.verifySample state.segments })
  | .next =>
    match task.repairs, task.checks with
    | seg :: repairs, _ =>
      match reply.blob, head state.objects seg.bucket seg.key with
      | .answers, .ok ref =>
        if ref.checksumSha256 = seg.checksumSha256 then
          (.nothing, some { task with phase := .repairing seg ref, repairs })
        else (.nothing, some { task with phase := .repaired seg none, repairs })
      | _, _ => (.nothing, some { task with phase := .repaired seg none, repairs })
    | [], seg :: checks =>
      match reply.blob, head state.objects seg.bucket seg.key with
      | .answers, .ok ref =>
        if ref.checksumSha256 = seg.checksumSha256 then
          (.nothing, some { task with phase := .checking seg ref, checks })
        else (.nothing, some { task with phase := .mismatched seg, checks })
      -- A read that failed is left for the next pass.
      | _, _ => (.nothing, some { task with checks })
    | [], [] => (.nothing, none)
  | .repairing seg ref =>
    match reply.blob with
    | .answers =>
      if verify service.sha256 state.objects ref then
        (.nothing, some { task with phase := .repaired seg (some ref) })
      else (.nothing, some { task with phase := .repaired seg none })
    | _ => (.nothing, some { task with phase := .repaired seg none })
  | .repaired seg (some ref) =>
    (.commitVerified seg.segmentId ref.generation task.now seg.manifest.messageIds,
      some { task with phase := .next })
  | .repaired seg none =>
    (.commitFailed seg.segmentId "object missing or unverifiable at reconcile",
      some { task with phase := .next })
  | .checking seg ref =>
    match reply.blob with
    | .answers =>
      if verify service.sha256 state.objects ref then
        (.nothing, some { task with phase := .next })
      else (.nothing, some { task with phase := .mismatched seg })
    | _ => (.nothing, some { task with phase := .next })
  | .mismatched seg =>
    (.commitFailed seg.segmentId "checksum mismatch at reconcile",
      some { task with phase := .next })

/-- The loop over the records of one segment; `none` when none is the message's. -/
def scanRecords (message : Message) (raised : Bool) :
    List Json → Option (Except LoadError String)
  | [] => if raised then some (.error .unreadable) else none
  | record :: records =>
    match record.get? "message_id" with
    | none => some (.error .unreadable)
    | some found =>
      if found.isStr message.messageId then
        match record.get? "content_hash", record.get? "content" with
        | some hash, some (.str content) =>
          if hash.isStr message.contentHash then some (.ok content)
          else some (.error .corruptSource)
        | _, _ => some (.error .unreadable)
      else scanRecords message raised records

def loadStep (message : Message) :
    Option (List ArchiveSegment) → Write × Option (Option (List ArchiveSegment))
  | none =>
    if message.archiveStatus ≠ .purged then
      (.loaded message.messageId (.ok message.content), none)
    else
      (.nothing, some (some (listForThread message.tenantId message.threadId state.segments)))
  | some [] => (.loaded message.messageId (.error .notFound), none)
  | some (seg :: segments) =>
    if seg.status ≠ .verified ∨
        ¬(seg.firstSequence ≤ message.sequence ∧ message.sequence ≤ seg.lastSequence) then
      (.nothing, some (some segments))
    else
      match reply.blob, get state.objects seg.bucket seg.key seg.generation with
      | .answers, .ok data =>
        let generated := readSegment service.zstd data
        match scanRecords message generated.raised generated.items with
        | some result => (.loaded message.messageId result, none)
        | none => (.nothing, some (some segments))
      | _, _ => (.loaded message.messageId (.error .unreadable), none)

def advance : Task → Write × Option Task
  | .archive task =>
    let (write, rest) := archiveStep service state reply task
    (write, rest.map .archive)
  | .reconcile task =>
    let (write, rest) := reconcileStep service state reply task
    (write, rest.map .reconcile)
  | .purge ids => (.commitPurged ids, none)
  | .load message segments =>
    let (write, rest) := loadStep service state reply message segments
    (write, rest.map (.load message))

inductive Action where
  | append (message : Message)
  | archiveThread (tenantId threadId : String)
  | reconcile (now : Instant) (staleAfterSeconds verifySample : Nat)
  | purgeStagedPayloads (now : Instant) (limit : Nat) (ids : List String)
  | loadMessageContent (messageId : String)
  | advance (task : Nat) (reply : Reply)
  | crash (task : Nat)
  | lose (bucket key : String)
  | corrupt (bucket key : String) (data : ByteArray)

/-- What an action writes, and the tasks after it; `none` where it cannot happen. -/
def perform : Action → Option (Write × List Task)
  | .append message =>
    if state.messages.any fun r => r.messageId = message.messageId then none
    else some (.insertMessage (addMessage message), state.tasks)
  | .archiveThread tenantId threadId =>
    let staged :=
      listStaged tenantId threadId (service.cfg.segmentMaxMessages * 4)
        state.messages
    let plans :=
      planSegments staged service.cfg.segmentTargetBytes
        service.cfg.segmentMaxMessages
    some
      (.nothing, state.tasks ++ [.archive { tenantId, threadId, phase := .next, plans }])
  | .reconcile now staleAfterSeconds verifySample =>
    let repairs := listByStatus .uploading now staleAfterSeconds state.segments
    some
      (.nothing,
        state.tasks ++
          [.reconcile
            { now, staleAfterSeconds, verifySample, phase := .listFailed, repairs,
              checks := [] }])
  | .purgeStagedPayloads now limit ids =>
    let candidates :=
      (state.messages.filter
        (purgeable now service.cfg.purgeGraceSeconds
          service.cfg.purgeMinPayloadBytes)).map MessageRow.messageId
    if (∀ id ∈ ids, id ∈ candidates) ∧ ids.length ≤ limit then
      some (.nothing, state.tasks ++ [.purge ids])
    else none
  | .loadMessageContent messageId =>
    match state.messages.find? fun r => r.messageId = messageId with
    | some r => some (.nothing, state.tasks ++ [.load (rowToMessage r) none])
    | none => none
  | .advance task reply =>
    match state.tasks[task]? with
    | some current =>
      let (write, rest) := advance service state reply current
      some
        (write,
          match rest with
          | some left => state.tasks.set task left
          | none => state.tasks.eraseIdx task)
    | none => none
  | .crash task => some (.nothing, state.tasks.eraseIdx task)
  | .lose bucket key => some (.lose bucket key, state.tasks)
  | .corrupt bucket key data => some (.corrupt bucket key data, state.tasks)

def step (action : Action) : Option State :=
  (perform service state action).map fun (write, tasks) => { state.write write with tasks }

end Service

end MemoryService.Archive
