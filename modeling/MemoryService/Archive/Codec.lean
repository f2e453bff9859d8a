import MemoryService.Domain.Conversation
import MemoryService.Foundation.JsonCharacters
import MemoryService.Foundation.Lines

/-!
# Archive segments

One JSON record per message, one line per record, compressed. `build_segment` plans nothing: it
writes the messages it is given, in the order it is given them.
-/

namespace MemoryService.Archive

open Domain Foundation List

structure Zstd where
  compress : ByteArray → ByteArray
  decompress : ByteArray → Option ByteArray
  lossless : ∀ raw, decompress (compress raw) = some raw

def messageRecord (m : Message) : Json :=
  .obj
    [ ("message_id", .str m.messageId),
      ("thread_id", .str m.threadId),
      ("session_id", .str m.sessionId),
      ("turn_id", .str m.turnId),
      ("tenant_id", .str m.tenantId),
      ("sequence", .num (.ofNat m.sequence)),
      ("role", .str m.role.value),
      ("kind", .str m.kind.value),
      ("version", .num (.ofNat m.version)),
      ("author_principal", .str m.authorPrincipal),
      ("agent_run_id", m.agentRunId.elim .null .str),
      ("parent_message_id", m.parentMessageId.elim .null .str),
      ("occurred_at", .str m.occurredAt.isoformat),
      ("created_at", .str m.createdAt.isoformat),
      ("content", .str m.content),
      ("content_hash", .str m.contentHash),
      ("attachments", .arr (m.attachments.map Attachment.modelDump)),
      ("source_system", m.sourceSystem.elim .null .str),
      ("source_message_id", m.sourceMessageId.elim .null .str),
      ("custom_metadata", .obj m.customMetadata) ]

structure SegmentPlan where
  messages : List Message

variable {messages : List Message} {plan : SegmentPlan} {m : Message} {c : Char}
  {tenantId threadId segmentId : String} {shards : Nat} {built : BuiltSegment}

section Planning

variable (budget maxMessages : Nat)

/-- The loop of `plan_segments`. -/
def planFrom (current : List Message) (currentBytes : Nat) :
    List Message → List SegmentPlan
  | [] => if current = [] then [] else [⟨current⟩]
  | m :: messages =>
    let size := m.content.utf8ByteSize + 256
    if current ≠ [] ∧
        (budget < currentBytes + size ∨ maxMessages ≤ current.length) then
      ⟨current⟩ :: planFrom [m] size messages
    else planFrom (current ++ [m]) (currentBytes + size) messages

theorem mem_planFrom {current : List Message} {currentBytes : Nat}
    (planned : plan ∈ planFrom budget maxMessages current currentBytes messages)
    (member : m ∈ plan.messages) :
    m ∈ current ∨ m ∈ messages := by
  induction messages generalizing current currentBytes with
  | nil =>
    rw [planFrom] at planned
    split at planned
    case isTrue => cases planned
    case isFalse =>
      rw [mem_singleton] at planned
      subst planned
      exact .inl member
  | cons next messages ih =>
    rw [planFrom] at planned
    split at planned
    case isTrue =>
      rcases mem_cons.mp planned with rfl | later
      · exact .inl member
      · rcases ih later with isNext | inRest
        · exact .inr (mem_singleton.mp isNext ▸ mem_cons_self)
        · exact .inr (mem_cons_of_mem next inRest)
    case isFalse =>
      rcases ih planned with inHand | inRest
      · rcases mem_append.mp inHand with before | isNext
        · exact .inl before
        · exact .inr (mem_singleton.mp isNext ▸ mem_cons_self)
      · exact .inr (mem_cons_of_mem next inRest)

end Planning

/-- `plan_segments` with any ratio; what is below zero bounds as zero does. -/
def planSegmentsWithin (messages : List Message) (budget maxMessages : Int) :
    List SegmentPlan :=
  planFrom budget.toNat maxMessages.toNat [] 0 messages

def planSegments (messages : List Message)
    (targetCompressedBytes maxMessages : Nat) : List SegmentPlan :=
  planSegmentsWithin messages (targetCompressedBytes * 5 : Nat) maxMessages

theorem mem_planSegments {targetCompressedBytes maxMessages : Nat}
    (planned : plan ∈ planSegments messages targetCompressedBytes maxMessages)
    (member : m ∈ plan.messages) :
    m ∈ messages :=
  (mem_planFrom _ _ planned member).resolve_left not_mem_nil

section Partition

variable {budget maxMessages : Nat}

/-- What the loop counts of messages against the budget. -/
def plannedBytes : List Message → Nat
  | [] => 0
  | m :: messages => m.content.utf8ByteSize + 256 + plannedBytes messages

/-- Within both bounds, but for a message that stands alone. -/
def Bounded (budget maxMessages : Nat) (messages : List Message) : Prop :=
  messages.length ≤ max 1 maxMessages ∧ (plannedBytes messages ≤ budget ∨ messages.length ≤ 1)

theorem planFrom_flatMap (current : List Message) (currentBytes : Nat) :
    (planFrom budget maxMessages current currentBytes messages).flatMap SegmentPlan.messages =
      current ++ messages := by
  induction messages generalizing current currentBytes with
  | nil =>
    rw [planFrom, append_nil]
    split
    · next isEmpty => exact isEmpty.symm
    · exact append_nil current
  | cons m messages ih =>
    rw [planFrom]
    split
    · rw [flatMap_cons, ih]
      rfl
    · rw [ih, append_assoc]
      rfl

theorem plannedBytes_concat (messages : List Message) (m : Message) :
    plannedBytes (messages ++ [m]) = plannedBytes messages + (m.content.utf8ByteSize + 256) := by
  induction messages with
  | nil => simp [plannedBytes]
  | cons first messages ih =>
    simp only [cons_append, plannedBytes, ih]
    omega

theorem planFrom_bounded {current : List Message} (bounded : Bounded budget maxMessages current)
    (planned : plan ∈ planFrom budget maxMessages current (plannedBytes current) messages) :
    plan.messages ≠ [] ∧ Bounded budget maxMessages plan.messages := by
  induction messages generalizing current with
  | nil =>
    rw [planFrom] at planned
    split at planned
    · cases planned
    · next notEmpty =>
        rw [mem_singleton.mp planned]
        exact ⟨notEmpty, bounded⟩
  | cons m messages ih =>
    have alone : plannedBytes [m] = m.content.utf8ByteSize + 256 := rfl
    rw [planFrom] at planned
    split at planned
    · next closes =>
        rcases mem_cons.mp planned with rfl | later
        · exact ⟨closes.1, bounded⟩
        · exact ih ⟨Nat.le_max_left _ _, .inr le_rfl⟩ (alone ▸ later)
    · next goesOn =>
        refine ih ?_ ((plannedBytes_concat current m) ▸ planned)
        rw [Bounded, plannedBytes_concat, length_append, length_singleton]
        cases current with
        | nil => exact ⟨Nat.le_max_left _ _, .inr le_rfl⟩
        | cons first rest =>
          simp only [ne_eq, reduceCtorEq, not_false_eq_true, true_and, not_or,
            Nat.not_lt, Nat.not_le] at goesOn
          exact ⟨Nat.le_trans goesOn.2 (Nat.le_max_right _ _), .inl goesOn.1⟩

/-- The segments are the messages in order; none is empty, and none is past a bound but for a
message that stands alone. -/
theorem plan_segments_partition (messages : List Message) (budget maxMessages : Int) :
    (planSegmentsWithin messages budget maxMessages).flatMap SegmentPlan.messages = messages ∧
    ∀ plan ∈ planSegmentsWithin messages budget maxMessages, plan.messages ≠ [] ∧
      plan.messages.length ≤ max 1 maxMessages ∧
      (budget < plannedBytes plan.messages → plan.messages.length = 1) := by
  refine ⟨planFrom_flatMap [] 0, fun plan planned => ?_⟩
  have empty : Bounded budget.toNat maxMessages.toNat [] := ⟨Nat.zero_le _, .inr (Nat.zero_le _)⟩
  obtain ⟨notEmpty, atMost, within⟩ := planFrom_bounded empty planned
  have someMessage := length_pos_iff.mpr notEmpty
  have someBytes : 0 < plannedBytes plan.messages := by
    obtain ⟨m, rest, isCons⟩ := exists_cons_of_ne_nil notEmpty
    rw [isCons, plannedBytes]
    omega
  exact ⟨notEmpty, by omega, fun past => by omega⟩

/-- A bound of no message at all. -/
theorem zero_is_passed :
    ¬∀ (messages : List Message) (budget maxMessages : Int),
      ∀ plan ∈ planSegmentsWithin messages budget maxMessages,
        plan.messages.length ≤ maxMessages := by
  intro always
  let m : Message :=
    { messageId := "m1", threadId := "t", sessionId := "s", turnId := "u", tenantId := "a"
      role := .user, sequence := 1, contentHash := "h", authorPrincipal := "p"
      occurredAt := ⟨0⟩, createdAt := ⟨0⟩ }
  exact absurd (always [m] 0 0 ⟨[m]⟩ mem_cons_self) (by decide)

end Partition

/-- What the reconciler reads back from a segment's manifest. -/
structure Manifest where
  messageIds : List String

structure BuiltSegment where
  segmentId : String
  key : String
  data : ByteArray
  checksumSha256 : String
  rawBytes : Nat
  messageIds : List String
  firstSequence : Nat
  lastSequence : Nat
  firstAt : Instant
  lastAt : Instant
  manifest : Manifest

section Building

variable (zstd : Zstd) (sha256 : ByteArray → String)

def tenantShard (tenantId : String) (shards : Nat) : Nat :=
  ((sha256 tenantId.toUTF8).toList.take 8).foldl
    (fun value digit => value * 16 + (Json.hexValue digit).getD 0) 0 % shards

def segmentKey (tenantId threadId segmentId : String) (shards : Nat)
    (at_ : Instant) : String :=
  let (year, month, _) := at_.date
  "tenant-shard=" ++
      .ofList (Instant.padded 3 (tenantShard sha256 tenantId shards)) ++
    "/tenant=" ++ tenantId ++
    "/year=" ++ .ofList (Nat.toDigits 10 year) ++
    "/month=" ++ .ofList (Instant.padded 2 month) ++
    "/thread=" ++ threadId ++ "/segment=" ++ segmentId ++ ".jsonl.zst"

def segmentText (messages : List Message) : String :=
  .ofList (unlines (messages.map fun m => (messageRecord m).dumps))

/-- `none` is the `ValueError` for an empty segment. -/
def buildSegment (messages : List Message) (tenantId threadId : String)
    (shards : Nat) (segmentId : String) : Option BuiltSegment :=
  match messages with
  | [] => none
  | first :: others =>
    let raw := (segmentText messages).toUTF8
    let data := zstd.compress raw
    let firstAt := others.foldl (fun earliest m => min earliest m.occurredAt) first.occurredAt
    let lastAt := others.foldl (fun latest m => max latest m.occurredAt) first.occurredAt
    some
      { segmentId
        key := segmentKey sha256 tenantId threadId segmentId shards firstAt
        data
        checksumSha256 := sha256 data
        rawBytes := raw.size
        messageIds := messages.map Message.messageId
        firstSequence := first.sequence
        lastSequence := (others.getLastD first).sequence
        firstAt
        lastAt
        manifest := { messageIds := messages.map Message.messageId } }

end Building

structure Generated where
  items : List Json
  raised : Bool

namespace Generated

def done : Generated := ⟨[], false⟩

def failed : Generated := ⟨[], true⟩

/-- `yield item`, then the rest. -/
def cons (item : Json) (rest : Generated) : Generated := ⟨item :: rest.items, rest.raised⟩

/-- `list(generator)`; `none` where it raises. -/
def toList (generated : Generated) : Option (List Json) :=
  if generated.raised then none else some generated.items

end Generated

def readLines : List (List Char) → Generated
  | [] => .done
  | line :: lines =>
    if line = [] then readLines lines
    else
      match Json.loads line with
      | some record => .cons record (readLines lines)
      | none => .failed

def readSegment (zstd : Zstd) (data : ByteArray) : Generated :=
  match (zstd.decompress data).bind String.fromUTF8? with
  | some text => readLines (splitlines text.toList)
  | none => .failed

/-!
## What survives an archive segment

The encoder leaves U+0085, U+2028 and U+2029 as they are, and the line splitter of the reader cuts
at them.  At the first record whose strings hold one of the three it sees a cut object and raises.
-/

/-- The line breaks that `json.dumps(…, ensure_ascii=False)` does not escape. -/
def rawBreaks : List Char := ['\u0085', '\u2028', '\u2029']

def BreakFree (m : Message) : Prop :=
  ∀ text ∈ (messageRecord m).strings, ∀ c ∈ text.toList, c ∉ rawBreaks

instance (m : Message) : Decidable (BreakFree m) :=
  decidable_of_iff
    ((messageRecord m).strings.all
      (fun text => text.toList.all fun c => !rawBreaks.contains c) = true)
    (by
      simp only [BreakFree, all_eq_true, Bool.not_eq_true', contains_eq_mem,
        decide_eq_false_iff_not])

theorem isPlain_of_isLineBreak (isBreak : isLineBreak c = true) : Json.isPlain c = false := by
  simp only [isLineBreak, Bool.or_eq_true, beq_iff_eq] at isBreak
  rcases isBreak with
    ((((((((rfl | rfl) | rfl) | rfl) | rfl) | rfl) | rfl) | rfl) | rfl) | rfl <;>
    decide

theorem isLineBreak_wide_iff (wide : 128 ≤ c.toNat) : isLineBreak c = true ↔ c ∈ rawBreaks := by
  simp only [isLineBreak, rawBreaks, Bool.or_eq_true, beq_iff_eq, mem_cons, not_mem_nil, or_false]
  constructor
  · rintro (((((((((rfl | rfl) | rfl) | rfl) | rfl) | rfl) | rfl) | rfl) | rfl) | rfl) <;>
      revert wide <;> decide
  · rintro (same | same | same)
    · exact .inl (.inl (.inr same))
    · exact .inl (.inr same)
    · exact .inr same

theorem wide_of_mem_rawBreaks : ∀ c ∈ rawBreaks, 128 ≤ c.toNat := by
  have all : (rawBreaks.all fun c => decide (128 ≤ c.toNat)) = true := rfl
  intro c member
  exact of_decide_eq_true (all_eq_true.mp all c member)

theorem unbroken_dumps_iff (value : Json) :
    Unbroken value.dumps ↔ ∀ text ∈ value.strings, ∀ c ∈ text.toList, c ∉ rawBreaks := by
  constructor
  · intro unbroken text member c inText isRaw
    have wide := wide_of_mem_rawBreaks c isRaw
    have isBreak := (isLineBreak_wide_iff wide).mpr isRaw
    have written :=
      (Json.mem_dumps_iff (isPlain_of_isLineBreak isBreak) value).mpr ⟨wide, text, member, inText⟩
    rw [unbroken c written] at isBreak
    cases isBreak
  · intro free c member
    by_contra notUnbroken
    have isBreak : isLineBreak c = true := by
      rwa [Bool.not_eq_false] at notUnbroken
    obtain ⟨wide, text, inStrings, inText⟩ :=
      (Json.mem_dumps_iff (isPlain_of_isLineBreak isBreak) value).mp member
    exact free text inStrings c inText ((isLineBreak_wide_iff wide).mp isBreak)

theorem messageRecord_ne_nil (m : Message) : (messageRecord m).dumps ≠ [] := by
  rw [messageRecord, Json.dumps]
  exact cons_ne_nil _ _

theorem readLines_record (m : Message) (lines : List (List Char)) :
    readLines ((messageRecord m).dumps :: lines) = .cons (messageRecord m) (readLines lines) := by
  rw [readLines, if_neg (messageRecord_ne_nil m), Json.loads_dumps]

theorem readLines_records (messages : List Message) (lines : List (List Char)) :
    readLines ((messages.map fun m => (messageRecord m).dumps) ++ lines) =
      ⟨messages.map messageRecord ++ (readLines lines).items, (readLines lines).raised⟩ := by
  induction messages with
  | nil => rfl
  | cons m messages ih =>
    rw [map_cons, cons_append, readLines_record, ih]
    rfl

theorem readLines_cut {cut missing : List Char} (lines : List (List Char))
    (whole : cut ++ c :: missing = (messageRecord m).dumps)
    (isBreak : isLineBreak c = true) :
    readLines (cut :: lines) = .failed := by
  have something : cut ≠ [] := by
    rintro rfl
    rw [messageRecord, Json.dumps, nil_append] at whole
    have opens : c = '{' := (List.cons.inj whole).1
    subst c
    revert isBreak
    decide
  rw [readLines, if_neg something]
  rw [messageRecord] at whole
  rw [Json.loads_of_cut_object whole (cons_ne_nil c missing)]

theorem unbroken_records (free : ∀ m ∈ messages, BreakFree m) :
    ∀ line ∈ messages.map fun m => (messageRecord m).dumps, Unbroken line := by
  intro line member
  obtain ⟨m, inMessages, rfl⟩ := mem_map.mp member
  exact (unbroken_dumps_iff _).mpr (free m inMessages)

theorem readLines_segment (nonempty : messages ≠ []) :
    readLines (splitlines (unlines (messages.map fun m => (messageRecord m).dumps))) =
      ⟨(messages.takeWhile fun m => BreakFree m).map messageRecord,
        !messages.all fun m => BreakFree m⟩ := by
  let good := messages.takeWhile fun m => BreakFree m
  have goodFree : ∀ m ∈ good, BreakFree m := by
    intro m member
    exact of_decide_eq_true (all_eq_true.mp all_takeWhile m member)
  have parts : good ++ messages.dropWhile (fun m => BreakFree m) = messages :=
    takeWhile_append_dropWhile
  cases rest : messages.dropWhile fun m => BreakFree m with
  | nil =>
    rw [rest, append_nil] at parts
    have free : ∀ m ∈ messages, BreakFree m := parts ▸ goodFree
    have read := readLines_records messages []
    have allFree : (messages.all fun m => BreakFree m) = true :=
      all_eq_true.mpr fun m member => decide_eq_true (free m member)
    rw [append_nil] at read
    rw [splitlines_unlines (by simpa using nonempty) (unbroken_records free), read, allFree]
    change _ = Generated.mk (good.map messageRecord) false
    rw [parts, readLines]
    simp [Generated.done]
  | cons bad later =>
    rw [rest] at parts
    have notFree : ¬BreakFree bad := by
      have first := head_dropWhile_not (fun m => decide (BreakFree m))
        (by rw [rest]; exact cons_ne_nil bad later)
      simpa only [rest, head_cons, decide_eq_false_iff_not] using first
    have notAll : (messages.all fun m => BreakFree m) = false := by
      rw [all_eq_false]
      exact ⟨bad, by rw [← parts]; simp, by simpa using notFree⟩
    obtain ⟨cut, c, missing, lines, whole, isBreak, split⟩ :=
      @splitlines_unlines_of_break _
        (later.map fun m => (messageRecord m).dumps) _
        (unbroken_records goodFree)
        (fun unbroken => notFree ((unbroken_dumps_iff _).mp unbroken))
    have cutShort := readLines_cut lines whole isBreak
    rw [notAll]
    change _ = Generated.mk (good.map messageRecord) true
    rw [← parts, map_append, map_cons, split, readLines_records, cutShort]
    simp [Generated.failed]

theorem fromUTF8?_toUTF8 (text : String) : String.fromUTF8? text.toUTF8 = some text := by
  rw [String.fromUTF8?, dif_pos (show text.toUTF8.IsValidUTF8 from text.isValidUTF8)]
  rfl

section

variable {zstd : Zstd} {sha256 : ByteArray → String}

theorem buildSegment_data (builds :
      buildSegment zstd sha256 messages tenantId threadId shards segmentId = some built) :
    messages ≠ [] ∧ built.data = zstd.compress (segmentText messages).toUTF8 := by
  cases messages with
  | nil => cases builds
  | cons m messages =>
    cases builds
    exact ⟨cons_ne_nil m messages, rfl⟩

theorem readSegment_text (zstd : Zstd) (nonempty : messages ≠ []) :
    readSegment zstd (zstd.compress (segmentText messages).toUTF8) =
      ⟨(messages.takeWhile fun m => BreakFree m).map messageRecord,
        !messages.all fun m => BreakFree m⟩ := by
  rw [readSegment, zstd.lossless, Option.bind_some, fromUTF8?_toUTF8]
  dsimp only
  rw [segmentText, String.toList_ofList, readLines_segment nonempty]

theorem readSegment_build (builds :
      buildSegment zstd sha256 messages tenantId threadId shards segmentId = some built) :
    readSegment zstd built.data =
      ⟨(messages.takeWhile fun m => BreakFree m).map messageRecord,
        !messages.all fun m => BreakFree m⟩ := by
  obtain ⟨nonempty, data⟩ := buildSegment_data builds
  rw [data, readSegment_text zstd nonempty]

end

/-- The segment built from `messages` reads back as their records, one each, in
the order given. -/
def RoundTrips (zstd : Zstd) (sha256 : ByteArray → String)
    (messages : List Message) (tenantId threadId : String) (shards : Nat)
    (segmentId : String) : Prop :=
  (buildSegment zstd sha256 messages tenantId threadId shards segmentId).bind
      (fun built => (readSegment zstd built.data).toList) =
    some (messages.map messageRecord)

theorem buildSegment_of_ne_nil (zstd : Zstd) (sha256 : ByteArray → String)
    (nonempty : messages ≠ [])
    (tenantId threadId : String) (shards : Nat) (segmentId : String) :
    ∃ built, buildSegment zstd sha256 messages tenantId threadId shards segmentId = some built := by
  cases messages with
  | nil => exact absurd rfl nonempty
  | cons m messages => exact ⟨_, rfl⟩

/-- A segment reads back just when no string of its records holds a raw break. -/
theorem build_segment_round_trip_iff (zstd : Zstd) (sha256 : ByteArray → String)
    (messages : List Message) (tenantId threadId : String) (shards : Nat)
    (segmentId : String) (nonempty : messages ≠ []) :
    RoundTrips zstd sha256 messages tenantId threadId shards segmentId ↔
      ∀ m ∈ messages, BreakFree m := by
  obtain ⟨built, builds⟩ :=
    buildSegment_of_ne_nil zstd sha256 nonempty tenantId threadId shards segmentId
  rw [RoundTrips, builds, Option.bind_some, readSegment_build builds, Generated.toList]
  constructor
  · intro read
    by_contra someBreak
    have notAll : (messages.all fun m => BreakFree m) = false := by
      rw [all_eq_false]
      push Not at someBreak
      obtain ⟨m, member, broken⟩ := someBreak
      exact ⟨m, member, by simpa using broken⟩
    rw [notAll] at read
    cases read
  · intro free
    have all : (messages.all fun m => BreakFree m) = true :=
      all_eq_true.mpr fun m member => decide_eq_true (free m member)
    have whole : (messages.takeWhile fun m => BreakFree m) = messages :=
      takeWhile_eq_self_iff.mpr fun m member => decide_eq_true (free m member)
    rw [all, whole]
    rfl

def markedZstd : Zstd where
  compress raw := ⟨⟨0x28 :: raw.data.toList⟩⟩
  decompress data := data.data.toList.tail?.map fun raw => ⟨⟨raw⟩⟩
  lossless _ := rfl

def note (messageId : String) (sequence : Nat) (content : String) : Message where
  messageId := messageId
  threadId := "thr_1"
  sessionId := "ses_1"
  turnId := "trn_1"
  tenantId := "acme"
  role := .user
  sequence := sequence
  content := content
  contentHash := "h:" ++ content
  authorPrincipal := "user:ann"
  occurredAt := ⟨63839762523000000⟩
  createdAt := ⟨63839762523000000⟩

theorem build_segment_round_trip_ascii :
    RoundTrips markedZstd (fun _ => "0") [note "msg_1" 1 "hi", note "msg_2" 2 "a\nb"]
      "acme" "thr_1" 16 "seg_1" :=
  (build_segment_round_trip_iff markedZstd (fun _ => "0") _ "acme" "thr_1" 16 "seg_1"
    (by simp)).mpr (by decide +kernel)

/-- A content with a line separator: its record is cut in two and reading raises. -/
theorem line_separator_breaks_round_trip :
    ¬RoundTrips markedZstd (fun _ => "0") [note "msg_1" 1 "a\u2028b"] "acme" "thr_1"
      16 "seg_1" := by
  obtain ⟨built, builds⟩ :=
    buildSegment_of_ne_nil markedZstd (fun _ => "0")
      (cons_ne_nil (note "msg_1" 1 "a\u2028b") []) "acme" "thr_1" 16 "seg_1"
  have notAll : ([note "msg_1" 1 "a\u2028b"].all fun m => BreakFree m) = false := by
    decide +kernel
  rw [RoundTrips, builds, Option.bind_some, readSegment_build builds, Generated.toList, notAll]
  exact fun same => nomatch same

end MemoryService.Archive
