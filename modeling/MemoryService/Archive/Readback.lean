import MemoryService.Archive.Coverage

/-!
# Reading archived content back

A reader decides from the archive status alone whether to look in the segments. That is right as
long as a message without its payload is PURGED.
-/

namespace MemoryService.Archive

open Domain Foundation Option List

/-- The object store neither loses nor alters what it holds. -/
def StoreKeeps : Action → Prop
  | .lose _ _ | .corrupt _ _ _ => False
  | _ => True

instance : DecidablePred StoreKeeps
  | .lose _ _ | .corrupt _ _ _ => .isFalse id
  | .append _ | .archiveThread _ _ | .reconcile _ _ _
  | .purgeStagedPayloads _ _ _ | .loadMessageContent _ | .advance _ _
  | .crash _ => .isTrue trivial

variable (state : State)

/-- What a reader was given is what was appended. -/
def LoadsAppended : Prop :=
  ∀ loaded ∈ state.loads, ∀ row ∈ state.messages, row.messageId = loaded.1 →
    ∀ content ∈ loaded.2.toOption, content = row.message.content

def ArchivedHasContent : Prop :=
  ∀ row ∈ state.messages, row.archiveStatus = .archived → row.content ≠ none

/-- What was appended is what is loaded, and what is archived has its payload. -/
def ReadsBack : Prop := LoadsAppended state ∧ ArchivedHasContent state

instance : DecidablePred ReadsBack := fun state =>
  inferInstanceAs (Decidable ((∀ loaded ∈ state.loads, ∀ row ∈ state.messages, _ →
    ∀ content ∈ loaded.2.toOption, _) ∧ (∀ row ∈ state.messages, _ → _)))

def KeepsPurged : Write → Prop
  | .commitVerified _ _ _ messageIds =>
    ∀ row ∈ state.messages, row.messageId ∈ messageIds → row.archiveStatus ≠ .purged
  | _ => True

instance (state : State) : (write : Write) → Decidable (KeepsPurged state write)
  | .commitVerified .. => by unfold KeepsPurged; infer_instance
  | .nothing | .insertMessage _ | .insertSegment _ | .commitFailed .. | .commitPurged _ | .store _
  | .lose .. | .corrupt .. | .loaded .. => .isTrue trivial

def NeverArchivesPurged (service : ArchiveService) (state : State) (action : Action) :
    Prop :=
  StoreKeeps action ∧ KeepsPurged state (written service state action)
deriving Decidable

theorem record_messageId (m : Message) :
    (messageRecord m).get? "message_id" = some (.str m.messageId) := rfl

theorem record_contentHash (m : Message) :
    (messageRecord m).get? "content_hash" = some (.str m.contentHash) := rfl

theorem record_content (m : Message) :
    (messageRecord m).get? "content" = some (.str m.content) := rfl

theorem scanRecords_records
    {message : Message} {raised : Bool} {messages : List Message} {content : String}
    (found : scanRecords message raised (messages.map messageRecord) = some (.ok content)) :
    ∃ m ∈ messages, m.messageId = message.messageId ∧ m.content = content := by
  induction messages with
  | nil =>
    rw [List.map_nil, scanRecords] at found
    split at found <;> cases found
  | cons m messages ih =>
    rw [List.map_cons, scanRecords, record_messageId, record_contentHash, record_content] at found
    dsimp only at found
    split at found
    case isTrue sameId =>
      split at found <;> cases found
      exact ⟨m, List.mem_cons_self, of_decide_eq_true sameId, rfl⟩
    case isFalse =>
      obtain ⟨other, member, sameId, sameContent⟩ := ih found
      exact ⟨other, List.mem_cons_of_mem m member, sameId, sameContent⟩

/-- A payload is missing from purged rows only, the objects are built segments,
readers hold what was appended unless it is purged, and so were the results. -/
structure Readable (service : ArchiveService) (state : State) : Prop where
  sound : Sound service state
  rows : ∀ row ∈ state.messages, row.content = none → row.archiveStatus = .purged
  objects : ∀ object ∈ state.objects, ∃ messageIds,
    BuiltFrom service.zstd state messageIds object.data
  readers : ∀ message segments, Task.load message segments ∈ state.tasks →
    message.archiveStatus ≠ .purged → Appended state message
  loads : ∀ loaded ∈ state.loads, ∀ content, loaded.2 = .ok content →
    ∃ row ∈ state.messages, row.messageId = loaded.1 ∧ row.message.content = content

section Service

variable {service : ArchiveService} {state : State}

theorem findObject_mem {objects : List BlobObject} {bucket key : String} {object : BlobObject}
    (found : findObject objects bucket key = some object) : object ∈ objects :=
  mem_of_find?_eq_some found

private theorem get_mem
    {objects : List BlobObject} {bucket key : String} {generation : Option String}
    {data : ByteArray} (got : get objects bucket key generation = .ok data) :
    ∃ object ∈ objects, object.data = data := by
  unfold get at got
  split at got
  case h_1 object found =>
    split at got
    · cases got
    · cases got
      exact ⟨object, findObject_mem found, rfl⟩
  case h_2 => cases got

variable {segments : Option (List ArchiveSegment)}

theorem loadStep_loaded (readable : Readable service state) {message : Message} {reply : Reply}
    (reader : message.archiveStatus ≠ .purged → Appended state message)
    {messageId : String} {content : String}
    (loaded : (loadStep service state reply message segments).1 = .loaded messageId (.ok content)) :
    ∃ row ∈ state.messages, row.messageId = messageId ∧ row.message.content = content := by
  unfold loadStep at loaded
  split at loaded
  case h_1 =>
    split at loaded
    case isTrue notPurged =>
      cases loaded
      exact reader notPurged
    case isFalse => cases loaded
  case h_2 => cases loaded
  case h_3 =>
    split at loaded
    case isTrue => cases loaded
    case isFalse =>
      split at loaded
      case h_2 => cases loaded
      case h_1 data _ got =>
        dsimp only at loaded
        split at loaded
        case h_2 => cases loaded
        case h_1 result found =>
          cases loaded
          obtain ⟨object, inStore, rfl⟩ := get_mem got
          obtain ⟨_, messages, nonempty, appended, -, sameData⟩ := readable.objects object inStore
          rw [sameData, readSegment_text service.zstd nonempty] at found
          obtain ⟨m, member, sameId, sameContent⟩ := scanRecords_records found
          obtain ⟨row, inRows, rowId, rowContent⟩ := appended m (takeWhile_subset _ member)
          exact ⟨row, inRows, rowId.trans sameId, rowContent.trans sameContent⟩

def Write.archival : Write → Bool
  | .nothing | .insertSegment _ | .commitFailed _ _ | .commitVerified _ _ _ _
  | .commitPurged _ | .store _ => true
  | .insertMessage _ | .lose _ _ | .corrupt _ _ _ | .loaded _ _ => false

theorem archiveStep_archival (reply : Reply) (task : ArchiveTask) :
    (archiveStep service state reply task).1.archival = true := by
  unfold archiveStep
  repeat' split
  all_goals first
  | rfl
  | dsimp only
    split <;> rfl

theorem reconcileStep_archival (reply : Reply) (task : ReconcileTask) :
    (reconcileStep service state reply task).1.archival = true := by
  unfold reconcileStep
  repeat' split
  all_goals rfl

theorem loadStep_written
    (reply : Reply) (message : Message) (segments : Option (List ArchiveSegment)) :
    (loadStep service state reply message segments).1 = .nothing ∨
      ∃ result, (loadStep service state reply message segments).1 =
        .loaded message.messageId result := by
  unfold loadStep
  split
  case h_1 =>
    split
    · exact .inr ⟨_, rfl⟩
    · exact .inl rfl
  case h_2 => exact .inr ⟨_, rfl⟩
  case h_3 =>
    split
    · exact .inl rfl
    · split
      · dsimp only
        split
        · exact .inr ⟨_, rfl⟩
        · exact .inl rfl
      · exact .inr ⟨_, rfl⟩

variable {action : Action} {tasks : List Task}

theorem perform_loaded (readable : Readable service state)
    {messageId content : String}
    (performed : perform service state action = some (.loaded messageId (.ok content), tasks)) :
    ∃ row ∈ state.messages, row.messageId = messageId ∧ row.message.content = content := by
  cases action with
  | advance task reply =>
    obtain ⟨current, inTasks, wrote, -⟩ := advance_cases performed
    cases current with
    | archive task =>
      have archival : (Write.loaded messageId (.ok content)).archival = true :=
        wrote ▸ archiveStep_archival reply task
      cases archival
    | reconcile task =>
      have archival : (Write.loaded messageId (.ok content)).archival = true :=
        wrote ▸ reconcileStep_archival reply task
      cases archival
    | purge ids => cases wrote
    | load message segments =>
      exact loadStep_loaded readable (readable.readers message segments inTasks) wrote.symm
  | append message =>
    rw [perform] at performed
    split at performed <;> cases performed
  | purgeStagedPayloads now limit ids =>
    rw [perform] at performed
    split at performed <;> cases performed
  | loadMessageContent id =>
    rw [perform] at performed
    split at performed <;> cases performed
  | archiveThread | reconcile | crash | lose | corrupt => cases performed

theorem advance_reader {reply : Reply} {current : Task} {message : Message}
    (goesOn : (advance service state reply current).2 = some (.load message segments)) :
    ∃ before, current = .load message before := by
  cases current with
  | archive task =>
    obtain ⟨rest, -, same⟩ := map_eq_some_iff.mp goesOn
    cases same
  | reconcile task =>
    obtain ⟨rest, -, same⟩ := map_eq_some_iff.mp goesOn
    cases same
  | purge ids => cases goesOn
  | load other before =>
    obtain ⟨rest, -, same⟩ := map_eq_some_iff.mp goesOn
    cases same
    exact ⟨before, rfl⟩

section

variable (readable : Readable service state)
include readable

theorem appended_of_not_purged {row : MessageRow} (member : row ∈ state.messages)
    (notPurged : row.archiveStatus ≠ .purged) :
    Appended state (rowToMessage row) := by
  refine ⟨row, member, rfl, ?_⟩
  rcases readable.sound.rows row member with intact | ⟨gone, -⟩
  · simp only [rowToMessage, intact, getD_some]
  · exact absurd (readable.rows row member gone) notPurged

theorem perform_readers {write : Write}
    (performed : perform service state action = some (write, tasks)) :
    ∀ message segments, Task.load message segments ∈ tasks →
      message.archiveStatus ≠ .purged → Appended state message := by
  have keeps := readable.readers
  have starts {task : Task}
      (isNew : ∀ message segments, task = .load message segments →
        message.archiveStatus ≠ .purged → Appended state message) :
      ∀ message segments, Task.load message segments ∈ state.tasks ++ [task] →
        message.archiveStatus ≠ .purged → Appended state message := by
    intro message segments member
    rcases mem_append.mp member with before | last
    · exact keeps message segments before
    · exact isNew message segments (mem_singleton.mp last).symm
  cases action with
  | append message =>
    rw [perform] at performed
    split at performed <;> cases performed
    exact keeps
  | archiveThread tenantId threadId =>
    cases performed
    refine starts ?_
    intro message segments same
    cases same
  | reconcile now staleAfterSeconds verifySample =>
    cases performed
    refine starts ?_
    intro message segments same
    cases same
  | purgeStagedPayloads now limit ids =>
    rw [perform] at performed
    split at performed <;> cases performed
    refine starts ?_
    intro message segments same
    cases same
  | loadMessageContent messageId =>
    rw [perform] at performed
    split at performed
    case h_2 => cases performed
    case h_1 row found =>
      cases performed
      refine starts fun message segments same notPurged => ?_
      cases same
      exact appended_of_not_purged readable (mem_of_find?_eq_some found) notPurged
  | advance task reply =>
    obtain ⟨current, inTasks, -, goesOn⟩ := advance_cases performed
    intro message segments member
    rcases goesOn _ member with before | rest
    · exact keeps message segments before
    · obtain ⟨before, rfl⟩ := advance_reader rest
      exact keeps message before inTasks
  | crash task =>
    cases performed
    exact fun message segments member => keeps message segments (mem_of_mem_eraseIdx member)
  | lose | corrupt =>
    cases performed
    exact keeps

end

variable {write : Write}

theorem write_rows_readable (readable : Readable service state)
    (fits : WriteFits service.zstd state write) (keeps : KeepsPurged state write) :
    ∀ row ∈ (state.write write).messages, row.content = none → row.archiveStatus = .purged := by
  cases write with
  | nothing | insertSegment | commitFailed | store | lose | corrupt | loaded =>
    exact readable.rows
  | insertMessage row =>
    intro other member gone
    rcases mem_append.mp member with before | isNew
    · exact readable.rows other before gone
    · rw [mem_singleton.mp isNew, fits.1.2] at gone
      cases gone
  | commitVerified segmentId generation verifiedAt messageIds =>
    intro row member gone
    rcases mem_updateWhere_cases member with ⟨old, inRows, listed, rfl⟩ | ⟨inRows, -⟩
    · exact absurd (readable.rows old inRows gone) (keeps old inRows (of_decide_eq_true listed))
    · exact readable.rows row inRows gone
  | commitPurged ids =>
    intro row member gone
    rcases mem_updateWhere_cases member with ⟨old, -, -, rfl⟩ | ⟨inRows, -⟩
    · rfl
    · exact readable.rows row inRows gone

def Write.tampers : Write → Bool
  | .lose _ _ | .corrupt _ _ _ => true
  | _ => false

theorem tampers_of_archival (archival : write.archival = true) :
    write.tampers = false := by
  cases write <;> first | rfl | cases archival

theorem perform_tampers (performed : perform service state action = some (write, tasks))
    (storeKeeps : StoreKeeps action) : write.tampers = false := by
  cases action with
  | advance task reply =>
    obtain ⟨current, -, rfl, -⟩ := advance_cases performed
    cases current with
    | archive task => exact tampers_of_archival (archiveStep_archival reply task)
    | reconcile task => exact tampers_of_archival (reconcileStep_archival reply task)
    | purge ids => rfl
    | load message segments =>
      change (loadStep service state reply message segments).1.tampers = false
      rcases loadStep_written reply message segments with wrote | ⟨result, wrote⟩ <;>
        rw [wrote] <;> rfl
  | append message =>
    rw [perform] at performed
    split at performed <;> cases performed
    rfl
  | purgeStagedPayloads now limit ids =>
    rw [perform] at performed
    split at performed <;> cases performed
    rfl
  | loadMessageContent id =>
    rw [perform] at performed
    split at performed <;> cases performed
    rfl
  | archiveThread | reconcile | crash =>
    cases performed
    rfl
  | lose | corrupt => exact absurd storeKeeps id

theorem write_objects (readable : Readable service state)
    (performed : perform service state action = some (write, tasks))
    (storeKeeps : StoreKeeps action) :
    ∀ object ∈ (state.write write).objects, ∃ messageIds,
      BuiltFrom service.zstd (state.write write) messageIds object.data := by
  have fits := (perform_fits performed readable.sound).1
  have extend := write_extends state write
  have keeps : ∀ object ∈ state.objects, ∃ messageIds,
      BuiltFrom service.zstd (state.write write) messageIds object.data := by
    intro object member
    obtain ⟨messageIds, built⟩ := readable.objects object member
    exact ⟨messageIds, built.mono extend⟩
  cases write with
  | nothing | insertMessage | insertSegment | commitFailed | commitVerified
  | commitPurged | loaded => exact keeps
  | store object =>
    intro other member
    rcases mem_append.mp member with before | isNew
    · exact keeps other before
    · obtain ⟨messageIds, built⟩ := fits
      rw [mem_singleton.mp isNew]
      exact ⟨messageIds, built.mono extend⟩
  | lose | corrupt => cases perform_tampers performed storeKeeps

theorem write_loads (readable : Readable service state)
    (performed : perform service state action = some (write, tasks)) :
    ∀ loaded ∈ (state.write write).loads, ∀ content, loaded.2 = .ok content →
      ∃ row ∈ (state.write write).messages,
        row.messageId = loaded.1 ∧ row.message.content = content := by
  have extend := write_extends state write
  have later {messageId content : String}
      (known : ∃ row ∈ state.messages, row.messageId = messageId ∧ row.message.content = content) :
      ∃ row ∈ (state.write write).messages, row.messageId = messageId ∧
        row.message.content = content := by
    obtain ⟨row, member, rfl, rfl⟩ := known
    obtain ⟨next, inLater, sameMessage, -⟩ := extend.messages row member
    exact
      ⟨next, inLater, congrArg Message.messageId sameMessage, congrArg Message.content sameMessage⟩
  have keeps : ∀ loaded ∈ state.loads, ∀ content, loaded.2 = .ok content →
      ∃ row ∈ (state.write write).messages,
        row.messageId = loaded.1 ∧ row.message.content = content :=
    fun loaded member content gives => later (readable.loads loaded member content gives)
  cases write with
  | nothing | insertMessage | insertSegment | commitFailed | commitVerified
  | commitPurged | store | lose | corrupt => exact keeps
  | loaded messageId result =>
    intro loaded member content gives
    rcases mem_concat.mp member with before | rfl
    · exact keeps loaded before content gives
    · cases gives
      exact perform_loaded readable performed

theorem step_readable {next : State}
    (stepped : step service state action = some next)
    (keeps : NeverArchivesPurged service state action)
    (readable : Readable service state) :
    Readable service next := by
  have sound := step_sound stepped readable.sound
  obtain ⟨write, tasks, performed, rfl⟩ := step_eq_some stepped
  obtain ⟨storeKeeps, keepsPurged⟩ := keeps
  rw [written, performed] at keepsPurged
  have fits := (perform_fits performed readable.sound).1
  have sameTables := Extends.refl (state.write write)
  have later : Extends state { state.write write with tasks } :=
    ⟨(write_extends state write).messages, (write_extends state write).segments⟩
  exact
    { sound
      rows := write_rows_readable readable fits keepsPurged
      objects := by
        intro object member
        obtain ⟨messageIds, built⟩ := write_objects readable performed storeKeeps object member
        exact ⟨messageIds, built.mono ⟨sameTables.messages, sameTables.segments⟩⟩
      readers := fun message segments member notPurged =>
        (perform_readers readable performed message segments member notPurged).mono later
      loads := write_loads readable performed }

theorem readable_initial : Readable service {} where
  sound := sound_initial
  rows _ member := nomatch member
  objects _ member := nomatch member
  readers _ _ member := nomatch member
  loads _ member := nomatch member

end Service

/-- Where the object store keeps what it holds and no segment is verified over a
purged message, readers are given what was appended, and a message without its
payload stays PURGED. -/
theorem loads_read_back (service : ArchiveService) (actions : List Action) (state : State)
    (reached : run (step service) {} actions = some state)
    (keeps : Meets (step service) (NeverArchivesPurged service) {} actions) :
    ReadsBack state := by
  have readable := run_invariant_of_meets step_readable reached keeps readable_initial
  constructor
  · intro loaded member row inRows sameId content inResult
    have gives : loaded.2 = .ok content := by
      cases result : loaded.2 with
      | error _ => rw [result] at inResult; cases inResult
      | ok given => rw [result] at inResult; cases inResult; rfl
    obtain ⟨source, inSource, sourceId, rfl⟩ := readable.loads loaded member content gives
    have same : source = row :=
      List.inj_on_of_nodup_map readable.sound.messageIds inSource inRows
        (sourceId.trans sameId.symm)
    rw [same]
  · intro row member archived gone
    rw [readable.rows row member gone] at archived
    cases archived

def lateRepair : List Action :=
  [ .append (note "msg_1" 1 "hi"),
    .archiveThread "acme" "thr_1",
    .advance 0 { now := laterThan 0, newId := "seg_1" },
    .advance 0 {},
    .advance 0 { blob := .raises "ConnectionError: simulated blob store outage" },
    .advance 0 {} ] ++
  archiveOnce "seg_2" ++
  [ .purgeStagedPayloads (laterThan 100000) 1000 ["msg_1"],
    .advance 0 {},
    .reconcile (laterThan 100001) 900 50,
    .advance 0 {},
    .advance 0 {},
    .advance 0 {},
    .advance 0 {},
    .advance 0 {},
    .loadMessageContent "msg_1",
    .advance 1 {} ]

theorem late_repair_empties_content :
    ¬∀ actions state,
      (∀ action ∈ actions, StoreKeeps action) →
        run (step smallService) {} actions = some state → ReadsBack state := by
  intro always
  have storeKeeps : ∀ action ∈ lateRepair, StoreKeeps action := by
    decide
  have ends :
      (run (step smallService) {} lateRepair).map (fun state => decide (ReadsBack state)) =
        some false := by
    decide +kernel
  obtain ⟨state, reached, bad⟩ := map_eq_some_iff.mp ends
  exact of_decide_eq_false bad (always lateRepair state storeKeeps reached)

def archiveLoadPurge : List Action :=
  .append (note "msg_1" 1 "hi") :: archiveOnce "seg_1" ++
    [ .loadMessageContent "msg_1",
      .advance 0 {},
      .purgeStagedPayloads (laterThan 100000) 1000 ["msg_1"],
      .advance 0 {},
      .loadMessageContent "msg_1",
      .advance 0 {} ]

theorem content_reads_back :
    ∃ state, run (step smallService) {} archiveLoadPurge = some state ∧ ReadsBack state :=
  exists_run (by decide +kernel) fun state reached =>
    loads_read_back smallService archiveLoadPurge state reached (by decide +kernel)

end MemoryService.Archive
