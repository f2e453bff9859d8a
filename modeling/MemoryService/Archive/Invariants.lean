import MemoryService.Archive.Service

/-!
# What no archive step undoes

Rows are never deleted, the inserted columns of a message and the manifest of a
segment never change, and no message goes back to STAGED.  So what a task has
read about them stays true until it writes, whatever runs in between.
-/

namespace MemoryService.Archive

open Domain Foundation Option List

structure Extends (state later : State) : Prop where
  messages : ∀ row ∈ state.messages, ∃ next ∈ later.messages,
    next.message = row.message ∧ (row.archiveStatus ≠ .staged → next.archiveStatus ≠ .staged)
  segments : ∀ seg ∈ state.segments, ∃ next ∈ later.segments,
    next.segmentId = seg.segmentId ∧ next.manifest = seg.manifest

variable (state : State)

theorem Extends.refl : Extends state state where
  messages row member := ⟨row, member, rfl, id⟩
  segments seg member := ⟨seg, member, rfl, rfl⟩

theorem Extends.trans {state next later : State} (first : Extends state next)
    (second : Extends next later) : Extends state later := by
  constructor
  · intro row member
    obtain ⟨inNext, isNext, sameNext, staysNext⟩ := first.messages row member
    obtain ⟨inLater, isLater, same, stays⟩ := second.messages inNext isNext
    exact ⟨inLater, isLater, same.trans sameNext, stays ∘ staysNext⟩
  · intro seg member
    obtain ⟨inNext, isNext, sameNext, manifest⟩ := first.segments seg member
    obtain ⟨inLater, isLater, same, later⟩ := second.segments inNext isNext
    exact ⟨inLater, isLater, same.trans sameNext, later.trans manifest⟩

theorem messages_updated {rows : List MessageRow} {selects : MessageRow → Bool}
    {assign : MessageRow → MessageRow}
    (sameMessage : ∀ row, (assign row).message = row.message)
    (notStaged : ∀ row, (assign row).archiveStatus ≠ .staged) :
    ∀ row ∈ rows, ∃ next ∈ updateWhere selects assign rows,
      next.message = row.message ∧
        (row.archiveStatus ≠ .staged → next.archiveStatus ≠ .staged) := by
  intro row member
  by_cases selected : selects row = true
  · exact ⟨assign row, updated_mem member selected, sameMessage row, fun _ => notStaged row⟩
  · exact ⟨row, kept_mem member (Bool.eq_false_iff.mpr selected), rfl, id⟩

theorem segments_updated {rows : List ArchiveSegment} {selects : ArchiveSegment → Bool}
    {assign : ArchiveSegment → ArchiveSegment}
    (sameId : ∀ seg, (assign seg).segmentId = seg.segmentId)
    (sameManifest : ∀ seg, (assign seg).manifest = seg.manifest) :
    ∀ seg ∈ rows, ∃ next ∈ updateWhere selects assign rows,
      next.segmentId = seg.segmentId ∧ next.manifest = seg.manifest := by
  intro seg member
  by_cases selected : selects seg = true
  · exact ⟨assign seg, updated_mem member selected, sameId seg, sameManifest seg⟩
  · exact ⟨seg, kept_mem member (Bool.eq_false_iff.mpr selected), rfl, rfl⟩

theorem write_extends (write : Write) : Extends state (state.write write) := by
  have same := Extends.refl state
  cases write with
  | nothing | store | lose | corrupt | loaded => exact ⟨same.messages, same.segments⟩
  | insertMessage row =>
    refine ⟨?_, same.segments⟩
    intro old member
    exact ⟨old, mem_append_left [row] member, rfl, id⟩
  | insertSegment seg =>
    refine ⟨same.messages, ?_⟩
    intro old member
    exact ⟨old, mem_append_left [seg] member, rfl, rfl⟩
  | commitFailed segmentId error =>
    exact ⟨same.messages, segments_updated (fun _ => rfl) (fun _ => rfl)⟩
  | commitVerified segmentId generation verifiedAt messageIds =>
    exact
      ⟨messages_updated (fun _ => rfl) (fun _ same => nomatch same),
        segments_updated (fun _ => rfl) (fun _ => rfl)⟩
  | commitPurged ids =>
    exact ⟨messages_updated (fun _ => rfl) (fun _ same => nomatch same), same.segments⟩

/-- Some row of the segment table has this id and lists these messages. -/
def Known (segmentId : String) (messageIds : List String) : Prop :=
  ∃ seg ∈ state.segments, seg.segmentId = segmentId ∧ seg.manifest.messageIds = messageIds

def Left (messageId : String) : Prop :=
  ∃ row ∈ state.messages, row.messageId = messageId ∧ row.archiveStatus ≠ .staged

def Appended (m : Message) : Prop :=
  ∃ row ∈ state.messages, row.messageId = m.messageId ∧ row.message.content = m.content

def BuiltFrom (zstd : Zstd) (state : State) (messageIds : List String)
    (data : ByteArray) : Prop :=
  ∃ messages : List Message,
    messages ≠ [] ∧ (∀ m ∈ messages, Appended state m) ∧
      messageIds = messages.map Message.messageId ∧
      data = zstd.compress (segmentText messages).toUTF8

variable {state later : State} {zstd : Zstd} {messageIds : List String} {data : ByteArray}
  {segmentId : String} {seg : ArchiveSegment} {sha256 : ByteArray → String} {action : Action}
  {write : Write} {tasks : List Task}

section

variable (extend : Extends state later)
include extend

theorem Appended.mono {m : Message} (appended : Appended state m) :
    Appended later m := by
  obtain ⟨row, member, sameId, sameContent⟩ := appended
  obtain ⟨next, inLater, sameMessage, -⟩ := extend.messages row member
  refine ⟨next, inLater, ?_, ?_⟩
  · rw [MessageRow.messageId, sameMessage]
    exact sameId
  · rw [sameMessage]
    exact sameContent

theorem BuiltFrom.mono (built : BuiltFrom zstd state messageIds data) :
    BuiltFrom zstd later messageIds data := by
  obtain ⟨messages, nonempty, appended, sameIds, sameData⟩ := built
  exact ⟨messages, nonempty, fun m member => (appended m member).mono extend, sameIds, sameData⟩

theorem Known.mono (known : Known state segmentId messageIds) :
    Known later segmentId messageIds := by
  obtain ⟨seg, member, sameId, sameManifest⟩ := known
  obtain ⟨next, inLater, nextId, nextManifest⟩ := extend.segments seg member
  exact ⟨next, inLater, nextId.trans sameId, nextManifest ▸ sameManifest⟩

theorem Left.mono {messageId : String} (left : Left state messageId) :
    Left later messageId := by
  obtain ⟨row, member, sameId, notStaged⟩ := left
  obtain ⟨next, inLater, sameMessage, stays⟩ := extend.messages row member
  refine ⟨next, inLater, ?_, stays notStaged⟩
  rw [MessageRow.messageId, sameMessage]
  exact sameId

end

def ReconcilePhase.segments : ReconcilePhase → List ArchiveSegment
  | .listFailed | .listVerified | .next => []
  | .repairing seg _ | .repaired seg _ | .checking seg _ | .mismatched seg => [seg]

def ReconcileTask.segments (task : ReconcileTask) : List ArchiveSegment :=
  task.phase.segments ++ task.repairs ++ task.checks

/-- The segment in the hand of `_archive_messages`. -/
def ArchivePhase.built? : ArchivePhase → Option BuiltSegment
  | .next => none
  | .uploading built | .uploaded built _ | .failing built _ | .verified built _ => some built

def TaskKnows (zstd : Zstd) (state : State) : Task → Prop
  | .archive task =>
    (∀ plan ∈ task.plans, ∀ m ∈ plan.messages, Appended state m) ∧
      ∀ built ∈ task.phase.built?,
        Known state built.segmentId built.messageIds ∧
          BuiltFrom zstd state built.messageIds built.data
  | .reconcile task => ∀ seg ∈ task.segments, Known state seg.segmentId seg.manifest.messageIds
  | .purge ids => ∀ id ∈ ids, Left state id
  | .load _ _ => True

theorem TaskKnows.mono {task : Task}
    (extend : Extends state later) (knows : TaskKnows zstd state task) :
    TaskKnows zstd later task := by
  cases task with
  | archive task =>
    refine ⟨fun plan planned m member => (knows.1 plan planned m member).mono extend, ?_⟩
    intro built inHand
    obtain ⟨known, builtFrom⟩ := knows.2 built inHand
    exact ⟨known.mono extend, builtFrom.mono extend⟩
  | reconcile task => exact fun seg member => (knows seg member).mono extend
  | purge ids => exact fun id member => (knows id member).mono extend
  | load message segments => trivial

def WriteFits (zstd : Zstd) (state : State) : Write → Prop
  | .insertMessage row =>
    (row.archiveStatus = .staged ∧ row.content = some row.message.content) ∧
      row.messageId ∉ state.messages.map MessageRow.messageId
  | .insertSegment seg =>
    (seg.status ≠ .verified ∧
        ∀ id ∈ seg.manifest.messageIds, id ∈ state.messages.map MessageRow.messageId) ∧
      seg.segmentId ∉ state.segments.map ArchiveSegment.segmentId
  | .store object => ∃ messageIds, BuiltFrom zstd state messageIds object.data
  | .commitVerified segmentId _ _ messageIds => Known state segmentId messageIds
  | .commitPurged ids => ∀ id ∈ ids, Left state id
  | _ => True

theorem known_of_mem (member : seg ∈ state.segments) :
    Known state seg.segmentId seg.manifest.messageIds :=
  ⟨seg, member, rfl, rfl⟩

theorem buildSegment_manifest {messages : List Message}
    {tenantId threadId : String} {shards : Nat} {built : BuiltSegment}
    (builds : buildSegment zstd sha256 messages tenantId threadId shards segmentId = some built) :
    built.messageIds = messages.map Message.messageId ∧
      built.manifest.messageIds = built.messageIds := by
  cases messages with
  | nil => cases builds
  | cons m messages =>
    cases builds
    exact ⟨rfl, rfl⟩

theorem not_mem_of_not_taken {segments : List ArchiveSegment} (free : ¬taken segments seg = true) :
    seg.segmentId ∉ segments.map ArchiveSegment.segmentId := by
  intro member
  obtain ⟨other, inSegments, same⟩ := mem_map.mp member
  refine free (any_eq_true.mpr ⟨other, inSegments, ?_⟩)
  exact decide_eq_true (.inl same)

section Service

variable {service : ArchiveService}

def StepFits (zstd : Zstd) (state : State) (outcome : Write × Option Task) : Prop :=
  WriteFits zstd state outcome.1 ∧ ∀ left ∈ outcome.2, TaskKnows zstd (state.write outcome.1) left

theorem put_data {objects : List BlobObject} {object : BlobObject}
    {bucket key checksumSha256 : String}
    (stored : put sha256 objects bucket key data checksumSha256 = .ok object) :
    object.data = data := by
  unfold put at stored
  split at stored
  · cases stored
  · split at stored <;> cases stored
    rfl

theorem archiveStep_fits {task : ArchiveTask} (reply : Reply)
    (knows : TaskKnows service.zstd state (.archive task)) :
    StepFits service.zstd state (advance service state reply (.archive task)) := by
  obtain ⟨tenantId, threadId, phase, plans⟩ := task
  have keeps (write : Write) := TaskKnows.mono (write_extends state write) knows
  cases phase with
  | next =>
    cases plans with
    | nil => exact ⟨trivial, fun left member => nomatch member⟩
    | cons plan plans =>
      simp only [advance, archiveStep]
      split
      case h_1 => exact ⟨trivial, fun left member => nomatch member⟩
      case h_2 built builds =>
        by_cases free :
            taken state.segments (manifestRow service tenantId threadId reply.now built) = true
        · simp only [if_pos free]
          exact ⟨trivial, fun left member => nomatch member⟩
        · simp only [if_neg free]
          have appended := knows.1 plan mem_cons_self
          obtain ⟨sameIds, sameManifest⟩ := buildSegment_manifest builds
          obtain ⟨nonempty, data⟩ := buildSegment_data builds
          refine ⟨⟨⟨?_, ?_⟩, not_mem_of_not_taken free⟩, ?_⟩
          · rintro ⟨⟩
          · intro id listed
            change id ∈ built.manifest.messageIds at listed
            rw [sameManifest, sameIds] at listed
            obtain ⟨m, member, rfl⟩ := mem_map.mp listed
            obtain ⟨row, inRows, sameId, -⟩ := appended m member
            exact mem_map.mpr ⟨row, inRows, sameId⟩
          · rintro left ⟨⟩
            refine ⟨fun later planned => (keeps _).1 later (mem_cons_of_mem plan planned), ?_⟩
            rintro other ⟨⟩
            refine ⟨⟨_, mem_append_right _ mem_cons_self, rfl, sameManifest⟩,
              plan.messages, nonempty, ?_, sameIds, data⟩
            exact (keeps _).1 plan mem_cons_self
  | uploading built =>
    obtain ⟨-, builtFrom⟩ := knows.2 built rfl
    simp only [advance, archiveStep]
    split
    case h_1 => exact ⟨trivial, fun left member => by cases member; exact keeps .nothing⟩
    case h_2 error object replied stored =>
      refine ⟨⟨_, put_data stored ▸ builtFrom⟩, ?_⟩
      rintro left ⟨⟩
      exact keeps (.store object)
    case h_3 object replied stored =>
      refine ⟨⟨_, put_data stored ▸ builtFrom⟩, ?_⟩
      rintro left ⟨⟩
      exact keeps (.store object)
    case h_4 => exact ⟨trivial, fun left member => by cases member; exact keeps .nothing⟩
  | uploaded built ref =>
    simp only [advance, archiveStep]
    split
    case h_3 =>
      split <;> refine ⟨trivial, ?_⟩ <;> rintro left ⟨⟩ <;> exact keeps .nothing
    all_goals
      refine ⟨trivial, ?_⟩
      rintro left ⟨⟩
      exact keeps .nothing
  | failing built error =>
    exact ⟨trivial, fun left member => nomatch member⟩
  | verified built ref =>
    refine ⟨(knows.2 built rfl).1, ?_⟩
    rintro left ⟨⟩
    exact ⟨(keeps _).1, fun other member => nomatch member⟩

theorem reconcile_goes_on {state : State} {task next : ReconcileTask}
    (knows : TaskKnows service.zstd state (.reconcile task))
    (subset : ∀ seg ∈ next.segments, seg ∈ task.segments ∨ seg ∈ state.segments) (write : Write) :
    TaskKnows service.zstd (state.write write) (.reconcile next) := by
  intro seg member
  rcases subset seg member with before | inTable
  · exact (knows seg before).mono (write_extends state write)
  · exact (known_of_mem inTable).mono (write_extends state write)

theorem mem_of_mem_ordered {segments : List ArchiveSegment}
    {p : ArchiveSegment → Bool} {limit : Nat}
    (member : seg ∈ (byCreation (segments.filter p)).take limit) :
    seg ∈ segments ∧ p seg = true := by
  have inSorted := mem_of_mem_take member
  rw [byCreation, mem_insertionSort, mem_filter] at inSorted
  exact inSorted

section

variable {now : Instant} {staleAfterSeconds verifySample : Nat}
  {repairs checks : List ArchiveSegment}
  {phase : ReconcilePhase}

theorem reconcile_reads {task next : ReconcileTask}
    (knows : TaskKnows service.zstd state (.reconcile task))
    (subset : ∀ seg ∈ next.segments, seg ∈ task.segments ∨ seg ∈ state.segments) :
    StepFits service.zstd state (.nothing, some (.reconcile next)) := by
  refine ⟨trivial, ?_⟩
  rintro left ⟨⟩
  exact reconcile_goes_on knows subset .nothing

theorem reconcile_lists_fits {task : ReconcileTask} (reply : Reply)
    (isList : task.phase = .listFailed ∨ task.phase = .listVerified)
    (knows : TaskKnows service.zstd state (.reconcile task)) :
    StepFits service.zstd state (advance service state reply (.reconcile task)) := by
  obtain ⟨now, staleAfterSeconds, verifySample, phase, repairs, checks⟩ := task
  obtain rfl | rfl : phase = .listFailed ∨ phase = .listVerified := isList
  · refine reconcile_reads knows fun seg member => ?_
    simp only [ReconcileTask.segments, ReconcilePhase.segments, nil_append, mem_append] at member ⊢
    rcases member with (inRepairs | listed) | inChecks
    · exact .inl (.inl inRepairs)
    · exact .inr (mem_of_mem_ordered listed).1
    · exact .inl (.inr inChecks)
  · refine reconcile_reads knows fun seg member => ?_
    simp only [ReconcileTask.segments, ReconcilePhase.segments, nil_append, mem_append] at member ⊢
    rcases member with inRepairs | listed
    · exact .inl (.inl inRepairs)
    · exact .inr (mem_of_mem_ordered listed).1

theorem reconcile_next_fits (reply : Reply)
    (knows : TaskKnows service.zstd state
      (.reconcile ⟨now, staleAfterSeconds, verifySample, .next, repairs, checks⟩)) :
    StepFits service.zstd state (advance service state reply
      (.reconcile ⟨now, staleAfterSeconds, verifySample, .next, repairs, checks⟩)) := by
  cases repairs with
  | cons first repairs =>
    simp only [advance, reconcileStep]
    split
    case h_1 =>
      split <;> exact reconcile_reads knows fun seg member => .inl member
    case h_2 => exact reconcile_reads knows fun seg member => .inl member
  | nil =>
    cases checks with
    | nil => exact ⟨trivial, fun left member => nomatch member⟩
    | cons first checks =>
      simp only [advance, reconcileStep]
      split
      case h_1 =>
        split <;> exact reconcile_reads knows fun seg member => .inl member
      case h_2 =>
        refine reconcile_reads knows fun seg member => .inl ?_
        exact mem_cons_of_mem first member

theorem reconcile_verifies_fits {task : ReconcileTask} (reply : Reply) {first : ArchiveSegment}
    {ref : BlobRef} (isRead : task.phase = .repairing first ref ∨ task.phase = .checking first ref)
    (knows : TaskKnows service.zstd state (.reconcile task)) :
    StepFits service.zstd state (advance service state reply (.reconcile task)) := by
  obtain ⟨now, staleAfterSeconds, verifySample, phase, repairs, checks⟩ := task
  obtain rfl | rfl : phase = .repairing first ref ∨ phase = .checking first ref := isRead
  · simp only [advance, reconcileStep]
    split
    case h_1 =>
      split <;> exact reconcile_reads knows fun seg member => .inl member
    case h_2 => exact reconcile_reads knows fun seg member => .inl member
  · simp only [advance, reconcileStep]
    split
    case h_1 =>
      split
      case isTrue =>
        refine reconcile_reads knows fun seg member => .inl ?_
        exact mem_cons_of_mem first member
      case isFalse => exact reconcile_reads knows fun seg member => .inl member
    case h_2 =>
      refine reconcile_reads knows fun seg member => .inl ?_
      exact mem_cons_of_mem first member

end

theorem reconcileStep_fits {task : ReconcileTask} (reply : Reply)
    (knows : TaskKnows service.zstd state (.reconcile task)) :
    StepFits service.zstd state (advance service state reply (.reconcile task)) := by
  obtain ⟨now, staleAfterSeconds, verifySample, phase, repairs, checks⟩ := task
  cases phase with
  | listFailed => exact reconcile_lists_fits reply (.inl rfl) knows
  | listVerified => exact reconcile_lists_fits reply (.inr rfl) knows
  | next => exact reconcile_next_fits reply knows
  | repairing first ref => exact reconcile_verifies_fits reply (.inl rfl) knows
  | checking first ref => exact reconcile_verifies_fits reply (.inr rfl) knows
  | repaired first head =>
    cases head with
    | none =>
      refine ⟨trivial, ?_⟩
      rintro left ⟨⟩
      refine reconcile_goes_on knows (fun seg member => .inl ?_) _
      exact mem_cons_of_mem first member
    | some head =>
      refine ⟨knows first mem_cons_self, ?_⟩
      rintro left ⟨⟩
      refine reconcile_goes_on knows (fun seg member => .inl ?_) _
      exact mem_cons_of_mem first member
  | mismatched first =>
    refine ⟨trivial, ?_⟩
    rintro left ⟨⟩
    refine reconcile_goes_on knows (fun seg member => .inl ?_) _
    exact mem_cons_of_mem first member

theorem loadStep_fits {message : Message} {segments : Option (List ArchiveSegment)}
    (reply : Reply) :
    StepFits service.zstd state (advance service state reply (.load message segments)) := by
  have fits (outcome : Write × Option (Option (List ArchiveSegment)))
      (writes : WriteFits service.zstd state outcome.1) :
      StepFits service.zstd state (outcome.1, outcome.2.map (.load message)) := by
    refine ⟨writes, ?_⟩
    intro left member
    obtain ⟨rest, -, rfl⟩ := map_eq_some_iff.mp member
    trivial
  refine fits (loadStep service state reply message segments) ?_
  unfold loadStep
  split
  case h_1 => split <;> trivial
  case h_2 => trivial
  case h_3 =>
    split
    case isTrue => trivial
    case isFalse =>
      split
      case h_1 => dsimp only; split <;> trivial
      case h_2 => trivial

/-- The payload is as it was inserted, or is gone from a message that is not staged. -/
def RowIntact (row : MessageRow) : Prop :=
  row.content = some row.message.content ∨ row.content = none ∧ row.archiveStatus ≠ .staged

variable (service) in
/-- Ids are unique, payloads intact, manifests list messages that exist, and every
task knows what it acts on. -/
structure Sound (state : State) : Prop where
  messageIds : (state.messages.map MessageRow.messageId).Nodup
  segmentIds : (state.segments.map ArchiveSegment.segmentId).Nodup
  rows : ∀ row ∈ state.messages, RowIntact row
  manifests : ∀ seg ∈ state.segments, ∀ id ∈ seg.manifest.messageIds,
    id ∈ state.messages.map MessageRow.messageId
  tasks : ∀ task ∈ state.tasks, TaskKnows service.zstd state task

theorem sound_initial : Sound service {} where
  messageIds := nodup_nil
  segmentIds := nodup_nil
  rows _ member := nomatch member
  manifests _ member := nomatch member
  tasks _ member := nomatch member

theorem appended_of_staged (sound : Sound service state) {row : MessageRow}
    (member : row ∈ state.messages) (staged : row.archiveStatus = .staged) :
    Appended state (rowToMessage row) := by
  refine ⟨row, member, rfl, ?_⟩
  rcases sound.rows row member with intact | ⟨-, notStaged⟩
  · simp only [rowToMessage, intact, getD_some]
  · exact absurd staged notStaged

theorem step_eq_some {next : State} (stepped : step service state action = some next) :
    ∃ write tasks, perform service state action = some (write, tasks) ∧
      next = { state.write write with tasks } := by
  obtain ⟨⟨write, tasks⟩, performed, rfl⟩ := map_eq_some_iff.mp stepped
  exact ⟨write, tasks, performed, rfl⟩

theorem advance_cases {task : ℕ} {reply : Reply}
    (performed : perform service state (.advance task reply) = some (write, tasks)) :
    ∃ current ∈ state.tasks, write = (advance service state reply current).1 ∧
      ∀ other ∈ tasks,
        other ∈ state.tasks ∨ (advance service state reply current).2 = some other := by
  rw [perform] at performed
  split at performed
  case h_2 => cases performed
  case h_1 current found =>
    cases performed
    refine ⟨current, mem_of_getElem? found, rfl, ?_⟩
    intro other member
    split at member
    case h_1 left rest =>
      rcases mem_or_eq_of_mem_set member with before | rfl
      · exact .inl before
      · exact .inr rest
    case h_2 => exact .inl (mem_of_mem_eraseIdx member)

theorem perform_fits (performed : perform service state action = some (write, tasks))
    (sound : Sound service state) :
    WriteFits service.zstd state write ∧ ∀ task ∈ tasks,
      TaskKnows service.zstd (state.write write) task := by
  have keeps (write : Write) : ∀ task ∈ state.tasks,
    TaskKnows service.zstd (state.write write) task :=
    fun task member => (sound.tasks task member).mono (write_extends state write)
  have starts {task : Task} (knows : TaskKnows service.zstd state task) :
      ∀ other ∈ state.tasks ++ [task], TaskKnows service.zstd state other := by
    intro other member
    rcases mem_concat.mp member with before | rfl
    · exact sound.tasks other before
    · exact knows
  cases action with
  | append message =>
    rw [perform] at performed
    obtain ⟨fresh, ⟨⟩⟩ := ite_none_left_eq_some.mp performed
    refine ⟨⟨⟨rfl, rfl⟩, ?_⟩, keeps _⟩
    intro member
    obtain ⟨row, inRows, same⟩ := mem_map.mp member
    exact fresh (any_eq_true.mpr ⟨row, inRows, decide_eq_true same⟩)
  | archiveThread tenantId threadId =>
    cases performed
    refine ⟨trivial, starts ⟨?_, fun built member => nomatch member⟩⟩
    intro plan planned m member
    obtain ⟨row, inRows, staged, rfl⟩ := mem_listStaged (mem_planSegments planned member)
    exact appended_of_staged sound inRows staged
  | reconcile now staleAfterSeconds verifySample =>
    cases performed
    refine ⟨trivial, starts fun seg member => ?_⟩
    simp only [ReconcileTask.segments, ReconcilePhase.segments, nil_append, append_nil] at member
    exact known_of_mem (mem_of_mem_ordered member).1
  | purgeStagedPayloads now limit ids =>
    rw [perform] at performed
    obtain ⟨chosen, ⟨⟩⟩ := ite_none_right_eq_some.mp performed
    refine ⟨trivial, starts fun id member => ?_⟩
    obtain ⟨row, inCandidates, sameId⟩ := mem_map.mp (chosen.1 id member)
    obtain ⟨inRows, canPurge⟩ := mem_filter.mp inCandidates
    refine ⟨row, inRows, sameId, ?_⟩
    rw [(of_decide_eq_true canPurge).1]
    exact fun same => nomatch same
  | loadMessageContent messageId =>
    rw [perform] at performed
    split at performed
    case h_1 =>
      cases performed
      exact ⟨trivial, starts trivial⟩
    case h_2 => cases performed
  | advance task reply =>
    obtain ⟨current, inTasks, rfl, goesOn⟩ := advance_cases performed
    have knows := sound.tasks current inTasks
    have fits : StepFits service.zstd state (advance service state reply current) := by
      cases current with
      | archive task => exact archiveStep_fits reply knows
      | reconcile task => exact reconcileStep_fits reply knows
      | purge ids => exact ⟨knows, fun left member => nomatch member⟩
      | load message segments => exact loadStep_fits reply
    refine ⟨fits.1, ?_⟩
    intro other member
    rcases goesOn other member with before | rest
    · exact keeps _ other before
    · exact fits.2 other rest
  | crash task =>
    cases performed
    exact ⟨trivial, fun other member => sound.tasks other (mem_of_mem_eraseIdx member)⟩
  | lose bucket key =>
    cases performed
    exact ⟨trivial, keeps _⟩
  | corrupt bucket key data =>
    cases performed
    exact ⟨trivial, keeps _⟩

theorem write_ids (sound : Sound service state) (fits : WriteFits service.zstd state write) :
    ((state.write write).messages.map MessageRow.messageId).Nodup ∧
      ((state.write write).segments.map ArchiveSegment.segmentId).Nodup := by
  have before := And.intro sound.messageIds sound.segmentIds
  cases write with
  | nothing | store | lose | corrupt | loaded => exact before
  | insertMessage row => exact ⟨nodup_map_insert fits.2 before.1, before.2⟩
  | insertSegment seg => exact ⟨before.1, nodup_map_insert fits.2 before.2⟩
  | commitFailed segmentId error =>
    exact ⟨before.1, nodup_map_updateWhere (fun _ => rfl) before.2⟩
  | commitVerified segmentId generation verifiedAt messageIds =>
    exact
      ⟨nodup_map_updateWhere (fun _ => rfl) before.1, nodup_map_updateWhere (fun _ => rfl) before.2⟩
  | commitPurged ids =>
    exact ⟨nodup_map_updateWhere (fun _ => rfl) before.1, before.2⟩

theorem rows_updated {rows : List MessageRow} {selects : MessageRow → Bool}
    {assign : MessageRow → MessageRow}
    (keeps : ∀ row, RowIntact row → RowIntact (assign row))
    (intact : ∀ row ∈ rows, RowIntact row) :
    ∀ row ∈ updateWhere selects assign rows, RowIntact row := by
  intro row member
  rcases mem_updateWhere_cases member with ⟨old, inRows, -, rfl⟩ | ⟨inRows, -⟩
  · exact keeps old (intact old inRows)
  · exact intact row inRows

theorem write_rows (sound : Sound service state) (fits : WriteFits service.zstd state write) :
    ∀ row ∈ (state.write write).messages, RowIntact row := by
  cases write with
  | nothing | insertSegment | commitFailed | store | lose | corrupt | loaded =>
    exact sound.rows
  | insertMessage row =>
    intro other member
    rcases mem_concat.mp member with before | rfl
    · exact sound.rows other before
    · exact .inl fits.1.2
  | commitVerified segmentId generation verifiedAt messageIds =>
    refine rows_updated ?_ sound.rows
    rintro row (intact | ⟨gone, -⟩)
    · exact .inl intact
    · exact .inr ⟨gone, fun same => nomatch same⟩
  | commitPurged ids =>
    exact rows_updated (fun row _ => .inr ⟨rfl, fun same => nomatch same⟩) sound.rows

theorem write_manifests (sound : Sound service state) (fits : WriteFits service.zstd state write) :
    ∀ seg ∈ (state.write write).segments, ∀ id ∈ seg.manifest.messageIds,
      id ∈ (state.write write).messages.map MessageRow.messageId := by
  have grows : ∀ id ∈ state.messages.map MessageRow.messageId,
      id ∈ (state.write write).messages.map MessageRow.messageId := by
    intro id member
    obtain ⟨row, inRows, rfl⟩ := mem_map.mp member
    obtain ⟨next, inLater, sameMessage, -⟩ := (write_extends state write).messages row inRows
    exact mem_map.mpr ⟨next, inLater, congrArg Message.messageId sameMessage⟩
  suffices listed : ∀ seg ∈ (state.write write).segments,
      ∀ id ∈ seg.manifest.messageIds, id ∈ state.messages.map MessageRow.messageId from
    fun seg member id inManifest => grows id (listed seg member id inManifest)
  have updated {selects : ArchiveSegment → Bool}
      {assign : ArchiveSegment → ArchiveSegment}
      (sameManifest : ∀ seg, (assign seg).manifest = seg.manifest) :
      ∀ seg ∈ updateWhere selects assign state.segments,
        ∀ id ∈ seg.manifest.messageIds, id ∈ state.messages.map MessageRow.messageId := by
    intro seg member id inManifest
    obtain ⟨old, inTable, same⟩ := exists_of_mem_updateWhere sameManifest member
    exact sound.manifests old inTable id (same ▸ inManifest)
  cases write with
  | nothing | insertMessage | commitPurged | store | lose | corrupt | loaded =>
    exact sound.manifests
  | insertSegment seg =>
    intro other member id inManifest
    rcases mem_concat.mp member with before | rfl
    · exact sound.manifests other before id inManifest
    · exact fits.1.2 id inManifest
  | commitFailed segmentId error => exact updated fun _ => rfl
  | commitVerified segmentId generation verifiedAt messageIds =>
    exact updated fun _ => rfl

theorem step_sound {next : State} (stepped : step service state action = some next)
    (sound : Sound service state) :
    Sound service next := by
  obtain ⟨write, tasks, performed, rfl⟩ := step_eq_some stepped
  obtain ⟨fits, tasksKnow⟩ := perform_fits performed sound
  obtain ⟨messageIds, segmentIds⟩ := write_ids sound fits
  have sameTables := Extends.refl (state.write write)
  exact
    { messageIds
      segmentIds
      rows := write_rows sound fits
      manifests := write_manifests sound fits
      tasks := fun task member =>
        (tasksKnow task member).mono ⟨sameTables.messages, sameTables.segments⟩ }

end Service

end MemoryService.Archive
