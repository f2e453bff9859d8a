import MemoryService.Archive.Invariants

/-!
# Which segments hold a message

A segment holds a message when it is VERIFIED and its manifest lists it.
-/

namespace MemoryService.Archive

open Domain Foundation Option List

def Holds (seg : ArchiveSegment) (messageId : String) : Prop :=
  seg.status = .verified ∧ messageId ∈ seg.manifest.messageIds
deriving Decidable

def Covered (state : State) : Prop :=
  ∀ row ∈ state.messages, row.archiveStatus ≠ .staged →
    ∃ seg ∈ state.segments, Holds seg row.messageId

/-- A purged message without its payload is in a VERIFIED segment. -/
def PurgedCovered (state : State) : Prop :=
  ∀ row ∈ state.messages, row.archiveStatus = .purged → row.content = none →
    ∃ seg ∈ state.segments, Holds seg row.messageId
deriving Decidable

section Service

variable (service : ArchiveService)

def written (state : State) (action : Action) : Write :=
  match perform service state action with
  | some (write, _) => write
  | none => .nothing

def KeepsLastHolder (state : State) : Write → Prop
  | .commitFailed segmentId _ =>
    ∀ seg ∈ state.segments, seg.segmentId = segmentId →
      ∀ row ∈ state.messages, row.archiveStatus ≠ .staged →
        Holds seg row.messageId →
          ∃ other ∈ state.segments, other.segmentId ≠ segmentId ∧ Holds other row.messageId
  | _ => True

instance (state : State) (write) : Decidable (KeepsLastHolder state write) := by
  unfold KeepsLastHolder
  split <;> infer_instance

/-- The steps under which no purged message is left without a verified segment. -/
def NeverFailsLastHolder (state : State) (action : Action) : Prop :=
  KeepsLastHolder state (written service state action)
deriving Decidable

end Service

variable {service : ArchiveService}

theorem verified_holds {state : State} {segmentId : String} {generation : Option String}
    {verifiedAt : Instant} {messageId : String} {seg : ArchiveSegment}
    (member : seg ∈ state.segments) (holds : Holds seg messageId) :
    ∃ next ∈ markVerified segmentId generation verifiedAt state.segments, Holds next messageId := by
  by_cases selected : seg.segmentId = segmentId
  · exact ⟨_, updated_mem member (decide_eq_true selected), rfl, holds.2⟩
  · exact ⟨seg, kept_mem member (decide_eq_false selected), holds⟩

theorem write_covered {state : State} {write : Write} (fits : WriteFits service.zstd state write)
    (keeps : KeepsLastHolder state write) (covered : Covered state) :
    Covered (state.write write) := by
  cases write with
  | nothing | store | lose | corrupt | loaded => exact covered
  | insertMessage row =>
    intro other member notStaged
    rcases mem_concat.mp member with before | rfl
    · exact covered other before notStaged
    · exact absurd fits.1.1 notStaged
  | insertSegment seg =>
    intro row member notStaged
    obtain ⟨other, inTable, holds⟩ := covered row member notStaged
    exact ⟨other, mem_append_left [seg] inTable, holds⟩
  | commitFailed segmentId error =>
    intro row member notStaged
    obtain ⟨seg, inTable, holds⟩ := covered row member notStaged
    obtain ⟨other, otherInTable, different, otherHolds⟩ :
        ∃ other ∈ state.segments, other.segmentId ≠ segmentId ∧ Holds other row.messageId := by
      by_cases same : seg.segmentId = segmentId
      · exact keeps seg inTable same row member notStaged holds
      · exact ⟨seg, inTable, same, holds⟩
    exact ⟨other, kept_mem otherInTable (decide_eq_false different), otherHolds⟩
  | commitVerified segmentId generation verifiedAt messageIds =>
    obtain ⟨known, inTable, sameId, sameIds⟩ := fits
    intro row member notStaged
    rcases mem_updateWhere_cases member with ⟨old, -, listed, rfl⟩ | ⟨before, -⟩
    · refine ⟨_, updated_mem inTable (decide_eq_true sameId), rfl, ?_⟩
      change old.messageId ∈ known.manifest.messageIds
      rw [sameIds]
      exact of_decide_eq_true listed
    · obtain ⟨seg, before, holds⟩ := covered row before notStaged
      exact verified_holds before holds
  | commitPurged ids =>
    intro row member notStaged
    rcases mem_updateWhere_cases member with ⟨old, -, chosen, rfl⟩ | ⟨before, -⟩
    · obtain ⟨left, inRows, sameId, leftStaged⟩ := fits old.messageId (of_decide_eq_true chosen)
      obtain ⟨seg, inTable, holds⟩ := covered left inRows leftStaged
      exact ⟨seg, inTable, sameId ▸ holds⟩
    · exact covered row before notStaged

theorem step_covered {state next : State} {action : Action}
    (stepped : step service state action = some next)
    (keeps : NeverFailsLastHolder service state action)
    (invariant : Sound service state ∧ Covered state) :
    Sound service next ∧ Covered next := by
  obtain ⟨sound, covered⟩ := invariant
  refine ⟨step_sound stepped sound, ?_⟩
  obtain ⟨write, tasks, performed, rfl⟩ := step_eq_some stepped
  rw [NeverFailsLastHolder, written, performed] at keeps
  exact write_covered (perform_fits performed sound).1 keeps covered

/-- Where no step fails the last segment that holds a message which has left
STAGED, a purged message is always held by a verified segment. -/
theorem purged_is_covered (service : ArchiveService) (actions : List Action) (state : State)
    (reached : run (step service) {} actions = some state)
    (keeps : Meets (step service) (NeverFailsLastHolder service) {} actions) :
    PurgedCovered state := by
  have start : Sound service {} ∧ Covered {} := ⟨sound_initial, fun _ member => nomatch member⟩
  have invariant := run_invariant_of_meets step_covered reached keeps start
  intro row member purged _
  exact invariant.2 row member (by rw [purged]; exact fun same => nomatch same)

def emptinessHash (data : ByteArray) : String :=
  match data.data.toList with
  | [] => "empty"
  | _ :: _ => "full"

def smallService : ArchiveService where
  zstd := markedZstd
  sha256 := emptinessHash
  cfg := { purgeMinPayloadBytes := 1 }
  chatBucket := "chat"

def laterThan (seconds : Nat) : Instant := (Instant.mk 63839762523000000).after seconds

def archiveOnce (segmentId : String) : List Action :=
  [ .archiveThread "acme" "thr_1",
    .advance 0 { now := laterThan 0, newId := segmentId },
    .advance 0 {},
    .advance 0 {},
    .advance 0 { now := laterThan 1 },
    .advance 0 {} ]

def quarantineThenPurge : List Action :=
  .append (note "msg_1" 1 "hi") :: archiveOnce "seg_1" ++
    [ .corrupt "chat"
        "tenant-shard=000/tenant=acme/year=2024/month=01/thread=thr_1/segment=seg_1.jsonl.zst"
        .empty,
      .reconcile (laterThan 2000) 900 50,
      .advance 0 {},
      .advance 0 {},
      .advance 0 {},
      .advance 0 {},
      .advance 0 {},
      .advance 0 {},
      .purgeStagedPayloads (laterThan 100000) 1000 ["msg_1"],
      .advance 0 {} ]

theorem quarantine_drops_last_copy :
    ¬∀ actions state, run (step smallService) {} actions = some state → PurgedCovered state :=
  not_always_of_run quarantineThenPurge (by decide +kernel)

def archiveCheckPurge : List Action :=
  .append (note "msg_1" 1 "hi") :: archiveOnce "seg_1" ++
    [ .reconcile (laterThan 2000) 900 50,
      .advance 0 {},
      .advance 0 {},
      .advance 0 {},
      .advance 0 {},
      .advance 0 {},
      .purgeStagedPayloads (laterThan 100000) 1000 ["msg_1"],
      .advance 0 {} ]

theorem purged_is_covered_after_check :
    ∃ state, run (step smallService) {} archiveCheckPurge = some state ∧ PurgedCovered state :=
  exists_run (by decide +kernel) fun state reached =>
    purged_is_covered smallService archiveCheckPurge state reached (by decide +kernel)

variable (state : State)

def holders (messageId : String) : Nat := state.segments.countP fun seg => Holds seg messageId

def HeldOnce : Prop :=
  ∀ row ∈ state.messages, holders state row.messageId = if row.archiveStatus = .staged then 0 else 1

/-- No message is in two VERIFIED segments, and where none of its thread is staged it is in one. -/
def ArchivedOnce : Prop :=
  ∀ row ∈ state.messages,
    holders state row.messageId ≤ 1 ∧
      ((∀ other ∈ state.messages,
          other.message.tenantId = row.message.tenantId →
            other.message.threadId = row.message.threadId → other.archiveStatus ≠ .staged) →
        holders state row.messageId = 1)
deriving Decidable

def KeepsHeldOnce : Write → Prop
  | .commitVerified segmentId _ _ messageIds =>
    (∃ seg ∈ state.segments, seg.segmentId = segmentId ∧ seg.status = .verified) ∨
      ∀ row ∈ state.messages, row.messageId ∈ messageIds → row.archiveStatus = .staged
  | .commitFailed segmentId _ =>
    ∀ seg ∈ state.segments, seg.segmentId = segmentId → seg.status ≠ .verified
  | _ => True

instance (state : State) (write) : Decidable (KeepsHeldOnce state write) := by
  unfold KeepsHeldOnce
  split <;> infer_instance

def DecidesStagedOnly (service : ArchiveService) (state : State) (action : Action) :
    Prop :=
  KeepsHeldOnce state (written service state action)
deriving Decidable

theorem same_segment {state : State} (sound : Sound service state) {seg other : ArchiveSegment}
    (member : seg ∈ state.segments) (otherMember : other ∈ state.segments)
    (sameId : seg.segmentId = other.segmentId) : seg = other :=
  inj_on_of_nodup_map sound.segmentIds member otherMember sameId

theorem holders_updateWhere {segments : List ArchiveSegment} {selects : ArchiveSegment → Bool}
    {assign : ArchiveSegment → ArchiveSegment} {messageId : String}
    (same : ∀ seg ∈ segments, selects seg = true →
      (Holds (assign seg) messageId ↔ Holds seg messageId)) :
    (updateWhere selects assign segments).countP (fun seg => Holds seg messageId) =
      segments.countP fun seg => Holds seg messageId := by
  rw [updateWhere, countP_map]
  refine countP_congr fun seg member => ?_
  by_cases selected : selects seg = true
  · simp only [Function.comp_apply, if_pos selected, decide_eq_true_eq]
    exact same seg member selected
  · simp only [Function.comp_apply, if_neg selected]

theorem holders_markVerified_again
    {state : State} (sound : Sound service state) {seg : ArchiveSegment}
    (member : seg ∈ state.segments) (generation : Option String)
    (verifiedAt : Instant) {messageId : String}
    (nothingNew : messageId ∈ seg.manifest.messageIds → seg.status = .verified) :
    (markVerified seg.segmentId generation verifiedAt state.segments).countP
        (fun other => Holds other messageId) =
      holders state messageId := by
  refine holders_updateWhere fun other otherMember selected => ?_
  have same := same_segment sound otherMember member (of_decide_eq_true selected)
  subst same
  constructor
  · rintro ⟨-, listed⟩
    exact ⟨nothingNew listed, listed⟩
  · rintro ⟨-, listed⟩
    exact ⟨rfl, listed⟩

theorem holders_markVerified_first
    {state : State} (sound : Sound service state) {seg : ArchiveSegment}
    (member : seg ∈ state.segments) (generation : Option String)
    (verifiedAt : Instant) {messageId : String}
    (listed : messageId ∈ seg.manifest.messageIds)
    (unheld : holders state messageId = 0) :
    (markVerified seg.segmentId generation verifiedAt state.segments).countP
        (fun other => Holds other messageId) = 1 := by
  rw [← countP_key_eq_one sound.segmentIds member, markVerified, updateWhere, countP_map]
  refine countP_congr fun other otherMember => ?_
  have notHeld : ¬Holds other messageId := by
    have none := countP_eq_zero.mp unheld other otherMember
    simpa using none
  by_cases same : other.segmentId = seg.segmentId
  · have isSeg := same_segment sound otherMember member same
    subst isSeg
    simp only [Function.comp_apply, decide_true, if_true, decide_eq_true_eq, iff_true]
    exact ⟨rfl, listed⟩
  · simp only [Function.comp_apply, same, decide_false, Bool.false_eq_true, if_false,
      decide_eq_true_eq, iff_false]
    exact notHeld

theorem holders_insertSegment
    {state : State} {seg : ArchiveSegment} (notVerified : seg.status ≠ .verified)
    (messageId : String) :
    (state.segments ++ [seg]).countP (fun other => Holds other messageId) =
      holders state messageId := by
  have notHeld : ¬Holds seg messageId := fun holds => notVerified holds.1
  rw [countP_append, countP_singleton, decide_eq_false notHeld]
  rfl

theorem holders_fresh {state : State} (sound : Sound service state) {messageId : String}
    (fresh : messageId ∉ state.messages.map MessageRow.messageId) :
    holders state messageId = 0 := by
  refine countP_eq_zero.mpr fun seg member holds => ?_
  exact fresh (sound.manifests seg member messageId (of_decide_eq_true holds).2)

theorem write_heldOnce {state : State} {write : Write} (sound : Sound service state)
    (fits : WriteFits service.zstd state write)
    (keeps : KeepsHeldOnce state write) (once : HeldOnce state) :
    HeldOnce (state.write write) := by
  cases write with
  | nothing | store | lose | corrupt | loaded => exact once
  | insertMessage row =>
    intro other member
    rcases mem_append.mp member with before | isNew
    · exact once other before
    · rw [mem_singleton.mp isNew, fits.1.1]
      exact holders_fresh sound fits.2
  | insertSegment seg =>
    intro row member
    rw [← once row member]
    exact holders_insertSegment fits.1.1 row.messageId
  | commitFailed segmentId error =>
    intro row member
    rw [← once row member]
    refine holders_updateWhere fun seg inTable selected => ?_
    have notVerified := keeps seg inTable (of_decide_eq_true selected)
    exact iff_of_false (fun holds => nomatch holds.1) fun holds => notVerified holds.1
  | commitVerified segmentId generation verifiedAt messageIds =>
    obtain ⟨seg, inTable, rfl, rfl⟩ := fits
    intro row member
    rcases mem_updateWhere_cases member with ⟨old, inRows, listed, rfl⟩ | ⟨inRows, notListed⟩
    · have inManifest : old.messageId ∈ seg.manifest.messageIds := of_decide_eq_true listed
      have oldOnce := once old inRows
      rcases keeps with ⟨other, otherInTable, sameId, verified⟩ | allStaged
      · have isSeg := same_segment sound otherInTable inTable sameId
        subst isSeg
        have held : holders state old.messageId ≠ 0 := by
          intro zero
          have notHeld := countP_eq_zero.mp zero other inTable
          exact notHeld (decide_eq_true ⟨verified, inManifest⟩)
        have one : holders state old.messageId = 1 := by
          by_cases staged : old.archiveStatus = .staged
          · rw [if_pos staged] at oldOnce
            exact absurd oldOnce held
          · rwa [if_neg staged] at oldOnce
        exact
          (holders_markVerified_again sound inTable generation verifiedAt
            fun _ => verified).trans one
      · rw [if_pos (allStaged old inRows inManifest)] at oldOnce
        exact holders_markVerified_first sound inTable generation verifiedAt inManifest oldOnce
    · have notInManifest : row.messageId ∉ seg.manifest.messageIds := of_decide_eq_false notListed
      rw [← once row inRows]
      exact
        holders_markVerified_again sound inTable generation verifiedAt
          fun listed => absurd listed notInManifest
  | commitPurged ids =>
    intro row member
    rcases mem_updateWhere_cases member with ⟨old, inRows, chosen, rfl⟩ | ⟨inRows, -⟩
    · obtain ⟨left, leftInRows, sameId, notStaged⟩ := fits old.messageId (of_decide_eq_true chosen)
      have leftOnce := once left leftInRows
      rw [if_neg notStaged, sameId] at leftOnce
      exact leftOnce
    · exact once row inRows

theorem step_heldOnce {state next : State} {action : Action}
    (stepped : step service state action = some next)
    (keeps : DecidesStagedOnly service state action)
    (invariant : Sound service state ∧ HeldOnce state) :
    Sound service next ∧ HeldOnce next := by
  obtain ⟨sound, once⟩ := invariant
  refine ⟨step_sound stepped sound, ?_⟩
  obtain ⟨write, tasks, performed, rfl⟩ := step_eq_some stepped
  rw [DecidesStagedOnly, written, performed] at keeps
  exact write_heldOnce sound (perform_fits performed sound).1 keeps once

/-- Where segments become VERIFIED over STAGED messages only, and no VERIFIED one
is failed, every message is archived once. -/
theorem archived_once (service : ArchiveService) (actions : List Action) (state : State)
    (reached : run (step service) {} actions = some state)
    (keeps : Meets (step service) (DecidesStagedOnly service) {} actions) :
    ArchivedOnce state := by
  have start : Sound service {} ∧ HeldOnce {} := ⟨sound_initial, fun _ member => nomatch member⟩
  obtain ⟨-, once⟩ := run_invariant_of_meets step_heldOnce reached keeps start
  intro row member
  have rowOnce := once row member
  refine ⟨?_, fun noneStaged => ?_⟩
  · rw [rowOnce]
    split <;> decide
  · rwa [if_neg (noneStaged row member rfl rfl)] at rowOnce

def crashThenRetry : List Action :=
  [ .append (note "msg_1" 1 "hi"),
    .archiveThread "acme" "thr_1",
    .advance 0 { now := laterThan 0, newId := "seg_1" },
    .advance 0 {},
    .crash 0 ] ++
  archiveOnce "seg_2" ++
  [ .reconcile (laterThan 2000) 900 50,
    .advance 0 {},
    .advance 0 {},
    .advance 0 {},
    .advance 0 {},
    .advance 0 {} ]

theorem retry_archives_twice :
    ¬∀ actions state, run (step smallService) {} actions = some state → ArchivedOnce state :=
  not_always_of_run crashThenRetry (by decide +kernel)

theorem archived_once_after_check :
    ∃ state, run (step smallService) {} archiveCheckPurge = some state ∧ ArchivedOnce state :=
  exists_run (by decide +kernel) fun state reached =>
    archived_once smallService archiveCheckPurge state reached (by decide +kernel)

/-- Through archiving, repair, purges, crashes and lost objects, a message stays in its table as
it was appended, with its payload until it has left STAGED, and no manifest changes or lists a
message that is not there. -/
theorem messages_kept (service : ArchiveService) (first rest : List Action) (state later : State)
    (reached : run (step service) {} first = some state)
    (onward : run (step service) state rest = some later) :
    (∀ row ∈ state.messages, ∃ next ∈ later.messages, next.message = row.message ∧
        (row.archiveStatus ≠ .staged → next.archiveStatus ≠ .staged) ∧ RowIntact next) ∧
      ∀ seg ∈ state.segments, ∃ next ∈ later.segments,
        next.segmentId = seg.segmentId ∧ next.manifest = seg.manifest ∧
          ∀ id ∈ seg.manifest.messageIds, id ∈ later.messages.map MessageRow.messageId := by
  have sound := run_invariant step_sound onward (run_invariant step_sound reached sound_initial)
  have extend : Extends state later := by
    refine run_invariant ?_ onward (.refl state)
    intro before after action stepped extend
    obtain ⟨write, tasks, -, rfl⟩ := step_eq_some stepped
    have wrote := write_extends before write
    exact extend.trans ⟨wrote.messages, wrote.segments⟩
  constructor
  · intro row member
    obtain ⟨next, inLater, sameMessage, stays⟩ := extend.messages row member
    exact ⟨next, inLater, sameMessage, stays, sound.rows next inLater⟩
  · intro seg member
    obtain ⟨next, inLater, sameId, sameManifest⟩ := extend.segments seg member
    refine ⟨next, inLater, sameId, sameManifest, ?_⟩
    rw [← sameManifest]
    exact sound.manifests next inLater

theorem message_kept_after_archive : ∃ state later,
    run (step smallService) {} [.append (note "msg_1" 1 "hi")] = some state ∧
      run (step smallService) state (archiveOnce "seg_1") = some later ∧
        ∀ row ∈ state.messages, ∃ next ∈ later.messages, next.message = row.message := by
  obtain ⟨later, onward⟩ := isSome_iff_exists.mp (show (run (step smallService) {}
    (.append (note "msg_1" 1 "hi") :: archiveOnce "seg_1")).isSome = true by decide +kernel)
  refine ⟨_, later, rfl, onward, fun row member => ?_⟩
  obtain ⟨next, inLater, same, -⟩ := (messages_kept smallService
    [.append (note "msg_1" 1 "hi")] (archiveOnce "seg_1") _ later rfl onward).1 row member
  exact ⟨next, inLater, same⟩

end MemoryService.Archive
