import MemoryService.Authz.Visibility
import MemoryService.Foundation.Transition

/-!
# The audience of an upload

A file is stored once in a tenant where its next uploader may read the stored document, and the
document keeps the keys it was stored with.
-/

namespace MemoryService.Ingestion.Uploads

open Authz Domain Foundation List

structure Document where
  documentId : String
  tenantId : String
  workspaceId : Option String
  ownerUserId : Option String
  threadId : Option String
  filename : String
  mediaType : String
  sizeBytes : Nat
  checksum : String
  visibility : Visibility
  visibilityKeys : List String
  /-- the bytes that are staged for it -/
  data : List UInt8

structure FileAck where
  documentId : String
  filename : String
  checksum : String
  sizeBytes : Nat
  deduplicated : Bool := false

structure Settings where
  maxFileBytes : Nat
  /-- by the parser or by the one it falls back on -/
  supported : String → Bool
  contentHash : List UInt8 → String

/-- A request, and what is answered about its caller at that time. -/
structure Upload where
  ctx : MemoryExecutionContext
  filename : String
  mediaType : String
  data : List UInt8
  visibility : Option Visibility := none
  /-- the thread is made for the upload, or the caller may write to it -/
  mayWrite : Bool := true
  canRead : String → Bool
  /-- the workspace has a row, and whether the caller is a member -/
  team : Option Bool := none
  /-- the id that a new document is given -/
  documentId : String

namespace Upload

variable (u : Upload)

def tenantId : String := u.ctx.tenantId.text

def requested : Visibility :=
  u.visibility.getD
    (if u.ctx.threadId.isSome then .thread else if u.ctx.userId.isSome then .user else .tenant)

/-- The keys of the audience that is asked for. -/
def keys : Except String (List String) :=
  visibilityKeys u.tenantId u.requested u.ctx.principalId none
    { anchorsOf u.ctx with workspaceId := u.ctx.workspaceId.map Id.text }

/-- The team, `none` for a bare anchor. -/
def requireWorkspaceMember (teamOnly : Bool) : Except String (Option String) :=
  match u.ctx.workspaceId, u.team with
  | none, _ => if teamOnly then .ok none else .error "WORKSPACE visibility requires workspace_id"
  | some _, none => if teamOnly then .ok none else .error "Workspace not found"
  | some workspace, some true => .ok (some workspace.text)
  | some _, some false => .error "Access denied"

/-- `_audience`: with the team that the document is shared with. -/
def audience : Except String (Visibility × List String × Option String) := do
  let team ← u.requireWorkspaceMember (u.requested ≠ .workspace)
  let keys ← u.keys
  .ok (u.requested, keys, if u.requested = .workspace then team else none)

/-- What is asked of an upload before the store is. -/
def check (settings : Settings) : Except String Unit :=
  if u.data = [] then .error "empty file"
  else if settings.maxFileBytes < u.data.length then
    .error ("file exceeds " ++ toString settings.maxFileBytes ++ " bytes")
  else if !settings.supported u.mediaType then
    .error ("unsupported media type " ++ u.mediaType)
  else if u.ctx.threadId.isSome && !u.mayWrite then .error "Access denied"
  else .ok ()

end Upload

/-- The oldest; the rows are in the order they were made in. -/
def findByChecksum (documents : List Document) (tenantId checksum : String) :
    Option Document :=
  documents.find? fun d => d.tenantId = tenantId ∧ d.checksum = checksum

variable (settings : Settings) (documents : List Document) (u : Upload)

/-- The document that an upload is answered with. -/
def existing : Option Document :=
  (findByChecksum documents u.tenantId (settings.contentHash u.data)).filter fun d =>
    u.canRead d.documentId

def acceptFile :
    Except String (List Document × FileAck) := do
  u.check settings
  let checksum := settings.contentHash u.data
  match existing settings documents u with
  | some found =>
    .ok (documents, ⟨found.documentId, found.filename, checksum, found.sizeBytes, true⟩)
  | none =>
    -- the team is told to the authorization store, which the keys do not ask
    let (visibility, keys, _) ← u.audience
    let document : Document :=
      { documentId := u.documentId
        tenantId := u.tenantId
        workspaceId := u.ctx.workspaceId.map Id.text
        ownerUserId := u.ctx.userId.map Id.text
        threadId := u.ctx.threadId.map Id.text
        filename := u.filename
        mediaType := u.mediaType
        sizeBytes := u.data.length
        checksum := checksum
        visibility := visibility
        visibilityKeys := keys
        data := u.data }
    .ok (documents ++ [document], ⟨u.documentId, u.filename, checksum, u.data.length, false⟩)

structure State where
  documents : List Document := []
  /-- the uploads that were acknowledged -/
  acknowledged : List Upload := []

def step (state : State) (u : Upload) : State :=
  match acceptFile settings state.documents u with
  | .ok (documents, _) => ⟨documents, state.acknowledged ++ [u]⟩
  | .error _ => state

/-- Whoever reads with a key of the audience reads a document of these bytes. -/
def Reaches : Prop :=
  ∀ keys, u.keys = .ok keys → ∀ reader : VisibilitySpecification,
    reader.allows u.tenantId keys = true →
      ∃ d ∈ documents, d.data = u.data ∧ reader.allows d.tenantId d.visibilityKeys = true

/-- Every upload that was acknowledged reaches its audience. -/
def State.Reached (state : State) : Prop := ∀ u ∈ state.acknowledged, Reaches state.documents u

/-- Every key of the audience is on a document of these bytes. -/
def Carried : Prop :=
  ∀ keys, u.keys = .ok keys → ∀ key ∈ keys,
    ∃ d ∈ documents, d.data = u.data ∧ d.tenantId = u.tenantId ∧ key ∈ d.visibilityKeys

/-- An upload that is answered with a stored document asks for no key that is not carried. -/
def Covered (state : State) (u : Upload) : Prop :=
  u.check settings = .ok () → (existing settings state.documents u).isSome = true →
    Carried state.documents u

theorem reaches_iff_carried :
    Reaches documents u ↔ Carried documents u := by
  constructor
  · intro reaches keys isKeys key member
    have reads : (⟨u.tenantId, [key], false⟩ : VisibilitySpecification).allows
        u.tenantId keys = true := by
      simpa [VisibilitySpecification.allows] using member
    obtain ⟨d, isStored, isData, allowed⟩ := reaches keys isKeys _ reads
    simp only [VisibilitySpecification.allows, Bool.and_eq_true, decide_eq_true_eq,
      List.any_eq_true, List.mem_singleton] at allowed
    obtain ⟨isTenant, other, isOn, rfl⟩ := allowed
    exact ⟨d, isStored, isData, isTenant, isOn⟩
  · intro carried keys isKeys reader allowed
    simp only [VisibilitySpecification.allows, Bool.and_eq_true, decide_eq_true_eq,
      List.any_eq_true] at allowed ⊢
    obtain ⟨isReader, key, member, reads⟩ := allowed
    obtain ⟨d, isStored, isData, isTenant, isOn⟩ := carried keys isKeys key member
    exact ⟨d, isStored, isData, isTenant.trans isReader, key, isOn, reads⟩

theorem Carried.mono {documents more : List Document} {u : Upload}
    (carried : Carried documents u) (kept : ∀ d ∈ documents, d ∈ more) : Carried more u := by
  intro keys isKeys key member
  obtain ⟨d, isStored, rest⟩ := carried keys isKeys key member
  exact ⟨d, kept d isStored, rest⟩

/-- An upload is refused, or answered with a stored document, or stored with its keys. -/
theorem acceptFile_cases :
    (∃ refusal, acceptFile settings documents u = .error refusal ∧
        (u.check settings = .ok () → existing settings documents u = none)) ∨
      (∃ ack, acceptFile settings documents u = .ok (documents, ack) ∧
        u.check settings = .ok () ∧ (existing settings documents u).isSome = true) ∨
      ∃ d ack, acceptFile settings documents u = .ok (documents ++ [d], ack) ∧
        existing settings documents u = none ∧ d.data = u.data ∧
          d.tenantId = u.tenantId ∧ u.keys = .ok d.visibilityKeys := by
  rw [acceptFile]
  cases isChecked : u.check settings with
  | error refusal => exact .inl ⟨refusal, rfl, fun isOk => by cases isOk⟩
  | ok _ =>
    cases isFound : existing settings documents u with
    | some found => exact .inr (.inl ⟨_, rfl, rfl, rfl⟩)
    | none =>
      rw [Upload.audience]
      cases isTeam : u.requireWorkspaceMember (u.requested ≠ .workspace) with
      | error refusal => exact .inl ⟨refusal, rfl, fun _ => rfl⟩
      | ok team =>
        cases isKeys : u.keys with
        | error refusal => exact .inl ⟨refusal, rfl, fun _ => rfl⟩
        | ok keys => exact .inr (.inr ⟨_, _, rfl, rfl, rfl, rfl, rfl⟩)

theorem step_reached_iff {settings : Settings} {state : State} {u : Upload}
    (reached : state.Reached) :
    (step settings state u).Reached ↔ Covered settings state u := by
  rw [step]
  rcases acceptFile_cases settings state.documents u with
    ⟨refusal, isRefused, notFound⟩ | ⟨ack, isOk, isChecked, isFound⟩ |
      ⟨d, ack, isOk, notFound, isData, isTenant, isKeys⟩
  · rw [isRefused]
    refine iff_of_true reached fun isChecked isFound => ?_
    rw [notFound isChecked] at isFound
    cases isFound
  · rw [isOk]
    constructor
    · intro isReached _ _
      exact (reaches_iff_carried _ u).mp (isReached u (by simp))
    · intro covered other member
      rcases mem_append.mp member with isEarlier | isNew
      · exact reached other isEarlier
      · rw [mem_singleton.mp isNew]
        exact (reaches_iff_carried _ u).mpr (covered isChecked isFound)
  · rw [isOk]
    refine iff_of_true (fun other member => ?_) fun _ isFound => ?_
    · refine (reaches_iff_carried _ other).mpr ?_
      rcases mem_append.mp member with isEarlier | isNew
      · have carried := (reaches_iff_carried _ other).mp (reached other isEarlier)
        exact carried.mono fun _ => mem_append_left [d]
      · rw [mem_singleton.mp isNew]
        intro keys isOwn key isKey
        rw [isKeys] at isOwn
        cases isOwn
        exact ⟨d, by simp, isData, isTenant, isKey⟩
    · rw [notFound] at isFound
      cases isFound

/-- All along a run every acknowledged upload reaches the audience it asked for just where no
upload was answered with a stored document whose bytes lack a key of that audience. -/
theorem uploads_reach_their_audience_iff (settings : Settings) (documents : List Document)
    (uploads : List Upload) :
    Admits (step settings) (Covered settings) ⟨documents, []⟩ uploads ↔
      ∀ first, first <+: uploads → (first.foldl (step settings) ⟨documents, []⟩).Reached :=
  admits_iff_along step_reached_iff fun u isAcknowledged => absurd isAcknowledged (by simp)

def plain : Settings where
  maxFileBytes := 8
  supported := fun mediaType => mediaType = "text/plain"
  contentHash := fun data => String.ofList (data.map fun byte => Char.ofNat byte.toNat)

def byAda (visibility : Visibility) : Upload where
  ctx :=
    { tenantId := ⟨"heron", by decide⟩, userId := some ⟨"lovelace", by decide⟩
      runHasAgent := MemoryExecutionContext.no_run }
  filename := "plan.txt"
  mediaType := "text/plain"
  data := [104, 105]
  visibility := some visibility
  canRead := fun documentId => documentId = "doc_1"
  documentId := "doc_1"

/-- What its owner kept private is not shared with the tenant by uploading it again. -/
theorem shared_copy_stays_private :
    ¬∀ (settings : Settings) (uploads : List Upload),
      (uploads.foldl (step settings) {}).Reached := by
  intro always
  have reaches := always plain [byAda .priv, byAda .tenant] (byAda .tenant) (by
    have isAcknowledged : ([byAda .priv, byAda .tenant].foldl (step plain) {}).acknowledged =
        [byAda .priv, byAda .tenant] := rfl
    rw [isAcknowledged]
    simp)
  obtain ⟨d, isStored, -, -, isOn⟩ :=
    (reaches_iff_carried _ _).mp reaches ["tenant:heron"] rfl "tenant:heron" (by simp)
  have isKeys : ([byAda .priv, byAda .tenant].foldl (step plain) {}).documents.map
      Document.visibilityKeys = [["principal:heron/user:lovelace"]] := by decide +kernel
  have isPrivate := List.mem_map_of_mem (f := Document.visibilityKeys) isStored
  rw [isKeys, List.mem_singleton] at isPrivate
  rw [isPrivate] at isOn
  revert isOn
  decide

end MemoryService.Ingestion.Uploads
