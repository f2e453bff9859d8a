import MemoryService.Authz.Revisions

/-!
# A visibility that was accepted can be stored

A request is checked when it is submitted; its memories are built later, under a context that is
read back from the observation's row.
-/

namespace MemoryService.Authz

open Domain Foundation Option List

structure RequestContext extends MemoryExecutionContext where
  sessionId : Option Id := none
  turnId : Option Id := none
  workId : Option Id := none
  taskId : Option Id := none
  traceId : Id
  sessionHasThread : sessionId.isSome = true → threadId.isSome = true
  turnHasSession : turnId.isSome = true → sessionId.isSome = true

/-- The columns that `PROVENANCE_FIELDS` names. -/
structure Provenance where
  tenantId : String
  workspaceId : Option String
  userId : Option String
  threadId : Option String
  sessionId : Option String
  turnId : Option String
  workId : Option String
  taskId : Option String
  agentId : Option String
  agentGroupId : Option String
  agentRunId : Option String
  parentAgentRunId : Option String
  principalId : String
  traceId : Option String

def RequestContext.provenance (ctx : RequestContext) : Provenance where
  tenantId := ctx.tenantId.text
  workspaceId := ctx.workspaceId.map Id.text
  userId := ctx.userId.map Id.text
  threadId := ctx.threadId.map Id.text
  sessionId := ctx.sessionId.map Id.text
  turnId := ctx.turnId.map Id.text
  workId := ctx.workId.map Id.text
  taskId := ctx.taskId.map Id.text
  agentId := ctx.agentId.map Id.text
  agentGroupId := ctx.agentGroupId.map Id.text
  agentRunId := ctx.agentRunId.map Id.text
  parentAgentRunId := ctx.parentAgentRunId.map Id.text
  principalId := ctx.principalId
  traceId := some ctx.traceId.text

/-- `_validate_optional_id` of a name that is there. -/
def validId (value : String) : Except String Id :=
  if valid : isValidId value = true then .ok ⟨value, valid⟩
  else .error ("invalid identifier: '" ++ value ++ "'")

def validOptionalId : Option String → Except String (Option Id)
  | none => .ok none
  | some value => (validId value).map some

/-- `context_from_observation`, with what the context checks of itself. -/
def contextFromObservation (o : Provenance) : Except String RequestContext := do
  let tenantId ← validId o.tenantId
  let workspaceId ← validOptionalId o.workspaceId
  let userId ← validOptionalId o.userId
  let threadId ← validOptionalId o.threadId
  let sessionId ← validOptionalId o.sessionId
  let turnId ← validOptionalId o.turnId
  let workId ← validOptionalId o.workId
  let taskId ← validOptionalId o.taskId
  let agentId ← validOptionalId o.agentId
  let agentGroupId ← validOptionalId o.agentGroupId
  let agentRunId ← validOptionalId o.agentRunId
  let parentAgentRunId ← validOptionalId o.parentAgentRunId
  let traceId ← validId (o.traceId.getD "")
  if run : agentRunId.isSome = true → agentId.isSome = true then
    if session : sessionId.isSome = true → threadId.isSome = true then
      if turn : turnId.isSome = true → sessionId.isSome = true then
        .ok
          { tenantId, workspaceId, userId, threadId, sessionId, turnId, workId, taskId
            agentId, agentGroupId, agentRunId, parentAgentRunId, traceId
            runHasAgent := run
            sessionHasThread := session
            turnHasSession := turn }
      else .error "turn_id requires session_id"
    else .error "session_id requires thread_id"
  else .error "agent_run_id requires agent_id"

theorem validId_text (ident : Id) : validId ident.text = .ok ident := by
  rw [validId, dif_pos ident.valid]

theorem validOptionalId_text (name : Option Id) :
    validOptionalId (name.map Id.text) = .ok name := by
  cases name with
  | none => rfl
  | some ident =>
    rw [map_some, validOptionalId, validId_text]
    rfl

theorem context_from_provenance (ctx : RequestContext) :
    contextFromObservation ctx.provenance = .ok ctx := by
  simp only [contextFromObservation, RequestContext.provenance, getD_some, validId_text,
    validOptionalId_text]
  simp only [bind, Except.bind, dif_pos ctx.runHasAgent, dif_pos ctx.sessionHasThread,
    dif_pos ctx.turnHasSession]

def referredCategory : String := "referred_turn"

structure ProcessingHints where
  memoryType : Option MemoryType := none
  customType : Option String := none
  visibility : Option Visibility := none

structure Candidate where
  memoryType : MemoryType
  customType : Option String := none
  visibility : Option Visibility := none
  category : String := ""

/-- `_apply_hints`. -/
def applyHints (hints : ProcessingHints) (agentAuthored : Bool) (c : Candidate) : Candidate :=
  let kept := authoredType c.memoryType agentAuthored
  { c with
    memoryType :=
      if missing hints.customType ∧ kept ≠ c.memoryType then kept
      else hints.memoryType.getD c.memoryType
    customType := orElse hints.customType c.customType
    visibility := hints.visibility.or c.visibility }

/-- What a memory is stored under. -/
structure Placed where
  scope : Scope
  visibility : Visibility
  visibilityKeys : List String

def place (ctx : MemoryExecutionContext) (c : Candidate) : Except String Placed :=
  let visibility := c.visibility.getD .priv
  let scope := scopeFor c.memoryType visibility ctx
  (keysFor scope visibility ctx).map fun keys => ⟨scope, visibility, keys⟩

def referredTurn (refers : Bool) (candidates : List Candidate) : List Candidate :=
  if refers then
    (candidates.find? fun c => c.category = "verbatim_turn").toList.map fun said =>
      { said with memoryType := .observation, category := referredCategory }
  else []

section Process

variable (extract : RequestContext → List Candidate)
  (classify : RequestContext → Candidate → Candidate) (hints : ProcessingHints)
  (agentAuthored refers : Bool)

/-- The candidates of an observation: what is extracted, with the hints, and the turn referred
to. -/
def gathered (ctx : RequestContext) : List Candidate :=
  let hinted := applyHints hints agentAuthored
  let candidates := (extract ctx).map fun c => hinted (classify ctx (hinted c))
  candidates ++ referredTurn refers candidates

/-- The job of an observation, as far as each memory's scope and keys. -/
def process (o : Provenance) : Except String (List Placed) := do
  let ctx ← contextFromObservation o
  (gathered extract classify hints agentAuthored refers ctx).mapM
    (place ctx.toMemoryExecutionContext)

end Process

def checkedAnchors (ctx : MemoryExecutionContext) : Anchors :=
  { anchorsOf ctx with workspaceId := ctx.workspaceId.map Id.text }

theorem orElse_same (name : Option Id) (kept : Prop) [Decidable kept] :
    orElse (name.map Id.text) (if kept then name.map Id.text else none) = name.map Id.text := by
  cases name with
  | none => split <;> rfl
  | some ident =>
    rw [map_some, orElse]
    exact ident.text_ne_empty

theorem anchors_within_scope (memoryType : MemoryType) (visibility : Visibility)
    (ctx : MemoryExecutionContext) :
    (anchorsOf ctx).within (some (scopeFor memoryType visibility ctx)) = checkedAnchors ctx := by
  simp only [Anchors.within, anchorsOf, checkedAnchors, scopeFor, scopeAt, orElse_same,
    Anchors.mk.injEq, true_and, and_true]
  rfl

theorem keysFor_scope (memoryType : MemoryType) (visibility : Visibility)
    (ctx : MemoryExecutionContext) :
    keysFor (scopeFor memoryType visibility ctx) visibility ctx =
      readableBy ctx.tenantId.text visibility ctx.principalId none (checkedAnchors ctx) := by
  have sameAnchors := anchors_within_scope memoryType visibility ctx
  simp only [keysFor, readableBy, visibilityKeys, sameAnchors]
  rfl

def AtLevel (ctx : MemoryExecutionContext) (visibility : Visibility) (keys : List String) :
    Prop :=
  (∃ key ∈ keys, Addressed ctx.tenantId.text ctx.principalId (checkedAnchors ctx) visibility
    key) ∧
    ∀ key, key ∈ keys ↔
      Addressed ctx.tenantId.text ctx.principalId (checkedAnchors ctx) visibility key ∨
        noOwnerKey visibility = false ∧
          key = Audience.principal.key ctx.tenantId.text ctx.principalId

variable {visibility : Visibility} {ctx : MemoryExecutionContext}

theorem addressed_of_named {keys : List String}
    (named : visibilityKeys ctx.tenantId.text visibility ctx.principalId none
      (checkedAnchors ctx) = .ok keys) : ∃ key, key ∈ keys := by
  have keyOf_nonempty : ∀ {audience : Audience} {name : Option String} {refusal : String}
      {named : List String}, keyOf audience ctx.tenantId.text name refusal = .ok named →
        ∃ key, key ∈ named := by
    intro audience name refusal named isNamed
    rw [keyOf] at isNamed
    split at isNamed
    · cases isNamed
    · rename_i present
      cases isNamed
      cases name with
      | none => exact absurd rfl present
      | some text => exact ⟨_, mem_singleton_self _⟩
  cases visibility with
  | priv =>
    cases named
    exact ⟨_, mem_singleton_self _⟩
  | user => exact keyOf_nonempty named
  | agentGroup => exact keyOf_nonempty named
  | run =>
    obtain ⟨own, isOwn, rfl⟩ := map_ok named
    obtain ⟨key, member⟩ := keyOf_nonempty isOwn
    refine ⟨key, ?_⟩
    split
    · exact member
    · exact mem_append_left _ member
  | thread => exact keyOf_nonempty named
  | workspace => exact keyOf_nonempty named
  | tenant =>
    cases named
    exact ⟨_, mem_singleton_self _⟩

theorem atLevel_of_accepted (accepted : validateRequestedVisibility ctx (some visibility) = .ok ())
    (memoryType : MemoryType) :
    ∃ keys, keysFor (scopeFor memoryType visibility ctx) visibility ctx = .ok keys ∧
      AtLevel ctx visibility keys := by
  obtain ⟨named, isNamed, -⟩ := map_ok accepted
  have isStored : ∃ keys, readableBy ctx.tenantId.text visibility ctx.principalId none
      (checkedAnchors ctx) = .ok keys := by
    have checked : visibilityKeys ctx.tenantId.text visibility ctx.principalId none
        (checkedAnchors ctx) = .ok named := isNamed
    rw [readableBy, checked]
    exact ⟨_, rfl⟩
  obtain ⟨keys, stored⟩ := isStored
  refine ⟨keys, (keysFor_scope memoryType visibility ctx).trans stored, ?_, ?_⟩
  · obtain ⟨key, member⟩ := addressed_of_named isNamed
    have addressed := (mem_visibilityKeys isNamed key).mp member
    exact ⟨key, (mem_readableBy stored key).mpr (.inl addressed), addressed⟩
  · exact mem_readableBy stored

/-- A memory made of a candidate: in the candidate's scope, with exactly the keys of the level
asked for. -/
structure StoredAs (ctx : MemoryExecutionContext) (visibility : Visibility) (c : Candidate)
    (placed : Placed) : Prop where
  inScope : placed.scope = scopeFor c.memoryType visibility ctx
  asked : placed.visibility = visibility
  keyed : keysFor placed.scope visibility ctx = .ok placed.visibilityKeys
  atLevel : AtLevel ctx visibility placed.visibilityKeys

theorem place_of_accepted
    (accepted : validateRequestedVisibility ctx (some visibility) = .ok ()) {c : Candidate}
    (asked : c.visibility = some visibility) :
    ∃ placed, place ctx c = .ok placed ∧ StoredAs ctx visibility c placed := by
  obtain ⟨keys, stored, atLevel⟩ := atLevel_of_accepted accepted c.memoryType
  refine ⟨⟨scopeFor c.memoryType visibility ctx, visibility, keys⟩, ?_, rfl, rfl, stored, atLevel⟩
  rw [place, asked, getD_some, stored]
  rfl

theorem asked_of_referred {refers : Bool}
    {candidates : List Candidate} (asked : ∀ c ∈ candidates, c.visibility = some visibility) :
    ∀ c ∈ referredTurn refers candidates, c.visibility = some visibility := by
  intro c member
  rw [referredTurn] at member
  split at member
  · obtain ⟨said, isTurn, rfl⟩ := List.mem_map.mp member
    exact asked said (mem_of_find?_eq_some (mem_toList.mp isTurn))
  · cases member

theorem asked_of_gathered {hints : ProcessingHints} (requested : hints.visibility = some visibility)
    (extract : RequestContext → List Candidate)
    (classify : RequestContext → Candidate → Candidate) (agentAuthored refers : Bool)
    (ctx : RequestContext) :
    ∀ c ∈ gathered extract classify hints agentAuthored refers ctx,
      c.visibility = some visibility := by
  have asked : ∀ c ∈ (extract ctx).map fun c =>
      applyHints hints agentAuthored (classify ctx (applyHints hints agentAuthored c)),
      c.visibility = some visibility := by
    intro c member
    obtain ⟨read, -, rfl⟩ := List.mem_map.mp member
    change hints.visibility.or _ = some visibility
    rw [requested, some_or]
  intro c member
  rcases mem_append.mp member with isRead | isReferred
  · exact asked c isRead
  · exact asked_of_referred asked c isReferred

/-- A request whose visibility is accepted is read back from its observation as it was, and each
candidate of the observation, in their order, is stored with keys of exactly that level. -/
theorem accepted_is_stored {ctx : RequestContext} {hints : ProcessingHints}
    {visibility : Visibility} (requested : hints.visibility = some visibility)
    (accepted : validateRequestedVisibility ctx.toMemoryExecutionContext hints.visibility = .ok ())
    (extract : RequestContext → List Candidate)
    (classify : RequestContext → Candidate → Candidate)
    (agentAuthored refers : Bool) :
    contextFromObservation ctx.provenance = .ok ctx ∧
      ∃ stored, process extract classify hints agentAuthored refers ctx.provenance = .ok stored ∧
        List.Forall₂ (StoredAs ctx.toMemoryExecutionContext visibility)
          (gathered extract classify hints agentAuthored refers ctx) stored := by
  rw [requested] at accepted
  have run : process extract classify hints agentAuthored refers ctx.provenance =
      (gathered extract classify hints agentAuthored refers ctx).mapM
        (place ctx.toMemoryExecutionContext) := by
    rw [process, context_from_provenance]
    rfl
  rw [run]
  have asked := asked_of_gathered requested extract classify agentAuthored refers ctx
  exact ⟨context_from_provenance ctx,
    mapM_ok_forall₂ fun c member => place_of_accepted accepted (asked c member)⟩

theorem noted_runHasAgent : (some (⟨"r9", by decide⟩ : Id)).isSome = true →
    (some (⟨"scribe", by decide⟩ : Id)).isSome = true := fun _ => rfl

def noting : RequestContext where
  tenantId := ⟨"initech", by decide⟩
  agentId := some ⟨"scribe", by decide⟩
  agentRunId := some ⟨"r9", by decide⟩
  parentAgentRunId := some ⟨"r8", by decide⟩
  runHasAgent := noted_runHasAgent
  sessionId := none
  turnId := none
  traceId := ⟨"req_1", by decide⟩
  sessionHasThread present := absurd present Bool.false_ne_true
  turnHasSession present := absurd present Bool.false_ne_true

theorem noted_is_stored :
    validateRequestedVisibility noting.toMemoryExecutionContext (some .run) = .ok () ∧
      contextFromObservation noting.provenance = .ok noting ∧
      ∃ stored, process (fun _ => [{ memoryType := .preference }]) (fun _ c => c)
          { visibility := some .run } true false noting.provenance = .ok stored ∧
        List.Forall₂ (StoredAs noting.toMemoryExecutionContext .run)
          (gathered (fun _ => [{ memoryType := .preference }]) (fun _ c => c)
            { visibility := some .run } true false noting) stored := by
  have accepted :
      validateRequestedVisibility noting.toMemoryExecutionContext (some .run) = .ok () := rfl
  exact ⟨accepted, @accepted_is_stored noting { visibility := some .run } .run rfl accepted
    (fun _ => [{ memoryType := .preference }]) (fun _ c => c) true false⟩

end MemoryService.Authz
