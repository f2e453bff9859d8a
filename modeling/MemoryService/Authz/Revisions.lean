import MemoryService.Authz.Isolation

/-!
# Revision counters

A bundle in the context cache is addressed by the counters its reader depends on.  A
write moves the counters of its audiences, read off the stored audience keys.  A counter
is a kind and an identifier inside a tenant.
-/

namespace MemoryService.Authz

open Domain Foundation

inductive RevisionKind where
  | tenant
  | user
  | thread
  | document
  | graph
  | agent
  | membership
  deriving DecidableEq

abbrev RevisionKey := RevisionKind × String

/-- `_SHARED_AUDIENCES`. -/
def sharedAudiences : List String :=
  ["tenant", "agroup", "run", "runup", "thread", "workspace"]

def principalRevision (principal : String) : RevisionKey :=
  let (kind, _, identifier) := partition ':' principal
  if kind = "user" ∧ identifier ≠ "" then (.user, identifier)
  else if kind = "agent" ∧ identifier ≠ "" then (.agent, lastPart '/' identifier)
  else (.tenant, "")

def audienceRevision (tenantId audience : String) : Option RevisionKey :=
  let (kind, _, value) := partition ':' audience
  if kind ∈ sharedAudiences then some (.tenant, "")
  else
    let (tenant, separator, identifier) := partition '/' value
    if kind = "user" then
      if tenant = tenantId ∧ separator = true ∧ identifier ≠ "" then some (.user, identifier)
      else none
    else if kind = "principal" then
      if tenant ≠ tenantId then none else some (principalRevision identifier)
    else none

def audienceRevisionKeys (tenantId : String) (visibilityKeys : List String) :
    List RevisionKey :=
  visibilityKeys.filterMap (audienceRevision tenantId)

/-- `ContextBuilder._revisions`: the counters a reader's bundles depend on. -/
def contextRevisions (ctx : MemoryExecutionContext) : List RevisionKey :=
  let orEmpty (name : Option Id) := (name.map Id.text).getD ""
  [(.tenant, ""), (.user, orEmpty ctx.userId), (.thread, orEmpty ctx.threadId),
    (.agent, orEmpty ctx.agentId), (.graph, ""), (.membership, ""),
    (.membership, orEmpty ctx.userId), (.membership, orEmpty ctx.agentId)]

section

variable {provider : Provider} {ctx : MemoryExecutionContext} {spec : VisibilitySpecification}

theorem partition_value (tenant : Id) (name : String) :
    partition '/' (tenant.text ++ ("/" ++ name)) = (tenant.text, true, name) := by
  have slash : String.singleton '/' = "/" := by decide
  rw [← slash]
  exact partition_append tenant.slash_free

theorem principalRevision_eq (principal : Principal) :
    principalRevision principal.text =
      match principal with
      | .agentFor _ acting => (.agent, acting.text)
      | .agent acting => (.agent, acting.text)
      | .user acting => (.user, acting.text)
      | .anonymous => (.tenant, "") := by
  have slash : String.singleton '/' = "/" := by decide
  rw [principalRevision, partition_principal]
  cases principal with
  | agentFor actedFor acting =>
    have lastPart : lastPart '/' (actedFor.text ++ ("/" ++ acting.text)) = acting.text := by
      rw [← slash]
      exact lastPart_append acting.slash_free
    simp [Principal.word, Principal.value, lastPart]
  | agent acting =>
    simp [Principal.word, Principal.value, lastPart_free acting.slash_free, acting.text_ne_empty]
  | user acting => simp [Principal.word, Principal.value, acting.text_ne_empty]
  | anonymous => simp [Principal.word]

theorem audienceRevision_of_reads {audience : Audience} {name : String}
    (reads : Reads provider ctx audience name) :
    ∃ key ∈ audienceRevision ctx.tenantId.text (audience.key ctx.tenantId.text name),
      key ∈ contextRevisions ctx := by
  have tenantSubscribed : ((.tenant, "") : RevisionKey) ∈ contextRevisions ctx := by
    simp [contextRevisions]
  rw [audienceRevision, partition_key]
  cases audience with
  | user =>
    obtain ⟨user, isUser, rfl⟩ := Option.map_eq_some_iff.mp reads
    refine ⟨(.user, user.text), ?_, ?_⟩
    · simp [Audience.word, sharedAudiences, partition_value, user.text_ne_empty]
    · simp [contextRevisions, isUser]
  | thread => exact ⟨_, rfl, tenantSubscribed⟩
  | workspace => exact ⟨_, rfl, tenantSubscribed⟩
  | agroup => exact ⟨_, rfl, tenantSubscribed⟩
  | run => exact ⟨_, rfl, tenantSubscribed⟩
  | runup => exact ⟨_, rfl, tenantSubscribed⟩
  | principal =>
    have isPrincipal : (Principal.of ctx).text = name := by
      rw [← principalId_eq]
      exact reads
    refine ⟨principalRevision name, ?_, ?_⟩
    · simp [Audience.word, sharedAudiences, partition_value]
    · rw [← isPrincipal, principalRevision_eq, Principal.of]
      cases agent : ctx.agentId <;> cases user : ctx.userId <;>
        simp [contextRevisions, agent, user]

theorem moved_of_allows {tenantId : String} {keys : List String}
    (resolved : visibility provider ctx = some spec)
    (allowed : spec.allows tenantId keys = true) :
    tenantId = ctx.tenantId.text ∧
      ∃ key ∈ audienceRevisionKeys tenantId keys, key ∈ contextRevisions ctx := by
  simp only [VisibilitySpecification.allows, spec_tenant resolved, Bool.and_eq_true,
    decide_eq_true_eq, List.any_eq_true] at allowed
  obtain ⟨sameTenant, audienceKey, member, read⟩ := allowed
  refine ⟨sameTenant, ?_⟩
  have moved : ∃ key ∈ audienceRevision ctx.tenantId.text audienceKey,
      key ∈ contextRevisions ctx := by
    rcases read_cases resolved read with isTenant | ⟨audience, name, isKey, reads⟩
    · refine ⟨(.tenant, ""), ?_, by simp [contextRevisions]⟩
      rw [isTenant, audienceRevision, partition_tenantKey]
      simp [sharedAudiences]
    · rw [isKey]
      exact audienceRevision_of_reads reads
  obtain ⟨key, isRevision, subscribed⟩ := moved
  refine ⟨key, ?_, subscribed⟩
  rw [sameTenant]
  exact List.mem_filterMap.mpr ⟨audienceKey, member, isRevision⟩

/-- A reader whose audiences meet the stored keys of an object depends on a counter that a
change of the object's audiences moves. -/
theorem dependencies_cover_audiences {tenantId ownerPrincipal : String}
    {level : Visibility} {scope : Option Scope} {anchors : Anchors} {keys : List String}
    (_stored : readableBy tenantId level ownerPrincipal scope anchors = .ok keys)
    (resolved : visibility provider ctx = some spec)
    (allowed : spec.allows tenantId keys = true) :
    ∃ key ∈ audienceRevisionKeys tenantId keys, key ∈ contextRevisions ctx :=
  (moved_of_allows resolved allowed).2

/-- A user's agent reads what the user wrote for the user. -/
theorem agent_covered :
    ∃ key ∈ audienceRevisionKeys "acme" ["user:acme/ana", "principal:acme/user:ana"],
      key ∈ contextRevisions
        { tenantId := ⟨"acme", by decide⟩
          userId := some ⟨"ana", by decide⟩
          agentId := some ⟨"planner", by decide⟩ } := by
  apply @dependencies_cover_audiences
    { listObjects := fun _ _ objectType => [objectType ++ ":acme/one"] } _
    { tenantId := "acme"
      keys :=
        ["tenant:acme", "principal:acme/agent:ana/planner", "user:acme/ana",
          "thread:acme/one", "workspace:acme/one"]
      truncated := false }
    "acme" "user:ana" .user none { userId := some "ana" }
  · rfl
  · decide +kernel
  · decide +kernel

end

/-!
## The counters a memory write moves

A write moves the counters of the memories it wrote, read off each memory's scope and off the
audience keys it carries; one that was just built carries none yet.
-/

/-- The part of a memory that its counters are read off. -/
structure RevisedMemory where
  tenantId : String
  scope : Scope
  /-- what its system metadata says of the row's audience keys -/
  visibilityKeys : List String := []

def scopeRevisions (scope : Scope) : List RevisionKey :=
  [(RevisionKind.user, scope.userId), (.thread, scope.threadId), (.agent, scope.agentId)]
    |>.filterMap fun (kind, name) =>
      if missing name then none else name.map fun text => (kind, text)

def memoryRevisionKeys (memory : RevisedMemory) : List RevisionKey :=
  let keys :=
    scopeRevisions memory.scope ++ audienceRevisionKeys memory.tenantId memory.visibilityKeys
  if keys = [] then [(.tenant, "")] else keys

def touchedRevisions (memories : List RevisedMemory) : List (String × RevisionKey) :=
  memories.flatMap fun memory => (memoryRevisionKeys memory).map fun key => (memory.tenantId, key)

/-- The columns of a memory row that this depends on. -/
structure AudienceRow where
  tenantId : String
  scope : Scope
  visibilityKeys : List String
  /-- it has a derived slot or recorded source revisions -/
  derived : Bool := false
  temporalStatus : TemporalStatus := .current
  expiresAt : Option Instant := none

/-- `_to_domain`. -/
def AudienceRow.toDomain (row : AudienceRow) : RevisedMemory where
  tenantId := row.tenantId
  scope := row.scope
  visibilityKeys := row.visibilityKeys

/-- `_invalid_derived`: a derived memory that was retracted or has lapsed. -/
def AudienceRow.invalidDerived (now : Instant) (row : AudienceRow) : Bool :=
  row.derived ∧ (row.temporalStatus = .retracted ∨
    row.expiresAt.any fun expiresAt => expiresAt ≤ now)

variable (memoryType : MemoryType)

/-- A user's `USER` and `PREFERENCE` are kept as `AGENT` where an agent wrote them. -/
def authoredType (byAgent : Bool) : MemoryType :=
  if byAgent ∧ (memoryType = .user ∨ memoryType = .preference) then .agent
  else memoryType

variable (ctx : MemoryExecutionContext)

def defaultVisibility (userStatement : Bool) : Visibility :=
  if memoryType = .user ∨ memoryType = .preference then
    if ctx.userId.isSome then .user else .priv
  else if memoryType = .agent ∨ memoryType = .tool ∨ memoryType = .working then
    if ctx.agentRunId.isSome then .run else .priv
  else if memoryType = .shared then
    if ctx.agentGroupId.isSome then .agentGroup
    else if ctx.threadId.isSome then .thread else .tenant
  else if userStatement ∧ ctx.userId.isSome then .user
  else if ctx.isAgent ∧ (memoryType = .task ∨ memoryType = .episodic) then .priv
  else if ctx.threadId.isSome then .thread
  else if ctx.userId.isSome then .user else .tenant

variable (visibility : Visibility)

/-- The level `scope_for` anchors a memory at. -/
def scopeLevel (ctx : MemoryExecutionContext) : ScopeLevel :=
  if (memoryType = .agent ∨ memoryType = .tool ∨ memoryType = .working) ∧
      ctx.agentId.isSome then .agent
  else if (memoryType = .user ∨ memoryType = .preference) ∧ ctx.userId.isSome then .user
  else if visibility = .agentGroup ∧ ctx.agentGroupId.isSome then .agentGroup
  else if visibility = .thread ∧ ctx.threadId.isSome then .thread
  else if visibility = .workspace ∧ ctx.workspaceId.isSome then .workspace
  else if visibility = .tenant then .tenant
  else if ctx.agentId.isSome ∧ visibility = .priv then .agent
  else if ctx.threadId.isSome then .thread
  else if ctx.userId.isSome then .user else .tenant

def NamedAt : ScopeLevel → Prop
  | .agent => ctx.agentId.isSome = true
  | .agentGroup => ctx.agentGroupId.isSome = true
  | .thread => ctx.threadId.isSome = true
  | .user => ctx.userId.isSome = true
  | .workspace => ctx.workspaceId.isSome = true
  | .tenant => True

theorem scopeLevel_named (ctx : MemoryExecutionContext) :
    NamedAt ctx (scopeLevel memoryType visibility ctx) := by
  rw [scopeLevel]
  split_ifs with writesAgent ofUser ofGroup ofThread ofWorkspace ofTenant notes inThread byUser
  · exact writesAgent.2
  · exact ofUser.2
  · exact ofGroup.2
  · exact ofThread.2
  · exact ofWorkspace.2
  · exact trivial
  · exact notes.1
  · exact inThread
  · exact byUser
  · exact trivial

def scopeAt (level : ScopeLevel) (named : NamedAt ctx level) :
    Scope where
  level := level
  tenantId := ctx.tenantId.text
  workspaceId := ctx.workspaceId.map Id.text
  userId := if level = .user ∨ level = .agent then ctx.userId.map Id.text else none
  threadId := if level = .thread ∨ level = .agent then ctx.threadId.map Id.text else none
  agentId := if level = .agent then ctx.agentId.map Id.text else none
  agentGroupId := if level = .agentGroup then ctx.agentGroupId.map Id.text else none
  levelHasAnchor := by
    cases level
    case tenant => exact trivial
    all_goals simpa [NamedAt] using named

def scopeFor (ctx : MemoryExecutionContext) : Scope :=
  scopeAt ctx (scopeLevel memoryType visibility ctx)
    (scopeLevel_named memoryType visibility ctx)

structure Statement where
  memoryType : MemoryType
  visibility : Option Visibility := none
  workspaceGuard : Except String Unit := .ok ()
  /-- the same words are stored in the scope already -/
  deduplicated : Bool := false

variable (statement : Statement)

def Statement.keptType (ctx : MemoryExecutionContext) : MemoryType :=
  authoredType statement.memoryType ctx.isAgent

def Statement.keptVisibility (ctx : MemoryExecutionContext) :
    Visibility :=
  statement.visibility.getD
    (defaultVisibility (statement.keptType ctx) ctx (!ctx.isAgent))

def Statement.keptScope (ctx : MemoryExecutionContext) : Scope :=
  scopeFor (statement.keptType ctx) (statement.keptVisibility ctx) ctx

structure Written where
  rows : List AudienceRow
  moved : List (String × RevisionKey)

def guardWorkspaceVisibility : Except String Unit :=
  if statement.visibility = some .workspace then statement.workspaceGuard else .ok ()

def remember : Except String Written := do
  validateRequestedVisibility ctx statement.visibility
  guardWorkspaceVisibility statement
  if statement.deduplicated then return { rows := [], moved := [] }
  let memory : RevisedMemory := { tenantId := ctx.tenantId.text, scope := statement.keptScope ctx }
  let keys ← keysFor memory.scope (statement.keptVisibility ctx) ctx
  return {
    rows := [{ tenantId := memory.tenantId, scope := memory.scope, visibilityKeys := keys }]
    moved := touchedRevisions [memory] }

/-- A transaction that writes memories. -/
inductive Write where
  | remember (ctx : MemoryExecutionContext) (statement : Statement)
  | supersede (old : AudienceRow) (twins invalidated : List AudienceRow)
  | forget (memory : AudienceRow) (twins restored invalidated : List AudienceRow)
  | process (affected invalidated : List AudienceRow) (now : Instant)

def movedOf (rows : List AudienceRow) : List (String × RevisionKey) :=
  touchedRevisions (rows.map AudienceRow.toDomain)

def Write.apply : Write → Except String Written
  | .remember ctx statement => Authz.remember ctx statement
  | .supersede old twins invalidated =>
    let new : RevisedMemory := { tenantId := old.tenantId, scope := old.scope }
    let row : AudienceRow :=
      { tenantId := new.tenantId
        scope := new.scope
        visibilityKeys := old.visibilityKeys }
    .ok
      { rows := row :: old :: twins ++ invalidated
        moved := touchedRevisions [new] ++ movedOf (old :: twins) ++ movedOf invalidated }
  | .forget memory twins restored invalidated =>
    .ok
      { rows := memory :: twins ++ restored ++ invalidated
        moved := movedOf (memory :: twins ++ restored) ++ movedOf invalidated }
  | .process affected invalidated now =>
    .ok
      { rows := affected ++ invalidated
        moved :=
          -- `get_many` leaves a derived memory that is not valid out
          movedOf (affected.filter fun row => !row.invalidDerived now) ++ movedOf invalidated }

end MemoryService.Authz
