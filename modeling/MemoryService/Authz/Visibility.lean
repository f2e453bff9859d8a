import MemoryService.Domain.Context
import Mathlib.Data.List.Sort

/-!
# Audiences

A stored object carries the keys of the audiences that may read it.
-/

namespace MemoryService.Authz

open Domain Foundation

/-- An audience inside a tenant, by the word its key starts with. -/
inductive Audience where
  | user
  | thread
  | workspace
  | agroup
  | run
  | runup
  | principal
  deriving DecidableEq

def Audience.word : Audience → String
  | .user => "user"
  | .thread => "thread"
  | .workspace => "workspace"
  | .agroup => "agroup"
  | .run => "run"
  | .runup => "runup"
  | .principal => "principal"

/-- `<audience>:<tenant>/<identifier>`. -/
def Audience.key (audience : Audience) (tenantId identifier : String) : String :=
  audience.word ++ (":" ++ (tenantId ++ ("/" ++ identifier)))

variable (tenantId : String)

/-- `tenant:<tenant>`. -/
def tenantKey : String :=
  "tenant" ++ (":" ++ tenantId)

/-- The names a write was made under. -/
structure Anchors where
  userId : Option String := none
  threadId : Option String := none
  workspaceId : Option String := none
  agentGroupId : Option String := none
  agentRunId : Option String := none
  parentAgentRunId : Option String := none

/-- Python's `first or second` of two optional texts: an empty text counts for none. -/
def orElse (first second : Option String) : Option String :=
  match first with
  | some "" => second
  | none => second
  | some text => some text

def missing (name : Option String) : Bool := name = none ∨ name = some ""

def Anchors.within (anchors : Anchors) (scope : Option Scope) : Anchors :=
  match scope with
  | none => anchors
  | some scope =>
    { anchors with
      userId := orElse anchors.userId scope.userId
      threadId := orElse anchors.threadId scope.threadId
      workspaceId := orElse anchors.workspaceId scope.workspaceId
      agentGroupId := orElse anchors.agentGroupId scope.agentGroupId }

def keyOf (audience : Audience) (tenantId : String) (name : Option String)
    (refusal : String) : Except String (List String) :=
  if missing name then .error refusal
  else .ok (name.toList.map (audience.key tenantId))

def visibilityKeys (visibility : Visibility)
    (ownerPrincipal : String) (scope : Option Scope) (anchors : Anchors) :
    Except String (List String) :=
  let anchors := anchors.within scope
  match visibility with
  | .priv => .ok [Audience.principal.key tenantId ownerPrincipal]
  | .user => keyOf .user tenantId anchors.userId "USER visibility requires user_id"
  | .agentGroup =>
    keyOf .agroup tenantId anchors.agentGroupId
      "AGENT_GROUP visibility requires agent_group_id"
  | .run =>
    (keyOf .run tenantId anchors.agentRunId "RUN visibility requires agent_run_id").map
      fun keys =>
        if missing anchors.parentAgentRunId then keys
        else keys ++ anchors.parentAgentRunId.toList.map (Audience.runup.key tenantId)
  | .thread => keyOf .thread tenantId anchors.threadId "THREAD visibility requires thread_id"
  | .workspace =>
    keyOf .workspace tenantId anchors.workspaceId
      "WORKSPACE visibility requires workspace_id"
  | .tenant => .ok [tenantKey tenantId]

/-- `_NO_OWNER_KEY`: the visibilities that do not carry the author's own key. -/
def noOwnerKey : Visibility → Bool
  | .priv | .run | .thread => true
  | _ => false

def readableBy (visibility : Visibility) (ownerPrincipal : String)
    (scope : Option Scope) (anchors : Anchors) : Except String (List String) :=
  (visibilityKeys tenantId visibility ownerPrincipal scope anchors).map fun keys =>
    let owner := Audience.principal.key tenantId ownerPrincipal
    if noOwnerKey visibility then keys
    else if owner ∈ keys then keys else keys ++ [owner]

/-- The names of a request that `keys_for` passes on: all but the workspace. -/
def anchorsOf (ctx : MemoryExecutionContext) : Anchors where
  userId := ctx.userId.map Id.text
  threadId := ctx.threadId.map Id.text
  agentGroupId := ctx.agentGroupId.map Id.text
  agentRunId := ctx.agentRunId.map Id.text
  parentAgentRunId := ctx.parentAgentRunId.map Id.text

def keysFor (scope : Scope) (visibility : Visibility) (ctx : MemoryExecutionContext) :
    Except String (List String) :=
  readableBy ctx.tenantId.text visibility ctx.principalId (some scope) (anchorsOf ctx)

def validateRequestedVisibility (ctx : MemoryExecutionContext)
    (requested : Option Visibility) : Except String Unit :=
  match requested with
  | none => .ok ()
  | some visibility =>
    (visibilityKeys ctx.tenantId.text visibility ctx.principalId none
      { anchorsOf ctx with workspaceId := ctx.workspaceId.map Id.text }).map fun _ => ()

structure AuthorizedScope where
  tenantId : String
  principal : String
  threadIds : List String
  documentIds : List String
  agentIds : List String
  runIds : List String
  agentGroupIds : List String
  workspaceIds : List String
  userId : Option String
  truncated : Bool

structure Provider where
  listObjects : (user relation objectType : String) → List String
  maxListedObjects : Nat := 2000

/-- `o.split(":", 1)[1]`, which raises where there is no colon. -/
def objectName (object : String) : Option String :=
  let (_, found, name) := partition ':' object
  if found then some name else none

variable (provider : Provider)

def Provider.list (user relation objectType : String) :
    Option (List String × Bool) :=
  let objects := provider.listObjects user relation objectType
  ((objects.take provider.maxListedObjects).mapM objectName).map fun names =>
    (names, provider.maxListedObjects < objects.length)

variable (ctx : MemoryExecutionContext)

def subjects : List String :=
  ctx.principalId ::
    if ctx.isAgent then ctx.userId.toList.map fun user => "user:" ++ user.text else []

def Provider.listAll (relation objectType : String) : Option (List String × Bool) :=
  ((subjects ctx).mapM fun subject => provider.list subject relation objectType).map
    fun listings =>
      ((listings.flatMap Prod.fst).foldl
        (fun sink name => if name ∈ sink then sink else sink ++ [name]) [],
        listings.any Prod.snd)

def own (tenantId : String) (items : List String) : List String :=
  let start := (tenantId ++ "/").toList
  let names := items.filterMap fun item =>
    if start <+: item.toList then some (String.ofList (item.toList.drop start.length))
    else none
  names.insertionSort (· ≤ ·)

/-- `ScopeResolver.resolve`. -/
def resolve : Option AuthorizedScope := do
  let (threads, threadsOver) ← provider.listAll ctx "can_read" "thread"
  let (documents, documentsOver) ← provider.listAll ctx "can_read" "document"
  let (workspaces, workspacesOver) ← provider.listAll ctx "viewer" "workspace"
  some
    { tenantId := ctx.tenantId.text
      principal := ctx.principalId
      threadIds := own ctx.tenantId.text threads
      documentIds := own ctx.tenantId.text documents
      agentIds := ctx.agentId.toList.map Id.text
      runIds := (ctx.agentRunId.toList ++ ctx.parentAgentRunId.toList).map Id.text
      agentGroupIds := ctx.agentGroupId.toList.map Id.text
      workspaceIds := own ctx.tenantId.text workspaces
      userId := ctx.userId.map Id.text
      truncated := threadsOver || documentsOver || workspacesOver }

structure VisibilitySpecification where
  tenantId : String
  keys : List String
  truncated : Bool
  deriving DecidableEq

def narrowed (named : Option String) (granted : List String) : List String :=
  match named with
  | none => granted
  | some name => granted.filter (· = name)

/-- `VisibilitySpecification.from_scope`. -/
def fromScope (scope : AuthorizedScope)
    (currentThreadId currentAgentRunId currentWorkspaceId : Option String) :
    VisibilitySpecification :=
  let t := scope.tenantId
  let named (audience : Audience) (name : Option String) :=
    if missing name then [] else name.toList.map (audience.key t)
  { tenantId := t
    keys :=
      [tenantKey t, Audience.principal.key t scope.principal] ++
        named .user scope.userId ++
        (narrowed currentThreadId scope.threadIds).map (Audience.thread.key t) ++
        (narrowed currentWorkspaceId scope.workspaceIds).map (Audience.workspace.key t) ++
        scope.agentGroupIds.map (Audience.agroup.key t) ++
        scope.runIds.map (Audience.run.key t) ++
        named .runup currentAgentRunId
    truncated := scope.truncated }

def VisibilitySpecification.allows (spec : VisibilitySpecification)
    (objectTenantId : String) (objectKeys : List String) : Bool :=
  objectTenantId = spec.tenantId && objectKeys.any fun key => key ∈ spec.keys

/-- `AuthorizationService.visibility`. -/
def visibility :
    Option VisibilitySpecification :=
  (resolve provider ctx).map fun scope =>
    fromScope scope (ctx.threadId.map Id.text) (ctx.agentRunId.map Id.text)
      (ctx.workspaceId.map Id.text)

end MemoryService.Authz
