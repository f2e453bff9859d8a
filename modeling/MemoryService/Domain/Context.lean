import MemoryService.Domain.Memory
import MemoryService.Foundation.Partition

/-!
# The execution context

A request names its tenant and, where it has them, a workspace, a user, a thread, an agent, an
agent group and a run.
-/

namespace MemoryService.Domain

/-- `[A-Za-z0-9]`. -/
def isAsciiAlnum (c : Char) : Bool :=
  ('A' ≤ c && c ≤ 'Z') || ('a' ≤ c && c ≤ 'z') || ('0' ≤ c && c ≤ '9')

/-- `[A-Za-z0-9._:\-]`. -/
def isIdChar (c : Char) : Bool := isAsciiAlnum c || c = '.' || c = '_' || c = ':' || c = '-'

/-- `ID_PATTERN`. -/
def isValidId (value : String) : Bool :=
  match value.toList with
  | [] => false
  | first :: rest => isAsciiAlnum first && rest.all isIdChar && rest.length ≤ 199

/-- An identifier that passed the pattern. -/
structure Id where
  text : String
  valid : isValidId text = true
  deriving DecidableEq

namespace Id

theorem text_injective {first second : Id} (same : first.text = second.text) : first = second := by
  cases first
  cases second
  simpa using same

theorem isIdChar_of_mem {ident : Id} {c : Char} (member : c ∈ ident.text.toList) :
    isIdChar c = true := by
  have valid := ident.valid
  rw [isValidId] at valid
  split at valid
  case h_1 => cases valid
  case h_2 first rest chars =>
    rw [chars] at member
    simp only [Bool.and_eq_true] at valid
    rcases List.mem_cons.mp member with isFirst | isRest
    · rw [isFirst, isIdChar, valid.1.1]
      rfl
    · exact List.all_eq_true.mp valid.1.2 c isRest

variable (ident : Id)

theorem slash_free : '/' ∉ ident.text.toList := by
  intro member
  have allowed := isIdChar_of_mem member
  exact absurd allowed (by decide)

theorem comma_free : ',' ∉ ident.text.toList := by
  intro member
  have allowed := isIdChar_of_mem member
  exact absurd allowed (by decide)

theorem equals_free : '=' ∉ ident.text.toList := by
  intro member
  have allowed := isIdChar_of_mem member
  exact absurd allowed (by decide)

theorem text_ne_empty : ident.text ≠ "" := by
  intro empty
  have valid := ident.valid
  rw [empty] at valid
  exact absurd valid (by decide)

theorem orEmpty_injective {first second : Option Id}
    (same : (first.map Id.text).getD "" = (second.map Id.text).getD "") : first = second := by
  cases first with
  | none =>
    cases second with
    | none => rfl
    | some ident => exact absurd same.symm ident.text_ne_empty
  | some ident =>
    cases second with
    | none => exact absurd same ident.text_ne_empty
    | some other => exact congrArg some (Id.text_injective same)

end Id

structure MemoryExecutionContext where
  tenantId : Id
  workspaceId : Option Id := none
  userId : Option Id := none
  threadId : Option Id := none
  agentId : Option Id := none
  agentGroupId : Option Id := none
  agentRunId : Option Id := none
  parentAgentRunId : Option Id := none
  runHasAgent : agentRunId.isSome = true → agentId.isSome = true := by simp

namespace MemoryExecutionContext

theorem no_run : (none : Option Id).isSome = true → (none : Option Id).isSome = true := id

def principalId (ctx : MemoryExecutionContext) : String :=
  match ctx.agentId, ctx.userId with
  | some agent, some user => "agent:" ++ user.text ++ "/" ++ agent.text
  | some agent, none => "agent:" ++ agent.text
  | none, some user => "user:" ++ user.text
  | none, none => "service:anonymous"

def isAgent (ctx : MemoryExecutionContext) : Bool := ctx.agentId.isSome

end MemoryExecutionContext

inductive Visibility where
  /-- one principal -/
  | priv
  | user
  | agentGroup
  | run
  | thread
  | workspace
  | tenant
  deriving DecidableEq

inductive ScopeLevel where
  | agent
  | agentGroup
  | thread
  | user
  | workspace
  | tenant
  deriving DecidableEq

/-- Where a memory is anchored; a level has the identifier it is named after. -/
structure Scope where
  level : ScopeLevel
  tenantId : String
  workspaceId : Option String := none
  userId : Option String := none
  threadId : Option String := none
  agentId : Option String := none
  agentGroupId : Option String := none
  levelHasAnchor :
    match level with
    | .agent => agentId.isSome = true
    | .agentGroup => agentGroupId.isSome = true
    | .thread => threadId.isSome = true
    | .user => userId.isSome = true
    | .workspace => workspaceId.isSome = true
    | .tenant => True

/-!
## Tenants, keys and members

A key belongs to a tenant and may be bound to a workspace.  It is usable until it is revoked or
expires.  A principal has at most one role in a workspace.
-/

open Foundation

inductive TenantStatus where
  | active
  | suspended
  deriving DecidableEq

inductive KeyRole where
  | platform
  | admin
  | service
  deriving DecidableEq

structure ApiKey where
  keyId : String
  tenantId : String
  role : KeyRole := .service
  workspaceId : Option String := none
  secretHash : String
  createdAt : Nat := 0
  expiresAt : Option Nat := none
  revokedAt : Option Nat := none
  mayActAs : List String := ["*"]
  deriving DecidableEq

/-- Times are in microseconds. -/
def ApiKey.usableAt (key : ApiKey) (now : Nat) : Bool :=
  key.revokedAt.isNone && key.expiresAt.all fun expiresAt => now < expiresAt

/-- `MAX_KEYS_PER_TENANT`. -/
def maxKeysPerTenant : Nat := 1000

inductive MemberRole where
  | admin
  | member
  | viewer
  deriving DecidableEq

def MemberRole.text : MemberRole → String
  | .admin => "admin"
  | .member => "member"
  | .viewer => "viewer"

/-- `WORKSPACE_ROLES`. -/
def workspaceRoles : List MemberRole := [.admin, .member, .viewer]

/-- `parse_principal`, `none` where it raises. -/
def parsePrincipal (principal : String) : Option (String × String) :=
  let (kind, sep, ident) := partition ':' principal
  if sep = true ∧ (kind = "user" ∨ kind = "agent") ∧ isValidId ident = true then
    some (kind, ident)
  else none

theorem MemberRole.mem_workspaceRoles (role : MemberRole) : role ∈ workspaceRoles := by
  cases role <;> decide

theorem MemberRole.text_injective {first second : MemberRole}
    (same : first.text = second.text) : first = second := by
  cases first <;> cases second <;> first | rfl | exact absurd same (by decide)

theorem ApiKey.usableAt_eq_true {key : ApiKey} {now : Nat} :
    key.usableAt now = true ↔
      key.revokedAt = none ∧ ∀ expiresAt ∈ key.expiresAt, now < expiresAt := by
  rw [usableAt, Bool.and_eq_true, Option.isNone_iff_eq_none]
  refine and_congr_right fun _ => ?_
  cases key.expiresAt <;> simp

theorem ApiKey.not_usable_mono {key : ApiKey} {now later : Nat} (notBefore : now ≤ later)
    (notUsable : key.usableAt now = false) : key.usableAt later = false := by
  refine Bool.eq_false_iff.mpr fun usable => ?_
  obtain ⟨notRevoked, notExpired⟩ := usableAt_eq_true.mp usable
  refine absurd (usableAt_eq_true.mpr ⟨notRevoked, fun expiresAt isExpiry => ?_⟩)
    (Bool.eq_false_iff.mp notUsable)
  exact Nat.lt_of_le_of_lt notBefore (notExpired expiresAt isExpiry)

end MemoryService.Domain
