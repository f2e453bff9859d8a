import MemoryService.Domain.Context
import MemoryService.Foundation.Table
import MemoryService.Foundation.Transition
import Mathlib.Data.List.Sort

/-!
# The keys of a tenant

Keys are issued one at a time per tenant, up to a cap of live ones.
-/

namespace MemoryService.Tenancy

open Domain Foundation

def listedBefore (key other : ApiKey) : Prop :=
  key.createdAt < other.createdAt ∨ (key.createdAt = other.createdAt ∧ key.keyId ≤ other.keyId)

instance : DecidableRel listedBefore := fun key other => by
  unfold listedBefore
  infer_instance

/-- `api_keys.list`. -/
def listKeys (keys : List ApiKey) (tenantId : String) (limit : Nat := 100) : List ApiKey :=
  ((keys.filter fun key => key.tenantId = tenantId).insertionSort listedBefore).take limit

/-- `api_keys.count_live`. -/
def countLive (keys : List ApiKey) (tenantId : String) (now : Nat) : Nat :=
  keys.countP fun key => key.tenantId = tenantId && key.usableAt now

def day : Nat := 86400000000

inductive IssueStage where
  | asked
  /-- the tenant is active, and the workspace is there -/
  | checked
  | serialized
  | added
  | issued
  | refused

inductive DeleteStage where
  | asked
  | serialized
  | found
  | listed (at_ : Nat) (revoked : List String)
  | deleted (returned made : List String)
  | refused

inductive SuspendStage where
  | asked
  | invalidated (rows : Nat) (tombstoned : List String)
  | committed (rows : Nat) (tombstoned : List String)
  | suspended (live tombstoned : List String)

inductive Work where
  | issue (key : ApiKey) (expiresInDays : Option Nat) (stage : IssueStage)
  | delete (tenantId workspaceId : String) (stage : DeleteStage)
  | suspend (tenantId : String) (stage : SuspendStage)

structure State where
  keys : List ApiKey
  workspaces : List (String × String)
  deleted : List (String × String) := []
  statuses : String → TenantStatus := fun _ => .active
  now : Nat := 0
  units : List Work := []

/-- `serialize(f"tenant-keys:{tenant_id}")` is held. -/
def Work.issuesFor (tenantId : String) : Work → Bool
  | .issue key _ .serialized | .issue key _ .added => key.tenantId = tenantId
  | _ => false

/-- `serialize(f"workspace-members:{tenant_id}/{workspace_id}")` is held. -/
def Work.deletes (workspace : String × String) : Work → Bool
  | .delete tenantId workspaceId stage =>
    (tenantId, workspaceId) = workspace &&
      match stage with
      | .serialized | .found | .listed _ _ => true
      | _ => false
  | _ => false

def Work.running : Work → Bool
  | .issue _ _ .issued | .issue _ _ .refused => false
  | .issue _ _ _ => true
  | _ => false

variable (state : State)

/-- What an issue checks before it waits for its turn. -/
def State.issuable (key : ApiKey) : Bool :=
  key.role ≠ .platform && !(key.role = .admin && key.workspaceId.isSome) &&
    state.statuses key.tenantId = .active &&
    key.workspaceId.all fun workspaceId => state.workspaces.any ((key.tenantId, workspaceId) = ·)

def issuedKey (key : ApiKey) (expiresInDays : Option Nat) (now : Nat) : ApiKey :=
  { key with
    createdAt := now
    expiresAt := (expiresInDays.filter (0 < ·)).map fun days => now + days * day
    revokedAt := none }

def issueKey (key : ApiKey) (expiresInDays : Option Nat) :
    IssueStage → Option (State × Work)
  | .asked =>
    some (state, .issue key expiresInDays
      (if state.issuable key then .checked else .refused))
  | .checked =>
    if state.units.any (·.issuesFor key.tenantId) then none
    else some (state, .issue key expiresInDays .serialized)
  | .serialized =>
    if maxKeysPerTenant ≤ countLive state.keys key.tenantId state.now then
      some (state, .issue key expiresInDays .refused)
    else
      some (state, .issue (issuedKey key expiresInDays state.now) expiresInDays .added)
  | .added => some ({ state with keys := state.keys ++ [key] }, .issue key expiresInDays .issued)
  | .issued => none
  | .refused => none

variable (tenantId : String)

/-- `UPDATE … SET revoked_at WHERE … revoked_at IS NULL`, for these ids. -/
def revoked (ids : List String) (key : ApiKey) : Bool :=
  key.tenantId = tenantId && ids.any (key.keyId = ·) && key.revokedAt.isNone

def revoke (ids : List String) (at_ : Nat) (keys : List ApiKey) :
    List ApiKey :=
  updateWhere (revoked tenantId ids) (fun key => { key with revokedAt := some at_ }) keys

def deleteWorkspace (tenantId workspaceId : String) :
    DeleteStage → Option (State × Work)
  | .asked =>
    if state.units.any (·.deletes (tenantId, workspaceId)) then none
    else some (state, .delete tenantId workspaceId .serialized)
  | .serialized =>
    let stage : DeleteStage :=
      if state.workspaces.any ((tenantId, workspaceId) = ·) then .found
      else if state.deleted.any ((tenantId, workspaceId) = ·) then .deleted [] []
      else .refused
    some (state, .delete tenantId workspaceId stage)
  | .found =>
    let bound := (listKeys state.keys tenantId).filter fun key =>
      key.workspaceId = some workspaceId && key.usableAt state.now
    some (state, .delete tenantId workspaceId
      (.listed state.now (bound.map ApiKey.keyId)))
  | .listed at_ ids =>
    let made := (state.keys.filter (revoked tenantId ids)).map ApiKey.keyId
    some ({ state with
        keys := revoke tenantId ids at_ state.keys
        workspaces := state.workspaces.filter ((tenantId, workspaceId) ≠ ·)
        deleted := state.deleted ++ [(tenantId, workspaceId)] },
      .delete tenantId workspaceId (.deleted ids made))
  | .deleted _ _ => none
  | .refused => none

/-- The ids that `invalidate_tenant` writes a tombstone for. -/
def invalidateTenant : List String := (listKeys state.keys tenantId).map ApiKey.keyId

def State.rows : Nat := (state.keys.filter fun key => key.tenantId = tenantId).length

def State.live : List ApiKey :=
  state.keys.filter fun key => key.tenantId = tenantId && key.usableAt state.now

def suspendTenant (available : Bool) :
    SuspendStage → Option (State × Work)
  | .asked =>
    some (state, .suspend tenantId
      (.invalidated (state.rows tenantId) (invalidateTenant state tenantId)))
  | .invalidated rows tombstoned =>
    some ({ state with
        statuses := fun other =>
          if other = tenantId then .suspended else state.statuses other },
      .suspend tenantId (.committed rows tombstoned))
  | .committed _ tombstoned =>
    let again := if available then invalidateTenant state tenantId else []
    some (state, .suspend tenantId
      (.suspended ((state.live tenantId).map ApiKey.keyId) (tombstoned ++ again)))
  | .suspended _ _ => none

inductive Action where
  | issue (key : ApiKey) (expiresInDays : Option Nat)
  | delete (tenantId workspaceId : String)
  | suspend (tenantId : String)
  | advance (position : Nat) (available : Bool)
  | abandon (position : Nat)
  | revoke (tenantId keyId : String)
  | tick (passed : Nat)

def advance (available : Bool) : Work → Option (State × Work)
  | .issue key expiresInDays stage => issueKey state key expiresInDays stage
  | .delete tenantId workspaceId stage => deleteWorkspace state tenantId workspaceId stage
  | .suspend tenantId stage => suspendTenant state tenantId available stage

def step : Action → Option State
  | .issue key expiresInDays =>
    some { state with units := state.units ++ [.issue key expiresInDays .asked] }
  | .delete tenantId workspaceId =>
    some { state with units := state.units ++ [.delete tenantId workspaceId .asked] }
  | .suspend tenantId => some { state with units := state.units ++ [.suspend tenantId .asked] }
  | .advance position available =>
    (state.units[position]?).bind fun unit =>
      (advance state available unit).map fun (next, after) =>
        { next with units := state.units.set position after }
  | .abandon position =>
    if position < state.units.length then
      some { state with units := state.units.eraseIdx position }
    else none
  | .revoke tenantId keyId =>
    some { state with keys := revoke tenantId [keyId] state.now state.keys }
  | .tick passed => some { state with now := state.now + passed }

def boundTo (key : ApiKey) (workspace : String × String) : Bool :=
  key.tenantId = workspace.1 && key.workspaceId = some workspace.2

structure Reached (state : State) : Prop where
  /-- once the issues have ended, no live key is bound to a deleted workspace -/
  deleted : (∀ unit ∈ state.units, unit.running = false) →
    ∀ workspace ∈ state.deleted, ∀ key ∈ state.keys, boundTo key workspace = true →
      key.usableAt state.now = false
  returned : ∀ tenantId workspaceId ids made,
    .delete tenantId workspaceId (.deleted ids made) ∈ state.units → made ⊆ ids
  suspended : ∀ tenantId live tombstoned,
    .suspend tenantId (.suspended live tombstoned) ∈ state.units → live ⊆ tombstoned

end MemoryService.Tenancy
