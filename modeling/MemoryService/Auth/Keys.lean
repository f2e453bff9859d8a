import MemoryService.Domain.Context
import MemoryService.Foundation.Expiring
import MemoryService.Foundation.Table
import MemoryService.Foundation.Transition

/-!
# Keys that are verified through a cache

Many instances verify keys against their rows and share one cache.
-/

namespace MemoryService.Auth

open Domain Foundation

structure Cached where
  key : ApiKey
  tenantStatus : TenantStatus
  deriving DecidableEq

inductive Value where
  | record (cached : Cached)
  /-- read the store -/
  | tombstone
  /-- there is no such key -/
  | missing

abbrev Slot := Option (Expiring Value)

def second : Nat := 1000000

/-- `MISSING_TTL_SECONDS`. -/
def missingTtlSeconds : Nat := 5

inductive Work where
  | issue (key : ApiKey)
  | revoke (tenantId keyId : String)
  | setMayActAs (tenantId keyId : String) (principals : List String)

def Work.keyId : Work → String
  | .issue key => key.keyId
  | .revoke _ keyId => keyId
  | .setMayActAs _ keyId _ => keyId

/-- The row after an `UPDATE`, `none` where it selects none. -/
def Work.update (at_ : Nat) (row : ApiKey) : Work → Option ApiKey
  | .issue _ => none
  | .revoke tenantId _ =>
    if row.tenantId = tenantId ∧ row.revokedAt = none then
      some { row with revokedAt := some at_ }
    else none
  | .setMayActAs tenantId _ principals =>
    if row.tenantId = tenantId then some { row with mayActAs := principals } else none

/-- How far a unit of work is. -/
inductive Stage where
  | opened
  /-- it has updated the row, and holds it -/
  | changed (at_ : Nat)
  | tombstoned (at_ tombstonedAt : Nat)
  | committed
  | done

structure Administration where
  work : Work
  stage : Stage := .opened

def Administration.holds (unit : Administration) (keyId : String) : Bool :=
  unit.work.keyId = keyId &&
    match unit.stage with
    | .changed _ | .tombstoned _ _ => true
    | _ => false

/-- How far a call of `verify` is. -/
inductive Phase where
  | asked (now : Nat)
  | reading (now : Nat) (behindTombstone : Bool)
  | read (now : Nat) (behindTombstone : Bool) (readAt : Nat) (found : Option Cached)
  | loaded (cached : Option Cached)
  | verified (cached : Cached)
  | unauthenticated
  /-- the tenant is not served -/
  | unauthorized

structure Verification where
  process : Nat
  keyId : String
  secretHash : String
  /-- which row of the key was there when `verify` was called -/
  began : Nat
  phase : Phase

structure State where
  history : String → List ApiKey := fun _ => []
  statuses : String → Option TenantStatus := fun _ => none
  cache : String → Slot := fun _ => none
  /-- until when an instance knows that there is no such key -/
  missing : Nat → String → Option Nat := fun _ _ => none
  now : Nat := 0
  units : List Administration := []
  verifications : List Verification := []

variable (state : State)

def State.row (keyId : String) : Option ApiKey := (state.history keyId).getLast?

inductive Move where
  /-- whether the cache answers; and whether this instance knows the id, or has reads left -/
  | lookup (available budget : Bool)
  | get
  | put (available : Bool)
  | check

/-- `_load`, with what the cache has answered. -/
def loadOf (now : Nat) (budget : Bool) : Option Value → Phase
  | some .missing => .loaded none
  | some (.record cached) => .loaded (some cached)
  | some .tombstone => .reading now true
  | none => if budget then .reading now false else .loaded none

/-- What `_read_store` reads. -/
def State.found (keyId : String) : Option Cached :=
  (state.row keyId).map fun key => ⟨key, (state.statuses key.tenantId).getD .suspended⟩

/-- What `_read_store` leaves in the cache. -/
def stored (ttl now asked : Nat) (behindTombstone : Bool) (found : Option Cached)
    (slot : Slot) : Slot :=
  match found with
  | none =>
    let marker : Expiring Value := ⟨.missing, now + missingTtlSeconds * second⟩
    if behindTombstone then some marker else Expiring.setIfAbsent now marker slot
  | some cached =>
    let entry : Expiring Value := ⟨.record cached, now + ttl * second⟩
    let irreversible := !cached.key.usableAt asked
    if irreversible then some entry
    else if behindTombstone then slot
    else Expiring.setIfAbsent now entry slot

/-- What `verify` makes of a record. -/
def checked (now : Nat) (secretHash : String) : Option Cached → Phase
  | none => .unauthenticated
  | some cached =>
    if !cached.key.usableAt now || secretHash ≠ cached.key.secretHash then .unauthenticated
    else if cached.tenantStatus ≠ .active then .unauthorized
    else .verified cached

inductive Action where
  | verify (process : Nat) (keyId secretHash : String)
  | move (position : Nat) (move : Move)
  | open_ (work : Work)
  | change (unit : Nat)
  /-- `invalidate`, before the commit -/
  | tombstone (unit : Nat)
  | commit (unit : Nat)
  | finish (unit process : Nat) (available : Bool)
  | abandon (unit : Nat)
  | status (tenantId : String) (status : TenantStatus)
  | tick (passed : Nat)

def State.setPhase (position : Nat) (call : Verification) (phase : Phase) :
    State :=
  { state with verifications := state.verifications.set position { call with phase } }

def State.setStage (position : Nat) (unit : Administration) (stage : Stage) :
    State :=
  { state with units := state.units.set position { unit with stage } }

def act (ttl : Nat) (state : State) (position : Nat) (call : Verification) (move : Move) :
    Option State :=
  match call.phase, move with
  | .asked now, .lookup available budget =>
    let raw := if available then Expiring.live state.now (state.cache call.keyId) else none
    some (state.setPhase position call (loadOf now budget raw))
  | .reading now behindTombstone, .get =>
    let found := state.found call.keyId
    let noted :=
      if found.isNone then
        Function.update state.missing call.process
          (Function.update (state.missing call.process) call.keyId
            (some (now + missingTtlSeconds * second)))
      else state.missing
    some ({ state with missing := noted }.setPhase position call
      (.read now behindTombstone state.now found))
  | .read now behindTombstone _ found, .put available =>
    let slot := state.cache call.keyId
    let kept := if available then stored ttl state.now now behindTombstone found slot else slot
    some ({ state with cache := Function.update state.cache call.keyId kept }.setPhase position
      call (.loaded found))
  | .loaded cached, .check =>
    some (state.setPhase position call (checked state.now call.secretHash cached))
  | _, _ => none

/-- The tombstone of a change, for twice a record's life. -/
def State.invalidate (ttl : Nat) (keyId : String) : State :=
  { state with
    cache := Function.update state.cache keyId
      (some ⟨.tombstone, state.now + 2 * (ttl * second)⟩) }

def State.forgetMissing (process : Nat) (keyId : String)
    (available : Bool) : State :=
  { state with
    missing := Function.update state.missing process
      (Function.update (state.missing process) keyId none)
    cache := if available then Function.update state.cache keyId none else state.cache }

def step (ttl : Nat) (state : State) : Action → Option State
  | .verify process keyId secretHash =>
    let phase : Phase :=
      if (state.missing process keyId).any fun until_ => state.now < until_ then .loaded none
      else .asked state.now
    let began := (state.history keyId).length - 1
    some { state with
      verifications := state.verifications ++ [{ process, keyId, secretHash, began, phase }] }
  | .move position move =>
    (state.verifications[position]?).bind fun call => act ttl state position call move
  | .open_ work => some { state with units := state.units ++ [{ work }] }
  | .change position =>
    (state.units[position]?).bind fun unit =>
      match unit.stage with
      | .opened =>
        (state.row unit.work.keyId).bind fun row =>
          (unit.work.update state.now row).bind fun _ =>
            if state.units.any (·.holds unit.work.keyId) then none
            else some (state.setStage position unit (.changed state.now))
      | _ => none
  | .tombstone position =>
    (state.units[position]?).bind fun unit =>
      match unit.stage with
      | .changed at_ =>
        some ((state.invalidate ttl unit.work.keyId).setStage position unit
          (.tombstoned at_ state.now))
      | _ => none
  | .commit position =>
    (state.units[position]?).bind fun unit =>
      let keyId := unit.work.keyId
      let committed (row : ApiKey) : State :=
        { state with
          history := Function.update state.history keyId (state.history keyId ++ [row]) }.setStage
            position unit .committed
      match unit.stage, unit.work with
      | .opened, .issue key =>
        if state.row keyId = none then some (committed { key with revokedAt := none })
        else none
      | .tombstoned at_ _, work =>
        (state.row keyId).bind fun row => (work.update at_ row).map committed
      | _, _ => none
  | .finish position process available =>
    (state.units[position]?).bind fun unit =>
      match unit.stage, unit.work with
      | .committed, .issue key =>
        some ((state.forgetMissing process key.keyId available).setStage position unit .done)
      | .committed, work =>
        some ((if available then state.invalidate ttl work.keyId else state).setStage position
          unit .done)
      | _, _ => none
  | .abandon position =>
    if position < state.units.length then
      some { state with units := state.units.eraseIdx position }
    else none
  | .status tenantId status =>
    some { state with statuses := Function.update state.statuses tenantId (some status) }
  | .tick passed => some { state with now := state.now + passed }

/-- A key that is accepted was not revoked when `verify` was called, and it is, with the
principals it may act for, as it was then or has been made since. -/
structure Prompt (state : State) : Prop where
  live : ∀ call ∈ state.verifications, ∀ cached, call.phase = .verified cached →
    ∀ row, (state.history call.keyId)[call.began]? = some row → row.revokedAt = none
  current : ∀ call ∈ state.verifications, ∀ cached, call.phase = .verified cached →
    ∃ version row, call.began ≤ version ∧ (state.history call.keyId)[version]? = some row ∧
      cached.key = row

end MemoryService.Auth
