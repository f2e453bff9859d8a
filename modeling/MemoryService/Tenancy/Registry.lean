import MemoryService.Domain.Context
import MemoryService.Foundation.Journal
import MemoryService.Foundation.Transition

/-!
# The registry of a process

A process keeps the suspended tenants, the quotas and the keys of tenants with a quota in maps.
-/

namespace MemoryService.Tenancy.Registry

open Domain Foundation

structure Record where
  status : TenantStatus := .active
  rateLimitPerMinute : Option Nat := none

inductive Commit where
  | tenant (tenantId : String) (record : Record)
  | key (keyId : String) (tenantId : Option String)

def ofTenant (tenantId : String) : Commit → Option Record
  | .tenant other record => if other = tenantId then some record else none
  | .key _ _ => none

def ofKey (keyId : String) : Commit → Option (Option String)
  | .key other tenantId => if other = keyId then some tenantId else none
  | .tenant _ _ => none

variable (journal : List Commit)

/-- A tenant's row as it is read at an instant; there is none before it is created. -/
def tenantAt (n : Nat) (tenantId : String) : Record :=
  (Journal.valueAt (ofTenant tenantId) journal n).getD {}

/-- The tenant of a key that is read at an instant, if it is live. -/
def keyAt (n : Nat) (keyId : String) : Option String :=
  (Journal.valueAt (ofKey keyId) journal n).join

/-- When the maps were last written, and by what.  Only the conditions on a run look at it. -/
structure Writes where
  /-- a tenant by `observe` -/
  observed : String → Nat := fun _ => 0
  /-- a key by the end of `observe` -/
  metered : String → Nat := fun _ => 0
  /-- the last commit of a key that was told -/
  told : String → Nat := fun _ => 0
  /-- all of them by `refresh` -/
  refreshed : Nat := 0
  /-- the last change that the generation counts -/
  changed : Nat := 0

/-- The maps; with each entry, at which instant what it says was read or committed. -/
structure Maps where
  limits : String → Option Nat := fun _ => none
  suspended : String → Bool := fun _ => false
  keyTenants : String → Option String := fun _ => none
  generation : Nat := 0
  limitAt : String → Nat := fun _ => 0
  suspendedAt : String → Nat := fun _ => 0
  keyTenantAt : String → Nat := fun _ => 0
  writes : Writes := {}

variable (maps : Maps) (tenantId : String)

/-- `observe`, up to its read. -/
def Maps.observe (record : Record)
    (statusAt limitAt now : Nat) : Maps :=
  { maps with
    generation := maps.generation + 1
    suspended := Function.update maps.suspended tenantId (record.status = .suspended)
    suspendedAt := Function.update maps.suspendedAt tenantId statusAt
    limits := Function.update maps.limits tenantId record.rateLimitPerMinute
    limitAt := Function.update maps.limitAt tenantId limitAt
    keyTenants := fun keyId =>
      if record.rateLimitPerMinute = none ∧ maps.keyTenants keyId = some tenantId then none
      else maps.keyTenants keyId
    writes :=
      { maps.writes with
        observed := Function.update maps.writes.observed tenantId now
        changed := now } }

/-- The end of `observe`: the keys of the tenant, as they were read. -/
def Maps.meter (journal : List Commit) (n : Nat) (tenantId : String)
    (now : Nat) : Maps :=
  { maps with
    keyTenants := fun keyId =>
      if keyAt journal n keyId = some tenantId then some tenantId else maps.keyTenants keyId
    keyTenantAt := fun keyId =>
      if keyAt journal n keyId = some tenantId then n else maps.keyTenantAt keyId
    writes :=
      { maps.writes with
        metered := fun keyId =>
          if keyAt journal n keyId = some tenantId then now else maps.writes.metered keyId } }

def Writes.key (writes : Writes) (keyId : String) (n now : Nat) : Writes :=
  { writes with told := Function.update writes.told keyId n, changed := now }

def Maps.observeKey (keyId tenantId : String) (n now : Nat) : Maps :=
  if (maps.limits tenantId).isSome then
    { maps with
      generation := maps.generation + 1
      keyTenants := Function.update maps.keyTenants keyId (some tenantId)
      keyTenantAt := Function.update maps.keyTenantAt keyId n
      writes := maps.writes.key keyId n now }
  else
    { maps with
      generation := maps.generation + 1
      writes := { maps.writes with changed := now } }

def Maps.forgetKey (keyId : String) (n now : Nat) : Maps :=
  { maps with
    generation := maps.generation + 1
    keyTenants := Function.update maps.keyTenants keyId none
    keyTenantAt := Function.update maps.keyTenantAt keyId n
    writes := maps.writes.key keyId n now }

def anyLimit (n : Nat) : Bool :=
  journal.any fun
    | .tenant tenantId _ => (tenantAt journal n tenantId).rateLimitPerMinute.isSome
    | .key _ _ => false

/-- What `refresh` puts in the place of the maps: the quotas, the suspensions and the keys, each
as it was read.  Where there is no quota no keys are read. -/
def Maps.replace (journal : List Commit) (limitsAt suspendedAt : Nat)
    (keysAt : Option Nat) (now : Nat) : Maps :=
  { maps with
    limits := fun tenantId => (tenantAt journal limitsAt tenantId).rateLimitPerMinute
    limitAt := fun _ => limitsAt
    suspended := fun tenantId => (tenantAt journal suspendedAt tenantId).status = .suspended
    suspendedAt := fun _ => suspendedAt
    keyTenants := fun keyId =>
      keysAt.bind fun n => (keyAt journal n keyId).filter fun tenantId =>
        (tenantAt journal limitsAt tenantId).rateLimitPerMinute.isSome
    keyTenantAt := fun keyId => keysAt.getD (maps.keyTenantAt keyId)
    writes := { maps.writes with refreshed := now } }

structure Changes where
  status : Option TenantStatus := none
  rateLimitPerMinute : Option (Option Nat) := none

def Changes.apply (changes : Changes) (record : Record) : Record where
  status := changes.status.getD record.status
  rateLimitPerMinute := changes.rateLimitPerMinute.getD record.rateLimitPerMinute

inductive Task where
  /-- a change on this process: it reads the row, commits the fields, and observes the row it has
  read with the fields -/
  | update (tenantId : String) (changes : Changes)
  | updating (tenantId : String) (changes : Changes) (readAt : Nat)
  | updated (tenantId : String) (changes : Changes) (readAt committedAt : Nat)
  /-- an event of another process -/
  | apply (tenantId : String)
  | applying (tenantId : String) (readAt : Nat)
  /-- the rest of `observe` -/
  | meter (tenantId : String)
  | metering (tenantId : String) (readAt : Nat)
  | refresh (left started : Nat)
  | limits (left started limitsAt : Nat)
  | suspensions (left started limitsAt suspendedAt : Nat)
  | keys (left started limitsAt suspendedAt : Nat) (keysAt : Option Nat)
  | done

structure State where
  journal : List Commit := []
  maps : Maps := {}
  tasks : List Task := []

def State.now (state : State) : Nat := state.journal.length

/-- What is left of `observe`. -/
def rest (record : Record) : Task :=
  if record.rateLimitPerMinute.isSome then .meter tenantId else .done

def observed (changes : Changes) (readAt : Nat) :
    Record :=
  changes.apply (tenantAt journal readAt tenantId)

/-- A field that a change names is as it was committed, any other as it was read. -/
def from_ {Field : Type} (named : Option Field) (readAt committedAt : Nat) : Nat :=
  if named.isSome then committedAt else readAt

/-- One step of a task, with what is left of it. -/
def advance (state : State) : Task → Option (State × Task)
  | .update tenantId changes => some (state, .updating tenantId changes state.now)
  | .updating tenantId changes readAt =>
    let committed : Commit :=
      .tenant tenantId (changes.apply (tenantAt state.journal state.now tenantId))
    some ({ state with journal := state.journal ++ [committed] },
      .updated tenantId changes readAt (state.now + 1))
  | .updated tenantId changes readAt committedAt =>
    let record := observed state.journal tenantId changes readAt
    some ({ state with
        maps := state.maps.observe tenantId record
          (from_ changes.status readAt committedAt)
          (from_ changes.rateLimitPerMinute readAt committedAt) state.now },
      rest tenantId record)
  | .apply tenantId => some (state, .applying tenantId state.now)
  | .applying tenantId readAt =>
    if Journal.version (ofTenant tenantId) state.journal readAt = 0 then some (state, .done)
    else
      let record := tenantAt state.journal readAt tenantId
      some ({ state with maps := state.maps.observe tenantId record readAt readAt state.now },
        rest tenantId record)
  | .meter tenantId => some (state, .metering tenantId state.now)
  | .metering tenantId readAt =>
    some ({ state with maps := state.maps.meter state.journal readAt tenantId state.now }, .done)
  | .refresh left started => some (state, .limits left started state.now)
  | .limits left started limitsAt => some (state, .suspensions left started limitsAt state.now)
  | .suspensions left started limitsAt suspendedAt =>
    some (state, .keys left started limitsAt suspendedAt
      (if anyLimit state.journal limitsAt then some state.now else none))
  | .keys left started limitsAt suspendedAt keysAt =>
    if state.maps.generation = started ∨ left = 0 then
      some ({ state with
          maps := state.maps.replace state.journal limitsAt suspendedAt keysAt state.now }, .done)
    else some (state, .refresh (left - 1) state.maps.generation)
  | .done => none

inductive Action where
  | commit (committed : Commit)
  | update (tenantId : String) (changes : Changes)
  | apply (tenantId : String)
  | refresh (attempts : Nat)
  | advance (position : Nat)
  /-- the commit of a key is told to the registry, on the process or by an event -/
  | tell (position : Nat)

def step (state : State) : Action → Option State
  | .commit committed => some { state with journal := state.journal ++ [committed] }
  | .update tenantId changes =>
    some { state with tasks := state.tasks ++ [.update tenantId changes] }
  | .apply tenantId => some { state with tasks := state.tasks ++ [.apply tenantId] }
  | .refresh attempts =>
    some { state with
      tasks := state.tasks ++ [.refresh (max 1 attempts - 1) state.maps.generation] }
  | .advance position =>
    (state.tasks[position]?).bind fun task =>
      (advance state task).map fun (next, after) =>
        { next with tasks := state.tasks.set position after }
  | .tell position =>
    match state.journal[position]? with
    | some (.key keyId (some tenantId)) =>
      some { state with maps := state.maps.observeKey keyId tenantId (position + 1) state.now }
    | some (.key keyId none) =>
      some { state with maps := state.maps.forgetKey keyId (position + 1) state.now }
    | _ => none

/-- What a read at `first` has seen of the part, one at `second` has. -/
def NotOlder {Value : Type} (journal : List Commit) (part : Commit → Option Value)
    (first second : Nat) : Prop :=
  Journal.version part journal first ≤ Journal.version part journal second
deriving Decidable

/-- Nothing that was applied has been replaced by what was read before it committed. -/
structure Onward (state next : State) : Prop where
  limits : ∀ tenantId,
    NotOlder next.journal (ofTenant tenantId) (state.maps.limitAt tenantId)
      (next.maps.limitAt tenantId)
  suspended : ∀ tenantId,
    NotOlder next.journal (ofTenant tenantId) (state.maps.suspendedAt tenantId)
      (next.maps.suspendedAt tenantId)
  keyTenants : ∀ keyId,
    NotOlder next.journal (ofKey keyId) (state.maps.keyTenantAt keyId)
      (next.maps.keyTenantAt keyId)

/-- The maps say what was there at their instants. -/
structure Accurate (state : State) : Prop where
  limits : ∀ tenantId, state.maps.limits tenantId =
    (tenantAt state.journal (state.maps.limitAt tenantId) tenantId).rateLimitPerMinute
  suspended : ∀ tenantId, state.maps.suspended tenantId = true ↔
    (tenantAt state.journal (state.maps.suspendedAt tenantId) tenantId).status = .suspended
  keyTenants : ∀ keyId tenantId, state.maps.keyTenants keyId = some tenantId →
    keyAt state.journal (state.maps.keyTenantAt keyId) keyId = some tenantId

end MemoryService.Tenancy.Registry
