import MemoryService.Foundation.Dict
import MemoryService.Foundation.Transition

/-!
# Clients of model endpoints

One client is kept for each registered endpoint, replaced when the registration's revision moves,
and the least recently used is given up when there are too many.
-/

namespace MemoryService.Models

open Foundation

universe u

def maxEndpointClients : Nat := 256

structure EndpointChoice (Key : Type u) where
  key : Key
  revision : Option Nat

structure Connection (Key : Type u) where
  key : Key
  revision : Option Nat
  users : Nat := 0
  retired : Bool := false
  closed : Nat := 0

variable {Key : Type u} [DecidableEq Key]

namespace Connection

variable (connection : Connection Key)

def close : Connection Key := { connection with closed := connection.closed + 1 }

def retire : Connection Key :=
  let retired := { connection with retired := true }
  if retired.users = 0 then retired.close else retired

def take : Connection Key := { connection with users := connection.users + 1 }

def leave : Connection Key :=
  let left := { connection with users := connection.users - 1 }
  if left.retired ∧ left.users = 0 then left.close else left

end Connection

structure Clients (Key : Type u) where
  opened : List (Connection Key) := []
  kept : Dict Key Nat := ∅

namespace Clients

variable (clients : Clients Key)

def retire (key : Key) : Clients Key × Bool :=
  match clients.kept.get? key with
  | none => (clients, false)
  | some id =>
    ({ opened := clients.opened.modify id Connection.retire
       kept := clients.kept.erase key },
      clients.opened[id]?.any (·.users = 0))

/-- While there are too many, the least recently used is retired, up to one whose closing is
waited for; the count is how many there are at most. -/
def evict : Nat → Clients Key → Clients Key × Bool
  | 0, clients => (clients, false)
  | count + 1, clients =>
    if clients.kept.items.length ≤ maxEndpointClients then (clients, false)
    else
      match clients.kept.items.head? with
      | none => (clients, false)
      | some (key, _) =>
        let (retired, waits) := clients.retire key
        if waits then (retired, true) else evict count retired

def remember (key : Key) (id : Nat) : Clients Key :=
  { clients with kept := (clients.kept.set key id).moveToEnd key }

/-- A `KeyError` where nothing is kept under the key. -/
def moveToEnd (key : Key) : Option (Clients Key) :=
  if clients.kept.contains key then some { clients with kept := clients.kept.moveToEnd key }
  else none

def take (id : Nat) : Clients Key :=
  { clients with opened := clients.opened.modify id Connection.take }

def leave (id : Nat) : Clients Key :=
  { clients with opened := clients.opened.modify id Connection.leave }

end Clients

inductive CallFailed where
  /-- the endpoint cannot be used -/
  | notConfigured
  | keyError
  deriving DecidableEq

/-- Where a call is.  It sends its requests while it uses a client. -/
inductive Phase where
  | resolved
  | retiring
  /-- it has opened a client, and waits for one that it evicted to close -/
  | evicting (id : Nat)
  | inUse (id : Nat)
  | finished
  | failed (error : CallFailed)
  deriving DecidableEq

structure Call (Key : Type u) where
  choice : EndpointChoice Key
  phase : Phase := .resolved

structure State (Key : Type u) where
  clients : Clients Key := {}
  calls : List (Call Key) := []

abbrev Turn (Key : Type u) := Clients Key × Phase

variable (clients : Clients Key)

def arrive (key : Key) (id : Nat) : Turn Key :=
  match clients.moveToEnd key with
  | none => (clients, .failed .keyError)
  | some clients => (clients.take id, .inUse id)

def settle (key : Key) (id : Nat) : Turn Key :=
  let (evicted, waits) := clients.evict clients.kept.items.length
  if waits then (evicted, .evicting id) else arrive evicted key id

def openClient (choice : EndpointChoice Key) (usable : Bool) : Turn Key :=
  if usable then
    let id := clients.opened.length
    let connection : Connection Key := { key := choice.key, revision := choice.revision }
    let opened := { clients with opened := clients.opened ++ [connection] }
    settle (opened.remember choice.key id) choice.key id
  else (clients, .failed .notConfigured)

/-- From one wait of a call to the next. -/
def turn (choice : EndpointChoice Key) (usable : Bool) :
    Phase → Option (Turn Key)
  | .resolved =>
    match clients.kept.get? choice.key with
    | none => some (openClient clients choice usable)
    | some id =>
      if clients.opened[id]?.any (·.revision = choice.revision) then
        some (arrive clients choice.key id)
      else
        let (retired, waits) := clients.retire choice.key
        if waits then some (retired, .retiring) else some (openClient retired choice usable)
  | .retiring => some (openClient clients choice usable)
  | .evicting id => some (settle clients choice.key id)
  | .inUse id => some (clients.leave id, .finished)
  | .finished | .failed _ => none

inductive Action (Key : Type u) where
  | call (choice : EndpointChoice Key)
  | advance (position : Nat) (usable : Bool)

def step (state : State Key) : Action Key → Option (State Key)
  | .call choice => some { state with calls := state.calls ++ [{ choice }] }
  | .advance position usable =>
    state.calls[position]?.bind fun call =>
      (turn state.clients call.choice usable call.phase).map fun (clients, phase) =>
        { clients, calls := state.calls.set position { call with phase } }

end MemoryService.Models

/-!
## The table of clients

Those in service are the clients that are kept, and a retired one is closed where nobody uses it.
-/

namespace MemoryService.Models

open Foundation

universe u

variable {Key : Type u}

namespace Connection

variable (client : Connection Key)

@[simp]
theorem retire_key : client.retire.key = client.key := by
  rw [retire]
  split <;> rfl

@[simp]
theorem retire_revision : client.retire.revision = client.revision := by
  rw [retire]
  split <;> rfl

@[simp]
theorem retire_users : client.retire.users = client.users := by
  rw [retire]
  split <;> rfl

@[simp]
theorem retire_retired : client.retire.retired = true := by
  rw [retire]
  split <;> rfl

theorem retire_closed :
    client.retire.closed = client.closed + if client.users = 0 then 1 else 0 := by
  rw [retire]
  split <;> simp_all [close]

@[simp]
theorem leave_key : client.leave.key = client.key := by
  rw [leave]
  split <;> rfl

@[simp]
theorem leave_revision : client.leave.revision = client.revision := by
  rw [leave]
  split <;> rfl

@[simp]
theorem leave_users : client.leave.users = client.users - 1 := by
  rw [leave]
  split <;> rfl

@[simp]
theorem leave_retired : client.leave.retired = client.retired := by
  rw [leave]
  split <;> rfl

theorem leave_closed :
    client.leave.closed =
      client.closed + if client.retired = true ∧ client.users - 1 = 0 then 1 else 0 := by
  rw [leave]
  split <;> simp_all [close]

end Connection

namespace Clients

def usersAt (clients : Clients Key) (id : Nat) : Nat := clients.opened[id]?.elim 0 Connection.users

def Extends (clients later : Clients Key) : Prop :=
  ∀ (id : Nat) (client : Connection Key), clients.opened[id]? = some client →
    ∃ after, later.opened[id]? = some after ∧ after.key = client.key ∧
      after.revision = client.revision

variable {clients later last : Clients Key} {id : Nat}

theorem Extends.refl (clients : Clients Key) : clients.Extends clients :=
  fun _ client isOpened => ⟨client, isOpened, rfl, rfl⟩

theorem Extends.trans (first : clients.Extends later) (second : later.Extends last) :
    clients.Extends last := by
  intro id client isOpened
  obtain ⟨after, isAfter, isKey, isRevision⟩ := first id client isOpened
  obtain ⟨final, isFinal, sameKey, sameRevision⟩ := second id after isAfter
  exact ⟨final, isFinal, sameKey.trans isKey, sameRevision.trans isRevision⟩

theorem getElem?_changed (opened : List (Connection Key)) (id : Nat)
    (change : Connection Key → Connection Key) (other : Nat) :
    (opened.modify id change)[other]? =
      if id = other then opened[other]?.map change else opened[other]? := by
  rw [List.getElem?_modify]
  cases opened[other]? with
  | none => split <;> rfl
  | some client => split <;> rfl

theorem changed_cases {opened : List (Connection Key)} {change : Connection Key → Connection Key}
    {other : Nat} {after : Connection Key}
    (isAfter : (opened.modify id change)[other]? = some after) :
    (other = id ∧ ∃ client, opened[id]? = some client ∧ after = change client) ∨
      (other ≠ id ∧ opened[other]? = some after) := by
  rw [getElem?_changed] at isAfter
  split at isAfter
  case isTrue same =>
      obtain ⟨client, isClient, rfl⟩ := Option.map_eq_some_iff.mp isAfter
      exact .inl ⟨same.symm, client, same ▸ isClient, rfl⟩
  case isFalse apart => exact .inr ⟨fun same => apart same.symm, isAfter⟩

theorem extends_changed (id : Nat) (change : Connection Key → Connection Key)
    (kept : Dict Key Nat)
    (isKey : ∀ client, (change client).key = client.key)
    (isRevision : ∀ client, (change client).revision = client.revision) :
    clients.Extends { opened := clients.opened.modify id change, kept } := by
  intro other client isOpened
  change ∃ after, (clients.opened.modify id change)[other]? = some after ∧ _
  rw [getElem?_changed, isOpened]
  split
  · exact ⟨change client, rfl, isKey client, isRevision client⟩
  · exact ⟨client, rfl, rfl, rfl⟩

theorem usersAt_changed (clients : Clients Key) (id : Nat) (kept : Dict Key Nat)
    (change : Connection Key → Connection Key) (other : Nat) :
    usersAt { opened := clients.opened.modify id change, kept } other =
      if id = other then clients.opened[other]?.elim 0 fun client => (change client).users
      else clients.usersAt other := by
  rw [usersAt, getElem?_changed, usersAt]
  split
  · cases clients.opened[other]? <;> rfl
  · rfl

end Clients

variable [DecidableEq Key]

namespace Clients

/-- The clients in service are those that are kept; a retired one is closed where nobody uses
it. -/
structure Sound (clients : Clients Key) : Prop where
  kept : ∀ key id, clients.kept.get? key = some id →
    ∃ client, clients.opened[id]? = some client ∧ client.key = key ∧ client.retired = false
  unretired : ∀ (id : Nat) (client : Connection Key), clients.opened[id]? = some client →
    client.retired = false → clients.kept.get? client.key = some id ∧ client.closed = 0
  retired : ∀ (id : Nat) (client : Connection Key), clients.opened[id]? = some client →
    client.retired = true → client.closed = if client.users = 0 then 1 else 0

variable {clients : Clients Key} {key : Key} {id : Nat}

/-- Everything that a turn keeps of the table. -/
structure Keeps (clients later : Clients Key) : Prop where
  sound : later.Sound
  extend : clients.Extends later
  users : ∀ id, later.usersAt id = clients.usersAt id

variable {later : Clients Key} {client : Connection Key}

theorem Keeps.trans {last : Clients Key} (first : clients.Keeps later)
    (second : later.Keeps last) : clients.Keeps last :=
  ⟨second.sound, first.extend.trans second.extend,
    fun id => (second.users id).trans (first.users id)⟩

theorem keeps_retire (sound : clients.Sound) (key : Key) :
    clients.Keeps (clients.retire key).1 := by
  rw [retire]
  split
  case h_1 => exact ⟨sound, Extends.refl clients, fun _ => rfl⟩
  case h_2 id isKept =>
      obtain ⟨kept, isOpened, isKey, inService⟩ := sound.kept key id isKept
      refine ⟨⟨?_, ?_, ?_⟩, extends_changed _ _ _ Connection.retire_key
        Connection.retire_revision, ?_⟩
      · intro other position isOther
        obtain ⟨apart, isThere⟩ := Dict.get?_erase_eq_some isOther
        obtain ⟨client, isClient, isOtherKey, serves⟩ := sound.kept other position isThere
        have notId : id ≠ position := by
          rintro rfl
          rw [isOpened] at isClient
          cases isClient
          exact apart (isOtherKey.symm.trans isKey)
        refine ⟨client, ?_, isOtherKey, serves⟩
        change (clients.opened.modify id _)[position]? = some client
        rw [getElem?_changed, if_neg notId]
        exact isClient
      · intro position after isAfter serves
        rcases changed_cases isAfter with ⟨-, client, -, rfl⟩ | ⟨apart, isClient⟩
        · rw [Connection.retire_retired] at serves
          cases serves
        · obtain ⟨isThere, notClosed⟩ := sound.unretired position after isClient serves
          have otherKey : after.key ≠ key := by
            intro same
            rw [same, isKept] at isThere
            exact apart (Option.some.inj isThere).symm
          exact ⟨(Dict.get?_erase_other _ otherKey).trans isThere, notClosed⟩
      · intro position after isAfter isRetired
        rcases changed_cases isAfter with ⟨-, client, isClient, rfl⟩ | ⟨-, isClient⟩
        · rw [isOpened] at isClient
          cases isClient
          rw [Connection.retire_closed, Connection.retire_users,
            (sound.unretired id kept isOpened inService).2, Nat.zero_add]
        · exact sound.retired position after isClient isRetired
      · intro other
        rw [usersAt_changed]
        simp only [Connection.retire_users]
        split
        · rfl
        · rfl

theorem keeps_evict (sound : clients.Sound) (count : Nat) :
    clients.Keeps (clients.evict count).1 := by
  induction count generalizing clients with
  | zero => exact ⟨sound, Extends.refl clients, fun _ => rfl⟩
  | succ count ih =>
    rw [evict]
    split
    · exact ⟨sound, Extends.refl clients, fun _ => rfl⟩
    · split
      · exact ⟨sound, Extends.refl clients, fun _ => rfl⟩
      · rename_i key _ _
        have retired := keeps_retire sound key
        cases isRetired : clients.retire key with
        | mk later waits =>
          rw [isRetired] at retired
          cases waits with
          | true => exact retired
          | false => exact retired.trans (ih retired.sound)

theorem evict_keeps_last (count : Nat) (isLast : clients.kept.items.getLast? = some (key, id)) :
    (clients.evict count).1.kept.items.getLast? = some (key, id) := by
  induction count generalizing clients with
  | zero => exact isLast
  | succ count ih =>
    rw [evict]
    split
    case isTrue => exact isLast
    case isFalse many =>
      split
      case h_1 => exact isLast
      case h_2 oldest _ isFirst =>
        have apart : key ≠ oldest := by
          obtain ⟨before, isItems⟩ := List.getLast?_eq_some_iff.mp isLast
          have distinct := clients.kept.distinct
          rw [isItems] at isFirst many distinct
          cases before with
          | nil => exact absurd (show 1 ≤ maxEndpointClients by decide) many
          | cons first others =>
            cases isFirst
            rw [List.cons_append, List.map_cons, List.nodup_cons] at distinct
            rintro rfl
            exact distinct.1 (List.mem_map.mpr
              ⟨(key, id), List.mem_append_right _ (List.mem_singleton_self _), rfl⟩)
        have stays : (clients.retire oldest).1.kept.items.getLast? = some (key, id) := by
          rw [retire]
          split
          · exact isLast
          · exact Dict.getLast?_erase isLast apart
        cases isRetired : clients.retire oldest with
        | mk later waits =>
          rw [isRetired] at stays
          cases waits with
          | true => exact stays
          | false => exact ih stays

theorem keeps_remember (connection : Connection Key) (sound : clients.Sound)
    (isNew : clients.kept.get? connection.key = none) (unused : connection.users = 0)
    (serves : connection.retired = false) (notClosed : connection.closed = 0) :
    clients.Keeps ({ clients with opened := clients.opened ++ [connection] }.remember
      connection.key clients.opened.length) := by
  have getKept : ∀ key, ({ clients with opened := clients.opened ++ [connection] }.remember
      connection.key clients.opened.length).kept.get? key =
        if key = connection.key then some clients.opened.length else clients.kept.get? key := by
    intro key
    rw [remember, Dict.get?_moveToEnd]
    by_cases same : key = connection.key
    · rw [if_pos same, same, Dict.get?_set_self]
    · rw [if_neg same, Dict.get?_set_other _ _ same]
  have opened_cases : ∀ {position : Nat} {client : Connection Key},
      (clients.opened ++ [connection])[position]? = some client →
        (clients.opened[position]? = some client) ∨
          (position = clients.opened.length ∧ client = connection) := by
    intro position client isOpened
    rcases Nat.lt_or_ge position clients.opened.length with isOld | isLater
    · rw [List.getElem?_append_left isOld] at isOpened
      exact .inl isOpened
    · rw [List.getElem?_append_right isLater] at isOpened
      obtain ⟨isIndex, isClient⟩ := List.getElem?_eq_some_iff.mp isOpened
      rw [List.length_singleton, Nat.lt_one_iff] at isIndex
      simp only [isIndex, List.getElem_cons_zero] at isClient
      exact .inr ⟨by omega, isClient.symm⟩
  have old : ∀ {position : Nat} {client : Connection Key},
      clients.opened[position]? = some client →
        (clients.opened ++ [connection])[position]? = some client := by
    intro position client isOpened
    rw [List.getElem?_append_left (List.getElem?_eq_some_iff.mp isOpened).1]
    exact isOpened
  refine ⟨⟨?_, ?_, ?_⟩, fun _ client isOpened => ⟨client, old isOpened, rfl, rfl⟩, ?_⟩
  · intro key id isThere
    rw [getKept] at isThere
    split at isThere
    case isTrue same =>
        cases isThere
        exact ⟨connection, List.getElem?_concat_length, same.symm, serves⟩
    case isFalse =>
        obtain ⟨client, isOpened, isKey, inService⟩ := sound.kept key id isThere
        exact ⟨client, old isOpened, isKey, inService⟩
  · intro position client isOpened inService
    rw [getKept]
    rcases opened_cases isOpened with isOld | ⟨rfl, rfl⟩
    · obtain ⟨isThere, isOpen⟩ := sound.unretired position client isOld inService
      have apart : client.key ≠ connection.key := by
        intro same
        rw [same, isNew] at isThere
        cases isThere
      rw [if_neg apart]
      exact ⟨isThere, isOpen⟩
    · exact ⟨if_pos rfl, notClosed⟩
  · intro position client isOpened isRetired
    rcases opened_cases isOpened with isOld | ⟨rfl, rfl⟩
    · exact sound.retired position client isOld isRetired
    · rw [serves] at isRetired
      cases isRetired
  · intro position
    change ((clients.opened ++ [connection])[position]?).elim 0 Connection.users =
      clients.opened[position]?.elim 0 Connection.users
    rcases Nat.lt_trichotomy position clients.opened.length with isOld | rfl | isLater
    · rw [List.getElem?_append_left isOld]
    · rw [List.getElem?_concat_length, List.getElem?_eq_none (Nat.le_refl _)]
      exact unused
    · rw [List.getElem?_eq_none (Nat.le_of_lt isLater), List.getElem?_eq_none]
      rw [List.length_append, List.length_singleton]
      exact isLater

section

variable (sound : clients.Sound)
include sound

theorem keeps_moveToEnd (isMoved : clients.moveToEnd key = some later) :
    clients.Keeps later ∧ later.opened = clients.opened := by
  rw [moveToEnd] at isMoved
  split at isMoved
  case isTrue =>
      cases isMoved
      refine ⟨⟨⟨?_, ?_, sound.retired⟩, Extends.refl clients, fun _ => rfl⟩, rfl⟩
      · intro other id isThere
        rw [Dict.get?_moveToEnd] at isThere
        exact sound.kept other id isThere
      · intro id client isOpened serves
        rw [Dict.get?_moveToEnd]
        exact sound.unretired id client isOpened serves
  case isFalse => cases isMoved

theorem kept_of_changed (id : Nat) (change : Connection Key → Connection Key)
    (sameKey : ∀ client, (change client).key = client.key)
    (sameRetired : ∀ client, (change client).retired = client.retired) :
    ∀ key position, clients.kept.get? key = some position →
      ∃ client, (clients.opened.modify id change)[position]? = some client ∧ client.key = key ∧
        client.retired = false := by
  intro key position isThere
  obtain ⟨client, isOpened, isKey, serves⟩ := sound.kept key position isThere
  rw [getElem?_changed, isOpened]
  split
  · exact ⟨change client, rfl, (sameKey client).trans isKey, (sameRetired client).trans serves⟩
  · exact ⟨client, rfl, isKey, serves⟩

theorem sound_take (isOpened : clients.opened[id]? = some client) (isOpen : client.closed = 0) :
    (clients.take id).Sound := by
  refine ⟨?_, ?_, ?_⟩
  · exact kept_of_changed sound id Connection.take (fun _ => rfl) fun _ => rfl
  · intro position after isAfter serves
    rcases changed_cases isAfter with ⟨rfl, before, isBefore, rfl⟩ | ⟨-, isBefore⟩
    · exact sound.unretired position before isBefore serves
    · exact sound.unretired position after isBefore serves
  · intro position after isAfter isRetired
    rcases changed_cases isAfter with ⟨rfl, before, isBefore, rfl⟩ | ⟨-, isBefore⟩
    · rw [isOpened] at isBefore
      cases isBefore
      exact isOpen
    · exact sound.retired position after isBefore isRetired

theorem sound_leave (isOpened : clients.opened[id]? = some client) (isUsed : 0 < client.users) :
    (clients.leave id).Sound := by
  refine ⟨?_, ?_, ?_⟩
  · exact kept_of_changed sound id Connection.leave Connection.leave_key Connection.leave_retired
  · intro position after isAfter serves
    rcases changed_cases isAfter with ⟨rfl, before, isBefore, rfl⟩ | ⟨-, isBefore⟩
    · rw [Connection.leave_retired] at serves
      rw [Connection.leave_key, Connection.leave_closed, serves]
      exact sound.unretired position before isBefore serves
    · exact sound.unretired position after isBefore serves
  · intro position after isAfter isRetired
    rcases changed_cases isAfter with ⟨rfl, before, isBefore, rfl⟩ | ⟨-, isBefore⟩
    · rw [isOpened] at isBefore
      cases isBefore
      rw [Connection.leave_retired] at isRetired
      rw [Connection.leave_closed, Connection.leave_users, isRetired,
        sound.retired position client isOpened isRetired, if_neg (Nat.ne_of_gt isUsed),
        Nat.zero_add]
      simp
    · exact sound.retired position after isBefore isRetired

end

end Clients

end MemoryService.Models
