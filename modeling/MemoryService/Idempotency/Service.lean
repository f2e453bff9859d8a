import MemoryService.Foundation.OnConflict
import MemoryService.Foundation.Transition

/-!
# What a write request is to the idempotency table

A request has a key, which its client sent or the service derived, and a payload, of which a
digest is compared when the key comes again.  The digests stand for functions of texts about
which nothing is assumed.
-/

namespace MemoryService.Idempotency

/-- Who a write is for, and who may read it. -/
structure Caller where
  principal : String
  userId : Option String := none
  agentId : Option String := none
  workspaceId : Option String := none
  visibility : Option String := none
  deriving DecidableEq

/-- What `default_idempotency_key` reads of a `MemoryExecutionContext`. -/
structure Lineage where
  tenantId : String
  threadId : Option String := none
  sessionId : Option String := none
  turnId : Option String := none
  agentRunId : Option String := none

inductive Payload where
  | body (dump : String)
  | identity (parts : List String)

structure Digests where
  blake2b : String → String
  contentHash : Payload → String

structure Request where
  route : String
  caller : Caller
  key : String
  requestHash : String
  deriving DecidableEq

/-- The same route, for the same principal in the same scope. -/
def Request.SameCaller (q other : Request) : Prop := q.route = other.route ∧ q.caller = other.caller

variable (digests : Digests)

def stableKey (parts : List String) : String := digests.blake2b ("\x1f".intercalate parts)

def defaultIdempotencyKey (ctx : Lineage) (parts : List String) : String :=
  "auto-" ++ stableKey digests
    ([ctx.tenantId, ctx.threadId.getD "", ctx.sessionId.getD "", ctx.turnId.getD "",
      ctx.agentRunId.getD ""] ++ parts)

def derivedOrBody (idempotencyKey : Option String) (dump : String) (identity : List String) :
    Payload :=
  if idempotencyKey.any (· ≠ "") then .body dump else .identity identity

/-- `request.state.idempotency_key or default_idempotency_key(ctx, *identity)`. -/
def keyOrDefault (idempotencyKey : Option String) (ctx : Lineage) (identity : List String) :
    String :=
  match idempotencyKey with
  | some key => if key ≠ "" then key else defaultIdempotencyKey digests ctx identity
  | none => defaultIdempotencyKey digests ctx identity

def derived (route : String) (caller : Caller) (ctx : Lineage) (idempotencyKey : Option String)
    (dump : String) (identity : List String) : Request where
  route
  caller
  key := keyOrDefault digests idempotencyKey ctx identity
  requestHash := digests.contentHash (derivedOrBody idempotencyKey dump identity)

/-- `POST /v1/memories`. -/
def remember (caller : Caller) (ctx : Lineage) (idempotencyKey : Option String)
    (memoryType content dump : String) : Request :=
  derived digests "POST /v1/memories" caller ctx idempotencyKey dump
    ["remember", memoryType, content]

end MemoryService.Idempotency

/-!
## Requests at one key, step by step

`run_idempotent` looks into the cache, reserves the key in a unit of work, runs the handler,
completes the record, commits and warms the cache.  Requests take these steps in any order among
themselves, and one may end in an exception before its commit.  An insert waits for the unit of
work that has inserted the key and not ended.
-/

namespace MemoryService.Idempotency

open Foundation

structure Response where
  status : Nat
  body : String
  deriving DecidableEq

/-- `IdempotencyRecord`: its key and its hash are those of the request that wrote it. -/
structure Record where
  request : Request
  response : Option Response
  expiresAt : Nat

/-- A cached answer, with the request that was answered and the end of its record, which the
entry does not hold. -/
structure Entry where
  request : Request
  response : Response
  expiresAt : Nat
  droppedAt : Nat

structure Effect where
  request : Request
  kept : Option Response
  expiresAt : Nat
  committedAt : Nat

inductive Outcome where
  | fresh (response : Response)
  /-- the response of an earlier request, found at a time -/
  | replayed (at_ : Nat) (response : Response)
  /-- "Idempotency-Key reused with a different payload" -/
  | reused (at_ : Nat)
  | processing (at_ : Nat)
  /-- "Idempotency-Key expired; retry with a new key" -/
  | expired (at_ : Nat)
  /-- an exception of the handler or of the database -/
  | failed
  deriving DecidableEq

inductive Phase where
  | arrived
  /-- the cache gave no answer -/
  | missed
  | opened (now : Nat)
  /-- the insert found a row -/
  | refused (now : Nat)
  /-- and then the row was gone -/
  | absent (now : Nat)
  /-- the key is reserved -/
  | held (expiresAt : Nat)
  | handled (expiresAt : Nat) (response kept : Response) (own : Bool)
  | completed (expiresAt : Nat) (response kept : Response) (own : Bool)
  | committed (expiresAt : Nat) (response kept : Response)
  | answered (outcome : Outcome)
  deriving DecidableEq

/-- The unit of work has inserted the key. -/
def Phase.holds : Phase → Bool
  | .held _ | .handled .. | .completed .. => true
  | _ => false

structure Process where
  request : Request
  phase : Phase := .arrived
  deriving DecidableEq

/-- What the requests share. -/
structure Store where
  now : Nat := 0
  table : List Record := []
  cache : List Entry := []
  effects : List Effect := []
  selected : List String := []

structure State extends Store where
  processes : List Process := []

def Store.row (store : Store) (key : String) : Option Record :=
  store.table.find? fun row => row.request.key = key

def Store.entry (store : Store) (key : String) : Option Entry :=
  (store.cache.find? fun entry => entry.request.key = key).filter
    fun entry => store.now < entry.droppedAt

inductive Move where
  | lookup (available : Bool)
  | begin_
  | reserve
  | get
  /-- the handler returns; `own` where it writes in a unit of work of its own -/
  | handle (response kept : Response) (own : Bool)
  | complete
  | commit
  | warm (available : Bool)
  /-- an exception, the handler's or the database's -/
  | fail
  deriving DecidableEq

/-- `lookup_cached`. -/
def lookupCached (store : Store) (q : Request) : Phase :=
  match store.entry q.key with
  | none => .missed
  | some entry =>
    if entry.request.requestHash ≠ q.requestHash then .answered (.reused store.now)
    else .answered (.replayed store.now entry.response)

/-- What `begin` makes of the row that it read; what it writes over an expired row is rolled
back by the exception that follows. -/
def found (q : Request) (now : Nat) (row : Record) : Phase :=
  if row.expiresAt < now then .answered (.expired now)
  else if row.request.requestHash ≠ q.requestHash then .answered (.reused now)
  else
    match row.response with
    | none => .answered (.processing now)
    | some response => .answered (.replayed now response)

section

variable (window : Nat)

/-- One step of a request, where `waits` says that another unit of work has inserted the key. -/
def act (store : Store) (waits : Bool) (q : Request) : Phase → Move → Option (Store × Phase)
  | .arrived, .lookup available => some (store, if available then lookupCached store q else .missed)
  | .missed, .begin_ => some (store, .opened store.now)
  | .opened now, .reserve =>
    if waits then none
    else some (store, if (store.row q.key).isNone then .held (now + window) else .refused now)
  | .refused now, .get => some (store, (store.row q.key).elim (.absent now) (found q now))
  | .absent now, .reserve =>
    if waits then none
    else
      some (store, if (store.row q.key).isNone then .held (now + window)
        else .answered (.processing now))
  | .held expiresAt, .handle response kept own =>
    some (if own then
        { store with effects := store.effects ++ [⟨q, some kept, expiresAt, store.now⟩] }
      else store, .handled expiresAt response kept own)
  | .handled expiresAt response kept own, .complete =>
    some (store, .completed expiresAt response kept own)
  | .completed expiresAt response kept own, .commit =>
    some ({ store with
        table := store.table ++ [⟨q, some kept, expiresAt⟩]
        effects :=
          if own then store.effects
          else store.effects ++ [⟨q, some kept, expiresAt, store.now⟩] },
      .committed expiresAt response kept)
  | .committed expiresAt response kept, .warm available =>
    some (if available then
        { store with
          cache := insertOrUpdate (fun entry : Entry => entry.request.key)
            ⟨q, kept, expiresAt, store.now + window⟩ store.cache }
      else store, .answered (.fresh response))
  | .committed .., .fail => none
  | .answered _, .fail => none
  | _, .fail => some (store, .answered .failed)
  | _, _ => none

inductive Action where
  | arrive (request : Request)
  | move (position : Nat) (move : Move)
  | tick (passed : Nat)
  /-- `purge_expired` reads the keys of expired rows -/
  | select (key : String)
  | delete (key : String)

def State.waits (state : State) (position : Nat) (key : String) : Bool :=
  (state.processes.eraseIdx position).any fun p => p.phase.holds && decide (p.request.key = key)

def step (state : State) : Action → Option State
  | .arrive request => some { state with processes := state.processes ++ [{ request }] }
  | .move position move =>
    state.processes[position]?.bind fun p =>
      (act window state.toStore (state.waits position p.request.key) p.request p.phase move).map
        fun after =>
          { toStore := after.1
            processes := state.processes.set position { p with phase := after.2 } }
  | .tick passed => some { state with now := state.now + passed }
  | .select key =>
    if (state.row key).any fun row => row.expiresAt < state.now then
      some { state with selected := state.selected ++ [key] }
    else none
  | .delete key =>
    if key ∈ state.selected then
      some { state with
        table := state.table.filter fun row => row.request.key ≠ key
        selected := state.selected.erase key }
    else none

end

end MemoryService.Idempotency
