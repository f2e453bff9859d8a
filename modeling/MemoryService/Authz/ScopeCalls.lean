import MemoryService.Authz.ScopeCache
import MemoryService.Authz.WorkspaceGrants
import MemoryService.Foundation.OnConflict
import MemoryService.Foundation.Transition

/-!
# Calls of `scope` while memberships change

Units of work write memberships to the relationship store, and move the MEMBERSHIP counters when
they commit; a unit that does not commit leaves what it wrote.
-/

namespace MemoryService.Authz.Scopes

open Domain Foundation

structure Deployment where
  listObjects : List RelationTuple → (user relation objectType : String) → List String
  granted : List RelationTuple := []
  maxListedObjects : Nat := 2000
  cacheTtl : Nat := 60
  decisionCache : Bool := true

inductive Membership where
  | set (tenantId workspaceId principal : String) (role : MemberRole)
      (previous : Option MemberRole)
  | revoke (tenantId workspaceId principal : String)

structure Written where
  tenantId : String
  made : TupleWrite
  ident : String

def Membership.written : Membership → Option Written
  | .set tenantId workspaceId principal role previous =>
    (setWorkspaceMember tenantId workspaceId principal role previous).map
      fun (made, ident) => { tenantId, made, ident }
  | .revoke tenantId workspaceId principal =>
    (revokeWorkspaceMember tenantId workspaceId principal).map
      fun (made, ident) => { tenantId, made, ident }

/-- `_bump_membership`: a counter that is named twice moves once. -/
def bumpMembership (revisions : String → String → Nat) (written : Written)
    (tenantId key : String) : Nat :=
  if tenantId = written.tenantId ∧
      (key = membershipKey "" ∨ key = membershipKey written.ident) then
    revisions tenantId key + 1
  else revisions tenantId key

/-- How `scope` is called: with the revisions, with a fingerprint and what the caller has found
under it, or with neither. -/
inductive Way where
  | revisions
  | passed
  | neither
  deriving DecidableEq

structure Entry where
  key : ScopeKey
  scope : AuthorizedScope
  droppedAt : Nat
  /-- how many memberships of the tenant had committed when its listings began -/
  known : Nat

/-- A subject, a relation and an object type. -/
abbrev Question := String × String × String

/-- What `resolve` asks the relationship store. -/
def questions (ctx : MemoryExecutionContext) : List Question :=
  (subjects ctx).flatMap fun subject =>
    [(subject, "can_read", "thread"), (subject, "can_read", "document"),
      (subject, "viewer", "workspace")]

inductive Phase where
  | waiting
  | counted (fingerprint : String)
  | fetched (fingerprint : String) (cachedScope : Option Entry)
  | entered
  | looking (fingerprint : String)
  | listing (fingerprint : String) (known : Nat) (answers : List (Question × List String))
  | resolved (fingerprint : String) (known : Nat) (scope : AuthorizedScope)
  | returned (scope : AuthorizedScope)
  | raised

structure Call where
  ctx : MemoryExecutionContext
  way : Way
  /-- how many memberships of its tenant had committed when `scope` was called -/
  began : Nat := 0
  phase : Phase := .waiting

inductive Move where
  /-- the caller reads the fingerprint that it passes -/
  | count
  | fetch (available : Bool)
  /-- `scope` is called -/
  | begin_
  | read
  | lookup (available : Bool)
  | list (question : Question)
  | resolve
  | store (available : Bool)
  | fail

structure State where
  written : List Written := []
  units : List (List (Nat × Written)) := []
  committed : List (Nat × Written) := []
  revisions : String → String → Nat := fun _ _ => 0
  cache : List Entry := []
  now : Nat := 0
  calls : List Call := []

variable (deployment : Deployment)

/-- The tuples after the first `m` writes. -/
def asOf (written : List Written) (m : Nat) : List RelationTuple :=
  (written.take m).foldl (fun tuples one => one.made.apply tuples) deployment.granted

variable (state : State)

def State.committedOf (tenantId : String) : List (Nat × Written) :=
  state.committed.filter fun (_, written) => written.tenantId = tenantId

def State.entry (state : State) (key : ScopeKey) : Option Entry :=
  state.cache.find? fun entry => entry.key = key ∧ state.now < entry.droppedAt

def answered (answers : List (Question × List String)) : Provider where
  listObjects user relation objectType :=
    ((answers.find? fun answer => answer.1 = (user, relation, objectType)).map Prod.snd).getD []
  maxListedObjects := deployment.maxListedObjects

def Call.found (call : Call) (fingerprint : String) (committed : Nat) :
    Option Entry → Call
  | some entry => { call with phase := .returned entry.scope }
  | none => { call with phase := .listing fingerprint committed [] }

def act (call : Call) (move : Move) :
    Option (List Entry × Call) :=
  let tenantId := call.ctx.tenantId.text
  let committed := (state.committedOf tenantId).length
  match call.phase, move with
  | .waiting, .count =>
    if call.way = .passed then
      some (state.cache, { call with
        phase := .counted (revisionFingerprint call.ctx (state.revisions tenantId)) })
    else none
  | .counted fingerprint, .fetch available =>
    let found := if available then state.entry (scopeCacheKey call.ctx fingerprint) else none
    some (state.cache, { call with phase := .fetched fingerprint found })
  | .fetched fingerprint cachedScope, .begin_ =>
    let raw := if deployment.decisionCache then cachedScope else none
    some (state.cache, { call with began := committed }.found fingerprint committed raw)
  | .waiting, .begin_ =>
    if call.way = .passed then none
    else some (state.cache, { call with began := committed, phase := .entered })
  | .entered, .read =>
    let fingerprint :=
      if call.way = .revisions then readFingerprint call.ctx (state.revisions tenantId)
      else "0"
    some (state.cache, { call with phase := .looking fingerprint })
  | .looking fingerprint, .lookup available =>
    let raw :=
      if deployment.decisionCache = true ∧ available = true then
        state.entry (scopeCacheKey call.ctx fingerprint)
      else none
    some (state.cache, call.found fingerprint committed raw)
  | .listing fingerprint known answers, .list (user, relation, objectType) =>
    if (user, relation, objectType) ∈ questions call.ctx then
      let tuples := asOf deployment state.written state.written.length
      let objects := deployment.listObjects tuples user relation objectType
      some (state.cache, { call with
        phase := .listing fingerprint known
          (answers ++ [((user, relation, objectType), objects)]) })
    else none
  | .listing fingerprint known answers, .resolve =>
    if ∀ question ∈ questions call.ctx, question ∈ answers.map Prod.fst then
      some (state.cache, { call with
        phase := (resolve (answered deployment answers) call.ctx).elim .raised
          (.resolved fingerprint known) })
    else none
  | .listing _ _ _, .fail => some (state.cache, { call with phase := .raised })
  | .resolved fingerprint known scope, .store available =>
    let kept : Entry :=
      ⟨scopeCacheKey call.ctx fingerprint, scope, state.now + deployment.cacheTtl, known⟩
    some
      (if deployment.decisionCache = true ∧ available = true then
          insertOrUpdate Entry.key kept state.cache
        else state.cache,
        { call with phase := .returned scope })
  | _, _ => none

inductive Action where
  /-- a unit of work is opened -/
  | start
  | write (unit : Nat) (membership : Membership)
  | commit (unit : Nat)
  | abandon (unit : Nat)
  | tick (passed : Nat)
  | call (ctx : MemoryExecutionContext) (way : Way)
  | move (position : Nat) (move : Move)

def step : Action → Option State
  | .start => some { state with units := state.units ++ [[]] }
  | .write unit membership =>
    (state.units[unit]?).bind fun own => membership.written.map fun written =>
      { state with
        written := state.written ++ [written]
        units := state.units.set unit (own ++ [(state.written.length, written)]) }
  | .commit unit =>
    (state.units[unit]?).map fun own =>
      { state with
        units := state.units.eraseIdx unit
        committed := state.committed ++ own
        revisions := own.foldl (fun revisions one => bumpMembership revisions one.2)
          state.revisions }
  | .abandon unit =>
    if unit < state.units.length then some { state with units := state.units.eraseIdx unit }
    else none
  | .tick passed => some { state with now := state.now + passed }
  | .call ctx way => some { state with calls := state.calls ++ [{ ctx, way }] }
  | .move position move =>
    (state.calls[position]?).bind fun call =>
      (act deployment state call move).map fun (cache, after) =>
        { state with cache, calls := state.calls.set position after }

/-- A listing that is asked of a store in which the first memberships to commit are written: what
they deleted is there only if it has been added again. -/
def Listed (first : List (Nat × Written))
    (question : Question) (objects : List String) : Prop :=
  ∃ m ≤ state.written.length,
    objects =
      deployment.listObjects (asOf deployment state.written m) question.1 question.2.1
        question.2.2 ∧
    ∀ index written, (index, written) ∈ first → index < m ∧
      ∀ tuple ∈ written.made.deleted, tuple ∈ asOf deployment state.written m →
        ∃ later again, index ≤ later ∧ later < m ∧ state.written[later]? = some again ∧
          tuple ∈ again.made.added

def ResolvedAfter (ctx : MemoryExecutionContext)
    (known : Nat) (scope : AuthorizedScope) : Prop :=
  ∃ provider : Provider, resolve provider ctx = some scope ∧
    ∀ question ∈ questions ctx,
      Listed deployment state ((state.committedOf ctx.tenantId.text).take known) question
        (provider.listObjects question.1 question.2.1 question.2.2)

/-- No scope is older than the memberships that had committed when it was asked for. -/
def Current : Prop :=
  ∀ call ∈ state.calls, ∀ scope, call.phase = .returned scope →
    ResolvedAfter deployment state call.ctx call.began scope

end MemoryService.Authz.Scopes
