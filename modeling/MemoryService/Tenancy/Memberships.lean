import MemoryService.Authz.WorkspaceGrants
import MemoryService.Foundation.OnConflict
import MemoryService.Foundation.Transition

/-!
# Membership rows and grants

A workspace has a row for each member and a tuple for the role of each. A unit of work changes
the rows when it commits, and the tuples as it writes them.
-/

namespace MemoryService.Tenancy.Memberships

open Authz Domain Foundation List

structure Workspace where
  tenantId : Id
  workspaceId : Id
  deleted : Bool := false

structure WorkspaceMember where
  tenantId : Id
  workspaceId : Id
  principal : String
  role : MemberRole

def Workspace.key (row : Workspace) : Id × Id := (row.tenantId, row.workspaceId)

def WorkspaceMember.team (row : WorkspaceMember) : Id × Id := (row.tenantId, row.workspaceId)

def WorkspaceMember.key (row : WorkspaceMember) : (Id × Id) × String := (row.team, row.principal)

structure State where
  workspaces : List Workspace := []
  members : List WorkspaceMember := []
  tuples : List RelationTuple := []

namespace State

variable (state : State) (team : Id × Id) (principal : String)

def everExisted : Bool := state.workspaces.any fun row => row.key = team

/-- `get` finds it. -/
def live : Bool := state.workspaces.any fun row => row.key = team && !row.deleted

def role : Option MemberRole :=
  (state.members.find? fun row => row.key = (team, principal)).map WorkspaceMember.role

/-- `members` -/
def membersOf : List WorkspaceMember := state.members.filter fun row => row.team = team

def putMember (member : WorkspaceMember) : State × Option MemberRole :=
  ({ state with
      members := insertOrMerge WorkspaceMember.key member
        (fun row => { row with role := member.role }) state.members },
    state.role member.team member.principal)

def removeMember : State :=
  { state with members := state.members.filter fun row => row.key ≠ (team, principal) }

def softDelete : State :=
  { state with
    workspaces := state.workspaces.map fun row =>
      if row.key = team then { row with deleted := true } else row }

end State

/-- What an administrator asks for. -/
inductive Operation where
  /-- threads or documents may carry the identifier already -/
  | createWorkspace (team : Id × Id) (inUse : Bool)
  | setMember (team : Id × Id) (principal : String) (role : MemberRole)
  | removeMember (team : Id × Id) (principal : String)
  | deleteWorkspace (team : Id × Id)

/-- `grant_workspace` -/
def grantWorkspace (team : Id × Id) : TupleWrite where
  added := [⟨"tenant:" ++ team.1.text, "tenant", workspaceObject team.1.text team.2.text⟩]

variable (state : State)

/-- The rows that a unit commits and the writes that it makes on the way, `none` where it is
refused. -/
def work : Operation → Option (State × List TupleWrite)
  | .createWorkspace team inUse =>
    if state.everExisted team || inUse then none
    else
      some ({ state with workspaces := state.workspaces ++ [⟨team.1, team.2, false⟩] },
        [grantWorkspace team])
  | .setMember team principal role =>
    (parsePrincipal principal).bind fun parsed =>
      if role = .admin && parsed.1 ≠ "user" then none
      else if state.live team then
        let put := state.putMember ⟨team.1, team.2, principal, role⟩
        (setWorkspaceMember team.1.text team.2.text principal role put.2).map fun made =>
          (put.1, [made.1])
      else none
  | .removeMember team principal =>
    (parsePrincipal principal).bind fun _ =>
      if state.live team then
        (revokeWorkspaceMember team.1.text team.2.text principal).map fun made =>
          (state.removeMember team principal, [made.1])
      else none
  | .deleteWorkspace team =>
    if state.live team then
      some (state.softDelete team, (state.membersOf team).filterMap fun row =>
        (revokeWorkspaceMember team.1.text team.2.text row.principal).map Prod.fst)
    else if state.everExisted team then some (state, [])
    else none

inductive Ending where
  | commits
  | fails (made : ℕ)

structure UnitOfWork where
  operation : Operation
  ending : Ending := .commits

def written (writes : List TupleWrite) (tuples : List RelationTuple) : List RelationTuple :=
  writes.foldl (fun tuples made => made.apply tuples) tuples

def step (unit : UnitOfWork) : Option State :=
  (work state unit.operation).map fun done =>
    match unit.ending with
    | .commits => { done.1 with tuples := written done.2 state.tuples }
    | .fails made => { state with tuples := written (done.2.take made) state.tuples }

def roleTuple (team : Id × Id) (principal : String) (role : MemberRole) : RelationTuple :=
  ⟨principal, role.text, workspaceObject team.1.text team.2.text⟩

/-- A principal holds on each workspace the role of its row and no other; none where it has no
row, and none where the workspace is deleted. -/
def Agrees : Prop :=
  ∀ team principal role, (parsePrincipal principal).isSome = true →
    (roleTuple team principal role ∈ state.tuples ↔
      state.live team = true ∧ state.role team principal = some role)

def Changeless (tuples : List RelationTuple) (made : TupleWrite) : Prop :=
  (∀ tuple ∈ made.added, tuple.relation ≠ "tenant" → tuple ∈ tuples) ∧
    ∀ tuple ∈ made.deleted, tuple ∉ tuples
deriving Decidable

/-- A unit commits, or what it wrote before it failed changes no tuple. -/
def Kept (unit : UnitOfWork) : Prop :=
  match unit.ending with
  | .commits => True
  | .fails made =>
    ∀ done ∈ work state unit.operation, ∀ one ∈ done.2.take made, Changeless state.tuples one

instance (state : State) (unit : UnitOfWork) : Decidable (Kept state unit) := by
  unfold Kept
  split <;> infer_instance

variable {principal : String} {team other : Id × Id} {made : TupleWrite × String}
  {tuple : RelationTuple} {tuples : List RelationTuple}

theorem memberSubject_eq {found : String × String}
    (isSubject : memberSubject principal = some found) : found.1 = principal := by
  obtain ⟨parsed, isParsed, rfl⟩ := Option.map_eq_some_iff.mp isSubject
  rw [parsePrincipal] at isParsed
  dsimp only at isParsed
  obtain ⟨valid, isParsed⟩ := Option.ite_none_right_eq_some.mp isParsed
  rw [← Option.some.inj isParsed]
  have parts : partition ':' principal =
      ((partition ':' principal).1, true, (partition ':' principal).2.2) := by
    rw [← valid.1]
  exact String.append_assoc.trans (append_of_partition parts)

theorem workspaceObject_injective
    (same : workspaceObject team.1.text team.2.text = workspaceObject other.1.text other.2.text) :
    team = other := by
  rw [workspaceObject, workspaceObject] at same
  have samePath := String.append_right_inj _ |>.mp same
  rw [String.append_assoc, String.append_assoc] at samePath
  obtain ⟨sameTenant, sameWorkspace⟩ := partsEq team.1.slash_free other.1.slash_free samePath
  exact Prod.ext (Id.text_injective sameTenant) (Id.text_injective sameWorkspace)

theorem roleTuple_injective {second : String} {role otherRole : MemberRole}
    (same : roleTuple team principal role = roleTuple other second otherRole) :
    team = other ∧ principal = second ∧ role = otherRole := by
  rw [roleTuple, roleTuple, RelationTuple.mk.injEq] at same
  obtain ⟨sameSubject, sameRelation, sameObject⟩ := same
  exact ⟨workspaceObject_injective sameObject, sameSubject, MemberRole.text_injective sameRelation⟩

section

variable {state next : State} {team other : Id × Id} {principal : String} {role : MemberRole}

theorem set_made {previous : Option MemberRole}
    (isMade : setWorkspaceMember team.1.text team.2.text principal role previous = some made) :
    made.1.added = [roleTuple team principal role] ∧
      made.1.deleted = (previous.toList.filter (· ≠ role)).map (roleTuple team principal) := by
  obtain ⟨found, isSubject, rfl⟩ := Option.map_eq_some_iff.mp isMade
  have subject := memberSubject_eq isSubject
  refine ⟨?_, ?_⟩
  · exact congrArg (fun user => [(⟨user, role.text, _⟩ : RelationTuple)]) subject
  · refine map_congr_left fun held _ => ?_
    exact congrArg (fun user => (⟨user, held.text, _⟩ : RelationTuple)) subject

theorem revoke_made (isMade : revokeWorkspaceMember team.1.text team.2.text principal = some made) :
    made.1.added = [] ∧ made.1.deleted = workspaceRoles.map (roleTuple team principal) := by
  obtain ⟨found, isSubject, rfl⟩ := Option.map_eq_some_iff.mp isMade
  have subject := memberSubject_eq isSubject
  refine ⟨rfl, map_congr_left fun held _ => ?_⟩
  exact congrArg (fun user => (⟨user, held.text, _⟩ : RelationTuple)) subject

theorem revokes {rows : List WorkspaceMember} : ∀ made ∈ rows.filterMap fun row =>
    (revokeWorkspaceMember team.1.text team.2.text row.principal).map Prod.fst,
    made.added = [] ∧ ∃ principal, made.deleted =
      workspaceRoles.map (roleTuple team principal) := by
  intro made isMade
  obtain ⟨row, -, isRevoked⟩ := mem_filterMap.mp isMade
  obtain ⟨one, isOne, rfl⟩ := Option.map_eq_some_iff.mp isRevoked
  obtain ⟨isAdded, isDeleted⟩ := revoke_made isOne
  exact ⟨isAdded, row.principal, isDeleted⟩

theorem revoked_of_principal (isPrincipal : (parsePrincipal principal).isSome = true) :
    ∃ made, revokeWorkspaceMember team.1.text team.2.text principal = some made := by
  obtain ⟨parsed, isParsed⟩ := Option.isSome_iff_exists.mp isPrincipal
  rw [revokeWorkspaceMember, memberSubject, isParsed]
  exact ⟨_, rfl⟩

theorem roleTuple_relation : (roleTuple team principal role).relation ≠ "tenant" := by
  change role.text ≠ "tenant"
  cases role <;> decide

theorem mem_written_of_deletes :
    ∀ {writes : List TupleWrite} {tuples : List RelationTuple},
      (∀ made ∈ writes, made.added = []) →
      (tuple ∈ written writes tuples ↔ tuple ∈ tuples ∧ ∀ made ∈ writes, tuple ∉ made.deleted)
  | [], tuples, _ => by simp [written]
  | made :: rest, tuples, addsNothing => by
    have restAddsNothing : ∀ other ∈ rest, other.added = [] :=
      fun other later => addsNothing other (mem_cons_of_mem made later)
    rw [written, foldl_cons]
    refine (mem_written_of_deletes restAddsNothing).trans ?_
    rw [TupleWrite.mem_apply, addsNothing made mem_cons_self, forall_mem_cons]
    simp [and_assoc]

theorem mem_written_of_changeless {before : List RelationTuple}
    (isRole : tuple.relation ≠ "tenant") :
    ∀ {writes : List TupleWrite} {tuples : List RelationTuple},
      (∀ made ∈ writes, Changeless before made) → (tuple ∈ tuples ↔ tuple ∈ before) →
      (tuple ∈ written writes tuples ↔ tuple ∈ before)
  | [], _, _, same => same
  | made :: rest, tuples, changeless, same => by
    have restChangeless : ∀ one ∈ rest, Changeless before one :=
      fun one later => changeless one (mem_cons_of_mem made later)
    obtain ⟨holds, absent⟩ := changeless made mem_cons_self
    rw [written, foldl_cons]
    refine mem_written_of_changeless isRole restChangeless ?_
    rw [TupleWrite.mem_apply, same]
    constructor
    · rintro (isAdded | ⟨isBefore, -⟩)
      · exact holds tuple isAdded isRole
      · exact isBefore
    · intro isBefore
      exact .inr ⟨isBefore, fun isDeleted => absent tuple isDeleted isBefore⟩

theorem role_putMember (member : WorkspaceMember) :
    (state.putMember member).1.role team principal =
      if member.key = (team, principal) then some member.role else state.role team principal := by
  have keyed : ∀ row : WorkspaceMember,
      WorkspaceMember.key { row with role := member.role } = row.key := fun _ => rfl
  rw [State.role, State.role, State.putMember]
  dsimp only
  rw [find?_insertOrMerge keyed]
  split
  · cases state.members.find? _ <;> rfl
  · rfl

theorem role_removeMember (removed : String) :
    (state.removeMember other removed).role team principal =
      if (other, removed) = (team, principal) then none else state.role team principal := by
  rw [State.role, State.role, State.removeMember]
  dsimp only
  rw [find?_filter]
  split
  case isTrue same =>
    rw [find?_eq_none.mpr, Option.map_none]
    intro row _
    simp [same]
  case isFalse apart =>
    refine congrArg (fun sought => (state.members.find? sought).map WorkspaceMember.role) ?_
    funext row
    by_cases isOwn : row.key = (team, principal)
    · have notRemoved : (team, principal) ≠ (other, removed) := fun same => apart same.symm
      simp [isOwn, notRemoved]
    · simp [isOwn]

theorem live_softDelete :
    (state.softDelete team).live other = true ↔ state.live other = true ∧ other ≠ team := by
  rw [State.live, State.live, State.softDelete, any_map, any_eq_true, any_eq_true]
  constructor
  · rintro ⟨row, member, isLive⟩
    dsimp only [Function.comp] at isLive
    split at isLive
    case isTrue _ => simp at isLive
    case isFalse apart =>
      refine ⟨⟨row, member, isLive⟩, fun same => apart ?_⟩
      rw [← same]
      exact of_decide_eq_true (Bool.and_eq_true_iff.mp isLive).1
  · rintro ⟨⟨row, member, isLive⟩, apart⟩
    refine ⟨row, member, ?_⟩
    have isOwn : row.key = other := of_decide_eq_true (Bool.and_eq_true_iff.mp isLive).1
    dsimp only [Function.comp]
    split
    case isTrue gone => exact absurd (isOwn.symm.trans gone) apart
    case isFalse _ => exact isLive

theorem everExisted_softDelete (existed : state.everExisted other = true) :
    (state.softDelete team).everExisted other = true := by
  obtain ⟨row, stored, isOwn⟩ := any_eq_true.mp existed
  refine any_eq_true.mpr ⟨_, mem_map_of_mem stored, ?_⟩
  split <;> exact isOwn

structure Sound (state : State) : Prop where
  agrees : Agrees state
  teams : ∀ row ∈ state.members, state.everExisted row.team = true

theorem everExisted_of_live (isLive : state.live team = true) :
    state.everExisted team = true := by
  obtain ⟨row, member, found⟩ := any_eq_true.mp isLive
  exact any_eq_true.mpr ⟨row, member, (Bool.and_eq_true_iff.mp found).1⟩

theorem role_none (teams : ∀ row ∈ state.members, state.everExisted row.team = true)
    (isNew : state.everExisted team = false) : state.role team principal = none := by
  rw [State.role, find?_eq_none.mpr, Option.map_none]
  intro row member isOwn
  have exists_ := teams row member
  have sameTeam : row.team = team := congrArg Prod.fst (of_decide_eq_true isOwn)
  rw [sameTeam, isNew] at exists_
  cases exists_

section

variable (sound : Sound state)
include sound

theorem sound_create (isNew : state.everExisted team = false) (tuples : List RelationTuple)
    (isWritten : tuples = written [grantWorkspace team] state.tuples) :
    Sound { state with workspaces := state.workspaces ++ [⟨team.1, team.2, false⟩], tuples } := by
  have live_iff : ∀ other, State.live { state with
      workspaces := state.workspaces ++ [⟨team.1, team.2, false⟩], tuples } other = true ↔
        state.live other = true ∨ team = other := by
    intro other
    rw [State.live, State.live, any_append, Bool.or_eq_true]
    simp [Workspace.key]
  constructor
  · intro other principal role isPrincipal
    have before := sound.agrees other principal role isPrincipal
    rw [live_iff]
    have sameTuple : roleTuple other principal role ∈ tuples ↔
        roleTuple other principal role ∈ state.tuples := by
      rw [isWritten, written, foldl_cons, foldl_nil, TupleWrite.mem_apply]
      have notGrant : roleTuple other principal role ∉ (grantWorkspace team).added := by
        intro isGrant
        exact roleTuple_relation (congrArg RelationTuple.relation (mem_singleton.mp isGrant))
      rw [or_iff_right notGrant]
      exact and_iff_left not_mem_nil
    rw [sameTuple, before]
    constructor
    · rintro ⟨isLive, isRole⟩
      exact ⟨.inl isLive, isRole⟩
    · rintro ⟨isLive | rfl, isRole⟩
      · exact ⟨isLive, isRole⟩
      · have noRow := @role_none state team principal sound.teams isNew
        rw [show state.role team principal = some role from isRole] at noRow
        cases noRow
  · intro row member
    have exists_ := sound.teams row member
    rw [State.everExisted, any_append, Bool.or_eq_true]
    exact .inl exists_

theorem sound_set (isLive : state.live team = true)
    (isMade : setWorkspaceMember team.1.text team.2.text principal role
      (state.role team principal) = some made)
    (isWritten : tuples = written [made.1] state.tuples) :
    Sound { (state.putMember ⟨team.1, team.2, principal, role⟩).1 with tuples } := by
  obtain ⟨isAdded, isDeleted⟩ := set_made isMade
  constructor
  · intro other second held isPrincipal
    have before := sound.agrees other second held isPrincipal
    have after := @role_putMember state other second ⟨team.1, team.2, principal, role⟩
    change _ ↔ state.live other = true ∧ (state.putMember _).1.role other second = some held
    rw [after, isWritten, written, foldl_cons, foldl_nil, TupleWrite.mem_apply, isAdded,
      isDeleted, mem_singleton, before]
    by_cases isOwn : other = team ∧ second = principal
    · obtain ⟨rfl, rfl⟩ := isOwn
      rw [if_pos (show WorkspaceMember.key ⟨other.1, other.2, second, role⟩ = (other, second)
        from rfl), Option.some.injEq]
      by_cases isNew : held = role
      · rw [isNew]
        exact iff_of_true (.inl rfl) ⟨isLive, rfl⟩
      · refine iff_of_false ?_ fun both => isNew both.2.symm
        rintro (same | ⟨⟨-, isRole⟩, kept⟩)
        · exact isNew (roleTuple_injective same).2.2
        · refine kept (mem_map_of_mem (mem_filter.mpr ⟨?_, decide_eq_true isNew⟩))
          rw [isRole]
          exact mem_singleton_self held
    · have apart : ∀ someRole, roleTuple other second held ≠ roleTuple team principal someRole :=
        fun _ same => isOwn ⟨(roleTuple_injective same).1, (roleTuple_injective same).2.1⟩
      have notDeleted : roleTuple other second held ∉
          ((state.role team principal).toList.filter (· ≠ role)).map
            (roleTuple team principal) := by
        intro isThere
        obtain ⟨someRole, -, same⟩ := mem_map.mp isThere
        exact apart someRole same.symm
      have otherKey : ¬WorkspaceMember.key ⟨team.1, team.2, principal, role⟩ = (other, second) := by
        intro same
        exact isOwn ⟨(congrArg Prod.fst same).symm, (congrArg Prod.snd same).symm⟩
      rw [if_neg otherKey, or_iff_right (apart role), and_iff_left notDeleted]
  · intro row member
    rcases mem_insertOrMerge member with rfl | ⟨before, isBefore, rfl | rfl⟩
    · exact everExisted_of_live isLive
    · exact sound.teams row isBefore
    · exact sound.teams before isBefore

theorem sound_remove (isMade : revokeWorkspaceMember team.1.text team.2.text principal = some made)
    (isWritten : tuples = written [made.1] state.tuples) :
    Sound { state.removeMember team principal with tuples } := by
  obtain ⟨isAdded, isDeleted⟩ := revoke_made isMade
  constructor
  · intro other second held isPrincipal
    have before := sound.agrees other second held isPrincipal
    change _ ↔ state.live other = true ∧ (state.removeMember team principal).role other second =
      some held
    rw [role_removeMember, isWritten, written, foldl_cons, foldl_nil,
      TupleWrite.mem_apply, isAdded, isDeleted, or_iff_right not_mem_nil, before]
    by_cases isOwn : (team, principal) = (other, second)
    · obtain ⟨rfl, rfl⟩ := Prod.mk.inj isOwn
      rw [if_pos rfl]
      refine iff_of_false (fun kept => ?_) fun both => by cases both.2
      exact kept.2 (mem_map_of_mem held.mem_workspaceRoles)
    · rw [if_neg isOwn]
      refine and_iff_left fun isThere => isOwn ?_
      obtain ⟨someRole, -, same⟩ := mem_map.mp isThere
      obtain ⟨sameTeam, samePrincipal, -⟩ := roleTuple_injective same
      rw [sameTeam, samePrincipal]
  · intro row member
    exact sound.teams row (mem_filter.mp member).1

theorem sound_delete (isWritten : tuples = written ((state.membersOf team).filterMap fun row =>
      (revokeWorkspaceMember team.1.text team.2.text row.principal).map Prod.fst) state.tuples) :
    Sound { state.softDelete team with tuples } := by
  constructor
  · intro other second held isPrincipal
    have before := sound.agrees other second held isPrincipal
    change _ ↔ (state.softDelete team).live other = true ∧ state.role other second = some held
    rw [live_softDelete, isWritten,
      mem_written_of_deletes fun made isMade => (revokes made isMade).1, before]
    by_cases isOwn : other = team
    · subst isOwn
      refine iff_of_false ?_ fun both => both.1.2 rfl
      rintro ⟨⟨-, isRole⟩, kept⟩
      obtain ⟨row, isFound, -⟩ := Option.map_eq_some_iff.mp isRole
      have isKey : row.key = (other, second) := by simpa using find?_some isFound
      have isMember : row ∈ state.membersOf other :=
        mem_filter.mpr ⟨mem_of_find?_eq_some isFound, decide_eq_true (congrArg Prod.fst isKey)⟩
      obtain ⟨made, isMade⟩ := @revoked_of_principal other row.principal (by
        rw [show row.principal = second from congrArg Prod.snd isKey]
        exact isPrincipal)
      refine kept made.1 (mem_filterMap.mpr ⟨row, isMember, by rw [isMade]; rfl⟩) ?_
      rw [(revoke_made isMade).2, show row.principal = second from congrArg Prod.snd isKey]
      exact mem_map_of_mem held.mem_workspaceRoles
    · have notDeleted : ∀ made ∈ (state.membersOf team).filterMap fun row =>
          (revokeWorkspaceMember team.1.text team.2.text row.principal).map Prod.fst,
          roleTuple other second held ∉ made.deleted := by
        intro made isMade isThere
        obtain ⟨-, principal, isDeleted⟩ := revokes made isMade
        rw [isDeleted] at isThere
        obtain ⟨someRole, -, same⟩ := mem_map.mp isThere
        exact isOwn (roleTuple_injective same).1.symm
      rw [and_iff_left notDeleted, and_iff_left isOwn]
  · intro row member
    exact everExisted_softDelete (sound.teams row member)

theorem sound_fails {writes : List TupleWrite}
    (changeless : ∀ made ∈ writes, Changeless state.tuples made)
    (isWritten : tuples = written writes state.tuples) : Sound { state with tuples } := by
  refine ⟨?_, sound.teams⟩
  intro other second held isPrincipal
  rw [isWritten]
  exact (mem_written_of_changeless roleTuple_relation changeless Iff.rfl).trans
    (sound.agrees other second held isPrincipal)

end

theorem work_cases {operation : Operation} {done : State × List TupleWrite}
    (isDone : work state operation = some done) :
    (∃ team, state.everExisted team = false ∧
        done = ({ state with workspaces := state.workspaces ++ [⟨team.1, team.2, false⟩] },
          [grantWorkspace team])) ∨
      (∃ team principal role made, state.live team = true ∧
        setWorkspaceMember team.1.text team.2.text principal role (state.role team principal) =
          some made ∧
        done = ((state.putMember ⟨team.1, team.2, principal, role⟩).1, [made.1])) ∨
      (∃ team principal made, state.live team = true ∧
        revokeWorkspaceMember team.1.text team.2.text principal = some made ∧
        done = (state.removeMember team principal, [made.1])) ∨
      (∃ team, done = (state.softDelete team, (state.membersOf team).filterMap fun row =>
        (revokeWorkspaceMember team.1.text team.2.text row.principal).map Prod.fst)) ∨
      done = (state, []) := by
  cases operation with
  | createWorkspace team inUse =>
    rw [work] at isDone
    obtain ⟨allowed, isDone⟩ := Option.ite_none_left_eq_some.mp isDone
    cases isDone
    refine .inl ⟨team, Bool.eq_false_iff.mpr fun existed => allowed ?_, rfl⟩
    exact Bool.or_eq_true_iff.mpr (.inl existed)
  | setMember team principal role =>
    obtain ⟨parsed, -, isDone⟩ := Option.bind_eq_some_iff.mp isDone
    obtain ⟨-, isDone⟩ := Option.ite_none_left_eq_some.mp isDone
    obtain ⟨isLive, isDone⟩ := Option.ite_none_right_eq_some.mp isDone
    obtain ⟨made, isMade, rfl⟩ := Option.map_eq_some_iff.mp isDone
    exact .inr (.inl ⟨team, principal, role, made, isLive, isMade, rfl⟩)
  | removeMember team principal =>
    obtain ⟨parsed, -, isDone⟩ := Option.bind_eq_some_iff.mp isDone
    obtain ⟨isLive, isDone⟩ := Option.ite_none_right_eq_some.mp isDone
    obtain ⟨made, isMade, rfl⟩ := Option.map_eq_some_iff.mp isDone
    exact .inr (.inr (.inl ⟨team, principal, made, isLive, isMade, rfl⟩))
  | deleteWorkspace team =>
    rw [work] at isDone
    split at isDone
    case isTrue _ =>
      cases isDone
      exact .inr (.inr (.inr (.inl ⟨team, rfl⟩)))
    case isFalse _ =>
      split at isDone <;> cases isDone
      exact .inr (.inr (.inr (.inr rfl)))

theorem sound_step {unit : UnitOfWork} (stepped : step state unit = some next)
    (kept : Kept state unit) (sound : Sound state) : Sound next := by
  obtain ⟨operation, ending⟩ := unit
  obtain ⟨done, isDone, rfl⟩ := Option.map_eq_some_iff.mp stepped
  cases ending with
  | fails made => exact sound_fails sound (kept done isDone) rfl
  | commits =>
    rcases work_cases isDone with ⟨team, isNew, rfl⟩ | ⟨team, principal, role, made, isLive,
      isMade, rfl⟩ | ⟨team, principal, made, -, isMade, rfl⟩ | ⟨team, rfl⟩ | rfl
    · exact sound_create sound isNew _ rfl
    · exact sound_set sound isLive isMade rfl
    · exact sound_remove sound isMade rfl
    · exact sound_delete sound rfl
    · exact sound

/-- In every run whose units all commit, or fail without having changed a role, rows and tuples
agree. -/
theorem roles_agree_along {units : List UnitOfWork} (reached : run step {} units = some state)
    (kept : Meets step Kept {} units) : Agrees state := by
  have start : Sound {} := by
    refine ⟨fun team principal role _ => ?_, fun row member => by cases member⟩
    refine iff_of_false not_mem_nil fun both => ?_
    cases both.1
  have sound : Sound state :=
    run_invariant_of_meets (fun stepped kept sound => sound_step stepped kept sound) reached kept
      start
  exact sound.agrees

/-- Deleted, and with no grant that was not there before. -/
structure StaysDeleted (team : Id × Id) (before state : State) : Prop where
  existed : state.everExisted team = true
  gone : ¬state.live team = true
  grants : ∀ tuple ∈ state.tuples, tuple.object = workspaceObject team.1.text team.2.text →
    tuple ∈ before.tuples

theorem mem_of_written {object : String} {writes : List TupleWrite}
    (notOn : ∀ made ∈ writes, ∀ tuple ∈ made.added, tuple.object ≠ object)
    (stored : tuple ∈ written writes tuples) (isOn : tuple.object = object) : tuple ∈ tuples := by
  induction writes generalizing tuples with
  | nil => exact stored
  | cons made rest ih =>
    rw [forall_mem_cons] at notOn
    rcases TupleWrite.mem_apply.mp (ih notOn.2 stored) with isAdded | ⟨isOld, -⟩
    · exact absurd isOn (notOn.1 tuple isAdded)
    · exact isOld

theorem StaysDeleted.step {before : State} {unit : UnitOfWork}
    (stepped : step state unit = some next) (deleted : StaysDeleted team before state) :
    StaysDeleted team before next := by
  obtain ⟨operation, ending⟩ := unit
  obtain ⟨done, isDone, rfl⟩ := Option.map_eq_some_iff.mp stepped
  obtain ⟨existed, gone, grants⟩ := deleted
  obtain ⟨stillExisted, stillGone, notOn⟩ : done.1.everExisted team = true ∧
      ¬done.1.live team = true ∧ ∀ made ∈ done.2, ∀ tuple ∈ made.added,
        tuple.object ≠ workspaceObject team.1.text team.2.text := by
    rcases work_cases isDone with ⟨other, isNew, rfl⟩ | ⟨other, principal, role, made, isLive,
      isMade, rfl⟩ | ⟨other, principal, made, -, isMade, rfl⟩ | ⟨other, rfl⟩ | rfl
    · have apart : other ≠ team := fun same => by simp [← same, isNew] at existed
      refine ⟨any_append.trans (Bool.or_eq_true_iff.mpr (.inl existed)), fun isLive => ?_, ?_⟩
      · rcases Bool.or_eq_true_iff.mp (any_append.symm.trans isLive) with isOld | isOther
        · exact gone isOld
        · simp [Workspace.key, apart] at isOther
      · simpa [grantWorkspace] using fun same => apart (workspaceObject_injective same)
    · refine ⟨existed, gone, ?_⟩
      simp only [mem_singleton, forall_eq, (set_made isMade).1]
      exact fun same => gone (workspaceObject_injective same ▸ isLive)
    · exact ⟨existed, gone, by simp [(revoke_made isMade).1]⟩
    · refine ⟨everExisted_softDelete existed, fun isLive => gone (live_softDelete.mp isLive).1,
        fun made isMade => ?_⟩
      simp [(revokes made isMade).1]
    · exact ⟨existed, gone, by simp⟩
  cases ending with
  | commits =>
    exact ⟨stillExisted, stillGone, fun tuple stored isOn =>
      grants tuple (mem_of_written notOn stored isOn) isOn⟩
  | fails made =>
    refine ⟨existed, gone, fun tuple stored isOn =>
      grants tuple (mem_of_written ?_ stored isOn) isOn⟩
    exact fun one among => notOn one (mem_of_mem_take among)

/-- Whatever commits or fails, a deleted workspace is not there again, not even under a new one
with its identifier, and nothing more is granted on it. -/
theorem deleted_stays {units : List UnitOfWork} (reached : run step state units = some next)
    (existed : state.everExisted team = true) (gone : ¬state.live team = true) :
    StaysDeleted team state next :=
  run_invariant StaysDeleted.step reached ⟨existed, gone, fun _ stored _ => stored⟩

end

def osprey : Id := ⟨"osprey", by decide⟩

def buying : Id × Id := (osprey, ⟨"buying", by decide⟩)

def invited : List UnitOfWork :=
  [⟨.createWorkspace buying false, .commits⟩, ⟨.setMember buying "user:iris" .viewer, .commits⟩,
    -- the role is set again to what it is, and nothing is lost when that fails
    ⟨.setMember buying "user:iris" .viewer, .fails 1⟩]

theorem roles_agree_along_invited : ∃ state, run step {} invited = some state ∧ Agrees state :=
  exists_run (by decide +kernel) fun _ reached => roles_agree_along reached (by decide +kernel)

def closed : State where
  workspaces := [⟨buying.1, buying.2, true⟩]

theorem closed_stays_deleted : ∃ next,
    run step closed [⟨.createWorkspace (osprey, osprey) false, .commits⟩] = some next ∧
      StaysDeleted buying closed next := by
  obtain ⟨next, reached⟩ := Option.isSome_iff_exists.mp
    (show (run step closed [⟨.createWorkspace (osprey, osprey) false, .commits⟩]).isSome from rfl)
  exact ⟨next, reached, deleted_stays reached (by decide) (by decide)⟩

/-- She is made an administrator by a unit that fails, and then a viewer by one that commits: the
row tells of a viewer, and she holds both roles. -/
theorem administrator_left_behind :
    ((run step {} (invited.take 2 ++ [⟨.setMember buying "user:iris" .admin, .fails 1⟩,
        ⟨.setMember buying "user:iris" .viewer, .commits⟩])).map fun state =>
          (state.role buying "user:iris",
            workspaceRoles.filter fun role => roleTuple buying "user:iris" role ∈ state.tuples)) =
      some (some .viewer, [.admin, .viewer]) := by
  decide +kernel

end MemoryService.Tenancy.Memberships
