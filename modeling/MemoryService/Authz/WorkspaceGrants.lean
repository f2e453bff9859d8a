import MemoryService.Domain.Context

/-!
# Grants on a workspace

A principal holds a role on a workspace by a tuple in the relationship store.  A write adds
some tuples and deletes some; it is not part of the unit of work that makes it.
-/

namespace MemoryService.Authz

open Domain

structure RelationTuple where
  user : String
  relation : String
  object : String
  deriving DecidableEq

structure TupleWrite where
  added : List RelationTuple := []
  deleted : List RelationTuple := []

def TupleWrite.apply (made : TupleWrite) (tuples : List RelationTuple) : List RelationTuple :=
  (tuples.filter fun tuple => made.deleted.all (tuple ≠ ·)) ++ made.added

/-- `_member_subject`. -/
def memberSubject (principal : String) : Option (String × String) :=
  (parsePrincipal principal).map fun (kind, ident) => (kind ++ ":" ++ ident, ident)

def workspaceObject (tenantId workspaceId : String) : String :=
  "workspace:" ++ (tenantId ++ "/" ++ workspaceId)

/-- `set_workspace_member`, with the identifier whose counter it moves. -/
def setWorkspaceMember (tenantId workspaceId principal : String) (role : MemberRole)
    (previous : Option MemberRole) : Option (TupleWrite × String) :=
  (memberSubject principal).map fun (subject, ident) =>
    let held (role : MemberRole) : RelationTuple :=
      ⟨subject, role.text, workspaceObject tenantId workspaceId⟩
    ({ added := [held role]
       deleted := (previous.toList.filter (· ≠ role)).map held }, ident)

/-- `revoke_workspace_member`. -/
def revokeWorkspaceMember (tenantId workspaceId principal : String) :
    Option (TupleWrite × String) :=
  (memberSubject principal).map fun (subject, ident) =>
    ({ deleted := workspaceRoles.map fun role =>
        ⟨subject, role.text, workspaceObject tenantId workspaceId⟩ }, ident)

theorem TupleWrite.mem_apply {made : TupleWrite} {tuples : List RelationTuple}
    {tuple : RelationTuple} :
    tuple ∈ made.apply tuples ↔ tuple ∈ made.added ∨ (tuple ∈ tuples ∧ tuple ∉ made.deleted) := by
  rw [TupleWrite.apply, List.mem_append, List.mem_filter, or_comm]
  refine or_congr_right (and_congr_right fun _ => ?_)
  rw [List.all_eq_true]
  constructor
  · intro apart isDeleted
    exact absurd rfl (of_decide_eq_true (apart tuple isDeleted))
  · intro notDeleted gone isDeleted
    exact decide_eq_true fun same => notDeleted (same ▸ isDeleted)

end MemoryService.Authz
