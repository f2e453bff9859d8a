import MemoryService.Authz.WorkspaceGrants
import MemoryService.Foundation.Dict
import MemoryService.Foundation.Least
import MemoryService.Foundation.Reach
import Mathlib.Data.List.ProdSigma
import Mathlib.Order.FixedPoints
import Mathlib.Order.CompletePartialOrder

/-!
# The reference authorization provider

A tuple gives a user a relation on an object.
-/

namespace MemoryService.Authz.Reference

open Foundation List

structure Relation where
  direct : List String := []
  computed : List String := []
  /-- the relation that names the other objects, and the one that is asked of them -/
  ttu : List (String × String) := []

structure TypeDef where
  relations : Dict String Relation := ∅

abbrev Model := Dict String TypeDef

def relations (entries : List (String × Relation)) : TypeDef := { relations := .ofList entries }

def authorizationModel : Model := .ofList
  [("user", {}),
    ("agent", relations [("operator", { direct := ["user"] })]),
    ("tenant", relations
      [("admin", { direct := ["user"] }),
        ("member", { direct := ["user"], computed := ["admin"] })]),
    ("workspace", relations
      [("tenant", { direct := ["tenant"] }),
        ("admin", { direct := ["user"], ttu := [("tenant", "admin")] }),
        ("member", { direct := ["user", "agent"], computed := ["admin"] }),
        ("viewer", { direct := ["user", "agent"], computed := ["member"] })]),
    ("thread", relations
      [("tenant", { direct := ["tenant"] }),
        ("workspace", { direct := ["workspace"] }),
        ("owner", { direct := ["user"] }),
        ("participant", { direct := ["user", "agent"] }),
        ("viewer",
          { direct := ["user"], computed := ["owner", "participant"]
            ttu := [("workspace", "admin")] }),
        ("can_read", { computed := ["viewer"], ttu := [("tenant", "admin")] }),
        ("can_write", { computed := ["owner", "participant"], ttu := [("workspace", "admin")] })]),
    ("document", relations
      [("tenant", { direct := ["tenant"] }),
        ("workspace", { direct := ["workspace"] }),
        ("thread", { direct := ["thread"] }),
        ("owner", { direct := ["user"] }),
        ("viewer", { direct := ["user", "agent"] }),
        ("can_read",
          { computed := ["owner", "viewer"]
            ttu := [("thread", "can_read"), ("workspace", "viewer"), ("tenant", "admin")] }),
        ("can_write", { computed := ["owner"], ttu := [("workspace", "admin")] })]),
    ("memory", relations
      [("tenant", { direct := ["tenant"] }),
        ("owner", { direct := ["user", "agent"] }),
        ("viewer", { direct := ["user", "agent"] }),
        ("can_read", { computed := ["owner", "viewer"], ttu := [("tenant", "admin")] }),
        ("can_delete", { computed := ["owner"], ttu := [("tenant", "admin")] })])]

structure MemoryAuthorizationProvider where
  model : Model
  /-- the users of an object and a relation -/
  tuples : Dict String (Dict String (List String)) := ∅
  objectsByType : Dict String (List String) := ∅
  maxListedObjects : ℕ := 2000
  available : Bool := true

/-- `model or MODEL`: a model without types is none. -/
def MemoryAuthorizationProvider.init (model : Model) (maxListedObjects : ℕ) :
    MemoryAuthorizationProvider :=
  { model := if model.items = [] then authorizationModel else model, maxListedObjects }

/-- `_split(obj)[0]` -/
def typeOf (obj : String) : String := (partition ':' obj).1

inductive Invalid where
  | unknownType (object : String)
  | unknownRelation (relation objType : String)
  | notAssignable (userRef relation objType : String) (allowed : List String)

def Invalid.message : Invalid → String
  | .unknownType object => "unknown object type in tuple: " ++ object
  | .unknownRelation relation objType => "unknown relation " ++ relation ++ " on " ++ objType
  | .notAssignable userRef relation objType allowed =>
    userRef ++ " may not be directly assigned " ++ relation ++ " on " ++ objType ++
      "; allowed: (" ++ ", ".intercalate (allowed.map fun name => "'" ++ name ++ "'") ++
        if allowed.length = 1 then ",)" else ")"

def userRef (user : String) : String :=
  let userType := (partition ':' user).1
  match partition '#' user with
  | (_, true, relation) => userType ++ "#" ++ relation
  | (_, false, _) => userType

namespace MemoryAuthorizationProvider

variable (p : MemoryAuthorizationProvider) (obj relation : String)

/-- `self._tuples.get(obj, {}).get(relation, set())` -/
def users : List String := ((p.tuples.get? obj).bind fun rels => rels.get? relation).getD []

def objects (objectType : String) : List String := p.objectsByType.values objectType

def relationOf : Option Relation :=
  (p.model.get? (typeOf obj)).bind fun typeDef => typeDef.relations.get? relation

def withUsers (users : List String) : MemoryAuthorizationProvider :=
  { p with tuples := p.tuples.set obj (((p.tuples.get? obj).getD ∅).set relation users) }

variable (t : RelationTuple)

def discard : MemoryAuthorizationProvider :=
  p.withUsers t.object t.relation ((p.users t.object t.relation).filter (· ≠ t.user))

/-- A set with one element more. -/
def inserted (held : List String) (item : String) : List String :=
  if item ∈ held then held else held ++ [item]

def add : MemoryAuthorizationProvider :=
  { p.withUsers t.object t.relation (inserted (p.users t.object t.relation) t.user) with
    objectsByType :=
      p.objectsByType.set (typeOf t.object)
        (inserted (p.objects (typeOf t.object)) t.object) }

/-- `_validate`; none where it raises nothing. -/
def validate : Option Invalid :=
  match p.model.get? (typeOf t.object) with
  | none => some (.unknownType t.object)
  | some typeDef =>
    match typeDef.relations.get? t.relation with
    | none => some (.unknownRelation t.relation (typeOf t.object))
    | some rel =>
      if userRef t.user ∈ rel.direct then none
      else some (.notAssignable (userRef t.user) t.relation (typeOf t.object) rel.direct)

def addAll (p : MemoryAuthorizationProvider) :
    List RelationTuple → MemoryAuthorizationProvider × Option Invalid
  | [] => (p, none)
  | t :: rest =>
    match p.validate t with
    | some invalid => (p, some invalid)
    | none => addAll (p.add t) rest

/-- The provider after `write`, and what was raised. -/
def write (added deleted : List RelationTuple) : MemoryAuthorizationProvider × Option Invalid :=
  (deleted.foldl discard p).addAll added

end MemoryAuthorizationProvider

/-- A relation and an object. -/
abbrev Goal := String × String

def usersets (users : List String) : List Goal :=
  users.filterMap fun member =>
    match partition '#' member with
    | (usersetObj, true, usersetRel) => some (usersetRel, usersetObj)
    | (_, false, _) => none

namespace MemoryAuthorizationProvider

variable (p : MemoryAuthorizationProvider)

def rewritten (rel : Relation) (relation obj : String) : List Goal :=
  usersets (p.users obj relation) ++ rel.computed.map (fun other => (other, obj)) ++
    rel.ttu.flatMap fun (tuplesetRel, targetRel) =>
      (p.users obj tuplesetRel).map fun target => (targetRel, target)

/-- `_check`, nested no deeper than the bound; none where it is. -/
def checkWithin (user : String) : ℕ → List Goal → Goal → Option Bool
  | 0, _, _ => none
  | depth + 1, visited, (relation, obj) =>
    if visited.contains (relation, obj) then some false
    else
      match p.relationOf obj relation with
      | none => some false
      | some rel =>
        if user ∈ p.users obj relation then some true
        else
          anyOf (checkWithin user depth ((relation, obj) :: visited))
            (p.rewritten rel relation obj)

def allUsers : List String := p.tuples.items.flatMap fun (_, rels) => rels.items.flatMap Prod.snd

def allRelations : List Relation :=
  p.model.items.flatMap fun (_, typeDef) => typeDef.relations.items.map Prod.snd

def goals (start : Goal) : List Goal :=
  (start.1 :: (p.allRelations.flatMap fun rel => rel.computed ++ rel.ttu.map Prod.snd) ++
      (usersets p.allUsers).map Prod.fst) ×ˢ
    (start.2 :: p.allUsers ++ (usersets p.allUsers).map Prod.snd)

/-- `_check`, from no goal visited. -/
def check (user relation obj : String) : Bool :=
  (p.checkWithin user ((p.goals (relation, obj)).length + 1) [] (relation, obj)).getD false

def listObjects (user relation objectType : String) : Except String (List String) :=
  if p.available then
    .ok (((ordered (p.objects objectType)).filter fun obj => p.check user relation obj).take
      (p.maxListedObjects + 1))
  else .error "simulated authorization outage"

def after (p : MemoryAuthorizationProvider)
    (writes : List (List RelationTuple × List RelationTuple)) : MemoryAuthorizationProvider :=
  writes.foldl (fun p (added, deleted) => (p.write added deleted).1) p

end MemoryAuthorizationProvider

section Derivations

variable (p : MemoryAuthorizationProvider) (user : String)

inductive Derivable : Goal → Prop
  | direct {relation obj : String} {rel : Relation} :
      p.relationOf obj relation = some rel → user ∈ p.users obj relation → Derivable (relation, obj)
  | userset {relation obj member usersetObj usersetRel : String} {rel : Relation} :
      p.relationOf obj relation = some rel → member ∈ p.users obj relation →
        partition '#' member = (usersetObj, true, usersetRel) →
          Derivable (usersetRel, usersetObj) → Derivable (relation, obj)
  | computed {relation obj other : String} {rel : Relation} :
      p.relationOf obj relation = some rel → other ∈ rel.computed → Derivable (other, obj) →
        Derivable (relation, obj)
  | tupleToUserset {relation obj tuplesetRel targetRel target : String} {rel : Relation} :
      p.relationOf obj relation = some rel → (tuplesetRel, targetRel) ∈ rel.ttu →
        target ∈ p.users obj tuplesetRel → Derivable (targetRel, target) → Derivable (relation, obj)

def rewrites : Set Goal →o Set Goal where
  toFun held := fun (relation, obj) => ∃ rel, p.relationOf obj relation = some rel ∧
    (user ∈ p.users obj relation ∨ ∃ goal ∈ p.rewritten rel relation obj, goal ∈ held)
  monotone' := by
    intro held more fewer goal isLed
    obtain ⟨rel, isRelation, isDirect | ⟨later, isNext, isHeld⟩⟩ := isLed
    · exact ⟨rel, isRelation, .inl isDirect⟩
    · exact ⟨rel, isRelation, .inr ⟨later, isNext, fewer isHeld⟩⟩

def next (goal : Goal) : List Goal :=
  (p.relationOf goal.2 goal.1).elim [] fun rel => p.rewritten rel goal.1 goal.2

def holds (goal : Goal) : Bool :=
  (p.relationOf goal.2 goal.1).any fun _ => user ∈ p.users goal.2 goal.1

variable {p user} {relation obj : String} {rel : Relation} {goal later : Goal}

theorem mem_usersets {users : List String} :
    later ∈ usersets users ↔ ∃ member ∈ users, partition '#' member = (later.2, true, later.1) := by
  rw [usersets, mem_filterMap]
  constructor
  · intro ⟨member, isMember, isUserset⟩
    refine ⟨member, isMember, ?_⟩
    split at isUserset
    case h_1 parts =>
      cases isUserset
      exact parts
    case h_2 => cases isUserset
  · intro ⟨member, isMember, parts⟩
    refine ⟨member, isMember, ?_⟩
    rw [parts]

theorem mem_rewritten :
    later ∈ p.rewritten rel relation obj ↔
      (∃ member ∈ p.users obj relation, partition '#' member = (later.2, true, later.1)) ∨
        (later.1 ∈ rel.computed ∧ later.2 = obj) ∨
          ∃ tuplesetRel, (tuplesetRel, later.1) ∈ rel.ttu ∧ later.2 ∈ p.users obj tuplesetRel := by
  obtain ⟨other, target⟩ := later
  simp only [MemoryAuthorizationProvider.rewritten, mem_append, mem_usersets, mem_map,
    mem_flatMap, Prod.mk.injEq, Prod.exists, or_assoc]
  refine or_congr_right (or_congr ?_ ?_)
  · constructor
    · rintro ⟨name, isComputed, rfl, rfl⟩
      exact ⟨isComputed, rfl⟩
    · intro ⟨isComputed, same⟩
      exact ⟨other, isComputed, rfl, same.symm⟩
  · constructor
    · rintro ⟨tuplesetRel, targetRel, isRewrite, name, isUser, rfl, rfl⟩
      exact ⟨tuplesetRel, isRewrite, isUser⟩
    · intro ⟨tuplesetRel, isRewrite, isUser⟩
      exact ⟨tuplesetRel, other, isRewrite, target, isUser, rfl, rfl⟩

theorem Derivable.of_next (isRelation : p.relationOf obj relation = some rel)
    (isNext : later ∈ p.rewritten rel relation obj) (derivable : Derivable p user later) :
    Derivable p user (relation, obj) := by
  rcases mem_rewritten.mp isNext with ⟨member, isMember, parts⟩ | ⟨isComputed, sameObj⟩ |
    ⟨tuplesetRel, isRewrite, isUser⟩
  · exact .userset isRelation isMember parts derivable
  · exact .computed isRelation isComputed (sameObj ▸ derivable)
  · exact .tupleToUserset isRelation isRewrite isUser derivable

theorem derivable_eq_lfp : {goal | Derivable p user goal} = (rewrites p user).lfp := by
  apply le_antisymm
  · intro goal derivable
    have isFixed := (rewrites p user).map_lfp
    induction derivable with
    | direct isRelation isUser =>
      rw [← isFixed]
      exact ⟨_, isRelation, .inl isUser⟩
    | userset isRelation isMember parts _ ih =>
      rw [← isFixed]
      exact ⟨_, isRelation, .inr ⟨_, mem_rewritten.mpr (.inl ⟨_, isMember, parts⟩), ih⟩⟩
    | computed isRelation isComputed _ ih =>
      rw [← isFixed]
      exact ⟨_, isRelation, .inr ⟨_, mem_rewritten.mpr (.inr (.inl ⟨isComputed, rfl⟩)), ih⟩⟩
    | tupleToUserset isRelation isRewrite isUser _ ih =>
      rw [← isFixed]
      exact ⟨_, isRelation, .inr ⟨_, mem_rewritten.mpr (.inr (.inr ⟨_, isRewrite, isUser⟩)), ih⟩⟩
  · apply OrderHom.lfp_le
    intro goal isLed
    obtain ⟨rel, isRelation, isDirect | ⟨later, isNext, derivable⟩⟩ := isLed
    · exact .direct isRelation isDirect
    · exact .of_next isRelation isNext derivable

theorem mem_next :
    later ∈ next p goal ↔
      ∃ rel, p.relationOf goal.2 goal.1 = some rel ∧ later ∈ p.rewritten rel goal.1 goal.2 := by
  rw [next]
  cases p.relationOf goal.2 goal.1 <;> simp

theorem holds_iff :
    holds p user goal = true ↔
      ∃ rel, p.relationOf goal.2 goal.1 = some rel ∧ user ∈ p.users goal.2 goal.1 := by
  rw [holds]
  cases p.relationOf goal.2 goal.1 <;> simp

theorem leads_iff_derivable : Leads (next p) (holds p user) [] goal ↔ Derivable p user goal := by
  constructor
  · intro leads
    induction leads with
    | goal _ isEnd =>
      obtain ⟨rel, isRelation, isUser⟩ := holds_iff.mp isEnd
      exact .direct isRelation isUser
    | step _ isNext _ ih =>
      obtain ⟨rel, isRelation, isRewritten⟩ := mem_next.mp isNext
      exact .of_next isRelation isRewritten ih
  · intro derivable
    have step : ∀ {goal later : Goal} {rel : Relation}, p.relationOf goal.2 goal.1 = some rel →
        later ∈ p.rewritten rel goal.1 goal.2 → Leads (next p) (holds p user) [] later →
          Leads (next p) (holds p user) [] goal :=
      fun isRelation isNext leads => .step not_mem_nil (mem_next.mpr ⟨_, isRelation, isNext⟩) leads
    induction derivable with
    | direct isRelation isUser =>
      exact .goal not_mem_nil (holds_iff.mpr ⟨_, isRelation, isUser⟩)
    | userset isRelation isMember parts _ ih =>
      exact step isRelation (mem_rewritten.mpr (.inl ⟨_, isMember, parts⟩)) ih
    | @computed relation obj other rel isRelation isComputed _ ih =>
      have isNext : (other, obj) ∈ p.rewritten rel relation obj :=
        mem_rewritten.mpr (.inr (.inl ⟨isComputed, rfl⟩))
      exact step isRelation isNext ih
    | tupleToUserset isRelation isRewrite isUser _ ih =>
      exact step isRelation (mem_rewritten.mpr (.inr (.inr ⟨_, isRewrite, isUser⟩))) ih

end Derivations

variable {obj relation objectType : String} {depth : ℕ} {goal : Goal}

section Checks

variable {p : MemoryAuthorizationProvider} {user : String} {goal : Goal}

theorem checkWithin_eq (depth : ℕ) (visited : List Goal) :
    p.checkWithin user depth visited goal = visit (next p) (holds p user) depth visited goal := by
  induction depth generalizing visited goal with
  | zero => rfl
  | succ depth ih =>
    obtain ⟨relation, obj⟩ := goal
    rw [MemoryAuthorizationProvider.checkWithin, visit, holds, next]
    cases p.relationOf obj relation with
    | none => simp [anyOf]
    | some rel =>
      simp only [Option.any_some, decide_eq_true_eq, Option.elim_some, contains_iff_mem]
      rw [anyOf_congr fun later _ =>
        show _ = visit (next p) (holds p user) depth ((relation, obj) :: visited) later from
          ih _]

theorem allUsers_of_users {member : String} (isUser : member ∈ p.users obj relation) :
    member ∈ p.allUsers := by
  rw [MemoryAuthorizationProvider.users] at isUser
  cases isObject : p.tuples.get? obj with
  | none => simp [isObject] at isUser
  | some rels =>
    rw [isObject, Option.bind_some] at isUser
    cases isRelation : rels.get? relation with
    | none => simp [isRelation] at isUser
    | some users =>
      rw [isRelation, Option.getD_some] at isUser
      exact mem_flatMap.mpr ⟨(obj, rels), Dict.get?_eq_some_iff.mp isObject,
        mem_flatMap.mpr ⟨(relation, users), Dict.get?_eq_some_iff.mp isRelation, isUser⟩⟩

theorem allRelations_of_relationOf {rel : Relation}
    (isRelation : p.relationOf obj relation = some rel) : rel ∈ p.allRelations := by
  obtain ⟨typeDef, isType, isHeld⟩ := Option.bind_eq_some_iff.mp isRelation
  exact mem_flatMap.mpr ⟨(_, typeDef), Dict.get?_eq_some_iff.mp isType,
    mem_map.mpr ⟨(relation, rel), Dict.get?_eq_some_iff.mp isHeld, rfl⟩⟩

theorem goals_closed (start : Goal) : ∀ goal ∈ p.goals start, next p goal ⊆ p.goals start := by
  intro goal isGoal later isNext
  obtain ⟨rel, isRelation, isRewritten⟩ := mem_next.mp isNext
  have isHeld := allRelations_of_relationOf isRelation
  have inside := mem_product.mp isGoal
  apply mem_product.mpr
  rcases mem_rewritten.mp isRewritten with ⟨member, isMember, parts⟩ | ⟨isComputed, sameObj⟩ |
    ⟨tuplesetRel, isRewrite, isUser⟩
  · have isUserset : later ∈ usersets p.allUsers :=
      mem_usersets.mpr ⟨member, allUsers_of_users isMember, parts⟩
    exact ⟨mem_append_right _ (mem_map_of_mem isUserset),
      mem_append_right _ (mem_map_of_mem isUserset)⟩
  · refine ⟨mem_append_left _ (mem_cons_of_mem _ ?_), sameObj ▸ inside.2⟩
    exact mem_flatMap.mpr ⟨rel, isHeld, mem_append_left _ isComputed⟩
  · refine ⟨mem_append_left _ (mem_cons_of_mem _ ?_),
      mem_append_left _ (mem_cons_of_mem _ (allUsers_of_users isUser))⟩
    exact mem_flatMap.mpr ⟨rel, isHeld, mem_append_right _ (mem_map_of_mem isRewrite)⟩

theorem mem_goals (start : Goal) : start ∈ p.goals start :=
  mem_product.mpr ⟨mem_append_left _ mem_cons_self, mem_append_left _ mem_cons_self⟩

theorem checkWithin_answers (user : String) (enough : (p.goals goal).length < depth) :
    ∃ found, p.checkWithin user depth [] goal = some found ∧
      (found = true ↔ Derivable p user goal) := by
  have answers : (visit (next p) (holds p user) depth [] goal).isSome :=
    visit_isSome (goals_closed goal) nodup_nil (nil_subset _) (mem_goals goal)
      (by simpa using enough)
  obtain ⟨found, isFound⟩ := Option.isSome_iff_exists.mp answers
  refine ⟨found, (checkWithin_eq depth []).trans isFound, ?_⟩
  rw [visit_eq_some isFound, leads_iff_derivable]

theorem check_iff (user relation obj : String) :
    p.check user relation obj = true ↔ Derivable p user (relation, obj) := by
  obtain ⟨found, isFound, isAnswer⟩ :=
    checkWithin_answers user (Nat.lt_succ_self (p.goals (relation, obj)).length)
  rw [MemoryAuthorizationProvider.check, isFound, Option.getD_some]
  exact isAnswer

theorem checkWithin_eq_check (enough : (p.goals (relation, obj)).length < depth) :
    p.checkWithin user depth [] (relation, obj) = some (p.check user relation obj) := by
  obtain ⟨found, isFound, isAnswer⟩ := checkWithin_answers user enough
  rw [isFound, Option.some.injEq, Bool.eq_iff_iff, isAnswer, check_iff]

end Checks

section Writes

variable {p q : MemoryAuthorizationProvider} {user relation obj : String} {t : RelationTuple}

theorem users_withUsers (held : List String) (object name : String) :
    (p.withUsers object name held).users obj relation =
      if obj = object ∧ relation = name then held else p.users obj relation := by
  simp only [MemoryAuthorizationProvider.users, MemoryAuthorizationProvider.withUsers]
  by_cases sameObj : obj = object
  · subst sameObj
    rw [Dict.get?_set_self, Option.bind_some]
    by_cases sameName : relation = name
    · subst sameName
      rw [Dict.get?_set_self, if_pos ⟨rfl, rfl⟩, Option.getD_some]
    · rw [Dict.get?_set_other _ _ sameName, if_neg fun both => sameName both.2]
      cases p.tuples.get? obj <;> rfl
  · rw [Dict.get?_set_other _ _ sameObj, if_neg fun both => sameObj both.1]

theorem mem_inserted {held : List String} {item other : String} :
    other ∈ MemoryAuthorizationProvider.inserted held item ↔ other ∈ held ∨ other = item := by
  rw [MemoryAuthorizationProvider.inserted]
  split
  · next isHeld => exact ⟨.inl, fun member => member.elim id fun same => same ▸ isHeld⟩
  · simp

/-- The same model, and no tuple less. -/
structure Grows (p q : MemoryAuthorizationProvider) : Prop where
  model : q.model = p.model
  users : ∀ obj relation, p.users obj relation ⊆ q.users obj relation

theorem Grows.refl (p : MemoryAuthorizationProvider) : Grows p p where
  model := rfl
  users := fun _ _ => List.Subset.refl _

theorem Grows.trans {r : MemoryAuthorizationProvider} (first : Grows p q) (second : Grows q r) :
    Grows p r where
  model := second.model.trans first.model
  users := fun obj relation =>
    List.Subset.trans (first.users obj relation) (second.users obj relation)

theorem grows_add : Grows p (p.add t) where
  model := rfl
  users := by
    intro obj relation member isUser
    show member ∈ (p.withUsers t.object t.relation _).users obj relation
    rw [users_withUsers]
    split
    · next same =>
        rw [same.1, same.2] at isUser
        exact mem_inserted.mpr (.inl isUser)
    · exact isUser

theorem grows_addAll (added : List RelationTuple) : Grows p (p.addAll added).1 := by
  induction added generalizing p with
  | nil => exact .refl p
  | cons t rest ih =>
    rw [MemoryAuthorizationProvider.addAll]
    cases p.validate t with
    | some invalid => exact .refl p
    | none => exact grows_add.trans ih

theorem Derivable.mono (derivable : Derivable p user goal) (grows : Grows p q) :
    Derivable q user goal := by
  have sameRelation (obj relation : String) :
      q.relationOf obj relation = p.relationOf obj relation := by
    rw [MemoryAuthorizationProvider.relationOf, grows.model]
    rfl
  induction derivable with
  | direct isRelation isUser =>
    exact .direct ((sameRelation _ _).trans isRelation) (grows.users _ _ isUser)
  | userset isRelation isMember parts _ ih =>
    exact .userset ((sameRelation _ _).trans isRelation) (grows.users _ _ isMember) parts ih
  | computed isRelation isComputed _ ih =>
    exact .computed ((sameRelation _ _).trans isRelation) isComputed ih
  | tupleToUserset isRelation isRewrite isUser _ ih =>
    exact .tupleToUserset ((sameRelation _ _).trans isRelation) isRewrite
      (grows.users _ _ isUser) ih

structure Indexed (p : MemoryAuthorizationProvider) : Prop where
  listed : ∀ obj relation member, member ∈ p.users obj relation → obj ∈ p.objects (typeOf obj)
  typed : ∀ objectType obj, obj ∈ p.objects objectType → typeOf obj = objectType

theorem indexed_init (model : Model) (maxListedObjects : ℕ) :
    Indexed (.init model maxListedObjects) where
  listed := by
    intro obj relation member isUser
    cases isUser
  typed := by
    intro objectType obj isListed
    cases isListed

theorem Indexed.discard (indexed : Indexed p) : Indexed (p.discard t) where
  listed := by
    intro obj relation member isUser
    rw [MemoryAuthorizationProvider.discard, users_withUsers] at isUser
    split at isUser
    · next same =>
        rw [same.1]
        exact indexed.listed _ _ member (mem_of_mem_filter isUser)
    · exact indexed.listed obj relation member isUser
  typed := indexed.typed

theorem mem_objects_add :
    obj ∈ (p.add t).objects objectType ↔
      obj ∈ p.objects objectType ∨ obj = t.object ∧ objectType = typeOf t.object := by
  simp only [MemoryAuthorizationProvider.objects, MemoryAuthorizationProvider.add]
  by_cases same : objectType = typeOf t.object
  · subst same
    rw [Dict.values, Dict.get?_set_self, Option.getD_some, mem_inserted]
    simp [Dict.values]
  · rw [Dict.values, Dict.get?_set_other _ _ same]
    simp [same, Dict.values]

section

variable (indexed : Indexed p)
include indexed

theorem Indexed.add : Indexed (p.add t) where
  listed := by
    intro obj relation member isUser
    rw [mem_objects_add]
    have isUser : member ∈ (p.withUsers t.object t.relation _).users obj relation := isUser
    rw [users_withUsers] at isUser
    split at isUser
    · next same => exact .inr ⟨same.1, by rw [same.1]⟩
    · exact .inl (indexed.listed obj relation member isUser)
  typed := by
    intro objectType obj isListed
    rcases mem_objects_add.mp isListed with wasListed | ⟨rfl, rfl⟩
    · exact indexed.typed objectType obj wasListed
    · rfl

theorem Indexed.addAll (added : List RelationTuple) :
    Indexed (p.addAll added).1 := by
  induction added generalizing p with
  | nil => exact indexed
  | cons t rest ih =>
    rw [MemoryAuthorizationProvider.addAll]
    cases p.validate t with
    | some invalid => exact indexed
    | none => exact ih indexed.add

theorem Indexed.write (added deleted : List RelationTuple) :
    Indexed (p.write added deleted).1 := by
  rw [MemoryAuthorizationProvider.write]
  apply Indexed.addAll
  induction deleted generalizing p with
  | nil => exact indexed
  | cons t rest ih => exact ih indexed.discard

theorem Indexed.after
    (writes : List (List RelationTuple × List RelationTuple)) : Indexed (p.after writes) := by
  induction writes generalizing p with
  | nil => exact indexed
  | cons write rest ih => exact ih (indexed.write _ _)

end

theorem available_after (writes : List (List RelationTuple × List RelationTuple)) :
    (p.after writes).available = p.available := by
  have added : ∀ {p : MemoryAuthorizationProvider} (added : List RelationTuple),
      (p.addAll added).1.available = p.available := by
    intro p added
    induction added generalizing p with
    | nil => rfl
    | cons t rest ih =>
      rw [MemoryAuthorizationProvider.addAll]
      cases p.validate t with
      | some invalid => rfl
      | none => exact ih
  have deleted : ∀ {p : MemoryAuthorizationProvider} (deleted : List RelationTuple),
      (deleted.foldl MemoryAuthorizationProvider.discard p).available = p.available := by
    intro p deleted
    induction deleted generalizing p with
    | nil => rfl
    | cons t rest ih => exact ih
  induction writes generalizing p with
  | nil => rfl
  | cons write rest ih =>
    exact ih.trans ((added _).trans (deleted _))

theorem Derivable.has_tuple (derivable : Derivable p user goal) :
    ∃ relation member, member ∈ p.users goal.2 relation := by
  induction derivable with
  | direct _ isUser => exact ⟨_, _, isUser⟩
  | userset _ isMember _ _ _ => exact ⟨_, _, isMember⟩
  | computed _ _ _ ih => exact ih
  | tupleToUserset _ _ isUser _ _ => exact ⟨_, _, isUser⟩

theorem mem_listed (indexed : Indexed p) :
    obj ∈ (ordered (p.objects objectType)).filter (fun obj => p.check user relation obj) ↔
      typeOf obj = objectType ∧ Derivable p user (relation, obj) := by
  rw [mem_filter, mem_ordered, check_iff]
  constructor
  · intro ⟨isListed, derivable⟩
    exact ⟨indexed.typed objectType obj isListed, derivable⟩
  · intro ⟨isType, derivable⟩
    obtain ⟨_, member, isUser⟩ := derivable.has_tuple
    exact ⟨isType ▸ indexed.listed obj _ member isUser, derivable⟩

end Writes

/-- Over any model and any tuples, a check ends and holds of just what can be derived, which is
the least fixed point of the rewrites, and a write that only adds keeps what held; and after any
writes, the objects of a type on which a check holds are listed in order up to the bound. -/
theorem check_is_least_fixed_point (user relation obj : String) :
    (∀ p : MemoryAuthorizationProvider,
      (∀ depth, (p.goals (relation, obj)).length < depth →
        p.checkWithin user depth [] (relation, obj) = some (p.check user relation obj)) ∧
      (p.check user relation obj = true ↔ Derivable p user (relation, obj)) ∧
      (p.check user relation obj = true ↔ (relation, obj) ∈ (rewrites p user).lfp) ∧
      ∀ added, p.check user relation obj = true →
        (p.write added []).1.check user relation obj = true) ∧
    ∀ model maxListedObjects writes objectType,
      let p := (MemoryAuthorizationProvider.init model maxListedObjects).after writes
      ∃ all : List String, all.Nodup ∧ all.Pairwise (· ≤ ·) ∧
        (∀ obj, obj ∈ all ↔ typeOf obj = objectType ∧ p.check user relation obj = true) ∧
          p.listObjects user relation objectType = .ok (all.take (p.maxListedObjects + 1)) := by
  refine ⟨fun p => ⟨fun depth enough => checkWithin_eq_check enough, check_iff user relation obj,
    ?_, fun added isHeld => ?_⟩, fun model maxListedObjects writes objectType => ?_⟩
  · rw [check_iff, ← derivable_eq_lfp]
    rfl
  · rw [check_iff] at isHeld ⊢
    exact isHeld.mono (grows_addAll added)
  · intro p
    have indexed : Indexed p := (indexed_init model maxListedObjects).after writes
    have available : p.available = true := available_after writes
    refine ⟨(ordered (p.objects objectType)).filter fun obj => p.check user relation obj,
      (ordered_nodup _).filter _, (ordered_sorted _).filter _, fun obj => ?_, ?_⟩
    · rw [mem_listed indexed, check_iff]
    · rw [MemoryAuthorizationProvider.listObjects, if_pos available]

def circle : MemoryAuthorizationProvider where
  model := .ofList [("group", relations [("member", { direct := ["user", "group#member"] })])]
  tuples := .ofList
    [("group:a", .ofList [("member", ["group:b#member"])]),
      ("group:b", .ofList [("member", ["group:a#member", "user:ana"])])]

theorem circle_is_checked :
    circle.checkWithin "user:ana" 100 [] ("member", "group:a") =
        some (circle.check "user:ana" "member" "group:a") ∧
      (circle.write [⟨"user:ben", "member", "group:a"⟩] []).1.check "user:ana" "member" "group:a" =
        true := by
  have answers := (check_is_least_fixed_point "user:ana" "member" "group:a").1 circle
  exact ⟨answers.1 100 (by decide +kernel), answers.2.2.2 _ (by decide +kernel)⟩

end MemoryService.Authz.Reference
