import MemoryService.Authz.Revisions

/-!
# When a write reaches every reader's cache

A reader is reached by a write where a counter that the write moves is one its bundles depend on.
-/

namespace MemoryService.Authz

open Domain Foundation List

/-- A counter is moved of every reader that may see the row. -/
def Reached (moved : List (String × RevisionKey)) (row : AudienceRow) : Prop :=
  ∀ (provider : Provider) (reader : MemoryExecutionContext) (spec : VisibilitySpecification),
    visibility provider reader = some spec →
      spec.allows row.tenantId row.visibilityKeys = true →
        ∃ key ∈ contextRevisions reader, (reader.tenantId.text, key) ∈ moved

def Scope.Unanchored (scope : Scope) : Prop :=
  scope.userId = none ∧ scope.threadId = none ∧ scope.agentId = none

def Write.Keyed : Write → Prop
  | .remember ctx statement =>
    statement.deduplicated = true ∨
      Scope.Unanchored (statement.keptScope ctx) ∨
      (statement.keptVisibility ctx = .priv ∨ statement.keptVisibility ctx = .user) ∧
        (statement.keptScope ctx).userId.isSome = true ∨
      statement.keptVisibility ctx = .priv ∧ (statement.keptScope ctx).agentId.isSome = true
  | .process affected invalidated now =>
    ∀ row ∈ affected, row.invalidDerived now = true → row ∈ invalidated
  | _ => True

variable {memories : List RevisedMemory} {key : RevisionKey} {scope : Scope} {kind : RevisionKind}
  {tenantId objectType : String} {reader : MemoryExecutionContext} {level : Visibility}
  {held : Option String} {row : AudienceRow} {twins invalidated : List AudienceRow}
  {written : Written} {memory : RevisedMemory} {name : String}

section

variable {moved : List (String × RevisionKey)} {row : AudienceRow}

private theorem Reached.mono {more : List (String × RevisionKey)} (reached : Reached moved row)
    (grows : moved ⊆ more) : Reached more row := by
  intro provider reader spec resolved allowed
  obtain ⟨key, subscribed, isMoved⟩ := reached provider reader spec resolved allowed
  exact ⟨key, subscribed, grows isMoved⟩

theorem memoryRevisionKeys_subset :
    audienceRevisionKeys memory.tenantId memory.visibilityKeys ⊆
      memoryRevisionKeys memory := by
  intro key member
  have inBoth := mem_append_right (scopeRevisions memory.scope) member
  rw [memoryRevisionKeys]
  rw [if_neg (ne_nil_of_mem inBoth)]
  exact inBoth

theorem mem_touched (member : memory ∈ memories) (isKey : key ∈ memoryRevisionKeys memory) :
    (memory.tenantId, key) ∈ touchedRevisions memories :=
  mem_flatMap.mpr ⟨memory, member, mem_map.mpr ⟨key, isKey, rfl⟩⟩

theorem reached_of_carried
    (member : memory ∈ memories) (sameTenant : memory.tenantId = row.tenantId)
    (carries : memory.visibilityKeys = row.visibilityKeys) :
    Reached (touchedRevisions memories) row := by
  intro provider reader spec resolved allowed
  obtain ⟨isTenant, key, isMoved, subscribed⟩ := moved_of_allows resolved allowed
  refine ⟨key, subscribed, ?_⟩
  rw [← sameTenant, ← carries] at isMoved
  have touched := mem_touched member (memoryRevisionKeys_subset isMoved)
  rw [sameTenant, isTenant] at touched
  exact touched

theorem reached_of_mem {rows : List AudienceRow} (member : row ∈ rows) :
    Reached (movedOf rows) row :=
  reached_of_carried (mem_map_of_mem member) rfl rfl

end

section

variable {ctx : MemoryExecutionContext} {statement : Statement} {written : Written}

theorem remember_ok (done : remember ctx statement = .ok written) :
    (statement.deduplicated = true ∧ written = { rows := [], moved := [] }) ∨
      ∃ keys, statement.deduplicated = false ∧
        keysFor (statement.keptScope ctx) (statement.keptVisibility ctx) ctx = .ok keys ∧
          written =
            { rows :=
                [{ tenantId := ctx.tenantId.text
                   scope := statement.keptScope ctx
                   visibilityKeys := keys }]
              moved :=
                touchedRevisions
                  [{ tenantId := ctx.tenantId.text, scope := statement.keptScope ctx }] } := by
  obtain ⟨-, -, guarded⟩ := bind_ok done
  obtain ⟨-, -, rest⟩ := bind_ok guarded
  split at rest
  case isTrue known =>
    cases rest
    exact .inl ⟨known, rfl⟩
  case isFalse isNew =>
    obtain ⟨keys, isKeys, last⟩ := bind_ok rest
    cases last
    exact .inr ⟨keys, by simpa using isNew, isKeys, rfl⟩

theorem mem_scopeRevisions :
    (kind, name) ∈ scopeRevisions scope ↔
      name ≠ "" ∧
        (kind = .user ∧ scope.userId = some name ∨
          kind = .thread ∧ scope.threadId = some name ∨
          kind = .agent ∧ scope.agentId = some name) := by
  have ofName : ∀ (other : RevisionKind) (held : Option String),
      (if missing held = true then none else held.map fun text => (other, text)) =
          some (kind, name) ↔ name ≠ "" ∧ kind = other ∧ held = some name := by
    intro other held
    cases held with
    | none => simp
    | some text =>
      by_cases empty : text = ""
      · simp only [missing, empty, decide_true, if_true, reduceCtorEq, or_true, false_iff]
        intro both
        exact both.1 (Option.some.inj both.2.2).symm
      · simp only [missing, empty, reduceCtorEq, or_self, decide_false, if_false,
          Option.map_some, Option.some.injEq, Prod.mk.injEq, Bool.false_eq_true]
        constructor
        · intro same
          exact ⟨same.2 ▸ empty, same.1.symm, same.2⟩
        · intro same
          exact ⟨same.2.1.symm, same.2.2⟩
  rw [scopeRevisions, mem_filterMap]
  simp only [mem_cons, not_mem_nil, or_false, exists_eq_or_imp, ofName, exists_eq_left, and_or_left]

theorem scopeFor_names (memoryType : MemoryType) (level : Visibility) :
    ((scopeFor memoryType level ctx).userId = none ∨
        (scopeFor memoryType level ctx).userId = ctx.userId.map Id.text) ∧
      ((scopeFor memoryType level ctx).threadId = none ∨
        (scopeFor memoryType level ctx).threadId = ctx.threadId.map Id.text) ∧
      ((scopeFor memoryType level ctx).agentId = none ∨
        (scopeFor memoryType level ctx).agentId = ctx.agentId.map Id.text) ∧
      ((scopeFor memoryType level ctx).agentGroupId = none ∨
        (scopeFor memoryType level ctx).agentGroupId = ctx.agentGroupId.map Id.text) := by
  rw [scopeFor, scopeAt]
  refine ⟨?_, ?_, ?_, ?_⟩
  · dsimp only
    split
    · exact .inr rfl
    · exact .inl rfl
  · dsimp only
    split
    · exact .inr rfl
    · exact .inl rfl
  · dsimp only
    split
    · exact .inr rfl
    · exact .inl rfl
  · dsimp only
    split
    · exact .inr rfl
    · exact .inl rfl

theorem orElse_ident (ident : Id) (second : Option String) :
    orElse (some ident.text) second = some ident.text := by
  rw [orElse]
  exact ident.text_ne_empty

theorem mem_touched_one :
    (tenantId, key) ∈ touchedRevisions [memory] ↔
      tenantId = memory.tenantId ∧ key ∈ memoryRevisionKeys memory := by
  rw [touchedRevisions, flatMap_singleton, mem_map]
  constructor
  · intro ⟨found, member, same⟩
    cases same
    exact ⟨rfl, member⟩
  · intro ⟨sameTenant, member⟩
    exact ⟨key, member, by rw [sameTenant]⟩

theorem moved_of_unanchored (unanchored : Scope.Unanchored scope) (tenantId : String) :
    memoryRevisionKeys { tenantId, scope } = [(.tenant, "")] := by
  obtain ⟨noUser, noThread, noAgent⟩ := unanchored
  have nobody : scopeRevisions scope = [] := by
    simp [scopeRevisions, noUser, noThread, noAgent, missing]
  simp [memoryRevisionKeys, nobody, audienceRevisionKeys]

theorem moved_of_named {ident : Id}
    (tenantId : String) (names : (kind, ident.text) ∈ scopeRevisions scope) :
    (kind, ident.text) ∈ memoryRevisionKeys { tenantId, scope } := by
  have inBoth : (kind, ident.text) ∈ scopeRevisions scope ++ audienceRevisionKeys tenantId [] :=
    mem_append_left _ names
  rw [memoryRevisionKeys]
  rw [if_neg (ne_nil_of_mem inBoth)]
  exact inBoth

theorem reader_of_user {provider : Provider} {user : Id}
    (ofUser : level = .priv ∨ level = .user) (isUser : ctx.userId = some user)
    (granted : noOwnerKey level = false ∧ reader.principalId = ctx.principalId ∨
      Grant provider reader ((anchorsOf ctx).within (some scope)) ctx.principalId level) :
    reader.userId = some user := by
  have ofPrincipal : reader.principalId = ctx.principalId → reader.userId = some user := by
    intro same
    rw [← isUser]
    exact (principalId_eq_iff.mp same).2
  rcases granted with ⟨-, same⟩ | grant
  · exact ofPrincipal same
  · rcases ofUser with isPrivate | isUserLevel
    · rw [isPrivate] at grant
      exact ofPrincipal grant
    · rw [isUserLevel] at grant
      obtain ⟨name, isName, reads⟩ := grant
      have isText : ((anchorsOf ctx).within (some scope)).userId = some user.text := by
        simp [Anchors.within, anchorsOf, isUser, orElse_ident]
      rw [isText] at isName
      rw [← Option.some.inj isName] at reads
      obtain ⟨other, isOther, sameText⟩ := Option.map_eq_some_iff.mp reads
      rw [isOther, Id.text_injective sameText]

theorem some_of_named {name : Option Id}
    (kept : held = none ∨ held = name.map Id.text) (named : held.isSome = true) :
    ∃ ident, name = some ident ∧ held = some ident.text := by
  rcases kept with isNone | isName
  · rw [isNone] at named
    cases named
  · rw [isName] at named ⊢
    cases name with
    | none => cases named
    | some ident => exact ⟨ident, rfl, rfl⟩

theorem remember_reaches (done : remember ctx statement = .ok written)
    (keyed : (Write.remember ctx statement).Keyed) (isRow : row ∈ written.rows) :
    Reached written.moved row := by
  rcases remember_ok done with ⟨-, rfl⟩ | ⟨keys, isNew, stored, rfl⟩
  · cases isRow
  · intro provider reader spec resolved allowed
    rw [mem_singleton.mp isRow] at allowed
    obtain ⟨sameTenant, granted⟩ := (allows_iff stored resolved).mp allowed
    obtain ⟨keepsUser, -, keepsAgent, -⟩ :=
      @scopeFor_names ctx (statement.keptType ctx) (statement.keptVisibility ctx)
    simp only [mem_touched_one, ← sameTenant, true_and]
    rcases keyed with deduplicated | unanchored | ⟨ofUser, named⟩ | ⟨isPrivate, named⟩
    · rw [isNew] at deduplicated
      cases deduplicated
    · refine ⟨(.tenant, ""), by simp [contextRevisions], ?_⟩
      rw [moved_of_unanchored unanchored]
      exact mem_singleton.mpr rfl
    · obtain ⟨user, isUser, isText⟩ := some_of_named keepsUser named
      have sameUser := reader_of_user ofUser isUser granted
      refine ⟨(.user, user.text), by simp [contextRevisions, sameUser], ?_⟩
      apply moved_of_named
      exact mem_scopeRevisions.mpr ⟨user.text_ne_empty, .inl ⟨rfl, isText⟩⟩
    · obtain ⟨agent, isAgent, isText⟩ := some_of_named keepsAgent named
      rw [isPrivate] at granted
      have samePrincipal : reader.principalId = ctx.principalId := by
        rcases granted with ⟨-, same⟩ | same
        · exact same
        · exact same
      have sameAgent := (principalId_eq_iff.mp samePrincipal).1
      refine ⟨(.agent, agent.text), by simp [contextRevisions, sameAgent, isAgent], ?_⟩
      apply moved_of_named
      exact mem_scopeRevisions.mpr ⟨agent.text_ne_empty, .inr (.inr ⟨rfl, isText⟩)⟩

theorem sharedName (anchored : scopeRevisions scope ≠ [])
    (subscribed : key ∈ contextRevisions reader)
    (isMoved : key ∈ memoryRevisionKeys { tenantId, scope }) :
    (∃ user, reader.userId = some user ∧ scope.userId = some user.text) ∨
      (∃ thread, reader.threadId = some thread ∧ scope.threadId = some thread.text) ∨
      ∃ agent, reader.agentId = some agent ∧ scope.agentId = some agent.text := by
  have ofScope : key ∈ scopeRevisions scope := by
    rw [memoryRevisionKeys] at isMoved
    simpa [audienceRevisionKeys, anchored] using isMoved
  obtain ⟨kind, name⟩ := key
  obtain ⟨isName, held⟩ := mem_scopeRevisions.mp ofScope
  have named : ∀ {other : Option Id}, name = (other.map Id.text).getD "" →
      ∃ ident, other = some ident ∧ name = ident.text := by
    intro other same
    cases other with
    | none => exact absurd same isName
    | some ident => exact ⟨ident, rfl, same⟩
  rcases held with ⟨rfl, isHeld⟩ | ⟨rfl, isHeld⟩ | ⟨rfl, isHeld⟩
  · have same : name = (reader.userId.map Id.text).getD "" := by
      simpa [contextRevisions] using subscribed
    obtain ⟨user, isUser, rfl⟩ := named same
    exact .inl ⟨user, isUser, isHeld⟩
  · have same : name = (reader.threadId.map Id.text).getD "" := by
      simpa [contextRevisions] using subscribed
    obtain ⟨thread, isThread, rfl⟩ := named same
    exact .inr (.inl ⟨thread, isThread, isHeld⟩)
  · have same : name = (reader.agentId.map Id.text).getD "" := by
      simpa [contextRevisions] using subscribed
    obtain ⟨agent, isAgent, rfl⟩ := named same
    exact .inr (.inr ⟨agent, isAgent, isHeld⟩)

end

section

variable {ctx : MemoryExecutionContext} {statement : Statement} {written : Written}

def listsOne (tenantId name : String) : Provider where
  listObjects _ _ objectType := [objectType ++ (":" ++ (tenantId ++ ("/" ++ name)))]

theorem objectName_listed (free : ':' ∉ objectType.toList)
    (rest : String) : objectName (objectType ++ (":" ++ rest)) = some rest := by
  have colon : String.singleton ':' = ":" := by decide
  rw [objectName, ← colon, partition_append free]
  rfl

theorem listAll_listsOne {tenantId name relation objectType : String}
    (free : ':' ∉ objectType.toList) :
    ∃ names, (listsOne tenantId name).listAll ctx relation objectType = some (names, false) := by
  have one : ∀ subject,
      (listsOne tenantId name).list subject relation objectType =
        some ([tenantId ++ ("/" ++ name)], false) := by
    intro subject
    simp [Provider.list, listsOne, objectName_listed free]
  have all : ∀ subjects : List String,
      subjects.mapM (fun subject => (listsOne tenantId name).list subject relation objectType) =
        some (subjects.map fun _ => ([tenantId ++ ("/" ++ name)], false)) := by
    intro subjects
    induction subjects with
    | nil => rfl
    | cons subject subjects ih =>
      rw [mapM_cons, ih, one]
      rfl
  rw [Provider.listAll, all]
  simp

theorem visibility_listsOne (tenantId name : String) :
    ∃ spec, visibility (listsOne tenantId name) ctx = some spec := by
  obtain ⟨threads, isThreads⟩ := @listAll_listsOne ctx tenantId name "can_read" "thread" (by decide)
  obtain ⟨documents, isDocuments⟩ :=
    @listAll_listsOne ctx tenantId name "can_read" "document" (by decide)
  obtain ⟨workspaces, isWorkspaces⟩ :=
    @listAll_listsOne ctx tenantId name "viewer" "workspace" (by decide)
  rw [visibility, resolve, isThreads, isDocuments, isWorkspaces]
  exact ⟨_, rfl⟩

theorem granted_listsOne {relation : String} (free : ':' ∉ objectType.toList) :
    Granted (listsOne ctx.tenantId.text name) ctx relation objectType name := by
  refine ⟨ctx.principalId, mem_cons_self, _, mem_cons_self, ?_⟩
  rw [objectName_listed free, String.append_assoc]

theorem anchored_of_not {memoryType : MemoryType}
    (anchored : ¬Scope.Unanchored (scopeFor memoryType level ctx)) :
    scopeRevisions (scopeFor memoryType level ctx) ≠ [] := by
  intro nothing
  apply anchored
  obtain ⟨keepsUser, keepsThread, keepsAgent, -⟩ := @scopeFor_names ctx memoryType level
  have noneOf : ∀ (kind : RevisionKind) {held : Option String} {name : Option Id},
      held = none ∨ held = name.map Id.text →
        (∀ ident : Id, held = some ident.text →
          (kind, ident.text) ∈ scopeRevisions (scopeFor memoryType level ctx)) →
          held = none := by
    intro kind held name keeps names
    rcases Option.eq_none_or_eq_some held with isNone | ⟨text, isSome⟩
    · exact isNone
    · obtain ⟨ident, -, isText⟩ := some_of_named keeps (by rw [isSome]; rfl)
      have listed := names ident isText
      rw [nothing] at listed
      cases listed
  refine ⟨noneOf .user keepsUser ?_, noneOf .thread keepsThread ?_, noneOf .agent keepsAgent ?_⟩
  · intro ident isText
    exact mem_scopeRevisions.mpr ⟨ident.text_ne_empty, .inl ⟨rfl, isText⟩⟩
  · intro ident isText
    exact mem_scopeRevisions.mpr ⟨ident.text_ne_empty, .inr (.inl ⟨rfl, isText⟩)⟩
  · intro ident isText
    exact mem_scopeRevisions.mpr ⟨ident.text_ne_empty, .inr (.inr ⟨rfl, isText⟩)⟩

theorem keyOf_named {audience : Audience} {refusal : String}
    {name : Option String} {keys : List String}
    (named : keyOf audience tenantId name refusal = .ok keys) : ∃ text, name = some text := by
  rw [keyOf] at named
  split at named
  case isTrue => cases named
  case isFalse present =>
    cases name with
    | none => exact absurd rfl present
    | some text => exact ⟨text, rfl⟩

theorem orElse_kept {name : Option Id} (kept : held = none ∨ held = name.map Id.text) :
    orElse (name.map Id.text) held = name.map Id.text := by
  cases name with
  | some ident => exact orElse_ident ident held
  | none =>
    rw [Option.map_none, or_self] at kept
    rw [kept]
    rfl

/-- Where the provider lists `name`, the reader reads what the statement leaves. -/
def Statement.Grants (statement : Statement) (ctx : MemoryExecutionContext) (name : String)
    (reader : MemoryExecutionContext) : Prop :=
  reader.tenantId = ctx.tenantId ∧
    Grant (listsOne ctx.tenantId.text name) reader
      ((anchorsOf ctx).within (some (statement.keptScope ctx))) ctx.principalId
      (statement.keptVisibility ctx)

/-- Whoever reads what the statement leaves has a user, a thread or an agent of its scope. -/
def Statement.Shares (statement : Statement) (ctx : MemoryExecutionContext) : Prop :=
  ∀ name reader, statement.Grants ctx name reader →
    (∃ user, reader.userId = some user ∧ (statement.keptScope ctx).userId = some user.text) ∨
      (∃ thread, reader.threadId = some thread ∧
        (statement.keptScope ctx).threadId = some thread.text) ∨
      ∃ agent, reader.agentId = some agent ∧ (statement.keptScope ctx).agentId = some agent.text

section

variable (shares : statement.Shares ctx)
include shares

theorem not_grants {name : String} (noUser : reader.userId = none)
    (noThread : reader.threadId = none)
    (otherAgent : ∀ agent, reader.agentId = some agent →
      (statement.keptScope ctx).agentId ≠ some agent.text) :
    ¬statement.Grants ctx name reader := by
  intro grants
  rcases shares name reader grants with
    ⟨user, isUser, -⟩ | ⟨thread, isThread, -⟩ | ⟨agent, isAgent, isText⟩
  · rw [noUser] at isUser
    cases isUser
  · rw [noThread] at isThread
    cases isThread
  · exact otherAgent agent isAgent isText

theorem private_named (isLevel : statement.keptVisibility ctx = .priv) :
    (statement.keptScope ctx).userId.isSome = true ∨
      (statement.keptScope ctx).agentId.isSome = true := by
  let reader : MemoryExecutionContext :=
    { tenantId := ctx.tenantId, userId := ctx.userId, agentId := ctx.agentId }
  have samePrincipal : reader.principalId = ctx.principalId := principalId_eq_iff.mpr ⟨rfl, rfl⟩
  have grants : statement.Grants ctx "" reader := by
    rw [Statement.Grants, isLevel]
    exact ⟨rfl, samePrincipal⟩
  rcases shares "" reader grants with
    ⟨user, -, isText⟩ | ⟨thread, isThread, -⟩ | ⟨agent, -, isText⟩
  · exact .inl (by rw [isText]; rfl)
  · cases isThread
  · exact .inr (by rw [isText]; rfl)

variable {keys : List String}
  (stored : keysFor (statement.keptScope ctx) (statement.keptVisibility ctx) ctx = .ok keys)
include stored

theorem user_named (isLevel : statement.keptVisibility ctx = .user) :
    (statement.keptScope ctx).userId.isSome = true := by
  obtain ⟨keepsUser, -⟩ :=
    @scopeFor_names ctx (statement.keptType ctx) (statement.keptVisibility ctx)
  obtain ⟨base, named, -⟩ := map_ok stored
  rw [isLevel] at named
  obtain ⟨name, isName⟩ := keyOf_named named
  have reads : ctx.userId.map Id.text = some name := (orElse_kept keepsUser).symm.trans isName
  have grants : statement.Grants ctx "" { tenantId := ctx.tenantId, userId := ctx.userId } := by
    rw [Statement.Grants, isLevel]
    exact ⟨rfl, name, isName, reads⟩
  rcases shares "" _ grants with
    ⟨user, -, isText⟩ | ⟨thread, isThread, -⟩ | ⟨agent, isAgent, -⟩
  · rw [isText]
    rfl
  · cases isThread
  · cases isAgent

/-- At any other level there is a reader without a name of the scope. -/
theorem private_or_user :
    statement.keptVisibility ctx = .priv ∨ statement.keptVisibility ctx = .user := by
  obtain ⟨-, -, -, keepsGroup⟩ :=
    @scopeFor_names ctx (statement.keptType ctx) (statement.keptVisibility ctx)
  obtain ⟨base, named, -⟩ := map_ok stored
  let bare : MemoryExecutionContext := { tenantId := ctx.tenantId }
  have noneBare {name : String} : ¬statement.Grants ctx name bare :=
    not_grants shares rfl rfl fun _ isAgent => by cases isAgent
  cases isLevel : statement.keptVisibility ctx with
  | priv => exact .inl rfl
  | user => exact .inr rfl
  | agentGroup =>
    rw [isLevel] at named
    obtain ⟨name, isName⟩ := keyOf_named named
    have reads : ctx.agentGroupId.map Id.text = some name :=
      (orElse_kept keepsGroup).symm.trans isName
    have noneReads : ¬statement.Grants ctx "" { bare with agentGroupId := ctx.agentGroupId } :=
      not_grants shares rfl rfl fun _ isAgent => by cases isAgent
    refine absurd ?_ noneReads
    rw [Statement.Grants, isLevel]
    exact ⟨rfl, name, isName, reads⟩
  | run =>
    rw [isLevel] at named
    obtain ⟨own, isOwn, -⟩ := map_ok named
    obtain ⟨name, isName⟩ := keyOf_named isOwn
    have fresh : ∃ agent : Id, (statement.keptScope ctx).agentId ≠ some agent.text := by
      by_cases taken : (statement.keptScope ctx).agentId = some "a"
      · refine ⟨⟨"b", by decide⟩, ?_⟩
        rw [taken]
        decide
      · exact ⟨⟨"a", by decide⟩, taken⟩
    obtain ⟨agent, isFresh⟩ := fresh
    let reader : MemoryExecutionContext :=
      { tenantId := ctx.tenantId
        agentId := some agent
        agentRunId := ctx.agentRunId
        runHasAgent := fun _ => rfl }
    have otherAgent : ∀ other, reader.agentId = some other →
        (statement.keptScope ctx).agentId ≠ some other.text := by
      intro other isOther
      cases isOther
      exact isFresh
    have noneReads : ¬statement.Grants ctx "" reader := not_grants shares rfl rfl otherAgent
    refine absurd ?_ noneReads
    rw [Statement.Grants, isLevel]
    exact ⟨rfl, .inl ⟨name, isName, .inl isName⟩⟩
  | thread | workspace =>
    rw [isLevel] at named
    obtain ⟨name, isName⟩ := keyOf_named named
    refine absurd ?_ (@noneBare name)
    rw [Statement.Grants, isLevel]
    refine ⟨rfl, name, isName, granted_listsOne (by decide), ?_⟩
    intro other isOther
    cases isOther
  | tenant =>
    refine absurd ?_ (@noneBare "")
    rw [Statement.Grants, isLevel]
    exact ⟨rfl, trivial⟩

end

theorem keyed_of_reached (done : remember ctx statement = .ok written)
    (reached : ∀ row ∈ written.rows, Reached written.moved row) :
    (Write.remember ctx statement).Keyed := by
  rcases remember_ok done with ⟨deduplicated, -⟩ | ⟨keys, -, stored, rfl⟩
  · exact .inl deduplicated
  by_cases unanchored : Scope.Unanchored (statement.keptScope ctx)
  · exact .inr (.inl unanchored)
  have shares : statement.Shares ctx := by
    rintro name reader ⟨sameTenant, grant⟩
    obtain ⟨spec, resolved⟩ := @visibility_listsOne reader ctx.tenantId.text name
    have allowed := (allows_iff stored resolved).mpr ⟨sameTenant.symm, .inr grant⟩
    obtain ⟨key, subscribed, isMoved⟩ := reached _ mem_cons_self _ reader spec resolved allowed
    exact sharedName (anchored_of_not unanchored) subscribed (mem_touched_one.mp isMoved).2
  rcases private_or_user shares stored with isLevel | isLevel
  · rcases private_named shares isLevel with hasUser | hasAgent
    · exact .inr (.inr (.inl ⟨.inl isLevel, hasUser⟩))
    · exact .inr (.inr (.inr ⟨isLevel, hasAgent⟩))
  · exact .inr (.inr (.inl ⟨.inr isLevel, user_named shares stored isLevel⟩))

end

theorem supersede_reaches {old : AudienceRow}
    (done : (Write.supersede old twins invalidated).apply = .ok written)
    (isRow : row ∈ written.rows) : Reached written.moved row := by
  cases done
  have ofClosed : ∀ {other : AudienceRow}, Reached (movedOf (old :: twins)) other →
      Reached
        (touchedRevisions [{ tenantId := old.tenantId, scope := old.scope }] ++
          movedOf (old :: twins) ++ movedOf invalidated) other := by
    intro other reached
    apply reached.mono
    intro key member
    exact mem_append_left _ (mem_append_right _ member)
  rcases mem_append.mp isRow with isWritten | isInvalidated
  · rcases mem_cons.mp isWritten with isNew | isClosed
    · -- the new row has the old one's audience
      rw [isNew]
      exact ofClosed (reached_of_carried (mem_map_of_mem mem_cons_self) rfl rfl)
    · exact ofClosed (reached_of_mem isClosed)
  · exact (reached_of_mem isInvalidated).mono (subset_append_right _ _)

theorem forget_reaches {memory : AudienceRow} {restored : List AudienceRow}
    (done : (Write.forget memory twins restored invalidated).apply = .ok written)
    (isRow : row ∈ written.rows) : Reached written.moved row := by
  cases done
  rcases mem_append.mp isRow with isWritten | isInvalidated
  · exact (reached_of_mem isWritten).mono (subset_append_left _ _)
  · exact (reached_of_mem isInvalidated).mono (subset_append_right _ _)

theorem process_reaches {affected : List AudienceRow} {now : Instant}
    (done : (Write.process affected invalidated now).apply = .ok written)
    (keyed : (Write.process affected invalidated now).Keyed)
    (isRow : row ∈ written.rows) : Reached written.moved row := by
  cases done
  have ofInvalidated : row ∈ invalidated →
      Reached
        (movedOf (affected.filter fun row => !row.invalidDerived now) ++ movedOf invalidated)
        row := by
    intro isInvalidated
    exact (reached_of_mem isInvalidated).mono (subset_append_right _ _)
  rcases mem_append.mp isRow with isAffected | isInvalidated
  · by_cases invalid : row.invalidDerived now = true
    · exact ofInvalidated (keyed row isAffected invalid)
    · have isRead : row ∈ affected.filter fun row => !row.invalidDerived now :=
        mem_filter.mpr ⟨isAffected, by simpa using invalid⟩
      exact (reached_of_mem isRead).mono (subset_append_left _ _)
  · exact ofInvalidated isInvalidated

/-- A write reaches every reader of every row it wrote where it is keyed; a stored statement
reaches them only there. -/
theorem write_moves_readers {write : Write} {written : Written} (done : write.apply = .ok written) :
    (write.Keyed → ∀ row ∈ written.rows, Reached written.moved row) ∧
      ∀ ctx statement, write = .remember ctx statement →
        (∀ row ∈ written.rows, Reached written.moved row) → write.Keyed := by
  constructor
  · intro keyed row isRow
    cases write with
    | remember ctx statement => exact remember_reaches done keyed isRow
    | supersede old twins invalidated => exact supersede_reaches done isRow
    | forget memory twins restored invalidated => exact forget_reaches done isRow
    | process affected invalidated now => exact process_reaches done keyed isRow
  · intro ctx statement isRemember reached
    rw [isRemember] at done ⊢
    exact keyed_of_reached done reached

def inThread : MemoryExecutionContext where
  tenantId := ⟨"globex", by decide⟩
  userId := some ⟨"bob", by decide⟩
  threadId := some ⟨"thr_1", by decide⟩

def elsewhere : MemoryExecutionContext := { inThread with threadId := some ⟨"thr_2", by decide⟩ }

def factRow : AudienceRow where
  tenantId := "globex"
  scope := (Statement.mk .semantic none (.ok ()) false).keptScope inThread
  visibilityKeys := ["user:globex/bob", "principal:globex/user:bob"]

theorem other_thread_is_missed :
    ¬∀ (write : Write) (written : Written), write.apply = .ok written →
      ∀ row ∈ written.rows, Reached written.moved row := by
  intro always
  have reached :=
    always (.remember inThread { memoryType := .semantic })
      { rows := [factRow], moved := [("globex", .thread, "thr_1")] } rfl factRow
      mem_cons_self noGrants elsewhere
      { tenantId := "globex"
        keys := ["tenant:globex", "principal:globex/user:bob", "user:globex/bob"]
        truncated := false }
      (by decide +kernel) (by decide +kernel)
  revert reached
  decide +kernel

/-- A preference that the user states moves the user's counter. -/
theorem preference_reaches_user :
    Reached [("globex", .user, "bob")]
      { tenantId := "globex"
        scope := (Statement.mk .preference none (.ok ()) false).keptScope inThread
        visibilityKeys := ["user:globex/bob", "principal:globex/user:bob"] } := by
  have done :
      (Write.remember inThread { memoryType := .preference }).apply =
        .ok
          { rows :=
              [{ tenantId := "globex"
                 scope := (Statement.mk .preference none (.ok ()) false).keptScope inThread
                 visibilityKeys := ["user:globex/bob", "principal:globex/user:bob"] }]
            moved := [("globex", .user, "bob")] } := rfl
  apply (write_moves_readers done).1 _ _ mem_cons_self
  exact .inr (.inr (.inl ⟨.inr rfl, rfl⟩))

end MemoryService.Authz
