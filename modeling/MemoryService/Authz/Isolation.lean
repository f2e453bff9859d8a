import MemoryService.Authz.Visibility
import MemoryService.Foundation.Fallible

/-!
# Who an audience lets in

A key tells its audience, its tenant and its identifier.  So a caller reads what
another request wrote exactly where it holds the grant that the visibility names, or is
the author of a visibility that keeps the author's key.
-/

namespace MemoryService.Authz

open Domain Foundation List

theorem singleton_colon : String.singleton ':' = ":" := by decide

theorem singleton_slash : String.singleton '/' = "/" := by decide

theorem colon_free_word (audience : Audience) : ':' ∉ audience.word.toList := by
  cases audience <;> decide

variable {first second : Audience} {other : Id} {name : String}

theorem word_injective (same : first.word = second.word) : first = second := by
  revert same
  cases first <;> cases second <;> decide

theorem partition_key (audience : Audience) (tenantId identifier : String) :
    partition ':' (audience.key tenantId identifier) =
      (audience.word, true, tenantId ++ ("/" ++ identifier)) := by
  rw [Audience.key, ← singleton_colon]
  exact partition_append (colon_free_word audience)

theorem partition_tenantKey (tenantId : String) :
    partition ':' (tenantKey tenantId) = ("tenant", true, tenantId) := by
  rw [tenantKey, ← singleton_colon]
  exact partition_append (by decide)

variable {tenant : Id} {α β : Type} {xs : List α} {ys : List β} {names granted : List String}
  {tenantId key : String} {named : Option String} {audience : Audience}

theorem key_eq_iff {otherName : String} :
    first.key tenant.text name = second.key other.text otherName ↔
      first = second ∧ tenant = other ∧ name = otherName := by
  constructor
  · intro same
    have parts := congrArg (partition ':') same
    rw [partition_key, partition_key] at parts
    have words : first.word = second.word := congrArg Prod.fst parts
    have values := congrArg (fun part => part.2.2) parts
    dsimp only at values
    rw [← singleton_slash] at values
    obtain ⟨tenants, names⟩ := partsEq tenant.slash_free other.slash_free values
    exact ⟨word_injective words, Id.text_injective tenants, names⟩
  · intro ⟨sameAudience, sameTenant, sameName⟩
    rw [sameAudience, sameTenant, sameName]

theorem key_ne_tenantKey (audience : Audience) (tenantId name other : String) :
    audience.key tenantId name ≠ tenantKey other := by
  intro same
  have parts := congrArg (partition ':') same
  rw [partition_key, partition_tenantKey] at parts
  have words : audience.word = "tenant" := congrArg Prod.fst parts
  revert words
  cases audience <;> decide

theorem tenantKey_injective {first second : String} (same : tenantKey first = tenantKey second) :
    first = second := by
  have parts := congrArg (partition ':') same
  rw [partition_tenantKey, partition_tenantKey] at parts
  exact congrArg (fun part => part.2.2) parts

/-- Who acts. -/
inductive Principal where
  | agentFor (user agent : Id)
  | agent (agent : Id)
  | user (user : Id)
  | anonymous

def Principal.of (ctx : MemoryExecutionContext) : Principal :=
  match ctx.agentId, ctx.userId with
  | some acting, some actedFor => .agentFor actedFor acting
  | some acting, none => .agent acting
  | none, some acting => .user acting
  | none, none => .anonymous

def Principal.word : Principal → String
  | .agentFor _ _ => "agent"
  | .agent _ => "agent"
  | .user _ => "user"
  | .anonymous => "service"

def Principal.value : Principal → String
  | .agentFor actedFor acting => actedFor.text ++ ("/" ++ acting.text)
  | .agent acting => acting.text
  | .user acting => acting.text
  | .anonymous => "anonymous"

def Principal.text (principal : Principal) : String := principal.word ++ (":" ++ principal.value)

theorem principalId_eq (ctx : MemoryExecutionContext) :
    ctx.principalId = (Principal.of ctx).text := by
  rw [MemoryExecutionContext.principalId, Principal.of]
  cases ctx.agentId <;> cases ctx.userId <;>
    simp [Principal.text, Principal.word, Principal.value, ← String.toList_inj]

theorem partition_principal (principal : Principal) :
    partition ':' principal.text = (principal.word, true, principal.value) := by
  rw [Principal.text, ← singleton_colon]
  apply partition_append
  cases principal <;> simp [Principal.word]

theorem slash_of_agentFor {agent user : Id} : agent.text ≠ user.text ++ ("/" ++ other.text) := by
  intro isCut
  apply agent.slash_free
  rw [isCut]
  simp

theorem principal_text_injective {first second : Principal} (same : first.text = second.text) :
    first = second := by
  have parts := congrArg (partition ':') same
  rw [partition_principal, partition_principal] at parts
  have words : first.word = second.word := congrArg Prod.fst parts
  have values : first.value = second.value := congrArg (fun part => part.2.2) parts
  cases first with
  | agentFor user agent =>
    cases second with
    | agentFor otherUser otherAgent =>
      rw [Principal.value, Principal.value, ← singleton_slash] at values
      obtain ⟨users, agents⟩ := partsEq user.slash_free otherUser.slash_free values
      rw [Id.text_injective users, Id.text_injective agents]
    | agent other => exact absurd values.symm slash_of_agentFor
    | user other => simp [Principal.word] at words
    | anonymous => simp [Principal.word] at words
  | agent agent =>
    cases second with
    | agentFor otherUser otherAgent => exact absurd values slash_of_agentFor
    | agent other => rw [Id.text_injective values]
    | user other => simp [Principal.word] at words
    | anonymous => simp [Principal.word] at words
  | user user =>
    cases second with
    | agentFor otherUser otherAgent => simp [Principal.word] at words
    | agent other => simp [Principal.word] at words
    | user other => rw [Id.text_injective values]
    | anonymous => simp [Principal.word] at words
  | anonymous =>
    cases second with
    | agentFor otherUser otherAgent => simp [Principal.word] at words
    | agent other => simp [Principal.word] at words
    | user other => simp [Principal.word] at words
    | anonymous => rfl

theorem principalId_eq_iff {first second : MemoryExecutionContext} :
    first.principalId = second.principalId ↔
      first.agentId = second.agentId ∧ first.userId = second.userId := by
  constructor
  · intro same
    rw [principalId_eq, principalId_eq] at same
    have principals := principal_text_injective same
    revert principals
    rw [Principal.of, Principal.of]
    cases first.agentId <;> cases first.userId <;> cases second.agentId <;>
      cases second.userId <;> simp [and_comm]
  · intro ⟨sameAgent, sameUser⟩
    rw [principalId_eq, principalId_eq, Principal.of, Principal.of, sameAgent, sameUser]

def Granted (provider : Provider) (ctx : MemoryExecutionContext)
    (relation objectType name : String) : Prop :=
  ∃ subject ∈ subjects ctx,
    ∃ object ∈ (provider.listObjects subject relation objectType).take
        provider.maxListedObjects,
      objectName object = some (ctx.tenantId.text ++ "/" ++ name)

def Reads (provider : Provider) (ctx : MemoryExecutionContext) : Audience → String → Prop
  | .user, name => ctx.userId.map Id.text = some name
  | .thread, name =>
    Granted provider ctx "can_read" "thread" name ∧ ∀ named ∈ ctx.threadId.map Id.text, named = name
  | .workspace, name =>
    Granted provider ctx "viewer" "workspace" name ∧
      ∀ named ∈ ctx.workspaceId.map Id.text, named = name
  | .agroup, name => ctx.agentGroupId.map Id.text = some name
  | .run, name =>
    ctx.agentRunId.map Id.text = some name ∨ ctx.parentAgentRunId.map Id.text = some name
  | .runup, name => ctx.agentRunId.map Id.text = some name
  | .principal, name => ctx.principalId = name

section

variable {provider : Provider} {ctx : MemoryExecutionContext} {spec : VisibilitySpecification}

theorem mem_sink (names : List String) :
    ∀ sink : List String,
      name ∈ names.foldl (fun sink name => if name ∈ sink then sink else sink ++ [name]) sink ↔
        name ∈ sink ∨ name ∈ names := by
  induction names with
  | nil => simp
  | cons head names ih =>
    intro sink
    rw [foldl_cons, ih]
    by_cases known : head ∈ sink
    · rw [if_pos known]
      constructor
      · intro member
        exact member.imp_right (mem_cons_of_mem head)
      · intro member
        rcases member with isSunk | isNamed
        · exact .inl isSunk
        · rcases mem_cons.mp isNamed with isHead | isLater
          · exact .inl (isHead ▸ known)
          · exact .inr isLater
    · rw [if_neg known]
      simp [or_assoc]

theorem mem_mapM {f : α → Option β}
    (mapped : xs.mapM f = some ys) {y : β} : y ∈ ys ↔ ∃ x ∈ xs, f x = some y := by
  rw [← mem_map, mapM_eq_some mapped, mem_map_of_injective (Option.some_injective β)]

theorem exists_of_mapM {f : α → Option β}
    (mapped : xs.mapM f = some ys) {x : α} (member : x ∈ xs) : ∃ y ∈ ys, f x = some y := by
  have isMapped : f x ∈ xs.map f := mem_map_of_mem member
  rw [mapM_eq_some mapped] at isMapped
  obtain ⟨y, isY, image⟩ := mem_map.mp isMapped
  exact ⟨y, isY, image.symm⟩

theorem mem_listAll {relation objectType name : String} {truncated : Bool}
    (listed : provider.listAll ctx relation objectType = some (names, truncated)) :
    name ∈ names ↔
      ∃ subject ∈ subjects ctx,
        ∃ object ∈ (provider.listObjects subject relation objectType).take
            provider.maxListedObjects,
          objectName object = some name := by
  obtain ⟨listings, mapped, parts⟩ := Option.map_eq_some_iff.mp listed
  have isNames := congrArg Prod.fst parts
  dsimp only at isNames
  rw [← isNames, mem_sink, mem_flatMap]
  constructor
  · intro member
    rcases member with isNil | ⟨listing, isListing, isName⟩
    · cases isNil
    · obtain ⟨subject, isSubject, isList⟩ := (mem_mapM mapped).mp isListing
      obtain ⟨own, isOwn, rfl⟩ := Option.map_eq_some_iff.mp isList
      exact ⟨subject, isSubject, (mem_mapM isOwn).mp isName⟩
  · intro ⟨subject, isSubject, object, isObject, isName⟩
    obtain ⟨listing, isListing, isList⟩ := exists_of_mapM mapped isSubject
    obtain ⟨own, isOwn, rfl⟩ := Option.map_eq_some_iff.mp isList
    exact .inr ⟨_, isListing, (mem_mapM isOwn).mpr ⟨object, isObject, isName⟩⟩

theorem mem_own {items : List String} :
    name ∈ own tenantId items ↔ tenantId ++ "/" ++ name ∈ items := by
  rw [own, (perm_insertionSort _ _).mem_iff, mem_filterMap]
  constructor
  · intro ⟨item, member, isName⟩
    obtain ⟨starts, isName⟩ := Option.ite_none_right_eq_some.mp isName
    obtain ⟨rest, isItem⟩ := starts
    cases isName
    have whole :
        tenantId ++ "/" ++
            String.ofList (item.toList.drop (tenantId ++ "/").toList.length) = item := by
      rw [← String.toList_inj, ← isItem, drop_left]
      simp
    rw [whole]
    exact member
  · intro member
    refine ⟨_, member, ?_⟩
    have starts : (tenantId ++ "/").toList <+: (tenantId ++ "/" ++ name).toList := by
      rw [@String.toList_append (tenantId ++ "/") name]
      exact prefix_append _ _
    rw [if_pos starts, @String.toList_append (tenantId ++ "/") name, drop_left,
      String.ofList_toList]

theorem mem_narrowed :
    name ∈ narrowed named granted ↔ name ∈ granted ∧ ∀ other ∈ named, other = name := by
  cases named with
  | none => simp [narrowed]
  | some other => simp [narrowed, eq_comm]

/-- What a resolved scope holds. -/
structure ScopeOf (provider : Provider) (ctx : MemoryExecutionContext)
    (scope : AuthorizedScope) : Prop where
  tenantId : scope.tenantId = ctx.tenantId.text
  principal : scope.principal = ctx.principalId
  threads : ∀ name, name ∈ scope.threadIds ↔ Granted provider ctx "can_read" "thread" name
  workspaces : ∀ name, name ∈ scope.workspaceIds ↔ Granted provider ctx "viewer" "workspace" name
  runs : scope.runIds = ctx.agentRunId.toList.map Id.text ++ ctx.parentAgentRunId.toList.map Id.text
  agentGroups : scope.agentGroupIds = ctx.agentGroupId.toList.map Id.text
  userId : scope.userId = ctx.userId.map Id.text

theorem resolve_scope {scope : AuthorizedScope} (resolved : resolve provider ctx = some scope) :
    ScopeOf provider ctx scope := by
  obtain ⟨⟨threads, threadsOver⟩, isThreads, rest⟩ := Option.bind_eq_some_iff.mp resolved
  obtain ⟨⟨documents, documentsOver⟩, -, last⟩ := Option.bind_eq_some_iff.mp rest
  obtain ⟨⟨workspaces, workspacesOver⟩, isWorkspaces, whole⟩ := Option.bind_eq_some_iff.mp last
  cases whole
  constructor
  case threads =>
    intro name
    rw [mem_own, mem_listAll isThreads]
    exact Iff.rfl
  case workspaces =>
    intro name
    rw [mem_own, mem_listAll isWorkspaces]
    exact Iff.rfl
  case runs => exact map_append
  all_goals rfl

theorem mem_map_key {other : Audience} {owner : Id} :
    audience.key tenant.text name ∈ names.map (other.key owner.text) ↔
      tenant = owner ∧ audience = other ∧ name ∈ names := by
  rw [mem_map]
  constructor
  · intro ⟨found, member, same⟩
    obtain ⟨audiences, tenants, identifiers⟩ := key_eq_iff.mp same
    exact ⟨tenants.symm, audiences.symm, identifiers ▸ member⟩
  · intro ⟨sameTenant, sameAudience, member⟩
    exact ⟨name, member, key_eq_iff.mpr ⟨sameAudience.symm, sameTenant.symm, rfl⟩⟩

theorem named_eq {name : Option Id} {f : String → String} :
    (if missing (name.map Id.text) = true then []
      else (name.map Id.text).toList.map f) = (name.map Id.text).toList.map f := by
  cases name with
  | none => simp
  | some ident => simp [missing, ident.text_ne_empty]

theorem reads_iff (resolved : visibility provider ctx = some spec) :
    audience.key tenant.text name ∈ spec.keys ↔
      tenant = ctx.tenantId ∧ Reads provider ctx audience name := by
  obtain ⟨scope, isScope, rfl⟩ := Option.map_eq_some_iff.mp resolved
  have facts := resolve_scope isScope
  simp only [fromScope, facts.tenantId, facts.principal, facts.runs, facts.agentGroups,
    facts.userId, named_eq, mem_append, map_append, mem_map_key, mem_cons,
    key_ne_tenantKey, key_eq_iff, not_mem_nil, or_false, false_or, mem_narrowed,
    facts.threads, facts.workspaces]
  clear resolved isScope facts
  cases audience with
  | user => simp [Reads, eq_comm]
  | thread => simp [Reads, eq_comm]
  | workspace => simp [Reads, eq_comm]
  | agroup => simp [Reads, eq_comm]
  | run => simp [Reads, eq_comm, and_or_left]
  | runup => simp [Reads, eq_comm]
  | principal => simp [Reads, eq_comm]

theorem tenantKey_not_mem_map {other : String}
    : tenantKey tenantId ∉ names.map (audience.key other) := by
  intro member
  obtain ⟨name, -, same⟩ := mem_map.mp member
  exact key_ne_tenantKey audience other name tenantId same

section

variable (resolved : visibility provider ctx = some spec)
include resolved

theorem tenantKey_mem :
    tenantKey tenant.text ∈ spec.keys ↔ tenant = ctx.tenantId := by
  obtain ⟨scope, isScope, rfl⟩ := Option.map_eq_some_iff.mp resolved
  have facts := resolve_scope isScope
  simp only [fromScope, facts.tenantId, facts.userId, named_eq, mem_append,
    tenantKey_not_mem_map, mem_cons, (key_ne_tenantKey _ _ _ _).symm, not_mem_nil,
    or_false]
  constructor
  · intro same
    exact Id.text_injective (tenantKey_injective same)
  · intro same
    rw [same]

theorem read_cases (read : key ∈ spec.keys) :
    key = tenantKey ctx.tenantId.text ∨
      ∃ audience name, key = Audience.key audience ctx.tenantId.text name ∧
        Reads provider ctx audience name := by
  have shape : key = tenantKey ctx.tenantId.text ∨
      ∃ audience name, key = Audience.key audience ctx.tenantId.text name := by
    obtain ⟨scope, isScope, rfl⟩ := Option.map_eq_some_iff.mp resolved
    have facts := resolve_scope isScope
    have ofMap : ∀ {audience : Audience} {names : List String},
        key ∈ names.map (audience.key ctx.tenantId.text) →
          ∃ audience name, key = Audience.key audience ctx.tenantId.text name := by
      intro audience names member
      obtain ⟨name, -, isKey⟩ := mem_map.mp member
      exact ⟨audience, name, isKey.symm⟩
    simp only [fromScope, facts.tenantId, facts.userId, named_eq, mem_append] at read
    rcases read with (((((isOwn | isUser) | isThread) | isWorkspace) | isGroup) | isRun) | isUp
    · rcases mem_cons.mp isOwn with isTenant | isPrincipal
      · exact .inl isTenant
      · exact .inr ⟨.principal, _, mem_singleton.mp isPrincipal⟩
    · exact .inr (ofMap isUser)
    · exact .inr (ofMap isThread)
    · exact .inr (ofMap isWorkspace)
    · exact .inr (ofMap isGroup)
    · exact .inr (ofMap isRun)
    · exact .inr (ofMap isUp)
  rcases shape with isTenant | ⟨audience, name, isKey⟩
  · exact .inl isTenant
  · rw [isKey, reads_iff resolved] at read
    exact .inr ⟨audience, name, isKey, read.2⟩

theorem spec_tenant :
    spec.tenantId = ctx.tenantId.text := by
  obtain ⟨scope, isScope, rfl⟩ := Option.map_eq_some_iff.mp resolved
  exact (resolve_scope isScope).tenantId

end

end

section

variable {tenantId ownerPrincipal : String} {visibility : Visibility} {keys : List String}
  {scope : Option Scope} {anchors : Anchors}

def Addressed (tenantId ownerPrincipal : String) (anchors : Anchors) :
    Visibility → String → Prop
  | .priv, key => key = Audience.principal.key tenantId ownerPrincipal
  | .user, key => ∃ name, anchors.userId = some name ∧ key = Audience.user.key tenantId name
  | .agentGroup, key =>
    ∃ name, anchors.agentGroupId = some name ∧ key = Audience.agroup.key tenantId name
  | .run, key =>
    (∃ name, anchors.agentRunId = some name ∧ key = Audience.run.key tenantId name) ∨
      ∃ name, missing (some name) = false ∧ anchors.parentAgentRunId = some name ∧
        key = Audience.runup.key tenantId name
  | .thread, key => ∃ name, anchors.threadId = some name ∧ key = Audience.thread.key tenantId name
  | .workspace, key =>
    ∃ name, anchors.workspaceId = some name ∧ key = Audience.workspace.key tenantId name
  | .tenant, key => key = tenantKey tenantId

theorem keyOf_ok {name : Option String} {refusal : String}
    (named : keyOf audience tenantId name refusal = .ok keys) (key : String) :
    key ∈ keys ↔ ∃ text, name = some text ∧ key = audience.key tenantId text := by
  rw [keyOf] at named
  split at named
  case isTrue => cases named
  case isFalse =>
    cases named
    simp [eq_comm]

theorem mem_visibilityKeys
    (named : visibilityKeys tenantId visibility ownerPrincipal scope anchors = .ok keys)
    (key : String) :
    key ∈ keys ↔ Addressed tenantId ownerPrincipal (anchors.within scope) visibility key := by
  cases visibility with
  | priv =>
    cases named
    simp [Addressed]
  | user => exact keyOf_ok named key
  | agentGroup => exact keyOf_ok named key
  | run =>
    obtain ⟨own, isOwn, rfl⟩ := map_ok named
    rw [Addressed, ← keyOf_ok isOwn key]
    cases parent : (anchors.within scope).parentAgentRunId with
    | none => simp [missing]
    | some text =>
      by_cases empty : missing (some text) = true
      · rw [if_pos empty]
        simp [empty]
      · rw [if_neg empty]
        simp [empty]
  | thread => exact keyOf_ok named key
  | workspace => exact keyOf_ok named key
  | tenant =>
    cases named
    simp [Addressed]

theorem mem_readableBy
    (stored : readableBy tenantId visibility ownerPrincipal scope anchors = .ok keys)
    (key : String) :
    key ∈ keys ↔
      Addressed tenantId ownerPrincipal (anchors.within scope) visibility key ∨
        noOwnerKey visibility = false ∧ key = Audience.principal.key tenantId ownerPrincipal := by
  obtain ⟨named, isNamed, rfl⟩ := map_ok stored
  rw [← mem_visibilityKeys isNamed]
  dsimp only
  by_cases noOwner : noOwnerKey visibility = true
  · rw [if_pos noOwner]
    simp [noOwner]
  · rw [if_neg noOwner]
    split
    case isTrue known =>
      constructor
      · exact Or.inl
      · intro member
        rcases member with isNamedKey | ⟨-, isOwner⟩
        · exact isNamedKey
        · rw [isOwner]
          exact known
    case isFalse => simp [noOwner]

end

def Grant (provider : Provider) (reader : MemoryExecutionContext) (anchors : Anchors)
    (author : String) : Visibility → Prop
  | .priv => reader.principalId = author
  | .user => ∃ name, anchors.userId = some name ∧ Reads provider reader .user name
  | .agentGroup => ∃ name, anchors.agentGroupId = some name ∧ Reads provider reader .agroup name
  | .run =>
    (∃ name, anchors.agentRunId = some name ∧ Reads provider reader .run name) ∨
      ∃ name, missing (some name) = false ∧ anchors.parentAgentRunId = some name ∧
        Reads provider reader .runup name
  | .thread => ∃ name, anchors.threadId = some name ∧ Reads provider reader .thread name
  | .workspace => ∃ name, anchors.workspaceId = some name ∧ Reads provider reader .workspace name
  | .tenant => True

section

variable {provider : Provider} {writer reader : MemoryExecutionContext}
  {spec : VisibilitySpecification} {scope : Scope} {level : Visibility} {keys : List String}

theorem named_reads (resolved : visibility provider reader = some spec)
    (audience : Audience) (anchor : Option String) (tenant : Id) :
    (∃ key, (∃ name, anchor = some name ∧ key = audience.key tenant.text name) ∧ key ∈ spec.keys) ↔
      tenant = reader.tenantId ∧
        ∃ name, anchor = some name ∧ Reads provider reader audience name := by
  constructor
  · intro ⟨key, ⟨name, isAnchor, isKey⟩, member⟩
    rw [isKey, reads_iff resolved] at member
    exact ⟨member.1, name, isAnchor, member.2⟩
  · intro ⟨sameTenant, name, isAnchor, reads⟩
    exact ⟨_, ⟨name, isAnchor, rfl⟩, (reads_iff resolved).mpr ⟨sameTenant, reads⟩⟩

theorem addressed_reads (resolved : visibility provider reader = some spec)
    (anchors : Anchors) (owner : String) (level : Visibility) (tenant : Id) :
    (∃ key, Addressed tenant.text owner anchors level key ∧ key ∈ spec.keys) ↔
      tenant = reader.tenantId ∧ Grant provider reader anchors owner level := by
  cases level with
  | priv => simp [Addressed, Grant, reads_iff resolved, Reads]
  | user => exact named_reads resolved .user anchors.userId tenant
  | agentGroup => exact named_reads resolved .agroup anchors.agentGroupId tenant
  | run =>
    have ofRun := named_reads resolved .run anchors.agentRunId tenant
    have ofParent :
        (∃ key, (∃ name, missing (some name) = false ∧
            anchors.parentAgentRunId = some name ∧
              key = Audience.runup.key tenant.text name) ∧ key ∈ spec.keys) ↔
          tenant = reader.tenantId ∧ ∃ name, missing (some name) = false ∧
            anchors.parentAgentRunId = some name ∧ Reads provider reader .runup name := by
      constructor
      · intro ⟨key, ⟨name, isName, isAnchor, isKey⟩, member⟩
        rw [isKey, reads_iff resolved] at member
        exact ⟨member.1, name, isName, isAnchor, member.2⟩
      · intro ⟨sameTenant, name, isName, isAnchor, reads⟩
        exact ⟨_, ⟨name, isName, isAnchor, rfl⟩, (reads_iff resolved).mpr ⟨sameTenant, reads⟩⟩
    simp only [Addressed, Grant, or_and_right, exists_or, ofRun, ofParent, and_or_left]
  | thread => exact named_reads resolved .thread anchors.threadId tenant
  | workspace => exact named_reads resolved .workspace anchors.workspaceId tenant
  | tenant => simp [Addressed, Grant, tenantKey_mem resolved]

theorem allows_iff (stored : keysFor scope level writer = .ok keys)
    (resolved : visibility provider reader = some spec) :
    spec.allows writer.tenantId.text keys = true ↔
      writer.tenantId = reader.tenantId ∧
        (noOwnerKey level = false ∧ reader.principalId = writer.principalId ∨
          Grant provider reader ((anchorsOf writer).within (some scope))
            writer.principalId level) := by
  have members :
      (∃ key ∈ keys, key ∈ spec.keys) ↔
        writer.tenantId = reader.tenantId ∧
          (noOwnerKey level = false ∧ reader.principalId = writer.principalId ∨
            Grant provider reader ((anchorsOf writer).within (some scope))
              writer.principalId level) := by
    simp only [mem_readableBy stored, or_and_right, exists_or]
    rw [addressed_reads resolved]
    constructor
    · intro found
      rcases found with ⟨sameTenant, grant⟩ | ⟨key, ⟨keeps, isOwner⟩, member⟩
      · exact ⟨sameTenant, .inr grant⟩
      · rw [isOwner, reads_iff resolved] at member
        exact ⟨member.1, .inl ⟨keeps, member.2⟩⟩
    · intro ⟨sameTenant, grant⟩
      rcases grant with ⟨keeps, isAuthor⟩ | grant
      · refine .inr ⟨_, ⟨keeps, rfl⟩, ?_⟩
        exact (reads_iff resolved).mpr ⟨sameTenant, isAuthor⟩
      · exact .inl ⟨sameTenant, grant⟩
  rw [VisibilitySpecification.allows, spec_tenant resolved, Bool.and_eq_true, any_eq_true]
  simp only [decide_eq_true_eq]
  rw [members]
  constructor
  · intro both
    exact both.2
  · intro granted
    exact ⟨by rw [granted.1], granted⟩

theorem narrowed_subset {f : String → String} (member : key ∈ (narrowed named granted).map f) :
    key ∈ (narrowed none granted).map f := by
  obtain ⟨name, isNamed, isKey⟩ := mem_map.mp member
  exact mem_map.mpr ⟨name, (mem_narrowed.mp isNamed).1, isKey⟩

def unnamed (ctx : MemoryExecutionContext) : MemoryExecutionContext :=
  { ctx with threadId := none, workspaceId := none }

theorem unnamed_allows (resolved : visibility provider reader = some spec) :
    ∃ wide, visibility provider (unnamed reader) = some wide ∧
      ∀ tenantId keys, spec.allows tenantId keys = true → wide.allows tenantId keys = true := by
  obtain ⟨resolvedScope, isScope, rfl⟩ := Option.map_eq_some_iff.mp resolved
  refine ⟨_, by rw [visibility]; exact congrArg (Option.map _) isScope, ?_⟩
  intro tenantId keys allowed
  simp only [VisibilitySpecification.allows, Bool.and_eq_true, any_eq_true,
    decide_eq_true_eq] at allowed ⊢
  obtain ⟨sameTenant, key, member, read⟩ := allowed
  refine ⟨sameTenant, key, member, ?_⟩
  simp only [fromScope, mem_append] at read ⊢
  rcases read with (((((isOwn | isUser) | isThread) | isWorkspace) | isGroup) | isRun) | isUp
  · exact .inl (.inl (.inl (.inl (.inl (.inl isOwn)))))
  · exact .inl (.inl (.inl (.inl (.inl (.inr isUser)))))
  · exact .inl (.inl (.inl (.inl (.inr (narrowed_subset isThread)))))
  · exact .inl (.inl (.inl (.inr (narrowed_subset isWorkspace))))
  · exact .inl (.inl (.inr isGroup))
  · exact .inl (.inr isRun)
  · exact .inr isUp

theorem same_id {first second : Option Id}
    (same : first.map Id.text = second.map Id.text) : first = second :=
  Option.map_injective (fun _ _ => Id.text_injective) same

/-- What a request wrote with a visibility is read only under the grant that it names, or
by its author; keys tell their audiences; naming a thread or a workspace only narrows; and
the notes of a run are not its sibling's but are those of the run that spawned it. -/
theorem reads_only_granted (stored : keysFor scope level writer = .ok keys)
    (resolved : visibility provider reader = some spec) :
    (spec.allows writer.tenantId.text keys = true ↔
        writer.tenantId = reader.tenantId ∧
          (noOwnerKey level = false ∧ reader.agentId = writer.agentId ∧
              reader.userId = writer.userId ∨
            Grant provider reader ((anchorsOf writer).within (some scope))
              writer.principalId level)) ∧
      (∀ (first second : Audience) (tenant other : Id) (name otherName : String),
        first.key tenant.text name = second.key other.text otherName →
          first = second ∧ tenant = other ∧ name = otherName) ∧
      (∃ wide, visibility provider (unnamed reader) = some wide ∧
        ∀ tenantId stored, spec.allows tenantId stored = true →
          wide.allows tenantId stored = true) ∧
      (level = .run →
        (∀ parent, writer.parentAgentRunId = some parent →
          reader.parentAgentRunId = some parent →
          reader.agentRunId ≠ writer.agentRunId →
          writer.agentRunId ≠ some parent → reader.agentRunId ≠ some parent →
            spec.allows writer.tenantId.text keys = false) ∧
        (∀ parent, writer.parentAgentRunId = some parent →
          reader.agentRunId = some parent → writer.tenantId = reader.tenantId →
            spec.allows writer.tenantId.text keys = true)) := by
  have granted := allows_iff stored resolved
  refine ⟨?_, fun _ _ _ _ _ _ => key_eq_iff.mp, unnamed_allows resolved, ?_⟩
  · rw [granted, principalId_eq_iff]
  · intro isRun
    rw [isRun] at granted
    have parentName : ∀ parent : Id, missing (some parent.text) = false := by
      intro parent
      simp [missing, parent.text_ne_empty]
    constructor
    · intro parent writerParent readerParent otherRun notParent readerNotParent
      rw [Bool.eq_false_iff, ne_eq, granted]
      intro both
      rcases both.2 with ⟨keeps, -⟩ | ⟨name, isName, ofOwn | ofParent⟩ |
        ⟨name, -, isName, ofOwn⟩
      · exact absurd keeps (by decide)
      · exact otherRun (same_id (ofOwn.trans isName.symm))
      · rw [readerParent] at ofParent
        exact notParent (same_id (isName.trans ofParent.symm))
      · have isParent : writer.parentAgentRunId.map Id.text = some name := isName
        rw [writerParent] at isParent
        exact readerNotParent (same_id (ofOwn.trans isParent.symm))
    · intro parent writerParent readerRun sameTenant
      rw [granted]
      refine ⟨sameTenant, .inr (.inr ⟨parent.text, parentName parent, ?_, ?_⟩)⟩
      · simp [Anchors.within, anchorsOf, writerParent]
      · simp [Reads, readerRun]

end

private def idOf (text : String) (valid : isValidId text = true) : Id := ⟨text, valid⟩

def parentRun : MemoryExecutionContext where
  tenantId := idOf "acme" (by decide)
  agentId := some (idOf "planner" (by decide))
  agentRunId := some (idOf "run_1" (by decide))

def childRun : MemoryExecutionContext where
  tenantId := idOf "acme" (by decide)
  agentId := some (idOf "worker" (by decide))
  agentRunId := some (idOf "run_2" (by decide))
  parentAgentRunId := some (idOf "run_1" (by decide))

def noGrants : Provider where
  listObjects _ _ _ := []

def tenantScope : Scope where
  level := .tenant
  tenantId := "acme"
  levelHasAnchor := trivial

def childSpec : VisibilitySpecification where
  tenantId := "acme"
  keys :=
    ["tenant:acme", "principal:acme/agent:worker", "run:acme/run_2", "run:acme/run_1",
      "runup:acme/run_2"]
  truncated := false

def parentSpec : VisibilitySpecification where
  tenantId := "acme"
  keys :=
    ["tenant:acme", "principal:acme/agent:planner", "run:acme/run_1", "runup:acme/run_1"]
  truncated := false

/-- A request may read what another run wrote without being that run or the run that
spawned it: it names the run as its parent. -/
theorem child_reads_parent :
    ¬∀ (provider : Provider) (writer reader : MemoryExecutionContext) (scope : Scope)
        (keys : List String) (spec : VisibilitySpecification),
      keysFor scope .run writer = .ok keys → visibility provider reader = some spec →
        spec.allows writer.tenantId.text keys = true →
          writer.agentRunId = reader.agentRunId ∨ writer.parentAgentRunId = reader.agentRunId := by
  intro always
  have ownOrChild :=
    always noGrants parentRun childRun tenantScope ["run:acme/run_1"] childSpec rfl
      (by decide +kernel) (by decide +kernel)
  revert ownOrChild
  decide +kernel

/-- The parent reads its child's notes. -/
theorem parent_reads_child :
    parentSpec.allows "acme" ["run:acme/run_2", "runup:acme/run_1"] = true := by
  have stored :
      keysFor tenantScope .run childRun = .ok ["run:acme/run_2", "runup:acme/run_1"] := rfl
  have resolved : visibility noGrants parentRun = some parentSpec := by decide +kernel
  have ofRun := (reads_only_granted stored resolved).2.2.2 rfl
  exact ofRun.2 (idOf "run_1" (by decide)) rfl rfl rfl

end MemoryService.Authz
