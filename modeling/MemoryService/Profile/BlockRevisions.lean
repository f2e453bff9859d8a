import MemoryService.Authz.Revisions
import MemoryService.Foundation.Dict
import MemoryService.Profile.Blocks

/-!
# The revision that a profile write moves

A block belongs to a scope of its writer: the user, the principal of the agent, or the workspace.
-/

namespace MemoryService.Profile

open Authz Domain Foundation Option

inductive Level where
  | user
  | agent
  | workspace
  deriving DecidableEq

def Level.word : Level → String
  | .user => "user"
  | .agent => "agent"
  | .workspace => "workspace"

def Level.of (word : String) : Option Level :=
  [Level.user, .agent, .workspace].find? fun level => level.word = word

/-- What `$` stands before: the end of the text, or a line feed that ends it. -/
def beforeEnd (text : String) : String :=
  if text.toList.getLast? = some '\n' then .ofList text.toList.dropLast else text

/-- `[a-z0-9]` -/
def isPlain (c : Char) : Bool := 'a' ≤ c && c ≤ 'z' || '0' ≤ c && c ≤ '9'

/-- `[a-z0-9][a-z0-9_-]{0,39}` -/
def isSuffix (name : String) : Bool :=
  match name.toList with
  | [] => false
  | first :: rest =>
    isPlain first && rest.all (fun c => isPlain c || c = '_' || c = '-') && rest.length ≤ 39

/-- `BLOCK_NAME`, with the level that it matches. -/
def blockName (block : String) : Option Level :=
  match partition '.' block with
  | (word, true, name) => (Level.of word).filter fun _ => isSuffix (beforeEnd name)
  | (word, false, _) => Level.of (beforeEnd word)

variable (ctx : MemoryExecutionContext)

def profileScope : Level → Option String
  | .user => ctx.userId.map fun user => "user:" ++ user.text
  | .agent => ctx.agentId.map fun _ => ctx.principalId
  | .workspace => ctx.workspaceId.map fun workspace => "workspace:" ++ workspace.text

/-- The values of `profile_scopes`. -/
def profileScopes : List String := [Level.user, .agent, .workspace].filterMap (profileScope ctx)

variable (block : String)

def blockScope (ctx : MemoryExecutionContext) : Except String String :=
  match blockName block with
  | none => .error "a profile block is user, agent or workspace, optionally .<name>"
  | some level =>
    match profileScope ctx level with
    | none => .error ("a " ++ level.word ++ " block needs a " ++ level.word ++ " in the scope")
    | some scope => .ok scope

/-- `_level` -/
def level : String := (partition '.' block).1

/-- `_REVISION_OF_LEVEL` -/
def revisionOfLevel : Level → RevisionKind
  | .user => .user
  | .agent => .agent
  | .workspace => .tenant

/-- `text.split(separator, 1)[-1]` -/
def afterFirst (separator : Char) (text : String) : String :=
  match partition separator text with
  | (_, true, tail) => tail
  | (whole, false, _) => whole

/-- The counter that `_bump` moves; none where it raises. -/
def bump (block scope : String) : Option RevisionKey :=
  match (Level.of (level block)).map revisionOfLevel with
  | some .user =>
    match partition ':' scope with
    | (_, true, identifier) => some (.user, identifier)
    | (_, false, _) => none
  | some .agent => some (.agent, afterFirst ':' (lastPart '/' scope))
  | some kind => some (kind, "")
  | none => none

def moved : Option RevisionKey := (blockScope block ctx).toOption.bind (bump block)

/-- Every reader of the block has the counter among those of its context. -/
def Subscribed (key : RevisionKey) : Prop :=
  ∀ (reader : MemoryExecutionContext) (scope : String), reader.tenantId = ctx.tenantId →
    blockScope block ctx = .ok scope → scope ∈ profileScopes reader → key ∈ contextRevisions reader

def Whole : Prop :=
  level block = "agent" → ctx.userId.isSome = true → ∀ agent ∈ ctx.agentId, ':' ∉ agent.text.toList

@[simp] theorem Level.of_word (found : Level) : Level.of found.word = some found := by
  cases found <;> decide

variable {found : Level} {separator : Char} {text name : String} {reader : MemoryExecutionContext}
  {agent : Id}

theorem Level.word_of {word : String} (isLevel : Level.of word = some found) :
    found.word = word := by
  have matched := List.find?_some isLevel
  simpa using matched

theorem of_level {block : String} (isBlock : blockName block = some found)
    {key : RevisionKey} {scope : String} (isMoved : bump block scope = some key) :
    Level.of (level block) = some found := by
  rw [blockName] at isBlock
  rw [bump, level] at isMoved
  rw [level]
  split at isBlock
  case h_1 word name parts =>
    rw [parts]
    exact (Option.filter_eq_some_iff.mp isBlock).1
  case h_2 word name parts =>
    rw [parts] at isMoved ⊢
    cases isLevel : Level.of word with
    | none => simp [isLevel] at isMoved
    | some other =>
      have same : beforeEnd word = word := by
        have isWord := Level.word_of isLevel
        rw [← isWord]
        cases other <;> decide
      rw [← isLevel, ← isBlock, same]

section Moved

variable {ctx : MemoryExecutionContext} {block scope : String} {key : RevisionKey}

theorem blockScope_ok (isScope : blockScope block ctx = .ok scope) :
    ∃ found, blockName block = some found ∧ profileScope ctx found = some scope := by
  rw [blockScope] at isScope
  cases isBlock : blockName block with
  | none => simp [isBlock] at isScope
  | some found =>
    rw [isBlock] at isScope
    dsimp only at isScope
    cases isHeld : profileScope ctx found with
    | none => simp [isHeld] at isScope
    | some other =>
      rw [isHeld] at isScope
      cases isScope
      exact ⟨found, rfl, isHeld⟩

theorem afterFirst_append {head tail : String} (free : separator ∉ head.toList) :
    afterFirst separator (head ++ (String.singleton separator ++ tail)) = tail := by
  rw [afterFirst, partition_append free]

theorem afterFirst_free (free : separator ∉ text.toList) : afterFirst separator text = text := by
  have nothing : text.toList.dropWhile (· ≠ separator) = [] := by
    rw [List.dropWhile_eq_nil_iff]
    intro c member
    have differs : c ≠ separator := fun same => free (same ▸ member)
    simpa using differs
  rw [afterFirst, partition, nothing]

theorem afterFirst_eq_iff : afterFirst separator text = text ↔ separator ∉ text.toList := by
  constructor
  · intro whole member
    obtain ⟨before, after, isText, free⟩ := List.eq_append_cons_of_mem member
    have isCut : text = .ofList before ++ (String.singleton separator ++ .ofList after) := by
      apply String.toList_injective
      simp [isText]
    have shorter := congrArg (fun rest => rest.toList.length) whole
    rw [isCut, afterFirst_append (by simpa using free)] at shorter
    simp only [String.toList_append, String.toList_ofList, String.toList_singleton,
      List.length_append, List.length_cons, List.length_nil] at shorter
    omega
  · exact afterFirst_free

theorem partition_scope (isHeld : profileScope ctx found = some scope) :
    (partition ':' scope).1 = found.word := by
  cases found with
  | user =>
    obtain ⟨user, -, rfl⟩ := Option.map_eq_some_iff.mp isHeld
    have parts : "user:" ++ user.text = "user" ++ (String.singleton ':' ++ user.text) := by
      simp [← String.toList_inj]
    rw [parts, partition_append (by decide)]
    rfl
  | agent =>
    obtain ⟨agent, isAgent, rfl⟩ := Option.map_eq_some_iff.mp isHeld
    rw [principalId_eq, partition_principal, Principal.of, isAgent]
    cases ctx.userId <;> rfl
  | workspace =>
    obtain ⟨workspace, -, rfl⟩ := Option.map_eq_some_iff.mp isHeld
    have parts : "workspace:" ++ workspace.text =
        "workspace" ++ (String.singleton ':' ++ workspace.text) := by
      simp [← String.toList_inj]
    rw [parts, partition_append (by decide)]
    rfl

theorem mem_profileScopes :
    scope ∈ profileScopes ctx ↔ ∃ found, profileScope ctx found = some scope := by
  rw [profileScopes, List.mem_filterMap]
  constructor
  · intro ⟨found, _, isHeld⟩
    exact ⟨found, isHeld⟩
  · intro ⟨found, isHeld⟩
    exact ⟨found, by cases found <;> simp, isHeld⟩

theorem held_of_mem
    (isHeld : profileScope ctx found = some scope) (shown : scope ∈ profileScopes reader) :
    profileScope reader found = some scope := by
  obtain ⟨other, isOther⟩ := mem_profileScopes.mp shown
  have words : other.word = found.word :=
    (partition_scope isOther).symm.trans (partition_scope isHeld)
  have same : other = found := by
    rw [← Option.some.injEq, ← Level.of_word other, words, Level.of_word]
  rw [← same]
  exact isOther

theorem agent_mem_contextRevisions (isAgent : reader.agentId = some agent) :
    ((.agent, name) : RevisionKey) ∈ contextRevisions reader ↔ name = agent.text := by
  simp [contextRevisions, isAgent]

theorem afterFirst_principal (isAgent : ctx.agentId = some agent) :
    afterFirst ':' (lastPart '/' ctx.principalId) =
      if ctx.userId.isSome then afterFirst ':' agent.text else agent.text := by
  cases isUser : ctx.userId with
  | none =>
    have isPrincipal : ctx.principalId = "agent" ++ (String.singleton ':' ++ agent.text) := by
      simp [MemoryExecutionContext.principalId, isAgent, isUser, ← String.toList_inj]
    have noSlash : '/' ∉ ctx.principalId.toList := by
      rw [isPrincipal]
      simpa using agent.slash_free
    rw [lastPart_free noSlash, isPrincipal, afterFirst_append (by decide)]
    rfl
  | some user =>
    have isPrincipal : ctx.principalId =
        ("agent:" ++ user.text) ++ (String.singleton '/' ++ agent.text) := by
      simp [MemoryExecutionContext.principalId, isAgent, isUser, ← String.toList_inj]
    rw [isPrincipal, lastPart_append agent.slash_free]
    rfl

theorem subscribed_agent_iff (isAgent : ctx.agentId = some agent)
    (isScope : blockScope block ctx = .ok ctx.principalId)
    (isHeld : profileScope ctx .agent = some ctx.principalId) :
    Subscribed ctx block (.agent, name) ↔ name = agent.text := by
  constructor
  · intro subscribed
    have shown := subscribed ctx _ rfl isScope (mem_profileScopes.mpr ⟨.agent, isHeld⟩)
    exact (agent_mem_contextRevisions isAgent).mp shown
  · intro isName reader scope _ isOwn shown
    have same : ctx.principalId = scope := Except.ok.inj (isScope.symm.trans isOwn)
    rw [← same] at shown
    obtain ⟨other, isOther, samePrincipal⟩ := Option.map_eq_some_iff.mp (held_of_mem isHeld shown)
    have sameAgent := (principalId_eq_iff.mp samePrincipal).1
    rw [agent_mem_contextRevisions (sameAgent.trans isAgent)]
    exact isName

theorem subscribed_iff (isMoved : moved ctx block = some key) :
    Subscribed ctx block key ↔ Whole ctx block := by
  obtain ⟨scope, isOk, isBumped⟩ := Option.bind_eq_some_iff.mp isMoved
  have isScope : blockScope block ctx = .ok scope := by
    cases answer : blockScope block ctx with
    | error text =>
      rw [answer] at isOk
      cases isOk
    | ok other =>
      rw [answer] at isOk
      cases isOk
      rfl
  obtain ⟨found, isBlock, isHeld⟩ := blockScope_ok isScope
  have isLevel := of_level isBlock isBumped
  have isWord := Level.word_of isLevel
  rw [bump, isLevel, Option.map_some] at isBumped
  cases found with
  | user =>
    have notAgent : Whole ctx block := by
      intro isAgent
      rw [← isWord] at isAgent
      exact absurd isAgent (by decide)
    obtain ⟨user, isUser, rfl⟩ := Option.map_eq_some_iff.mp isHeld
    have parts : "user:" ++ user.text = "user" ++ (String.singleton ':' ++ user.text) := by
      simp [← String.toList_inj]
    rw [parts, revisionOfLevel, partition_append (by decide)] at isBumped
    cases isBumped
    refine iff_of_true (fun reader scope _ isOwn shown => ?_) notAgent
    have same := Except.ok.inj (isScope.symm.trans isOwn)
    rw [← same] at shown
    obtain ⟨other, isOther, sameText⟩ := Option.map_eq_some_iff.mp (held_of_mem isHeld shown)
    have sameUser : other.text = user.text := by
      have parts := congrArg (fun text => text.toList.drop 5) sameText
      exact String.toList_inj.mp (by simpa using parts)
    simp [contextRevisions, isOther, sameUser]
  | agent =>
    obtain ⟨agent, isAgent, rfl⟩ := Option.map_eq_some_iff.mp isHeld
    cases isBumped
    rw [subscribed_agent_iff isAgent isScope isHeld, afterFirst_principal isAgent, Whole]
    have isLevelWord : level block = "agent" := isWord.symm
    cases isUser : ctx.userId with
    | none => simp
    | some user => simp [isLevelWord, isAgent, afterFirst_eq_iff]
  | workspace =>
    have notAgent : Whole ctx block := by
      intro isAgent
      rw [← isWord] at isAgent
      exact absurd isAgent (by decide)
    cases isBumped
    refine iff_of_true (fun reader scope _ _ _ => ?_) notAgent
    simp [contextRevisions, revisionOfLevel]

end Moved

structure BlockKey where
  tenantId : String
  scopeKey : String
  block : String
  deriving DecidableEq

abbrev Blocks := Dict BlockKey ProfileBlock

inductive Write where
  | edit (ctx : MemoryExecutionContext) (block : String) (old : List Char)
      (new : Option (List Char)) (now : Instant)
  | answer (key : BlockKey) (text : List Char)
  | refresh (tenantId userId : Id) (current : Option ProfileBlock) (text : List Char)
      (now : Instant)

def userBlock : String := "user"

def userKey (tenantId userId : Id) : BlockKey := ⟨tenantId.text, "user:" ++ userId.text, userBlock⟩

namespace Blocks

variable (blocks : Blocks)

/-- `edit`; none where it raises, and nothing is stored where the counter cannot be moved. -/
def edit (ctx : MemoryExecutionContext) (block : String) (old : List Char)
    (new : Option (List Char)) (now : Instant) : Option Blocks :=
  (blockScope block ctx).toOption.bind fun scope =>
    let key : BlockKey := ⟨ctx.tenantId.text, scope, block⟩
    (editedText (blocks.get? key) old new).bind fun text =>
      (bump block scope).map fun _ =>
        blocks.set key
          (put (blocks.get? key) { text, version := 0, source := .edited, updatedAt := now })

def answer (key : BlockKey) (text : List Char) : Option Blocks :=
  (blocks.get? key).bind fun latest =>
    (bump key.block key.scopeKey).map fun _ =>
      blocks.set key (put (some latest) { latest with text, source := .learned })

/-- `refresh_user`; none where the block was edited meanwhile. -/
def refresh (key : BlockKey) (current : Option ProfileBlock)
    (text : List Char) (now : Instant) : Option Blocks :=
  let latest := blocks.get? key
  if latest.any fun latest => current.any fun current => latest.version ≠ current.version then none
  else (writtenBlock latest current text now).map (blocks.set key)

def apply : Write → Option Blocks
  | .edit ctx block old new now => blocks.edit ctx block old new now
  | .answer key text => blocks.answer key text
  | .refresh tenantId userId current text now =>
    blocks.refresh (userKey tenantId userId) current text now

def shown (reader : MemoryExecutionContext) (blocks : Blocks) : List (BlockKey × ProfileBlock) :=
  (blocks.items.filter fun entry =>
    entry.1.tenantId = reader.tenantId.text ∧ entry.1.scopeKey ∈ profileScopes reader).mergeSort
      fun first second => first.1.block ≤ second.1.block

end Blocks

def Write.moves : Write → Option (String × RevisionKey)
  | .edit ctx block _ _ _ => (moved ctx block).map (ctx.tenantId.text, ·)
  | .answer key _ => (bump key.block key.scopeKey).map (key.tenantId, ·)
  | .refresh tenantId userId _ _ _ => some (tenantId.text, (.user, userId.text))

def contexts : Views.World Blocks Write MemoryExecutionContext (List (BlockKey × ProfileBlock))
    (String × RevisionKey) where
  apply := Blocks.apply
  moves := fun _ write => write.moves.toList
  view := Blocks.shown
  reads := fun reader => (contextRevisions reader).map (reader.tenantId.text, ·)

abbrev Contexts :=
  Views.State Blocks MemoryExecutionContext (List (BlockKey × ProfileBlock)) (String × RevisionKey)

def Edits (_ : Contexts) : Views.Action Write MemoryExecutionContext → Prop
  | .write (.edit ctx block _ _ _) => Whole ctx block
  | _ => True

def BlockKey.Written (key : BlockKey) : Prop :=
  ∃ ctx, key.tenantId = ctx.tenantId.text ∧ blockScope key.block ctx = .ok key.scopeKey ∧
    Whole ctx key.block

section Writes

variable {blocks next : Blocks} {key : BlockKey} {write : Write}

theorem level_user : Level.of (level userBlock) = some .user := by decide

theorem blockName_user : blockName userBlock = some .user := by decide

theorem userKey_written (tenantId userId : Id) : (userKey tenantId userId).Written := by
  have notAgent : level userBlock ≠ "agent" := by decide
  refine ⟨{ tenantId, userId := some userId }, rfl, ?_, fun isAgent => absurd isAgent notAgent⟩
  rw [userKey, blockScope, blockName_user]
  rfl

theorem bump_userKey (tenantId userId : Id) :
    bump (userKey tenantId userId).block (userKey tenantId userId).scopeKey =
      some (.user, userId.text) := by
  have parts : "user:" ++ userId.text = "user" ++ (String.singleton ':' ++ userId.text) := by
    simp [← String.toList_inj]
  rw [userKey, parts, bump, partition_append (by decide), level_user]
  rfl

theorem apply_cases (known : ∀ key ∈ blocks.keys, key.Written)
    (whole : ∀ ctx block old new now, write = .edit ctx block old new now → Whole ctx block)
    (applied : blocks.apply write = some next) :
    ∃ key value counter, key.Written ∧ next = blocks.set key value ∧
      bump key.block key.scopeKey = some counter ∧ write.moves = some (key.tenantId, counter) := by
  cases write with
  | edit ctx block old new now =>
    obtain ⟨scope, isScope, rest⟩ := Option.bind_eq_some_iff.mp applied
    obtain ⟨text, -, last⟩ := Option.bind_eq_some_iff.mp rest
    obtain ⟨counter, isCounter, rfl⟩ := Option.map_eq_some_iff.mp last
    have isOk : blockScope block ctx = .ok scope := by
      cases answer : blockScope block ctx with
      | error text =>
        rw [answer] at isScope
        cases isScope
      | ok other =>
        rw [answer] at isScope
        cases isScope
        rfl
    refine ⟨⟨ctx.tenantId.text, scope, block⟩, _, counter, ?_, rfl, isCounter, ?_⟩
    · exact ⟨ctx, rfl, isOk, whole ctx block old new now rfl⟩
    · rw [Write.moves, moved, isScope, Option.bind_some, isCounter]
      rfl
  | answer key text =>
    obtain ⟨latest, isLatest, rest⟩ := Option.bind_eq_some_iff.mp applied
    obtain ⟨counter, isCounter, rfl⟩ := Option.map_eq_some_iff.mp rest
    refine ⟨key, _, counter, known key (Dict.mem_keys_of_get? isLatest), rfl, isCounter, ?_⟩
    rw [Write.moves, isCounter]
    rfl
  | refresh tenantId userId current text now =>
    rw [Blocks.apply, Blocks.refresh] at applied
    obtain ⟨-, applied⟩ := ite_none_left_eq_some.mp applied
    obtain ⟨value, -, rfl⟩ := Option.map_eq_some_iff.mp applied
    exact ⟨userKey tenantId userId, value, (.user, userId.text),
      userKey_written tenantId userId, rfl, bump_userKey tenantId userId, rfl⟩

theorem shown_set {value : ProfileBlock}
    (changed : Blocks.shown reader (blocks.set key value) ≠ Blocks.shown reader blocks) :
    key.tenantId = reader.tenantId.text ∧ key.scopeKey ∈ profileScopes reader := by
  by_contra hidden
  let inScopes (key : BlockKey) : Bool :=
    key.tenantId = reader.tenantId.text ∧ key.scopeKey ∈ profileScopes reader
  have isHidden : inScopes key = false := decide_eq_false hidden
  have same := Dict.filter_items_set blocks inScopes value isHidden
  apply changed
  show (List.filter (fun entry => inScopes entry.1) (blocks.set key value).items).mergeSort _ =
    (List.filter (fun entry => inScopes entry.1) blocks.items).mergeSort _
  rw [same]

theorem announced (known : ∀ key ∈ blocks.keys, key.Written)
    (whole : ∀ ctx block old new now, write = .edit ctx block old new now → Whole ctx block) :
    Views.Announced contexts blocks write := by
  intro next applied reader changed
  obtain ⟨key, value, counter, written, rfl, isCounter, isMoved⟩ := apply_cases known whole applied
  obtain ⟨sameTenant, isShown⟩ := shown_set changed
  obtain ⟨ctx, isTenant, isScope, isWhole⟩ := written
  have movedByBlock : moved ctx key.block = some counter := by
    rw [moved, isScope]
    exact isCounter
  have isRead := (subscribed_iff movedByBlock).mpr isWhole reader key.scopeKey
    (Id.text_injective (sameTenant.symm.trans isTenant)) isScope isShown
  refine ⟨(key.tenantId, counter), ?_, ?_⟩
  · show (key.tenantId, counter) ∈ write.moves.toList
    rw [isMoved]
    exact List.mem_singleton_self _
  · exact List.mem_map.mpr ⟨counter, isRead, by rw [sameTenant]⟩

end Writes

/-- What every run of whole edits keeps. -/
structure Kept (state : Contexts) : Prop where
  known : ∀ key ∈ state.store.keys, key.Written
  sound : Views.Sound contexts state

theorem Kept.step {state next : Contexts} {action : Views.Action Write MemoryExecutionContext}
    (stepped : Views.step contexts state action = some next) (edits : Edits state action)
    (kept : Kept state) : Kept next := by
  cases action with
  | write write =>
    have whole : ∀ ctx block old new now, write = .edit ctx block old new now →
        Whole ctx block := by
      intro ctx block old new now same
      rw [same] at edits
      exact edits
    refine ⟨?_, kept.sound.write (announced kept.known whole) stepped⟩
    obtain ⟨blocks, applied, rfl⟩ := map_eq_some_iff.mp stepped
    obtain ⟨key, value, counter, written, rfl, -, -⟩ := apply_cases kept.known whole applied
    intro other member
    cases (Dict.mem_keys_set _ value).mp member with
    | inl same => exact same ▸ written
    | inr isOld => exact kept.known other isOld
  | look reader =>
    refine ⟨?_, kept.sound.look stepped⟩
    cases stepped
    exact kept.known
  | keep place =>
    refine ⟨?_, kept.sound.keep stepped⟩
    obtain ⟨look, -, rfl⟩ := map_eq_some_iff.mp stepped
    exact kept.known

theorem kept_start : Kept { store := ∅ } where
  known := by simp [Dict.keys, EmptyCollection.emptyCollection, Dict.empty]
  sound := Views.sound_start ∅

/-- A write moves a counter of every context that shows the block just where the block is whole;
and after any run whose edits are of whole blocks, what is kept for a reader under the counters
of now shows the blocks of now. -/
theorem profile_writes_reach_readers (ctx : MemoryExecutionContext) (block : String)
    (key : RevisionKey) (isMoved : moved ctx block = some key) :
    (Subscribed ctx block key ↔ Whole ctx block) ∧
    ∀ actions state, Foundation.Meets (Views.step contexts) Edits { store := ∅ } actions →
      Foundation.run (Views.step contexts) { store := ∅ } actions = some state →
        Views.Fresh contexts state :=
  ⟨subscribed_iff isMoved,
    fun _ _ meets reached =>
      (run_invariant_of_meets (fun stepped edits kept => kept.step stepped edits) reached meets
        kept_start).sound.fresh⟩

def planner : MemoryExecutionContext where
  tenantId := ⟨"fjord", by decide⟩
  userId := some ⟨"priya", by decide⟩
  agentId := some ⟨"notetaker", by decide⟩

def keptThenWritten : List (Views.Action Write MemoryExecutionContext) :=
  [.look planner, .keep 0, .write (.edit planner "agent.notes" [] (some ['x']) ⟨0⟩)]

theorem planner_reaches_readers :
    (Subscribed planner "agent.notes" (.agent, "notetaker") ↔ Whole planner "agent.notes") ∧
      ∀ state, Foundation.run (Views.step contexts) { store := ∅ } keptThenWritten = some state →
        Views.Fresh contexts state := by
  obtain ⟨subscribed, fresh⟩ :=
    profile_writes_reach_readers planner "agent.notes" (.agent, "notetaker") (by decide +kernel)
  refine ⟨subscribed, fun state => fresh keptThenWritten state (meets_of_forall ?_)⟩
  have isWhole : Whole planner "agent.notes" := by
    intro _ _ agent isAgent
    cases isAgent
    decide
  have always : ∀ _ : Contexts, Whole planner "agent.notes" := fun _ => isWhole
  simpa [keptThenWritten, Edits] using always

/-- The block of an agent with a colon in its name, which acts for a user: the counter that is
moved is of another agent. -/
theorem colon_is_cut :
    ¬ ∀ ctx block key, moved ctx block = some key → Subscribed ctx block key := by
  intro always
  let ctx : MemoryExecutionContext :=
    { tenantId := ⟨"acme", by decide⟩
      userId := some ⟨"priya", by decide⟩
      agentId := some ⟨"bot:v2", by decide⟩ }
  have isMoved : moved ctx "agent" = some (.agent, "v2") := by decide +kernel
  have whole := (subscribed_iff isMoved).mp (always ctx "agent" _ isMoved)
  exact absurd (whole (by decide) rfl _ rfl) (by decide)

end MemoryService.Profile
