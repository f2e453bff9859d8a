import MemoryService.Domain.Context
import MemoryService.Domain.Conversation
import Mathlib.Data.Finset.Image
import Mathlib.Data.List.Sort

/-!
# What a search marks as superseded

The rules read the verbatim turns of the conversations shown, the newest values of the user's
profile and the first messages of a conversation.
-/

namespace MemoryService.Retrieval.Marks

open Domain List

def truthy (text : Option String) : Option String := text.filter (· ≠ "")

theorem truthy_eq_some {text : Option String} {word : String} :
    truthy text = some word ↔ text = some word ∧ word ≠ "" := by
  rw [truthy, Option.filter_eq_some_iff, decide_eq_true_iff]

structure SaidMemory extends CanonicalMemory where
  userId : Option String := none
  threadId : Option String := none
  visibilityKeys : List String := []
  createdAt : Instant := ⟨0⟩
  /-- the `message_id` of each piece of evidence -/
  messageIds : List (Option String) := []

structure MessageRow where
  messageId : String
  tenantId : String
  threadId : String
  role : MessageRole := .user
  kind : MessageKind := .visible
  sequence : Nat
  deletedAt : Option Instant := none

inductive SearchKind where
  | memory
  | chunk
  | summary
  | episode
  | message
  deriving DecidableEq

structure SearchItem where
  id : String
  kind : SearchKind
  threadId : Option String := none
  superseded : Option Bool := none

def episodeId (threadId : String) : String := "epi_" ++ threadId

theorem episodeId_injective {thread other : String} (same : episodeId thread = episodeId other) :
    thread = other := by
  have isSame := congrArg String.toList same
  rw [episodeId, episodeId, String.toList_append, String.toList_append] at isSame
  exact String.toList_inj.mp (append_cancel_left isSame)

theorem ne_episodeId {id : String} (isMessage : id.toList.head? = some 'm') (thread : String) :
    id ≠ episodeId thread := by
  rintro rfl
  rw [episodeId, String.toList_append] at isMessage
  revert isMessage
  simp

variable (m : SaidMemory)

/-- The messages that a memory was taken from. -/
def SaidMemory.said : List String := m.messageIds.filterMap truthy

/-- The rows.  No message is named like an episode. -/
structure Store where
  memories : List SaidMemory
  messages : List MessageRow := []
  named : ∀ m ∈ memories, ∀ id ∈ m.said, ∀ thread, id ≠ episodeId thread

/-- Not forgotten, current and not marked as replaced. -/
def SaidMemory.Stands : Prop :=
  m.deletedAt = none ∧ m.temporal.status = .current ∧ m.systemMetadata.replacedBy = none
deriving Decidable

def SaidMemory.IsTurn : Prop :=
  m.deletedAt = none ∧ m.systemMetadata.category = some "verbatim_turn"
deriving Decidable

def profileMemoryTypes : List MemoryType := [.user, .preference]

/-- A turn that was replaced, or a value of the profile that a later one superseded. -/
def SaidMemory.WasReplaced : Prop :=
  m.IsTurn ∧ m.systemMetadata.replacedBy.isSome = true ∨
    m.deletedAt = none ∧ m.memoryType ∈ profileMemoryTypes ∧
      m.temporal.status = .superseded ∧ (truthy m.temporal.supersededBy).isSome = true
deriving Decidable

def profileRead : Nat := 200

def episodeRead : Nat := 50

variable (store : Store)

def verbatimTurns (tenantId : String) (threadIds : List String)
    (replaced : Bool) : List SaidMemory :=
  store.memories.filter fun m =>
    m.tenantId = tenantId ∧ (∃ thread ∈ threadIds, m.threadId = some thread) ∧
      m.deletedAt = none ∧ m.systemMetadata.category = some "verbatim_turn" ∧
        m.systemMetadata.replacedBy.isSome = replaced

theorem mem_verbatimTurns {store : Store} {tenantId : String} {threadIds : List String}
    {replaced : Bool} {m : SaidMemory} :
    m ∈ verbatimTurns store tenantId threadIds replaced ↔ m ∈ store.memories ∧
      m.tenantId = tenantId ∧ (∃ thread ∈ threadIds, m.threadId = some thread) ∧ m.IsTurn ∧
        m.systemMetadata.replacedBy.isSome = replaced := by
  rw [verbatimTurns, mem_filter, decide_eq_true_iff, SaidMemory.IsTurn, and_assoc]

/-- A value of the user's profile that the user may read. -/
def SaidMemory.IsValueOf (tenantId userId : String) (m : SaidMemory) : Prop :=
  let audience := ["user:" ++ tenantId ++ "/" ++ userId,
    "principal:" ++ tenantId ++ "/user:" ++ userId]
  m.userId = some userId ∧ m.memoryType ∈ profileMemoryTypes ∧
    m.visibilityKeys.any (· ∈ audience) = true
deriving Decidable

def profileRows (tenantId userId : String) (status : TemporalStatus) :
    List SaidMemory :=
  store.memories.filter fun m =>
    m.tenantId = tenantId ∧ m.IsValueOf tenantId userId ∧ m.deletedAt = none ∧
      m.temporal.status = status

/-- The newest first, and no more of them than are read. -/
def aboutUser (tenantId userId : String) (status : TemporalStatus) :
    List SaidMemory :=
  ((profileRows store tenantId userId status).insertionSort fun a b =>
    b.createdAt < a.createdAt ∨
      a.createdAt = b.createdAt ∧ b.memoryId ≤ a.memoryId).take profileRead

def rowsAfter (tenantId threadId : String) (afterSequence : Nat) :
    List MessageRow :=
  store.messages.filter fun m =>
    m.tenantId = tenantId ∧ m.threadId = threadId ∧ m.deletedAt = none ∧
      m.kind = .visible ∧ afterSequence < m.sequence

def listAfter (tenantId threadId : String) (afterSequence limit : Nat) :
    List MessageRow :=
  ((rowsAfter store tenantId threadId afterSequence).insertionSort fun a b =>
    a.sequence ≤ b.sequence).take limit

theorem mem_take_insertionSort {α : Type} {order : α → α → Prop} [DecidableRel order]
    {rows : List α} {n : Nat} {x : α} (few : rows.length ≤ n) :
    x ∈ (rows.insertionSort order).take n ↔ x ∈ rows := by
  rw [take_of_length_le ((length_insertionSort order rows).trans_le few), mem_insertionSort]

def saidIn (turns : List SaidMemory) : Finset String := (turns.flatMap SaidMemory.said).toFinset

theorem mem_saidIn {turns : List SaidMemory} {id : String} :
    id ∈ saidIn turns ↔ ∃ m ∈ turns, id ∈ m.said := by
  rw [saidIn, mem_toFinset, mem_flatMap]

/-- The values that a later one superseded. -/
def gone (tenantId userId : String) : List SaidMemory :=
  (aboutUser store tenantId userId .superseded).filter fun m =>
    (truthy m.temporal.supersededBy).isSome

def profileValuesMovedOn (tenantId userId : String) : Finset String :=
  let moved := saidIn (gone store tenantId userId)
  if moved = ∅ then moved else moved \ saidIn (aboutUser store tenantId userId .current)

def usersSaid (tenantId thread : String) : List String :=
  ((listAfter store tenantId thread 0 episodeRead).filter (·.role = .user)).map (·.messageId)

def saidOnly (tenantId thread : String) (moved : Finset String) : Bool :=
  let users := usersSaid store tenantId thread
  !users.isEmpty && users.all (· ∈ moved)

def replacedItems (replaced live : List SaidMemory) : Finset String :=
  let speakers := replaced.map fun m => (m.threadId, m.ownerPrincipal)
  let still := (speakers.filter (· ∈ live.map fun m => (m.threadId, m.ownerPrincipal))).map
    Prod.fst
  let ended := speakers.filterMap fun s => (truthy s.1).filter fun id => !still.contains (some id)
  (saidIn replaced \ saidIn live) ∪ (ended.map episodeId).toFinset

/-- The conversations of the replaced turns. -/
def held (tenantId : String) (threads : List String) : List String :=
  (verbatimTurns store tenantId threads true).filterMap fun m => truthy m.threadId

def replaced (store : Store) (tenantId : String) (threads : List String) : Finset String :=
  let replaced := verbatimTurns store tenantId threads true
  if replaced.isEmpty then ∅
  else replacedItems replaced (verbatimTurns store tenantId (held store tenantId threads) false)

/-- The conversation of an item that carries what was said. -/
def SearchItem.said (i : SearchItem) : Option String :=
  if i.kind = .message ∨ i.kind = .episode then truthy i.threadId else none

def threadsOf (items : List SearchItem) : List String := items.filterMap SearchItem.said

/-- The messages of `moved`, and the conversations whose user said nothing else. -/
def movedItems (tenantId : String) (said : List SearchItem)
    (moved : Finset String) : Finset String :=
  let threads := threadsOf (said.filter (·.kind = .episode))
  ((said.filter fun i => i.kind = .message ∧ i.id ∈ moved).map (·.id)).toFinset ∪
    ((threads.filter fun thread => saidOnly store tenantId thread moved).map
      episodeId).toFinset

def movedOn (ctx : MemoryExecutionContext) (items : List SearchItem) :
    Finset String :=
  let said := items.filter fun i => i.said.isSome
  match ctx.userId with
  | none => ∅
  | some userId =>
    if said.isEmpty then ∅
    else
      let moved := profileValuesMovedOn store ctx.tenantId.text userId.text
      if moved = ∅ then ∅
      else
        let turns := verbatimTurns store ctx.tenantId.text (threadsOf said) false
        movedItems store ctx.tenantId.text said (moved \ saidIn turns)

theorem mem_movedItems {store : Store} {tenantId : String} {said : List SearchItem}
    {moved : Finset String} {id : String} :
    id ∈ movedItems store tenantId said moved ↔
      (∃ i ∈ said, i.kind = .message ∧ i.id = id ∧ id ∈ moved) ∨
        ∃ i ∈ said, ∃ thread, i.kind = .episode ∧ i.said = some thread ∧
          (usersSaid store tenantId thread ≠ [] ∧
            ∀ user ∈ usersSaid store tenantId thread, user ∈ moved) ∧ id = episodeId thread := by
  simp only [movedItems, saidOnly, threadsOf, Finset.mem_union, mem_toFinset, mem_map,
    mem_filter, mem_filterMap, decide_eq_true_eq, Bool.and_eq_true, Bool.not_eq_true',
    isEmpty_eq_false_iff, all_eq_true]
  refine or_congr ⟨?_, ?_⟩ ⟨?_, ?_⟩
  · rintro ⟨i, ⟨isSaid, isMessage, moves⟩, rfl⟩
    exact ⟨i, isSaid, isMessage, rfl, moves⟩
  · rintro ⟨i, isSaid, isMessage, rfl, moves⟩
    exact ⟨i, ⟨isSaid, isMessage, moves⟩, rfl⟩
  · rintro ⟨thread, ⟨⟨i, ⟨isSaid, isEpisode⟩, isThread⟩, only⟩, rfl⟩
    exact ⟨i, isSaid, thread, isEpisode, isThread, only, rfl⟩
  · rintro ⟨i, isSaid, thread, isEpisode, isThread, only, rfl⟩
    exact ⟨thread, ⟨⟨i, ⟨isSaid, isEpisode⟩, isThread⟩, only⟩, rfl⟩

/-- A search and what it is about to show; `corrected` are the replies that the next message
corrects. -/
structure Search where
  store : Store
  ctx : MemoryExecutionContext
  corrected : Finset String
  items : List SearchItem
  messages : ∀ i ∈ items, i.kind = .message →
    i.said.isSome = true ∧ ∀ thread, i.id ≠ episodeId thread
  episodes : ∀ i ∈ items, i.kind = .episode →
    ∃ thread, i.said = some thread ∧ i.id = episodeId thread

namespace Search

variable (s : Search)

def tenantId : String := s.ctx.tenantId.text

def threads : List String := threadsOf s.items

def left : List SearchItem :=
  s.items.filter fun i => i.id ∉ replaced s.store s.tenantId s.threads ∪ s.corrected

/-- What the replacement rules mark. -/
def stale : Finset String := replaced s.store s.tenantId s.threads ∪ movedOn s.store s.ctx s.left

def markReplaced : List SearchItem :=
  if s.threads.isEmpty then s.items
  else s.items.map fun i =>
    if i.id ∈ s.stale ∪ s.corrected then { i with superseded := some true } else i

variable (id : String)

def StandsFrom : Prop := ∃ m ∈ s.store.memories, m.tenantId = s.tenantId ∧ id ∈ m.said ∧ m.Stands

/-- The person said the memory in the conversation. -/
def SaidThere (thread person : String) (m : SaidMemory) : Prop :=
  m.tenantId = s.tenantId ∧ m.ownerPrincipal = person ∧
    (m.threadId = some thread ∨ ∃ row ∈ s.store.messages, row.tenantId = s.tenantId ∧
      row.threadId = thread ∧ row.messageId ∈ m.said)
deriving Decidable

variable (thread : String)

/-- Something that a person whose words were replaced in the conversation said there stands. -/
def StandsIn : Prop :=
  ∃ person, (∃ m ∈ s.store.memories, s.SaidThere thread person m ∧ m.WasReplaced) ∧
    ∃ m ∈ s.store.memories, s.SaidThere thread person m ∧ m.Stands

/-- Verbatim turns of the message were kept, and all of them were replaced. -/
def AllReplaced : Prop :=
  (∃ m ∈ s.store.memories, m.tenantId = s.tenantId ∧ id ∈ m.said ∧ m.IsTurn) ∧
    ∀ m ∈ s.store.memories, m.tenantId = s.tenantId → id ∈ m.said → m.IsTurn →
      m.systemMetadata.replacedBy.isSome = true

/-- What is marked holds nothing that stands, and what was replaced is marked. -/
structure MarkedRightly : Prop where
  messages : ∀ i ∈ s.items, i.kind = .message → i.id ∈ s.stale → ¬s.StandsFrom i.id
  conversations : ∀ i ∈ s.items, i.kind = .episode → i.id ∈ s.stale →
    ∀ thread, i.said = some thread → ¬s.StandsIn thread
  allReplaced : ∀ i ∈ s.items, i.kind = .message → s.AllReplaced i.id → i.id ∈ s.stale ∪ s.corrected

def replacedTurns : List SaidMemory := verbatimTurns s.store s.tenantId s.threads true

/-- The turns that are left in the conversations of the replaced ones. -/
def leftTurns : List SaidMemory :=
  verbatimTurns s.store s.tenantId (held s.store s.tenantId s.threads) false

/-- A turn of the message was replaced, and none is left. -/
def MessageEnded : Prop := (∃ m ∈ s.replacedTurns, id ∈ m.said) ∧ ∀ m ∈ s.leftTurns, id ∉ m.said

/-- Turns of the conversation were replaced, and none of their speakers' is left in it. -/
def ThreadEnded : Prop :=
  (thread ≠ "" ∧ ∃ m ∈ s.replacedTurns, m.threadId = some thread) ∧
    ∀ m ∈ s.replacedTurns, m.threadId = some thread → ∀ other ∈ s.leftTurns,
      other.threadId = some thread → other.ownerPrincipal ≠ m.ownerPrincipal

/-- The turns say nothing of the item, and no reply of it is corrected. -/
def Open (i : SearchItem) : Prop :=
  i ∈ s.items ∧ i.id ∉ s.corrected ∧ ¬s.MessageEnded i.id ∧
    ∀ thread, s.ThreadEnded thread → i.id ≠ episodeId thread

/-- A turn of the message is left in a conversation that is open. -/
def Unreplaced : Prop :=
  ∃ i thread, s.Open i ∧ i.said = some thread ∧
    ∃ m ∈ verbatimTurns s.store s.tenantId [thread] false, id ∈ m.said

/-- A value that the message said is gone, and neither a value nor a turn of it is left. -/
def ValueEnded : Prop :=
  ∃ userId ∈ s.ctx.userId, (∃ m ∈ gone s.store s.tenantId userId.text, id ∈ m.said) ∧
    (∀ m ∈ aboutUser s.store s.tenantId userId.text .current, id ∉ m.said) ∧ ¬s.Unreplaced id

def ValuesEnded : Prop :=
  usersSaid s.store s.tenantId thread ≠ [] ∧
    ∀ id ∈ usersSaid s.store s.tenantId thread, s.ValueEnded id

/-- A memory of the tenant that was taken from the message. -/
def From (m : SaidMemory) : Prop := m.tenantId = s.tenantId ∧ id ∈ m.said
deriving Decidable

def ReplacedTurn (m : SaidMemory) : Prop := m.IsTurn ∧ m.systemMetadata.replacedBy.isSome = true
deriving Decidable

def IsValue (m : SaidMemory) : Prop := ∃ userId ∈ s.ctx.userId, m.IsValueOf s.tenantId userId.text
deriving Decidable

/-- A value that the message said was superseded. -/
def ValueGone : Prop :=
  ∃ userId ∈ s.ctx.userId, ∃ m ∈ gone s.store s.tenantId userId.text, id ∈ m.said
deriving Decidable

/-- The turns of a message are kept in its conversation.  A message with a replaced turn holds,
as far as it stands, turns alone, and one with a superseded value turns and values. -/
structure MessageKept (i : SearchItem) : Prop where
  ownThread : ∀ m ∈ s.store.memories, s.From i.id m → m.IsTurn → m.threadId = i.said
  turns : ∀ turn ∈ s.store.memories, s.From i.id turn → ReplacedTurn turn →
    ∀ m ∈ s.store.memories, s.From i.id m → m.Stands → m.IsTurn
  values : s.ValueGone i.id →
    ∀ m ∈ s.store.memories, s.From i.id m → m.Stands → m.IsTurn ∨ s.IsValue m

/-- Of what a person said in a conversation, where it was replaced in part, a memory stands. -/
def StandsBeside (m : SaidMemory) : Prop :=
  m.Stands ∧ s.SaidThere thread m.ownerPrincipal m ∧
    ∃ other ∈ s.store.memories, s.SaidThere thread m.ownerPrincipal other ∧ other.WasReplaced
deriving Decidable

/-- In a conversation with a replaced turn, who had words replaced had a turn replaced, and only
turns kept in it stand of what they said.  In one each of whose first messages of the user has a
superseded value there are no more messages than are read, and what stands is from a message
of the user, and is a turn kept in it or a value. -/
structure ConversationKept (thread : String) : Prop where
  turns : ∀ turn ∈ s.store.memories, turn.tenantId = s.tenantId → turn.threadId = some thread →
    ReplacedTurn turn → ∀ m ∈ s.store.memories, s.StandsBeside thread m →
      m.IsTurn ∧ m.threadId = some thread ∧
        ∃ own ∈ s.store.memories, own.tenantId = s.tenantId ∧ own.threadId = some thread ∧
          ReplacedTurn own ∧ own.ownerPrincipal = m.ownerPrincipal
  values : (∀ id ∈ usersSaid s.store s.tenantId thread, s.ValueGone id) →
    (rowsAfter s.store s.tenantId thread 0).length ≤ episodeRead ∧
      ∀ m ∈ s.store.memories, s.StandsBeside thread m →
        (m.IsTurn ∧ m.threadId = some thread ∨ s.IsValue m) ∧
          ∃ row ∈ rowsAfter s.store s.tenantId thread 0, row.role = .user ∧ row.messageId ∈ m.said

/-- A condition on what is stored of the items and on the number of the user's values. -/
structure Kept : Prop where
  messages : ∀ i ∈ s.items, i.kind = .message → s.MessageKept i
  conversations : ∀ i ∈ s.items, i.kind = .episode → ∀ thread ∈ i.said, s.ConversationKept thread
  fewValues : ∀ userId ∈ s.ctx.userId,
    (profileRows s.store s.tenantId userId.text .current).length ≤ profileRead

variable {s} {id thread : String}

theorem mem_replaced_iff :
    id ∈ replaced s.store s.tenantId s.threads ↔
      s.MessageEnded id ∨ ∃ thread, s.ThreadEnded thread ∧ id = episodeId thread := by
  rw [replaced, MessageEnded]
  change id ∈ (if s.replacedTurns.isEmpty then ∅
    else replacedItems s.replacedTurns s.leftTurns) ↔ _
  cases isTurns : s.replacedTurns with
  | nil => simp [ThreadEnded, isTurns]
  | cons first rest =>
    rw [← isTurns, if_neg (by simp [isTurns]), replacedItems, Finset.mem_union,
      Finset.mem_sdiff, mem_saidIn, mem_saidIn]
    refine or_congr (by simp) ?_
    simp only [mem_toFinset, mem_map, mem_filterMap, Option.filter_eq_some_iff,
      truthy_eq_some, mem_filter, decide_eq_true_eq, ThreadEnded, Bool.not_eq_true',
      contains_eq_mem, decide_eq_false_iff_not]
    refine exists_congr fun thread => and_congr ?_ eq_comm
    constructor
    · rintro ⟨_, ⟨m, isTurn, rfl⟩, ⟨isThread, notEmpty⟩, noneStill⟩
      refine ⟨⟨notEmpty, m, isTurn, isThread⟩,
        fun other isOther sameThread l isLeft isIn same => ?_⟩
      exact noneStill ⟨_, ⟨⟨other, isOther, rfl⟩, l, isLeft, by rw [isIn, same, sameThread]⟩,
        sameThread⟩
    · rintro ⟨⟨notEmpty, m, isTurn, isThread⟩, noneLeft⟩
      refine ⟨_, ⟨m, isTurn, rfl⟩, ⟨isThread, notEmpty⟩, ?_⟩
      rintro ⟨_, ⟨⟨other, isOther, rfl⟩, l, isLeft, same⟩, sameThread⟩
      obtain ⟨isIn, sameOwner⟩ := Prod.mk.inj same
      exact noneLeft other isOther sameThread l isLeft (isIn.trans sameThread) sameOwner

variable {i : SearchItem}

theorem mem_left_iff : i ∈ s.left ↔ s.Open i := by
  simp only [left, mem_filter, Finset.mem_union, mem_replaced_iff, decide_eq_true_eq, not_or,
    not_exists, not_and, Open]
  constructor
  · intro ⟨isItem, ⟨notEnded, noThread⟩, notCorrected⟩
    exact ⟨isItem, notCorrected, notEnded, noThread⟩
  · intro ⟨isItem, notCorrected, notEnded, noThread⟩
    exact ⟨isItem, ⟨notEnded, noThread⟩, notCorrected⟩

theorem mem_profile_values_iff {userId : String} :
    id ∈ profileValuesMovedOn s.store s.tenantId userId ↔
      (∃ m ∈ gone s.store s.tenantId userId, id ∈ m.said) ∧
        ∀ m ∈ aboutUser s.store s.tenantId userId .current, id ∉ m.said := by
  simp only [profileValuesMovedOn]
  split
  case isTrue isEmpty =>
    rw [isEmpty]
    refine iff_of_false (Finset.notMem_empty id) fun found => ?_
    exact Finset.notMem_empty id (isEmpty ▸ mem_saidIn.mpr found.1)
  case isFalse _ =>
    rw [Finset.mem_sdiff, mem_saidIn, mem_saidIn]
    simp only [not_exists, not_and]

theorem mem_unreplaced_iff :
    id ∈ saidIn (verbatimTurns s.store s.tenantId
        (threadsOf (s.left.filter fun i => i.said.isSome)) false) ↔ s.Unreplaced id := by
  simp only [mem_saidIn, Unreplaced, ← mem_left_iff, mem_verbatimTurns, threadsOf,
    mem_filter, mem_filterMap]
  constructor
  · rintro ⟨m, ⟨isRow, isTenant, ⟨thread, ⟨i, ⟨isLeft, -⟩, isSaid⟩, isThread⟩, rest⟩, member⟩
    exact ⟨i, thread, isLeft, isSaid, m, ⟨isRow, isTenant, ⟨thread, by simp, isThread⟩, rest⟩,
        member⟩
  · rintro ⟨i, thread, isLeft, isSaid, m, ⟨isRow, isTenant, ⟨other, isOther, isThread⟩, rest⟩,
      member⟩
    rw [mem_singleton] at isOther
    subst isOther
    exact ⟨m, ⟨isRow, isTenant, ⟨other, ⟨i, ⟨isLeft, by rw [isSaid]; rfl⟩, isSaid⟩,
      isThread⟩, rest⟩,
      member⟩

theorem mem_movedOn_iff :
    id ∈ movedOn s.store s.ctx s.left ↔
      (∃ i, s.Open i ∧ i.kind = .message ∧ i.id = id ∧ s.ValueEnded id) ∨
        ∃ i thread, s.Open i ∧ i.kind = .episode ∧ i.said = some thread ∧
          s.ValuesEnded thread ∧ id = episodeId thread := by
  have value (userId : Id) (isUser : s.ctx.userId = some userId) (id : String) :
      id ∈ profileValuesMovedOn s.store s.tenantId userId.text \
        saidIn (verbatimTurns s.store s.tenantId
          (threadsOf (s.left.filter fun i => i.said.isSome)) false) ↔ s.ValueEnded id := by
    rw [Finset.mem_sdiff, mem_profile_values_iff, mem_unreplaced_iff, and_assoc, ValueEnded, isUser]
    simp only [Option.mem_def, Option.some.injEq, exists_eq_left']
  have whole (userId : Id) (isUser : s.ctx.userId = some userId) :
      id ∈ movedItems s.store s.tenantId (s.left.filter fun i => i.said.isSome)
          (profileValuesMovedOn s.store s.tenantId userId.text \
            saidIn (verbatimTurns s.store s.tenantId
              (threadsOf (s.left.filter fun i => i.said.isSome)) false)) ↔
        (∃ i, s.Open i ∧ i.kind = .message ∧ i.id = id ∧ s.ValueEnded id) ∨
          ∃ i thread, s.Open i ∧ i.kind = .episode ∧ i.said = some thread ∧
            s.ValuesEnded thread ∧ id = episodeId thread := by
    simp only [mem_movedItems, value userId isUser, mem_filter, mem_left_iff, ValuesEnded]
    refine or_congr ⟨?_, ?_⟩ ⟨?_, ?_⟩
    · rintro ⟨i, ⟨isOpen, -⟩, rest⟩
      exact ⟨i, isOpen, rest⟩
    · rintro ⟨i, isOpen, isMessage, rest⟩
      exact ⟨i, ⟨isOpen, (s.messages i isOpen.1 isMessage).1⟩, isMessage, rest⟩
    · rintro ⟨i, ⟨isOpen, -⟩, thread, rest⟩
      exact ⟨i, thread, isOpen, rest⟩
    · rintro ⟨i, thread, isOpen, isEpisode, isSaid, rest⟩
      exact ⟨i, ⟨isOpen, by rw [isSaid]; rfl⟩, thread, isEpisode, isSaid, rest⟩
  rw [movedOn]
  split
  case h_1 noUser =>
    refine iff_of_false (Finset.notMem_empty id) ?_
    rintro (⟨-, -, -, -, userId, isUser, -⟩ | ⟨-, thread, -, -, -, ⟨some_, all⟩, -⟩)
    · rw [noUser] at isUser
      cases isUser
    · obtain ⟨userId, isUser, -⟩ := all _ (head_mem some_)
      rw [noUser] at isUser
      cases isUser
  case h_2 userId isUser =>
    rw [← whole userId isUser]
    simp only []
    split
    case isTrue noneLeft =>
      rw [isEmpty_iff.mp noneLeft]
      simp [movedItems, threadsOf]
    case isFalse =>
      split
      case isTrue noneMoved =>
        rw [show profileValuesMovedOn s.store s.tenantId userId.text = ∅ from noneMoved,
          Finset.empty_sdiff, mem_movedItems]
        refine iff_of_false (Finset.notMem_empty id) ?_
        rintro (⟨-, -, -, -, moves⟩ | ⟨-, -, thread, -, -, ⟨some_, all⟩, -⟩)
        · exact Finset.notMem_empty id moves
        · exact Finset.notMem_empty _ (all _ (head_mem some_))
      case isFalse => rfl

theorem message_stale_iff (isItem : i ∈ s.items) (isMessage : i.kind = .message) :
    i.id ∈ s.stale ↔ s.MessageEnded i.id ∨ s.Open i ∧ s.ValueEnded i.id := by
  obtain ⟨-, notEpisode⟩ := s.messages i isItem isMessage
  rw [stale, Finset.mem_union, mem_replaced_iff, mem_movedOn_iff]
  constructor
  · rintro ((ended | ⟨thread, -, isThread⟩) | ⟨other, isOpen, -, same, ended⟩ |
      ⟨-, thread, -, -, -, -, isThread⟩)
    · exact .inl ended
    · exact absurd isThread (notEpisode thread)
    · rw [Open, same] at isOpen
      exact .inr ⟨⟨isItem, isOpen.2⟩, ended⟩
    · exact absurd isThread (notEpisode thread)
  · rintro (ended | ⟨isOpen, ended⟩)
    · exact .inl (.inl ended)
    · exact .inr (.inl ⟨i, isOpen, isMessage, rfl, ended⟩)

theorem episode_stale_iff (isItem : i ∈ s.items) (isEpisode : i.kind = .episode)
    (isSaid : i.said = some thread) :
    i.id ∈ s.stale ↔ s.ThreadEnded thread ∨ s.Open i ∧ s.ValuesEnded thread := by
  obtain ⟨_, isOwn, isId⟩ := s.episodes i isItem isEpisode
  rw [isSaid] at isOwn
  cases isOwn
  rw [stale, Finset.mem_union, mem_replaced_iff, mem_movedOn_iff, isId]
  constructor
  · rintro ((⟨⟨m, isTurn, member⟩, -⟩ | ⟨other, ended, same⟩) |
      ⟨other, isOpen, isMessage, same, -⟩ |
      ⟨other, _, isOpen, isOther, isThread, ended, same⟩)
    · exact absurd rfl (s.store.named m (mem_verbatimTurns.mp isTurn).1 _ member thread)
    · exact .inl (episodeId_injective same ▸ ended)
    · exact absurd same ((s.messages other isOpen.1 isMessage).2 thread)
    · obtain ⟨_, isOwn, isOtherId⟩ := s.episodes other isOpen.1 isOther
      rw [isThread] at isOwn
      cases isOwn
      cases episodeId_injective same
      rw [Open, isOtherId, ← isId] at isOpen
      exact .inr ⟨⟨isItem, isOpen.2⟩, ended⟩
  · rintro (ended | ⟨isOpen, ended⟩)
    · exact .inl (.inr ⟨thread, ended, rfl⟩)
    · exact .inr (.inr ⟨i, thread, isOpen, isEpisode, isSaid, ended, rfl⟩)

theorem replacedBy_of_stands {m : SaidMemory} (stands : m.Stands) :
    m.systemMetadata.replacedBy.isSome = false := by
  rw [stands.2.2]
  rfl

theorem mem_leftTurns {m turn : SaidMemory} (isMemory : m ∈ s.store.memories)
    (isTenant : m.tenantId = s.tenantId) (isThread : m.threadId = some thread)
    (isTurn : m.IsTurn) (stands : m.Stands) (isReplaced : turn ∈ s.replacedTurns)
    (sameThread : turn.threadId = some thread) (notEmpty : thread ≠ "") : m ∈ s.leftTurns := by
  refine mem_verbatimTurns.mpr ⟨isMemory, isTenant, ⟨thread, ?_, isThread⟩, isTurn,
    replacedBy_of_stands stands⟩
  exact mem_filterMap.mpr ⟨turn, isReplaced, truthy_eq_some.mpr ⟨sameThread, notEmpty⟩⟩

theorem mem_replacedTurns {turn : SaidMemory} (isItem : i ∈ s.items)
    (isSaid : i.said = some thread) (isMemory : turn ∈ s.store.memories)
    (isTenant : turn.tenantId = s.tenantId) (isThread : turn.threadId = some thread)
    (isReplaced : ReplacedTurn turn) : turn ∈ s.replacedTurns :=
  mem_verbatimTurns.mpr ⟨isMemory, isTenant,
    ⟨thread, mem_filterMap.mpr ⟨i, isItem, isSaid⟩, isThread⟩, isReplaced⟩

theorem said_ne_empty (isSaid : i.said = some thread) : thread ≠ "" := by
  rw [SearchItem.said] at isSaid
  split at isSaid
  · exact (truthy_eq_some.mp isSaid).2
  · cases isSaid

theorem messageEnded_of_allReplaced (isItem : i ∈ s.items)
    (isMessage : i.kind = .message) (kept : s.MessageKept i) (all : s.AllReplaced i.id) :
    s.MessageEnded i.id := by
  obtain ⟨⟨turn, isMemory, isTenant, isFrom, isTurn⟩, each⟩ := all
  obtain ⟨thread, isSaid⟩ := Option.isSome_iff_exists.mp (s.messages i isItem isMessage).1
  have isReplaced := each turn isMemory isTenant isFrom isTurn
  have isThread := (kept.ownThread turn isMemory ⟨isTenant, isFrom⟩ isTurn).trans isSaid
  refine ⟨⟨turn, mem_replacedTurns isItem isSaid isMemory isTenant isThread ⟨isTurn, isReplaced⟩,
    isFrom⟩, fun m isLeft isSaidBy => ?_⟩
  obtain ⟨isRow, sameTenant, -, isLeftTurn, notReplaced⟩ := mem_verbatimTurns.mp isLeft
  rw [each m isRow sameTenant isSaidBy isLeftTurn] at notReplaced
  cases notReplaced

theorem ValueEnded.gone (ended : s.ValueEnded id) : s.ValueGone id := by
  obtain ⟨userId, isUser, isGone, -⟩ := ended
  exact ⟨userId, isUser, isGone⟩

section

variable (kept : s.Kept)
include kept

theorem Kept.standing_turns (isItem : i ∈ s.items) (isMessage : i.kind = .message)
    (standing : s.StandsFrom i.id) : ¬s.MessageEnded i.id := by
  rintro ⟨⟨turn, isTurn, isFrom⟩, noneLeft⟩
  obtain ⟨m, isMemory, isTenant, mFrom, stands⟩ := standing
  obtain ⟨own, turns, -⟩ := kept.messages i isItem isMessage
  obtain ⟨isRow, sameTenant, -, isReplaced⟩ := mem_verbatimTurns.mp isTurn
  obtain ⟨thread, isSaid⟩ := Option.isSome_iff_exists.mp (s.messages i isItem isMessage).1
  have mTurn : m.IsTurn := turns turn isRow ⟨sameTenant, isFrom⟩ isReplaced m isMemory
    ⟨isTenant, mFrom⟩ stands
  refine noneLeft m (mem_leftTurns isMemory isTenant ?_ mTurn stands isTurn ?_
    (said_ne_empty isSaid)) mFrom
  · exact (own m isMemory ⟨isTenant, mFrom⟩ mTurn).trans isSaid
  · exact (own turn isRow ⟨sameTenant, isFrom⟩ isReplaced.1).trans isSaid

/-- What stands of a message and is a turn kept in an open conversation or a value is seen. -/
theorem Kept.not_valueEnded {m : SaidMemory} {id : String} (isOpen : s.Open i)
    (isSaid : i.said = some thread) (isMemory : m ∈ s.store.memories)
    (isTenant : m.tenantId = s.tenantId) (isFrom : id ∈ m.said) (stands : m.Stands)
    (shown : m.IsTurn ∧ m.threadId = some thread ∨ s.IsValue m) : ¬s.ValueEnded id := by
  rintro ⟨userId, isUser, -, noneCurrent, notUnreplaced⟩
  rcases shown with ⟨isTurn, isThread⟩ | ⟨other, isOther, isValue⟩
  · exact notUnreplaced ⟨i, thread, isOpen, isSaid, m, mem_verbatimTurns.mpr ⟨isMemory, isTenant,
      ⟨thread, mem_singleton_self _, isThread⟩, isTurn, replacedBy_of_stands stands⟩, isFrom⟩
  · obtain rfl : userId = other := Option.mem_unique isUser isOther
    refine noneCurrent m ((mem_take_insertionSort (kept.fewValues userId isUser)).mpr ?_) isFrom
    exact mem_filter.mpr ⟨isMemory, decide_eq_true ⟨isTenant, isValue, stands.1, stands.2.1⟩⟩

theorem Kept.standing_values (isOpen : s.Open i) (isMessage : i.kind = .message)
    (standing : s.StandsFrom i.id) : ¬s.ValueEnded i.id := by
  intro ended
  obtain ⟨m, isMemory, isTenant, isFrom, stands⟩ := standing
  obtain ⟨own, -, values⟩ := kept.messages i isOpen.1 isMessage
  obtain ⟨thread, isSaid⟩ := Option.isSome_iff_exists.mp (s.messages i isOpen.1 isMessage).1
  have shown := (values ended.gone m isMemory ⟨isTenant, isFrom⟩ stands).imp_left
    fun isTurn => (⟨isTurn, (own m isMemory ⟨isTenant, isFrom⟩ isTurn).trans isSaid⟩ :
      m.IsTurn ∧ m.threadId = some thread)
  exact kept.not_valueEnded isOpen isSaid isMemory isTenant isFrom stands shown ended

theorem Kept.standing_speakers (isItem : i ∈ s.items)
    (isEpisode : i.kind = .episode) (isSaid : i.said = some thread)
    (standing : s.StandsIn thread) : ¬s.ThreadEnded thread := by
  rintro ⟨⟨notEmpty, turn, isTurn, isThread⟩, noneLeft⟩
  obtain ⟨person, ⟨other, isOther, saidOther, wasReplaced⟩, m, isMemory, saidThere, stands⟩ :=
    standing
  obtain ⟨isRow, sameTenant, -, isReplaced⟩ := mem_verbatimTurns.mp isTurn
  have beside : s.StandsBeside thread m := by
    rw [StandsBeside, saidThere.2.1]
    exact ⟨stands, saidThere, other, isOther, saidOther, wasReplaced⟩
  obtain ⟨mTurn, mThread, own, isOwn, ownTenant, ownThread, ownReplaced, sameOwner⟩ :=
    (kept.conversations i isItem isEpisode thread isSaid).turns turn isRow sameTenant isThread
      isReplaced m isMemory beside
  have isOwnTurn := mem_replacedTurns isItem isSaid isOwn ownTenant ownThread ownReplaced
  exact noneLeft own isOwnTurn ownThread m (mem_leftTurns isMemory saidThere.1 mThread mTurn stands
    isTurn isThread notEmpty) mThread sameOwner.symm

theorem Kept.standing_first (isOpen : s.Open i) (isEpisode : i.kind = .episode)
    (isSaid : i.said = some thread) (standing : s.StandsIn thread) : ¬s.ValuesEnded thread := by
  rintro ⟨-, ended⟩
  obtain ⟨person, ⟨other, isOther, saidOther, wasReplaced⟩, m, isMemory, saidThere, stands⟩ :=
    standing
  have beside : s.StandsBeside thread m := by
    rw [StandsBeside, saidThere.2.1]
    exact ⟨stands, saidThere, other, isOther, saidOther, wasReplaced⟩
  obtain ⟨few, shown⟩ := (kept.conversations i isOpen.1 isEpisode thread isSaid).values
    fun id isUsers => (ended id isUsers).gone
  obtain ⟨isShown, row, isRow, isUsers, isFrom⟩ := shown m isMemory beside
  refine kept.not_valueEnded isOpen isSaid isMemory saidThere.1 isFrom stands isShown (ended _ ?_)
  -- no more messages than are read, so the message of the user is read
  refine mem_map.mpr ⟨row, mem_filter.mpr ⟨?_, decide_eq_true isUsers⟩, rfl⟩
  exact (mem_take_insertionSort few).mpr isRow

end

end Search

/-- "I live in Austin.  The pump takes 55 Nm.": the torque was replaced, the home was not. -/
def austin (category : Option String) (replacedBy : Option ReplacedBy) : SaidMemory where
  memoryId := "mem_1"
  tenantId := "isotta"
  memoryType := .user
  content := ""
  normalizedHash := ⟨"a1", rfl⟩
  temporal := { observedAt := ⟨0⟩ }
  evidence := []
  systemMetadata := { category := category, replacedBy := replacedBy }
  updatedAt := ⟨0⟩
  threadId := some "thr_1"
  messageIds := [some "msg_1"]

def pump : Search where
  store :=
    { memories := [austin (some "verbatim_turn") (some ⟨"mem_2", none⟩), austin none none]
      named := by
        intro m member id isSaid
        refine ne_episodeId ?_
        have all : ∀ m ∈ [austin (some "verbatim_turn") (some ⟨"mem_2", none⟩), austin none none],
            ∀ id ∈ m.said, id.toList.head? = some 'm' := by decide
        exact all m member id isSaid }
  ctx := { tenantId := ⟨"isotta", by decide⟩, runHasAgent := MemoryExecutionContext.no_run }
  corrected := ∅
  items := [{ id := "msg_1", kind := .message, threadId := some "thr_1" }]
  messages := by
    intro i member _
    rw [mem_singleton.mp member]
    exact ⟨rfl, ne_episodeId (by decide)⟩
  episodes := by
    intro i member isEpisode
    rw [mem_singleton.mp member] at isEpisode
    cases isEpisode

def saidBy (messageId : String) (category : Option String) (replacedBy : Option ReplacedBy)
    (status : TemporalStatus) (supersededBy : Option String) : SaidMemory :=
  { austin category replacedBy with
    temporal := { observedAt := ⟨0⟩, status, supersededBy }
    userId := some "nadia"
    visibilityKeys := ["user:isotta/nadia"]
    ownerPrincipal := "user:nadia"
    messageIds := [some messageId] }

def spoken : List SaidMemory :=
  [saidBy "msg_1" (some "verbatim_turn") (some ⟨"mem_2", none⟩) .current none,
    saidBy "msg_2" (some "verbatim_turn") none .current none,
    saidBy "msg_3" none none .superseded (some "mem_5")]

def shownItems : List SearchItem :=
  { id := "epi_thr_1", kind := .episode, threadId := some "thr_1" } ::
    ["msg_1", "msg_2", "msg_3"].map fun id => { id, kind := .message, threadId := some "thr_1" }

/-- The turn of the first message was replaced, that of the second stands, and the value of the
third was superseded. -/
def moved : Search where
  store :=
    { memories := spoken
      messages := ["msg_1", "msg_2", "msg_3"].mapIdx fun place messageId =>
        { messageId, tenantId := "isotta", threadId := "thr_1", sequence := place + 1 }
      named := by
        intro m member id isSaid
        have all : ∀ m ∈ spoken, ∀ id ∈ m.said, id.toList.head? = some 'm' := by decide
        exact ne_episodeId (all m member id isSaid) }
  ctx :=
    { tenantId := ⟨"isotta", by decide⟩, userId := some ⟨"nadia", by decide⟩
      runHasAgent := MemoryExecutionContext.no_run }
  corrected := ∅
  items := shownItems
  messages := by
    intro i member isMessage
    have all : ∀ i ∈ shownItems, i.kind = .message →
        i.said.isSome = true ∧ i.id.toList.head? = some 'm' := by decide
    exact ⟨(all i member isMessage).1, ne_episodeId (all i member isMessage).2⟩
  episodes := by
    intro i member isEpisode
    rcases mem_cons.mp member with rfl | isOther
    · exact ⟨"thr_1", rfl, by decide⟩
    · obtain ⟨id, -, rfl⟩ := mem_map.mp isOther
      cases isEpisode

end MemoryService.Retrieval.Marks
