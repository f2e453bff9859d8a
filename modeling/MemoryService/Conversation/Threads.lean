import MemoryService.Context.Window
import MemoryService.Domain.Context
import MemoryService.Foundation.Interference
import MemoryService.Foundation.Keyed

/-!
# Threads, sessions, turns and agent runs in one store

The rows of every tenant stand in the same tables, under the bare identifier that the client
chose.
-/

namespace MemoryService.Conversation.Threads

open Domain Foundation

structure ThreadRow where
  threadId : String
  tenantId : String
  workspaceId : Option String
  ownerUserId : Option String
  title : Option String
  customMetadata : List (String × Json)
  revision : Nat := 0
  deleted : Bool := false

structure SessionRow where
  sessionId : String
  threadId : String
  tenantId : String
  userId : Option String
  client : String

structure TurnRow where
  turnId : String
  sessionId : String
  threadId : String
  tenantId : String
  sequence : Nat

structure AgentRunRow where
  agentRunId : String
  tenantId : String
  threadId : String
  sessionId : String
  turnId : String
  workId : Option String
  taskId : Option String
  agentId : String
  agentGroupId : Option String
  parentAgentRunId : Option String

structure ObservationRow where
  observationId : String
  tenantId : String
  isEvent : Bool
  content : String
  contentHash : String
  threadId : String
  sessionId : String
  turnId : String
  agentRunId : Option String
  principalId : String
  messageId : String
  sourceSystem : Option String
  sourceId : Option String
  occurredAt : Instant

def messagePlace (message : Message) : String × Nat := (message.threadId, message.sequence)

structure Store where
  threads : Keyed ThreadRow.threadId
  sessions : Keyed SessionRow.sessionId
  turns : Keyed TurnRow.turnId
  agentRuns : Keyed AgentRunRow.agentRunId
  messages : Keyed messagePlace
  observations : List ObservationRow

def Store.empty : Store where
  threads := .empty
  sessions := .empty
  turns := .empty
  agentRuns := .empty
  messages := .empty
  observations := []

inductive Failure where
  | validationFailed (message : String)
  | notFound (message : String)
  | scopeDenied (relation : String)
  /-- what the driver raises, a 500 -/
  | integrityError
  deriving DecidableEq

/-- The failures that the service raises itself, and answers with a problem. -/
def Failure.isDomain : Failure → Bool
  | .integrityError => false
  | _ => true

abbrev Uow := Foundation.Uow Store Failure

def insertRow {Row Key : Type} [DecidableEq Key] {key : Row → Key}
    (clash : Row → Row → Bool) (new : Row) (table : Store → Keyed key)
    (put : Store → Keyed key → Store) : Uow Unit :=
  attempt .integrityError fun store =>
    (table store |>.insert clash new).map fun rows => ((), put store rows)

def noClash {Row : Type} (_ _ : Row) : Bool := false

def nextSequence (sequences : List Nat) : Nat := sequences.foldr max 0 + 1

section Repositories

variable (tenantId : String) (threadId : String) (store : Store)

def threadsGet : Option ThreadRow :=
  (store.threads.find threadId).filter fun row => row.tenantId = tenantId && !row.deleted

def threadsAdd (row : ThreadRow) : Uow Unit :=
  insertRow noClash row Store.threads fun store threads => { store with threads }

def touched (title : Option String)
    (customMetadata : Option (List (String × Json))) (threads : Keyed ThreadRow.threadId) :
    Keyed ThreadRow.threadId :=
  threads.update (fun row => row.threadId = threadId && row.tenantId = tenantId)
    (fun row =>
      { row with
        revision := row.revision + 1
        title := title.or row.title
        customMetadata := customMetadata.getD row.customMetadata })
    fun _ => rfl

def revisionOf (threads : Keyed ThreadRow.threadId) : Nat :=
  ((threads.find threadId).filter (·.tenantId = tenantId)).elim 0 (·.revision)

def threadsTouch (title : Option String)
    (customMetadata : Option (List (String × Json))) : Uow Nat :=
  attempt .integrityError fun store =>
    some
      (revisionOf tenantId threadId
          (touched tenantId threadId title customMetadata store.threads),
        { store with threads := touched tenantId threadId title customMetadata store.threads })

def softDeleted (threads : Keyed ThreadRow.threadId) :
    Keyed ThreadRow.threadId :=
  threads.update
    (fun row => row.threadId = threadId && row.tenantId = tenantId && !row.deleted)
    (fun row => { row with deleted := true, revision := row.revision + 1 })
    fun _ => rfl

def threadsSoftDelete : Uow Unit :=
  attempt .integrityError fun store =>
    some ((), { store with threads := softDeleted tenantId threadId store.threads })

def sessionsGet (sessionId : String) (store : Store) : Option SessionRow :=
  (store.sessions.find sessionId).filter (·.tenantId = tenantId)

def sessionsAdd (row : SessionRow) : Uow Unit :=
  insertRow noClash row Store.sessions fun store sessions => { store with sessions }

def turnsGet (turnId : String) (store : Store) : Option TurnRow :=
  (store.turns.find turnId).filter (·.tenantId = tenantId)

/-- `uq_turns_thread_sequence`. -/
def sameTurn (row other : TurnRow) : Bool :=
  row.threadId = other.threadId && row.sequence = other.sequence

def turnsAdd (row : TurnRow) : Uow Unit :=
  insertRow sameTurn row Store.turns fun store turns => { store with turns }

def threadTurns : List TurnRow :=
  store.turns.rows.filter fun row => row.tenantId = tenantId && row.threadId = threadId

def turnsNextSequence : Nat := nextSequence ((threadTurns tenantId threadId store).map (·.sequence))

def turnsLatest : Option TurnRow :=
  (threadTurns tenantId threadId store).find? fun row =>
    row.sequence + 1 = turnsNextSequence tenantId threadId store

def agentRunsGet (agentRunId : String) (store : Store) : Option AgentRunRow :=
  (store.agentRuns.find agentRunId).filter (·.tenantId = tenantId)

def agentRunsAdd (row : AgentRunRow) : Uow Unit :=
  insertRow noClash row Store.agentRuns fun store agentRuns => { store with agentRuns }

def threadMessages : List Message :=
  store.messages.rows.filter fun row => row.tenantId = tenantId && row.threadId = threadId

def messagesNextSequence : Nat :=
  nextSequence ((threadMessages tenantId threadId store).map (·.sequence))

/-- `uq_messages_thread_sequence` is the key. -/
def messagesAdd (row : Message) : Uow Unit :=
  insertRow noClash row Store.messages fun store messages => { store with messages }

def hasSource (sourceSystem sourceMessageId : String) (row : Message) : Bool :=
  row.sourceSystem = some sourceSystem && row.sourceMessageId = some sourceMessageId

def findBySource (sourceSystem sourceMessageId : String) (store : Store) : Option Message :=
  store.messages.rows.find? fun row =>
    row.tenantId = tenantId && hasSource sourceSystem sourceMessageId row

def listThread (limit : Nat) (beforeSequence : Option Nat)
    (includeInternal : Bool) (store : Store) : List Message :=
  let rows := (threadMessages tenantId threadId store).filter fun row =>
    (includeInternal || row.kind = .visible) &&
      beforeSequence.all fun before => row.sequence < before
  ((rows.mergeSort fun first second => first.sequence ≥ second.sequence).take limit).reverse

def observationsAdd (row : ObservationRow) : Uow Unit :=
  attempt .integrityError fun store =>
    some ((), { store with observations := store.observations ++ [row] })

end Repositories

structure Caller extends MemoryExecutionContext where
  sessionId : Option Id := none
  turnId : Option Id := none
  workId : Option Id := none
  taskId : Option Id := none
  client : String := "sdk"

def Caller.tenant (ctx : Caller) : String := ctx.tenantId.text

/-- What the authorization service answers. -/
structure Checks where
  /-- asked before the unit of work is open -/
  mayWrite : Bool
  canRead : Bool
  canWrite : Bool
  member : Bool

structure MessageIn where
  role : MessageRole
  kind : MessageKind := .visible
  content : String
  attachments : List Attachment := []
  customMetadata : List (String × Json) := []
  occurredAt : Option Instant := none
  sourceSystem : Option String := none
  sourceMessageId : Option String := none
  parentMessageId : Option String := none
  toolCalls : List MessageToolCall := []
  toolCallId : Option String := none
  messageId : String
  observationId : String
  now : Instant

structure MessageAck where
  messageId : String
  threadId : String
  sessionId : String
  turnId : String
  sequence : Nat
  deduplicated : Bool := false
  observationId : Option String := none
  deriving DecidableEq

structure Digests where
  contentHash : String → String
  threadSessionId : String → String → String
  threadTurnId : String → String → Nat → String

inductive Request where
  | patchThread (checks : Checks) (ctx : Caller) (threadId : Id) (title : Option String)
      (customMetadata : Option (List (String × Json)))
  | getThread (checks : Checks) (ctx : Caller) (threadId : Id)
  | deleteThread (checks : Checks) (ctx : Caller) (threadId : Id)
  | listMessages (checks : Checks) (ctx : Caller) (threadId : Id) (limit : Nat)
      (beforeSequence : Option Nat) (includeInternal : Bool)
  | createMessages (checks : Checks) (ctx : Caller) (messages : List MessageIn)

def Request.ctx : Request → Caller
  | .patchThread _ ctx _ _ _ => ctx
  | .getThread _ ctx _ => ctx
  | .deleteThread _ ctx _ => ctx
  | .listMessages _ ctx _ _ _ _ => ctx
  | .createMessages _ ctx _ => ctx

def Request.tenant (request : Request) : String := request.ctx.tenant

inductive Response where
  | thread (row : ThreadRow)
  | deleted
  | messages (rows : List Message)
  | acks (acks : List MessageAck)

def require (allowed : Bool) (failure : Failure) : Uow Unit :=
  if allowed then pure () else throw failure

section Service

variable (digests : Digests) (checks : Checks) (ctx : Caller) (threadId : String)

def createThread (title : Option String)
    (customMetadata : Option (List (String × Json))) : Uow ThreadRow := do
  match ← threadsGet ctx.tenant threadId <$> get with
  | some existing => do
      require checks.canRead (.scopeDenied "can_read")
      pure existing
  | none => do
      let thread : ThreadRow :=
        { threadId
          tenantId := ctx.tenant
          workspaceId := ctx.workspaceId.map (·.text)
          ownerUserId := ctx.userId.map (·.text)
          title
          customMetadata := customMetadata.getD [] }
      require checks.member (.scopeDenied "member")
      threadsAdd thread
      pure thread

def patchThread (title : Option String)
    (customMetadata : Option (List (String × Json))) : Uow ThreadRow := do
  match ← threadsGet ctx.tenant threadId <$> get with
  | none => createThread checks ctx threadId title customMetadata
  | some existing => do
      require (checks.mayWrite || checks.canWrite) (.scopeDenied "can_write")
      if title = none ∧ customMetadata.isNone then pure existing
      else do
        let _ ← threadsTouch ctx.tenant threadId title customMetadata
        match ← threadsGet ctx.tenant threadId <$> get with
        | some updated => pure updated
        | none => throw .integrityError

/-- `NotFound` where the thread is not there, or not the caller's to use. -/
def foundThread (allowed : Bool) (relation : String) (threadId : String) : Uow ThreadRow := do
  match ← threadsGet ctx.tenant threadId <$> get with
  | none => throw (.notFound "Thread not found")
  | some thread => do
      require allowed (.scopeDenied relation)
      pure thread

def getThread : Uow ThreadRow := foundThread ctx checks.canRead "can_read" threadId

def deleteThread : Uow Unit := do
  let _ ← foundThread ctx checks.canWrite "can_write" threadId
  threadsSoftDelete ctx.tenant threadId

def listMessages (limit : Nat) (beforeSequence : Option Nat)
    (includeInternal : Bool) : Uow (List Message) := do
  let _ ← foundThread ctx checks.canRead "can_read" threadId
  listThread ctx.tenant threadId limit beforeSequence includeInternal <$> get

/-- `[\x00-\x08\x0b\x0c\x0e-\x1f\x7f-\x9f]`. -/
def isControl (c : Char) : Bool :=
  c.toNat ≤ 8 || (11 ≤ c.toNat && c.toNat ≤ 12) || (14 ≤ c.toNat && c.toNat ≤ 31) ||
    (127 ≤ c.toNat && c.toNat ≤ 159)

def sanitise (text : String) : String := String.ofList (text.toList.filter (!isControl ·))

variable (message : MessageIn)

def kindOf : MessageKind :=
  if message.role = .event then .internal else message.kind

def appendProblem : Option String :=
  if kindOf message = .visible ∧ message.role ∉ [.user, .assistant, .system] then
    some "visible messages must have role USER, ASSISTANT or SYSTEM"
  else if kindOf message = .internal ∧ ctx.agentId.isNone ∧ message.role = .agent then
    some "internal AGENT messages require agent_id in the scope"
  else Context.toolFieldsProblem message.role message.toolCalls message.toolCallId

def ensureThread : Uow Unit := do
  match ← threadsGet ctx.tenant threadId <$> get with
  | none => do
      let _ ← createThread checks ctx threadId none none
      pure ()
  | some _ => require (checks.mayWrite || checks.canWrite) (.scopeDenied "can_write")

def duplicateOf (store : Store) : Option Message :=
  match message.sourceSystem, message.sourceMessageId with
  | some sourceSystem, some sourceMessageId =>
    if sourceSystem = "" ∨ sourceMessageId = "" then none
    else findBySource ctx.tenant sourceSystem sourceMessageId store
  | _, _ => none

def sessionOf : String := ctx.sessionId.elim (digests.threadSessionId ctx.tenant threadId) (·.text)

def lineage (role : MessageRole) (store : Store) : String × String :=
  let sessionId := sessionOf digests ctx threadId
  let latest := if role = .user then none else turnsLatest ctx.tenant threadId store
  match ctx.turnId, latest.filter (·.sessionId = sessionId) with
  | some turnId, _ => (sessionId, turnId.text)
  | none, some turn => (sessionId, turn.turnId)
  | none, none =>
    (sessionId,
      digests.threadTurnId ctx.tenant threadId (turnsNextSequence ctx.tenant threadId store))

def ensureSession (threadId sessionId : String) : Uow Unit := do
  match ← sessionsGet ctx.tenant sessionId <$> get with
  | none =>
    sessionsAdd
      { sessionId
        threadId
        tenantId := ctx.tenant
        userId := ctx.userId.map (·.text)
        client := ctx.client }
  | some session =>
    require (session.threadId = threadId)
      (.validationFailed "session_id belongs to a different thread")

def ensureTurn (threadId sessionId turnId : String) : Uow Unit := do
  match ← turnsGet ctx.tenant turnId <$> get with
  | none => do
      let sequence ← turnsNextSequence ctx.tenant threadId <$> get
      turnsAdd { turnId, sessionId, threadId, tenantId := ctx.tenant, sequence }
  | some turn =>
    require (turn.sessionId = sessionId)
      (.validationFailed "turn_id belongs to a different session")

def ensureAgentRun (threadId sessionId turnId : String) : Uow Unit := do
  match ctx.agentRunId, ctx.agentId with
  | some agentRunId, some agentId => do
      match ← agentRunsGet ctx.tenant agentRunId.text <$> get with
      | some _ => pure ()
      | none =>
        agentRunsAdd
          { agentRunId := agentRunId.text
            tenantId := ctx.tenant
            threadId
            sessionId
            turnId
            workId := ctx.workId.map (·.text)
            taskId := ctx.taskId.map (·.text)
            agentId := agentId.text
            agentGroupId := ctx.agentGroupId.map (·.text)
            parentAgentRunId := ctx.parentAgentRunId.map (·.text) }
  | _, _ => pure ()

def storedMessage (threadId sessionId turnId : String) (sequence : Nat)
    (message : MessageIn) : Message where
  messageId := message.messageId
  threadId := threadId
  sessionId := sessionId
  turnId := turnId
  tenantId := ctx.tenant
  role := message.role
  kind := kindOf message
  sequence := sequence
  content := sanitise message.content
  contentHash := digests.contentHash (sanitise message.content)
  authorPrincipal := ctx.principalId
  agentRunId := ctx.agentRunId.map (·.text)
  parentMessageId := message.parentMessageId
  attachments := message.attachments
  toolCalls := message.toolCalls
  toolCallId := message.toolCallId
  sourceSystem := message.sourceSystem
  sourceMessageId := message.sourceMessageId
  occurredAt := message.occurredAt.getD message.now
  createdAt := message.now
  customMetadata := message.customMetadata

def observationOf (observationId : String) (stored : Message) : ObservationRow where
  observationId := observationId
  tenantId := stored.tenantId
  isEvent := stored.role = .event
  content := stored.content
  contentHash := stored.contentHash
  threadId := stored.threadId
  sessionId := stored.sessionId
  turnId := stored.turnId
  agentRunId := stored.agentRunId
  principalId := stored.authorPrincipal
  messageId := stored.messageId
  sourceSystem := stored.sourceSystem
  sourceId := stored.sourceMessageId
  occurredAt := stored.occurredAt

/-- The part of `append_message` behind the check for a duplicate. -/
def storeMessage : Uow MessageAck := do
  let ids ← lineage digests ctx threadId message.role <$> get
  ensureSession ctx threadId ids.1
  ensureTurn ctx threadId ids.1 ids.2
  ensureAgentRun ctx threadId ids.1 ids.2
  let sequence ← messagesNextSequence ctx.tenant threadId <$> get
  let stored := storedMessage digests ctx threadId ids.1 ids.2 sequence message
  messagesAdd stored
  observationsAdd (observationOf message.observationId stored)
  let _ ← threadsTouch ctx.tenant threadId none none
  pure
    { messageId := message.messageId
      threadId
      sessionId := ids.1
      turnId := ids.2
      sequence
      observationId := some message.observationId }

def appendMessage : Uow MessageAck := do
  match appendProblem ctx message with
  | some problem => throw (.validationFailed problem)
  | none => do
      ensureThread checks ctx threadId
      match ← duplicateOf ctx message <$> get with
      | some duplicate =>
        pure
          { messageId := duplicate.messageId
            threadId := duplicate.threadId
            sessionId := duplicate.sessionId
            turnId := duplicate.turnId
            sequence := duplicate.sequence
            deduplicated := true }
      | none => storeMessage digests ctx threadId message

def threadOf : Option String := (ctx.threadId.map (·.text)).or (ctx.agentRunId.map (·.text))

def appendMessages (threadId : String) : List MessageIn → Uow (List MessageAck)
  | [] => pure []
  | message :: later => do
      let ack ← appendMessage digests checks ctx threadId message
      let acks ← appendMessages threadId later
      pure (ack :: acks)

def createMessages (messages : List MessageIn) : Uow (List MessageAck) :=
  match threadOf ctx with
  | none =>
    throw (.validationFailed
      "messages need a thread_id, or an agent_run_id to default it to")
  | some threadId => appendMessages digests checks ctx threadId messages

end Service

def handle (digests : Digests) : Request → Uow Response
  | .patchThread checks ctx threadId title customMetadata => do
      let row ← patchThread checks ctx threadId.text title customMetadata
      pure (.thread row)
  | .getThread checks ctx threadId => do
      let row ← getThread checks ctx threadId.text
      pure (.thread row)
  | .deleteThread checks ctx threadId => do
      deleteThread checks ctx threadId.text
      pure .deleted
  | .listMessages checks ctx threadId limit beforeSequence includeInternal => do
      let rows ← listMessages checks ctx threadId.text limit beforeSequence includeInternal
      pure (.messages rows)
  | .createMessages checks ctx messages => do
      let acks ← createMessages digests checks ctx messages
      pure (.acks acks)

end MemoryService.Conversation.Threads
