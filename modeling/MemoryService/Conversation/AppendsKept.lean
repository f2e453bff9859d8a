import MemoryService.Conversation.TenantsApart

/-!
# Appended messages are kept in a live thread

A thread that was deleted is not seen by an append, which then inserts it again under the same
identifier and is refused by the database.
-/

namespace MemoryService.Conversation.Threads

open Domain Foundation Option List

variable {digests : Digests} {checks : Checks} {ctx : Caller} {threadId : String}

def Live (tenant threadId : String) (store : Store) : Prop :=
  ∃ row ∈ store.threads.rows, row.threadId = threadId ∧ row.tenantId = tenant ∧ row.deleted = false
deriving Decidable

def NotDeleted (tenant threadId : String) (store : Store) : Prop :=
  ∀ row ∈ store.threads.rows, row.tenantId = tenant → row.threadId = threadId → row.deleted = false
deriving Decidable

def sameSource (message : MessageIn) (row : Message) : Bool :=
  match message.sourceSystem, message.sourceMessageId with
  | some sourceSystem, some sourceMessageId =>
    sourceSystem ≠ "" && sourceMessageId ≠ "" && hasSource sourceSystem sourceMessageId row
  | _, _ => false

def SourcesLive (tenant : String) (messages : List MessageIn) (store : Store) : Prop :=
  ∀ message ∈ messages, ∀ row ∈ store.messages.rows, row.tenantId = tenant →
    sameSource message row = true → Live tenant row.threadId store
deriving Decidable

def Stored (digests : Digests) (ctx : Caller) (threadId : String) (store : Store)
    (message : MessageIn) (ack : MessageAck) : Prop :=
  ∃ row ∈ store.messages.rows, row.tenantId = ctx.tenant ∧
    Live ctx.tenant row.threadId store ∧ row.messageId = ack.messageId ∧
      if ack.deduplicated then sameSource message row = true
      else
        row = storedMessage digests ctx threadId ack.sessionId ack.turnId ack.sequence message

variable {Row Key α : Type} {key : Row → Key} {pre post : Store → Prop} {expected : Failure → Prop}
  {sequence count : Nat} {failure : Failure} {store next : Store} {tenant : String}
  {message : MessageIn}
  {ids : String × String}

section Lookups

variable {tenant : String} {store : Store}

theorem threadsGet_eq_some {row : ThreadRow}
    (found : threadsGet tenant threadId store = some row) : Live tenant threadId store := by
  obtain ⟨isFound, kept⟩ := filter_eq_some_iff.mp found
  obtain ⟨member, isThread⟩ := Keyed.find_eq_some_iff.mp isFound
  obtain ⟨own, live⟩ := Bool.and_eq_true_iff.mp kept
  exact ⟨row, member, isThread, of_decide_eq_true own, by simpa using live⟩

theorem key_free [DecidableEq Key] {keep : Row → Bool}
    {table : Keyed key} {sought : Key} (absent : (table.find sought).filter keep = none)
    (kept : ∀ row ∈ table.rows, key row = sought → keep row = true) :
    sought ∉ table.rows.map key := by
  intro present
  obtain ⟨row, member, isRow⟩ := mem_map.mp present
  rw [Keyed.find_eq_some_iff.mpr ⟨member, isRow⟩, filter_some_pos (kept row member isRow)] at absent
  cases absent

theorem insertRow_ends [DecidableEq Key]
    {clash : Row → Row → Bool} {new : Row} {table : Store → Keyed key}
    {put : Store → Keyed key → Store}
    (free : ∀ store, pre store → key new ∉ (table store).rows.map key)
    (apart : ∀ store, pre store → ∀ row ∈ (table store).rows, clash new row = false)
    (done : ∀ store rows, pre store → rows.rows = (table store).rows ++ [new] →
      post (put store rows)) :
    Triple pre (insertRow clash new table put) (fun _ => post) expected := by
  refine Triple.attempt (fun store held refused => ?_) fun store answer next held isDone => ?_
  · obtain ⟨rows, inserted⟩ := Keyed.exists_insert (free store held) (apart store held)
    rw [inserted] at refused
    cases refused
  · obtain ⟨rows, inserted, isNext⟩ := map_eq_some_iff.mp isDone
    cases isNext
    exact done store rows held (Keyed.insert_eq_some inserted)

theorem lt_nextSequence {sequences : List Nat} (member : sequence ∈ sequences) :
    sequence < nextSequence sequences := by
  rw [nextSequence, Nat.lt_succ_iff]
  induction sequences with
  | nil => cases member
  | cons first rest ih =>
    rw [foldr_cons]
    rcases mem_cons.mp member with rfl | isLater
    · exact le_max_left _ _
    · exact (ih isLater).trans (le_max_right _ _)

end Lookups

def IsDomain (failure : Failure) : Prop := failure.isDomain = true

theorem require_ends {allowed : Bool}
    (isDomain : IsDomain failure) (gives : ∀ store, pre store → post store) :
    Triple pre (require allowed failure) (fun _ => post) IsDomain := by
  rw [require]
  split
  case isTrue => exact Triple.pure gives
  case isFalse => exact Triple.throw isDomain

theorem createThread_ends (title : Option String)
    (customMetadata : Option (List (String × Json))) :
    Triple (fun store => ThreadClear ctx.tenant threadId store ∧
        NotDeleted ctx.tenant threadId store)
      (createThread checks ctx threadId title customMetadata)
      (fun _ => Live ctx.tenant threadId) IsDomain := by
  refine Triple.bind (Triple.read _) fun existing => ?_
  cases existing with
  | some existing =>
    refine Triple.bind (require_ends rfl fun store held => ?_) fun _ =>
      Triple.pure fun _ live => live
    exact threadsGet_eq_some held.2.symm
  | none =>
    refine Triple.bind (require_ends rfl fun _ held => held) fun _ => ?_
    refine Triple.bind (insertRow_ends (fun store held => ?_) (fun _ _ _ _ => rfl)
      fun store rows held isNext => ?_) fun _ => Triple.pure fun store live => live
    · refine key_free held.2.symm fun row member isThread => ?_
      have own : row.tenantId = ctx.tenant :=
        by_contra fun foreign => held.1.1 row member foreign isThread
      simp [own, held.1.2 row member own isThread]
    · have isNew : _ ∈ rows.rows := isNext ▸ mem_append_right _ (mem_singleton.mpr rfl)
      exact ⟨_, isNew, rfl, rfl, rfl⟩

theorem ensureThread_ends :
    Triple (fun store => ThreadClear ctx.tenant threadId store ∧
        NotDeleted ctx.tenant threadId store)
      (ensureThread checks ctx threadId) (fun _ => Live ctx.tenant threadId) IsDomain := by
  refine Triple.bind (Triple.read _) fun thread => ?_
  cases thread with
  | none =>
    refine Triple.bind ((createThread_ends _ _).mono fun _ held => held.1) fun _ => ?_
    exact Triple.pure fun _ live => live
  | some thread => exact require_ends rfl fun _ held => threadsGet_eq_some held.2.symm

variable {row : Message} {answer : Except Failure α}

section Parts

variable {sessionId turnId : String} {agentRunId : Option String}

theorem ensureSession_ends :
    Triple (Clear ctx.tenant threadId sessionId agentRunId)
      (ensureSession ctx threadId sessionId) (fun _ _ => True) IsDomain := by
  refine Triple.bind (Triple.read _) fun session => ?_
  cases session with
  | none =>
    refine insertRow_ends (fun store held => ?_) (fun _ _ _ _ => rfl) fun _ _ _ _ => trivial
    refine key_free held.2.symm fun row member isSession => decide_eq_true ?_
    exact by_contra fun foreign => held.1.sessions row member foreign isSession
  | some session => exact require_ends rfl fun _ _ => trivial

theorem ensureTurn_ends :
    Triple (fun store => Clear ctx.tenant threadId sessionId agentRunId store ∧
        TurnClear ctx.tenant turnId store)
      (ensureTurn ctx threadId sessionId turnId) (fun _ _ => True) IsDomain := by
  refine Triple.bind (Triple.read _) fun turn => ?_
  cases turn with
  | none =>
    refine Triple.bind (Triple.read _) fun sequence => ?_
    refine insertRow_ends (fun store held => ?_) (fun store held row member => ?_)
      fun _ _ _ _ => trivial
    · refine key_free held.1.2.symm fun row member isTurn => decide_eq_true ?_
      exact by_contra fun foreign => held.1.1.2 row member foreign isTurn
    · obtain ⟨⟨⟨clear, -⟩, -⟩, rfl⟩ := held
      rw [sameTurn, Bool.and_eq_false_iff, decide_eq_false_iff_not, decide_eq_false_iff_not]
      by_contra clashes
      rw [not_or, not_not, not_not] at clashes
      have own : row.tenantId = ctx.tenant :=
        by_contra fun foreign => clear.turns row member foreign clashes.1.symm
      have isTurn : row ∈ threadTurns ctx.tenant threadId store := by
        rw [threadTurns, mem_filter, Bool.and_eq_true, decide_eq_true_iff, decide_eq_true_iff]
        exact ⟨member, own, clashes.1.symm⟩
      exact (lt_nextSequence (mem_map_of_mem isTurn)).ne clashes.2.symm
  | some turn => exact require_ends rfl fun _ _ => trivial

theorem ensureAgentRun_ends :
    Triple (Clear ctx.tenant threadId sessionId (ctx.agentRunId.map (·.text)))
      (ensureAgentRun ctx threadId sessionId turnId) (fun _ _ => True) IsDomain := by
  rw [ensureAgentRun]
  split
  case h_1 agentRunId agentId isRun _ =>
    refine Triple.bind (Triple.read _) fun run => ?_
    cases run with
    | some run => exact Triple.pure fun _ _ => trivial
    | none =>
      refine insertRow_ends (fun store held => ?_) (fun _ _ _ _ => rfl) fun _ _ _ _ => trivial
      refine key_free held.2.symm fun row member isSame => decide_eq_true ?_
      refine by_contra fun foreign => held.1.agentRuns row member foreign ?_
      rw [isRun, isSame]
      rfl
  case h_2 => exact Triple.pure fun _ _ => trivial

theorem place_free (clear : Clear ctx.tenant threadId sessionId agentRunId store)
    (isThread : row.threadId = threadId)
    (isNext : row.sequence = messagesNextSequence ctx.tenant threadId store) :
    messagePlace row ∉ store.messages.rows.map messagePlace := by
  intro present
  obtain ⟨other, member, same⟩ := mem_map.mp present
  have sameThread : other.threadId = threadId := (Prod.mk.inj same).1.trans isThread
  have own : other.tenantId = ctx.tenant :=
    by_contra fun foreign => clear.messages other member foreign sameThread
  have isMessage : other ∈ threadMessages ctx.tenant threadId store := by
    rw [threadMessages, mem_filter, Bool.and_eq_true, decide_eq_true_iff, decide_eq_true_iff]
    exact ⟨member, own, sameThread⟩
  have isLess := lt_nextSequence (mem_map_of_mem (f := (·.sequence)) isMessage)
  exact isLess.ne ((Prod.mk.inj same).2.trans isNext)

end Parts

theorem Live.onward {id : String}
    (moved : Onward tenant threadId count store next) (live : Live tenant id store) :
    Live tenant id next := by
  obtain ⟨row, member, isThread, own, isLive⟩ := live
  obtain ⟨other, isOther, sameThread, sameTenant, otherLive⟩ := moved.threads row member isLive
  exact ⟨other, isOther, sameThread.trans isThread, sameTenant.trans own, otherLive⟩

theorem Live.notDeleted (live : Live tenant threadId store) :
    NotDeleted tenant threadId store := by
  obtain ⟨row, member, isThread, -, isLive⟩ := live
  intro other isOther _ sameThread
  have same : other = row := inj_on_of_nodup_map store.threads.unique isOther member
    (sameThread.trans isThread.symm)
  exact same ▸ isLive

theorem Stored.onward {ack : MessageAck} (moved : Onward ctx.tenant threadId count store next)
    (stored : Stored digests ctx threadId store message ack) :
    Stored digests ctx threadId next message ack := by
  obtain ⟨row, member, own, live, rest⟩ := stored
  exact ⟨row, moved.messages member, own, live.onward moved, rest⟩

theorem attempt_ends {answer : Store → α} {change : Store → Store} :
    Triple pre (attempt .integrityError fun store => some (answer store, change store) : Uow α)
      (fun _ _ => True) expected :=
  Triple.attempt (fun _ _ refused => by cases refused) fun _ _ _ _ _ => trivial

structure Free (ctx : Caller) (threadId : String) (ids : String × String) (store : Store) :
    Prop where
  clear : Clear ctx.tenant threadId ids.1 (ctx.agentRunId.map (·.text)) store
  turn : TurnClear ctx.tenant ids.2 store
  live : Live ctx.tenant threadId store

theorem Free.onward
    (moved : Onward ctx.tenant threadId count store next) (free : Free ctx threadId ids store) :
    Free ctx threadId ids next where
  clear := Clear.onward moved.others free.clear
  turn := TurnClear.onward moved.others free.turn
  live := free.live.onward moved

structure Written (ctx : Caller) (threadId : String) (row : Message) (store : Store) :
    Prop where
  live : Live ctx.tenant threadId store
  member : row ∈ store.messages.rows

theorem Written.onward
    (moved : Onward ctx.tenant threadId count store next)
    (written : Written ctx threadId row store) :
    Written ctx threadId row next where
  live := written.live.onward moved
  member := moved.messages written.member

theorem messagesAdd_ends
    (isThread : row.threadId = threadId) (isSequence : row.sequence = sequence) :
    Triple (fun store => Free ctx threadId ids store ∧
        sequence = messagesNextSequence ctx.tenant threadId store)
      (messagesAdd row) (fun _ => Written ctx threadId row) IsDomain := by
  refine insertRow_ends
    (fun store held => place_free held.1.clear isThread (isSequence.trans held.2))
    (fun _ _ _ _ => rfl) fun store rows held isNext => ⟨held.1.live, ?_⟩
  have isNew : row ∈ rows.rows := isNext ▸ mem_append_right _ (mem_singleton.mpr rfl)
  exact isNew

theorem storeMessage_ends (message : MessageIn) :
    Triple
      (fun store =>
        Appendable digests ctx threadId (count + 1) store ∧ Live ctx.tenant threadId store)
      (storeMessage digests ctx threadId message)
      (fun ack store => Stored digests ctx threadId store message ack ∧
        Live ctx.tenant threadId store) IsDomain := by
  refine Triple.bind (Triple.read _) fun ids => ?_
  refine Triple.mono (?_ : Triple (Free ctx threadId ids) _ _ _) ?_
  · refine Triple.bind (Triple.kept (ensureSession_ends.mono fun _ free => free.clear)
      (ensureSession_moves _ _) fun _ _ => Free.onward) fun _ => ?_
    refine Triple.bind (Triple.kept (ensureTurn_ends.mono fun _ free => ⟨free.clear, free.turn⟩)
      (ensureTurn_moves _ _) fun _ _ => Free.onward) fun _ => ?_
    refine Triple.bind (Triple.kept (ensureAgentRun_ends.mono fun _ free => free.clear)
      (ensureAgentRun_moves _ _ _) fun _ _ => Free.onward) fun _ => ?_
    refine Triple.bind (Triple.read _) fun sequence => ?_
    refine Triple.bind (messagesAdd_ends rfl rfl) fun _ => ?_
    refine Triple.bind (Triple.kept attempt_ends (observationsAdd_moves rfl)
      fun _ _ => Written.onward) fun _ => ?_
    refine Triple.bind (Triple.kept attempt_ends (threadsTouch_moves _ _ _)
      fun _ _ => Written.onward) fun _ => ?_
    exact Triple.pure fun store written =>
      ⟨⟨_, written.member, rfl, written.live, rfl, rfl⟩, written.live⟩
  · rintro store ⟨⟨⟨clear, turns⟩, live⟩, rfl⟩
    refine ⟨?_, lineage_turnClear message.role turns, live⟩
    rw [lineage_session]
    exact clear

/-- Nothing stands in the way of the messages. -/
structure Ready (digests : Digests) (ctx : Caller) (threadId : String)
    (messages : List MessageIn) (store : Store) : Prop where
  clear : Clear ctx.tenant threadId (sessionOf digests ctx threadId)
    (ctx.agentRunId.map (·.text)) store
  turns : TurnsClear digests ctx threadId messages.length store
  notDeleted : NotDeleted ctx.tenant threadId store
  sources : SourcesLive ctx.tenant messages store

theorem sameSource_of_duplicate (isDuplicate : duplicateOf ctx message store = some row) :
    row ∈ store.messages.rows ∧ row.tenantId = ctx.tenant ∧ sameSource message row = true := by
  revert isDuplicate
  rw [duplicateOf, sameSource]
  cases message.sourceSystem with
  | none =>
    intro isDuplicate
    cases isDuplicate
  | some sourceSystem =>
    cases message.sourceMessageId with
    | none =>
      intro isDuplicate
      cases isDuplicate
    | some sourceMessageId =>
      intro isDuplicate
      dsimp only at isDuplicate ⊢
      obtain ⟨truthy, isDuplicate⟩ := ite_none_left_eq_some.mp isDuplicate
      rw [not_or] at truthy
      have kept : (decide (row.tenantId = ctx.tenant) &&
          hasSource sourceSystem sourceMessageId row) = true :=
        find?_some (p := fun row : Message => decide (row.tenantId = ctx.tenant) &&
          hasSource sourceSystem sourceMessageId row) isDuplicate
      obtain ⟨own, isSource⟩ := Bool.and_eq_true_iff.mp kept
      refine ⟨mem_of_find?_eq_some isDuplicate, of_decide_eq_true own, ?_⟩
      simp [truthy.1, truthy.2, isSource]

theorem SourcesLive.onward {messages : List MessageIn}
    (moved : Onward ctx.tenant threadId count store next) (live : Live ctx.tenant threadId next)
    (sources : SourcesLive ctx.tenant messages store) : SourcesLive ctx.tenant messages next := by
  intro message isMessage row member own isSame
  rcases moved.written row member with isOld | isThread
  · exact (sources message isMessage row isOld own isSame).onward moved
  · rw [isThread]
    exact live

theorem appendMessage_ends (message : MessageIn) (later : List MessageIn) :
    Triple (Ready digests ctx threadId (message :: later))
      (appendMessage digests checks ctx threadId message)
      (fun ack store => Stored digests ctx threadId store message ack ∧
        Live ctx.tenant threadId store) IsDomain := by
  rw [appendMessage]
  split
  case h_1 => exact Triple.throw rfl
  case h_2 =>
    have opens : Triple (Ready digests ctx threadId (message :: later))
        (ensureThread checks ctx threadId)
        (fun _ store => (Appendable digests ctx threadId (later.length + 1) store ∧
            Live ctx.tenant threadId store) ∧
          SourcesLive ctx.tenant (message :: later) store) IsDomain := by
      intro store ready
      obtain ⟨fails, ends⟩ := ensureThread_ends store ⟨ready.clear.threads, ready.notDeleted⟩
      refine ⟨fails, fun answer next isRun => ?_⟩
      have live := ends answer next isRun
      have moved : Onward ctx.tenant threadId 0 store next :=
        ensureThread_moves threadId store answer next isRun
      exact ⟨⟨⟨Clear.onward moved.others ready.clear,
        TurnsClear.onward moved ready.turns⟩, live⟩, ready.sources.onward moved live⟩
    refine Triple.bind opens fun _ => Triple.bind (Triple.read _) fun duplicate => ?_
    cases duplicate with
    | some duplicate =>
      refine Triple.pure fun store held => ⟨?_, held.1.1.2⟩
      obtain ⟨member, own, isSame⟩ := sameSource_of_duplicate held.2.symm
      exact ⟨duplicate, member, own, held.1.2 message mem_cons_self duplicate member own
        isSame, rfl, isSame⟩
    | none => exact (storeMessage_ends message).mono fun _ held => held.1.1

theorem appendMessages_ends : ∀ messages : List MessageIn,
    Triple (Ready digests ctx threadId messages)
      (appendMessages digests checks ctx threadId messages)
      (fun acks store => List.Forall₂ (Stored digests ctx threadId store) messages acks) IsDomain
  | [] => Triple.pure fun _ _ => List.Forall₂.nil
  | message :: later => by
    have first : Triple (Ready digests ctx threadId (message :: later))
        (appendMessage digests checks ctx threadId message)
        (fun ack store => Ready digests ctx threadId later store ∧
          Stored digests ctx threadId store message ack) IsDomain := by
      intro store ready
      obtain ⟨fails, ends⟩ := appendMessage_ends message later store ready
      refine ⟨fails, fun ack next isRun => ?_⟩
      obtain ⟨stored, live⟩ := ends ack next isRun
      have moved := appendMessage_moves message store ack next isRun
      refine ⟨⟨Clear.onward moved.others ready.clear,
        TurnsClear.onward moved ready.turns, live.notDeleted, ?_⟩, stored⟩
      exact SourcesLive.onward moved live fun other isLater =>
        ready.sources other (mem_cons_of_mem message isLater)
    refine Triple.bind first fun ack => ?_
    have rest : Triple (fun store => Ready digests ctx threadId later store ∧
          Stored digests ctx threadId store message ack)
        (appendMessages digests checks ctx threadId later)
        (fun acks store => List.Forall₂ (Stored digests ctx threadId store) later acks ∧
          Stored digests ctx threadId store message ack) IsDomain := by
      intro store held
      obtain ⟨fails, ends⟩ := appendMessages_ends later store held.1
      refine ⟨fails, fun acks next isRun => ⟨ends acks next isRun, ?_⟩⟩
      exact held.2.onward (appendMessages_moves later store acks next isRun)
    exact Triple.bind rest fun acks => Triple.pure fun _ held => List.Forall₂.cons held.2 held.1

/-- What a tenant is answered, and its rows, are the same whatever the others ask for. -/
def TenantsApart (digests : Digests) (admits : Store → Request → Prop) : Prop :=
  ∀ (tenant : String) (requests others : List Request) (store start last ending : Store),
    run (served (handle digests)) store requests = some last →
    run (served (handle digests)) start others = some ending →
    Meets (served (handle digests))
      (fun store request => decide (request.tenant = tenant) = true → admits store request)
      store requests →
    Meets (served (handle digests))
      (fun store request => decide (request.tenant = tenant) = true → admits store request)
      start others →
    store.own tenant = start.own tenant →
    requests.filter (·.tenant = tenant) = others.filter (·.tenant = tenant) →
      (answers (handle digests) store requests).filter (·.1.tenant = tenant) =
          (answers (handle digests) start others).filter (·.1.tenant = tenant) ∧
        last.own tenant = ending.own tenant

/-- An append stores its messages in a live thread of the tenant, or fails with a problem of the
service and leaves the store as it was. -/
def AppendsKept (digests : Digests)
    (admits : Caller → String → List MessageIn → Store → Prop) : Prop :=
  ∀ (checks : Checks) (ctx : Caller) (messages : List MessageIn) (threadId : String)
    (store next : Store) (answer : Except Failure (List MessageAck)),
    threadOf ctx = some threadId → admits ctx threadId messages store →
      respond (createMessages digests checks ctx messages) store = (next, answer) →
        (∀ acks, answer = .ok acks →
          List.Forall₂ (Stored digests ctx threadId next) messages acks) ∧
        ∀ failure, answer = .error failure → failure.isDomain = true ∧ next = store

theorem tenantsApart_of_unclaimed (digests : Digests) :
    TenantsApart digests (Unclaimed digests) := by
  intro tenant requests others store start last ending reached otherReached meets otherMeets
    sameRows sameRequests
  have seen (request : Request) (isMine : decide (request.tenant = tenant) = true) :
      Seen (Store.own tenant) (Unclaimed digests · request) (handle digests request) :=
    of_decide_eq_true isMine ▸ handle_seen request
  have hidden (request : Request) (notMine : decide (request.tenant = tenant) = false) :
      Moves (fun store next => next.own tenant = store.own tenant) (handle digests request) :=
    handle_hidden (of_decide_eq_false notMine)
  obtain ⟨answered, rows⟩ := answers_of_mine seen hidden reached meets
  obtain ⟨otherAnswered, otherRows⟩ := answers_of_mine seen hidden otherReached otherMeets
  rw [sameRows, sameRequests] at answered rows
  exact ⟨answered.trans otherAnswered.symm, some_inj.mp (rows.symm.trans otherRows)⟩

theorem appendsKept_of_ready (digests : Digests) :
    AppendsKept digests fun ctx threadId messages store =>
      Ready digests ctx threadId messages store := by
  intro checks ctx messages threadId store next answer isThread ready answered
  have ends : Triple (Ready digests ctx threadId messages)
      (createMessages digests checks ctx messages)
      (fun acks store => List.Forall₂ (Stored digests ctx threadId store) messages acks)
      IsDomain := by
    rw [createMessages, isThread]
    exact appendMessages_ends messages
  exact respond_of_triple ends ready answered

section Closed

/-- Derived identifiers that tell their parts apart. -/
private def joined : Digests where
  contentHash := id
  threadSessionId := fun tenant thread => "ses_" ++ tenant ++ "/" ++ thread
  threadTurnId := fun tenant thread sequence =>
    "trn_" ++ tenant ++ "/" ++ thread ++ "/" ++ toString sequence

private def allowed : Checks where
  mayWrite := false
  canRead := true
  canWrite := true
  member := true

private def umbrella : Id := ⟨"umbrella", by decide⟩

private def soylent : Id := ⟨"soylent", by decide⟩

private def support : Id := ⟨"support", by decide⟩

private def sales : Id := ⟨"sales", by decide⟩

private def context (tenant : Id) (threadId : Option Id) : Caller where
  tenantId := tenant
  threadId := threadId
  runHasAgent := MemoryExecutionContext.no_run

private def titled (tenant threadId : Id) : Request :=
  .patchThread allowed (context tenant none) threadId (some "Help") none

private def hello : MessageIn where
  role := .user
  content := "Hello"
  messageId := "msg_1"
  observationId := "obs_1"
  now := ⟨0⟩

private def greeting : MessageAck where
  messageId := "msg_1"
  threadId := "support"
  sessionId := "ses_umbrella/support"
  turnId := "trn_umbrella/support/1"
  sequence := 1
  observationId := some "obs_1"

private def greeted (tenant threadId : Id) : Request :=
  .createMessages allowed (context tenant (some threadId)) [hello]

private def removed (tenant threadId : Id) : Request :=
  .deleteThread allowed (context tenant none) threadId

private def failureOf {α : Type} : Except Failure α → Option Failure
  | .ok _ => none
  | .error failure => some failure

theorem eq_error_of (isFailure : failureOf answer = some failure) : answer = .error failure := by
  cases answer with
  | ok _ => cases isFailure
  | error other => rw [some_inj.mp isFailure]

theorem eq_ok_of {value : α} (isOk : answer.toOption = some value) : answer = .ok value := by
  cases answer with
  | ok other => rw [some_inj.mp isOk]
  | error _ => cases isOk

private def guarded (store : Store) (request : Request) : Prop :=
  decide (request.tenant = "umbrella") = true → Unclaimed joined store request

private instance (store : Store) (request : Request) : Decidable (guarded store request) :=
  inferInstanceAs (Decidable (_ → _))

theorem meets_titled : Meets (served (handle joined)) guarded .empty
    [titled soylent sales, greeted umbrella support] := by
  decide +kernel

theorem meets_greeted :
    Meets (served (handle joined)) guarded .empty [greeted umbrella support] := by
  decide +kernel

/-- The thread as its owner left it. -/
private def closed : Store :=
  ((run (served (handle joined)) .empty [titled umbrella support, removed umbrella support])).getD
    .empty

end Closed

end MemoryService.Conversation.Threads
