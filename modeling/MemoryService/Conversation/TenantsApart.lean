import MemoryService.Conversation.TenantParts

/-!
# Tenants apart

An identifier that another tenant has taken is not seen by a lookup and refuses an insert, and so
does the identifier of a thread that was deleted.
-/

namespace MemoryService.Conversation.Threads

open Domain Foundation Option

variable {tenant : String} {digests : Digests} {checks : Checks} {ctx : Caller}

structure Clear (tenant threadId sessionId : String) (agentRunId : Option String)
    (store : Store) : Prop where
  threads : ∀ row ∈ store.threads.rows, row.tenantId ≠ tenant → row.threadId ≠ threadId
  sessions : ∀ row ∈ store.sessions.rows, row.tenantId ≠ tenant → row.sessionId ≠ sessionId
  agentRuns : ∀ row ∈ store.agentRuns.rows, row.tenantId ≠ tenant → some row.agentRunId ≠ agentRunId
  turns : ∀ row ∈ store.turns.rows, row.tenantId ≠ tenant → row.threadId ≠ threadId
  messages : ∀ row ∈ store.messages.rows, row.tenantId ≠ tenant → row.threadId ≠ threadId

def ThreadClear (tenant threadId : String) (store : Store) : Prop :=
  ∀ row ∈ store.threads.rows, row.tenantId ≠ tenant → row.threadId ≠ threadId
deriving Decidable

def TurnClear (tenant turnId : String) (store : Store) : Prop :=
  ∀ row ∈ store.turns.rows, row.tenantId ≠ tenant → row.turnId ≠ turnId
deriving Decidable

/-- The turn that is named, or those that as many messages may be given. -/
def TurnsClear (digests : Digests) (ctx : Caller) (threadId : String) (count : Nat)
    (store : Store) : Prop :=
  match ctx.turnId with
  | some turnId => TurnClear ctx.tenant turnId.text store
  | none => ∀ k < count,
      TurnClear ctx.tenant
        (digests.threadTurnId ctx.tenant threadId
          (turnsNextSequence ctx.tenant threadId store + k)) store

/-- Nothing of another tenant's is in the way of as many messages. -/
def Appendable (digests : Digests) (ctx : Caller) (threadId : String) (count : Nat)
    (store : Store) : Prop :=
  Clear ctx.tenant threadId (sessionOf digests ctx threadId)
      (ctx.agentRunId.map (·.text)) store ∧
    TurnsClear digests ctx threadId count store

def Unclaimed (digests : Digests) (store : Store) : Request → Prop
  | .patchThread _ ctx threadId _ _ => ThreadClear ctx.tenant threadId.text store
  | .createMessages _ ctx messages =>
    ∀ threadId, threadOf ctx = some threadId →
      Clear ctx.tenant threadId (sessionOf digests ctx threadId)
          (ctx.agentRunId.map (·.text)) store ∧
        TurnsClear digests ctx threadId messages.length store
  | _ => True

instance (tenant threadId sessionId : String) (agentRunId : Option String) (store : Store) :
    Decidable (Clear tenant threadId sessionId agentRunId store) :=
  decidable_of_iff
    ((∀ row ∈ store.threads.rows, row.tenantId ≠ tenant → row.threadId ≠ threadId) ∧
      (∀ row ∈ store.sessions.rows, row.tenantId ≠ tenant → row.sessionId ≠ sessionId) ∧
      (∀ row ∈ store.agentRuns.rows, row.tenantId ≠ tenant → some row.agentRunId ≠ agentRunId) ∧
      (∀ row ∈ store.turns.rows, row.tenantId ≠ tenant → row.threadId ≠ threadId) ∧
      ∀ row ∈ store.messages.rows, row.tenantId ≠ tenant → row.threadId ≠ threadId)
    ⟨fun clear => ⟨clear.1, clear.2.1, clear.2.2.1, clear.2.2.2.1, clear.2.2.2.2⟩, fun clear =>
      ⟨clear.threads, clear.sessions, clear.agentRuns, clear.turns, clear.messages⟩⟩

instance (digests : Digests) (ctx : Caller) (threadId : String) (count : Nat) (store : Store) :
    Decidable (TurnsClear digests ctx threadId count store) := by
  unfold TurnsClear
  cases ctx.turnId with
  | some turnId => exact inferInstance
  | none => exact inferInstance

instance (digests : Digests) (store : Store) (request) :
    Decidable (Unclaimed digests store request) := by
  unfold Unclaimed
  split <;> infer_instance

variable {Row Key α β : Type} {key : Row → Key} {unit : Uow α} {rest : α → Uow β}
  {store next : Store} {count : Nat} {turnId : String}

theorem mem_others_iff {column : Row → String} {table : Keyed key} {row : Row} :
    row ∈ (table.restrict fun row => decide (column row ≠ tenant)).rows ↔
      row ∈ table.rows ∧ column row ≠ tenant := by
  rw [Keyed.restrict, List.mem_filter, decide_eq_true_iff]

section Kept

variable {store next : Store} {threadId sessionId turnId : String}
  {agentRunId : Option String}

theorem foreign_kept {column : Row → String} {rows old : Keyed key} {row : Row}
    (moved : rows.restrict (fun row => decide (column row ≠ tenant)) =
      old.restrict (fun row => decide (column row ≠ tenant)))
    (member : row ∈ rows.rows) (foreign : column row ≠ tenant) : row ∈ old.rows := by
  have isOther := mem_others_iff.mpr ⟨member, foreign⟩
  rw [moved] at isOther
  exact (mem_others_iff.mp isOther).1

section

variable (moved : next.others tenant = store.others tenant)
include moved

theorem ThreadClear.onward
    (clear : ThreadClear tenant threadId store) : ThreadClear tenant threadId next :=
  fun row member foreign =>
    clear row (foreign_kept (congrArg Store.threads moved) member foreign) foreign

theorem TurnClear.onward (clear : TurnClear tenant turnId store) : TurnClear tenant turnId next :=
  fun row member foreign =>
    clear row (foreign_kept (congrArg Store.turns moved) member foreign) foreign

theorem Clear.onward (clear : Clear tenant threadId sessionId agentRunId store) :
    Clear tenant threadId sessionId agentRunId next where
  threads := ThreadClear.onward moved clear.threads
  sessions := fun row member foreign =>
    clear.sessions row (foreign_kept (congrArg Store.sessions moved) member foreign) foreign
  agentRuns := fun row member foreign =>
    clear.agentRuns row (foreign_kept (congrArg Store.agentRuns moved) member foreign) foreign
  turns := fun row member foreign =>
    clear.turns row (foreign_kept (congrArg Store.turns moved) member foreign) foreign
  messages := fun row member foreign =>
    clear.messages row (foreign_kept (congrArg Store.messages moved) member foreign) foreign

end

end Kept

section Moves

variable {threadId : String}

theorem onward_bind (first : Moves (Onward tenant threadId 0) unit)
    (others : ∀ answer, Moves (Onward tenant threadId count) (rest answer)) :
    Moves (Onward tenant threadId count) (unit >>= rest) :=
  Moves.bind (fun _ _ _ isFirst isLater => Nat.zero_add count ▸ isFirst.trans isLater) first others

theorem onward_last (first : Moves (Onward tenant threadId count) unit)
    (others : ∀ answer, Moves (Onward tenant threadId 0) (rest answer)) :
    Moves (Onward tenant threadId count) (unit >>= rest) :=
  Moves.bind (fun _ _ _ isFirst isLater => isFirst.trans isLater) first others

theorem onward_weaken (moves : Moves (Onward tenant threadId 0) unit) :
    Moves (Onward tenant threadId count) unit := fun store answer next isRun =>
  { moves store answer next isRun with
    turnsTo := (moves store answer next isRun).turnsTo.trans (Nat.le_add_right _ _) }

theorem onward_read (f : Store → α) : Moves (Onward tenant threadId 0) (f <$> get : Uow α) :=
  Moves.read (Onward.refl tenant threadId) f

theorem onward_pure (answer : α) : Moves (Onward tenant threadId 0) (pure answer : Uow α) :=
  Moves.pure (Onward.refl tenant threadId) answer

theorem require_moves (allowed : Bool) (failure : Failure) :
    Moves (Onward tenant threadId 0) (require allowed failure) := by
  rw [require]
  split
  case isTrue => exact onward_pure ()
  case isFalse => exact Moves.throw failure

theorem createThread_moves (id : String) (title : Option String)
    (customMetadata : Option (List (String × Json))) :
    Moves (Onward ctx.tenant threadId 0) (createThread checks ctx id title customMetadata) := by
  refine onward_bind (onward_read _) fun existing => ?_
  cases existing with
  | some existing => exact onward_bind (require_moves _ _) fun _ => onward_pure _
  | none =>
    refine onward_bind (require_moves _ _) fun _ => ?_
    exact onward_bind (threadsAdd_moves rfl) fun _ => onward_pure _

theorem patchThread_moves (id : String) (title : Option String)
    (customMetadata : Option (List (String × Json))) :
    Moves (Onward ctx.tenant threadId 0) (patchThread checks ctx id title customMetadata) := by
  refine onward_bind (onward_read _) fun existing => ?_
  cases existing with
  | none => exact createThread_moves id title customMetadata
  | some existing =>
    refine onward_bind (require_moves _ _) fun _ => ?_
    split
    case isTrue => exact onward_pure _
    case isFalse =>
      refine onward_bind (threadsTouch_moves _ _ _) fun _ => ?_
      refine onward_bind (onward_read _) fun updated => ?_
      cases updated with
      | none => exact Moves.throw _
      | some updated => exact onward_pure _

theorem foundThread_moves (allowed : Bool) (relation id : String) :
    Moves (Onward ctx.tenant threadId 0) (foundThread ctx allowed relation id) := by
  refine onward_bind (onward_read _) fun thread => ?_
  cases thread with
  | none => exact Moves.throw _
  | some thread => exact onward_bind (require_moves _ _) fun _ => onward_pure _

theorem ensureThread_moves (id : String) :
    Moves (Onward ctx.tenant threadId 0) (ensureThread checks ctx id) := by
  refine onward_bind (onward_read _) fun thread => ?_
  cases thread with
  | none => exact onward_bind (createThread_moves _ _ _) fun _ => onward_pure _
  | some thread => exact require_moves _ _

theorem ensureSession_moves (id sessionId : String) :
    Moves (Onward ctx.tenant threadId 0) (ensureSession ctx id sessionId) := by
  refine onward_bind (onward_read _) fun session => ?_
  cases session with
  | none => exact sessionsAdd_moves rfl
  | some session => exact require_moves _ _

theorem nextSequence_concat (sequences : List Nat) :
    nextSequence (sequences ++ [nextSequence sequences]) = nextSequence sequences + 1 := by
  have highest (last : Nat) :
      (sequences ++ [last]).foldr max 0 = max (sequences.foldr max 0) last := by
    induction sequences with
    | nil => simp
    | cons first rest ih =>
      rw [List.cons_append, List.foldr_cons, ih, List.foldr_cons, max_assoc]
  rw [nextSequence, highest, nextSequence]
  omega

theorem ensureTurn_moves (sessionId turnId : String) :
    Moves (Onward ctx.tenant threadId 1) (ensureTurn ctx threadId sessionId turnId) := by
  refine onward_bind (onward_read _) fun turn => ?_
  cases turn with
  | none =>
    intro store answer next isRun
    rcases run_bind_cases isRun with ⟨failure, isRead, -⟩ | ⟨sequence, between, isRead, isAdd⟩
    · cases isRead
    · cases isRead
      obtain ⟨rows, inserted, rfl⟩ := insertRow_run isAdd
      have added : turnsNextSequence ctx.tenant threadId { store with turns := rows } =
          turnsNextSequence ctx.tenant threadId store + 1 := by
        rw [turnsNextSequence, threadTurns]
        dsimp only
        rw [Keyed.insert_eq_some inserted, List.filter_append, List.filter_cons_of_pos (by simp),
          List.filter_nil, List.map_append]
        exact nextSequence_concat _
      exact
        { Onward.refl ctx.tenant threadId store with
          others := by
            rw [Store.others, Store.others, Store.part, Store.part,
              others_insert TurnRow.tenantId rfl inserted]
          turnsFrom := added.ge.trans' (Nat.le_succ _)
          turnsTo := added.le }
  | some turn => exact onward_weaken (require_moves _ _)

theorem ensureAgentRun_moves (id sessionId turnId : String) :
    Moves (Onward ctx.tenant threadId 0) (ensureAgentRun ctx id sessionId turnId) := by
  rw [ensureAgentRun]
  split
  case h_1 =>
    refine onward_bind (onward_read _) fun run => ?_
    cases run with
    | some run => exact onward_pure _
    | none => exact agentRunsAdd_moves rfl
  case h_2 => exact onward_pure _

theorem storeMessage_moves (message : MessageIn) :
    Moves (Onward ctx.tenant threadId 1) (storeMessage digests ctx threadId message) := by
  refine onward_bind (onward_read _) fun ids => ?_
  refine onward_bind (ensureSession_moves _ _) fun _ => ?_
  refine onward_last (ensureTurn_moves _ _) fun _ => ?_
  refine onward_bind (ensureAgentRun_moves _ _ _) fun _ => ?_
  refine onward_bind (onward_read _) fun sequence => ?_
  refine onward_bind (messagesAdd_moves rfl rfl) fun _ => ?_
  refine onward_bind (observationsAdd_moves rfl) fun _ => ?_
  exact onward_bind (threadsTouch_moves _ _ _) fun _ => onward_pure _

theorem appendMessage_moves (message : MessageIn) :
    Moves (Onward ctx.tenant threadId 1) (appendMessage digests checks ctx threadId message) := by
  rw [appendMessage]
  split
  case h_1 => exact Moves.throw _
  case h_2 =>
    refine onward_bind (ensureThread_moves threadId) fun _ => ?_
    refine onward_bind (onward_read _) fun duplicate => ?_
    cases duplicate with
    | some duplicate => exact onward_weaken (onward_pure _)
    | none => exact storeMessage_moves message

theorem appendMessages_moves :
    ∀ messages : List MessageIn, Moves (Onward ctx.tenant threadId messages.length)
      (appendMessages digests checks ctx threadId messages)
  | [] => onward_pure _
  | message :: later => by
    refine Moves.bind (fun _ _ _ isFirst isLater => ?_) (appendMessage_moves message)
      fun _ => onward_last (appendMessages_moves later) fun _ => onward_pure _
    rw [List.length_cons, Nat.add_comm]
    exact isFirst.trans isLater

theorem handle_moves (request : Request) :
    Moves (fun store next => next.others request.tenant = store.others request.tenant)
      (handle digests request) := by
  have others (id : String) {count : Nat} {α : Type} {unit : Uow α}
      (moves : Moves (Onward request.tenant id count) unit) :
      Moves (fun store next => next.others request.tenant = store.others request.tenant) unit :=
    fun store answer next isRun => (moves store answer next isRun).others
  have transitive (store middle next : Store)
      (first : middle.others request.tenant = store.others request.tenant)
      (second : next.others request.tenant = middle.others request.tenant) :
      next.others request.tenant = store.others request.tenant := second.trans first
  cases request with
  | patchThread checks ctx threadId title customMetadata =>
    exact others "" (onward_bind (patchThread_moves _ _ _) fun _ => onward_pure _)
  | getThread checks ctx threadId =>
    exact others "" (onward_bind (foundThread_moves _ _ _) fun _ => onward_pure _)
  | deleteThread checks ctx threadId =>
    refine Moves.bind transitive ?_ fun _ => others "" (onward_pure _)
    refine Moves.bind transitive (others "" (foundThread_moves _ _ _)) fun _ => ?_
    exact threadsSoftDelete_moves _
  | listMessages checks ctx threadId limit beforeSequence includeInternal =>
    refine others "" (onward_bind ?_ fun _ => onward_pure _)
    exact onward_bind (foundThread_moves _ _ _) fun _ => onward_read _
  | createMessages checks ctx messages =>
    refine @others ((threadOf ctx).getD "") messages.length _ _
      (onward_last ?_ fun _ => onward_pure _)
    rw [createMessages]
    split
    case h_1 => exact Moves.throw _
    case h_2 threadId isThread =>
      rw [isThread]
      exact appendMessages_moves messages

theorem handle_hidden {request : Request} (foreign : request.tenant ≠ tenant) :
    Moves (fun store next => next.own tenant = store.own tenant) (handle digests request) := by
  intro store answer next isRun
  have same := handle_moves request store answer next isRun
  have isOther (other : String) (own : decide (other = tenant) = true) :
      decide (other ≠ request.tenant) = true :=
    decide_eq_true fun isRequest => foreign (isRequest.symm.trans (of_decide_eq_true own))
  rw [Store.own, Store.own, ← part_part next isOther, ← part_part store isOther]
  exact congrArg (Store.part _) same

end Moves

section Turns

variable {threadId : String}

theorem TurnsClear.onward {later : Nat} (moved : Onward ctx.tenant threadId later store next)
    (clear : TurnsClear digests ctx threadId (count + later) store) :
    TurnsClear digests ctx threadId count next := by
  rw [TurnsClear] at clear ⊢
  split at clear
  case h_1 => exact TurnClear.onward moved.others clear
  case h_2 =>
    intro k isLess
    have low := moved.turnsFrom
    have high := moved.turnsTo
    have isSame : turnsNextSequence ctx.tenant threadId next + k =
        turnsNextSequence ctx.tenant threadId store +
          (turnsNextSequence ctx.tenant threadId next + k -
            turnsNextSequence ctx.tenant threadId store) := by omega
    rw [isSame]
    exact TurnClear.onward moved.others (clear _ (by omega))

theorem lineage_session (role : MessageRole) (store : Store) :
    (lineage digests ctx threadId role store).1 = sessionOf digests ctx threadId := by
  rw [lineage]
  split <;> rfl

theorem lineage_turnClear (role : MessageRole)
    (clear : TurnsClear digests ctx threadId (count + 1) store) :
    TurnClear ctx.tenant (lineage digests ctx threadId role store).2 store := by
  rw [TurnsClear] at clear
  rw [lineage]
  split
  case h_1 turnId _ isNamed =>
    rw [isNamed] at clear
    exact clear
  case h_2 turn isUnnamed isLatest =>
    obtain ⟨isLatestTurn, -⟩ := filter_eq_some_iff.mp isLatest
    obtain ⟨-, isLatestTurn⟩ := ite_none_left_eq_some.mp isLatestTurn
    have isOwn := List.mem_of_find?_eq_some isLatestTurn
    rw [threadTurns, List.mem_filter, Bool.and_eq_true, decide_eq_true_iff] at isOwn
    intro row member foreign same
    have isRow : row = turn := List.inj_on_of_nodup_map store.turns.unique member isOwn.1 same
    exact foreign (isRow ▸ isOwn.2.1)
  case h_3 isUnnamed _ =>
    rw [isUnnamed] at clear
    exact clear 0 (Nat.succ_pos count)

end Turns

section Seen

variable {pre : Store → Prop}

theorem require_seen (allowed : Bool) (failure : Failure) :
    Seen (Store.own tenant) pre (require allowed failure) := by
  rw [require]
  split
  case isTrue => exact Seen.pure ()
  case isFalse => exact Seen.throw failure

theorem insertRow_seen [DecidableEq Key]
    {clash : Row → Row → Bool} {new : Row} {table : Store → Keyed key}
    {put : Store → Keyed key → Store} (column : Row → String)
    (isView : ∀ store : Store, table (store.own tenant) =
      (table store).restrict fun row => decide (column row = tenant))
    (samePut : ∀ (store : Store) (rows : Keyed key),
      put (store.own tenant) (rows.restrict fun row => decide (column row = tenant)) =
        (put store rows).own tenant)
    (own : column new = tenant)
    (away : ∀ store, pre store → ∀ row ∈ (table store).rows, column row ≠ tenant →
      key row ≠ key new ∧ clash new row = false) :
    Seen (Store.own tenant) pre (insertRow clash new table put) := by
  refine Seen.attempt fun store held => ?_
  rw [isView, @Keyed.insert_restrict _ _ _ _ (fun row => decide (column row = tenant)) _ _ _
    (decide_eq_true own) fun row member notOwn =>
      away store held row member (of_decide_eq_false notOwn), map_map, map_map]
  congr 1
  funext rows
  exact congrArg (Prod.mk ()) (samePut store rows)

section Adds

variable {threadId sessionId : String} {agentRunId : Option String}

theorem threadsAdd_seen {row : ThreadRow} (own : row.tenantId = tenant)
    (isThread : row.threadId = threadId) :
    Seen (Store.own tenant) (ThreadClear tenant threadId) (threadsAdd row) := by
  subst isThread
  exact insertRow_seen ThreadRow.tenantId (fun _ => rfl) (fun _ _ => rfl) own
    fun _ clear other member foreign => ⟨clear other member foreign, rfl⟩

theorem sessionsAdd_seen {row : SessionRow} (own : row.tenantId = tenant)
    (isSession : row.sessionId = sessionId) :
    Seen (Store.own tenant) (Clear tenant threadId sessionId agentRunId)
      (sessionsAdd row) := by
  subst isSession
  exact insertRow_seen SessionRow.tenantId (fun _ => rfl) (fun _ _ => rfl) own
    fun _ clear other member foreign => ⟨clear.sessions other member foreign, rfl⟩

theorem agentRunsAdd_seen {row : AgentRunRow} (own : row.tenantId = tenant)
    (isRun : some row.agentRunId = agentRunId) :
    Seen (Store.own tenant) (Clear tenant threadId sessionId agentRunId)
      (agentRunsAdd row) := by
  subst isRun
  exact insertRow_seen AgentRunRow.tenantId (fun _ => rfl) (fun _ _ => rfl) own
    fun _ clear other member foreign =>
      ⟨fun same => clear.agentRuns other member foreign (congrArg some same), rfl⟩

theorem turnsAdd_seen {row : TurnRow} (own : row.tenantId = tenant)
    (isThread : row.threadId = threadId) (isTurn : row.turnId = turnId) :
    Seen (Store.own tenant)
      (fun store => Clear tenant threadId sessionId agentRunId store ∧
        TurnClear tenant turnId store) (turnsAdd row) := by
  subst isThread
  subst isTurn
  refine insertRow_seen TurnRow.tenantId (fun _ => rfl) (fun _ _ => rfl) own
    fun _ clear other member foreign => ⟨clear.2 other member foreign, ?_⟩
  have apart := clear.1.turns other member foreign
  rw [sameTurn, decide_eq_false (Ne.symm apart), Bool.false_and]

theorem messagesAdd_seen {row : Message} (own : row.tenantId = tenant)
    (isThread : row.threadId = threadId) :
    Seen (Store.own tenant) (Clear tenant threadId sessionId agentRunId)
      (messagesAdd row) := by
  subst isThread
  exact insertRow_seen Message.tenantId (fun _ => rfl) (fun _ _ => rfl) own
    fun _ clear other member foreign =>
      ⟨fun same => clear.messages other member foreign (Prod.mk.inj same).1, rfl⟩

end Adds

theorem observationsAdd_seen {row : ObservationRow} (own : row.tenantId = tenant) :
    Seen (Store.own tenant) pre (observationsAdd row) := by
  refine Seen.attempt fun store _ => ?_
  have kept : (store.observations ++ [row]).filter (fun row => row.tenantId = tenant) =
      store.observations.filter (fun row => row.tenantId = tenant) ++ [row] := by
    rw [List.filter_append, List.filter_cons_of_pos (by simpa using own), List.filter_nil]
  rw [map_some, Store.own, Store.own, Store.part, Store.part, kept]

theorem threadsTouch_seen (threadId : String) (title : Option String)
    (customMetadata : Option (List (String × Json))) :
    Seen (Store.own tenant) pre (threadsTouch tenant threadId title customMetadata) := by
  refine Seen.attempt fun store _ => ?_
  have rows : touched tenant threadId title customMetadata (store.own tenant).threads =
      (touched tenant threadId title customMetadata store.threads).restrict
        fun row => row.tenantId = tenant :=
    Keyed.update_restrict _ _ fun _ => rfl
  have revision : revisionOf tenant threadId
      (touched tenant threadId title customMetadata (store.own tenant).threads) =
        revisionOf tenant threadId
          (touched tenant threadId title customMetadata store.threads) := by
    rw [rows, revisionOf, Keyed.find_restrict_filter fun _ kept => kept, ← revisionOf]
  rw [map_some, revision, rows]
  rfl

theorem threadsSoftDelete_seen (threadId : String) :
    Seen (Store.own tenant) pre (threadsSoftDelete tenant threadId) := by
  refine Seen.attempt fun store _ => ?_
  have rows : softDeleted tenant threadId (store.own tenant).threads =
      (softDeleted tenant threadId store.threads).restrict fun row => row.tenantId = tenant :=
    Keyed.update_restrict _ _ fun _ => rfl
  rw [map_some, rows]
  rfl

section Units

variable {threadId sessionId : String} {agentRunId : Option String}

section

variable (moves : Moves (Onward tenant threadId count) unit)
include moves

theorem threadClear_kept :
    Triple (ThreadClear tenant threadId) unit (fun _ => ThreadClear tenant threadId)
      fun _ => True :=
  moves.triple fun _ _ moved => ThreadClear.onward moved.others

theorem clear_kept :
    Triple (Clear tenant threadId sessionId agentRunId) unit
      (fun _ => Clear tenant threadId sessionId agentRunId) fun _ => True :=
  moves.triple fun _ _ moved => Clear.onward moved.others

end

theorem createThread_seen (title : Option String)
    (customMetadata : Option (List (String × Json))) :
    Seen (Store.own ctx.tenant) (ThreadClear ctx.tenant threadId)
      (createThread checks ctx threadId title customMetadata) := by
  refine Seen.bind (Seen.read fun store => threadsGet_own _ store _) (Triple.read _)
    fun existing => Seen.mono ?_ fun _ held => held.1
  cases existing with
  | some existing =>
    exact Seen.bind (require_seen _ _) (threadClear_kept (require_moves _ _)) fun _ => Seen.pure _
  | none =>
    refine Seen.bind (require_seen _ _) (threadClear_kept (require_moves _ _)) fun _ => ?_
    exact Seen.bind (threadsAdd_seen rfl rfl) (threadClear_kept (threadsAdd_moves rfl))
      fun _ => Seen.pure _

theorem patchThread_seen (title : Option String)
    (customMetadata : Option (List (String × Json))) :
    Seen (Store.own ctx.tenant) (ThreadClear ctx.tenant threadId)
      (patchThread checks ctx threadId title customMetadata) := by
  refine Seen.bind (Seen.read fun store => threadsGet_own _ store _) (Triple.read _)
    fun existing => Seen.mono ?_ fun _ held => held.1
  cases existing with
  | none => exact createThread_seen title customMetadata
  | some existing =>
    refine Seen.bind (require_seen _ _) (threadClear_kept (require_moves _ _)) fun _ => ?_
    split
    case isTrue => exact Seen.pure _
    case isFalse =>
      refine Seen.bind (threadsTouch_seen _ _ _) (threadClear_kept (threadsTouch_moves _ _ _))
        fun _ => ?_
      refine Seen.bind (Seen.read fun store => threadsGet_own _ store _) (Triple.read _)
        fun updated => ?_
      cases updated with
      | none => exact Seen.throw _
      | some updated => exact Seen.pure _

theorem foundThread_seen {pre : Store → Prop} (allowed : Bool) (relation threadId : String) :
    Seen (Store.own ctx.tenant) pre (foundThread ctx allowed relation threadId) := by
  refine Seen.bind (Seen.read fun store => threadsGet_own _ store _) (Triple.read _)
    fun thread => ?_
  cases thread with
  | none => exact Seen.throw _
  | some thread =>
    exact Seen.bind (require_seen _ _) (Triple.trivial _) fun _ => Seen.pure _

theorem ensureThread_seen :
    Seen (Store.own ctx.tenant) (ThreadClear ctx.tenant threadId)
      (ensureThread checks ctx threadId) := by
  refine Seen.bind (Seen.read fun store => threadsGet_own _ store _) (Triple.read _)
    fun thread => Seen.mono ?_ fun _ held => held.1
  cases thread with
  | none =>
    exact Seen.bind (createThread_seen _ _) (threadClear_kept (createThread_moves _ _ _))
      fun _ => Seen.pure _
  | some thread => exact require_seen _ _

theorem ensureSession_seen :
    Seen (Store.own ctx.tenant) (Clear ctx.tenant threadId sessionId agentRunId)
      (ensureSession ctx threadId sessionId) := by
  refine Seen.bind (Seen.read fun store => sessionsGet_own _ store _) (Triple.read _)
    fun session => Seen.mono ?_ fun _ held => held.1
  cases session with
  | none => exact sessionsAdd_seen rfl rfl
  | some session => exact require_seen _ _

theorem ensureTurn_seen (turnId : String) :
    Seen (Store.own ctx.tenant)
      (fun store => Clear ctx.tenant threadId sessionId agentRunId store ∧
        TurnClear ctx.tenant turnId store)
      (ensureTurn ctx threadId sessionId turnId) := by
  refine Seen.bind (Seen.read fun store => turnsGet_own _ store _) (Triple.read _)
    fun turn => Seen.mono ?_ fun _ held => held.1
  cases turn with
  | none =>
    refine Seen.bind (Seen.read fun store => turnsNextSequence_own _ store _)
      (Triple.read _) fun sequence => Seen.mono ?_ fun _ held => held.1
    exact turnsAdd_seen rfl rfl rfl
  | some turn => exact require_seen _ _

theorem ensureAgentRun_seen (turnId : String) :
    Seen (Store.own ctx.tenant)
      (Clear ctx.tenant threadId sessionId (ctx.agentRunId.map (·.text)))
      (ensureAgentRun ctx threadId sessionId turnId) := by
  rw [ensureAgentRun]
  split
  case h_1 agentRunId agentId isRun _ =>
    refine Seen.bind (Seen.read fun store => agentRunsGet_own _ store _) (Triple.read _)
      fun run => Seen.mono ?_ fun _ held => held.1
    cases run with
    | some run => exact Seen.pure _
    | none => exact agentRunsAdd_seen rfl (by rw [isRun]; rfl)
  case h_2 => exact Seen.pure _

theorem turnClear_kept (moves : Moves (Onward tenant threadId count) unit) :
    Triple
      (fun store => Clear tenant threadId sessionId agentRunId store ∧
        TurnClear tenant turnId store) unit
      (fun _ store => Clear tenant threadId sessionId agentRunId store ∧
        TurnClear tenant turnId store) fun _ => True :=
  moves.triple fun _ _ moved held =>
    ⟨Clear.onward moved.others held.1, TurnClear.onward moved.others held.2⟩

theorem turnsClear_kept (count : Nat) {later : Nat}
    (moves : Moves (Onward ctx.tenant threadId later) unit) :
    Triple
      (fun store => Clear ctx.tenant threadId sessionId agentRunId store ∧
        TurnsClear digests ctx threadId (count + later) store) unit
      (fun _ store => Clear ctx.tenant threadId sessionId agentRunId store ∧
        TurnsClear digests ctx threadId count store) fun _ => True :=
  moves.triple fun _ _ moved held =>
    ⟨Clear.onward moved.others held.1, TurnsClear.onward moved held.2⟩

theorem storeMessage_seen (message : MessageIn) :
    Seen (Store.own ctx.tenant) (Appendable digests ctx threadId (count + 1))
      (storeMessage digests ctx threadId message) := by
  refine Seen.bind (Seen.read fun store => lineage_own store ctx _ _ _) (Triple.read _)
    fun ids => ?_
  have given : ∀ store,
      Appendable digests ctx threadId (count + 1) store ∧
        ids = lineage digests ctx threadId message.role store →
      ids.1 = sessionOf digests ctx threadId ∧
        Clear ctx.tenant threadId (sessionOf digests ctx threadId)
          (ctx.agentRunId.map (·.text)) store ∧ TurnClear ctx.tenant ids.2 store := by
    rintro store ⟨⟨clear, turns⟩, rfl⟩
    exact ⟨lineage_session message.role store, clear, lineage_turnClear message.role turns⟩
  refine Seen.mono (Seen.assuming fun isSession => ?_) given
  rw [isSession]
  refine Seen.bind (ensureSession_seen.mono fun _ held => held.1)
    (turnClear_kept (ensureSession_moves _ _)) fun _ => ?_
  refine Seen.bind (ensureTurn_seen _) (turnClear_kept (ensureTurn_moves _ _)) fun _ => ?_
  refine Seen.mono ?_ fun _ held => held.1
  refine Seen.bind (ensureAgentRun_seen _) (clear_kept (ensureAgentRun_moves _ _ _)) fun _ => ?_
  refine Seen.bind (Seen.read fun store => messagesNextSequence_own _ store _) (Triple.read _)
    fun sequence => Seen.mono ?_ fun _ held => held.1
  refine Seen.bind (messagesAdd_seen rfl rfl) (clear_kept (messagesAdd_moves rfl rfl)) fun _ => ?_
  refine Seen.bind (observationsAdd_seen rfl) (Triple.trivial _) fun _ => ?_
  exact Seen.bind (threadsTouch_seen _ _ _) (Triple.trivial _) fun _ => Seen.pure _

theorem appendMessage_seen (message : MessageIn) :
    Seen (Store.own ctx.tenant) (Appendable digests ctx threadId (count + 1))
      (appendMessage digests checks ctx threadId message) := by
  rw [appendMessage]
  split
  case h_1 => exact Seen.throw _
  case h_2 =>
    refine Seen.bind (ensureThread_seen.mono fun _ held => held.1.threads)
      (turnsClear_kept (count + 1) (ensureThread_moves _)) fun _ => ?_
    refine Seen.bind (Seen.read fun store => duplicateOf_own store ctx _) (Triple.read _)
      fun duplicate => Seen.mono ?_ fun _ held => held.1
    cases duplicate with
    | some duplicate => exact Seen.pure _
    | none => exact storeMessage_seen message

theorem appendMessages_seen : ∀ messages : List MessageIn,
    Seen (Store.own ctx.tenant) (Appendable digests ctx threadId messages.length)
      (appendMessages digests checks ctx threadId messages)
  | [] => Seen.pure _
  | message :: later => by
    refine Seen.bind (appendMessage_seen message)
      (turnsClear_kept later.length (appendMessage_moves _)) fun _ => ?_
    exact Seen.bind (appendMessages_seen later) (Triple.trivial _) fun _ => Seen.pure _

end Units

theorem handle_seen (request : Request) :
    Seen (Store.own request.tenant) (fun store => Unclaimed digests store request)
      (handle digests request) := by
  cases request with
  | patchThread checks ctx threadId title customMetadata =>
    exact Seen.bind (patchThread_seen _ _) (Triple.trivial _) fun _ => Seen.pure _
  | getThread checks ctx threadId =>
    exact Seen.bind (foundThread_seen _ _ _) (Triple.trivial _) fun _ => Seen.pure _
  | deleteThread checks ctx threadId =>
    refine Seen.bind ?_ (Triple.trivial _) fun _ => Seen.pure _
    exact Seen.bind (foundThread_seen _ _ _) (Triple.trivial _) fun _ => threadsSoftDelete_seen _
  | listMessages checks ctx threadId limit beforeSequence includeInternal =>
    refine Seen.bind ?_ (Triple.trivial _) fun _ => Seen.pure _
    exact Seen.bind (foundThread_seen _ _ _) (Triple.trivial _)
      fun _ => Seen.read fun store => listThread_own _ store _ _ _ _
  | createMessages checks ctx messages =>
    refine Seen.bind ?_ (Triple.trivial _) fun _ => Seen.pure _
    rw [createMessages]
    split
    case h_1 => exact Seen.throw _
    case h_2 threadId isThread =>
      exact (appendMessages_seen messages).mono fun _ unclaimed => unclaimed threadId isThread

end Seen

end MemoryService.Conversation.Threads
