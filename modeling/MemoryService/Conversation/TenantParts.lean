import MemoryService.Conversation.Threads

/-!
# The part of a store that is one tenant's

The lookups and the lists of a tenant read nothing of the others, and its statements write
nothing of theirs.
-/

namespace MemoryService.Conversation.Threads

open Domain Foundation List

def Store.part (chosen : String → Bool) (store : Store) : Store where
  threads := store.threads.restrict fun row => chosen row.tenantId
  sessions := store.sessions.restrict fun row => chosen row.tenantId
  turns := store.turns.restrict fun row => chosen row.tenantId
  agentRuns := store.agentRuns.restrict fun row => chosen row.tenantId
  messages := store.messages.restrict fun row => chosen row.tenantId
  observations := store.observations.filter fun row => chosen row.tenantId

def Store.own (tenant : String) (store : Store) : Store := store.part (· = tenant)

def Store.others (tenant : String) (store : Store) : Store := store.part (· ≠ tenant)

variable {Row Key : Type} {part keep : Row → Bool} {key : Row → Key} {clash : Row → Row → Bool}
  {new : Row} {table : Store → Keyed key} {put : Store → Keyed key → Store}

theorem filter_filter_of (rows : List Row) (isPart : ∀ row, keep row = true → part row = true) :
    (rows.filter part).filter keep = rows.filter keep := by
  rw [filter_filter]
  refine filter_congr fun row _ => ?_
  cases kept : keep row with
  | true => rw [isPart row kept]; rfl
  | false => rw [Bool.false_and]

theorem find?_filter_of (rows : List Row) (isPart : ∀ row, keep row = true → part row = true) :
    (rows.filter part).find? keep = rows.find? keep := by
  rw [find?_filter]
  congr 1
  funext row
  cases kept : keep row with
  | true => rw [isPart row kept]; rfl
  | false => simp

theorem part_part {chosen other : String → Bool} (store : Store)
    (implies : ∀ tenant, chosen tenant = true → other tenant = true) :
    (store.part other).part chosen = store.part chosen := by
  have rows {Row : Type} (tenant : Row → String) (list : List Row) :
      (list.filter fun row => other (tenant row)).filter (fun row => chosen (tenant row)) =
        list.filter fun row => chosen (tenant row) :=
    filter_filter_of list fun row => implies (tenant row)
  rw [Store.part, Store.part, Store.mk.injEq]
  exact ⟨Keyed.ext_rows (rows _ _), Keyed.ext_rows (rows _ _), Keyed.ext_rows (rows _ _),
    Keyed.ext_rows (rows _ _), Keyed.ext_rows (rows _ _), rows _ _⟩

section Reads

variable (tenant : String) (store : Store) (threadId : String)

theorem threadsGet_own :
    threadsGet tenant threadId (store.own tenant) = threadsGet tenant threadId store := by
  refine Keyed.find_restrict_filter (fun row kept => ?_) store.threads threadId
  exact (Bool.and_eq_true_iff.mp kept).1

theorem sessionsGet_own (sessionId : String) :
    sessionsGet tenant sessionId (store.own tenant) = sessionsGet tenant sessionId store :=
  Keyed.find_restrict_filter (fun _ kept => kept) store.sessions sessionId

theorem turnsGet_own (turnId : String) :
    turnsGet tenant turnId (store.own tenant) = turnsGet tenant turnId store :=
  Keyed.find_restrict_filter (fun _ kept => kept) store.turns turnId

theorem agentRunsGet_own (agentRunId : String) :
    agentRunsGet tenant agentRunId (store.own tenant) = agentRunsGet tenant agentRunId store :=
  Keyed.find_restrict_filter (fun _ kept => kept) store.agentRuns agentRunId

theorem threadTurns_own :
    threadTurns tenant threadId (store.own tenant) = threadTurns tenant threadId store :=
  filter_filter_of store.turns.rows fun _ kept => (Bool.and_eq_true_iff.mp kept).1

theorem turnsNextSequence_own :
    turnsNextSequence tenant threadId (store.own tenant) =
      turnsNextSequence tenant threadId store := by
  rw [turnsNextSequence, threadTurns_own, ← turnsNextSequence]

theorem turnsLatest_own :
    turnsLatest tenant threadId (store.own tenant) = turnsLatest tenant threadId store := by
  rw [turnsLatest, threadTurns_own, turnsNextSequence_own, ← turnsLatest]

theorem threadMessages_own :
    threadMessages tenant threadId (store.own tenant) = threadMessages tenant threadId store :=
  filter_filter_of store.messages.rows fun _ kept => (Bool.and_eq_true_iff.mp kept).1

theorem messagesNextSequence_own :
    messagesNextSequence tenant threadId (store.own tenant) =
      messagesNextSequence tenant threadId store := by
  rw [messagesNextSequence, threadMessages_own, ← messagesNextSequence]

theorem listThread_own (limit : Nat) (beforeSequence : Option Nat)
    (includeInternal : Bool) :
    listThread tenant threadId limit beforeSequence includeInternal (store.own tenant) =
      listThread tenant threadId limit beforeSequence includeInternal store := by
  rw [listThread, threadMessages_own, ← listThread]

theorem findBySource_own (sourceSystem sourceMessageId : String) :
    findBySource tenant sourceSystem sourceMessageId (store.own tenant) =
      findBySource tenant sourceSystem sourceMessageId store :=
  find?_filter_of store.messages.rows fun _ kept => (Bool.and_eq_true_iff.mp kept).1

variable (ctx : Caller)

theorem duplicateOf_own (message : MessageIn) :
    duplicateOf ctx message (store.own ctx.tenant) = duplicateOf ctx message store := by
  rw [duplicateOf, duplicateOf]
  split
  case h_1 => rw [findBySource_own]
  case h_2 => rfl

theorem lineage_own (digests : Digests) (threadId : String) (role : MessageRole) :
    lineage digests ctx threadId role (store.own ctx.tenant) =
      lineage digests ctx threadId role store := by
  rw [lineage, lineage, turnsLatest_own, turnsNextSequence_own]

end Reads

/-- Nothing of the others is written, no message but in the thread, and at most so many turns. -/
structure Onward (tenant threadId : String) (count : Nat) (store next : Store) : Prop where
  others : next.others tenant = store.others tenant
  messages : store.messages.rows ⊆ next.messages.rows
  written : ∀ row ∈ next.messages.rows, row ∈ store.messages.rows ∨ row.threadId = threadId
  threads : ∀ row ∈ store.threads.rows, row.deleted = false →
    ∃ other ∈ next.threads.rows, other.threadId = row.threadId ∧
      other.tenantId = row.tenantId ∧ other.deleted = false
  turnsFrom : turnsNextSequence tenant threadId store ≤ turnsNextSequence tenant threadId next
  turnsTo : turnsNextSequence tenant threadId next ≤ turnsNextSequence tenant threadId store + count

theorem Onward.refl (tenant threadId : String) (store : Store) :
    Onward tenant threadId 0 store store where
  others := rfl
  messages := List.Subset.refl _
  written := fun _ member => .inl member
  threads := fun row member live => ⟨row, member, rfl, rfl, live⟩
  turnsFrom := Nat.le_refl _
  turnsTo := Nat.le_refl _

theorem Onward.trans {tenant threadId : String} {count later : Nat} {store middle next : Store}
    (first : Onward tenant threadId count store middle)
    (second : Onward tenant threadId later middle next) :
    Onward tenant threadId (count + later) store next where
  others := second.others.trans first.others
  messages := List.Subset.trans first.messages second.messages
  written := fun row member => (second.written row member).elim (first.written row) Or.inr
  threads := fun row member live => by
    obtain ⟨other, isOther, sameId, sameTenant, stillLive⟩ := first.threads row member live
    obtain ⟨last, isLast, lastId, lastTenant, lastLive⟩ := second.threads other isOther stillLive
    exact ⟨last, isLast, lastId.trans sameId, lastTenant.trans sameTenant, lastLive⟩
  turnsFrom := first.turnsFrom.trans second.turnsFrom
  turnsTo := by
    have := first.turnsTo
    have := second.turnsTo
    omega

section Moves

variable {tenant threadId : String}

theorem insertRow_moves [DecidableEq Key] {relation : Store → Store → Prop}
    (done : ∀ store rows, (table store).insert clash new = some rows →
      relation store (put store rows)) :
    Moves relation (insertRow clash new table put) := by
  refine Moves.attempt fun store answer next isDone => ?_
  obtain ⟨rows, inserted, isNext⟩ := Option.map_eq_some_iff.mp isDone
  cases isNext
  exact done store rows inserted

theorem insertRow_run [DecidableEq Key] {store next : Store} {answer : Unit}
    (isRun : (insertRow clash new table put).run store = .ok (answer, next)) :
    ∃ rows, (table store).insert clash new = some rows ∧ next = put store rows := by
  have moves : Moves (fun store next => ∃ rows, (table store).insert clash new = some rows ∧
      next = put store rows) (insertRow clash new table put) :=
    insertRow_moves fun store rows inserted => ⟨rows, inserted, rfl⟩
  exact moves store answer next isRun

theorem not_other {rowTenant : String} (own : rowTenant = tenant) :
    decide (rowTenant ≠ tenant) = false := decide_eq_false (not_not_intro own)

/-- A row of the tenant's is not the others'. -/
theorem others_insert [DecidableEq Key] {rows old : Keyed key} (column : Row → String)
    (own : column new = tenant) (inserted : old.insert clash new = some rows) :
    rows.restrict (fun row => decide (column row ≠ tenant)) =
      old.restrict (fun row => decide (column row ≠ tenant)) :=
  Keyed.insert_hidden (not_other own) inserted

theorem threadsAdd_moves {row : ThreadRow} (own : row.tenantId = tenant) :
    Moves (Onward tenant threadId 0) (threadsAdd row) :=
  insertRow_moves fun store threads inserted =>
    { Onward.refl tenant threadId store with
      others := by
        rw [Store.others, Store.others, Store.part, Store.part,
          others_insert ThreadRow.tenantId own inserted]
      threads := fun other member live => by
        refine ⟨other, ?_, rfl, rfl, live⟩
        change other ∈ threads.rows
        rw [Keyed.insert_eq_some inserted]
        exact mem_append_left _ member }

theorem sessionsAdd_moves {row : SessionRow} (own : row.tenantId = tenant) :
    Moves (Onward tenant threadId 0) (sessionsAdd row) :=
  insertRow_moves fun store sessions inserted =>
    { Onward.refl tenant threadId store with
      others := by
        rw [Store.others, Store.others, Store.part, Store.part,
          others_insert SessionRow.tenantId own inserted] }

theorem agentRunsAdd_moves {row : AgentRunRow} (own : row.tenantId = tenant) :
    Moves (Onward tenant threadId 0) (agentRunsAdd row) :=
  insertRow_moves fun store agentRuns inserted =>
    { Onward.refl tenant threadId store with
      others := by
        rw [Store.others, Store.others, Store.part, Store.part,
          others_insert AgentRunRow.tenantId own inserted] }

theorem messagesAdd_moves {row : Message} (own : row.tenantId = tenant)
    (isThread : row.threadId = threadId) :
    Moves (Onward tenant threadId 0) (messagesAdd row) :=
  insertRow_moves fun store messages inserted =>
    { Onward.refl tenant threadId store with
      others := by
        rw [Store.others, Store.others, Store.part, Store.part,
          others_insert Message.tenantId own inserted]
      messages := by
        change store.messages.rows ⊆ messages.rows
        rw [Keyed.insert_eq_some inserted]
        exact subset_append_left _ _
      written := fun other member => by
        change other ∈ messages.rows at member
        rw [Keyed.insert_eq_some inserted] at member
        rcases mem_append.mp member with isOld | isNew
        · exact .inl isOld
        · exact .inr (mem_singleton.mp isNew ▸ isThread) }

theorem observationsAdd_moves {row : ObservationRow} (own : row.tenantId = tenant) :
    Moves (Onward tenant threadId 0) (observationsAdd row) :=
  Moves.attempt fun store _ next isDone => by
    cases isDone
    exact { Onward.refl tenant threadId store with
      others := by
        have hidden : (store.observations ++ [row]).filter (fun row => row.tenantId ≠ tenant) =
            store.observations.filter (fun row => row.tenantId ≠ tenant) := by
          rw [filter_append, filter_cons_of_neg (by simp [own]), filter_nil, append_nil]
        rw [Store.others, Store.others, Store.part, Store.part, hidden] }

theorem threadsTouch_moves (id : String) (title : Option String)
    (customMetadata : Option (List (String × Json))) :
    Moves (Onward tenant threadId 0) (threadsTouch tenant id title customMetadata) :=
  Moves.attempt fun store _ next isDone => by
    cases isDone
    exact
      { Onward.refl tenant threadId store with
        others := by
          rw [Store.others, Store.others, Store.part, Store.part, touched, Keyed.update_hidden]
          intro row selected
          have own := of_decide_eq_true (Bool.and_eq_true_iff.mp selected).2
          exact ⟨not_other own, not_other own⟩
        threads := fun row member live => by
          by_cases selected : (row.threadId = id && row.tenantId = tenant) = true
          · exact ⟨_, updated_mem member selected, rfl, rfl, live⟩
          · exact ⟨row, kept_mem member (by simpa using selected), rfl, rfl, live⟩ }

theorem threadsSoftDelete_moves (id : String) :
    Moves (fun store next => next.others tenant = store.others tenant)
      (threadsSoftDelete tenant id) :=
  Moves.attempt fun store _ next isDone => by
    cases isDone
    rw [Store.others, Store.others, Store.part, Store.part, softDeleted, Keyed.update_hidden]
    intro row selected
    have own := of_decide_eq_true (Bool.and_eq_true_iff.mp (Bool.and_eq_true_iff.mp selected).1).2
    exact ⟨not_other own, not_other own⟩

end Moves

end MemoryService.Conversation.Threads
