import MemoryService.Foundation.Transition
import MemoryService.Graph.Commits

/-!
# Enrichment jobs that run together

A job reads its memories once, when it starts.
-/

namespace MemoryService.Graph

open Domain Foundation Memory List Option Statements

/-- How far a job is with the first memory that it has not done. -/
inductive Phase where
  | loaded
  | answered (reading : Reading)
  /-- the entities are written -/
  | entered (reading : Reading)

structure Running where
  job : Job
  now : Instant
  /-- the ids that named no memory, still to close -/
  gone : List String
  memories : List CanonicalMemory
  phase : Phase := .loaded
  attempts : Nat := 0

/-- A job reads its memories once, when a run of it begins. -/
def Running.start (rows : List CanonicalMemory) (job : Job) (now : Instant)
    (attempts : Nat := 0) : Running :=
  let memories := getMany now job.tenantId job.memoryIds rows
  { job, now, gone := missing job.memoryIds memories, memories, attempts }

def Running.lastAttempt (w : Running) : Bool := retries ≤ w.attempts

def Running.done (w : Running) : Bool := w.gone.isEmpty && w.memories.isEmpty

section

variable (rules : Rules) (read : CanonicalMemory → Reading)

/-- One step of a job; `none` when it is done. -/
def Running.turn (w : Running) (tables : Tables) : Option (Running × Tables) :=
  match w.gone, w.memories with
  | memoryId :: gone, _ => some ({ w with gone }, tables.close w.job.tenantId memoryId w.now)
  | [], [] => none
  | [], m :: memories =>
    if closes m then
      some ({ w with memories }, tables.close w.job.tenantId m.memoryId w.now)
    else
      match w.phase with
      | .loaded => some ({ w with phase := .answered (read m) }, tables)
      | .answered reading =>
        let written := tables.write (enrichMemory rules m reading) reading.visibilityKeys
        some ({ w with phase := .entered reading }, { tables with entities := written.entities })
      | .entered reading =>
        let written := tables.write (enrichMemory rules m reading) reading.visibilityKeys
        some ({ w with memories, phase := .loaded }, { tables with relations := written.relations })

end

/-- The memory whose relations a job is about to write, and what was read out of it. -/
def Running.writes (w : Running) : Option (CanonicalMemory × Reading) :=
  match w.gone, w.memories, w.phase with
  | [], m :: _, .entered reading => if closes m then none else some (m, reading)
  | _, _, _ => none

/-- A job is still to close the relations of a memory, which it found gone or no longer
current. -/
def Running.willClose (tenantId memoryId : String) (w : Running) : Bool :=
  w.job.names tenantId memoryId &&
    (w.gone.contains memoryId || w.memories.any fun m => m.memoryId = memoryId && closes m)

section

variable (rules : Rules) (read : CanonicalMemory → Reading)

/-- A job's step when it runs alone. -/
def soloTurn (turned : Running × Tables) (_ : Unit) : Option (Running × Tables) :=
  turned.1.turn rules read turned.2

variable (job : Job) (now : Instant)

theorem solo_gone (memories : List CanonicalMemory) :
    ∀ (gone : List String) (tables : Tables), ∃ turns,
      run (soloTurn rules read) (⟨job, now, gone, memories, .loaded, 0⟩, tables) turns =
        some (⟨job, now, [], memories, .loaded, 0⟩,
          gone.foldl (fun tables id => tables.close job.tenantId id now) tables) := by
  intro gone
  induction gone with
  | nil => exact fun tables => ⟨[], rfl⟩
  | cons id gone ih =>
    intro tables
    obtain ⟨turns, reached⟩ := ih (tables.close job.tenantId id now)
    exact ⟨() :: turns, by rw [run_cons]; exact reached⟩

theorem solo_memories (memories : List CanonicalMemory) :
    (∀ m ∈ memories, m.tenantId = job.tenantId) → ∀ tables : Tables, ∃ turns,
      run (soloTurn rules read) (⟨job, now, [], memories, .loaded, 0⟩, tables) turns =
        some (⟨job, now, [], [], .loaded, 0⟩,
          memories.foldl (Tables.enrich rules now read) tables) := by
  induction memories with
  | nil => exact fun _ tables => ⟨[], rfl⟩
  | cons m memories ih =>
    intro sameTenant tables
    rw [List.forall_mem_cons] at sameTenant
    obtain ⟨turns, reached⟩ := ih sameTenant.2 (tables.enrich rules now read m)
    rw [List.foldl_cons]
    by_cases isClosed : closes m = true
    · refine ⟨() :: turns, ?_⟩
      have oneTurn : tables.enrich rules now read m =
          tables.close job.tenantId m.memoryId now := by
        rw [Tables.enrich, if_pos isClosed, sameTenant.1]
      rw [oneTurn] at reached ⊢
      simp only [run_cons, soloTurn, Running.turn, if_pos isClosed, Option.bind_some]
      exact reached
    · -- the model answers, then the entities and the relations are written
      refine ⟨() :: () :: () :: turns, ?_⟩
      have threeTurns : tables.enrich rules now read m =
          tables.write (enrichMemory rules m (read m)) (read m).visibilityKeys := by
        rw [Tables.enrich, if_neg isClosed]
      rw [threeTurns] at reached ⊢
      simp only [run_cons, soloTurn, Running.turn, if_neg isClosed, Option.bind_some]
      exact reached

/-- The steps of a job that runs alone come to what `enrich_memories` makes of the tables. -/
theorem solo_turns (rows : List CanonicalMemory) (tables : Tables) :
    ∃ turns w, w.done = true ∧
      run (soloTurn rules read) (Running.start rows job now, tables) turns =
        some (w, enrichMemories rules read now job.tenantId job.memoryIds rows tables) := by
  obtain ⟨first, afterGone⟩ := solo_gone rules read job now
    (getMany now job.tenantId job.memoryIds rows)
    (missing job.memoryIds (getMany now job.tenantId job.memoryIds rows)) tables
  obtain ⟨second, afterMemories⟩ := solo_memories rules read job now
    (getMany now job.tenantId job.memoryIds rows)
    (fun m isLoaded => (mem_getMany isLoaded).2.1)
    ((missing job.memoryIds (getMany now job.tenantId job.memoryIds rows)).foldl
      (fun tables id => tables.close job.tenantId id now) tables)
  refine ⟨first ++ second, ⟨job, now, [], [], .loaded, 0⟩, rfl, ?_⟩
  rw [run_append, Running.start, afterGone]
  exact afterMemories

end

/-- The memories, the graph, and the jobs that are queued or running. -/
structure Pool where
  memories : List CanonicalMemory := []
  tables : Tables := {}
  queued : List Waiting := []
  running : List Running := []

inductive Move where
  | commit (change : Change) (job : Job)
  | start (waiting : Waiting) (now : Instant)
  /-- the job never runs: its outbox row is dead, or the index job before it gave up -/
  | drop (waiting : Waiting)
  | turn (worker : Nat) (read : CanonicalMemory → Reading)
  | finish (worker : Nat)
  /-- the job fails, and is queued again unless this was its last attempt -/
  | fail (worker : Nat)
  /-- the worker stops, and its job is queued again -/
  | release (worker : Nat)

namespace Pool

variable (normalizedHash : String → Digest) (rules : Rules) (pool : Pool)

def dropped (waiting : Waiting) : Pool := { pool with queued := pool.queued.erase waiting }

/-- The pool when a job has left its worker, to be run again or not. -/
def leave (worker : Nat) (again : List Waiting) : Pool :=
  { pool with
    queued := pool.queued ++ again
    running := pool.running.eraseIdx worker }

def step : Move → Option Pool
  | .commit change job =>
    if change.covered normalizedHash pool.memories job then
      (change.apply normalizedHash pool.memories).map fun memories =>
        { pool with memories, queued := pool.queued ++ [{ job }] }
    else none
  | .start waiting now =>
    if waiting ∈ pool.queued then
      some { pool with
        queued := pool.queued.erase waiting
        running := pool.running ++ [Running.start pool.memories waiting.job now waiting.attempts] }
    else none
  | .drop waiting => if waiting ∈ pool.queued then some (pool.dropped waiting) else none
  | .turn worker read =>
    pool.running[worker]?.bind fun w =>
      (w.turn rules read pool.tables).map fun (w', tables) =>
        { pool with tables, running := pool.running.set worker w' }
  | .finish worker =>
    pool.running[worker]?.bind fun w =>
      if w.done then some (pool.leave worker []) else none
  | .fail worker =>
    pool.running[worker]?.map fun w =>
      pool.leave worker (if w.lastAttempt then [] else [⟨w.job, w.attempts + 1⟩])
  | .release worker =>
    pool.running[worker]?.map fun w => pool.leave worker [⟨w.job, w.attempts + 1⟩]

/-- The memory is CURRENT and not deleted. -/
def live (tenantId memoryId : String) (pool : Pool) : Bool :=
  (row memoryId pool.memories).any fun m =>
    m.tenantId = tenantId ∧ m.deletedAt = none ∧ m.temporal.status = .current

/-- A job that names the memory is queued, or is running and still to close its relations. -/
def pending (tenantId memoryId : String) (pool : Pool) : Bool :=
  pool.queued.any (fun waiting => waiting.job.names tenantId memoryId) ||
    pool.running.any (Running.willClose tenantId memoryId)

/-- With no job left, every CURRENT relation is of a memory that is CURRENT and not deleted. -/
def Converged : Prop :=
  pool.queued = [] → pool.running = [] →
    ∀ r ∈ pool.tables.relations, r.status = .current →
      ∀ memoryId ∈ r.memoryId, pool.live r.tenantId memoryId = true

/-- Of the CURRENT relations that a lost job had to close, each is of a live memory or some job
is still to close it. -/
def Spared (pool next : Pool) (owes : String → String → Bool) : Prop :=
  ∀ r ∈ pool.tables.relations, r.status = .current → ∀ memoryId ∈ r.memoryId,
    owes r.tenantId memoryId = true →
      pool.live r.tenantId memoryId = true ∨ next.pending r.tenantId memoryId = true
deriving Decidable

/-- A job that writes relations of a memory does so while the memory is live or another job
is still to close them, and a job that is lost or given up leaves none open. -/
def Timely : Move → Prop
  | .turn worker _ =>
    ∀ w ∈ pool.running[worker]?, ∀ written ∈ w.writes,
      (enrichMemory rules written.1 written.2).relations ≠ [] →
        pool.live written.1.tenantId written.1.memoryId = true ∨
          pool.pending written.1.tenantId written.1.memoryId = true
  | .fail worker =>
    ∀ w ∈ pool.running[worker]?, w.lastAttempt = true →
      Spared pool (pool.leave worker []) fun tenantId memoryId => w.willClose tenantId memoryId
  | .drop waiting =>
    Spared pool (pool.dropped waiting) fun tenantId memoryId => waiting.job.names tenantId memoryId
  | _ => True

instance (pool : Pool) (move) : Decidable (Timely rules pool move) := by
  unfold Timely
  split <;> infer_instance

end Pool

variable {now : Instant} {job : Job} {read : CanonicalMemory → Reading} {worker : Nat} {w : Running}

section

variable {rules : Rules} {read : CanonicalMemory → Reading} {w w' : Running}
  {tables tables' : Tables} {tenantId memoryId : String} {m : CanonicalMemory}

theorem willClose_iff :
    w.willClose tenantId memoryId = true ↔
      w.job.names tenantId memoryId = true ∧
        (memoryId ∈ w.gone ∨ ∃ m ∈ w.memories, m.memoryId = memoryId ∧ closes m = true) := by
  simp [Running.willClose]

inductive Turned (rules : Rules) (w : Running) (before after : List Relation) : Prop where
  | closed (memoryId : String)
      (closes_ : after = supersedeForMemory w.job.tenantId memoryId w.now before)
  | left (same : after = before)
  | wrote (m : CanonicalMemory) (reading : Reading) (isAt : w.writes = some (m, reading))
      (written : after = upsertRelations (enrichMemory rules m reading).relations before)

theorem turn_spec (turned : w.turn rules read tables = some (w', tables')) :
    Turned rules w tables.relations tables'.relations ∧
      ∀ tenantId memoryId, w.willClose tenantId memoryId = true →
        tables'.relations = supersedeForMemory tenantId memoryId w.now tables.relations ∨
          w'.willClose tenantId memoryId = true := by
  obtain ⟨job, now, gone, memories, phase, attempts⟩ := w
  cases gone with
  | cons id gone =>
    simp only [Running.turn, Option.some.injEq, Prod.mk.injEq] at turned
    obtain ⟨rfl, rfl⟩ := turned
    refine ⟨.closed id rfl, fun tenant memory will => ?_⟩
    obtain ⟨named, isGone | isLoaded⟩ := willClose_iff.mp will
    · rcases List.mem_cons.mp isGone with rfl | isLater
      · left
        simp only [Job.names, decide_eq_true_eq] at named
        rw [← named.1]
        rfl
      · exact .inr (willClose_iff.mpr ⟨named, .inl isLater⟩)
    · exact .inr (willClose_iff.mpr ⟨named, .inr isLoaded⟩)
  | nil =>
    cases memories with
    | nil => simp [Running.turn] at turned
    | cons m memories =>
      simp only [Running.turn] at turned
      split at turned
      case isTrue isClosed =>
        simp only [Option.some.injEq, Prod.mk.injEq] at turned
        obtain ⟨rfl, rfl⟩ := turned
        refine ⟨.closed m.memoryId rfl, fun tenant memory will => ?_⟩
        obtain ⟨named, isGone | ⟨x, isLoaded, facts⟩⟩ := willClose_iff.mp will
        · cases isGone
        · rcases List.mem_cons.mp isLoaded with rfl | isLater
          · left
            simp only [Job.names, decide_eq_true_eq] at named
            rw [← named.1, ← facts.1]
            rfl
          · exact .inr (willClose_iff.mpr ⟨named, .inr ⟨x, isLater, facts⟩⟩)
      case isFalse isOpen =>
        have stays : ∀ {phase' : Phase} (tenant memory : String),
            Running.willClose tenant memory
                ⟨job, now, [], m :: memories, phase, attempts⟩ = true →
              Running.willClose tenant memory
                ⟨job, now, [], m :: memories, phase', attempts⟩ = true :=
          fun tenant memory will => will
        split at turned
        case h_1 =>
          simp only [Option.some.injEq, Prod.mk.injEq] at turned
          obtain ⟨rfl, rfl⟩ := turned
          exact ⟨.left rfl, fun tenant memory will => .inr (stays tenant memory will)⟩
        case h_2 =>
          simp only [Option.some.injEq, Prod.mk.injEq] at turned
          obtain ⟨rfl, rfl⟩ := turned
          exact ⟨.left rfl, fun tenant memory will => .inr (stays tenant memory will)⟩
        case h_3 reading =>
          simp only [Option.some.injEq, Prod.mk.injEq] at turned
          obtain ⟨rfl, rfl⟩ := turned
          refine ⟨.wrote m reading (if_neg isOpen) rfl, fun tenant memory will => ?_⟩
          obtain ⟨named, isGone | ⟨x, isLoaded, facts⟩⟩ := willClose_iff.mp will
          · cases isGone
          · rcases List.mem_cons.mp isLoaded with rfl | isLater
            · exact absurd facts.2 isOpen
            · exact .inr (willClose_iff.mpr ⟨named, .inr ⟨x, isLater, facts⟩⟩)

theorem current_after_close {rows : List Relation} {r : Relation}
    (member : r ∈ supersedeForMemory tenantId memoryId now rows)
    (isCurrent : r.status = .current) :
    r ∈ rows ∧ ¬(r.tenantId = tenantId ∧ r.memoryId = some memoryId) := by
  rcases mem_updateWhere_cases member with ⟨old, -, -, isClosed⟩ | ⟨inRows, notOpen⟩
  · rw [isClosed] at isCurrent
    cases isCurrent
  · refine ⟨inRows, fun own => ?_⟩
    simp [Relation.openFor, own, isCurrent] at notOpen

theorem willClose_start (rows : List CanonicalMemory) (now : Instant) (attempts : Nat)
    (named : job.names tenantId memoryId = true) :
    (Running.start rows job now attempts).willClose tenantId memoryId = true ∨
      ∃ m, row memoryId rows = some m ∧ m.tenantId = tenantId ∧
        m.deletedAt = none ∧ m.temporal.status = .current := by
  obtain ⟨sameTenant, inIds⟩ := job.names_iff.mp named
  cases got : Statements.get now tenantId memoryId rows with
  | none =>
    left
    refine willClose_iff.mpr ⟨named, .inl (List.mem_filter.mpr ⟨inIds, ?_⟩)⟩
    simp only [decide_eq_true_eq, List.mem_map, not_exists, not_and]
    rintro m isLoaded rfl
    obtain ⟨-, -, found⟩ := mem_getMany isLoaded
    rw [sameTenant, got] at found
    cases found
  | some m =>
    have isLoaded : m ∈ getMany now job.tenantId job.memoryIds rows := by
      rw [sameTenant]
      exact List.mem_filterMap.mpr ⟨memoryId, inIds, got⟩
    rw [Statements.get, Option.filter_eq_some_iff] at got
    obtain ⟨isRow, checks⟩ := got
    simp only [decide_eq_true_eq] at checks
    by_cases isClosed : closes m = true
    · left
      exact willClose_iff.mpr ⟨named, .inr ⟨m, isLoaded, row_memoryId isRow, isClosed⟩⟩
    · right
      simp only [closes, decide_eq_true_eq, not_or, not_not] at isClosed
      exact ⟨m, isRow, checks.1, checks.2.1, isClosed.1⟩

end

namespace Pool

section

variable {normalizedHash : String → Digest} {rules : Rules} {pool next : Pool}
  {tenantId memoryId : String}

theorem live_iff :
    pool.live tenantId memoryId = true ↔
      ∃ m, row memoryId pool.memories = some m ∧ m.tenantId = tenantId ∧
        m.deletedAt = none ∧ m.temporal.status = .current := by
  rw [live]
  cases row memoryId pool.memories <;> simp

theorem pending_iff :
    pool.pending tenantId memoryId = true ↔
      (∃ waiting ∈ pool.queued, waiting.job.names tenantId memoryId = true) ∨
        ∃ w ∈ pool.running, w.willClose tenantId memoryId = true := by
  simp [pending]

/-- What every step keeps: a CURRENT relation has a live memory or a job that will close it. -/
def Converging (pool : Pool) : Prop :=
  ∀ r ∈ pool.tables.relations, r.status = .current →
    ∀ memoryId ∈ r.memoryId,
      pool.live r.tenantId memoryId = true ∨ pool.pending r.tenantId memoryId = true

section

variable (converging : pool.Converging)
include converging

theorem Converging.converged : pool.Converged := by
  intro noneQueued noneRunning r member isCurrent memoryId isSource
  rcases converging r member isCurrent memoryId isSource with isLive | isPending
  · exact isLive
  · rw [pending_iff, noneQueued, noneRunning] at isPending
    simp at isPending

private theorem commit_keeps {change : Change}
    (stepped : pool.step normalizedHash rules (.commit change job) = some next) :
    next.Converging := by
  simp only [step] at stepped
  obtain ⟨covered, stepped⟩ := ite_none_right_eq_some.mp stepped
  obtain ⟨rows', applied, rfl⟩ := map_eq_some_iff.mp stepped
  intro r member isCurrent memoryId isSource
  by_cases named : job.names r.tenantId memoryId = true
  · exact .inr (pending_iff.mpr (.inl ⟨{ job }, by simp, named⟩))
  · rcases converging r member isCurrent memoryId isSource with isLive | isPending
    · left
      obtain ⟨m, isRow, sameTenant, facts⟩ := live_iff.mp isLive
      rw [← sameTenant] at named
      have isRow' := (row_apply applied covered (Bool.eq_false_iff.mpr named)).mpr isRow
      exact live_iff.mpr ⟨m, isRow', sameTenant, facts⟩
    · right
      rcases pending_iff.mp isPending with ⟨other, isQueued, names⟩ | isRunning
      · exact pending_iff.mpr (.inl ⟨other, mem_append_left _ isQueued, names⟩)
      · exact pending_iff.mpr (.inr isRunning)

private theorem start_keeps {waiting : Waiting}
    (stepped : pool.step normalizedHash rules (.start waiting now) = some next) :
    next.Converging := by
  simp only [step] at stepped
  obtain ⟨-, stepped⟩ := ite_none_right_eq_some.mp stepped
  cases stepped
  intro r member isCurrent memoryId isSource
  rcases converging r member isCurrent memoryId isSource with isLive | isPending
  · exact .inl isLive
  · rcases pending_iff.mp isPending with ⟨other, isQueued, named⟩ | ⟨w, isRunning, will⟩
    · by_cases same : other = waiting
      · rw [same] at named
        rcases willClose_start pool.memories now waiting.attempts named with will | isLive
        · exact .inr (pending_iff.mpr (.inr ⟨_, by simp, will⟩))
        · exact .inl (live_iff.mpr isLive)
      · have stillQueued := (mem_erase_of_ne same).mpr isQueued
        exact .inr (pending_iff.mpr (.inl ⟨other, stillQueued, named⟩))
    · exact .inr (pending_iff.mpr (.inr ⟨w, mem_append_left _ isRunning, will⟩))

end

theorem turn_pending {w' : Running}
    {tables : Tables} (isWorker : pool.running[worker]? = some w)
    (turned : w.turn rules read pool.tables = some (w', tables))
    (isPending : pool.pending tenantId memoryId = true) :
    tables.relations = supersedeForMemory tenantId memoryId w.now pool.tables.relations ∨
      pending tenantId memoryId
        { pool with tables, running := pool.running.set worker w' } = true := by
  rcases pending_iff.mp isPending with isQueued | ⟨x, isRunning, will⟩
  · exact .inr (pending_iff.mpr (.inl isQueued))
  · rcases eq_or_mem_set isWorker isRunning with rfl | stays
    · refine ((turn_spec turned).2 tenantId memoryId will).imp_right fun will' => ?_
      exact pending_iff.mpr (.inr ⟨w', moved_mem_set isWorker, will'⟩)
    · exact .inr (pending_iff.mpr (.inr ⟨x, stays, will⟩))

private theorem turn_keeps
    (converging : pool.Converging) (timely : Timely rules pool (.turn worker read))
    (stepped : pool.step normalizedHash rules (.turn worker read) = some next) :
    next.Converging := by
  simp only [step] at stepped
  obtain ⟨w, isWorker, stepped⟩ := bind_eq_some_iff.mp stepped
  obtain ⟨⟨w', tables⟩, turned, rfl⟩ := map_eq_some_iff.mp stepped
  intro r member isCurrent memoryId isSource
  have before : pool.live r.tenantId memoryId = true ∨
      pool.pending r.tenantId memoryId = true := by
    rcases (turn_spec turned).1 with ⟨id, closes_⟩ | same | ⟨m, reading, isAt, written⟩
    · rw [closes_] at member
      exact converging r (current_after_close member isCurrent).1 isCurrent memoryId isSource
    · rw [same] at member
      exact converging r member isCurrent memoryId isSource
    · rw [written] at member
      rcases mem_upsertRelations member with ⟨isOld, -⟩ | rewritten
      · exact converging r isOld isCurrent memoryId isSource
      · obtain ⟨e, isRead, sameId, -⟩ := rewritten.ends
        have fromMemory := enrichMemory_readFrom e isRead
        have sameTenant : r.tenantId = m.tenantId := by
          rw [← fromMemory.tenant, Relation.tenantId, Relation.tenantId, sameId]
        have sameMemory : m.memoryId = memoryId := by
          have isSource' := fromMemory.source
          rw [Relation.memoryId, sameId, ← Relation.memoryId, isSource] at isSource'
          exact (Option.some.inj isSource').symm
        rw [sameTenant, ← sameMemory]
        exact timely w isWorker (m, reading) isAt (ne_nil_of_mem isRead)
  rcases before with isLive | isPending
  · exact .inl isLive
  · rcases turn_pending isWorker turned isPending with closes_ | isPending'
    · rw [closes_] at member
      exact absurd ⟨rfl, isSource⟩ (current_after_close member isCurrent).2
    · exact .inr isPending'

/-- What was pending when a job left its worker is pending still, unless it was that job's. -/
theorem pending_leave (again : List Waiting) (isWorker : pool.running[worker]? = some w)
    (isPending : pool.pending tenantId memoryId = true) :
    w.willClose tenantId memoryId = true ∨
      (pool.leave worker again).pending tenantId memoryId = true := by
  rcases pending_iff.mp isPending with ⟨waiting, isQueued, named⟩ | isRunning
  · exact .inr (pending_iff.mpr (.inl ⟨waiting, mem_append_left _ isQueued, named⟩))
  · exact (exists_eraseIdx isWorker isRunning).imp_right fun others => pending_iff.mpr (.inr others)

theorem pending_again {attempts : Nat} (will : w.willClose tenantId memoryId = true) :
    (pool.leave worker [⟨w.job, attempts⟩]).pending tenantId memoryId = true :=
  pending_iff.mpr (.inl ⟨_, mem_append_right _ (mem_singleton_self _), (willClose_iff.mp will).1⟩)

section

variable (converging : pool.Converging)
include converging

private theorem leave_keeps {again : List Waiting}
    (isWorker : pool.running[worker]? = some w)
    (spared : Spared pool (pool.leave worker again) fun tenantId memoryId =>
      w.willClose tenantId memoryId) :
    (pool.leave worker again).Converging := by
  intro r member isCurrent memoryId isSource
  rcases converging r member isCurrent memoryId isSource with isLive | isPending
  · exact .inl isLive
  · rcases pending_leave again isWorker isPending with will | others
    · exact spared r member isCurrent memoryId isSource will
    · exact .inr others

private theorem drop_keeps {waiting : Waiting}
    (timely : Timely rules pool (.drop waiting))
    (stepped : pool.step normalizedHash rules (.drop waiting) = some next) :
    next.Converging := by
  simp only [step] at stepped
  obtain ⟨-, stepped⟩ := ite_none_right_eq_some.mp stepped
  cases stepped
  intro r member isCurrent memoryId isSource
  rcases converging r member isCurrent memoryId isSource with isLive | isPending
  · exact .inl isLive
  · rcases pending_iff.mp isPending with ⟨other, isQueued, named⟩ | isRunning
    · by_cases same : other = waiting
      · rw [same] at named
        exact timely r member isCurrent memoryId isSource named
      · exact .inr (pending_iff.mpr (.inl ⟨other, (mem_erase_of_ne same).mpr isQueued, named⟩))
    · exact .inr (pending_iff.mpr (.inr isRunning))

private theorem finish_keeps
    (stepped : pool.step normalizedHash rules (.finish worker) = some next) :
    next.Converging := by
  simp only [step] at stepped
  obtain ⟨w, isWorker, stepped⟩ := bind_eq_some_iff.mp stepped
  obtain ⟨isDone, stepped⟩ := ite_none_right_eq_some.mp stepped
  cases stepped
  refine leave_keeps converging isWorker fun r member isCurrent memoryId isSource will => ?_
  simp only [Running.done, Bool.and_eq_true, List.isEmpty_iff] at isDone
  obtain ⟨-, isGone | ⟨m, isLoaded, -⟩⟩ := willClose_iff.mp will
  · rw [isDone.1] at isGone
    cases isGone
  · rw [isDone.2] at isLoaded
    cases isLoaded

private theorem fail_keeps
    (timely : Timely rules pool (.fail worker))
    (stepped : pool.step normalizedHash rules (.fail worker) = some next) :
    next.Converging := by
  simp only [step] at stepped
  obtain ⟨w, isWorker, rfl⟩ := map_eq_some_iff.mp stepped
  by_cases isLast : w.lastAttempt = true
  · rw [if_pos isLast]
    exact leave_keeps converging isWorker (timely w isWorker isLast)
  · rw [if_neg isLast]
    exact leave_keeps converging isWorker fun _ _ _ _ _ will => .inr (pending_again will)

private theorem release_keeps
    (stepped : pool.step normalizedHash rules (.release worker) = some next) :
    next.Converging := by
  simp only [step] at stepped
  obtain ⟨w, isWorker, rfl⟩ := map_eq_some_iff.mp stepped
  exact leave_keeps converging isWorker fun _ _ _ _ _ will => .inr (pending_again will)

end

private theorem step_keeps {move : Move} (timely : Timely rules pool move)
    (stepped : pool.step normalizedHash rules move = some next)
    (converging : pool.Converging) : next.Converging := by
  cases move with
  | commit change job => exact commit_keeps converging stepped
  | start waiting now => exact start_keeps converging stepped
  | drop waiting => exact drop_keeps converging timely stepped
  | turn worker read => exact turn_keeps converging timely stepped
  | finish worker => exact finish_keeps converging stepped
  | fail worker => exact fail_keeps converging timely stepped
  | release worker => exact release_keeps converging stepped

end

/-- The graph converges in every run whose jobs write in time and give up only what is done. -/
theorem enrichment_converges (normalizedHash : String → Digest) (rules : Rules)
    (moves : List Move) (pool : Pool)
    (reached : run (step normalizedHash rules) {} moves = some pool)
    (timely : Meets (step normalizedHash rules) (Timely rules) {} moves) : pool.Converged := by
  have start : Converging {} := fun r member => by cases member
  exact (run_invariant_of_meets (fun stepped timely => step_keeps timely stepped) reached
    timely start).converged

/-- The memory is forgotten while the model answers about it. -/
def lateRun : List Move :=
  [.commit (.add employment) indexed, .start { job := indexed } ⟨20⟩, .turn 0 silent,
    .commit (.forget ⟨30⟩ "acme" "mem_1") indexed, .start { job := indexed } ⟨40⟩,
    .turn 1 silent, .finish 1, .turn 0 silent, .turn 0 silent, .finish 0]

def stray (pool : Pool) : Nat × Nat :=
  (pool.queued.length + pool.running.length,
    pool.tables.relations.countP fun r =>
      r.status = .current ∧ r.memoryId.any fun memoryId => !pool.live r.tenantId memoryId)

theorem late_write_outlives_forgetting :
    ¬∀ (normalizedHash : String → Digest) (rules : Rules) (moves : List Move) (pool : Pool),
      run (step normalizedHash rules) {} moves = some pool → pool.Converged := by
  intro always
  let normalizedHash : String → Digest := fun _ => employment.normalizedHash
  have ends : (run (step normalizedHash plainRules) {} lateRun).map stray = some (0, 1) := by
    decide +kernel
  obtain ⟨pool, reached, counts⟩ := Option.map_eq_some_iff.mp ends
  obtain ⟨noJobs, oneStray⟩ := Prod.mk.inj counts
  have noneQueued : pool.queued = [] := List.eq_nil_of_length_eq_zero (by omega)
  have noneRunning : pool.running = [] := List.eq_nil_of_length_eq_zero (by omega)
  obtain ⟨r, member, isStray⟩ := List.countP_pos_iff.mp (Nat.one_pos.trans_eq oneStray.symm)
  simp only [decide_eq_true_eq, Option.any_eq_true] at isStray
  obtain ⟨isCurrent, memoryId, isSource, notLive⟩ := isStray
  have isLive := always normalizedHash plainRules lateRun pool reached noneQueued noneRunning
    r member isCurrent memoryId isSource
  rw [isLive] at notLive
  cases notLive

/-- The same job, when the memory is forgotten after it has written; the second job fails once
before it closes the relation. -/
def timelyRun : List Move :=
  [.commit (.add employment) indexed, .start { job := indexed } ⟨20⟩, .turn 0 silent,
    .turn 0 silent, .turn 0 silent, .finish 0, .commit (.forget ⟨30⟩ "acme" "mem_1") indexed,
    .start { job := indexed } ⟨40⟩, .fail 0, .start { job := indexed, attempts := 1 } ⟨50⟩,
    .turn 0 silent, .finish 0]

theorem enrichment_converges_after_forgetting :
    ∃ pool, run (step (fun _ => employment.normalizedHash) plainRules) {} timelyRun =
      some pool ∧ stray pool = (0, 0) ∧ pool.Converged :=
  exists_run_showing (by decide +kernel) fun pool reached =>
    enrichment_converges _ plainRules timelyRun pool reached (by decide +kernel)

end Pool

end MemoryService.Graph
