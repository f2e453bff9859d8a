import MemoryService.Graph.Jobs

/-!
# Commits of memories

A commit is one change of the memory rows and the job that it queues, which names every
memory it wrote.  Between commits the queued jobs run, each of them at once, in any order.
A memory is settled when no queued job names it.
-/

namespace MemoryService.Graph

open Domain Foundation Memory List Statements

structure Job where
  tenantId : String
  memoryIds : List String
  deriving DecidableEq

/-- A job in the queue, with the number of its runs that have failed. -/
structure Waiting where
  job : Job
  attempts : Nat := 0
  deriving DecidableEq

/-- The runs that may follow the first one of an enrichment job, and of an index job. -/
def retries : Nat := 5

def Job.names (tenantId memoryId : String) (job : Job) : Bool :=
  job.tenantId = tenantId ∧ memoryId ∈ job.memoryIds

variable {tenantId memoryId : String} {now : Instant} {read : CanonicalMemory → Reading}
  {rows' : List CanonicalMemory}

theorem Job.names_iff (job : Job) :
    job.names tenantId memoryId = true ↔ job.tenantId = tenantId ∧ memoryId ∈ job.memoryIds := by
  simp [Job.names]

inductive Change where
  | add (memory : CanonicalMemory)
  /-- one of the paths that close a memory and point it at what replaced it -/
  | supersede (how : Supersession) (now : Instant)
  /-- any other write of a memory: retracted, lifted, expired, archived, restored, moved -/
  | update (memory : CanonicalMemory)
  | forget (now : Instant) (tenantId memoryId : String)

def put (memory : CanonicalMemory) (rows : List CanonicalMemory) : List CanonicalMemory :=
  if rows.any (fun r => r.memoryId = memory.memoryId) then Statements.update memory rows
  else Statements.add memory rows

section

variable (normalizedHash : String → Digest)

def Closing.rows (closing : Closing) : List CanonicalMemory := [closing.closed, closing.replacement]

variable (rows : List CanonicalMemory)

/-- `none` where it raises: the key exists, or the row is missing. -/
def Change.apply : Change → Option (List CanonicalMemory)
  | .add memory =>
    if rows.any (fun r => r.memoryId = memory.memoryId) then none
    else some (Statements.add memory rows)
  | .supersede how now =>
    some (((how.closings normalizedHash rows now).flatMap Closing.rows).foldl
      (fun rows memory => put memory rows) rows)
  | .update memory =>
    if rows.any (fun r => r.memoryId = memory.memoryId ∧ r.tenantId = memory.tenantId) then
      some (Statements.update memory rows)
    else none
  | .forget now tenantId memoryId => some (Statements.forget now tenantId memoryId rows)

def Change.touched : Change → List (String × String)
  | .add memory => [(memory.tenantId, memory.memoryId)]
  | .supersede how now =>
    ((how.closings normalizedHash rows now).flatMap Closing.rows).map
      fun memory => (memory.tenantId, memory.memoryId)
  | .update memory => [(memory.tenantId, memory.memoryId)]
  | .forget _ tenantId memoryId => [(tenantId, memoryId)]

def Change.covered (job : Job) (change : Change) : Bool :=
  (change.touched normalizedHash rows).all fun written => job.names written.1 written.2

structure State where
  memories : List CanonicalMemory := []
  tables : Tables := {}
  queued : List Job := []

inductive Action where
  | commit (change : Change) (job : Job)
  | enrich (job : Job) (now : Instant) (read : CanonicalMemory → Reading)

def step (rules : Rules) (state : State) : Action → Option State
  | .commit change job =>
    if change.covered normalizedHash state.memories job then
      (change.apply normalizedHash state.memories).map fun memories =>
        { state with memories, queued := state.queued ++ [job] }
    else none
  | .enrich job now read =>
    if job ∈ state.queued then
      some { state with
        tables := enrichMemories rules read now job.tenantId job.memoryIds state.memories
          state.tables
        queued := state.queued.erase job }
    else none

def Settled (tenantId memoryId : String) (queued : List Job) : Prop :=
  ∀ job ∈ queued, job.names tenantId memoryId = false

end

section

variable {normalizedHash : String → Digest} {rules : Rules} {state next : State} {job : Job}

theorem sourced_of_unnamed {rows : List CanonicalMemory} {tables : Tables}
    (unnamed : ¬job.names tenantId memoryId = true) :
    sourced tenantId memoryId
        (enrichMemories rules read now job.tenantId job.memoryIds rows tables).relations =
      sourced tenantId memoryId tables.relations :=
  sourced_job_other fun own => unnamed (job.names_iff.mpr own)

theorem commit_cases {change : Change}
    (stepped : step normalizedHash rules state (.commit change job) = some next) :
    ∃ rows', change.covered normalizedHash state.memories job = true ∧
      change.apply normalizedHash state.memories = some rows' ∧
      next = { state with memories := rows', queued := state.queued ++ [job] } := by
  simp only [step] at stepped
  obtain ⟨covered, stepped⟩ := Option.ite_none_right_eq_some.mp stepped
  obtain ⟨rows', applied, rfl⟩ := Option.map_eq_some_iff.mp stepped
  exact ⟨rows', covered, applied, rfl⟩

theorem enrich_eq (stepped : step normalizedHash rules state (.enrich job now read) = some next) :
    next = { state with
      tables := enrichMemories rules read now job.tenantId job.memoryIds state.memories
        state.tables
      queued := state.queued.erase job } := by
  simp only [step] at stepped
  split at stepped
  case isFalse => cases stepped
  case isTrue => exact (Option.some.inj stepped).symm

end

section

variable {memoryId : String} {rows : List CanonicalMemory} {m memory : CanonicalMemory}

theorem row_memoryId (found : row memoryId rows = some m) :
    m.memoryId = memoryId := by
  simpa using find?_some found

theorem row_updateWhere {selects : CanonicalMemory → Bool}
    {assign : CanonicalMemory → CanonicalMemory}
    (keeps : ∀ r, selects r = true → (assign r).memoryId = r.memoryId) :
    row memoryId (updateWhere selects assign rows) =
      (row memoryId rows).map fun r => if selects r then assign r else r := by
  rw [row, updateWhere, find?_map]
  congr 1
  refine find?_congr fun r _ => ?_
  by_cases selected : selects r = true
  · simp [selected, keeps r selected]
  · simp [selected]

theorem row_update :
    row memoryId (Statements.update memory rows) =
      (row memoryId rows).map fun r =>
        if r.memoryId = memory.memoryId ∧ r.tenantId = memory.tenantId then
          written memory r else r := by
  rw [Statements.update, row_updateWhere]
  · simp only [decide_eq_true_eq]
  · intro r selected
    simp only [decide_eq_true_eq] at selected
    exact selected.1.symm

theorem row_put (memory : CanonicalMemory) (rows : List CanonicalMemory)
    (other : ¬(memory.tenantId = m.tenantId ∧ memory.memoryId = memoryId)) :
    row memoryId (put memory rows) = some m ↔ row memoryId rows = some m := by
  rw [put]
  split
  case isTrue =>
    rw [row_update, Option.map_eq_some_iff]
    constructor
    · rintro ⟨r, isRow, becomes⟩
      split at becomes
      case isTrue selected =>
        refine absurd ⟨?_, ?_⟩ other
        · rw [← becomes]
          exact selected.2.symm
        · rw [← selected.1, row_memoryId isRow]
      case isFalse =>
        rw [← becomes]
        exact isRow
    · intro isRow
      refine ⟨m, isRow, if_neg fun selected => other ⟨selected.2.symm, ?_⟩⟩
      rw [← selected.1, row_memoryId isRow]
  case isFalse =>
    rw [row, Statements.add, find?_append, Option.or_eq_some_iff]
    refine or_iff_left ?_
    rintro ⟨-, isNew⟩
    have isMemory : memory = m := (mem_singleton.mp (mem_of_find?_eq_some isNew)).symm
    refine other ?_
    rw [isMemory]
    exact ⟨rfl, row_memoryId isNew⟩

theorem row_puts {written : List CanonicalMemory}
    (other : ∀ memory ∈ written, ¬(memory.tenantId = m.tenantId ∧ memory.memoryId = memoryId)) :
    ∀ {rows : List CanonicalMemory},
      row memoryId (written.foldl (fun rows m => put m rows) rows) = some m ↔
        row memoryId rows = some m := by
  induction written with
  | nil => exact Iff.rfl
  | cons first rest ih =>
    intro rows
    rw [forall_mem_cons] at other
    rw [foldl_cons, ih other.2, row_put first rows other.1]

variable {normalizedHash : String → Digest} {change : Change} {job : Job}

private theorem apply_cases (applied : change.apply normalizedHash rows = some rows') :
    (∃ written : List CanonicalMemory,
      change.touched normalizedHash rows =
        written.map (fun memory => (memory.tenantId, memory.memoryId)) ∧
      rows' = written.foldl (fun rows memory => put memory rows) rows) ∨
    ∃ now tenantId id, change.touched normalizedHash rows = [(tenantId, id)] ∧
      rows' = Statements.forget now tenantId id rows := by
  cases change with
  | add memory =>
    simp only [Change.apply] at applied
    obtain ⟨absent, applied⟩ := Option.ite_none_left_eq_some.mp applied
    cases applied
    refine .inl ⟨[memory], rfl, ?_⟩
    rw [foldl_cons, foldl_nil, put, if_neg absent]
  | supersede how now => exact .inl ⟨_, rfl, (Option.some.inj applied).symm⟩
  | update memory =>
    simp only [Change.apply] at applied
    obtain ⟨present, applied⟩ := Option.ite_none_right_eq_some.mp applied
    cases applied
    refine .inl ⟨[memory], rfl, ?_⟩
    rw [foldl_cons, foldl_nil, put, if_pos]
    obtain ⟨r, isRow, sameRow⟩ := any_eq_true.mp present
    simp only [decide_eq_true_eq] at sameRow
    exact any_eq_true.mpr ⟨r, isRow, by simpa using sameRow.1⟩
  | forget now tenantId id =>
    exact .inr ⟨now, tenantId, id, rfl, (Option.some.inj applied).symm⟩

theorem row_forget (now : Instant) (tenantId id : String) :
    row memoryId (Statements.forget now tenantId id rows) =
      (row memoryId rows).map fun r =>
        if r.memoryId = id ∧ r.tenantId = tenantId ∧ r.deletedAt = none then
          forgotten now r else r := by
  have sameIds : ∀ r, (forgotten now r).memoryId = r.memoryId := fun _ => rfl
  rw [Statements.forget, row_updateWhere (fun r _ => sameIds r)]
  simp only [decide_eq_true_eq]

theorem row_apply (applied : change.apply normalizedHash rows = some rows')
    (covered : change.covered normalizedHash rows job = true)
    (notNamed : job.names m.tenantId memoryId = false) :
    row memoryId rows' = some m ↔ row memoryId rows = some m := by
  have other : ∀ written ∈ change.touched normalizedHash rows,
      ¬(written.1 = m.tenantId ∧ written.2 = memoryId) := by
    intro written isTouched same
    have named := all_eq_true.mp covered written isTouched
    rw [same.1, same.2, notNamed] at named
    cases named
  rcases apply_cases applied with ⟨written, touches, rfl⟩ | ⟨now, tenantId, id, touches, rfl⟩
  · rw [touches, forall_mem_map] at other
    exact row_puts other
  · rw [touches, forall_mem_singleton] at other
    have apart : ∀ r, row memoryId rows = some r → r.tenantId = m.tenantId →
        ¬(r.memoryId = id ∧ r.tenantId = tenantId ∧ r.deletedAt = none) := by
      intro r isRow sameTenant selected
      refine other ⟨?_, ?_⟩
      · rw [← sameTenant]
        exact selected.2.1.symm
      · rw [← row_memoryId isRow]
        exact selected.1.symm
    rw [row_forget, Option.map_eq_some_iff]
    constructor
    · rintro ⟨r, isRow, becomes⟩
      split at becomes
      case isTrue selected => exact absurd selected (apart r isRow (by rw [← becomes]; rfl))
      case isFalse =>
        rw [← becomes]
        exact isRow
    · intro isRow
      exact ⟨m, isRow, if_neg (apart m isRow rfl)⟩

def Forgotten (tenantId memoryId : String) (rows : List CanonicalMemory) : Prop :=
  ∃ m ∈ row memoryId rows, m.tenantId = tenantId ∧ m.deletedAt ≠ none

theorem forgotten_put (memory : CanonicalMemory)
    (isForgotten : Forgotten tenantId memoryId rows) :
    Forgotten tenantId memoryId (put memory rows) := by
  obtain ⟨m, isRow, sameTenant, deleted⟩ := isForgotten
  rw [put]
  split
  case isTrue =>
    rw [Forgotten, row_update, Option.mem_def.mp isRow]
    refine ⟨_, rfl, ?_⟩
    beta_reduce
    split
    case isTrue => exact ⟨sameTenant, deleted⟩
    case isFalse => exact ⟨sameTenant, deleted⟩
  case isFalse =>
    refine ⟨m, ?_, sameTenant, deleted⟩
    rw [Option.mem_def, row, Statements.add, find?_append]
    exact Option.or_eq_some_iff.mpr (.inl isRow)

theorem forgotten_apply (applied : change.apply normalizedHash rows = some rows')
    (isForgotten : Forgotten tenantId memoryId rows) :
    Forgotten tenantId memoryId rows' := by
  rcases apply_cases applied with ⟨written, -, rfl⟩ | ⟨now, tenant, id, -, rfl⟩
  · exact List.foldlRecOn (motive := Forgotten tenantId memoryId) _ _ isForgotten
      fun rows before memory _ => forgotten_put memory before
  · obtain ⟨m, isRow, sameTenant, deleted⟩ := isForgotten
    rw [Forgotten, row_forget, Option.mem_def.mp isRow]
    refine ⟨m, ?_, sameTenant, deleted⟩
    simp [deleted]

end

def plainRules : Rules where
  strip := id
  canonicalEntity := id
  usableEntity := fun name => name ≠ ""
  layerFor := fun _ => .entity

def employment : CanonicalMemory where
  memoryId := "mem_1"
  tenantId := "acme"
  memoryType := .semantic
  content := "Ana works at Globex"
  normalizedHash := ⟨"3a", by decide⟩
  subject := some "user:ana"
  predicate := some "works_at"
  object := some "globex"
  temporal := { observedAt := ⟨10⟩ }
  evidence := []
  updatedAt := ⟨10⟩

/-- The text gives no names and the model is not asked. -/
def silent (_ : CanonicalMemory) : Reading where
  visibilityKeys := ["user:acme/ana"]
  names := []
  opened := []
  restated := []
  memoryRelations := fun _ => []

def indexed : Job := ⟨"acme", ["mem_1"]⟩

end MemoryService.Graph
