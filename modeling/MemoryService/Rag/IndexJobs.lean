import MemoryService.Foundation.Transition
import MemoryService.Graph.Commits
import MemoryService.Rag.Indexer

/-!
# Index jobs

An index job reads its memories once.
-/

namespace MemoryService.Rag

open Domain Foundation Memory Statements

def timeMin : Instant := ⟨59926608000000000⟩

def timeMax : Instant := ⟨315537811200000000⟩

structure TimePayload where
  validFrom : Instant
  validTo : Instant
  knownTo : Instant
  deriving DecidableEq

def memoryTimePayload (m : CanonicalMemory) : TimePayload where
  validFrom := m.temporal.validFrom.getD timeMin
  validTo := m.temporal.validTo.getD timeMax
  knownTo := if m.temporal.status = .superseded then m.updatedAt else timeMax

/-- What a search filters, ranks and shows by. -/
structure Payload where
  memoryType : MemoryType
  category : Option String
  provider : Option String
  derived : Bool
  current : Bool
  replacedBy : Option (Option String)
  time : TimePayload
  subject : Option String
  predicate : Option String
  object : String
  ownerPrincipal : String
  confidence : Rat
  reinforcement : Nat
  observedAt : Instant
  sourceRefs : List EvidenceRef
  text : String
  deriving DecidableEq

/-- The part of a point's payload that is built from the columns modelled here; what comes from
metadata alone (keys, kinds, contributors, connections, scripts) is left out. -/
def payloadOf (m : CanonicalMemory) : Payload where
  memoryType := m.memoryType
  category := m.systemMetadata.category
  provider := m.systemMetadata.provider
  derived := m.systemMetadata.sourceRevisions ≠ []
  current := m.temporal.status = .current
  replacedBy := if Replacement.earlierValue m then some (replacedBy m) else none
  time := memoryTimePayload m
  subject := m.subject
  predicate := m.predicate
  object := .ofList ((m.object.getD "").toList.take 300)
  ownerPrincipal := m.ownerPrincipal
  confidence := m.confidence
  reinforcement := m.reinforcementCount
  observedAt := m.temporal.observedAt
  sourceRefs := m.evidence
  text := .ofList (m.content.toList.take 2000)

structure Entry where
  record : SearchRecord
  tenantId : String
  payload : Payload
  deriving DecidableEq

def entryOf (spaces : DenseSpaces) (m : CanonicalMemory) : Entry where
  record :=
    { recordId := m.memoryId
      dense := spaces.spaces.map fun space => (space.name, space.embed (memoryIndexText m))
      denseContext :=
        spaces.spaces.map fun space => (space.name, space.embed (memoryContextText m)) }
  tenantId := m.tenantId
  payload := payloadOf m

def lookup (memoryId : String) (index : List Entry) : Option Entry :=
  index.find? fun e => e.record.recordId = memoryId

def delete (ids : List String) (index : List Entry) : List Entry :=
  index.filter fun e => e.record.recordId ∉ ids

def upsert (entries : List Entry) (index : List Entry) : List Entry :=
  delete (entries.map fun e => e.record.recordId) index ++ entries

/-- How far a job is. -/
inductive Phase where
  | loaded
  /-- the entries of what is gone are deleted -/
  | removed
  | embedded (records : List Entry)
  | upserted

structure Running where
  job : Graph.Job
  memories : List CanonicalMemory
  phase : Phase := .loaded
  attempts : Nat := 0

namespace Running

def start (rows : List CanonicalMemory) (waiting : Graph.Waiting) (now : Instant) : Running where
  job := waiting.job
  memories := Graph.getMany now waiting.job.tenantId waiting.job.memoryIds rows
  attempts := waiting.attempts

variable (w : Running)

def lastAttempt : Bool := Graph.retries ≤ w.attempts

def live : List CanonicalMemory := w.memories.filter indexed

def gone : List String :=
  (w.memories.filter fun m => !indexed m).map CanonicalMemory.memoryId ++
    Graph.missing w.job.memoryIds w.memories

/-- What the next step of a job puts under an id in the index, or takes out. -/
def writes : List (String × Option Entry) :=
  match w.phase with
  | .loaded => w.gone.map fun memoryId => (memoryId, none)
  | .embedded records => records.map fun e => (e.record.recordId, some e)
  | .removed | .upserted => []

end Running

/-- The rows with their `indexed_at`, the index, and the jobs that are queued or running. -/
structure Pool where
  rows : List CanonicalMemory := []
  index : List Entry := []
  marks : List (String × Instant) := []
  queued : List Graph.Waiting := []
  running : List Running := []

inductive Move where
  | commit (changes : List Graph.Change) (job : Graph.Job)
  | start (waiting : Graph.Waiting) (now : Instant)
  /-- the job never runs: its outbox row is dead -/
  | drop (waiting : Graph.Waiting)
  | turn (worker : Nat)
  /-- the last step of a job -/
  | mark (worker : Nat) (now : Instant)
  /-- the job fails, and is queued again unless this was its last attempt -/
  | fail (worker : Nat)
  /-- the worker stops, and its job is queued again -/
  | release (worker : Nat)

def applyAll (normalizedHash : String → Digest) (job : Graph.Job) :
    List Graph.Change → List CanonicalMemory → Option (List CanonicalMemory × List String)
  | [], rows => some (rows, [])
  | change :: later, rows =>
    if change.covered normalizedHash rows job then
      (change.apply normalizedHash rows).bind fun rows' =>
        (applyAll normalizedHash job later rows').map fun (last, touched) =>
          (last, (change.touched normalizedHash rows).map Prod.snd ++ touched)
    else none

namespace Pool

variable (normalizedHash : String → Digest) (spaces : DenseSpaces)

def clear (ids : List String) (marks : List (String × Instant)) : List (String × Instant) :=
  marks.filter fun mark => mark.1 ∉ ids

/-- `mark_indexed`, by id alone. -/
def markIndexed (ids : List String) (indexedAt : Instant) (rows : List CanonicalMemory)
    (marks : List (String × Instant)) : List (String × Instant) :=
  clear ids marks ++
    (ids.filter fun memoryId => memoryId ∈ rows.map CanonicalMemory.memoryId).map
      fun memoryId =>
      (memoryId, indexedAt)

variable (pool : Pool)

def dropped (waiting : Graph.Waiting) : Pool := { pool with queued := pool.queued.erase waiting }

/-- The pool when a job has left its worker, to be run again or not. -/
def leave (worker : Nat) (again : List Graph.Waiting) : Pool :=
  { pool with
    queued := pool.queued ++ again
    running := pool.running.eraseIdx worker }

/-- One step of a job before its last. -/
def turned (w : Running) (index : List Entry) : Option (Running × List Entry) :=
  match w.phase with
  | .loaded => some ({ w with phase := .removed }, delete w.gone index)
  | .removed => some ({ w with phase := .embedded (w.live.map (entryOf spaces)) }, index)
  | .embedded records => some ({ w with phase := .upserted }, upsert records index)
  | .upserted => none

def step : Move → Option Pool
  | .commit changes job =>
    (applyAll normalizedHash job changes pool.rows).map fun (rows, touched) =>
      { pool with rows, marks := clear touched pool.marks, queued := pool.queued ++ [{ job }] }
  | .start waiting now =>
    if waiting ∈ pool.queued then
      some { pool with
        queued := pool.queued.erase waiting
        running := pool.running ++ [Running.start pool.rows waiting now] }
    else none
  | .drop waiting => if waiting ∈ pool.queued then some (pool.dropped waiting) else none
  | .turn worker =>
    pool.running[worker]?.bind fun w =>
      (turned spaces w pool.index).map fun (w', index) =>
        { pool with index, running := pool.running.set worker w' }
  | .mark worker now =>
    pool.running[worker]?.bind fun w =>
      match w.phase with
      | .upserted =>
        let marks := markIndexed (w.memories.map CanonicalMemory.memoryId) now pool.rows pool.marks
        some ({ pool with marks }.leave worker [])
      | _ => none
  | .fail worker =>
    pool.running[worker]?.map fun w =>
      pool.leave worker (if w.lastAttempt then [] else [⟨w.job, w.attempts + 1⟩])
  | .release worker =>
    pool.running[worker]?.map fun w => pool.leave worker [⟨w.job, w.attempts + 1⟩]

/-- The entry built from a row: none where the row is forgotten, lapsed or not indexed. -/
def shown (now : Instant) (m : CanonicalMemory) : Option Entry :=
  if m.deletedAt = none ∧ ¬invalidDerived now m ∧ indexed m then
    some (entryOf spaces m)
  else none

variable (m : CanonicalMemory)

/-- The entry of the row is the one built from it. -/
def Right : Prop := ∃ now, lookup m.memoryId pool.index = shown spaces now m

/-- What the job is still to write. -/
def ahead (w : Running) : List (String × Option Entry) :=
  match w.phase with
  | .loaded =>
    w.gone.map (fun memoryId => (memoryId, none)) ++
      w.live.map fun m => (m.memoryId, some (entryOf spaces m))
  | .removed => w.live.map fun m => (m.memoryId, some (entryOf spaces m))
  | .embedded records => records.map fun e => (e.record.recordId, some e)
  | .upserted => []

/-- The job is still to write the entry of the row as it is. -/
def WillShow (w : Running) : Prop :=
  w.job.names m.tenantId m.memoryId = true ∧
    (∃ e, (m.memoryId, e) ∈ ahead spaces w) ∧
    ∀ e, (m.memoryId, e) ∈ ahead spaces w → ∃ now, e = shown spaces now m

/-- A job that is to write the entry of the row as it is, or that has not read it yet. -/
def Pending : Prop :=
  (∃ waiting ∈ pool.queued, waiting.job.names m.tenantId m.memoryId = true) ∨
    ∃ w ∈ pool.running, WillShow spaces m w

/-- Once no job is queued or running, every row has the entry built from it; and a row that
is marked as indexed has it at all times. -/
structure Converged (pool : Pool) : Prop where
  entries : pool.queued = [] → pool.running = [] →
    ∀ memoryId m, row memoryId pool.rows = some m → Right spaces pool m
  marked : ∀ mark ∈ pool.marks, ∀ m, row mark.1 pool.rows = some m → Right spaces pool m

/-- Of the rows that a lost job had to write, each has the right entry or another job for it. -/
def Spared (pool next : Pool) (owes : CanonicalMemory → Prop) : Prop :=
  ∀ m, row m.memoryId pool.rows = some m → owes m → Right spaces pool m ∨ Pending spaces next m

/-- A job writes what the row shows, or a job that will is queued or running and the row is
not marked; it marks a row whose entry is right; and a job that is lost or given up leaves no
row behind. -/
def Timely : Move → Prop
  | .turn worker =>
    ∀ w ∈ pool.running[worker]?, ∀ written ∈ w.writes,
      ∀ m ∈ row written.1 pool.rows,
        (∃ now, written.2 = shown spaces now m) ∨
          (Pending spaces pool m ∧ written.1 ∉ pool.marks.map Prod.fst)
  | .mark worker _ =>
    ∀ w ∈ pool.running[worker]?, ∀ loaded ∈ w.memories,
      ∀ m ∈ row loaded.memoryId pool.rows, Right spaces pool m
  | .fail worker =>
    ∀ w ∈ pool.running[worker]?, w.lastAttempt = true →
      Spared spaces pool (pool.leave worker []) fun m => WillShow spaces m w
  | .drop waiting =>
    Spared spaces pool (pool.dropped waiting) fun m =>
      waiting.job.names m.tenantId m.memoryId = true
  | _ => True

end Pool

end MemoryService.Rag
