import MemoryService.Rag.IndexJobs

/-!
# The search index converges to the store

Every commit queues a job, so a row whose entry is not the one built from it has a job that has
not read it yet, or one that read it as it is and is still to write.
-/

namespace MemoryService.Rag

open Domain Foundation Memory List Statements

section

variable {memoryId : String} {ids : List String} {entries index : List Entry}

theorem lookup_delete :
    lookup memoryId (delete ids index) =
      if memoryId ∈ ids then none else lookup memoryId index := by
  rw [lookup, lookup, delete, find?_filter]
  split
  case isTrue isDeleted =>
    refine find?_eq_none.mpr fun e _ => ?_
    rw [decide_eq_true_eq, decide_eq_true_eq, decide_eq_true_eq, not_and]
    rintro isKept rfl
    exact isKept isDeleted
  case isFalse isKept =>
    refine find?_congr fun e _ => ?_
    rw [decide_eq_decide]
    constructor
    · exact fun found => of_decide_eq_true found.2
    · rintro rfl
      exact ⟨decide_eq_true isKept, decide_eq_true rfl⟩

theorem lookup_upsert_of_not_mem (other : memoryId ∉ entries.map fun e => e.record.recordId) :
    lookup memoryId (upsert entries index) = lookup memoryId index := by
  have notAdded : entries.find? (fun e => decide (e.record.recordId = memoryId)) = none := by
    refine find?_eq_none.mpr fun e member => ?_
    rw [decide_eq_true_eq]
    rintro rfl
    exact other (mem_map.mpr ⟨e, member, rfl⟩)
  have kept := @lookup_delete memoryId (entries.map fun e => e.record.recordId) index
  rw [if_neg other] at kept
  rw [← kept, upsert, lookup, find?_append, notAdded, Option.or_none, lookup]

theorem lookup_upsert_of_mem (index : List Entry)
    (added : memoryId ∈ entries.map fun e => e.record.recordId) :
    ∃ e ∈ entries, e.record.recordId = memoryId ∧
      lookup memoryId (upsert entries index) = some e := by
  have gone := @lookup_delete memoryId (entries.map fun e => e.record.recordId) index
  rw [if_pos added, lookup] at gone
  obtain ⟨e, member, isId⟩ := mem_map.mp added
  cases found : entries.find? (fun e => decide (e.record.recordId = memoryId)) with
  | none =>
    have absent := find?_eq_none.mp found e member
    simp [isId] at absent
  | some first =>
    refine ⟨first, mem_of_find?_eq_some found, by simpa using find?_some found, ?_⟩
    rw [upsert, lookup, find?_append, gone, Option.none_or, found]

end

namespace Pool

variable {normalizedHash : String → Digest} {spaces : DenseSpaces} {pool next : Pool}
  {m : CanonicalMemory} {memoryId : String} {now : Instant} {rows : List CanonicalMemory}
  {job : Graph.Job} {changes : List Graph.Change} {worker : ℕ} {w : Running}

section

variable {w w' : Running} {index index' : List Entry}

/-- A step writes the first part of what a job is still to write. -/
structure Wrote (spaces : DenseSpaces) (w w' : Running) (index index' : List Entry) : Prop where
  job : w'.job = w.job
  aheadIff : ∀ written, written ∈ ahead spaces w ↔ written ∈ w.writes ∨ written ∈ ahead spaces w'
  other : ∀ memoryId, memoryId ∉ w.writes.map Prod.fst →
    lookup memoryId index' = lookup memoryId index
  own : ∀ memoryId, memoryId ∈ w.writes.map Prod.fst → (memoryId, lookup memoryId index') ∈ w.writes

theorem ids_of_none {ids : List String} :
    (ids.map fun memoryId => (memoryId, (none : Option Entry))).map Prod.fst = ids := by
  rw [map_map]
  exact map_id ids

theorem ids_of_entries {entries : List Entry} :
    (entries.map fun e => (e.record.recordId, some e)).map Prod.fst =
      entries.map fun e => e.record.recordId :=
  map_map

theorem turned_wrote (turn : turned spaces w index = some (w', index')) :
    Wrote spaces w w' index index' := by
  rw [turned] at turn
  split at turn
  case h_1 isLoaded =>
    cases turn
    refine ⟨rfl, fun written => ?_, fun memoryId other => ?_, fun memoryId own => ?_⟩
    · simp only [ahead, Running.writes, isLoaded, mem_append]
      rfl
    · rw [Running.writes, isLoaded, ids_of_none] at other
      rw [lookup_delete, if_neg other]
    · rw [Running.writes, isLoaded] at own ⊢
      rw [ids_of_none] at own
      rw [lookup_delete, if_pos own]
      exact mem_map.mpr ⟨memoryId, own, rfl⟩
  case h_2 isRemoved =>
    cases turn
    refine ⟨rfl, fun written => ?_, fun memoryId _ => rfl, fun memoryId own => ?_⟩
    · simp only [ahead, Running.writes, isRemoved, map_map]
      simp
      rfl
    · rw [Running.writes, isRemoved] at own
      cases own
  case h_3 records isEmbedded =>
    cases turn
    refine ⟨rfl, fun written => ?_, fun memoryId other => ?_, fun memoryId own => ?_⟩
    · simp only [ahead, Running.writes, isEmbedded]
      simp
    · rw [Running.writes, isEmbedded, ids_of_entries] at other
      exact lookup_upsert_of_not_mem other
    · rw [Running.writes, isEmbedded] at own ⊢
      rw [ids_of_entries] at own
      obtain ⟨e, member, isId, found⟩ := lookup_upsert_of_mem index own
      rw [found, ← isId]
      exact mem_map.mpr ⟨e, member, rfl⟩
  case h_4 => cases turn

theorem right_of_written (wrote : Wrote spaces w w' index index')
    (own : m.memoryId ∈ w.writes.map Prod.fst)
    (shows : ∀ e, (m.memoryId, e) ∈ w.writes → ∃ now, e = shown spaces now m) :
    ∃ now, lookup m.memoryId index' = shown spaces now m :=
  shows _ (wrote.own m.memoryId own)

theorem willShow_turned (wrote : Wrote spaces w w' index index') (will : WillShow spaces m w) :
    (∃ now, lookup m.memoryId index' = shown spaces now m) ∨ WillShow spaces m w' := by
  obtain ⟨named, ⟨e, isAhead⟩, shows⟩ := will
  by_cases own : m.memoryId ∈ w.writes.map Prod.fst
  · left
    refine right_of_written wrote own fun e written => shows e ?_
    exact (wrote.aheadIff _).mpr (.inl written)
  · right
    rw [← wrote.job] at named
    refine ⟨named, ⟨e, ?_⟩, fun e isLater => shows e ((wrote.aheadIff _).mpr (.inr isLater))⟩
    refine ((wrote.aheadIff _).mp isAhead).resolve_left fun written => own ?_
    exact mem_map.mpr ⟨_, written, rfl⟩

theorem get_eq_row {x : CanonicalMemory} {tenantId : String}
    (isRow : row memoryId rows = some m)
    (got : Statements.get now tenantId memoryId rows = some x) :
    x = m ∧ m.deletedAt = none ∧ ¬invalidDerived now m = true := by
  rw [Statements.get, Option.filter_eq_some_iff, isRow, decide_eq_true_eq] at got
  obtain ⟨same, -, notDeleted, valid⟩ := got
  cases same
  exact ⟨rfl, notDeleted, by simpa using valid⟩

theorem willShow_start {waiting : Graph.Waiting} (now : Instant)
    (isRow : row m.memoryId rows = some m)
    (named : waiting.job.names m.tenantId m.memoryId = true) :
    WillShow spaces m (Running.start rows waiting now) := by
  obtain ⟨sameTenant, inIds⟩ := waiting.job.names_iff.mp named
  have loaded : ∀ x ∈ (Running.start rows waiting now).memories, x.memoryId = m.memoryId →
      x = m ∧ m.deletedAt = none ∧ ¬invalidDerived now m = true := by
    intro x isLoaded sameId
    obtain ⟨-, -, got⟩ := Graph.mem_getMany isLoaded
    rw [sameId] at got
    exact get_eq_row isRow got
  refine ⟨named, ?_, ?_⟩
  · -- the row is found and indexed, found and not indexed, or not found
    by_cases found : m ∈ (Running.start rows waiting now).memories
    · by_cases isIndexed : indexed m = true
      · refine ⟨some (entryOf spaces m), mem_append_right _ (mem_map.mpr ⟨m, ?_, rfl⟩)⟩
        exact mem_filter.mpr ⟨found, isIndexed⟩
      · refine ⟨none, mem_append_left _ (mem_map.mpr ⟨m.memoryId, ?_, rfl⟩)⟩
        refine mem_append_left _ (mem_map.mpr ⟨m, ?_, rfl⟩)
        exact mem_filter.mpr ⟨found, by simpa using isIndexed⟩
    · refine ⟨none, mem_append_left _ (mem_map.mpr ⟨m.memoryId, ?_, rfl⟩)⟩
      refine mem_append_right _ (mem_filter.mpr ⟨inIds, ?_⟩)
      rw [decide_eq_true_eq, mem_map]
      rintro ⟨x, isLoaded, sameId⟩
      rw [(loaded x isLoaded sameId).1] at isLoaded
      exact found isLoaded
  · intro e isAhead
    refine ⟨now, ?_⟩
    rcases mem_append.mp isAhead with isEmpty | isLive
    · obtain ⟨memoryId, isGone, same⟩ := mem_map.mp isEmpty
      cases same
      rw [shown, if_neg]
      rintro ⟨notDeleted, valid, isIndexed⟩
      rcases mem_append.mp isGone with notIndexed | isMissing
      · obtain ⟨x, isLoaded, sameId⟩ := mem_map.mp notIndexed
        obtain ⟨inMemories, other⟩ := mem_filter.mp isLoaded
        rw [(loaded x inMemories sameId).1, isIndexed] at other
        cases other
      · have absent := (mem_filter.mp isMissing).2
        rw [decide_eq_true_eq, mem_map] at absent
        refine absent ⟨m, mem_filterMap.mpr ⟨m.memoryId, inIds, ?_⟩, rfl⟩
        rw [Statements.get, isRow, Option.filter_eq_some_iff, decide_eq_true_eq]
        exact ⟨rfl, sameTenant.symm, notDeleted, by simpa using valid⟩
    · obtain ⟨x, isLive, same⟩ := mem_map.mp isLive
      obtain ⟨inMemories, isIndexed⟩ := mem_filter.mp isLive
      obtain ⟨sameId, rfl⟩ := Prod.mk.inj same
      obtain ⟨rfl, notDeleted, valid⟩ := loaded x inMemories sameId
      rw [shown, if_pos ⟨notDeleted, valid, isIndexed⟩]

end

theorem row_applyAll :
    ∀ {rows rows' : List CanonicalMemory} {touched : List String},
      applyAll normalizedHash job changes rows = some (rows', touched) →
        job.names m.tenantId memoryId = false ∨ memoryId ∉ touched →
          (row memoryId rows' = some m ↔ row memoryId rows = some m) := by
  induction changes with
  | nil =>
    intro rows rows' touched applied _
    cases applied
    exact Iff.rfl
  | cons change later ih =>
    intro rows rows' touched applied spared
    rw [applyAll] at applied
    obtain ⟨covered, applied⟩ := Option.ite_none_right_eq_some.mp applied
    obtain ⟨middle, first, rest⟩ := Option.bind_eq_some_iff.mp applied
    obtain ⟨⟨last, others⟩, ends, same⟩ := Option.map_eq_some_iff.mp rest
    cases same
    rcases spared with notNamed | untouched
    · exact (ih ends (.inl notNamed)).trans (Graph.row_apply first covered notNamed)
    · rw [mem_append, not_or] at untouched
      refine (ih ends (.inr untouched.2)).trans ?_
      -- a job that names just what the change touches covers it as well
      let own : Graph.Job := ⟨job.tenantId, (change.touched normalizedHash rows).map Prod.snd⟩
      have coveredByOwn : change.covered normalizedHash rows own = true := by
        refine all_eq_true.mpr fun written isTouched => ?_
        have named := job.names_iff.mp (all_eq_true.mp covered written isTouched)
        exact own.names_iff.mpr ⟨named.1, mem_map.mpr ⟨written, isTouched, rfl⟩⟩
      refine Graph.row_apply first coveredByOwn (Bool.eq_false_iff.mpr fun named => ?_)
      exact untouched.1 (own.names_iff.mp named).2

/-- What every step keeps: a row has the entry built from it or a job that will write it, and
a row that is marked has it. -/
structure Converging (spaces : DenseSpaces) (pool : Pool) : Prop where
  entries : ∀ memoryId m, row memoryId pool.rows = some m →
    Right spaces pool m ∨ Pending spaces pool m
  marked : ∀ mark ∈ pool.marks, ∀ m, row mark.1 pool.rows = some m → Right spaces pool m

section

variable (converging : Converging spaces pool)
include converging

theorem Converging.converged : Converged spaces pool where
  marked := converging.marked
  entries := by
    intro noneQueued noneRunning memoryId m isRow
    refine (converging.entries memoryId m isRow).resolve_right fun isPending => ?_
    rw [Pending, noneQueued, noneRunning] at isPending
    simp at isPending

private theorem commit_keeps
    (stepped : pool.step normalizedHash spaces (.commit changes job) = some next) :
    Converging spaces next := by
  simp only [step] at stepped
  obtain ⟨⟨rows, touched⟩, applied, rfl⟩ := Option.map_eq_some_iff.mp stepped
  constructor
  · intro memoryId m isRow
    have sameId : m.memoryId = memoryId := Graph.row_memoryId isRow
    by_cases named : job.names m.tenantId memoryId = true
    · rw [← sameId] at named
      exact .inr (.inl ⟨{ job }, by simp, named⟩)
    · have before := (row_applyAll applied (.inl (Bool.eq_false_iff.mpr named))).mp isRow
      rcases converging.entries memoryId m before with right | ⟨other, isQueued, names⟩ | running
      · exact .inl right
      · exact .inr (.inl ⟨other, mem_append_left _ isQueued, names⟩)
      · exact .inr (.inr running)
  · intro mark isMark m isRow
    obtain ⟨wasMark, untouched⟩ := mem_filter.mp isMark
    have before := (row_applyAll applied (.inr (of_decide_eq_true untouched))).mp isRow
    exact converging.marked mark wasMark m before

private theorem start_keeps {waiting : Graph.Waiting}
    (stepped : pool.step normalizedHash spaces (.start waiting now) = some next) :
    Converging spaces next := by
  simp only [step] at stepped
  obtain ⟨-, stepped⟩ := Option.ite_none_right_eq_some.mp stepped
  cases stepped
  refine ⟨fun memoryId m isRow => ?_, converging.marked⟩
  rcases converging.entries memoryId m isRow with
    right | ⟨other, isQueued, named⟩ | ⟨w, isRunning, will⟩
  · exact .inl right
  · right
    by_cases same : other = waiting
    · rw [same] at named
      rw [← Graph.row_memoryId isRow] at isRow
      exact .inr ⟨_, by simp, willShow_start now isRow named⟩
    · exact .inl ⟨other, (mem_erase_of_ne same).mpr isQueued, named⟩
  · exact .inr (.inr ⟨w, mem_append_left _ isRunning, will⟩)

end

theorem pending_turned {w' : Running} {index : List Entry}
    (isWorker : pool.running[worker]? = some w)
    (wrote : Wrote spaces w w' pool.index index) (isPending : Pending spaces pool m) :
    (∃ now, lookup m.memoryId index = shown spaces now m) ∨
      Pending spaces { pool with index, running := pool.running.set worker w' } m := by
  rcases isPending with isQueued | ⟨x, isRunning, will⟩
  · exact .inr (.inl isQueued)
  · rcases eq_or_mem_set isWorker isRunning with rfl | stays
    · refine (willShow_turned wrote will).imp_right fun will' => ?_
      exact .inr ⟨w', moved_mem_set isWorker, will'⟩
    · exact .inr (.inr ⟨x, stays, will⟩)

private theorem turn_keeps (converging : Converging spaces pool)
    (timely : Timely spaces pool (.turn worker))
    (stepped : pool.step normalizedHash spaces (.turn worker) = some next) :
    Converging spaces next := by
  simp only [step] at stepped
  obtain ⟨w, isWorker, stepped⟩ := Option.bind_eq_some_iff.mp stepped
  obtain ⟨⟨w', index⟩, turn, rfl⟩ := Option.map_eq_some_iff.mp stepped
  have wrote := turned_wrote turn
  have inTime := timely w isWorker
  constructor
  · intro memoryId m isRow
    obtain rfl := Graph.row_memoryId isRow
    by_cases own : m.memoryId ∈ w.writes.map Prod.fst
    · rcases inTime _ (wrote.own m.memoryId own) m isRow with shows | ⟨isPending, -⟩
      · exact .inl shows
      · exact pending_turned isWorker wrote isPending
    · rcases converging.entries m.memoryId m isRow with right | isPending
      · left
        rw [Right, wrote.other m.memoryId own]
        exact right
      · exact pending_turned isWorker wrote isPending
  · intro mark isMark m isRow
    have sameId : m.memoryId = mark.1 := Graph.row_memoryId isRow
    by_cases own : m.memoryId ∈ w.writes.map Prod.fst
    · rw [← sameId] at isRow
      rcases inTime _ (wrote.own m.memoryId own) m isRow with shows | ⟨-, unmarked⟩
      · exact shows
      · refine absurd (mem_map.mpr ⟨mark, isMark, ?_⟩) unmarked
        exact sameId.symm
    · rw [Right, wrote.other m.memoryId own]
      exact converging.marked mark isMark m isRow

/-- What was pending when a job left its worker is pending still, unless it was that job's. -/
theorem pending_leave (again : List Graph.Waiting) (isWorker : pool.running[worker]? = some w)
    (isPending : Pending spaces pool m) :
    WillShow spaces m w ∨ Pending spaces (pool.leave worker again) m := by
  rcases isPending with ⟨waiting, isQueued, named⟩ | isRunning
  · exact .inr (.inl ⟨waiting, mem_append_left _ isQueued, named⟩)
  · exact (exists_eraseIdx isWorker isRunning).imp_right fun others => .inr others

theorem pending_again {attempts : ℕ} (will : WillShow spaces m w) :
    Pending spaces (pool.leave worker [⟨w.job, attempts⟩]) m :=
  .inl ⟨_, mem_append_right _ (mem_singleton_self _), will.1⟩

private theorem leave_keeps {again : List Graph.Waiting} (converging : Converging spaces pool)
    (isWorker : pool.running[worker]? = some w)
    (spared : Spared spaces pool (pool.leave worker again) fun m => WillShow spaces m w) :
    Converging spaces (pool.leave worker again) := by
  refine ⟨fun memoryId m isRow => ?_, converging.marked⟩
  rcases converging.entries memoryId m isRow with right | isPending
  · exact .inl right
  · rcases pending_leave again isWorker isPending with will | others
    · obtain rfl := Graph.row_memoryId isRow
      exact spared m isRow will
    · exact .inr others

private theorem drop_keeps {waiting : Graph.Waiting} (converging : Converging spaces pool)
    (timely : Timely spaces pool (.drop waiting))
    (stepped : pool.step normalizedHash spaces (.drop waiting) = some next) :
    Converging spaces next := by
  simp only [step] at stepped
  obtain ⟨-, stepped⟩ := Option.ite_none_right_eq_some.mp stepped
  cases stepped
  refine ⟨fun memoryId m isRow => ?_, converging.marked⟩
  rcases converging.entries memoryId m isRow with right | ⟨other, isQueued, named⟩ | running
  · exact .inl right
  · by_cases same : other = waiting
    · rw [same] at named
      obtain rfl := Graph.row_memoryId isRow
      exact timely m isRow named
    · exact .inr (.inl ⟨other, (mem_erase_of_ne same).mpr isQueued, named⟩)
  · exact .inr (.inr running)

theorem mark_keeps (converging : Converging spaces pool)
    (timely : Timely spaces pool (.mark worker now))
    (stepped : pool.step normalizedHash spaces (.mark worker now) = some next) :
    Converging spaces next := by
  simp only [step] at stepped
  obtain ⟨w, isWorker, stepped⟩ := Option.bind_eq_some_iff.mp stepped
  split at stepped
  case h_2 => cases stepped
  case h_1 isUpserted =>
    cases stepped
    refine leave_keeps ⟨converging.entries, fun mark isMark m isRow => ?_⟩ isWorker
      fun m _ will => ?_
    case refine_2 =>
      obtain ⟨-, ⟨e, isAhead⟩, -⟩ := will
      rw [ahead, isUpserted] at isAhead
      cases isAhead
    case refine_1 =>
      rcases mem_append.mp isMark with wasMark | isNew
      · exact converging.marked mark (mem_filter.mp wasMark).1 m isRow
      · obtain ⟨memoryId, isFound, rfl⟩ := mem_map.mp isNew
        obtain ⟨loaded, inMemories, rfl⟩ := mem_map.mp (mem_filter.mp isFound).1
        exact timely w isWorker loaded inMemories m isRow

private theorem fail_keeps (converging : Converging spaces pool)
    (timely : Timely spaces pool (.fail worker))
    (stepped : pool.step normalizedHash spaces (.fail worker) = some next) :
    Converging spaces next := by
  simp only [step] at stepped
  obtain ⟨w, isWorker, rfl⟩ := Option.map_eq_some_iff.mp stepped
  by_cases isLast : w.lastAttempt = true
  · rw [if_pos isLast]
    exact leave_keeps converging isWorker (timely w isWorker isLast)
  · rw [if_neg isLast]
    exact leave_keeps converging isWorker fun m _ will => .inr (pending_again will)

private theorem release_keeps (converging : Converging spaces pool)
    (stepped : pool.step normalizedHash spaces (.release worker) = some next) :
    Converging spaces next := by
  simp only [step] at stepped
  obtain ⟨w, isWorker, rfl⟩ := Option.map_eq_some_iff.mp stepped
  exact leave_keeps converging isWorker fun m _ will => .inr (pending_again will)

private theorem step_keeps {move : Move}
    (stepped : pool.step normalizedHash spaces move = some next)
    (timely : Timely spaces pool move) (converging : Converging spaces pool) :
    Converging spaces next := by
  cases move with
  | commit changes job => exact commit_keeps converging stepped
  | start waiting now => exact start_keeps converging stepped
  | drop waiting => exact drop_keeps converging timely stepped
  | turn worker => exact turn_keeps converging timely stepped
  | mark worker now => exact mark_keeps converging timely stepped
  | fail worker => exact fail_keeps converging timely stepped
  | release worker => exact release_keeps converging stepped

def oneSpace : DenseSpaces where
  spaces := [⟨"dense", "plain", fun _ => []⟩]
  nonempty := by decide
  names := by decide
  encoders := by simp

/-- The memory is forgotten, and taken out of the index, while its vectors are computed. -/
def lateUpsert : List Move :=
  [.commit [.add Graph.employment] Graph.indexed, .start { job := Graph.indexed } ⟨20⟩, .turn 0,
    .turn 0, .commit [.forget ⟨30⟩ "acme" "mem_1"] Graph.indexed,
    .start { job := Graph.indexed } ⟨40⟩, .turn 1, .turn 1, .turn 1, .mark 1 ⟨50⟩, .turn 0,
    .mark 0 ⟨60⟩]

/-- The number of jobs, whether the memory has an entry, and whether it is forgotten. -/
def found (pool : Pool) : ℕ × Bool × Bool :=
  (pool.queued.length + pool.running.length, (lookup "mem_1" pool.index).isSome,
    (row "mem_1" pool.rows).any fun m => m.deletedAt ≠ none)

theorem shown_of_deleted (now : Instant) (deleted : m.deletedAt ≠ none) :
    shown spaces now m = none := by
  rw [shown, if_neg]
  exact fun shows => deleted shows.1

/-- The same job, when the memory is forgotten after it has marked the row; the second job
fails once before it takes the entry out. -/
def timelyUpsert : List Move :=
  [.commit [.add Graph.employment] Graph.indexed, .start { job := Graph.indexed } ⟨20⟩, .turn 0,
    .turn 0, .turn 0, .mark 0 ⟨25⟩, .commit [.forget ⟨30⟩ "acme" "mem_1"] Graph.indexed,
    .start { job := Graph.indexed } ⟨40⟩, .fail 0,
    .start { job := Graph.indexed, attempts := 1 } ⟨50⟩, .turn 0, .turn 0, .turn 0, .mark 0 ⟨60⟩]

/-- The condition at one instant, for runs in which no job is lost or given up. -/
def InTime (spaces : DenseSpaces) (now : Instant) (pool : Pool) : Move → Prop
  | .turn worker =>
    ∀ w ∈ pool.running[worker]?, ∀ written ∈ w.writes,
      ∀ m ∈ row written.1 pool.rows, written.2 = shown spaces now m
  | .mark worker _ =>
    ∀ w ∈ pool.running[worker]?, ∀ loaded ∈ w.memories,
      ∀ m ∈ row loaded.memoryId pool.rows, lookup m.memoryId pool.index = shown spaces now m
  | .fail worker => ∀ w ∈ pool.running[worker]?, w.lastAttempt = false
  | .drop _ => False
  | _ => True

instance (spaces : DenseSpaces) (now : Instant) (pool : Pool) (move) :
    Decidable (InTime spaces now pool move) := by
  unfold InTime
  split <;> infer_instance

theorem timely_of_inTime (pool : Pool) (move : Move)
    (inTime : InTime spaces now pool move) : Timely spaces pool move := by
  cases move with
  | turn worker =>
    intro w isWorker written isWritten m isRow
    exact .inl ⟨now, inTime w isWorker written isWritten m isRow⟩
  | mark worker at_ =>
    intro w isWorker loaded inMemories m isRow
    exact ⟨now, inTime w isWorker loaded inMemories m isRow⟩
  | fail worker =>
    intro w isWorker isLast
    rw [inTime w isWorker] at isLast
    cases isLast
  | drop waiting => exact inTime.elim
  | commit | start | release => trivial

end Pool

end MemoryService.Rag
