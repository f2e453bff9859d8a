import MemoryService.Graph.Enrichment

/-!
# Commits and enrichment jobs

A commit writes memories and queues a job that names them; a job reads the memories it names and
writes their relations.
-/

namespace MemoryService.Graph

open Domain Foundation Memory List

def Relation.isFrom (tenantId memoryId : String) (r : Relation) : Bool :=
  r.tenantId = tenantId ∧ r.memoryId = some memoryId

variable {tenantId tenant : String} {e r : Relation} {written : List Relation}

theorem isFrom_of_same_id {memoryId : String} {a b : Relation}
    (same : a.relationId = b.relationId) :
    a.isFrom tenantId memoryId = b.isFrom tenantId memoryId := by
  rw [Relation.isFrom, Relation.isFrom, Relation.tenantId, Relation.tenantId,
    Relation.memoryId, Relation.memoryId, same]

def sourced (tenantId memoryId : String) (rows : List Relation) : List Relation :=
  rows.filter (Relation.isFrom tenantId memoryId)

def Relation.settled (now : Instant) (r : Relation) : Relation :=
  if r.status = .current then r.closedAt now else r

section

variable {tenantId memoryId : String} {rows : List Relation} {now : Instant} {r : Relation}

theorem mem_sourced_iff :
    r ∈ sourced tenantId memoryId rows ↔
      r ∈ rows ∧ r.tenantId = tenantId ∧ r.memoryId = some memoryId := by
  simp [sourced, Relation.isFrom, mem_filter]

theorem settled_settled : (r.settled now).settled now = r.settled now := by
  by_cases isCurrent : r.status = .current
  · have closed : (r.closedAt now).status ≠ .current := by simp [Relation.closedAt]
    rw [Relation.settled, Relation.settled, if_pos isCurrent, if_neg closed]
  · rw [Relation.settled, Relation.settled, if_neg isCurrent, if_neg isCurrent]

theorem settled_status_ne : (r.settled now).status ≠ .current := by
  rw [Relation.settled]
  split
  case isTrue => simp [Relation.closedAt]
  case isFalse notCurrent => exact notCurrent

theorem sourced_close_own :
    sourced tenantId memoryId (supersedeForMemory tenantId memoryId now rows) =
      (sourced tenantId memoryId rows).map (Relation.settled now) := by
  induction rows with
  | nil => rfl
  | cons first rest ih =>
    rw [sourced, supersedeForMemory, updateWhere, map_cons, filter_cons,
      ← updateWhere, ← supersedeForMemory, ← sourced, ih, sourced, sourced,
      filter_cons]
    have kept : (if Relation.openFor tenantId memoryId first = true then
        first.closedAt now else first).isFrom tenantId memoryId =
        first.isFrom tenantId memoryId := by
      split <;> rfl
    rw [kept]
    by_cases own : first.isFrom tenantId memoryId = true
    · have opens : Relation.openFor tenantId memoryId first = true ↔ first.status = .current := by
        simp only [Relation.isFrom, decide_eq_true_eq] at own
        simp [Relation.openFor, own]
      rw [if_pos own, if_pos own, map_cons]
      congr 1
      by_cases isCurrent : first.status = .current
      · rw [if_pos (opens.mpr isCurrent), Relation.settled, if_pos isCurrent]
      · rw [if_neg (isCurrent ∘ opens.mp), Relation.settled, if_neg isCurrent]
    · rw [if_neg own, if_neg own]

theorem sourced_close_other {memory : String} (other : ¬(tenant = tenantId ∧ memory = memoryId)) :
    sourced tenantId memoryId (supersedeForMemory tenant memory now rows) =
      sourced tenantId memoryId rows := by
  have apart : ∀ r, Relation.openFor tenant memory r = true →
      Relation.isFrom tenantId memoryId r = false := by
    intro r opens
    simp only [Relation.openFor, decide_eq_true_eq] at opens
    obtain ⟨sameTenant, sameMemory, -⟩ := opens
    simp only [Relation.isFrom, decide_eq_false_iff_not]
    rintro ⟨tenantIs, memoryIs⟩
    refine other ⟨by rw [← sameTenant, tenantIs], ?_⟩
    rw [sameMemory] at memoryIs
    exact Option.some.inj memoryIs
  exact filter_updateWhere (fun r _ opens => apart r opens) fun r _ opens => apart r opens

structure Rewritten (written rows : List Relation) (r : Relation) : Prop where
  ends : ∃ e ∈ written, e.relationId = r.relationId ∧ e.status = r.status ∧
    e.validTo = r.validTo ∧ e.invalidatedAt = r.invalidatedAt
  starts : (∃ old ∈ rows, old.relationId = r.relationId ∧ old.validFrom = r.validFrom) ∨
    ∃ e ∈ written, e.relationId = r.relationId ∧ e.validFrom = r.validFrom

/-- A row that no written relation has the id of, or one that was written. -/
def Upserted (written rows : List Relation) (r : Relation) : Prop :=
  r ∈ rows ∧ (∀ e ∈ written, r.relationId ≠ e.relationId) ∨ Rewritten written rows r

theorem mem_upsertRelation (member : r ∈ upsertRelation rows e) :
    r ∈ rows ∧ r.relationId ≠ e.relationId ∨ r = e ∨
      ∃ old ∈ rows, old.relationId = e.relationId ∧ r = e.upserted old := by
  simp only [upsertRelation] at member
  split at member
  case isTrue =>
    rcases mem_updateWhere_cases member with ⟨old, inRows, selected, isNew⟩ | ⟨inRows, other⟩
    · exact .inr (.inr ⟨old, inRows, by simpa using selected, isNew⟩)
    · exact .inl ⟨inRows, by simpa using other⟩
  case isFalse absent =>
    rcases mem_append.mp member with isOld | isNew
    · refine .inl ⟨isOld, fun same => absent ?_⟩
      exact any_eq_true.mpr ⟨r, isOld, by simpa using same⟩
    · exact .inr (.inl (mem_singleton.mp isNew))

theorem rewritten_step (rewritten : Rewritten written (upsertRelation rows e) r) :
    Rewritten (e :: written) rows r := by
  obtain ⟨ends, starts⟩ := rewritten
  constructor
  · obtain ⟨last, isLast, facts⟩ := ends
    exact ⟨last, mem_cons_of_mem e isLast, facts⟩
  · rcases starts with ⟨old, member, sameId, start⟩ | ⟨first, isWritten, facts⟩
    · rcases mem_upsertRelation member with ⟨inRows, -⟩ | rfl | ⟨older, inRows, olderId, rfl⟩
      · exact .inl ⟨old, inRows, sameId, start⟩
      · exact .inr ⟨old, mem_cons_self, sameId, start⟩
      · exact .inl ⟨older, inRows, sameId, start⟩
    · exact .inr ⟨first, mem_cons_of_mem e isWritten, facts⟩

theorem mem_upsertRelations :
    ∀ {rows : List Relation}, r ∈ upsertRelations written rows → Upserted written rows r := by
  induction written with
  | nil =>
    intro rows member
    exact .inl ⟨member, fun e isWritten => by cases isWritten⟩
  | cons e written ih =>
    intro rows member
    rcases ih member with ⟨inMiddle, notLater⟩ | rewritten
    · rcases mem_upsertRelation inMiddle with ⟨inRows, notFirst⟩ | rfl | ⟨old, inRows, same, rfl⟩
      · exact .inl ⟨inRows, forall_mem_cons.mpr ⟨notFirst, notLater⟩⟩
      · exact .inr ⟨⟨r, mem_cons_self, rfl, rfl, rfl, rfl⟩, .inr ⟨r, mem_cons_self, rfl, rfl⟩⟩
      · exact .inr ⟨⟨e, mem_cons_self, same.symm, rfl, rfl, rfl⟩, .inl ⟨old, inRows, rfl, rfl⟩⟩
    · exact .inr (rewritten_step rewritten)

theorem sourced_upsert_other (other : ∀ e ∈ written, e.isFrom tenantId memoryId = false) :
    ∀ rows, sourced tenantId memoryId (upsertRelations written rows) =
      sourced tenantId memoryId rows := by
  induction written with
  | nil => exact fun rows => rfl
  | cons e written ih =>
    intro rows
    rw [forall_mem_cons] at other
    rw [upsertRelations, foldl_cons, ← upsertRelations, ih other.2]
    simp only [upsertRelation]
    split
    case isTrue =>
      refine filter_updateWhere (fun r _ selected => ?_) fun r _ selected => ?_
      · have same : r.relationId = e.relationId := by simpa using selected
        rw [isFrom_of_same_id same, other.1]
      · have same : r.relationId = e.relationId := by simpa using selected
        have sameUpserted : (e.upserted r).relationId = e.relationId := same
        rw [isFrom_of_same_id sameUpserted, other.1]
    case isFalse =>
      rw [sourced, filter_append, filter_singleton, other.1]
      simp [sourced]

end

theorem mem_getMany {now : Instant} {memoryIds : List String}
    {rows : List CanonicalMemory} {m : CanonicalMemory}
    (member : m ∈ getMany now tenantId memoryIds rows) :
    m.memoryId ∈ memoryIds ∧ m.tenantId = tenantId ∧
      Statements.get now tenantId m.memoryId rows = some m := by
  obtain ⟨memoryId, inIds, got⟩ := mem_filterMap.mp member
  have facts := got
  rw [Statements.get, Option.filter_eq_some_iff, Statements.row] at facts
  have sameId : m.memoryId = memoryId := by simpa using find?_some facts.1
  have sameTenant : m.tenantId = tenantId := by
    have checks := facts.2
    simp only [decide_eq_true_eq] at checks
    exact checks.1
  rw [sameId]
  exact ⟨inIds, sameTenant, got⟩

section

variable {rules : Rules} {read : CanonicalMemory → Reading} {now : Instant}
  {tenantId memoryId : String} {tables : Tables} {m : CanonicalMemory}

theorem isFrom_read (isRead : ReadFrom m e) :
    e.isFrom tenantId memoryId = true ↔ m.tenantId = tenantId ∧ m.memoryId = memoryId := by
  simp [Relation.isFrom, isRead.tenant, isRead.source]

theorem sourced_enrich_other (other : ¬(m.tenantId = tenantId ∧ m.memoryId = memoryId)) :
    sourced tenantId memoryId (tables.enrich rules now read m).relations =
      sourced tenantId memoryId tables.relations := by
  rw [Tables.enrich]
  split
  case isTrue => exact sourced_close_other other
  case isFalse =>
    refine sourced_upsert_other (fun e isWritten => ?_) tables.relations
    exact Bool.eq_false_iff.mpr fun own =>
      other ((isFrom_read (enrichMemory_readFrom e isWritten)).mp own)

theorem sourced_enrich_own (closes_ : closes m = true)
    (own : m.tenantId = tenantId ∧ m.memoryId = memoryId) :
    sourced tenantId memoryId (tables.enrich rules now read m).relations =
      (sourced tenantId memoryId tables.relations).map (Relation.settled now) := by
  obtain ⟨rfl, rfl⟩ := own
  rw [Tables.enrich, if_pos closes_]
  exact sourced_close_own

theorem sourced_foldl {α : Type} (tenantId memoryId : String) (now : Instant)
    (turn : Tables → α → Tables) (own : α → Prop) [DecidablePred own] (turns : List α)
    (settles : ∀ tables, ∀ x ∈ turns, own x →
      sourced tenantId memoryId (turn tables x).relations =
        (sourced tenantId memoryId tables.relations).map (Relation.settled now))
    (leaves : ∀ tables, ∀ x ∈ turns, ¬own x →
      sourced tenantId memoryId (turn tables x).relations =
        sourced tenantId memoryId tables.relations) :
    ∀ tables, sourced tenantId memoryId (turns.foldl turn tables).relations =
      if ∃ x ∈ turns, own x then
        (sourced tenantId memoryId tables.relations).map (Relation.settled now)
      else sourced tenantId memoryId tables.relations := by
  induction turns with
  | nil => simp
  | cons first rest ih =>
    intro tables
    have later := ih
      (fun tables x member => settles tables x (mem_cons_of_mem first member))
      (fun tables x member => leaves tables x (mem_cons_of_mem first member))
      (turn tables first)
    rw [foldl_cons, later]
    by_cases isOwn : own first
    · have someOwn : ∃ x ∈ first :: rest, own x := ⟨first, mem_cons_self, isOwn⟩
      rw [settles tables first mem_cons_self isOwn, if_pos someOwn]
      split
      case isTrue =>
        rw [map_map]
        exact map_congr_left fun r _ => settled_settled
      case isFalse => rfl
    · rw [leaves tables first mem_cons_self isOwn]
      have same : (∃ x ∈ first :: rest, own x) ↔ ∃ x ∈ rest, own x := by simp [isOwn]
      simp only [same]

variable {memoryIds : List String} {rows : List CanonicalMemory}

theorem sourced_job_other (other : ¬(tenant = tenantId ∧ memoryId ∈ memoryIds)) :
    sourced tenantId memoryId
        (enrichMemories rules read now tenant memoryIds rows tables).relations =
      sourced tenantId memoryId tables.relations := by
  have gone : ∀ tables : Tables, ∀ id ∈ missing memoryIds (getMany now tenant memoryIds rows),
      sourced tenantId memoryId (tables.close tenant id now).relations =
        sourced tenantId memoryId tables.relations := by
    intro tables id member
    refine sourced_close_other fun own => other ⟨own.1, ?_⟩
    rw [← own.2]
    exact (mem_filter.mp member).1
  have loaded : ∀ tables : Tables, ∀ m ∈ getMany now tenant memoryIds rows,
      sourced tenantId memoryId (tables.enrich rules now read m).relations =
        sourced tenantId memoryId tables.relations := by
    intro tables m member
    obtain ⟨inIds, sameTenant, -⟩ := mem_getMany member
    refine sourced_enrich_other fun own => other ⟨by rw [← sameTenant, own.1], ?_⟩
    rw [← own.2]
    exact inIds
  simp only [enrichMemories]
  rw [sourced_foldl tenantId memoryId now _ (fun _ => False) _ (by simp)
      (fun tables m member _ => loaded tables m member),
    sourced_foldl tenantId memoryId now _ (fun _ => False) _ (by simp)
      (fun tables id member _ => gone tables id member)]
  simp

theorem sourced_job_closes (named : memoryId ∈ memoryIds)
    (closes_ : ∀ m, Statements.get now tenantId memoryId rows = some m → closes m = true) :
    sourced tenantId memoryId
        (enrichMemories rules read now tenantId memoryIds rows tables).relations =
      (sourced tenantId memoryId tables.relations).map (Relation.settled now) := by
  let memories := getMany now tenantId memoryIds rows
  have afterGone := sourced_foldl tenantId memoryId now
    (fun (tables : Tables) id => tables.close tenantId id now) (fun id => id = memoryId)
    (missing memoryIds memories)
    (fun tables id _ own => by
      rw [own]
      exact sourced_close_own)
    (fun tables id _ other => sourced_close_other fun own => other own.2) tables
  have afterLoaded := sourced_foldl tenantId memoryId now (Tables.enrich rules now read)
    (fun m => m.memoryId = memoryId) memories
    (fun tables m member own => by
      obtain ⟨-, sameTenant, got⟩ := mem_getMany member
      rw [own] at got
      exact sourced_enrich_own (closes_ m got) ⟨sameTenant, own⟩)
    (fun tables m _ other => sourced_enrich_other fun own => other own.2)
    ((missing memoryIds memories).foldl (fun tables id => tables.close tenantId id now) tables)
  simp only [enrichMemories]
  rw [afterLoaded, afterGone]
  by_cases isLoaded : ∃ m ∈ memories, m.memoryId = memoryId
  · have notMissing : ¬∃ id ∈ missing memoryIds memories, id = memoryId := by
      rintro ⟨id, member, rfl⟩
      obtain ⟨m, inMemories, sameId⟩ := isLoaded
      have absent := (mem_filter.mp member).2
      simp only [decide_eq_true_eq] at absent
      exact absent (mem_map.mpr ⟨m, inMemories, sameId⟩)
    rw [if_pos isLoaded, if_neg notMissing]
  · have isMissing : ∃ id ∈ missing memoryIds memories, id = memoryId := by
      refine ⟨memoryId, mem_filter.mpr ⟨named, ?_⟩, rfl⟩
      simp only [decide_eq_true_eq]
      intro isLoadedId
      obtain ⟨m, inMemories, sameId⟩ := mem_map.mp isLoadedId
      exact isLoaded ⟨m, inMemories, sameId⟩
    rw [if_neg isLoaded, if_pos isMissing]

theorem rewritten_sourced {rows : List Relation}
    (own : r.isFrom tenantId memoryId = true) (rewritten : Rewritten written rows r) :
    Rewritten written (sourced tenantId memoryId rows) r := by
  refine ⟨rewritten.ends, rewritten.starts.imp_left fun start => ?_⟩
  obtain ⟨old, inRows, sameId, sameStart⟩ := start
  refine ⟨old, mem_filter.mpr ⟨inRows, ?_⟩, sameId, sameStart⟩
  rw [← own, isFrom_of_same_id sameId]

theorem rewritten_trans {middle rows : List Relation}
    (before : ∀ old ∈ middle, old ∈ rows ∨ Rewritten written rows old)
    (rewritten : Rewritten written middle r) : Rewritten written rows r := by
  refine ⟨rewritten.ends, ?_⟩
  rcases rewritten.starts with ⟨old, inMiddle, sameId, sameStart⟩ | isNew
  · rcases before old inMiddle with inRows | again
    · exact .inl ⟨old, inRows, sameId, sameStart⟩
    · rw [← sameId, ← sameStart]
      exact again.starts
  · exact .inr isNew

theorem sourced_writes_foldl (m : CanonicalMemory) (turns : List CanonicalMemory)
    (own : ∀ x ∈ turns, x.tenantId = tenantId ∧ x.memoryId = memoryId ↔ x = m)
    (open_ : closes m = false) :
    ∀ tables, r ∈ sourced tenantId memoryId
        (turns.foldl (Tables.enrich rules now read) tables).relations →
      (r ∈ sourced tenantId memoryId tables.relations ∧
        (m ∈ turns → ∀ e ∈ (enrichMemory rules m (read m)).relations,
          r.relationId ≠ e.relationId)) ∨
        Rewritten (enrichMemory rules m (read m)).relations
          (sourced tenantId memoryId tables.relations) r := by
  induction turns with
  | nil => exact fun tables member => .inl ⟨member, by simp⟩
  | cons first rest ih =>
    intro tables member
    have later := ih (fun x isLater => own x (mem_cons_of_mem first isLater)) _ member
    by_cases isOwn : first.tenantId = tenantId ∧ first.memoryId = memoryId
    · have isMemory : first = m := (own first mem_cons_self).mp isOwn
      rw [isMemory] at later
      have oneTurn : ∀ r ∈ sourced tenantId memoryId
          (tables.enrich rules now read m).relations,
          Upserted (enrichMemory rules m (read m)).relations
            (sourced tenantId memoryId tables.relations) r := by
        intro r isThere
        obtain ⟨inRows, isFrom⟩ := mem_filter.mp isThere
        rw [Tables.enrich, open_] at inRows
        rcases mem_upsertRelations inRows with ⟨inOld, notWritten⟩ | rewritten
        · exact .inl ⟨mem_filter.mpr ⟨inOld, isFrom⟩, notWritten⟩
        · exact .inr (rewritten_sourced isFrom rewritten)
      rcases later with ⟨inMiddle, -⟩ | rewritten
      · exact (oneTurn r inMiddle).imp_left fun untouched => ⟨untouched.1, fun _ => untouched.2⟩
      · refine .inr (rewritten_trans (fun old inMiddle => ?_) rewritten)
        exact (oneTurn old inMiddle).imp_left And.left
    · rw [sourced_enrich_other isOwn] at later
      refine later.imp_left fun untouched => ⟨untouched.1, fun inTurns => untouched.2 ?_⟩
      rcases mem_cons.mp inTurns with isFirst | isLater
      · exact absurd ((own first mem_cons_self).mpr isFirst.symm) isOwn
      · exact isLater

theorem sourced_job_writes
    (got : Statements.get now tenantId memoryId rows = some m) (open_ : closes m = false)
    (named : memoryId ∈ memoryIds) (member : r ∈ sourced tenantId memoryId
      (enrichMemories rules read now tenantId memoryIds rows tables).relations) :
    Upserted (enrichMemory rules m (read m)).relations
      (sourced tenantId memoryId tables.relations) r := by
  obtain ⟨sameTenant, sameId⟩ : m.tenantId = tenantId ∧ m.memoryId = memoryId := by
    have inOne : m ∈ getMany now tenantId [memoryId] rows := by simp [getMany, got]
    obtain ⟨inIds, sameTenant, -⟩ := mem_getMany inOne
    exact ⟨sameTenant, mem_singleton.mp inIds⟩
  have loaded : m ∈ getMany now tenantId memoryIds rows := mem_filterMap.mpr ⟨memoryId, named, got⟩
  have notMissing : ∀ id ∈ missing memoryIds (getMany now tenantId memoryIds rows),
      ¬id = memoryId := by
    rintro id isMissing rfl
    have absent := (mem_filter.mp isMissing).2
    simp only [decide_eq_true_eq] at absent
    exact absent (mem_map.mpr ⟨m, loaded, sameId⟩)
  have writes := sourced_writes_foldl m (getMany now tenantId memoryIds rows)
    (fun x isLoaded => by
      constructor
      · intro own
        obtain ⟨-, -, gotAgain⟩ := mem_getMany isLoaded
        rw [own.2, got] at gotAgain
        exact (Option.some.inj gotAgain).symm
      · intro same
        rw [same]
        exact ⟨sameTenant, sameId⟩)
    open_ _ member
  have gone := sourced_foldl tenantId memoryId now
    (fun (tables : Tables) id => tables.close tenantId id now) (fun _ => False)
    (missing memoryIds (getMany now tenantId memoryIds rows)) (by simp)
    (fun tables id isMissing _ => sourced_close_other fun own => notMissing id isMissing own.2)
    tables
  simp only [and_false, exists_false, if_false] at gone
  rw [gone] at writes
  exact writes.imp_left fun untouched => ⟨untouched.1, untouched.2 loaded⟩

end

end MemoryService.Graph
