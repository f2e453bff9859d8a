import MemoryService.Feedback.Votes

/-!
# A row through a list of writes

The rows are followed one at a time.  A row is written by its own update and retracted by
the update of what it was derived from, whichever comes last.
-/

namespace MemoryService.Feedback.Votes

open Domain Foundation Memory List Statements

def core (r : CanonicalMemory) : CanonicalMemory := { r with updatedAt := ⟨0⟩, revision := 0 }

def After : List String → String → String → Prop
  | [], _, _ => False
  | first :: rest, source, target =>
    if first = source then target ∈ rest else After rest source target

instance decidableAfter : ∀ (order : List String) (source target : String),
    Decidable (After order source target)
  | [], _, _ => .isFalse id
  | first :: rest, source, target => by
    have := decidableAfter rest source target
    rw [After]
    infer_instance

variable {order : List String} {source target tenantId memoryId : String} {α : Type}
  {column : CanonicalMemory → α} {a b m : CanonicalMemory} {rows : List CanonicalMemory}
  {f : CanonicalMemory → CanonicalMemory} {now : Instant} {store : Store}

theorem After.mem (after : After order source target) : target ∈ order := by
  induction order with
  | nil => exact after.elim
  | cons first rest ih =>
    rw [After] at after
    split at after
    case isTrue _ => exact mem_cons_of_mem first after
    case isFalse _ => exact mem_cons_of_mem first (ih after)

theorem After.of_cons {first : String} {rest : List String}
    (after : After (first :: rest) source target) (isOther : first ≠ source) :
    After rest source target := by
  rw [After, if_neg isOther] at after
  exact after

def writeRow (now : Instant) (store : Store) (m r : CanonicalMemory) : CanonicalMemory :=
  let r := if r.memoryId = m.memoryId ∧ r.tenantId = m.tenantId then
    written m r else r
  if r.tenantId = m.tenantId ∧ r.temporal.status ≠ .retracted ∧
      r.memoryId ∈ store.derived m.tenantId m.memoryId then
    invalidated now r
  else r

def writeRows (now : Instant) (store : Store) (memories : List CanonicalMemory)
    (r : CanonicalMemory) : CanonicalMemory :=
  memories.foldl (fun r m => writeRow now store m r) r

theorem update_rows (now : Instant) (store : Store) (m : CanonicalMemory) :
    (store.update now m).rows = store.rows.map (writeRow now store m) := by
  rw [Store.update, Statements.update, updateWhere, updateWhere, map_map]
  refine map_congr_left fun r _ => ?_
  rw [writeRow, Function.comp_apply]
  simp only [decide_eq_true_eq]

theorem updateAll_rows (now : Instant) (store : Store) (memories : List CanonicalMemory) :
    (store.updateAll now memories).rows = store.rows.map (writeRows now store memories) ∧
      (store.updateAll now memories).dependencies = store.dependencies := by
  induction memories generalizing store with
  | nil =>
    refine ⟨?_, rfl⟩
    exact (map_id store.rows).symm
  | cons m rest ih =>
    obtain ⟨rows, dependencies⟩ := ih (store.update now m)
    refine ⟨?_, dependencies⟩
    rw [Store.updateAll, foldl_cons, ← Store.updateAll, rows, update_rows, map_map]
    rfl

section Writes

variable {now : Instant} {store : Store} {tenantId : String}
  {memories : List CanonicalMemory} {m r : CanonicalMemory}

theorem writeRows_cons :
    writeRows now store (m :: memories) r =
      writeRows now store memories (writeRow now store m r) := rfl

/-- A column that neither an invalidation nor another memory's write touches. -/
structure Column {α : Type} (column : CanonicalMemory → α) : Prop where
  written : ∀ m r, column (written m r) = column m
  invalidated : ∀ now r, column (invalidated now r) = column r

theorem writeRow_of_other (isOther : r.memoryId ≠ m.memoryId) :
    writeRow now store m r =
      if r.tenantId = m.tenantId ∧ r.temporal.status ≠ .retracted ∧
          r.memoryId ∈ store.derived m.tenantId m.memoryId then invalidated now r
      else r := by
  have notOwn : ¬(r.memoryId = m.memoryId ∧ r.tenantId = m.tenantId) := fun same => isOther same.1
  simp only [writeRow, if_neg notOwn]

theorem writeRow_of_own (sameId : r.memoryId = m.memoryId)
    (sameTenant : r.tenantId = m.tenantId)
    (notDerived : m.memoryId ∉ store.derived m.tenantId m.memoryId) :
    writeRow now store m r = written m r := by
  simp only [writeRow, if_pos (And.intro sameId sameTenant)]
  exact if_neg fun derived => notDerived derived.2.2

theorem writeRow_id (m r : CanonicalMemory) :
    (writeRow now store m r).memoryId = r.memoryId ∧
      (writeRow now store m r).tenantId = r.tenantId := by
  rw [writeRow]
  split_ifs with isOwn isDerived isDerived
  · exact ⟨isOwn.1.symm, rfl⟩
  · exact ⟨isOwn.1.symm, rfl⟩
  · exact ⟨rfl, rfl⟩
  · exact ⟨rfl, rfl⟩

theorem writeRows_id (memories : List CanonicalMemory) (r : CanonicalMemory) :
    (writeRows now store memories r).memoryId = r.memoryId ∧
      (writeRows now store memories r).tenantId = r.tenantId := by
  induction memories generalizing r with
  | nil => exact ⟨rfl, rfl⟩
  | cons m rest ih =>
    rw [writeRows_cons]
    have one := @writeRow_id now store m r
    have others := ih (writeRow now store m r)
    exact ⟨others.1.trans one.1, others.2.trans one.2⟩

section

variable (isColumn : Column column)
include isColumn

theorem writeRow_column :
    column (writeRow now store m r) =
      if r.memoryId = m.memoryId ∧ r.tenantId = m.tenantId then column m else column r := by
  rw [writeRow]
  split_ifs
  · rw [isColumn.invalidated, isColumn.written]
  · rw [isColumn.written]
  · rw [isColumn.invalidated]
  · rfl

theorem writeRows_column_other
    (others : ∀ m ∈ memories, r.memoryId = m.memoryId → r.tenantId ≠ m.tenantId) :
    column (writeRows now store memories r) = column r := by
  induction memories generalizing r with
  | nil => rfl
  | cons m rest ih =>
    rw [writeRows_cons]
    have isOther : ¬(r.memoryId = m.memoryId ∧ r.tenantId = m.tenantId) := by
      intro same
      exact others m mem_cons_self same.1 same.2
    have columnOne : column (writeRow now store m r) = column r := by
      rw [writeRow_column isColumn, if_neg isOther]
    rw [ih, columnOne]
    intro other member
    obtain ⟨sameId, sameTenant⟩ := @writeRow_id now store m r
    rw [sameId, sameTenant]
    exact others other (mem_cons_of_mem m member)

theorem writeRows_column_own
    (unique : (memories.map CanonicalMemory.memoryId).Nodup)
    (member : m ∈ memories) (sameId : r.memoryId = m.memoryId)
    (sameTenant : r.tenantId = m.tenantId) :
    column (writeRows now store memories r) = column m := by
  induction memories generalizing r with
  | nil => cases member
  | cons first rest ih =>
    rw [writeRows_cons]
    rw [map_cons, nodup_cons] at unique
    obtain ⟨keptId, keptTenant⟩ := @writeRow_id now store first r
    rcases mem_cons.mp member with isFirst | isLater
    · rw [writeRows_column_other isColumn]
      · rw [writeRow_column isColumn, ← isFirst, if_pos ⟨sameId, sameTenant⟩]
      · intro other isOther same
        rw [keptId, sameId, isFirst] at same
        exact absurd (mem_map.mpr ⟨other, isOther, same.symm⟩) unique.1
    · exact ih unique.2 isLater (keptId.trans sameId) (keptTenant.trans sameTenant)

theorem writeRows_column_same
    (writes : ∀ m ∈ memories, r.memoryId = m.memoryId → column m = column r) :
    column (writeRows now store memories r) = column r := by
  induction memories generalizing r with
  | nil => rfl
  | cons m rest ih =>
    have one : column (writeRow now store m r) = column r := by
      rw [writeRow_column isColumn]
      split
      case isTrue isOwn => exact writes m mem_cons_self isOwn.1
      case isFalse _ => rfl
    rw [writeRows_cons, ih, one]
    intro other isOther same
    rw [(@writeRow_id now store m r).1] at same
    rw [one]
    exact writes other (mem_cons_of_mem m isOther) same

end

theorem column_validTo : Column fun r => r.temporal.validTo := ⟨fun _ _ => rfl, fun _ _ => rfl⟩

theorem column_replacedBy : Column fun r => r.systemMetadata.replacedBy :=
  ⟨fun _ _ => rfl, fun _ _ => rfl⟩

theorem writeRows_retracted (isRetracted : r.temporal.status = .retracted)
    (notWritten : ∀ m ∈ memories, r.memoryId ≠ m.memoryId) :
    writeRows now store memories r = r := by
  induction memories with
  | nil => rfl
  | cons m rest ih =>
    have unchanged : writeRow now store m r = r := by
      rw [writeRow_of_other (notWritten m mem_cons_self), if_neg]
      exact fun derived => derived.2.1 isRetracted
    rw [writeRows_cons, unchanged]
    exact ih fun other member => notWritten other (mem_cons_of_mem m member)

theorem writeRows_status {status : TemporalStatus}
    (before : r.temporal.status = status ∨ r.temporal.status = .retracted)
    (writes : ∀ m ∈ memories, r.memoryId = m.memoryId → m.temporal.status = status) :
    (writeRows now store memories r).temporal.status = status ∨
      (writeRows now store memories r).temporal.status = .retracted := by
  induction memories generalizing r with
  | nil => exact before
  | cons m rest ih =>
    rw [writeRows_cons]
    apply ih
    · rw [writeRow]
      split_ifs with isOwn isDerived isDerived
      · exact .inr rfl
      · exact .inl (writes m mem_cons_self isOwn.1)
      · exact .inr rfl
      · exact before
    · intro other member same
      rw [(@writeRow_id now store m r).1] at same
      exact writes other (mem_cons_of_mem m member) same

theorem writeRows_retires (member : m ∈ memories) (sameId : r.memoryId = m.memoryId)
    (sameTenant : r.tenantId = m.tenantId)
    (writes : ∀ m ∈ memories, r.memoryId = m.memoryId → m.temporal.status = .retracted) :
    (writeRows now store memories r).temporal.status = .retracted := by
  induction memories generalizing r with
  | nil => cases member
  | cons first rest ih =>
    rw [writeRows_cons]
    obtain ⟨keptId, keptTenant⟩ := @writeRow_id now store first r
    have later : ∀ m ∈ rest, (writeRow now store first r).memoryId = m.memoryId →
        m.temporal.status = .retracted := by
      intro other isOther same
      rw [keptId] at same
      exact writes other (mem_cons_of_mem first isOther) same
    rcases mem_cons.mp member with isFirst | isLater
    · have isRetracted : (writeRow now store first r).temporal.status = .retracted := by
        rw [← isFirst, writeRow]
        simp only [if_pos (And.intro sameId sameTenant)]
        split_ifs
        · rfl
        · exact writes m member sameId
      rcases writeRows_status (.inl isRetracted) later with ends | ends
      · exact ends
      · exact ends
    · exact ih isLater (keptId.trans sameId) (keptTenant.trans sameTenant) later

theorem writeRows_unspared (unique : (memories.map CanonicalMemory.memoryId).Nodup)
    (member : m ∈ memories) (sameTenant : r.tenantId = m.tenantId)
    (isDerived : r.memoryId ∈ store.derived m.tenantId m.memoryId)
    (notAfter : ¬After (memories.map CanonicalMemory.memoryId) m.memoryId r.memoryId) :
    (writeRows now store memories r).temporal.status = .retracted := by
  induction memories generalizing r with
  | nil => cases member
  | cons first rest ih =>
    rw [writeRows_cons]
    obtain ⟨keptId, keptTenant⟩ := @writeRow_id now store first r
    rw [map_cons, nodup_cons] at unique
    rcases mem_cons.mp member with isFirst | isLater
    · rw [map_cons, After, if_pos (by rw [isFirst])] at notAfter
      have isRetracted : (writeRow now store first r).temporal.status = .retracted := by
        rw [← isFirst, writeRow]
        split_ifs with isOwn isLast isLast
        · rfl
        · by_contra standing
          rw [isOwn.1] at isDerived
          exact isLast ⟨sameTenant, standing, isDerived⟩
        · rfl
        · by_contra standing
          exact isLast ⟨sameTenant, standing, isDerived⟩
      rw [writeRows_retracted isRetracted]
      · exact isRetracted
      · intro other isOther same
        rw [keptId] at same
        exact notAfter (mem_map.mpr ⟨other, isOther, same.symm⟩)
    · apply ih unique.2 isLater (keptTenant.trans sameTenant)
      · rw [keptId]
        exact isDerived
      · rw [keptId]
        intro after
        apply notAfter
        rw [map_cons, After, if_neg]
        · exact after
        · intro same
          exact unique.1 (mem_map.mpr ⟨m, isLater, same.symm⟩)

theorem writeRows_other (notWritten : ∀ m ∈ memories, r.memoryId ≠ m.memoryId)
    (notDerived : ∀ m ∈ memories, r.tenantId = m.tenantId →
      r.memoryId ∉ store.derived m.tenantId m.memoryId) :
    writeRows now store memories r = r := by
  induction memories with
  | nil => rfl
  | cons m rest ih =>
    have unchanged : writeRow now store m r = r := by
      rw [writeRow_of_other (notWritten m mem_cons_self), if_neg]
      exact fun derived => notDerived m mem_cons_self derived.1 derived.2.2
    rw [writeRows_cons, unchanged]
    apply ih
    · exact fun other member => notWritten other (mem_cons_of_mem m member)
    · exact fun other member => notDerived other (mem_cons_of_mem m member)

/-- The columns an update does not assign are the row's. -/
structure Keeps (m r : CanonicalMemory) : Prop where
  memoryId : m.memoryId = r.memoryId
  tenantId : m.tenantId = r.tenantId
  scopeKey : m.scopeKey = r.scopeKey
  ownerPrincipal : m.ownerPrincipal = r.ownerPrincipal
  observedAt : m.temporal.observedAt = r.temporal.observedAt
  expiresAt : m.systemMetadata.expiresAt = r.systemMetadata.expiresAt
  deletedAt : m.deletedAt = r.deletedAt

theorem Keeps.refl (r : CanonicalMemory) : Keeps r r := ⟨rfl, rfl, rfl, rfl, rfl, rfl, rfl⟩

theorem core_written (keeps : Keeps m r) : core (written m r) = core m := by
  rw [written, ← keeps.tenantId, ← keeps.scopeKey, ← keeps.ownerPrincipal,
    ← keeps.observedAt, ← keeps.expiresAt, ← keeps.deletedAt, Option.or_self]
  rfl

theorem Keeps.writeRow {other : CanonicalMemory} (keeps : Keeps m r)
    (isOther : r.memoryId ≠ other.memoryId) : Keeps m (writeRow now store other r) := by
  rw [writeRow_of_other isOther]
  split_ifs
  · exact
      { memoryId := keeps.memoryId
        tenantId := keeps.tenantId
        scopeKey := keeps.scopeKey
        ownerPrincipal := keeps.ownerPrincipal
        observedAt := keeps.observedAt
        expiresAt := keeps.expiresAt
        deletedAt := keeps.deletedAt }
  · exact keeps

def bare (r : CanonicalMemory) : CanonicalMemory :=
  core { r with temporal := { r.temporal with status := .current, validTo := none } }

theorem fields_of_bare (same : bare a = bare b) :
    a.temporal.observedAt = b.temporal.observedAt ∧ a.systemMetadata = b.systemMetadata ∧
      a.deletedAt = b.deletedAt ∧ a.scopeKey = b.scopeKey ∧
      a.ownerPrincipal = b.ownerPrincipal ∧ a.normalizedHash = b.normalizedHash ∧
      a.evidence = b.evidence := by
  have observedAt : (bare a).temporal.observedAt = (bare b).temporal.observedAt := by rw [same]
  have systemMetadata : (bare a).systemMetadata = (bare b).systemMetadata := by rw [same]
  have deletedAt : (bare a).deletedAt = (bare b).deletedAt := by rw [same]
  have scopeKey : (bare a).scopeKey = (bare b).scopeKey := by rw [same]
  have owner : (bare a).ownerPrincipal = (bare b).ownerPrincipal := by rw [same]
  have hash : (bare a).normalizedHash = (bare b).normalizedHash := by rw [same]
  have evidence : (bare a).evidence = (bare b).evidence := by rw [same]
  exact ⟨observedAt, systemMetadata, deletedAt, scopeKey, owner, hash, evidence⟩

theorem id_of_bare (same : bare a = bare b) :
    a.memoryId = b.memoryId ∧ a.tenantId = b.tenantId := by
  have memoryId : (bare a).memoryId = (bare b).memoryId := by rw [same]
  have tenantId : (bare a).tenantId = (bare b).tenantId := by rw [same]
  exact ⟨memoryId, tenantId⟩

theorem Keeps.of_bare (same : bare m = bare r) : Keeps m r := by
  obtain ⟨observedAt, metadata, deletedAt, scopeKey, owner, -, -⟩ := fields_of_bare same
  obtain ⟨memoryId, tenantId⟩ := id_of_bare same
  exact ⟨memoryId, tenantId, scopeKey, owner, observedAt, by rw [metadata], deletedAt⟩

theorem bare_core (r : CanonicalMemory) : bare (core r) = bare r := rfl

theorem writeRows_bare (writes : ∀ m ∈ memories, r.memoryId = m.memoryId → bare m = bare r) :
    bare (writeRows now store memories r) = bare r := by
  induction memories generalizing r with
  | nil => rfl
  | cons m rest ih =>
    have one : bare (writeRow now store m r) = bare r := by
      rw [writeRow]
      by_cases isOwn : r.memoryId = m.memoryId ∧ r.tenantId = m.tenantId
      · have same := writes m mem_cons_self isOwn.1
        have written : bare (written m r) = bare r := by
          rw [← bare_core, core_written (Keeps.of_bare same), bare_core, same]
        simp only [if_pos isOwn]
        split_ifs
        · exact written
        · exact written
      · simp only [if_neg isOwn]
        split_ifs
        · rfl
        · rfl
    rw [writeRows_cons, ih, one]
    intro other isOther same
    rw [one]
    rw [(@writeRow_id now store m r).1] at same
    exact writes other (mem_cons_of_mem m isOther) same

theorem writeRows_own (unique : (memories.map CanonicalMemory.memoryId).Nodup)
    (member : m ∈ memories) (keeps : Keeps m r)
    (spared : ∀ other ∈ memories, r.tenantId = other.tenantId →
      r.memoryId ∈ store.derived other.tenantId other.memoryId →
        After (memories.map CanonicalMemory.memoryId) other.memoryId r.memoryId) :
    core (writeRows now store memories r) = core m := by
  induction memories generalizing r with
  | nil => cases member
  | cons first rest ih =>
    rw [writeRows_cons]
    rw [map_cons, nodup_cons] at unique
    have sparedLater : ∀ other ∈ rest, r.tenantId = other.tenantId →
        r.memoryId ∈ store.derived other.tenantId other.memoryId →
          After (rest.map CanonicalMemory.memoryId) other.memoryId r.memoryId := by
      intro other isOther sameTenant isDerived
      have after := spared other (mem_cons_of_mem first isOther) sameTenant isDerived
      apply after.of_cons
      intro same
      exact unique.1 (mem_map.mpr ⟨other, isOther, same.symm⟩)
    by_cases isFirst : first.memoryId = r.memoryId
    · -- its own write is the last that touches it
      have notLater : r.memoryId ∉ rest.map CanonicalMemory.memoryId := by
        rw [← isFirst]
        exact unique.1
      have same : m = first := by
        rcases mem_cons.mp member with isHead | isLater
        · exact isHead
        · rw [← keeps.memoryId] at notLater
          exact absurd (mem_map_of_mem isLater) notLater
      have sameTenant : r.tenantId = first.tenantId := by
        rw [← keeps.tenantId, same]
      have written : writeRow now store first r = written first r := by
        apply writeRow_of_own isFirst.symm sameTenant
        intro derived
        rw [isFirst] at derived
        have after := spared first mem_cons_self sameTenant (by rw [isFirst]; exact derived)
        rw [map_cons, After, if_pos rfl] at after
        exact notLater after
      have untouched : writeRows now store rest (Statements.written first r) =
          Statements.written first r := by
        apply writeRows_other
        · intro other isOther sameId
          apply unique.1
          exact mem_map.mpr ⟨other, isOther, sameId.symm⟩
        · intro other isOther sameTenant isDerived
          have derived : r.memoryId ∈ store.derived other.tenantId other.memoryId := by
            rw [← isFirst]
            exact isDerived
          exact notLater (sparedLater other isOther sameTenant derived).mem
      rw [written, untouched, ← same, core_written keeps]
    · have isLater : m ∈ rest := by
        rcases mem_cons.mp member with isHead | isLater
        · rw [← isHead] at isFirst
          exact absurd keeps.memoryId isFirst
        · exact isLater
      obtain ⟨keptId, keptTenant⟩ := @writeRow_id now store first r
      apply ih unique.2 isLater (keeps.writeRow (Ne.symm isFirst))
      rw [keptId, keptTenant]
      exact sparedLater

end Writes

/-- If it stands and is derived from what is written, it is written later itself. -/
def SparedRow (store : Store) (tenantId : String) (order : List String)
    (r : CanonicalMemory) : Prop :=
  r.tenantId = tenantId → r.temporal.status ≠ .retracted →
    ∀ source ∈ order, r.memoryId ∈ store.derived tenantId source → After order source r.memoryId
deriving Decidable

/-- Writing memories in an order retracts nothing for good. -/
def Spared (store : Store) (tenantId : String) (order : List String) : Prop :=
  ∀ r ∈ store.rows, SparedRow store tenantId order r
deriving Decidable

def lasts (later : Instant) (m : CanonicalMemory) : Bool :=
  ¬(isDerived m ∧ m.systemMetadata.expiresAt.join.any fun expiresAt => expiresAt ≤ later)

theorem isDerived_congr (same : a.systemMetadata = b.systemMetadata) :
    isDerived a = isDerived b := by
  rw [isDerived, isDerived, same]

theorem lasts_congr {later : Instant} (same : a.systemMetadata = b.systemMetadata) :
    lasts later a = lasts later b := by
  rw [lasts, lasts, isDerived_congr same, same]

theorem fields_of_core (same : core a = core b) :
    a.temporal = b.temporal ∧ a.systemMetadata = b.systemMetadata ∧
      a.confidence = b.confidence ∧ a.reinforcementCount = b.reinforcementCount ∧
      a.deletedAt = b.deletedAt := by
  have temporal : (core a).temporal = (core b).temporal := by rw [same]
  have systemMetadata : (core a).systemMetadata = (core b).systemMetadata := by rw [same]
  have confidence : (core a).confidence = (core b).confidence := by rw [same]
  have count : (core a).reinforcementCount = (core b).reinforcementCount := by rw [same]
  have deletedAt : (core a).deletedAt = (core b).deletedAt := by rw [same]
  exact ⟨temporal, systemMetadata, confidence, count, deletedAt⟩

theorem row_of_mem {r : CanonicalMemory}
    (unique : (rows.map CanonicalMemory.memoryId).Nodup) (stored : r ∈ rows) :
    row r.memoryId rows = some r := by
  rw [row]
  obtain ⟨found, isFound⟩ : ∃ found, rows.find? (fun m => m.memoryId = r.memoryId) =
      some found := by
    rw [← Option.isSome_iff_exists, find?_isSome]
    exact ⟨r, stored, by simp⟩
  rw [isFound]
  congr 1
  apply inj_on_of_nodup_map unique (mem_of_find?_eq_some isFound) stored
  simpa using find?_some isFound

theorem row_map (sameId : ∀ r, (f r).memoryId = r.memoryId) (memoryId : String) :
    row memoryId (rows.map f) = (row memoryId rows).map f := by
  rw [row, row, find?_map]
  congr 2
  funext r
  simp only [Function.comp_apply, sameId]

theorem get_eq_some :
    Statements.get now tenantId memoryId rows = some m ↔
      row memoryId rows = some m ∧ m.tenantId = tenantId ∧
        m.deletedAt = none ∧ invalidDerived now m = false := by
  rw [Statements.get, Option.filter_eq_some_iff]
  simp only [decide_eq_true_eq, Bool.not_eq_true]

theorem valid_iff_lasts (standing : m.temporal.status ≠ .retracted) :
    invalidDerived now m = false ↔ lasts now m = true := by
  rw [invalidDerived, lasts]
  cases isDerived m <;> simp [standing]

section

variable (unique : (store.rows.map CanonicalMemory.memoryId).Nodup)
include unique

theorem current_eq_some :
    store.current now tenantId memoryId = some m ↔
      m ∈ store.rows ∧ m.memoryId = memoryId ∧ m.tenantId = tenantId ∧
        m.deletedAt = none ∧ m.temporal.status = .current ∧ lasts now m = true := by
  rw [Store.current, Option.filter_eq_some_iff, get_eq_some]
  constructor
  · intro found
    obtain ⟨⟨isRow, sameTenant, standing, valid⟩, isCurrent⟩ := found
    rw [row] at isRow
    have isCurrent := of_decide_eq_true isCurrent
    refine ⟨mem_of_find?_eq_some isRow, by simpa using find?_some isRow, sameTenant,
      standing, isCurrent, ?_⟩
    exact (valid_iff_lasts (by rw [isCurrent]; decide)).mp valid
  · intro found
    obtain ⟨stored, isNamed, sameTenant, standing, isCurrent, lasting⟩ := found
    refine ⟨⟨?_, sameTenant, standing, ?_⟩, by simp [isCurrent]⟩
    · rw [← isNamed]
      exact row_of_mem unique stored
    · exact (valid_iff_lasts (by rw [isCurrent]; decide)).mpr lasting

theorem row_written
    (sameId : ∀ r, (f r).memoryId = r.memoryId) (stored : m ∈ store.rows) :
    row m.memoryId (store.rows.map f) = some (f m) := by
  rw [row_map sameId, row_of_mem unique stored]
  rfl

end

section Phase

variable {now : Instant} {store : Store} {tenantId : String}
  {memories : List CanonicalMemory} {m r : CanonicalMemory}

theorem derived_updateAll (now : Instant) (store : Store) (memories : List CanonicalMemory) :
    (store.updateAll now memories).derived = store.derived := by
  funext tenant source
  rw [Store.derived, Store.edges, (updateAll_rows now store memories).2]
  rfl

theorem updateAll_unique (unique : (store.rows.map CanonicalMemory.memoryId).Nodup) :
    ((store.updateAll now memories).rows.map CanonicalMemory.memoryId).Nodup := by
  rw [(updateAll_rows now store memories).1, map_map]
  have sameIds : CanonicalMemory.memoryId ∘ writeRows now store memories =
      CanonicalMemory.memoryId := by
    funext r
    exact (@writeRows_id now store memories r).1
  rw [sameIds]
  exact unique

section

variable (tenant : ∀ m ∈ memories, m.tenantId = tenantId)
include tenant

theorem phase_other
    (spared : SparedRow store tenantId (memories.map CanonicalMemory.memoryId) r)
    (notWritten : r.memoryId ∉ memories.map CanonicalMemory.memoryId) :
    writeRows now store memories r = r := by
  have others : ∀ m ∈ memories, r.memoryId ≠ m.memoryId := by
    intro m member same
    exact notWritten (mem_map.mpr ⟨m, member, same.symm⟩)
  by_cases isRetracted : r.temporal.status = .retracted
  · exact writeRows_retracted isRetracted others
  · apply writeRows_other others
    intro m member sameTenant isDerived
    rw [tenant m member] at sameTenant isDerived
    exact notWritten
      (spared sameTenant isRetracted m.memoryId (mem_map_of_mem member) isDerived).mem

theorem phase_own
    (unique : (memories.map CanonicalMemory.memoryId).Nodup)
    (member : m ∈ memories) (keeps : Keeps m r)
    (spared : ∀ source ∈ memories.map CanonicalMemory.memoryId,
      r.memoryId ∈ store.derived tenantId source →
        After (memories.map CanonicalMemory.memoryId) source r.memoryId) :
    core (writeRows now store memories r) = core m := by
  apply writeRows_own unique member keeps
  intro other isOther sameTenant isDerived
  rw [tenant other isOther] at isDerived
  exact spared other.memoryId (mem_map_of_mem isOther) isDerived

end

theorem exists_unspared (notSpared : ¬Spared store tenantId order) :
    ∃ r ∈ store.rows, r.tenantId = tenantId ∧ r.temporal.status ≠ .retracted ∧
      ∃ source ∈ order, r.memoryId ∈ store.derived tenantId source ∧
        ¬After order source r.memoryId := by
  by_contra noneSuch
  apply notSpared
  intro r stored sameTenant standing source isSource isDerived
  by_contra notAfter
  exact noneSuch ⟨r, stored, sameTenant, standing, source, isSource, isDerived, notAfter⟩

theorem phase_unspared (tenant : ∀ m ∈ memories, m.tenantId = tenantId)
    (unique : (memories.map CanonicalMemory.memoryId).Nodup)
    (sameTenant : r.tenantId = tenantId) {source : String}
    (isSource : source ∈ memories.map CanonicalMemory.memoryId)
    (isDerived : r.memoryId ∈ store.derived tenantId source)
    (notAfter : ¬After (memories.map CanonicalMemory.memoryId) source r.memoryId) :
    (writeRows now store memories r).temporal.status = .retracted := by
  obtain ⟨m, member, rfl⟩ := mem_map.mp isSource
  apply writeRows_unspared unique member
  · rw [sameTenant, tenant m member]
  · rw [tenant m member]
    exact isDerived
  · exact notAfter

end Phase

end MemoryService.Feedback.Votes
