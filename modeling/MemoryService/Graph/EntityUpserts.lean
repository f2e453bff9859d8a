import MemoryService.Foundation.Least
import MemoryService.Foundation.OnConflict
import MemoryService.Graph.Relations
import Mathlib.Data.List.Induction
import Mathlib.Data.String.Basic

/-!
# Entities that are given again

An entity comes in batches. The store in memory merges every mention with the row that is there.
-/

namespace MemoryService.Graph.EntityUpserts

open Foundation Option List

/-- `Entity`, as both stores keep it. -/
structure EntityRow extends Entity where
  name : String
  entityType : String := "THING"
  aliases : List String := []
  revision : Nat := 1

/-- The aliases that are kept, `[:20]`. -/
def aliasesKept : Nat := 20

def lookup (x : EntityId) (rows : List EntityRow) : Option EntityRow :=
  rows.find? fun r => r.entityId = x

/-- `INSERT … ON CONFLICT (uq_graph_entity) DO UPDATE`, the row in `before` being the one that
the batch began with. -/
def upsertEntity (before written : List EntityRow) (e : EntityRow) : List EntityRow :=
  let prev := lookup e.entityId before
  let keys := mergedKeys e.visibilityKeys (prev.elim [] fun r => r.visibilityKeys)
  let aliases := (mergedKeys e.aliases (prev.elim [] fun r => r.aliases)).take aliasesKept
  insertOrMerge (fun r : EntityRow => r.entityId)
    { e with aliases, visibilityKeys := keys, revision := 1 }
    (fun r =>
      { r with
        mentionCount := r.mentionCount + 1
        aliases
        visibilityKeys := keys
        revision := r.revision + 1 })
    written

def upsertEntities (entities rows : List EntityRow) : List EntityRow :=
  entities.foldl (upsertEntity rows) rows

def merged (e prev : EntityRow) : EntityRow :=
  { prev with
    mentionCount := prev.mentionCount + 1
    aliases := mergedKeys prev.aliases e.aliases
    visibilityKeys := mergedKeys prev.visibilityKeys e.visibilityKeys
    revision := prev.revision + 1 }

def memoryUpsertEntity (rows : List EntityRow) (e : EntityRow) : List EntityRow :=
  insertOrMerge (fun r : EntityRow => r.entityId) e (merged e) rows

def memoryUpsertEntities (entities rows : List EntityRow) : List EntityRow :=
  entities.foldl memoryUpsertEntity rows

def stored (batches : List (List EntityRow)) : List EntityRow :=
  batches.foldl (fun rows batch => upsertEntities batch rows) []

def memoryStored (batches : List (List EntityRow)) : List EntityRow :=
  batches.foldl (fun rows batch => memoryUpsertEntities batch rows) []

variable {batch rows : List EntityRow} {texts : EntityRow → List String}
  {batches : List (List EntityRow)}

section

variable {before written rows : List EntityRow} {e r : EntityRow} {x : EntityId}

def column (texts : EntityRow → List String) (x : EntityId) (rows : List EntityRow) :
    List String :=
  (lookup x rows).elim [] texts

theorem lookup_upsertEntity (before written : List EntityRow) (e : EntityRow) :
    ∃ r, lookup e.entityId (upsertEntity before written e) = some r ∧
      r.visibilityKeys = mergedKeys e.visibilityKeys (column (·.visibilityKeys) e.entityId before) ∧
      r.aliases =
        (mergedKeys e.aliases (column (·.aliases) e.entityId before)).take aliasesKept := by
  rw [upsertEntity, lookup, find?_insertOrMerge, if_pos rfl]
  · refine ⟨_, rfl, ?_⟩
    cases written.find? fun r => r.entityId = e.entityId <;> exact ⟨rfl, rfl⟩
  · exact fun _ => rfl

theorem lookup_upsertEntity_other (isOther : e.entityId ≠ x) :
    lookup x (upsertEntity before written e) = lookup x written := by
  rw [upsertEntity, lookup, find?_insertOrMerge, if_neg isOther, lookup]
  exact fun _ => rfl

theorem lookup_memoryUpsertEntity (rows : List EntityRow) (e : EntityRow) (x : EntityId) :
    lookup x (memoryUpsertEntity rows e) =
      if e.entityId = x then some ((lookup x rows).elim e (merged e)) else lookup x rows := by
  rw [memoryUpsertEntity, lookup, find?_insertOrMerge, lookup]
  exact fun _ => rfl

variable (entities : List EntityRow)

theorem upsertEntities_nodup (unique : (rows.map fun r => r.entityId).Nodup) :
    ((upsertEntities entities rows).map fun r => r.entityId).Nodup := by
  induction entities using List.reverseRecOn with
  | nil => exact unique
  | append_singleton rest e ih =>
    rw [upsertEntities, foldl_concat]
    exact insertOrMerge_nodup (fun _ => rfl) ih

theorem memoryUpsertEntities_nodup (unique : (rows.map fun r => r.entityId).Nodup) :
    ((memoryUpsertEntities entities rows).map fun r => r.entityId).Nodup := by
  induction entities using List.reverseRecOn with
  | nil => exact unique
  | append_singleton rest e ih =>
    rw [memoryUpsertEntities, foldl_concat]
    exact insertOrMerge_nodup (fun _ => rfl) ih

def last (x : EntityId) (batch : List EntityRow) : Option EntityRow :=
  (batch.filter fun e => e.entityId = x).getLast?

theorem last_concat (batch : List EntityRow) (e : EntityRow) :
    last x (batch ++ [e]) = if e.entityId = x then some e else last x batch := by
  rw [last, last, filter_append]
  split
  case isTrue isOwn =>
    rw [filter_cons_of_pos (by simpa using isOwn), filter_nil, getLast?_concat]
  case isFalse isOther =>
    rw [filter_cons_of_neg (by simpa using isOther), filter_nil, append_nil]

theorem last_mem (isLast : last x batch = some e) : e ∈ batch ∧ e.entityId = x := by
  simpa using mem_filter.mp (mem_of_getLast? isLast)

theorem last_eq_none_iff : last x batch = none ↔ ∀ e ∈ batch, e.entityId ≠ x := by
  rw [last, getLast?_eq_none_iff, filter_eq_nil_iff]
  simp

theorem upsertEntities_spec (batch rows : List EntityRow) (x : EntityId) :
    (last x batch = none → lookup x (upsertEntities batch rows) = lookup x rows) ∧
      ∀ e, last x batch = some e → ∃ r, lookup x (upsertEntities batch rows) = some r ∧
        r.visibilityKeys = mergedKeys e.visibilityKeys (column (·.visibilityKeys) x rows) ∧
        r.aliases = (mergedKeys e.aliases (column (·.aliases) x rows)).take aliasesKept := by
  induction batch using List.reverseRecOn with
  | nil => exact ⟨fun _ => rfl, nofun⟩
  | append_singleton rest e ih =>
    rw [last_concat, upsertEntities, foldl_concat, ← upsertEntities]
    by_cases isOwn : e.entityId = x
    · subst isOwn
      rw [if_pos rfl]
      refine ⟨nofun, fun other same => ?_⟩
      rw [← some.inj same]
      exact lookup_upsertEntity rows _ e
    · rw [if_neg isOwn, lookup_upsertEntity_other isOwn]
      exact ih

theorem mem_keys_upsertEntities (batch rows : List EntityRow) (key : String) :
    key ∈ column (·.visibilityKeys) x (upsertEntities batch rows) ↔
      key ∈ column (·.visibilityKeys) x rows ∨
        ∃ e, last x batch = some e ∧ key ∈ e.visibilityKeys := by
  obtain ⟨unmentioned, mentioned⟩ := upsertEntities_spec batch rows x
  cases isLast : last x batch with
  | none =>
    rw [column, unmentioned isLast, ← column]
    exact ⟨.inl, fun isKey => isKey.resolve_right fun ⟨_, absurd_, _⟩ => nomatch absurd_⟩
  | some e =>
    obtain ⟨r, found, keys, -⟩ := mentioned e isLast
    rw [column, found]
    change key ∈ r.visibilityKeys ↔ _
    rw [keys, mergedKeys, mem_insertionSort, mem_eraseDups, mem_append, or_comm]
    exact or_congr_right ⟨fun isKey => ⟨e, rfl, isKey⟩, fun ⟨_, same, isKey⟩ => by
      rwa [some.inj same]⟩

theorem aliases_upsertEntities {names : List String}
    (before : column (·.aliases) x rows = least aliasesKept names) :
    column (·.aliases) x (upsertEntities batch rows) =
      least aliasesKept ((last x batch).elim [] (·.aliases) ++ names) := by
  obtain ⟨unmentioned, mentioned⟩ := upsertEntities_spec batch rows x
  cases isLast : last x batch with
  | none =>
    rw [column, unmentioned isLast, ← column]
    exact before
  | some e =>
    obtain ⟨r, found, -, aliases⟩ := mentioned e isLast
    rw [column, found]
    change r.aliases = least aliasesKept (e.aliases ++ names)
    rw [aliases, before, ← least_append_least]
    rfl

/-- The mentions that count. -/
def lasts (x : EntityId) (batches : List (List EntityRow)) : List EntityRow :=
  batches.filterMap (last x)

section

variable (batches : List (List EntityRow))

theorem lasts_concat (batch : List EntityRow) :
    lasts x (batches ++ [batch]) = lasts x batches ++ (last x batch).toList := by
  rw [lasts, filterMap_append, ← lasts]
  cases isLast : last x batch <;> simp [isLast]

theorem stored_concat (batch : List EntityRow) :
    stored (batches ++ [batch]) = upsertEntities batch (stored batches) := by
  rw [stored, foldl_concat, ← stored]

theorem mem_keys_stored (key : String) :
    key ∈ column (·.visibilityKeys) x (stored batches) ↔
      ∃ e ∈ lasts x batches, key ∈ e.visibilityKeys := by
  induction batches using List.reverseRecOn with
  | nil => simp [column, lookup, stored, lasts]
  | append_singleton rest batch ih =>
    rw [stored_concat, mem_keys_upsertEntities, ih, lasts_concat]
    simp only [mem_append, mem_toList, or_and_right, exists_or]

theorem aliases_stored :
    column (·.aliases) x (stored batches) =
      least aliasesKept ((lasts x batches).flatMap (·.aliases)) := by
  induction batches using List.reverseRecOn with
  | nil => rfl
  | append_singleton rest batch ih =>
    rw [stored_concat, aliases_upsertEntities ih, lasts_concat, flatMap_append]
    refine least_congr fun name => ?_
    rw [mem_append, mem_append, or_comm]
    cases last x batch <;> simp

theorem stored_nodup :
    ((stored batches).map fun r => r.entityId).Nodup := by
  induction batches using List.reverseRecOn with
  | nil => exact nodup_nil
  | append_singleton rest batch ih =>
    rw [stored_concat]
    exact upsertEntities_nodup batch ih

theorem isSome_stored_iff :
    (lookup x (stored batches)).isSome ↔ ∃ e ∈ batches.flatten, e.entityId = x := by
  induction batches using List.reverseRecOn with
  | nil => simp [lookup, stored]
  | append_singleton rest batch ih =>
    obtain ⟨unmentioned, mentioned⟩ := upsertEntities_spec batch (stored rest) x
    rw [stored_concat, flatten_concat]
    cases isLast : last x batch with
    | none =>
      rw [unmentioned isLast, ih]
      refine exists_congr fun e => and_congr_left fun same => ?_
      rw [mem_append]
      exact (or_iff_left fun member => last_eq_none_iff.mp isLast e member same).symm
    | some e =>
      obtain ⟨r, found, -⟩ := mentioned e isLast
      obtain ⟨member, same⟩ := last_mem isLast
      rw [found]
      exact iff_of_true rfl ⟨e, mem_append_right _ member, same⟩

theorem memoryStored_eq :
    memoryStored batches = memoryUpsertEntities batches.flatten [] := by
  rw [memoryStored, memoryUpsertEntities, foldl_flatten]
  rfl

theorem memoryStored_nodup :
    ((memoryStored batches).map fun r => r.entityId).Nodup := by
  rw [memoryStored_eq]
  exact memoryUpsertEntities_nodup _ nodup_nil

end

theorem isSome_memory_iff :
    (lookup x (memoryUpsertEntities entities [])).isSome ↔ ∃ e ∈ entities, e.entityId = x := by
  induction entities using List.reverseRecOn with
  | nil => simp [lookup, memoryUpsertEntities]
  | append_singleton rest e ih =>
    rw [memoryUpsertEntities, foldl_concat, ← memoryUpsertEntities, lookup_memoryUpsertEntity]
    split
    case isTrue isOwn =>
      exact iff_of_true rfl ⟨e, mem_append_right _ (mem_singleton.mpr rfl), isOwn⟩
    case isFalse isOther =>
      rw [ih]
      refine exists_congr fun other => and_congr_left fun same => ?_
      rw [mem_append, mem_singleton]
      exact (or_iff_left fun isNew : other = e => isOther (isNew ▸ same)).symm

theorem mem_memory_iff
    (isMerged : ∀ e prev, texts (merged e prev) = mergedKeys (texts prev) (texts e))
    (entities : List EntityRow) (text : String) :
    text ∈ column texts x (memoryUpsertEntities entities []) ↔
      ∃ e ∈ entities, e.entityId = x ∧ text ∈ texts e := by
  induction entities using List.reverseRecOn with
  | nil => simp [column, lookup, memoryUpsertEntities]
  | append_singleton rest e ih =>
    have added : (∃ other ∈ rest ++ [e], other.entityId = x ∧ text ∈ texts other) ↔
        (∃ other ∈ rest, other.entityId = x ∧ text ∈ texts other) ∨
          (e.entityId = x ∧ text ∈ texts e) := by
      simp only [mem_append, mem_singleton, or_and_right, exists_or, exists_eq_left]
    rw [added, ← ih, memoryUpsertEntities, foldl_concat,
      ← memoryUpsertEntities, column, column, lookup_memoryUpsertEntity]
    split
    case isTrue isOwn =>
      rw [elim_some, eq_true isOwn, true_and]
      cases lookup x (memoryUpsertEntities rest []) with
      | none => exact (or_iff_right not_mem_nil).symm
      | some prev =>
        change text ∈ texts (merged e prev) ↔ text ∈ texts prev ∨ text ∈ texts e
        rw [isMerged, mergedKeys, mem_insertionSort, mem_eraseDups, mem_append]
    case isFalse isOther => exact (or_iff_left fun isNew => isOther isNew.1).symm

def given (texts : EntityRow → List String) (x : EntityId) (batches : List (List EntityRow)) :
    List String :=
  (batches.flatten.filter fun e => e.entityId = x).flatMap texts

theorem mem_given {text : String} :
    text ∈ given texts x batches ↔ ∃ e ∈ batches.flatten, e.entityId = x ∧ text ∈ texts e := by
  simp only [given, mem_flatMap, mem_filter, decide_eq_true_eq, and_assoc]

/-- Both stores have the entities that were given, each with the union of the keys and of the
aliases it was given, of the aliases the least that are kept. -/
structure TakesUnions (batches : List (List EntityRow)) : Prop where
  rows : ∀ x, (∃ r ∈ stored batches, r.entityId = x) ↔ ∃ e ∈ batches.flatten, e.entityId = x
  memoryRows : ∀ x, (∃ m ∈ memoryStored batches, m.entityId = x) ↔
    ∃ e ∈ batches.flatten, e.entityId = x
  keys : ∀ r ∈ stored batches, ∀ key,
    key ∈ r.visibilityKeys ↔ key ∈ given (·.visibilityKeys) r.entityId batches
  memoryKeys : ∀ m ∈ memoryStored batches, ∀ key,
    key ∈ m.visibilityKeys ↔ key ∈ given (·.visibilityKeys) m.entityId batches
  aliases : ∀ r ∈ stored batches,
    r.aliases = least aliasesKept (given (·.aliases) r.entityId batches)
  sameAliases : ∀ r ∈ stored batches, ∀ m ∈ memoryStored batches, m.entityId = r.entityId →
    ∀ name, name ∈ m.aliases ↔ name ∈ r.aliases

/-- What is given of an entity is among its last mentions of the batches. -/
structure LastsGiveAll (batches : List (List EntityRow)) : Prop where
  keys : ∀ x, ∀ key ∈ given (·.visibilityKeys) x batches,
    ∃ e ∈ lasts x batches, key ∈ e.visibilityKeys
  aliases : ∀ x, ∀ name ∈ given (·.aliases) x batches, ∃ e ∈ lasts x batches, name ∈ e.aliases
  few : ∀ x, (given (·.aliases) x batches).eraseDups.length ≤ aliasesKept

theorem lasts_given (isLast : e ∈ lasts x batches) : e ∈ batches.flatten ∧ e.entityId = x := by
  obtain ⟨batch, isBatch, isOwn⟩ := mem_filterMap.mp isLast
  exact ⟨mem_flatten_of_mem isBatch (last_mem isOwn).1, (last_mem isOwn).2⟩

section

variable {batches : List (List EntityRow)} {r : EntityRow}

theorem column_of_mem (unique : (rows.map fun r => r.entityId).Nodup) (member : r ∈ rows) :
    column texts r.entityId rows = texts r := by
  have found : lookup r.entityId rows = some r := (find?_key_iff unique).mpr ⟨member, rfl⟩
  rw [column, found]
  rfl

theorem exists_row_iff : (∃ r ∈ rows, r.entityId = x) ↔ (lookup x rows).isSome := by
  rw [lookup, find?_isSome]
  simp

theorem memory_text_iff (texts : EntityRow → List String)
    (isMerged : ∀ e prev, texts (merged e prev) = mergedKeys (texts prev) (texts e))
    (member : r ∈ memoryStored batches) (text : String) :
    text ∈ texts r ↔ text ∈ given texts r.entityId batches := by
  have ofRow : column texts r.entityId (memoryStored batches) = texts r :=
    column_of_mem (memoryStored_nodup batches) member
  rw [← ofRow, memoryStored_eq, mem_memory_iff isMerged, mem_given]

theorem mem_lasts_aliases {name : String} :
    name ∈ (lasts x batches).flatMap (·.aliases) ↔ ∃ e ∈ lasts x batches, name ∈ e.aliases :=
  mem_flatMap

/-- The stores take the union of what they are given exactly if the last mentions give all. -/
theorem takesUnions_iff (batches : List (List EntityRow)) :
    TakesUnions batches ↔ LastsGiveAll batches := by
  have isRow : ∀ x, (∃ r ∈ stored batches, r.entityId = x) ↔
      ∃ e ∈ batches.flatten, e.entityId = x := fun x => by
    rw [exists_row_iff, isSome_stored_iff]
  have isMemoryRow : ∀ x, (∃ m ∈ memoryStored batches, m.entityId = x) ↔
      ∃ e ∈ batches.flatten, e.entityId = x := fun x => by
    rw [exists_row_iff, memoryStored_eq, isSome_memory_iff]
  have keysOf : ∀ r ∈ stored batches, ∀ key, key ∈ r.visibilityKeys ↔
      ∃ e ∈ lasts r.entityId batches, key ∈ e.visibilityKeys := fun r member key => by
    rw [← mem_keys_stored, column_of_mem (stored_nodup batches) member]
  have aliasesOf : ∀ r ∈ stored batches, r.aliases =
      least aliasesKept ((lasts r.entityId batches).flatMap (·.aliases)) := fun r member => by
    rw [← aliases_stored, column_of_mem (stored_nodup batches) member]
  have memoryKeysOf : ∀ m ∈ memoryStored batches, ∀ key, key ∈ m.visibilityKeys ↔
      key ∈ given (·.visibilityKeys) m.entityId batches := fun m member =>
    memory_text_iff (·.visibilityKeys) (fun _ _ => rfl) member
  have memoryAliasesOf : ∀ m ∈ memoryStored batches, ∀ name, name ∈ m.aliases ↔
      name ∈ given (·.aliases) m.entityId batches := fun m member =>
    memory_text_iff (·.aliases) (fun _ _ => rfl) member
  have hasRow : ∀ {texts : EntityRow → List String} {x text}, text ∈ given texts x batches →
      ∃ r ∈ stored batches, r.entityId = x := by
    intro texts x text isGiven
    obtain ⟨e, member, same, -⟩ := mem_given.mp isGiven
    exact (isRow x).mpr ⟨e, member, same⟩
  constructor
  · intro takes
    have kept : ∀ x, ∀ name ∈ given (·.aliases) x batches, ∃ r ∈ stored batches,
        r.entityId = x ∧ name ∈ r.aliases := by
      intro x name isGiven
      obtain ⟨r, member, rfl⟩ := hasRow isGiven
      obtain ⟨m, memberInMemory, same⟩ :=
        (isMemoryRow r.entityId).mpr ((isRow r.entityId).mp ⟨r, member, rfl⟩)
      refine ⟨r, member, rfl, (takes.sameAliases r member m memberInMemory same name).mp ?_⟩
      rw [memoryAliasesOf m memberInMemory, same]
      exact isGiven
    refine ⟨fun x key isGiven => ?_, fun x name isGiven => ?_, fun x => few_iff.mpr ?_⟩
    · obtain ⟨r, member, rfl⟩ := hasRow isGiven
      exact (keysOf r member key).mp ((takes.keys r member key).mpr isGiven)
    · obtain ⟨r, member, rfl, isKept⟩ := kept x name isGiven
      rw [aliasesOf r member] at isKept
      exact mem_lasts_aliases.mp (mem_of_mem_least isKept)
    · intro name isGiven
      obtain ⟨r, member, rfl, isKept⟩ := kept x name isGiven
      rwa [takes.aliases r member] at isKept
  · intro all
    have aliasesGiven : ∀ r ∈ stored batches,
        r.aliases = least aliasesKept (given (·.aliases) r.entityId batches) := by
      intro r member
      rw [aliasesOf r member]
      refine least_congr fun name => ?_
      rw [mem_lasts_aliases]
      refine ⟨fun ⟨e, isLast, isAlias⟩ => ?_, all.aliases r.entityId name⟩
      obtain ⟨isGiven, same⟩ := lasts_given isLast
      exact mem_given.mpr ⟨e, isGiven, same, isAlias⟩
    refine ⟨isRow, isMemoryRow, fun r member key => ?_, memoryKeysOf, aliasesGiven,
      fun r member m memberInMemory same name => ?_⟩
    · rw [keysOf r member]
      refine ⟨fun ⟨e, isLast, isKey⟩ => ?_, all.keys r.entityId key⟩
      obtain ⟨isGiven, same⟩ := lasts_given isLast
      exact mem_given.mpr ⟨e, isGiven, same, isKey⟩
    · rw [memoryAliasesOf m memberInMemory, same, aliasesGiven r member]
      exact ⟨few_iff.mp (all.few r.entityId) name, mem_of_mem_least⟩

end

end

def mention (workspace : String) : EntityRow where
  entityId := ⟨"acme", "tenant:acme", "project hub"⟩
  name := "Project Hub"
  visibilityKeys := [workspace]

def twice : List (List EntityRow) := [[mention "ws:acme/sales", mention "ws:acme/support"]]

/-- Two workspaces mention one entity in one batch, and the first loses sight of it. -/
theorem first_audience_is_lost :
    ¬TakesUnions twice ∧
      (stored twice).map (fun r => r.visibilityKeys) = [["ws:acme/support"]] ∧
      (memoryStored twice).map (fun r => r.visibilityKeys) =
        [["ws:acme/sales", "ws:acme/support"]] := by
  have inStatement : (stored twice).map (fun r => r.visibilityKeys) =
      [["ws:acme/support"]] := by decide +kernel
  refine ⟨fun takes => ?_, inStatement, by decide +kernel⟩
  obtain ⟨r, member, same⟩ := (takes.rows (mention "ws:acme/sales").entityId).mpr
    ⟨mention "ws:acme/sales", mem_cons_self, rfl⟩
  have isGiven : "ws:acme/sales" ∈ given (·.visibilityKeys) r.entityId twice :=
    mem_given.mpr ⟨mention "ws:acme/sales", mem_cons_self, same.symm, mem_cons_self⟩
  have isKey := (takes.keys r member "ws:acme/sales").mpr isGiven
  have isOnly : r.visibilityKeys ∈ [["ws:acme/support"]] := inStatement ▸ mem_map_of_mem member
  rw [mem_singleton.mp isOnly] at isKey
  exact absurd isKey (by decide)

end MemoryService.Graph.EntityUpserts
