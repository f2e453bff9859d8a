import MemoryService.Foundation.Table
import MemoryService.Tenancy.Registry

/-!
# The registry does not go back

What a task has read is applied later than it is read.
-/

namespace MemoryService.Tenancy.Registry

open Domain Foundation Option List

def keysOf (journal : List Commit) : List String :=
  journal.filterMap fun
    | .key keyId _ => some keyId
    | .tenant _ _ => none

/-- Since an instant no change or event of the tenant was observed, and no refresh applied. -/
def Writes.TenantBefore (writes : Writes) (tenantId : String) (n : Nat) : Prop :=
  writes.observed tenantId ≤ n ∧ writes.refreshed ≤ n
deriving Decidable

/-- Since an instant no read of the key was applied, and no later commit of it was told. -/
def Writes.KeyBefore (writes : Writes) (keyId : String) (n : Nat) : Prop :=
  writes.metered keyId ≤ n ∧ writes.told keyId ≤ n ∧ writes.refreshed ≤ n
deriving Decidable

/-- Between its read and its write a task is alone with what it writes.  A refresh is with the
other refreshes and the ends of `observe` only: the generation tells it of the rest, unless
this is its last attempt. -/
def Task.Admitted (state : State) : Task → Prop
  | .updated tenantId changes readAt committedAt =>
    state.maps.writes.TenantBefore tenantId (from_ changes.status readAt committedAt) ∧
      state.maps.writes.TenantBefore tenantId
        (from_ changes.rateLimitPerMinute readAt committedAt)
  | .applying tenantId readAt =>
    Journal.version (ofTenant tenantId) state.journal readAt ≠ 0 →
      state.maps.writes.TenantBefore tenantId readAt
  | .metering tenantId readAt =>
    ∀ keyId ∈ keysOf state.journal, keyAt state.journal readAt keyId = some tenantId →
      state.maps.writes.KeyBefore keyId readAt
  | .keys left started limitsAt _ keysAt =>
    (state.maps.generation = started ∨ left = 0 →
      state.maps.writes.refreshed ≤ limitsAt ∧
        ∀ n ∈ keysAt, ∀ keyId ∈ keysOf state.journal, state.maps.writes.metered keyId ≤ n) ∧
      (state.maps.generation ≠ started → left = 0 → state.maps.writes.changed ≤ limitsAt)
  | _ => True

/-- The commits of a key are told in their order, and no read made after one is applied before
it is told. -/
def Commit.Admitted (state : State) (n : Nat) : Commit → Prop
  | .key keyId (some tenantId) =>
    (state.maps.limits tenantId).isSome = true → state.maps.writes.KeyBefore keyId n
  | .key keyId none => state.maps.writes.KeyBefore keyId n
  | .tenant _ _ => True

def Admitted (state : State) : Action → Prop
  | .advance position => ∀ task ∈ state.tasks[position]?, task.Admitted state
  | .tell position =>
    ∀ committed ∈ state.journal[position]?, committed.Admitted state (position + 1)
  | _ => True

instance (state : State) (task : Task) : Decidable (task.Admitted state) := by
  unfold Task.Admitted
  split <;> infer_instance

instance (state : State) (n : Nat) (committed : Commit) :
    Decidable (committed.Admitted state n) := by
  unfold Commit.Admitted
  split <;> infer_instance

instance (state : State) (action : Action) : Decidable (Admitted state action) := by
  unfold Admitted
  split <;> infer_instance

variable {journal : List Commit} {n m readAt committedAt position : Nat} {Value : Type}
  {part : Commit → Option Value} {task : Task} {record : Record} {action : Action}
  {later : List Commit}

section

variable {state next : State} {tenantId keyId : String}

/-- A change has committed the fields that it names. -/
def Committed (journal : List Commit) (tenantId : String) (changes : Changes)
    (committedAt : Nat) : Prop :=
  ∃ base, tenantAt journal committedAt tenantId = changes.apply base

/-- A refresh that finds the generation it started from has missed no change that it counts. -/
def Maps.Guards (maps : Maps) (started n : Nat) : Prop :=
  started ≤ maps.generation ∧ (maps.generation = started → maps.writes.changed ≤ n)

/-- What a task holds was read, and committed, at instants that have passed. -/
def Task.Told (state : State) : Task → Prop
  | .updating _ _ readAt => readAt ≤ state.now
  | .updated tenantId changes readAt committedAt =>
    readAt ≤ state.now ∧ committedAt ≤ state.now ∧
      Committed state.journal tenantId changes committedAt
  | .applying _ readAt => readAt ≤ state.now
  | .metering _ readAt => readAt ≤ state.now
  | .refresh _ started => started ≤ state.maps.generation
  | .limits _ started limitsAt => limitsAt ≤ state.now ∧ state.maps.Guards started limitsAt
  | .suspensions _ started limitsAt suspendedAt =>
    limitsAt ≤ suspendedAt ∧ suspendedAt ≤ state.now ∧ state.maps.Guards started limitsAt
  | .keys _ started limitsAt suspendedAt keysAt =>
    limitsAt ≤ suspendedAt ∧ suspendedAt ≤ state.now ∧
      (∀ n ∈ keysAt, suspendedAt ≤ n ∧ n ≤ state.now) ∧ state.maps.Guards started limitsAt
  | _ => True

structure Passed (state : State) : Prop where
  limits : ∀ tenantId, state.maps.limitAt tenantId ≤ state.now
  suspended : ∀ tenantId, state.maps.suspendedAt tenantId ≤ state.now
  keyTenants : ∀ keyId, state.maps.keyTenantAt keyId ≤ state.now

/-- Nothing is of a later instant than the last write of its entry. -/
structure Timed (state : State) : Prop where
  limits : ∀ tenantId, state.maps.limitAt tenantId ≤
    max (state.maps.writes.observed tenantId) state.maps.writes.refreshed
  suspended : ∀ tenantId, state.maps.suspendedAt tenantId ≤
    max (state.maps.writes.observed tenantId) state.maps.writes.refreshed
  keyTenants : ∀ keyId, state.maps.keyTenantAt keyId ≤
    max (state.maps.writes.metered keyId)
      (max (state.maps.writes.told keyId) state.maps.writes.refreshed)
  observed : ∀ tenantId, state.maps.writes.observed tenantId ≤ state.maps.writes.changed
  told : ∀ keyId, state.maps.writes.told keyId ≤ state.maps.writes.changed
  changed : state.maps.writes.changed ≤ state.now

structure Sound (state : State) : Prop where
  passed : Passed state
  timed : Timed state
  accurate : Accurate state
  tasks : ∀ task ∈ state.tasks, task.Told state

theorem tenantAt_append (within : n ≤ journal.length) :
    tenantAt (journal ++ later) n tenantId = tenantAt journal n tenantId := by
  rw [tenantAt, tenantAt, Journal.valueAt_append within]

theorem keyAt_append (within : n ≤ journal.length) :
    keyAt (journal ++ later) n keyId = keyAt journal n keyId := by
  rw [keyAt, keyAt, Journal.valueAt_append within]

theorem NotOlder.refl (n : Nat) : NotOlder journal part n n := Nat.le_refl _

theorem NotOlder.append (later : List Commit) (notOlder : NotOlder journal part m n)
    (firstWithin : m ≤ journal.length) (within : n ≤ journal.length) :
    NotOlder (journal ++ later) part m n := by
  rw [NotOlder, Journal.version_append firstWithin, Journal.version_append within]
  exact notOlder

theorem Task.Told.append (told : task.Told state) :
    task.Told { state with journal := state.journal ++ later } := by
  have more : ∀ {n : Nat}, n ≤ state.now → n ≤ (state.journal ++ later).length := fun within =>
    Nat.le_trans within (by rw [length_append]; exact Nat.le_add_right _ _)
  cases task with
  | updating tenantId changes readAt => exact more told
  | updated tenantId changes readAt committedAt =>
    obtain ⟨isRead, isCommitted, base, isRow⟩ := told
    exact ⟨more isRead, more isCommitted, base, (tenantAt_append isCommitted).trans isRow⟩
  | applying tenantId readAt => exact more told
  | metering tenantId readAt => exact more told
  | refresh left started => exact told
  | limits left started limitsAt => exact ⟨more told.1, told.2⟩
  | suspensions left started limitsAt suspendedAt => exact ⟨told.1, more told.2.1, told.2.2⟩
  | keys left started limitsAt suspendedAt keysAt =>
    obtain ⟨inOrder, isPassed, keysPassed, guards⟩ := told
    exact ⟨inOrder, more isPassed,
      fun n isAt => ⟨(keysPassed n isAt).1, more (keysPassed n isAt).2⟩, guards⟩
  | update | apply | meter | done => trivial

/-- What a write of the maps does to the generation: it counts a change, or there is none. -/
def Counts (before after : Maps) : Prop :=
  before.generation < after.generation ∨
    after.generation = before.generation ∧ after.writes.changed = before.writes.changed

theorem Maps.Guards.of_counts {before after : Maps} {started : Nat} (counts : Counts before after)
    (guards : before.Guards started n) : after.Guards started n := by
  obtain ⟨isStarted, seen⟩ := guards
  rcases counts with isChange | ⟨sameGeneration, sameChanged⟩
  · exact ⟨by omega, fun same => by omega⟩
  · rw [Maps.Guards, sameGeneration, sameChanged]
    exact ⟨isStarted, seen⟩

theorem Task.Told.of_counts {maps : Maps} (counts : Counts state.maps maps)
    (told : task.Told state) : task.Told { state with maps } := by
  cases task with
  | refresh left started =>
    rcases counts with isChange | ⟨sameGeneration, -⟩
    · exact Nat.le_trans told (Nat.le_of_lt isChange)
    · exact Nat.le_trans told (Nat.le_of_eq sameGeneration.symm)
  | limits left started limitsAt => exact ⟨told.1, told.2.of_counts counts⟩
  | suspensions left started limitsAt suspendedAt =>
    exact ⟨told.1, told.2.1, told.2.2.of_counts counts⟩
  | keys left started limitsAt suspendedAt keysAt =>
    exact ⟨told.1, told.2.1, told.2.2.1, told.2.2.2.of_counts counts⟩
  | update | updating | updated | apply | applying | meter | metering | done => exact told

theorem sound_of_append (sound : Sound state) :
    Sound { state with journal := state.journal ++ later } := by
  have more : ∀ {n : Nat}, n ≤ state.now → n ≤ (state.journal ++ later).length := fun within =>
    Nat.le_trans within (by rw [length_append]; exact Nat.le_add_right _ _)
  refine ⟨⟨fun _ => more (sound.passed.limits _), fun _ => more (sound.passed.suspended _),
    fun _ => more (sound.passed.keyTenants _)⟩,
    { sound.timed with changed := more sound.timed.changed }, ⟨?_, ?_, ?_⟩,
    fun task isTask => (sound.tasks task isTask).append⟩
  · exact fun tenantId => (sound.accurate.limits tenantId).trans
      (by rw [tenantAt_append (sound.passed.limits tenantId)])
  · exact fun tenantId => (sound.accurate.suspended tenantId).trans
      (by rw [tenantAt_append (sound.passed.suspended tenantId)])
  · intro keyId tenantId isThere
    rw [keyAt_append (sound.passed.keyTenants keyId)]
    exact sound.accurate.keyTenants keyId tenantId isThere

theorem onward_of_same (same : next.maps = state.maps) : Onward state next := by
  constructor <;> intro id <;> rw [same] <;> exact NotOlder.refl _

/-- What a write of the maps keeps, and that it does not go back. -/
structure Keeps (state : State) (maps : Maps) : Prop where
  passed : Passed { state with maps }
  timed : Timed { state with maps }
  accurate : Accurate { state with maps }
  counts : Counts state.maps maps
  onward : Onward state { state with maps }

theorem notOlder_of_le (isLater : m ≤ n) : NotOlder journal part m n := Journal.version_mono isLater

theorem Timed.tenant (timed : Timed state)
    (before : state.maps.writes.TenantBefore tenantId n) :
    state.maps.limitAt tenantId ≤ n ∧ state.maps.suspendedAt tenantId ≤ n :=
  ⟨(timed.limits tenantId).trans (max_le before.1 before.2),
    (timed.suspended tenantId).trans (max_le before.1 before.2)⟩

theorem Timed.key (timed : Timed state) (before : state.maps.writes.KeyBefore keyId n) :
    state.maps.keyTenantAt keyId ≤ n :=
  (timed.keyTenants keyId).trans (max_le before.1 (max_le before.2.1 before.2.2))

theorem keeps_of_observe {statusAt limitAt : Nat} (sound : Sound state)
    (statusPassed : statusAt ≤ state.now) (limitPassed : limitAt ≤ state.now)
    (isStatus : record.status = (tenantAt state.journal statusAt tenantId).status)
    (isLimit : record.rateLimitPerMinute =
      (tenantAt state.journal limitAt tenantId).rateLimitPerMinute)
    (statusBefore : state.maps.writes.TenantBefore tenantId statusAt)
    (limitBefore : state.maps.writes.TenantBefore tenantId limitAt) :
    Keeps state (state.maps.observe tenantId record statusAt limitAt state.now) where
  passed := by
    refine ⟨fun other => ?_, fun other => ?_, sound.passed.keyTenants⟩
    all_goals simp only [Maps.observe, Function.update_apply]
    · split
      · exact limitPassed
      · exact sound.passed.limits other
    · split
      · exact statusPassed
      · exact sound.passed.suspended other
  timed := by
    refine ⟨fun other => ?_, fun other => ?_, sound.timed.keyTenants, fun other => ?_,
      fun keyId => (sound.timed.told keyId).trans sound.timed.changed, Nat.le_refl _⟩
    all_goals simp only [Maps.observe, Function.update_apply]
    · split
      · exact le_max_of_le_left limitPassed
      · exact sound.timed.limits other
    · split
      · exact le_max_of_le_left statusPassed
      · exact sound.timed.suspended other
    · split
      · exact Nat.le_refl _
      · exact (sound.timed.observed other).trans sound.timed.changed
  accurate := by
    refine ⟨fun other => ?_, fun other => ?_, fun keyId other isThere => ?_⟩
    all_goals simp only [Maps.observe, Function.update_apply] at *
    · split
      case isTrue same => rw [same, isLimit]
      case isFalse => exact sound.accurate.limits other
    · split
      case isTrue same => rw [same, ← isStatus, decide_eq_true_eq]
      case isFalse => exact sound.accurate.suspended other
    · split at isThere
      case isTrue => cases isThere
      case isFalse => exact sound.accurate.keyTenants keyId other isThere
  counts := .inl (Nat.lt_succ_self _)
  onward := by
    refine ⟨fun other => ?_, fun other => ?_, fun keyId => NotOlder.refl _⟩
    all_goals simp only [Maps.observe, Function.update_apply]
    · split
      case isTrue same =>
        rw [same]
        exact notOlder_of_le (sound.timed.tenant limitBefore).1
      case isFalse => exact NotOlder.refl _
    · split
      case isTrue same =>
        rw [same]
        exact notOlder_of_le (sound.timed.tenant statusBefore).2
      case isFalse => exact NotOlder.refl _

theorem notOlder_of_zero (none_ : ∀ committed ∈ journal, part committed = none) :
    NotOlder journal part m n := by
  rw [NotOlder, Journal.version_eq_zero none_]
  exact Nat.zero_le _

theorem ofKey_of_absent (absent : keyId ∉ keysOf journal) :
    ∀ committed ∈ journal, ofKey keyId committed = none := by
  intro committed isCommitted
  cases committed with
  | tenant other record => rfl
  | key other tenant =>
    refine if_neg fun same => absent ?_
    exact mem_filterMap.mpr ⟨_, isCommitted, congrArg some same⟩

theorem mem_keysOf
    (isThere : keyAt journal n keyId = some tenantId) : keyId ∈ keysOf journal := by
  by_contra notThere
  have none_ : Journal.version (ofKey keyId) journal n = 0 :=
    Journal.version_eq_zero (ofKey_of_absent notThere)
  rw [keyAt, Journal.valueAt, length_eq_zero_iff.mp none_] at isThere
  cases isThere

theorem keeps_of_meter (sound : Sound state) (isPassed : readAt ≤ state.now)
    (before : ∀ keyId ∈ keysOf state.journal,
      keyAt state.journal readAt keyId = some tenantId → state.maps.writes.KeyBefore keyId readAt) :
    Keeps state (state.maps.meter state.journal readAt tenantId state.now) where
  passed := by
    refine ⟨sound.passed.limits, sound.passed.suspended, fun keyId => ?_⟩
    simp only [Maps.meter]
    split
    case isTrue => exact isPassed
    case isFalse => exact sound.passed.keyTenants keyId
  timed := by
    refine { sound.timed with keyTenants := fun keyId => ?_ }
    simp only [Maps.meter]
    split
    case isTrue => exact le_max_of_le_left isPassed
    case isFalse => exact sound.timed.keyTenants keyId
  accurate := by
    refine ⟨sound.accurate.limits, sound.accurate.suspended, fun keyId other isThere => ?_⟩
    simp only [Maps.meter] at isThere ⊢
    split at isThere
    case isTrue live =>
      rw [if_pos live, live]
      exact isThere
    case isFalse notLive =>
      rw [if_neg notLive]
      exact sound.accurate.keyTenants keyId other isThere
  counts := .inr ⟨rfl, rfl⟩
  onward := by
    refine ⟨fun _ => NotOlder.refl _, fun _ => NotOlder.refl _, fun keyId => ?_⟩
    simp only [Maps.meter]
    split
    case isTrue live =>
      exact notOlder_of_le (sound.timed.key (before keyId (mem_keysOf live) live))
    case isFalse => exact NotOlder.refl _

theorem keeps_of_replace {limitsAt suspendedAt : Nat} {keysAt : Option Nat} (sound : Sound state)
    (inOrder : limitsAt ≤ suspendedAt) (suspendedPassed : suspendedAt ≤ state.now)
    (keysPassed : ∀ n ∈ keysAt, suspendedAt ≤ n ∧ n ≤ state.now)
    (noRefresh : state.maps.writes.refreshed ≤ limitsAt)
    (noChange : state.maps.writes.changed ≤ limitsAt)
    (noMeter : ∀ n ∈ keysAt, ∀ keyId ∈ keysOf state.journal, state.maps.writes.metered keyId ≤ n) :
    Keeps state (state.maps.replace state.journal limitsAt suspendedAt keysAt state.now) where
  passed := by
    refine ⟨fun _ => inOrder.trans suspendedPassed, fun _ => suspendedPassed, fun keyId => ?_⟩
    cases keysAt with
    | none => exact sound.passed.keyTenants keyId
    | some n => exact (keysPassed n rfl).2
  timed := by
    refine ⟨fun _ => le_max_of_le_right (inOrder.trans suspendedPassed),
      fun _ => le_max_of_le_right suspendedPassed, fun keyId => ?_, sound.timed.observed,
      sound.timed.told, sound.timed.changed⟩
    cases keysAt with
    | none => exact le_max_of_le_right (le_max_of_le_right (sound.passed.keyTenants keyId))
    | some n => exact le_max_of_le_right (le_max_of_le_right (keysPassed n rfl).2)
  accurate := by
    refine ⟨fun _ => rfl, fun _ => decide_eq_true_iff, fun keyId other isThere => ?_⟩
    cases keysAt with
    | none => cases isThere
    | some n => exact (filter_eq_some_iff.mp isThere).1
  counts := .inr ⟨rfl, rfl⟩
  onward := by
    -- what a tenant's row or a key shows was there before the first of the reads
    have tenantBefore : ∀ tenantId, state.maps.writes.TenantBefore tenantId limitsAt :=
      fun tenantId => ⟨(sound.timed.observed tenantId).trans noChange, noRefresh⟩
    refine ⟨fun tenantId => ?_, fun tenantId => ?_, fun keyId => ?_⟩
    · exact notOlder_of_le (sound.timed.tenant (tenantBefore tenantId)).1
    · exact notOlder_of_le ((sound.timed.tenant (tenantBefore tenantId)).2.trans inOrder)
    · cases keysAt with
      | none => exact NotOlder.refl _
      | some n =>
        have isLater : limitsAt ≤ n := inOrder.trans (keysPassed n rfl).1
        by_cases known : keyId ∈ keysOf state.journal
        · exact notOlder_of_le (sound.timed.key ⟨noMeter n rfl keyId known,
            (sound.timed.told keyId).trans (noChange.trans isLater), noRefresh.trans isLater⟩)
        · exact notOlder_of_zero (ofKey_of_absent known)

theorem keeps_of_key (tenant : Option String) (sound : Sound state)
    (isPassed : n ≤ state.now) (isKey : ∀ tenantId ∈ tenant,
      keyAt state.journal n keyId = some tenantId)
    (before : state.maps.writes.KeyBefore keyId n) :
    Keeps state { state.maps with
      generation := state.maps.generation + 1
      keyTenants := Function.update state.maps.keyTenants keyId tenant
      keyTenantAt := Function.update state.maps.keyTenantAt keyId n
      writes := state.maps.writes.key keyId n state.now } where
  passed := by
    refine ⟨sound.passed.limits, sound.passed.suspended, fun other => ?_⟩
    simp only [Function.update_apply]
    split
    · exact isPassed
    · exact sound.passed.keyTenants other
  timed := by
    refine ⟨sound.timed.limits, sound.timed.suspended, fun other => ?_,
      fun other => (sound.timed.observed other).trans sound.timed.changed, fun other => ?_,
      Nat.le_refl _⟩
    all_goals simp only [Writes.key, Function.update_apply]
    · split
      case isTrue => exact le_max_of_le_right (le_max_left _ _)
      case isFalse => exact sound.timed.keyTenants other
    · split
      case isTrue => exact isPassed
      case isFalse => exact (sound.timed.told other).trans sound.timed.changed
  accurate := by
    refine ⟨sound.accurate.limits, sound.accurate.suspended, fun other tenantId isThere => ?_⟩
    simp only [Function.update_apply] at isThere ⊢
    split at isThere
    case isTrue same =>
      rw [if_pos same, same]
      exact isKey tenantId isThere
    case isFalse apart =>
      rw [if_neg apart]
      exact sound.accurate.keyTenants other tenantId isThere
  counts := .inl (Nat.lt_succ_self _)
  onward := by
    refine ⟨fun _ => NotOlder.refl _, fun _ => NotOlder.refl _, fun other => ?_⟩
    simp only [Function.update_apply]
    split
    case isTrue same =>
      rw [same]
      exact notOlder_of_le (sound.timed.key before)
    case isFalse => exact NotOlder.refl _

theorem sound_of_keeps {maps : Maps} (sound : Sound state) (keeps : Keeps state maps) :
    Sound { state with maps } where
  passed := keeps.passed
  timed := keeps.timed
  accurate := keeps.accurate
  tasks := fun task isTask => (sound.tasks task isTask).of_counts keeps.counts

theorem sound_of_tasks {tasks : List Task} (sound : Sound state)
    (told : ∀ task ∈ tasks, task.Told state) : Sound { state with tasks } where
  passed := ⟨sound.passed.limits, sound.passed.suspended, sound.passed.keyTenants⟩
  timed := { sound.timed with }
  accurate := ⟨sound.accurate.limits, sound.accurate.suspended, sound.accurate.keyTenants⟩
  tasks := told

theorem rest_told : (rest tenantId record).Told state := by
  rw [rest]
  split <;> trivial

theorem observed_fields {changes : Changes} (readAt : Nat)
    (committed : Committed state.journal tenantId changes committedAt) :
    (observed state.journal tenantId changes readAt).status =
        (tenantAt state.journal (from_ changes.status readAt committedAt) tenantId).status ∧
      (observed state.journal tenantId changes readAt).rateLimitPerMinute =
        (tenantAt state.journal (from_ changes.rateLimitPerMinute readAt committedAt)
          tenantId).rateLimitPerMinute := by
  obtain ⟨base, isRow⟩ := committed
  constructor
  · cases named : changes.status with
    | none => simp [observed, Changes.apply, from_, named]
    | some status => simp [observed, Changes.apply, from_, named, isRow]
  · cases named : changes.rateLimitPerMinute with
    | none => simp [observed, Changes.apply, from_, named]
    | some limit => simp [observed, Changes.apply, from_, named, isRow]

theorem from_le {Field : Type} {named : Option Field}
    (isRead : readAt ≤ n) (isCommitted : committedAt ≤ n) :
    from_ named readAt committedAt ≤ n := by
  rw [from_]
  split <;> assumption

theorem advance_keeps {after : Task} (sound : Sound state) (told : task.Told state)
    (admitted : task.Admitted state) (advanced : advance state task = some (next, after)) :
    Sound next ∧ after.Told next ∧ Onward state next ∧ next.tasks = state.tasks := by
  have kept : ∀ {maps : Maps}, Keeps state maps → after.Told { state with maps } →
      Sound { state with maps } ∧ after.Told { state with maps } ∧
        Onward state { state with maps } ∧ state.tasks = state.tasks := fun keeps told =>
    ⟨sound_of_keeps sound keeps, told, keeps.onward, rfl⟩
  cases task with
  | update tenantId changes =>
    cases advanced
    exact ⟨sound, Nat.le_refl _, onward_of_same rfl, rfl⟩
  | updating tenantId changes readAt =>
    cases advanced
    refine ⟨sound_of_append sound, ?_, onward_of_same rfl, rfl⟩
    refine ⟨Nat.le_trans told ?_, ?_, tenantAt state.journal state.now tenantId, ?_⟩
    · simp [State.now]
    · simp [State.now]
    · have isPart : ofTenant tenantId (.tenant tenantId
          (changes.apply (tenantAt state.journal state.now tenantId))) =
            some (changes.apply (tenantAt state.journal state.now tenantId)) := if_pos rfl
      exact congrArg (getD · {}) (Journal.valueAt_committed isPart)
  | updated tenantId changes readAt committedAt =>
    cases advanced
    obtain ⟨isRead, isCommitted, committed⟩ := told
    obtain ⟨isStatus, isLimit⟩ := observed_fields readAt committed
    exact kept (keeps_of_observe sound (from_le isRead isCommitted)
      (from_le isRead isCommitted) isStatus isLimit admitted.1 admitted.2) rest_told
  | apply tenantId =>
    cases advanced
    exact ⟨sound, Nat.le_refl _, onward_of_same rfl, rfl⟩
  | applying tenantId readAt =>
    rw [advance] at advanced
    split at advanced
    case isTrue =>
      cases advanced
      exact ⟨sound, trivial, onward_of_same rfl, rfl⟩
    case isFalse isThere =>
      cases advanced
      have before := admitted isThere
      exact kept (keeps_of_observe sound told told rfl rfl before before) rest_told
  | meter tenantId =>
    cases advanced
    exact ⟨sound, Nat.le_refl _, onward_of_same rfl, rfl⟩
  | metering tenantId readAt =>
    cases advanced
    exact kept (keeps_of_meter sound told admitted) trivial
  | refresh left started =>
    cases advanced
    exact ⟨sound, ⟨Nat.le_refl _, told, fun _ => sound.timed.changed⟩, onward_of_same rfl, rfl⟩
  | limits left started limitsAt =>
    cases advanced
    exact ⟨sound, ⟨told.1, Nat.le_refl _, told.2⟩, onward_of_same rfl, rfl⟩
  | suspensions left started limitsAt suspendedAt =>
    cases advanced
    refine ⟨sound, ⟨told.1, told.2.1, fun n isAt => ?_, told.2.2⟩, onward_of_same rfl, rfl⟩
    obtain ⟨-, isAt⟩ := ite_none_right_eq_some.mp isAt
    cases isAt
    exact ⟨told.2.1, Nat.le_refl _⟩
  | keys left started limitsAt suspendedAt keysAt =>
    rw [advance] at advanced
    split at advanced
    case isTrue applied =>
      cases advanced
      obtain ⟨inOrder, isPassed, keysPassed, guards⟩ := told
      obtain ⟨noRefresh, noMeter⟩ := admitted.1 applied
      have noChange : state.maps.writes.changed ≤ limitsAt := by
        by_cases unchanged : state.maps.generation = started
        · exact guards.2 unchanged
        · exact admitted.2 unchanged (applied.resolve_left unchanged)
      exact kept (keeps_of_replace sound inOrder isPassed keysPassed noRefresh noChange noMeter)
        trivial
    case isFalse =>
      cases advanced
      exact ⟨sound, Nat.le_refl _, onward_of_same rfl, rfl⟩
  | done => cases advanced

theorem keyAt_told {tenant : Option String}
    (isAt : state.journal[position]? = some (.key keyId tenant)) :
    keyAt state.journal (position + 1) keyId = tenant := by
  have within := (List.getElem?_eq_some_iff.mp isAt).1
  have isPart : ofKey keyId (.key keyId tenant) = some tenant := if_pos rfl
  have committed : Journal.valueAt (ofKey keyId) (state.journal.take position ++ _) _ =
      some tenant := Journal.valueAt_committed isPart
  have isTake : state.journal.take position ++ [Commit.key keyId tenant] =
      state.journal.take (position + 1) := by
    rw [List.take_add_one, isAt]
    rfl
  rw [isTake, length_take, Nat.min_eq_left (Nat.le_of_lt within), Journal.valueAt,
    Journal.seen, take_take, Nat.min_self] at committed
  rw [keyAt, Journal.valueAt, Journal.seen, committed]
  rfl

/-- A key of a tenant without a quota is counted by the generation alone. -/
theorem keeps_of_untold (sound : Sound state) :
    Keeps state { state.maps with
      generation := state.maps.generation + 1
      writes := { state.maps.writes with changed := state.now } } where
  passed := ⟨sound.passed.limits, sound.passed.suspended, sound.passed.keyTenants⟩
  timed :=
    { sound.timed with
      observed := fun tenantId => (sound.timed.observed tenantId).trans sound.timed.changed
      told := fun keyId => (sound.timed.told keyId).trans sound.timed.changed
      changed := Nat.le_refl _ }
  accurate := ⟨sound.accurate.limits, sound.accurate.suspended, sound.accurate.keyTenants⟩
  counts := .inl (Nat.lt_succ_self _)
  onward := ⟨fun _ => NotOlder.refl _, fun _ => NotOlder.refl _, fun _ => NotOlder.refl _⟩

theorem tell_keeps (sound : Sound state) (admitted : Admitted state (.tell position))
    (stepped : step state (.tell position) = some next) : Sound next ∧ Onward state next := by
  rw [step] at stepped
  split at stepped
  case h_1 keyId tenantId isAt =>
    cases stepped
    have passed := (List.getElem?_eq_some_iff.mp isAt).1
    rw [Maps.observeKey]
    split
    case isTrue limited =>
      have keeps := keeps_of_key (some tenantId) sound passed
        (fun other isTenant => by
          cases isTenant
          exact keyAt_told isAt) (admitted _ isAt limited)
      exact ⟨sound_of_keeps sound keeps, keeps.onward⟩
    case isFalse =>
      have keeps := keeps_of_untold sound
      exact ⟨sound_of_keeps sound keeps, keeps.onward⟩
  case h_2 keyId isAt =>
    cases stepped
    have passed := (List.getElem?_eq_some_iff.mp isAt).1
    have keeps := keeps_of_key none sound passed
      (fun other isTenant => by cases isTenant) (admitted _ isAt)
    exact ⟨sound_of_keeps sound keeps, keeps.onward⟩
  case h_3 => cases stepped

theorem step_keeps (stepped : step state action = some next)
    (admitted : Admitted state action) (sound : Sound state) :
    Sound next ∧ Onward state next := by
  have opened : ∀ task : Task, task.Told state →
      Sound { state with tasks := state.tasks ++ [task] } := by
    intro task told
    refine sound_of_tasks sound fun other isTask => ?_
    rcases mem_concat.mp isTask with before | rfl
    · exact sound.tasks other before
    · exact told
  cases action with
  | commit committed =>
    cases stepped
    exact ⟨sound_of_append sound, onward_of_same rfl⟩
  | update tenantId changes =>
    cases stepped
    exact ⟨opened _ trivial, onward_of_same rfl⟩
  | apply tenantId =>
    cases stepped
    exact ⟨opened _ trivial, onward_of_same rfl⟩
  | refresh attempts =>
    cases stepped
    exact ⟨opened _ (Nat.le_refl _), onward_of_same rfl⟩
  | advance position =>
    obtain ⟨task, isTask, moved⟩ := bind_eq_some_iff.mp stepped
    obtain ⟨⟨advanced, after⟩, isAdvanced, rfl⟩ := map_eq_some_iff.mp moved
    obtain ⟨isSound, told, onward, sameTasks⟩ := advance_keeps sound
      (sound.tasks task (mem_of_getElem? isTask)) (admitted task isTask) isAdvanced
    rw [← sameTasks]
    exact ⟨sound_of_tasks isSound (forall_mem_set isSound.tasks told),
      ⟨onward.limits, onward.suspended, onward.keyTenants⟩⟩
  | tell position => exact tell_keeps sound admitted stepped

theorem journal_prefix (stepped : step state action = some next) :
    state.journal <+: next.journal := by
  cases action with
  | advance position =>
    obtain ⟨task, -, moved⟩ := bind_eq_some_iff.mp stepped
    obtain ⟨⟨advanced, after⟩, isAdvanced, rfl⟩ := map_eq_some_iff.mp moved
    cases task with
    | updating tenantId changes readAt =>
      cases isAdvanced
      exact prefix_append _ _
    | applying | keys =>
      rw [advance] at isAdvanced
      split at isAdvanced <;> cases isAdvanced <;> exact prefix_rfl
    | done => cases isAdvanced
    | _ =>
      cases isAdvanced
      exact prefix_rfl
  | tell position =>
    rw [step] at stepped
    split at stepped
    case h_3 => cases stepped
    all_goals
      cases stepped
      exact prefix_rfl
  | commit committed =>
    cases stepped
    exact prefix_append _ _
  | update | apply | refresh =>
    cases stepped
    exact prefix_rfl

theorem Onward.trans {last : State} (first : Onward state next) (second : Onward next last)
    (passed : Passed state) (nextPassed : Passed next) (grows : state.journal <+: next.journal)
    (laterGrows : next.journal <+: last.journal) : Onward state last := by
  have within : ∀ {n : Nat}, n ≤ state.now → n ≤ next.journal.length := fun isPassed =>
    Nat.le_trans isPassed grows.length_le
  obtain ⟨more, isLast⟩ := laterGrows
  constructor
  · intro tenantId
    have early := (first.limits tenantId).append more
      (within (passed.limits tenantId)) (nextPassed.limits tenantId)
    rw [isLast] at early
    exact Nat.le_trans early (second.limits tenantId)
  · intro tenantId
    have early := (first.suspended tenantId).append more
      (within (passed.suspended tenantId)) (nextPassed.suspended tenantId)
    rw [isLast] at early
    exact Nat.le_trans early (second.suspended tenantId)
  · intro keyId
    have early := (first.keyTenants keyId).append more
      (within (passed.keyTenants keyId)) (nextPassed.keyTenants keyId)
    rw [isLast] at early
    exact Nat.le_trans early (second.keyTenants keyId)

theorem run_keeps {actions : List Action} :
    ∀ {state last : State}, run step state actions = some last →
      Meets step Admitted state actions → Sound state →
        Sound last ∧ Onward state last ∧ state.journal <+: last.journal := by
  induction actions with
  | nil =>
    intro state last reached _ sound
    cases reached
    exact ⟨sound, onward_of_same rfl, prefix_rfl⟩
  | cons action later ih =>
    intro state last reached meets sound
    obtain ⟨next, stepped, rest⟩ := run_cons_eq_some reached
    obtain ⟨admitted, laterMeets⟩ := meets
    rw [stepped] at laterMeets
    obtain ⟨nextSound, onward⟩ := step_keeps stepped admitted sound
    obtain ⟨lastSound, laterOnward, laterGrows⟩ := ih rest laterMeets nextSound
    have grows := journal_prefix stepped
    exact ⟨lastSound, onward.trans laterOnward sound.passed nextSound.passed grows laterGrows,
      grows.trans laterGrows⟩

end

theorem sound_start : Sound {} where
  passed := ⟨fun _ => Nat.le_refl _, fun _ => Nat.le_refl _, fun _ => Nat.le_refl _⟩
  timed := ⟨fun _ => Nat.zero_le _, fun _ => Nat.zero_le _, fun _ => Nat.zero_le _,
    fun _ => Nat.le_refl _, fun _ => Nat.le_refl _, Nat.le_refl _⟩
  accurate := ⟨fun _ => rfl, fun _ => ⟨nofun, nofun⟩, nofun⟩
  tasks _ none_ := by cases none_

def twice (first later : List Action) : Option (Bool × Bool × Bool) :=
  (run step {} first).bind fun middle =>
    (run step middle later).map fun last =>
      (middle.maps.suspended "kepler", last.maps.suspended "kepler",
        decide (NotOlder last.journal (ofTenant "kepler") (middle.maps.suspendedAt "kepler")
          (last.maps.suspendedAt "kepler")))

def suspend : Changes := { status := some .suspended }

def eventFirst : List Action :=
  [.commit (.tenant "kepler" {}), .apply "kepler", .advance 0, .update "kepler" suspend,
    .advance 1, .advance 1, .advance 1]

def refreshFirst : List Action :=
  [.commit (.tenant "kepler" {}), .refresh 3, .advance 0, .advance 0, .advance 0,
    .commit (.tenant "kepler" { status := .suspended }), .refresh 3, .advance 1, .advance 1,
    .advance 1, .advance 1]

def attemptFirst : List Action :=
  [.commit (.tenant "kepler" {}), .refresh 1, .advance 0, .advance 0, .advance 0,
    .update "kepler" suspend, .advance 1, .advance 1, .advance 1]

theorem not_onward_of_twice {first later : List Action}
    (isTwice : twice first later = some (true, false, false)) :
    ∃ middle last, run step {} first = some middle ∧ run step middle later = some last ∧
      middle.maps.suspended "kepler" = true ∧ last.maps.suspended "kepler" = false ∧
      ¬Onward middle last := by
  obtain ⟨middle, toMiddle, ends⟩ := bind_eq_some_iff.mp isTwice
  obtain ⟨last, toLast, whole⟩ := map_eq_some_iff.mp ends
  simp only [Prod.mk.injEq] at whole
  exact ⟨middle, last, toMiddle, toLast, whole.1, whole.2.1, fun onward =>
    of_decide_eq_false whole.2.2 (onward.suspended "kepler")⟩

/-- A suspended tenant is served again: by an event, by a slower refresh, and by the last attempt
of one. -/
theorem suspended_tenant_is_served_again :
    (∃ middle last, run step {} eventFirst = some middle ∧
      run step middle [.advance 0] = some last ∧ middle.maps.suspended "kepler" = true ∧
      last.maps.suspended "kepler" = false ∧ ¬Onward middle last) ∧
    (∃ middle last, run step {} refreshFirst = some middle ∧
      run step middle [.advance 0] = some last ∧ middle.maps.suspended "kepler" = true ∧
      last.maps.suspended "kepler" = false ∧ ¬Onward middle last) ∧
    ∃ middle last, run step {} attemptFirst = some middle ∧
      run step middle [.advance 0] = some last ∧ middle.maps.suspended "kepler" = true ∧
      last.maps.suspended "kepler" = false ∧ ¬Onward middle last :=
  ⟨not_onward_of_twice (by decide +kernel), not_onward_of_twice (by decide +kernel),
    not_onward_of_twice (by decide +kernel)⟩

/-- In every run whose tasks do not overlap in what they write, refreshes with local changes and
events excepted where the generation is compared, the maps never go back, and they say what was
there when it was read. -/
theorem registry_onward :
    ∀ first later middle last, run step {} first = some middle →
      run step middle later = some last → Meets step Admitted {} first →
        Meets step Admitted middle later → Onward middle last ∧ Accurate last := by
  intro first later middle last toMiddle toLast meets laterMeets
  obtain ⟨middleSound, -, -⟩ := run_keeps toMiddle meets sound_start
  obtain ⟨lastSound, onward, -⟩ := run_keeps toLast laterMeets middleSound
  exact ⟨onward, lastSound.accurate⟩

def inOrder : List Action :=
  [.commit (.tenant "kepler" { rateLimitPerMinute := some 60 }),
    .commit (.key "k1" (some "kepler")), .apply "kepler", .advance 0, .advance 0, .advance 0,
    .advance 0, .update "kepler" suspend, .advance 1, .advance 1, .advance 1]

/-- An event is applied while a refresh reads, which begins again. -/
def thenAgain : List Action :=
  [.refresh 3, .advance 2, .apply "kepler", .advance 2, .advance 3, .advance 3, .advance 2,
    .advance 2, .advance 2, .advance 2, .advance 2, .advance 2, .commit (.key "k1" none), .tell 3]

theorem registry_onward_inOrder :
    ∃ middle last, run step {} inOrder = some middle ∧ run step middle thenAgain = some last ∧
      middle.maps.suspended "kepler" = true ∧ last.maps.limits "kepler" = some 60 ∧
      Onward middle last ∧ Accurate last := by
  have ends : ((run step {} inOrder).bind fun middle =>
      (run step middle thenAgain).map fun last =>
        (middle.maps.suspended "kepler", last.maps.limits "kepler",
          decide (Meets step Admitted middle thenAgain))) = some (true, some 60, true) := by
    decide +kernel
  have meets : Meets step Admitted {} inOrder := by decide +kernel
  obtain ⟨middle, toMiddle, rest⟩ := bind_eq_some_iff.mp ends
  obtain ⟨last, toLast, whole⟩ := map_eq_some_iff.mp rest
  simp only [Prod.mk.injEq] at whole
  obtain ⟨isSuspended, isLimit, laterMeets⟩ := whole
  obtain ⟨onward, accurate⟩ := registry_onward inOrder thenAgain middle last toMiddle toLast meets
    (of_decide_eq_true laterMeets)
  exact ⟨middle, last, toMiddle, toLast, isSuspended, isLimit, onward, accurate⟩

end MemoryService.Tenancy.Registry
