import MemoryService.Tenancy.TenantKeys

/-!
# What a listing of the keys does not reach

The first hundred rows are not all the keys, and a key whose workspace was checked before the
deletion may be issued after it.
-/

namespace MemoryService.Tenancy

open Domain Foundation List

def Work.hasListed (workspace : String × String) : Work → Bool
  | .delete tenantId workspaceId (.listed _ _) => (tenantId, workspaceId) = workspace
  | _ => false

/-- The keys that a deletion or a suspension is about are listed, and none is issued for a workspace
whose keys have been. -/
def Work.Admitted (state : State) (available : Bool) : Work → Prop
  | .delete tenantId workspaceId .found =>
    ∀ key ∈ state.keys, boundTo key (tenantId, workspaceId) = true →
      key.usableAt state.now = true → key ∈ listKeys state.keys tenantId
  | .issue key _ .added =>
    ∀ workspaceId ∈ key.workspaceId,
      (∀ workspace ∈ state.deleted, (key.tenantId, workspaceId) ≠ workspace) ∧
        ∀ unit ∈ state.units, unit.hasListed (key.tenantId, workspaceId) = false
  | .suspend tenantId (.committed rows _) =>
    (available = true ∧ ∀ key ∈ state.live tenantId, key ∈ listKeys state.keys tenantId) ∨
      (rows = state.rows tenantId ∧ rows ≤ 100)
  | _ => True

def Admitted (state : State) : Action → Prop
  | .advance position available => ∀ unit ∈ state.units[position]?, unit.Admitted state available
  | _ => True

instance (state : State) (available : Bool) (unit : Work) :
    Decidable (unit.Admitted state available) := by
  unfold Work.Admitted
  split <;> infer_instance

instance (state : State) (action : Action) : Decidable (Admitted state action) := by
  unfold Admitted
  split <;> infer_instance

variable {rows position at_ : Nat} {tombstoned ids : List String} {after : Work} {key : ApiKey}
  {workspaceId : String} {available : Bool} {state : State}

section

variable {state next : State} {tenantId : String}

def Covers (state : State) (tenantId : String) (rows : Nat) (tombstoned : List String) : Prop :=
  rows ≤ state.rows tenantId ∧ (rows = state.rows tenantId → rows ≤ 100 →
    ∀ key ∈ state.keys, key.tenantId = tenantId → key.keyId ∈ tombstoned)

def Work.Told (state : State) : Work → Prop
  | .delete tenantId workspaceId (.listed _ ids) =>
    ∀ key ∈ state.keys, boundTo key (tenantId, workspaceId) = true →
      key.usableAt state.now = true → key.keyId ∈ ids
  | .delete _ _ (.deleted ids made) => made ⊆ ids
  | .suspend tenantId (.invalidated rows tombstoned) => Covers state tenantId rows tombstoned
  | .suspend tenantId (.committed rows tombstoned) => Covers state tenantId rows tombstoned
  | .suspend _ (.suspended live tombstoned) => live ⊆ tombstoned
  | _ => True

structure Sound (state : State) : Prop where
  deleted : ∀ workspace ∈ state.deleted, ∀ key ∈ state.keys, boundTo key workspace = true →
    key.usableAt state.now = false
  units : ∀ unit ∈ state.units, unit.Told state

structure Fewer (state next : State) : Prop where
  usable : ∀ key ∈ next.keys, key.usableAt next.now = true →
    key ∈ state.keys ∧ key.usableAt state.now = true
  ids : ∀ key ∈ next.keys, ∃ old ∈ state.keys, old.keyId = key.keyId ∧ old.tenantId = key.tenantId
  rows : ∀ tenantId, next.rows tenantId = state.rows tenantId

theorem Covers.fewer (covers : Covers state tenantId rows tombstoned) (fewer : Fewer state next) :
    Covers next tenantId rows tombstoned := by
  rw [Covers, fewer.rows]
  refine ⟨covers.1, fun same fits key isKey isOf => ?_⟩
  obtain ⟨old, isOld, sameId, sameTenant⟩ := fewer.ids key isKey
  exact sameId ▸ covers.2 same fits old isOld (sameTenant.trans isOf)

theorem Work.Told.fewer {unit : Work} (told : unit.Told state) (fewer : Fewer state next) :
    unit.Told next := by
  unfold Work.Told at told ⊢
  split at told
  case h_1 =>
    intro key isKey isBound isUsable
    obtain ⟨isOld, wasUsable⟩ := fewer.usable key isKey isUsable
    exact told key isOld isBound wasUsable
  case h_2 => exact told
  case h_3 => exact Covers.fewer told fewer
  case h_4 => exact Covers.fewer told fewer
  case h_5 => exact told
  case h_6 => trivial

theorem sound_of_fewer (sound : Sound state) (fewer : Fewer state next)
    (sameDeleted : next.deleted = state.deleted) (sameUnits : next.units = state.units) :
    Sound next where
  deleted := by
    rw [sameDeleted]
    intro workspace isDeleted key isKey isBound
    refine Bool.eq_false_iff.mpr fun isUsable => ?_
    obtain ⟨isOld, wasUsable⟩ := fewer.usable key isKey isUsable
    exact absurd (sound.deleted workspace isDeleted key isOld isBound) (by rw [wasUsable]; decide)
  units := by
    rw [sameUnits]
    exact fun unit isUnit => (sound.units unit isUnit).fewer fewer

theorem sound_of_unit (sound : Sound state)
    (told : after.Told state) : Sound { state with units := state.units.set position after } where
  deleted := sound.deleted
  units := forall_mem_set sound.units told

theorem not_usable_of_revoked {now : Nat} :
    ({ key with revokedAt := some at_ } : ApiKey).usableAt now = false := rfl

theorem fewer_of_revoke :
    Fewer state { state with keys := revoke tenantId ids at_ state.keys } where
  usable key isKey isUsable := by
    rcases mem_updateWhere_cases isKey with ⟨old, -, -, rfl⟩ | ⟨isOld, -⟩
    · rw [not_usable_of_revoked] at isUsable
      cases isUsable
    · exact ⟨isOld, isUsable⟩
  ids key isKey := by
    rcases mem_updateWhere_cases isKey with ⟨old, isOld, -, rfl⟩ | ⟨isOld, -⟩
    · exact ⟨old, isOld, rfl, rfl⟩
    · exact ⟨key, isOld, rfl, rfl⟩
  rows other := by
    have sameTenants : (revoke tenantId ids at_ state.keys).map ApiKey.tenantId =
        state.keys.map ApiKey.tenantId := map_updateWhere fun _ => rfl
    have counted : ∀ keys : List ApiKey, (keys.filter fun key => key.tenantId = other).length =
        (keys.map ApiKey.tenantId).countP fun tenant => tenant = other := fun keys => by
      rw [countP_map, countP_eq_length_filter]
      rfl
    rw [State.rows, State.rows, counted, counted, sameTenants]

theorem fewer_of_tick {passed : Nat} : Fewer state { state with now := state.now + passed } where
  usable key isKey isUsable := by
    refine ⟨isKey, ?_⟩
    by_contra notUsable
    have never := ApiKey.not_usable_mono (Nat.le_add_right state.now passed)
      (Bool.eq_false_iff.mpr notUsable)
    rw [never] at isUsable
    cases isUsable
  ids key isKey := ⟨key, isKey, rfl, rfl⟩
  rows _ := rfl

theorem sound_of_deleted (sound : Sound state)
    (told : ∀ key ∈ state.keys, boundTo key (tenantId, workspaceId) = true →
      key.usableAt state.now = true → key.keyId ∈ ids)
    (fewer : Fewer state next) (isKeys : next.keys = revoke tenantId ids at_ state.keys)
    (isDeleted : next.deleted = state.deleted ++ [(tenantId, workspaceId)])
    (sameUnits : next.units = state.units) : Sound next where
  deleted := by
    rw [isDeleted]
    intro workspace isWorkspace key isKey isBound
    refine Bool.eq_false_iff.mpr fun isUsable => ?_
    obtain ⟨isOld, wasUsable⟩ := fewer.usable key isKey isUsable
    rcases mem_concat.mp isWorkspace with before | rfl
    · exact absurd (sound.deleted workspace before key isOld isBound) (by rw [wasUsable]; decide)
    · have isListed := told key isOld isBound wasUsable
      rw [isKeys] at isKey
      rcases mem_updateWhere_cases isKey with ⟨old, -, -, rfl⟩ | ⟨-, notRevoked⟩
      · rw [not_usable_of_revoked] at isUsable
        cases isUsable
      · -- a key that was listed is revoked
        have isOf : key.tenantId = tenantId := by
          rw [boundTo, Bool.and_eq_true] at isBound
          exact of_decide_eq_true isBound.1
        have isRevoked : revoked tenantId ids key = true := by
          rw [revoked, Bool.and_eq_true, Bool.and_eq_true, decide_eq_true_eq, any_eq_true]
          exact ⟨⟨isOf, key.keyId, isListed, decide_eq_true rfl⟩,
            Option.isNone_iff_eq_none.mpr (ApiKey.usableAt_eq_true.mp isUsable).1⟩
        rw [isRevoked] at notRevoked
        cases notRevoked
  units := by
    rw [sameUnits]
    exact fun unit isUnit => (sound.units unit isUnit).fewer fewer

theorem made_subset : (state.keys.filter (revoked tenantId ids)).map ApiKey.keyId ⊆ ids := by
  intro id isMade
  obtain ⟨key, isKey, rfl⟩ := mem_map.mp isMade
  have isRevoked := (mem_filter.mp isKey).2
  rw [revoked, Bool.and_eq_true, Bool.and_eq_true, any_eq_true] at isRevoked
  obtain ⟨id, isId, same⟩ := isRevoked.1.2
  rw [of_decide_eq_true same]
  exact isId

theorem sound_of_deleteWorkspace {stage : DeleteStage} (sound : Sound state)
    (told : (Work.delete tenantId workspaceId stage).Told state)
    (admitted : (Work.delete tenantId workspaceId stage).Admitted state available)
    (advanced : deleteWorkspace state tenantId workspaceId stage = some (next, after)) :
    Sound { next with units := state.units.set position after } := by
  cases stage with
  | asked =>
    rw [deleteWorkspace] at advanced
    obtain ⟨-, advanced⟩ := Option.ite_none_left_eq_some.mp advanced
    cases advanced
    exact sound_of_unit sound trivial
  | serialized =>
    cases advanced
    refine sound_of_unit sound ?_
    split
    case isTrue => trivial
    case isFalse =>
      split
      case isTrue => exact List.Subset.refl _
      case isFalse => trivial
  | found =>
    cases advanced
    refine sound_of_unit sound fun key isKey isBound isUsable => ?_
    have isListed := admitted key isKey isBound isUsable
    refine mem_map_of_mem (mem_filter.mpr ⟨isListed, ?_⟩)
    rw [boundTo, Bool.and_eq_true] at isBound
    rw [isUsable, Bool.and_true]
    exact isBound.2
  | listed at_ ids =>
    cases advanced
    have isSound : Sound { state with
        keys := revoke tenantId ids at_ state.keys
        workspaces := state.workspaces.filter ((tenantId, workspaceId) ≠ ·)
        deleted := state.deleted ++ [(tenantId, workspaceId)] } :=
      sound_of_deleted sound told { fewer_of_revoke with } rfl rfl rfl
    exact sound_of_unit isSound made_subset
  | deleted ids made => cases advanced
  | refused => cases advanced

theorem rows_of_issued (other : String) :
    ({ state with keys := state.keys ++ [key] } : State).rows other =
      state.rows other + if key.tenantId = other then 1 else 0 := by
  rw [State.rows, State.rows, filter_append, length_append]
  congr 1
  by_cases isOf : key.tenantId = other
  · simp [isOf]
  · simp [isOf]

theorem Covers.issued (covers : Covers state tenantId rows tombstoned) :
    Covers { state with keys := state.keys ++ [key] } tenantId rows tombstoned := by
  rw [Covers, rows_of_issued]
  refine ⟨Nat.le_add_right_of_le covers.1, fun same fits other isOther isOf => ?_⟩
  have notMore := covers.1
  split at same
  case isTrue => omega
  case isFalse elsewhere =>
    rcases mem_concat.mp isOther with before | rfl
    · exact covers.2 same fits other before isOf
    · exact absurd isOf elsewhere

theorem sound_of_issued (sound : Sound state)
    (free : ∀ workspaceId ∈ key.workspaceId,
      (∀ workspace ∈ state.deleted, (key.tenantId, workspaceId) ≠ workspace) ∧
        ∀ unit ∈ state.units, unit.hasListed (key.tenantId, workspaceId) = false) :
    Sound { state with keys := state.keys ++ [key] } where
  deleted := by
    intro workspace isDeleted other isOther isBound
    rcases mem_append.mp isOther with before | isNew
    · exact sound.deleted workspace isDeleted other before isBound
    · rw [mem_singleton.mp isNew, boundTo, Bool.and_eq_true] at isBound
      obtain ⟨isOf, isIn⟩ := isBound
      have notDeleted := (free workspace.2 (of_decide_eq_true isIn)).1 workspace isDeleted
      have isWorkspace : (key.tenantId, workspace.2) = workspace :=
        Prod.ext (of_decide_eq_true isOf) rfl
      exact absurd isWorkspace notDeleted
  units := by
    intro unit isUnit
    have told := sound.units unit isUnit
    cases unit with
    | issue other expiresInDays stage => trivial
    | delete tenantId workspaceId stage =>
      cases stage with
      | listed at_ ids =>
        intro other isOther isBound isUsable
        rcases mem_append.mp isOther with before | isNew
        · exact told other before isBound isUsable
        · rw [mem_singleton.mp isNew, boundTo, Bool.and_eq_true] at isBound
          obtain ⟨isOf, isIn⟩ := isBound
          have notListed := (free workspaceId (of_decide_eq_true isIn)).2 _ isUnit
          rw [Work.hasListed, decide_eq_false_iff_not, of_decide_eq_true isOf] at notListed
          exact absurd rfl notListed
      | deleted ids made => exact told
      | asked | serialized | found | refused => trivial
    | suspend tenantId stage =>
      cases stage with
      | invalidated rows tombstoned => exact Covers.issued told
      | committed rows tombstoned => exact Covers.issued told
      | suspended live tombstoned => exact told
      | asked => trivial

theorem sound_of_issueKey {expiresInDays : Option Nat} {stage : IssueStage} (sound : Sound state)
    (admitted : (Work.issue key expiresInDays stage).Admitted state available)
    (advanced : issueKey state key expiresInDays stage = some (next, after)) :
    Sound { next with units := state.units.set position after } := by
  cases stage with
  | asked =>
    cases advanced
    exact sound_of_unit sound trivial
  | checked =>
    rw [issueKey] at advanced
    obtain ⟨-, advanced⟩ := Option.ite_none_left_eq_some.mp advanced
    cases advanced
    exact sound_of_unit sound trivial
  | serialized =>
    rw [issueKey] at advanced
    split at advanced <;>
    · cases advanced
      exact sound_of_unit sound trivial
  | added =>
    cases advanced
    exact sound_of_unit (sound_of_issued sound admitted) trivial
  | issued => cases advanced
  | refused => cases advanced

theorem mem_listKeys (isKey : key ∈ state.keys) (isOf : key.tenantId = tenantId)
    (fits : state.rows tenantId ≤ 100) : key ∈ listKeys state.keys tenantId := by
  rw [listKeys, take_of_length_le (by rw [length_insertionSort]; exact fits),
    (perm_insertionSort _ _).mem_iff]
  exact mem_filter.mpr ⟨isKey, decide_eq_true isOf⟩

theorem covers_now : Covers state tenantId (state.rows tenantId)
    (invalidateTenant state tenantId) :=
  ⟨Nat.le_refl _, fun _ fits _ isKey isOf => mem_map_of_mem (mem_listKeys isKey isOf fits)⟩

theorem sound_of_suspendTenant {stage : SuspendStage}
    (sound : Sound state) (told : (Work.suspend tenantId stage).Told state)
    (admitted : (Work.suspend tenantId stage).Admitted state available)
    (advanced : suspendTenant state tenantId available stage = some (next, after)) :
    Sound { next with units := state.units.set position after } := by
  cases stage with
  | asked =>
    cases advanced
    exact sound_of_unit sound covers_now
  | invalidated rows tombstoned =>
    cases advanced
    have isSound : Sound { state with
        statuses := fun other =>
          if other = tenantId then .suspended else state.statuses other } :=
      sound_of_fewer sound ⟨fun _ isKey isUsable => ⟨isKey, isUsable⟩,
        fun key isKey => ⟨key, isKey, rfl, rfl⟩, fun _ => rfl⟩ rfl rfl
    exact sound_of_unit isSound told
  | committed rows tombstoned =>
    cases advanced
    refine sound_of_unit sound fun id isLive => ?_
    obtain ⟨key, isKey, rfl⟩ := mem_map.mp isLive
    rcases admitted with ⟨isThere, listed⟩ | ⟨same, fits⟩
    · rw [isThere, if_pos rfl]
      exact mem_append_right _ (mem_map_of_mem (listed key isKey))
    · obtain ⟨isIn, isOf⟩ := mem_filter.mp isKey
      rw [Bool.and_eq_true] at isOf
      exact mem_append_left _ (told.2 same fits key isIn (of_decide_eq_true isOf.1))
  | suspended live tombstoned => cases advanced

theorem sound_step {action : Action} (stepped : step state action = some next)
    (admitted : Admitted state action) (sound : Sound state) : Sound next := by
  have opened : ∀ unit : Work, unit.Told state →
      Sound { state with units := state.units ++ [unit] } := by
    intro unit told
    refine { sound with units := fun other isUnit => ?_ }
    rcases mem_concat.mp isUnit with before | rfl
    · exact sound.units other before
    · exact told
  cases action with
  | issue key expiresInDays =>
    cases stepped
    exact opened _ trivial
  | delete tenantId workspaceId =>
    cases stepped
    exact opened _ trivial
  | suspend tenantId =>
    cases stepped
    exact opened _ trivial
  | advance position available =>
    obtain ⟨unit, isUnit, moved⟩ := Option.bind_eq_some_iff.mp stepped
    obtain ⟨⟨after, work⟩, advanced, rfl⟩ := Option.map_eq_some_iff.mp moved
    have told := sound.units unit (mem_of_getElem? isUnit)
    have isAdmitted := admitted unit isUnit
    cases unit with
    | issue key expiresInDays stage =>
      exact sound_of_issueKey sound isAdmitted advanced
    | delete tenantId workspaceId stage =>
      exact sound_of_deleteWorkspace sound told isAdmitted advanced
    | suspend tenantId stage =>
      exact sound_of_suspendTenant sound told isAdmitted advanced
  | abandon position =>
    rw [step] at stepped
    obtain ⟨-, stepped⟩ := Option.ite_none_right_eq_some.mp stepped
    cases stepped
    exact { sound with
      units := fun unit isUnit => sound.units unit (mem_of_mem_eraseIdx isUnit) }
  | revoke tenantId keyId =>
    cases stepped
    exact sound_of_fewer sound fewer_of_revoke rfl rfl
  | tick passed =>
    cases stepped
    exact sound_of_fewer sound fewer_of_tick rfl rfl

theorem reached_of_sound (sound : Sound state) : Reached state where
  deleted _ workspace isDeleted key isKey isBound :=
    sound.deleted workspace isDeleted key isKey isBound
  returned _ _ _ _ isUnit := sound.units _ isUnit
  suspended _ _ _ isUnit := sound.units _ isUnit

end

def State.outlived (state : State) : Bool :=
  (state.units.all fun unit => !unit.running) &&
    state.deleted.any fun workspace =>
      state.keys.any fun key => boundTo key workspace && key.usableAt state.now

def Work.missed : Work → Bool
  | .suspend _ (.suspended live tombstoned) => live.any fun id => !tombstoned.contains id
  | _ => false

theorem not_reached_of_outlived (outlived : state.outlived = true) : ¬Reached state := by
  intro reached
  rw [State.outlived, Bool.and_eq_true, all_eq_true, any_eq_true] at outlived
  obtain ⟨noneRuns, workspace, isDeleted, some_⟩ := outlived
  obtain ⟨key, isKey, isLive⟩ := any_eq_true.mp some_
  rw [Bool.and_eq_true] at isLive
  have notLive := reached.deleted (fun unit isUnit => by simpa using noneRuns unit isUnit)
    workspace isDeleted key isKey isLive.1
  rw [isLive.2] at notLive
  cases notLive

theorem not_reached_of_missed (missed : state.units.any Work.missed = true) : ¬Reached state := by
  intro reached
  obtain ⟨unit, isUnit, isMissed⟩ := any_eq_true.mp missed
  rw [Work.missed.eq_def] at isMissed
  split at isMissed
  case h_1 tenantId live tombstoned =>
    obtain ⟨id, isLive, notThere⟩ := any_eq_true.mp isMissed
    have isThere := reached.suspended _ _ _ isUnit isLive
    rw [contains_iff_mem.mpr isThere] at notThere
    cases notThere
  case h_2 => cases isMissed

def labKey : ApiKey where
  keyId := "k100"
  tenantId := "kepler"
  workspaceId := some "lab"
  secretHash := "s100"
  createdAt := 100

def rotated : List ApiKey :=
  (List.range 100).map fun n =>
    { labKey with keyId := "k" ++ n.repr, createdAt := n, revokedAt := some n }

def atWork (keys : List ApiKey) : State where
  keys := keys
  workspaces := [("kepler", "lab")]
  now := 101

def deletion (position : Nat) : List Action :=
  .delete "kepler" "lab" :: List.replicate 4 (.advance position true)

def suspension : List Action := .suspend "kepler" :: List.replicate 3 (.advance 0 true)

def issuedAfter : List Action :=
  [.issue labKey none, .advance 0 true] ++ deletion 1 ++ List.replicate 3 (.advance 0 true)

/-- The hundred and first key outlives its workspace, and the suspension of its tenant misses it;
and a key that is issued while its workspace is deleted outlives it too. -/
theorem keys_are_not_reached :
    (∃ state, run step (atWork (rotated ++ [labKey])) (deletion 0) = some state ∧ ¬Reached state) ∧
    (∃ state, run step (atWork []) issuedAfter = some state ∧ ¬Reached state) ∧
    ∃ state, run step (atWork (rotated ++ [labKey])) suspension = some state ∧ ¬Reached state := by
  refine ⟨?_, ?_, ?_⟩
  · have ends : (run step (atWork (rotated ++ [labKey])) (deletion 0)).map State.outlived =
        some true := by decide +kernel
    obtain ⟨state, reached, outlived⟩ := Option.map_eq_some_iff.mp ends
    exact ⟨state, reached, not_reached_of_outlived outlived⟩
  · have ends : (run step (atWork []) issuedAfter).map State.outlived = some true := by
      decide +kernel
    obtain ⟨state, reached, outlived⟩ := Option.map_eq_some_iff.mp ends
    exact ⟨state, reached, not_reached_of_outlived outlived⟩
  · have ends : (run step (atWork (rotated ++ [labKey])) suspension).map
        (fun state => state.units.any Work.missed) = some true := by decide +kernel
    obtain ⟨state, reached, missed⟩ := Option.map_eq_some_iff.mp ends
    exact ⟨state, reached, not_reached_of_missed missed⟩

/-- Whatever keys and workspaces there are to begin with: in every run in which the live keys
that a step is about are among those that are listed, and no key is issued for a workspace whose
keys have been listed for deletion, deletions and suspensions reach every live key. -/
theorem reached_of_admitted (keys : List ApiKey) (workspaces : List (String × String))
    (statuses : String → TenantStatus) (now : Nat) :
    ∀ actions state, run step { keys, workspaces, statuses, now } actions = some state →
      Meets step Admitted { keys, workspaces, statuses, now } actions → Reached state :=
  fun _ _ reached meets =>
    reached_of_sound (run_invariant_of_meets sound_step reached meets
      ⟨fun _ isDeleted => (by cases isDeleted), fun _ isUnit => (by cases isUnit)⟩)

def inTurn : List Action :=
  [.issue labKey (some 30)] ++ List.replicate 4 (.advance 0 true) ++ deletion 1 ++
    [.suspend "kepler"] ++ List.replicate 3 (.advance 2 true)

theorem reached_of_inTurn :
    ∃ state, run step (atWork []) inTurn = some state ∧
      state.keys.map (fun key => (key.keyId, key.revokedAt)) = [("k100", some 101)] ∧
      Meets step Admitted (atWork []) inTurn ∧ Reached state :=
  exists_run_showing (by decide +kernel) fun state reached =>
    have meets : Meets step Admitted (atWork []) inTurn := by decide +kernel
    ⟨meets,
      reached_of_admitted [] [("kepler", "lab")] (fun _ => .active) 101 inTurn state reached meets⟩

end MemoryService.Tenancy
