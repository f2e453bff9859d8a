import MemoryService.Auth.Keys

/-!
# A revoked key is refused at once

A record that was read before a change can still be on its way to the cache when the change
commits.
-/

namespace MemoryService.Auth

open Domain Foundation List Option

def Value.Shields (now : Nat) : Value → Prop
  | .record cached => cached.key.usableAt now = false
  | .tombstone => True
  | .missing => False

instance (now : Nat) (value : Value) : Decidable (value.Shields now) := by
  cases value <;> unfold Value.Shields <;> infer_instance

theorem Value.Shields.mono {now later : Nat} {value : Value} (notBefore : now ≤ later)
    (shields : value.Shields now) : value.Shields later := by
  cases value with
  | record cached => exact ApiKey.not_usable_mono notBefore shields
  | tombstone => trivial
  | missing => exact shields

structure Older (row later : ApiKey) : Prop where
  expires : row.expiresAt = later.expiresAt
  revoked : later.revokedAt = none → row.revokedAt = none

theorem Older.refl (row : ApiKey) : Older row row := ⟨rfl, id⟩

theorem Older.trans {first second third : ApiKey} (older : Older first second)
    (later : Older second third) : Older first third :=
  ⟨older.expires.trans later.expires, older.revoked ∘ later.revoked⟩

theorem Older.not_usable {row later : ApiKey} {now : Nat} (older : Older row later)
    (notUsable : row.usableAt now = false) : later.usableAt now = false := by
  refine Bool.eq_false_iff.mpr fun usable => Bool.eq_false_iff.mp notUsable ?_
  obtain ⟨notRevoked, notExpired⟩ := ApiKey.usableAt_eq_true.mp usable
  exact ApiKey.usableAt_eq_true.mpr
    ⟨older.revoked notRevoked, by rw [older.expires]; exact notExpired⟩

theorem Work.update_older {work : Work} {at_ : Nat} {row later : ApiKey}
    (updated : work.update at_ row = some later) : Older row later := by
  cases work with
  | issue key => cases updated
  | revoke tenantId keyId =>
    rw [Work.update] at updated
    obtain ⟨-, ⟨⟩⟩ := ite_none_right_eq_some.mp updated
    exact ⟨rfl, fun notRevoked => by cases notRevoked⟩
  | setMayActAs tenantId keyId principals =>
    rw [Work.update] at updated
    obtain ⟨-, ⟨⟩⟩ := ite_none_right_eq_some.mp updated
    exact ⟨rfl, id⟩

section

variable {ttl : Nat} {state next : State}

/-- Nothing usable is cached under the key until then. -/
def State.Covered (state : State) (until_ : Nat) (slot : Slot) : Prop :=
  Expiring.Covered (Value.Shields state.now) state.now until_ slot

def Value.Told (state : State) (keyId : String) : Value → Prop
  | .record cached => ∃ row, state.row keyId = some row ∧ Older cached.key row ∧
      (cached.key = row ∨ cached.key.usableAt state.now = false)
  | .tombstone => ∃ row, state.row keyId = some row
  | .missing => True

def State.Kept (ttl : Nat) (state : State) (keyId : String) (readAt : Nat) (key : ApiKey) :
    Prop :=
  ∃ row, state.row keyId = some row ∧ Older key row ∧
    (key = row ∨ key.usableAt state.now = false ∨
      state.Covered (readAt + ttl * second) (state.cache keyId))

/-- So can all records, once a change has left its tombstone. -/
def State.Guarded (ttl : Nat) (state : State) (keyId : String) (tombstonedAt : Nat) : Prop :=
  ∃ row, state.row keyId = some row ∧
    (row.usableAt state.now = false ∨
      state.Covered (tombstonedAt + 2 * (ttl * second)) (state.cache keyId))

def Verification.Since (state : State) (call : Verification) (cached : Cached) : Prop :=
  ∃ version, call.began ≤ version ∧ (state.history call.keyId)[version]? = some cached.key

def Verification.Told (ttl : Nat) (state : State) (call : Verification) : Prop :=
  match call.phase with
  | .asked now => now ≤ state.now
  | .reading now behindTombstone =>
    now ≤ state.now ∧ (behindTombstone = true → ∃ row, state.row call.keyId = some row)
  | .read _ behindTombstone _ none => behindTombstone = false
  | .read now _ readAt (some cached) =>
    now ≤ state.now ∧ readAt ≤ state.now ∧ call.Since state cached ∧
      state.Kept ttl call.keyId readAt cached.key
  | .loaded (some cached) => call.Since state cached ∨ cached.key.usableAt state.now = false
  | .verified cached => call.Since state cached ∧ cached.key.revokedAt = none
  | _ => True

def Administration.Told (ttl : Nat) (state : State) (unit : Administration) : Prop :=
  match unit.stage with
  | .changed _ | .committed => ∃ row, state.row unit.work.keyId = some row
  | .tombstoned _ tombstonedAt =>
    tombstonedAt ≤ state.now ∧ state.Guarded ttl unit.work.keyId tombstonedAt
  | _ => True

structure Sound (ttl : Nat) (state : State) : Prop where
  older : ∀ keyId, (state.history keyId).Pairwise Older
  cached : ∀ keyId held, state.cache keyId = some held → held.value.Told state keyId
  began : ∀ call ∈ state.verifications, call.began ≤ (state.history call.keyId).length - 1
  calls : ∀ call ∈ state.verifications, call.Told ttl state
  units : ∀ unit ∈ state.units, unit.Told ttl state

/-- What no step takes back. -/
structure Onward (ttl : Nat) (state next : State) : Prop where
  now : state.now ≤ next.now
  history : ∀ keyId, state.history keyId <+: next.history keyId
  kept : ∀ keyId readAt key, readAt ≤ state.now →
    state.Kept ttl keyId readAt key → next.Kept ttl keyId readAt key
  guarded : ∀ keyId tombstonedAt, tombstonedAt ≤ state.now →
    state.Guarded ttl keyId tombstonedAt → next.Guarded ttl keyId tombstonedAt

variable {keyId : String}

theorem Onward.row (onward : Onward ttl state next)
    (isRow : ∃ row, state.row keyId = some row) : ∃ row, next.row keyId = some row := by
  obtain ⟨more, isNext⟩ := onward.history keyId
  obtain ⟨row, isLast⟩ := isRow
  cases isMore : more.getLast? with
  | none =>
    rw [getLast?_eq_none_iff.mp isMore, append_nil] at isNext
    exact ⟨row, by rw [State.row, ← isNext]; exact isLast⟩
  | some later => exact ⟨later, by rw [State.row, ← isNext, getLast?_append, isMore]; rfl⟩

variable {call : Verification}

theorem Onward.since (onward : Onward ttl state next) {cached : Cached}
    (since : call.Since state cached) : call.Since next cached := by
  obtain ⟨more, isNext⟩ := onward.history call.keyId
  obtain ⟨version, notBefore, isAt⟩ := since
  refine ⟨version, notBefore, ?_⟩
  rw [← isNext, List.getElem?_append_left (List.getElem?_eq_some_iff.mp isAt).1]
  exact isAt

theorem Verification.Told.onward (told : call.Told ttl state)
    (onward : Onward ttl state next) : call.Told ttl next := by
  unfold Verification.Told at told ⊢
  cases inPhase : call.phase with
  | asked now =>
    rw [inPhase] at told
    exact Nat.le_trans told onward.now
  | reading now behindTombstone =>
    rw [inPhase] at told
    exact ⟨Nat.le_trans told.1 onward.now, fun behind => onward.row (told.2 behind)⟩
  | read now behindTombstone readAt found =>
    rw [inPhase] at told
    cases found with
    | none => exact told
    | some cached =>
      obtain ⟨asked, isRead, since, kept⟩ := told
      exact ⟨Nat.le_trans asked onward.now, Nat.le_trans isRead onward.now,
        onward.since since, onward.kept _ _ _ isRead kept⟩
  | loaded cached =>
    rw [inPhase] at told
    cases cached with
    | none => trivial
    | some cached => exact told.imp onward.since (ApiKey.not_usable_mono onward.now)
  | verified cached =>
    rw [inPhase] at told
    exact ⟨onward.since told.1, told.2⟩
  | unauthenticated | unauthorized => trivial

theorem Administration.Told.onward {unit : Administration} (told : unit.Told ttl state)
    (onward : Onward ttl state next) : unit.Told ttl next := by
  unfold Administration.Told at told ⊢
  cases inStage : unit.stage with
  | changed at_ | committed =>
    rw [inStage] at told
    exact onward.row told
  | tombstoned at_ tombstonedAt =>
    rw [inStage] at told
    exact ⟨Nat.le_trans told.1 onward.now, onward.guarded _ _ told.1 told.2⟩
  | opened | done => trivial

theorem sound_of_onward (sound : Sound ttl state) (onward : Onward ttl state next)
    (older : ∀ keyId, (next.history keyId).Pairwise Older)
    (cached : ∀ keyId held, next.cache keyId = some held → held.value.Told next keyId)
    (sameCalls : next.verifications = state.verifications) (sameUnits : next.units = state.units) :
    Sound ttl next where
  older := older
  cached := cached
  began := by
    rw [sameCalls]
    exact fun call isCall => Nat.le_trans (sound.began call isCall)
      (Nat.sub_le_sub_right (onward.history call.keyId).length_le 1)
  calls := by
    rw [sameCalls]
    exact fun call isCall => (sound.calls call isCall).onward onward
  units := by
    rw [sameUnits]
    exact fun unit isUnit => (sound.units unit isUnit).onward onward

theorem State.Covered.tick {until_ passed : Nat} {slot : Slot}
    (covered : state.Covered until_ slot) :
    { state with now := state.now + passed }.Covered until_ slot :=
  Expiring.Covered.mono covered (Nat.le_add_right _ _)
    fun _ shields => shields.mono (Nat.le_add_right _ _)

theorem sound_of_tick {passed : Nat} (sound : Sound ttl state) :
    Sound ttl { state with now := state.now + passed } := by
  have later : state.now ≤ state.now + passed := Nat.le_add_right _ _
  refine sound_of_onward sound ⟨later, fun _ => prefix_rfl, ?_, ?_⟩ sound.older ?_ rfl rfl
  · rintro keyId readAt key - ⟨row, isRow, older, same | notUsable | covered⟩
    · exact ⟨row, isRow, older, .inl same⟩
    · exact ⟨row, isRow, older, .inr (.inl (ApiKey.not_usable_mono later notUsable))⟩
    · exact ⟨row, isRow, older, .inr (.inr covered.tick)⟩
  · rintro keyId tombstonedAt - ⟨row, isRow, notUsable | covered⟩
    · exact ⟨row, isRow, .inl (ApiKey.not_usable_mono later notUsable)⟩
    · exact ⟨row, isRow, .inr covered.tick⟩
  · intro keyId held isHeld
    have told := sound.cached keyId held isHeld
    cases isValue : held.value with
    | record cached =>
      rw [isValue] at told
      obtain ⟨row, isRow, older, same⟩ := told
      exact ⟨row, isRow, older, same.imp_right (ApiKey.not_usable_mono later)⟩
    | tombstone =>
      rw [isValue] at told
      exact told
    | missing => trivial

/-- What may come into the cache under a key. -/
structure Replaces (ttl : Nat) (state : State) (keyId : String) (slot : Slot) : Prop where
  told : ∀ held, slot = some held → held.value.Told state keyId
  /-- what was kept from the cache is kept from it -/
  covers : ∀ until_ ≤ state.now + ttl * second,
    state.Covered until_ (state.cache keyId) → state.Covered until_ slot
  guards : (∃ row, state.row keyId = some row ∧ row.usableAt state.now = false) ∨
    ∀ until_ ≤ state.now + 2 * (ttl * second),
      state.Covered until_ (state.cache keyId) → state.Covered until_ slot

theorem sound_of_replaces {slot : Slot} (sound : Sound ttl state)
    (replaces : Replaces ttl state keyId slot) :
    Sound ttl { state with cache := Function.update state.cache keyId slot } := by
  have here : Function.update state.cache keyId slot keyId = slot := Function.update_self ..
  have elsewhere : ∀ other, other ≠ keyId →
      Function.update state.cache keyId slot other = state.cache other :=
    fun _ apart => Function.update_of_ne apart ..
  refine sound_of_onward sound ⟨Nat.le_refl _, fun _ => prefix_rfl, ?_, ?_⟩ sound.older ?_ rfl rfl
  · rintro other readAt key isRead ⟨row, isRow, older, kept⟩
    refine ⟨row, isRow, older, kept.imp_right (Or.imp_right fun covered => ?_)⟩
    change state.Covered _ (Function.update state.cache keyId slot other)
    by_cases same : other = keyId
    · rw [same] at covered ⊢
      rw [here]
      exact replaces.covers _ (Nat.add_le_add_right isRead _) covered
    · rw [elsewhere other same]
      exact covered
  · rintro other tombstonedAt isPast ⟨row, isRow, guarded⟩
    by_cases same : other = keyId
    · rw [same] at isRow guarded ⊢
      rcases replaces.guards with ⟨same, isSame, notUsable⟩ | guards
      · exact ⟨same, isSame, .inl notUsable⟩
      · refine ⟨row, isRow, guarded.imp_right fun covered => ?_⟩
        change state.Covered _ (Function.update state.cache keyId slot keyId)
        rw [here]
        exact guards _ (Nat.add_le_add_right isPast _) covered
    · refine ⟨row, isRow, guarded.imp_right fun covered => ?_⟩
      change state.Covered _ (Function.update state.cache keyId slot other)
      rw [elsewhere other same]
      exact covered
  · intro other held isHeld
    by_cases same : other = keyId
    · rw [same] at isHeld ⊢
      exact replaces.told held (here.symm.trans isHeld)
    · exact sound.cached other held ((elsewhere other same).symm.trans isHeld)

theorem replaces_of_tombstone (isRow : ∃ row, state.row keyId = some row) :
    Replaces ttl state keyId (some ⟨.tombstone, state.now + 2 * (ttl * second)⟩) where
  told _ isHeld := by
    cases isHeld
    exact isRow
  covers until_ within _ := Expiring.covered_set trivial
    (Nat.le_trans within (Nat.add_le_add_left (Nat.le_mul_of_pos_left _ (by decide)) _))
  guards := .inr fun _ within _ => Expiring.covered_set trivial within

section

variable (sound : Sound ttl state)
include sound

theorem replaces_of_absent {held : Expiring Value}
    (told : Expiring.live state.now (state.cache keyId) = none → held.value.Told state keyId) :
    Replaces ttl state keyId (Expiring.setIfAbsent state.now held (state.cache keyId)) where
  told after isAfter := by
    rcases Expiring.setIfAbsent_cases isAfter with before | ⟨rfl, absent⟩
    · exact sound.cached keyId after before
    · exact told absent
  covers _ _ covered := covered.setIfAbsent
  guards := .inr fun _ _ covered => covered.setIfAbsent

theorem replaces_of_unchanged :
    Replaces ttl state keyId (state.cache keyId) where
  told held isHeld := sound.cached keyId held isHeld
  covers _ _ covered := covered
  guards := .inr fun _ _ covered => covered

theorem replaces_of_stored {asked readAt : Nat} {behindTombstone : Bool}
    {found : Option Cached} (told : call.Told ttl state)
    (inPhase : call.phase = .read asked behindTombstone readAt found)
    (inTime : state.now < readAt + ttl * second) :
    Replaces ttl state call.keyId
      (stored ttl state.now asked behindTombstone found (state.cache call.keyId)) := by
  rw [Verification.Told, inPhase] at told
  cases found with
  | none =>
    have notBehind : behindTombstone = false := told
    rw [notBehind]
    exact replaces_of_absent sound fun _ => trivial
  | some cached =>
    obtain ⟨notLater, isRead, -, row, isRow, older, kept⟩ := told
    rw [stored]
    cases isUsable : cached.key.usableAt asked with
    | false =>
      have notUsable := ApiKey.not_usable_mono notLater isUsable
      rw [Bool.not_false, if_pos rfl]
      refine ⟨fun held isHeld => ?_, fun until_ within _ => ?_, .inl ?_⟩
      · cases isHeld
        exact ⟨row, isRow, older, .inr notUsable⟩
      · exact Expiring.covered_set notUsable within
      · exact ⟨row, isRow, older.not_usable notUsable⟩
    | true =>
      rw [Bool.not_true, if_neg Bool.false_ne_true]
      split
      case isTrue => exact replaces_of_unchanged sound
      case isFalse =>
        refine replaces_of_absent sound fun absent => ⟨row, isRow, older, ?_⟩
        rcases kept with same | notUsable | covered
        · exact .inl same
        · exact .inr notUsable
        · -- something stands in its place
          obtain ⟨value, isLive, -⟩ := Expiring.Covered.live covered inTime
          rw [absent] at isLive
          cases isLive

end

theorem replaces_of_forgotten
    (spares : ∀ value, Expiring.live state.now (state.cache keyId) = some value →
      ¬value.Shields state.now) :
    Replaces ttl state keyId none where
  told _ isHeld := by cases isHeld
  covers _ _ covered := .inl (Expiring.Covered.passed covered spares)
  guards := .inr fun _ _ covered => .inl (Expiring.Covered.passed covered spares)

theorem row_of_append {keyId : String} {row : ApiKey} :
    ({ state with
        history := Function.update state.history keyId (state.history keyId ++ [row]) } :
      State).row keyId = some row := by
  have isHistory : Function.update state.history keyId (state.history keyId ++ [row]) keyId =
      state.history keyId ++ [row] := Function.update_self ..
  exact (congrArg List.getLast? isHistory).trans (by rw [getLast?_append]; rfl)

theorem row_of_other {keyId other : String} {row : ApiKey} (apart : other ≠ keyId) :
    ({ state with
        history := Function.update state.history keyId (state.history keyId ++ [row]) } :
      State).row other = state.row other :=
  congrArg List.getLast? (Function.update_of_ne apart ..)

def State.Closed (ttl : Nat) (state : State) (keyId : String) : Prop :=
  ∀ old, state.row keyId = some old → old.usableAt state.now = false ∨
    ∃ until_, state.now + ttl * second < until_ ∧ state.Covered until_ (state.cache keyId)

section

variable (sound : Sound ttl state)
include sound

theorem sound_of_append {row : ApiKey}
    (follows : ∀ old ∈ state.history keyId, Older old row) (closed : state.Closed ttl keyId) :
    Sound ttl { state with
      history := Function.update state.history keyId (state.history keyId ++ [row]) } := by
  have here : Function.update state.history keyId (state.history keyId ++ [row]) keyId =
      state.history keyId ++ [row] := Function.update_self ..
  have elsewhere : ∀ other, other ≠ keyId →
      Function.update state.history keyId (state.history keyId ++ [row]) other =
        state.history other := fun _ apart => Function.update_of_ne apart ..
  have olderRow : ∀ {old}, state.row keyId = some old → Older old row := fun isOld =>
    follows _ (mem_of_getLast? isOld)
  refine sound_of_onward sound ⟨Nat.le_refl _, fun other => ?_, ?_, ?_⟩ (fun other => ?_) ?_ rfl rfl
  · change state.history other <+: Function.update state.history keyId _ other
    by_cases same : other = keyId
    · rw [same, here]
      exact prefix_append _ _
    · exact (elsewhere other same).symm ▸ prefix_rfl
  · rintro other readAt key isRead ⟨old, isOld, older, kept⟩
    by_cases same : other = keyId
    · rw [same] at isOld kept ⊢
      refine ⟨row, row_of_append, older.trans (olderRow isOld), .inr ?_⟩
      rcases closed old isOld with notUsable | ⟨until_, isLater, covered⟩
      · rcases kept with rfl | kept
        · exact .inl notUsable
        · exact kept
      · refine .inr (Expiring.Covered.of_le covered (Nat.le_trans ?_ (Nat.le_of_lt isLater)))
        exact Nat.add_le_add_right isRead _
    · exact ⟨old, (row_of_other same).trans isOld, older, kept⟩
  · rintro other tombstonedAt - ⟨old, isOld, guarded⟩
    by_cases same : other = keyId
    · rw [same] at isOld guarded ⊢
      exact ⟨row, row_of_append, guarded.imp_left (olderRow isOld).not_usable⟩
    · exact ⟨old, (row_of_other same).trans isOld, guarded⟩
  · change (Function.update state.history keyId _ other).Pairwise Older
    by_cases same : other = keyId
    · rw [same, here, pairwise_append]
      refine ⟨sound.older keyId, pairwise_singleton _ _, fun old isOld later isLater => ?_⟩
      rw [mem_singleton.mp isLater]
      exact follows old isOld
    · rw [elsewhere other same]
      exact sound.older other
  · intro other held isHeld
    have told := sound.cached other held isHeld
    by_cases same : other = keyId
    · rw [same] at told isHeld ⊢
      cases isValue : held.value with
      | record cached =>
        rw [isValue] at told
        obtain ⟨old, isOld, older, kept⟩ := told
        refine ⟨row, row_of_append, older.trans (olderRow isOld), .inr ?_⟩
        rcases closed old isOld with notUsable | ⟨until_, isLater, covered⟩
        · rcases kept with rfl | kept
          · exact notUsable
          · exact kept
        · -- what stands there is not usable
          obtain ⟨value, isLive, shields⟩ := Expiring.Covered.live covered
            (Nat.lt_of_le_of_lt (Nat.le_add_right _ _) isLater)
          obtain ⟨stands, isThere, rfl⟩ := Expiring.live_eq_some isLive
          rw [show state.cache keyId = some held from isHeld] at isThere
          cases isThere
          rw [isValue] at shields
          exact shields
      | tombstone => exact ⟨row, row_of_append⟩
      | missing => trivial
    · cases isValue : held.value with
      | record cached =>
        rw [isValue] at told
        obtain ⟨old, isOld, kept⟩ := told
        exact ⟨old, (row_of_other same).trans isOld, kept⟩
      | tombstone =>
        rw [isValue] at told
        obtain ⟨old, isOld⟩ := told
        exact ⟨old, (row_of_other same).trans isOld⟩
      | missing => trivial

theorem sound_of_setPhase {position : Nat} {phase : Phase}
    (isCall : call ∈ state.verifications)
    (told : ({ call with phase } : Verification).Told ttl state) :
    Sound ttl (state.setPhase position call phase) where
  older := sound.older
  cached := sound.cached
  began := forall_mem_set sound.began (sound.began call isCall)
  calls := forall_mem_set sound.calls told
  units := sound.units

theorem sound_of_setStage {position : Nat} {unit : Administration} {stage : Stage}
    (told : ({ unit with stage } : Administration).Told ttl state) :
    Sound ttl (state.setStage position unit stage) where
  older := sound.older
  cached := sound.cached
  began := sound.began
  calls := sound.calls
  units := forall_mem_set sound.units told

end

theorem since_of_row (call : Verification) {cached : Cached}
    (began : call.began ≤ (state.history call.keyId).length - 1)
    (isRow : state.row call.keyId = some cached.key) : call.Since state cached :=
  ⟨_, began, by rw [← getLast?_eq_getElem?]; exact isRow⟩

theorem told_of_load {now : Nat} {budget : Bool} {raw : Option Value}
    (began : call.began ≤ (state.history call.keyId).length - 1) (notLater : now ≤ state.now)
    (isTold : ∀ value, raw = some value → value.Told state call.keyId) :
    ({ call with phase := loadOf now budget raw } : Verification).Told ttl state := by
  cases raw with
  | none =>
    cases budget with
    | true => exact ⟨notLater, fun behind => by cases behind⟩
    | false => trivial
  | some value =>
    have told := isTold value rfl
    cases value with
    | record cached =>
      obtain ⟨row, isRow, -, rfl | notUsable⟩ := told
      · exact .inl (since_of_row call began isRow)
      · exact .inr notUsable
    | tombstone => exact ⟨notLater, fun _ => told⟩
    | missing => trivial

theorem told_of_check {cached : Option Cached}
    (told : call.Told ttl state) (inPhase : call.phase = .loaded cached) :
    ({ call with phase := checked state.now call.secretHash cached } : Verification).Told ttl
      state := by
  rw [Verification.Told, inPhase] at told
  cases cached with
  | none => trivial
  | some cached =>
    rw [checked]
    split
    case isTrue => trivial
    case isFalse usable =>
      split
      case isTrue => trivial
      case isFalse =>
        have isUsable : cached.key.usableAt state.now = true := by
          by_contra notUsable
          exact usable (by rw [Bool.eq_false_iff.mpr notUsable]; rfl)
        refine ⟨told.resolve_right fun notUsable => ?_, (ApiKey.usableAt_eq_true.mp isUsable).1⟩
        rw [isUsable] at notUsable
        cases notUsable

def Phase.readAt : Phase → Option Nat
  | .read _ _ readAt _ => some readAt
  | _ => none

def Stage.tombstonedAt : Stage → Option Nat
  | .tombstoned _ tombstonedAt => some tombstonedAt
  | _ => none

/-- A record is cached, and a change commits, within one life of a record. -/
def Timely (ttl : Nat) (state : State) : Action → Prop
  | .move position (.put _) =>
    ∀ call ∈ state.verifications[position]?, ∀ readAt ∈ call.phase.readAt,
      state.now < readAt + ttl * second
  | .commit position =>
    ∀ unit ∈ state.units[position]?, ∀ tombstonedAt ∈ unit.stage.tombstonedAt,
      state.now < tombstonedAt + ttl * second
  | _ => True

def Work.issued : Work → Option String
  | .issue key => some key.keyId
  | _ => none

/-- `forget_missing` finds no tombstone, and no record of a key that is not usable. -/
def Spares (state : State) : Action → Prop
  | .finish position _ true =>
    ∀ unit ∈ state.units[position]?, ∀ keyId ∈ unit.work.issued,
      ∀ value ∈ Expiring.live state.now (state.cache keyId), ¬value.Shields state.now
  | _ => True

instance (ttl : Nat) (state : State) (action : Action) : Decidable (Timely ttl state action) := by
  unfold Timely
  split <;> infer_instance

instance (state : State) (action : Action) : Decidable (Spares state action) := by
  unfold Spares
  split <;> infer_instance

section

variable (sound : Sound ttl state)
include sound

theorem sound_of_act {position : Nat} {move : Move}
    (isCall : call ∈ state.verifications)
    (acted : act ttl state position call move = some next)
    (inTime : ∀ available, move = .put available →
      ∀ readAt ∈ call.phase.readAt, state.now < readAt + ttl * second) :
    Sound ttl next := by
  have told := sound.calls call isCall
  have began := sound.began call isCall
  rw [act.eq_def] at acted
  split at acted
  case h_1 now available budget inPhase =>
    cases acted
    rw [Verification.Told, inPhase] at told
    refine sound_of_setPhase sound isCall (told_of_load began told fun value isRaw => ?_)
    obtain ⟨-, isRaw⟩ := ite_none_right_eq_some.mp isRaw
    obtain ⟨held, isHeld, rfl⟩ := Expiring.live_eq_some isRaw
    exact sound.cached _ held isHeld
  case h_2 now behindTombstone inPhase =>
    cases acted
    rw [Verification.Told, inPhase] at told
    have noted : ∀ missing, Sound ttl { state with missing } := fun missing => { sound with }
    refine sound_of_setPhase (noted _) isCall ?_
    cases isFound : state.found call.keyId with
    | none =>
      refine Bool.eq_false_iff.mpr fun behind => ?_
      obtain ⟨row, isRow⟩ := told.2 behind
      rw [State.found, isRow] at isFound
      cases isFound
    | some cached =>
      obtain ⟨row, isRow, rfl⟩ := map_eq_some_iff.mp isFound
      exact ⟨told.1, Nat.le_refl _, since_of_row call began isRow, row, isRow,
        Older.refl row, .inl rfl⟩
  case h_3 now behindTombstone readAt found available inPhase =>
    cases acted
    have inTime := inTime available rfl readAt (by rw [inPhase]; rfl)
    have replaces : Replaces ttl state call.keyId
        (if available then
          stored ttl state.now now behindTombstone found (state.cache call.keyId)
        else state.cache call.keyId) := by
      split
      case isTrue => exact replaces_of_stored sound told inPhase inTime
      case isFalse => exact replaces_of_unchanged sound
    refine sound_of_setPhase (sound_of_replaces sound replaces) isCall ?_
    rw [Verification.Told, inPhase] at told
    cases found with
    | none => trivial
    | some cached => exact .inl told.2.2.1
  case h_4 cached inPhase =>
    cases acted
    exact sound_of_setPhase sound isCall (told_of_check told inPhase)
  case h_5 => cases acted

theorem olderOf_row {row : ApiKey}
    (isRow : state.row keyId = some row) : ∀ old ∈ state.history keyId, Older old row := by
  obtain ⟨before, isHistory⟩ := getLast?_eq_some_iff.mp isRow
  have older := sound.older keyId
  rw [isHistory, pairwise_append] at older
  intro old isOld
  rw [isHistory] at isOld
  rcases mem_append.mp isOld with isBefore | isLast
  · exact older.2.2 old isBefore row (mem_singleton.mpr rfl)
  · rw [mem_singleton.mp isLast]
    exact Older.refl row

theorem sound_of_commit {position : Nat} (stepped : step ttl state (.commit position) = some next)
    (inTime : Timely ttl state (.commit position)) : Sound ttl next := by
  obtain ⟨unit, isUnit, committed⟩ := bind_eq_some_iff.mp stepped
  have told := sound.units unit (mem_of_getElem? isUnit)
  dsimp only at committed
  split at committed
  case h_1 key inStage isWork =>
    obtain ⟨noRow, ⟨⟩⟩ := ite_none_right_eq_some.mp committed
    have isEmpty : state.history unit.work.keyId = [] := getLast?_eq_none_iff.mp noRow
    refine sound_of_setStage (sound_of_append sound (fun old isOld => ?_) fun old isOld => ?_)
      ⟨_, row_of_append⟩
    · rw [isEmpty] at isOld
      cases isOld
    · rw [noRow] at isOld
      cases isOld
  case h_2 at_ tombstonedAt inStage =>
    obtain ⟨row, isRow, updated⟩ := bind_eq_some_iff.mp committed
    obtain ⟨later, isLater, rfl⟩ := map_eq_some_iff.mp updated
    have notLate := inTime unit isUnit tombstonedAt (by rw [inStage]; rfl)
    rw [Administration.Told, inStage] at told
    obtain ⟨isPast, old, isOld, guarded⟩ := told
    refine sound_of_setStage (sound_of_append sound
      (fun old isOld => (olderOf_row sound isRow old isOld).trans (Work.update_older isLater))
      fun last isLast => ?_) ⟨_, row_of_append⟩
    rw [isOld] at isLast
    cases isLast
    exact guarded.imp_right fun covered => ⟨_, by omega, covered⟩
  case h_3 => cases committed

theorem sound_of_finish {position process : Nat} {available : Bool}
    (stepped : step ttl state (.finish position process available) = some next)
    (spares : Spares state (.finish position process available)) : Sound ttl next := by
  obtain ⟨unit, isUnit, finished⟩ := bind_eq_some_iff.mp stepped
  have told := sound.units unit (mem_of_getElem? isUnit)
  split at finished
  case h_1 key inStage isWork =>
    cases finished
    refine sound_of_setStage ?_ trivial
    cases available with
    | false => exact { sound with }
    | true =>
      have replaced : Sound ttl _ := sound_of_replaces sound
        (replaces_of_forgotten fun value isLive =>
          spares unit isUnit key.keyId (by rw [isWork]; rfl) value isLive)
      exact { replaced with }
  case h_2 inStage _ =>
    cases finished
    refine sound_of_setStage ?_ trivial
    rw [Administration.Told, inStage] at told
    split
    case isTrue => exact sound_of_replaces sound (replaces_of_tombstone told)
    case isFalse => exact sound
  case h_3 => cases finished

end

theorem sound_step {action : Action} (stepped : step ttl state action = some next)
    (admitted : Timely ttl state action ∧ Spares state action) (sound : Sound ttl state) :
    Sound ttl next := by
  cases action with
  | verify process keyId secretHash =>
    cases stepped
    refine { sound with began := fun call isCall => ?_, calls := fun call isCall => ?_ }
    · rcases mem_append.mp isCall with before | isNew
      · exact sound.began call before
      · rw [mem_singleton.mp isNew]
    · rcases mem_concat.mp isCall with before | rfl
      · exact sound.calls call before
      · have told : ∀ phase : Phase, phase = .loaded none ∨ phase = .asked state.now →
            ∀ began, ({ process, keyId, secretHash, began, phase } : Verification).Told ttl
              state := by
          rintro phase (rfl | rfl) began
          · trivial
          · exact Nat.le_refl state.now
        refine told _ ?_ _
        split
        · exact .inl rfl
        · exact .inr rfl
  | move position move =>
    obtain ⟨call, isCall, acted⟩ := bind_eq_some_iff.mp stepped
    refine sound_of_act sound (mem_of_getElem? isCall) acted ?_
    rintro available rfl
    exact admitted.1 call isCall
  | open_ work =>
    cases stepped
    refine { sound with units := fun unit isUnit => ?_ }
    rcases mem_concat.mp isUnit with before | rfl
    · exact sound.units unit before
    · trivial
  | change position =>
    obtain ⟨unit, isUnit, changed⟩ := bind_eq_some_iff.mp stepped
    split at changed
    case h_2 => cases changed
    case h_1 =>
      obtain ⟨row, isRow, updated⟩ := bind_eq_some_iff.mp changed
      obtain ⟨later, -, locked⟩ := bind_eq_some_iff.mp updated
      obtain ⟨-, ⟨⟩⟩ := ite_none_left_eq_some.mp locked
      exact sound_of_setStage sound ⟨row, isRow⟩
  | tombstone position =>
    obtain ⟨unit, isUnit, tombstoned⟩ := bind_eq_some_iff.mp stepped
    have told := sound.units unit (mem_of_getElem? isUnit)
    split at tombstoned
    case h_2 => cases tombstoned
    case h_1 at_ inStage =>
      cases tombstoned
      rw [Administration.Told, inStage] at told
      refine sound_of_setStage (sound_of_replaces sound (replaces_of_tombstone told))
        ⟨Nat.le_refl _, ?_⟩
      obtain ⟨row, isRow⟩ := told
      refine ⟨row, isRow, .inr ?_⟩
      change State.Covered _ _ (Function.update state.cache unit.work.keyId _ unit.work.keyId)
      rw [Function.update_self]
      exact Expiring.covered_set trivial (Nat.le_refl _)
  | commit position => exact sound_of_commit sound stepped admitted.1
  | finish position process available => exact sound_of_finish sound stepped admitted.2
  | abandon position =>
    rw [step] at stepped
    obtain ⟨-, ⟨⟩⟩ := ite_none_right_eq_some.mp stepped
    exact { sound with
      units := fun unit isUnit => sound.units unit (mem_of_mem_eraseIdx isUnit) }
  | status tenantId status =>
    cases stepped
    exact { sound with }
  | tick passed =>
    cases stepped
    exact sound_of_tick sound

theorem sound_start : Sound ttl {} where
  older _ := List.Pairwise.nil
  cached _ _ isHeld := by cases isHeld
  began _ none_ := by cases none_
  calls _ none_ := by cases none_
  units _ none_ := by cases none_

theorem prompt_of_sound (sound : Sound ttl state) : Prompt state := by
  have since : ∀ call ∈ state.verifications, ∀ cached, call.phase = .verified cached →
      call.Since state cached ∧ cached.key.revokedAt = none := by
    intro call isCall cached isVerified
    have told := sound.calls call isCall
    rw [Verification.Told, isVerified] at told
    exact told
  constructor
  · intro call isCall cached isVerified row isRow
    obtain ⟨⟨version, notBefore, isVersion⟩, notRevoked⟩ := since call isCall cached isVerified
    rcases Nat.lt_or_eq_of_le notBefore with isLater | rfl
    · obtain ⟨inHistory, rfl⟩ := List.getElem?_eq_some_iff.mp isRow
      obtain ⟨alsoThere, isKey⟩ := List.getElem?_eq_some_iff.mp isVersion
      have older := pairwise_iff_getElem.mp (sound.older call.keyId) _ _ inHistory alsoThere
        isLater
      rw [isKey] at older
      exact older.revoked notRevoked
    · rw [isRow] at isVersion
      cases isVersion
      exact notRevoked
  · intro call isCall cached isVerified
    obtain ⟨⟨version, notBefore, isVersion⟩, -⟩ := since call isCall cached isVerified
    exact ⟨version, cached.key, notBefore, isVersion, rfl⟩

end

def lateKey : ApiKey where
  keyId := "k1"
  tenantId := "kepler"
  secretHash := "s1"

/-- The key is issued and used; before the first use is cached, and before `forget_missing`, it is
revoked. -/
def forgottenLate : List Action :=
  [.status "kepler" .active, .open_ (.issue lateKey), .commit 0, .verify 0 "k1" "s1",
    .move 0 (.lookup true true), .move 0 .get, .open_ (.revoke "kepler" "k1"), .change 1,
    .tombstone 1, .commit 1, .finish 1 0 true, .finish 0 0 true, .move 0 (.put true),
    .verify 1 "k1" "s1", .move 1 (.lookup true true), .move 1 .check]

def secondCall (state : State) : Option (Option Cached × Nat × String × List ApiKey) :=
  state.verifications[1]?.map fun call =>
    (match call.phase with
      | .verified cached => some cached
      | _ => none, call.began, call.keyId, state.history call.keyId)

theorem forgottenLate_ends :
    (run (step 60) {} forgottenLate).bind secondCall =
      some (some ⟨lateKey, .active⟩, 1, "k1", [lateKey, { lateKey with revokedAt := some 0 }]) := by
  decide +kernel

/-- A key that was revoked is accepted: `forget_missing` has taken its tombstone. -/
theorem revoked_key_is_accepted :
    ∃ state, run (step 60) {} forgottenLate = some state ∧
      Meets (step 60) (Timely 60) {} forgottenLate ∧ ¬Prompt state := by
  obtain ⟨state, reached, isGiven⟩ := bind_eq_some_iff.mp forgottenLate_ends
  refine ⟨state, reached, by decide +kernel, fun prompt => ?_⟩
  obtain ⟨call, isCall, isWhole⟩ := map_eq_some_iff.mp isGiven
  simp only [Prod.mk.injEq] at isWhole
  obtain ⟨accepted, began, isKey, history⟩ := isWhole
  cases inPhase : call.phase with
  | verified cached =>
    have notRevoked := prompt.live call (mem_of_getElem? isCall) cached inPhase
      { lateKey with revokedAt := some 0 } (by rw [began, history]; rfl)
    cases notRevoked
  | _ =>
    rw [inPhase] at accepted
    cases accepted

/-- In every run in time in which `forget_missing` finds no tombstone, and no record of a key
that is not usable, no call accepts a key that was revoked before it, or with principals that
were replaced before it. -/
theorem prompt_of_spared (ttl : Nat) :
    ∀ actions state, run (step ttl) {} actions = some state →
      Meets (step ttl) (Timely ttl) {} actions → Meets (step ttl) Spares {} actions →
        Prompt state :=
  fun _ _ reached inTime spares =>
    prompt_of_sound (run_invariant_of_meets sound_step reached (inTime.and spares) sound_start)

def inOrder : List Action :=
  [.status "kepler" .active, .open_ (.issue lateKey), .commit 0, .finish 0 0 true,
    .verify 0 "k1" "s1", .move 0 (.lookup true true), .move 0 .get, .move 0 (.put true),
    .move 0 .check, .open_ (.setMayActAs "kepler" "k1" ["user:rosa"]), .change 1, .tombstone 1,
    .tick 1000000, .commit 1, .finish 1 0 true, .verify 1 "k1" "s1",
    .move 1 (.lookup true true), .move 1 .get, .move 1 (.put true), .move 1 .check]

theorem prompt_of_inOrder :
    ∃ state, run (step 60) {} inOrder = some state ∧
      secondCall state =
        some (some ⟨{ lateKey with mayActAs := ["user:rosa"] }, .active⟩, 1, "k1",
          [lateKey, { lateKey with mayActAs := ["user:rosa"] }]) ∧
      Meets (step 60) (Timely 60) {} inOrder ∧ Meets (step 60) Spares {} inOrder ∧
      Prompt state := by
  have ends : (run (step 60) {} inOrder).bind secondCall =
      some (some ⟨{ lateKey with mayActAs := ["user:rosa"] }, .active⟩, 1, "k1",
        [lateKey, { lateKey with mayActAs := ["user:rosa"] }]) := by decide +kernel
  have inTime : Meets (step 60) (Timely 60) {} inOrder := by decide +kernel
  have spares : Meets (step 60) Spares {} inOrder := by decide +kernel
  obtain ⟨state, reached, isGiven⟩ := bind_eq_some_iff.mp ends
  exact ⟨state, reached, isGiven, inTime, spares,
    prompt_of_spared 60 inOrder state reached inTime spares⟩

end MemoryService.Auth
