import MemoryService.Idempotency.Service

/-!
# One effect in a window, for its own caller

A failure leaves the key free, and every answer that is not the handler's own comes from an effect
whose record has not expired.
-/

namespace MemoryService.Idempotency

open Foundation Option List

def Phase.foundAt : Phase → Option Nat
  | .answered (.replayed at_ _) => some at_
  | .answered (.reused at_) => some at_
  | .answered (.processing at_) => some at_
  | .answered (.expired at_) => some at_
  | _ => none

/-- When a request read the time that then did not get the key. -/
def Phase.refusedAt : Phase → Option Nat
  | .refused now => some now
  | _ => none

/-- And when one did that found no row afterwards. -/
def Phase.absentAt : Phase → Option Nat
  | .absent now => some now
  | _ => none

def State.KeyFree (state : State) (key : String) : Prop :=
  (∀ row ∈ state.table, row.request.key ≠ key) ∧
    ∀ p ∈ state.processes, p.phase.holds = true → p.request.key ≠ key

/-- What is promised of every state that is reached. -/
structure Idempotent (window : Nat) (state : State) : Prop where
  once : state.effects.Pairwise fun e later =>
    e.request.key = later.request.key → e.expiresAt < later.committedAt
  /-- a replay answers the caller that its response was made for -/
  own : ∀ p ∈ state.processes, ∀ at_ response,
    p.phase = .answered (.replayed at_ response) →
      ∃ e ∈ state.effects, e.kept = some response ∧ e.request.key = p.request.key ∧
        e.request.SameCaller p.request
  free : ∀ position p next, state.processes[position]? = some p → p.phase.holds = true →
    step window state (.move position .fail) = some next → next.KeyFree p.request.key
  /-- nothing that has expired keeps a request from its handler -/
  anew : ∀ p ∈ state.processes, ∀ at_, p.phase.foundAt = some at_ →
    ∃ e ∈ state.effects, e.request.key = p.request.key ∧ at_ ≤ e.expiresAt

/-- What a request finds under its key has not expired, and has been made for its own caller
unless the payload is another one. -/
def Fits (q writer : Request) (at_ expiresAt : Nat) : Prop :=
  at_ ≤ expiresAt ∧ (writer.requestHash = q.requestHash → writer.SameCaller q)

/-- A request is answered only from a record that fits it, and no key is freed before its window
is over. -/
def Admitted (state : State) : Action → Prop
  | .move position (.lookup true) =>
    ∀ p ∈ state.processes[position]?, ∀ entry ∈ state.entry p.request.key,
      Fits p.request entry.request state.now entry.expiresAt
  | .move position .get =>
    ∀ p ∈ state.processes[position]?, ∀ now ∈ p.phase.refusedAt,
      ∀ row ∈ state.row p.request.key, Fits p.request row.request now row.expiresAt
  | .move position .reserve =>
    ∀ p ∈ state.processes[position]?, ∀ now ∈ p.phase.absentAt,
      ∀ row ∈ state.row p.request.key, now ≤ row.expiresAt
  | .move _ (.handle _ _ own) => own = false
  | .delete key => ∀ row ∈ state.table, row.request.key = key → row.expiresAt < state.now
  | _ => True

instance (state : State) (action : Action) : Decidable (Admitted state action) := by
  unfold Admitted Fits Request.SameCaller
  split <;> infer_instance

def Written (effects : List Effect) (q : Request) (kept : Option Response) (expiresAt : Nat) :
    Prop :=
  ∃ e ∈ effects, e.request = q ∧ e.kept = kept ∧ e.expiresAt = expiresAt

def Told (effects : List Effect) (q : Request) : Phase → Prop
  | .handled _ _ _ own => own = false
  | .completed _ _ _ own => own = false
  | .committed expiresAt _ kept => Written effects q (some kept) expiresAt
  | .answered (.replayed at_ response) =>
    ∃ e ∈ effects, e.kept = some response ∧ e.request.key = q.key ∧ e.request.SameCaller q ∧
      at_ ≤ e.expiresAt
  | .answered (.reused at_) => ∃ e ∈ effects, e.request.key = q.key ∧ at_ ≤ e.expiresAt
  | .answered (.processing at_) => ∃ e ∈ effects, e.request.key = q.key ∧ at_ ≤ e.expiresAt
  | .answered (.expired at_) => ∃ e ∈ effects, e.request.key = q.key ∧ at_ ≤ e.expiresAt
  | _ => True

structure Sound (state : State) : Prop where
  rows : ∀ row ∈ state.table, Written state.effects row.request row.response row.expiresAt
  entries : ∀ entry ∈ state.cache,
    Written state.effects entry.request (some entry.response) entry.expiresAt
  told : ∀ p ∈ state.processes, Told state.effects p.request p.phase
  held : ∀ p ∈ state.processes, p.phase.holds = true →
    ∀ row ∈ state.table, row.request.key ≠ p.request.key
  /-- and is held once -/
  alone : ∀ (i j : Nat) (p q : Process), state.processes[i]? = some p →
    state.processes[j]? = some q → i ≠ j →
    p.phase.holds = true → q.phase.holds = true → p.request.key ≠ q.request.key
  past : ∀ e ∈ state.effects, e.expiresAt < state.now ∨
    ∃ row ∈ state.table, row.request.key = e.request.key ∧ e.expiresAt ≤ row.expiresAt
  once : state.effects.Pairwise fun e later =>
    e.request.key = later.request.key → e.expiresAt < later.committedAt

variable {expiresAt j : Nat} {key : String} {q : Process} {response : Response}

section

variable {effects more : List Effect} {q : Request} {phase phase' : Phase} {store store' : Store}
  {waits : Bool} {move : Move} {window : Nat}

theorem Written.mono {kept : Option Response} (written : Written effects q kept expiresAt) :
    Written (effects ++ more) q kept expiresAt := by
  obtain ⟨e, isEffect, same⟩ := written
  exact ⟨e, mem_append_left more isEffect, same⟩

theorem Told.mono (told : Told effects q phase) : Told (effects ++ more) q phase := by
  cases phase with
  | committed expiresAt response kept => exact Written.mono told
  | answered outcome =>
    cases outcome with
    | fresh response => trivial
    | failed => trivial
    | replayed at_ response =>
      obtain ⟨e, isEffect, found⟩ := told
      exact ⟨e, mem_append_left more isEffect, found⟩
    | reused at_ =>
      obtain ⟨e, isEffect, found⟩ := told
      exact ⟨e, mem_append_left more isEffect, found⟩
    | processing at_ =>
      obtain ⟨e, isEffect, found⟩ := told
      exact ⟨e, mem_append_left more isEffect, found⟩
    | expired at_ =>
      obtain ⟨e, isEffect, found⟩ := told
      exact ⟨e, mem_append_left more isEffect, found⟩
  | _ => exact told

/-- What is found in the cache or in the table ends a request or lets it go on; it reserves
nothing. -/
def Phase.Idle (phase : Phase) : Prop :=
  phase.holds = false ∧ ∀ expiresAt response kept, phase ≠ .committed expiresAt response kept

theorem lookupCached_idle (store : Store) (q : Request) : (lookupCached store q).Idle := by
  rw [lookupCached]
  split
  · exact ⟨rfl, nofun⟩
  · split <;> exact ⟨rfl, nofun⟩

theorem found_idle (q : Request) (now : Nat) (row : Record) : (found q now row).Idle := by
  rw [found]
  split
  · exact ⟨rfl, nofun⟩
  · split
    · exact ⟨rfl, nofun⟩
    · split <;> exact ⟨rfl, nofun⟩

theorem told_lookupCached
    (entries : ∀ entry ∈ store.cache,
      Written store.effects entry.request (some entry.response) entry.expiresAt)
    (cached : ∀ entry ∈ store.entry q.key, Fits q entry.request store.now entry.expiresAt) :
    Told store.effects q (lookupCached store q) := by
  rw [lookupCached]
  split
  case h_1 => trivial
  case h_2 entry isEntry =>
    obtain ⟨isStored, -⟩ := filter_eq_some_iff.mp isEntry
    have sameKey : entry.request.key = q.key := by simpa using find?_some isStored
    obtain ⟨e, isEffect, sameRequest, isKept, sameEnd⟩ :=
      entries entry (mem_of_find?_eq_some isStored)
    obtain ⟨fresh, own⟩ := cached entry isEntry
    rw [← sameRequest] at sameKey own
    rw [← sameEnd] at fresh
    split
    case isTrue => exact ⟨e, isEffect, sameKey, fresh⟩
    case isFalse same =>
      rw [sameRequest] at own
      exact ⟨e, isEffect, isKept, sameKey, sameRequest ▸ own (not_not.mp same), fresh⟩

theorem told_found {row : Record} {now : Nat} (sameKey : row.request.key = q.key)
    (written : Written effects row.request row.response row.expiresAt)
    (fits : Fits q row.request now row.expiresAt) : Told effects q (found q now row) := by
  obtain ⟨e, isEffect, sameRequest, isKept, sameEnd⟩ := written
  obtain ⟨fresh, own⟩ := fits
  rw [← sameRequest] at sameKey
  rw [← sameEnd] at fresh
  rw [found]
  split
  case isTrue => exact ⟨e, isEffect, sameKey, fresh⟩
  case isFalse =>
    split
    case isTrue => exact ⟨e, isEffect, sameKey, fresh⟩
    case isFalse same =>
      split
      case h_1 => exact ⟨e, isEffect, sameKey, fresh⟩
      case h_2 response answers =>
        exact ⟨e, isEffect, isKept.trans answers, sameKey,
          sameRequest ▸ own (not_not.mp same), fresh⟩

section

variable (acted : act window store waits q phase move = some (store', phase'))
include acted

theorem act_cases (notOwn : ∀ response kept own, move = .handle response kept own → own = false) :
    (store' = store ∧
      (phase'.holds = true → phase.holds = true ∨ (waits = false ∧ store.row q.key = none)) ∧
      ∀ expiresAt response kept, phase' ≠ .committed expiresAt response kept) ∨
    (∃ expiresAt response kept own, phase = .completed expiresAt response kept own ∧
      phase' = .committed expiresAt response kept ∧
      store' = { store with
        table := store.table ++ [⟨q, some kept, expiresAt⟩]
        effects :=
          if own then store.effects
          else store.effects ++ [⟨q, some kept, expiresAt, store.now⟩] }) ∨
    (∃ expiresAt response kept, phase = .committed expiresAt response kept ∧
      phase' = .answered (.fresh response) ∧
      store' = { store with
        cache := insertOrUpdate (fun entry : Entry => entry.request.key)
          ⟨q, kept, expiresAt, store.now + window⟩ store.cache }) := by
  have idle : ∀ {after : Phase}, after.Idle → store' = store → phase' = after →
      store' = store ∧
        (phase'.holds = true → phase.holds = true ∨ (waits = false ∧ store.row q.key = none)) ∧
        ∀ expiresAt response kept, phase' ≠ .committed expiresAt response kept := by
    rintro after ⟨holdsNot, notCommitted⟩ sameStore rfl
    exact ⟨sameStore, fun holds => absurd (holdsNot.symm.trans holds) (by decide), notCommitted⟩
  rw [act.eq_def] at acted
  split at acted
  case h_1 available =>
    cases acted
    cases available with
    | true => exact .inl (idle (lookupCached_idle store q) rfl rfl)
    | false => exact .inl ⟨rfl, nofun, nofun⟩
  case h_2 =>
    cases acted
    exact .inl ⟨rfl, nofun, nofun⟩
  case h_3 now =>
    obtain ⟨free, acted⟩ := ite_none_left_eq_some.mp acted
    cases acted
    refine .inl ⟨rfl, fun holds => .inr ⟨Bool.eq_false_iff.mpr free, ?_⟩, ?_⟩
    · split at holds
      case isTrue noRow => exact isNone_iff_eq_none.mp noRow
      case isFalse => cases holds
    · intro expiresAt response kept
      split <;> nofun
  case h_4 now =>
    cases acted
    have isIdle : ((store.row q.key).elim (.absent now) (found q now)).Idle := by
      cases store.row q.key with
      | none => exact ⟨rfl, nofun⟩
      | some row => exact found_idle q now row
    exact .inl (idle isIdle rfl rfl)
  case h_5 now =>
    obtain ⟨free, acted⟩ := ite_none_left_eq_some.mp acted
    cases acted
    refine .inl ⟨rfl, fun holds => .inr ⟨Bool.eq_false_iff.mpr free, ?_⟩, ?_⟩
    · split at holds
      case isTrue noRow => exact isNone_iff_eq_none.mp noRow
      case isFalse => cases holds
    · intro expiresAt response kept
      split <;> nofun
  case h_6 expiresAt response kept own =>
    have written := notOwn response kept own rfl
    rw [written] at acted
    cases acted
    exact .inl ⟨rfl, fun _ => .inl rfl, nofun⟩
  case h_7 =>
    cases acted
    exact .inl ⟨rfl, fun _ => .inl rfl, nofun⟩
  case h_8 expiresAt response kept own =>
    cases acted
    exact .inr (.inl ⟨expiresAt, response, kept, own, rfl, rfl, rfl⟩)
  case h_9 expiresAt response kept available =>
    cases acted
    cases available with
    | true => exact .inr (.inr ⟨expiresAt, response, kept, rfl, rfl, rfl⟩)
    | false => exact .inl ⟨rfl, nofun, nofun⟩
  case h_12 =>
    cases acted
    exact .inl ⟨rfl, nofun, nofun⟩
  all_goals cases acted

theorem told_of_act (told : Told store.effects q phase)
    (rows : ∀ row ∈ store.table, Written store.effects row.request row.response row.expiresAt)
    (entries : ∀ entry ∈ store.cache,
      Written store.effects entry.request (some entry.response) entry.expiresAt)
    (cached : move = .lookup true → ∀ entry ∈ store.entry q.key,
      Fits q entry.request store.now entry.expiresAt)
    (read : move = .get → ∀ now ∈ phase.refusedAt, ∀ row ∈ store.row q.key,
      Fits q row.request now row.expiresAt)
    (again : move = .reserve → ∀ now ∈ phase.absentAt, ∀ row ∈ store.row q.key, now ≤ row.expiresAt)
    (notOwn : ∀ response kept own, move = .handle response kept own → own = false) :
    Told store'.effects q phase' := by
  have rowOf : ∀ {row}, store.row q.key = some row → row.request.key = q.key ∧
      Written store.effects row.request row.response row.expiresAt := fun isRow =>
    ⟨by simpa using find?_some isRow, rows _ (mem_of_find?_eq_some isRow)⟩
  rw [act.eq_def] at acted
  split at acted
  case h_1 available =>
    cases acted
    cases available with
    | false => trivial
    | true =>
      rw [if_pos rfl]
      exact told_lookupCached entries (cached rfl)
  case h_2 =>
    cases acted
    trivial
  case h_3 now =>
    obtain ⟨-, acted⟩ := ite_none_left_eq_some.mp acted
    cases acted
    split <;> trivial
  case h_4 now =>
    cases acted
    cases isRow : store.row q.key with
    | none => trivial
    | some row =>
      obtain ⟨sameKey, written⟩ := rowOf isRow
      exact told_found sameKey written (read rfl now rfl row isRow)
  case h_5 now =>
    obtain ⟨-, acted⟩ := ite_none_left_eq_some.mp acted
    cases acted
    split
    case isTrue => trivial
    case isFalse isThere =>
      obtain ⟨row, isRow⟩ := ne_none_iff_exists'.mp
        (fun noRow => isThere (isNone_iff_eq_none.mpr noRow))
      obtain ⟨sameKey, e, isEffect, sameRequest, -, sameEnd⟩ := rowOf isRow
      have fresh := again rfl now rfl row isRow
      exact ⟨e, isEffect, sameRequest ▸ sameKey, sameEnd ▸ fresh⟩
  case h_6 expiresAt response kept own =>
    have written := notOwn response kept own rfl
    rw [written] at acted
    cases acted
    rfl
  case h_7 =>
    cases acted
    exact told
  case h_8 expiresAt response kept own =>
    have written : own = false := told
    rw [written] at acted
    cases acted
    exact ⟨_, mem_append_right _ (mem_singleton.mpr rfl), rfl, rfl, rfl⟩
  case h_9 =>
    cases acted
    trivial
  case h_12 =>
    cases acted
    trivial
  all_goals cases acted

end

end

section

variable {state next : State} {window : Nat} {position : Nat} {move : Move} {p : Process}
  {phase : Phase}

theorem move_cases (stepped : step window state (.move position move) = some next) :
    ∃ p store phase, state.processes[position]? = some p ∧
      act window state.toStore (state.waits position p.request.key) p.request p.phase move =
        some (store, phase) ∧
      next = { toStore := store
               processes := state.processes.set position { p with phase } } := by
  rw [step] at stepped
  obtain ⟨p, isProcess, stepped⟩ := bind_eq_some_iff.mp stepped
  obtain ⟨after, acted, rfl⟩ := map_eq_some_iff.mp stepped
  exact ⟨p, after.1, after.2, isProcess, acted, rfl⟩

theorem waits_eq_false (free : state.waits position key = false)
    (isOther : state.processes[j]? = some q) (apart : j ≠ position)
    (holds : q.phase.holds = true) : q.request.key ≠ key := by
  intro same
  have isThere : q ∈ state.processes.eraseIdx position :=
    mem_eraseIdx_iff_getElem?.mpr ⟨j, apart, isOther⟩
  have notHeld := any_eq_false.mp free q isThere
  simp [holds, same] at notHeld

theorem process_after (isProcess : state.processes[position]? = some p)
    (isAfter : (state.processes.set position { p with phase })[j]? = some q) :
    (j = position ∧ q = { p with phase }) ∨ (j ≠ position ∧ state.processes[j]? = some q) := by
  by_cases same : j = position
  · subst same
    have inRange := (List.getElem?_eq_some_iff.mp isProcess).1
    rw [getElem?_set_self inRange] at isAfter
    exact .inl ⟨rfl, (some.inj isAfter).symm⟩
  · rw [getElem?_set_ne (Ne.symm same)] at isAfter
    exact .inr ⟨same, isAfter⟩

theorem alone_set (sound : Sound state) (isProcess : state.processes[position]? = some p)
    (holds : phase.holds = true → p.phase.holds = true ∨
      (state.waits position p.request.key = false ∧ state.row p.request.key = none)) :
    ∀ (i j : Nat) (q r : Process),
      (state.processes.set position { p with phase })[i]? = some q →
      (state.processes.set position { p with phase })[j]? = some r → i ≠ j →
      q.phase.holds = true → r.phase.holds = true → q.request.key ≠ r.request.key := by
  have apart : ∀ {j : Nat} {r : Process}, state.processes[j]? = some r → j ≠ position →
      r.phase.holds = true → phase.holds = true → r.request.key ≠ p.request.key := by
    intro j r isOther notSame otherHolds ownHolds
    rcases holds ownHolds with before | ⟨free, -⟩
    · exact sound.alone j position r p isOther isProcess notSame otherHolds before
    · exact waits_eq_false free isOther notSame otherHolds
  intro i j q r isFirst isSecond notSame firstHolds secondHolds
  rcases process_after isProcess isFirst with ⟨rfl, rfl⟩ | ⟨firstApart, wasFirst⟩
  · rcases process_after isProcess isSecond with ⟨rfl, rfl⟩ | ⟨secondApart, wasSecond⟩
    · exact absurd rfl notSame
    · exact (apart wasSecond secondApart secondHolds firstHolds).symm
  · rcases process_after isProcess isSecond with ⟨rfl, rfl⟩ | ⟨secondApart, wasSecond⟩
    · exact apart wasFirst firstApart firstHolds secondHolds
    · exact sound.alone i j q r wasFirst wasSecond notSame firstHolds secondHolds

theorem forall_set {holds : Process → Prop} (others : ∀ q ∈ state.processes, holds q)
    (own : holds { p with phase }) :
    ∀ q ∈ state.processes.set position { p with phase }, holds q := by
  intro q member
  rcases mem_or_eq_of_mem_set member with before | rfl
  · exact others q before
  · exact own

theorem sound_of_quiet {phase : Phase} (sound : Sound state)
    (isProcess : state.processes[position]? = some p)
    (told : Told state.effects p.request phase)
    (holds : phase.holds = true → p.phase.holds = true ∨
      (state.waits position p.request.key = false ∧ state.row p.request.key = none)) :
    Sound { state with processes := state.processes.set position { p with phase } } where
  rows := sound.rows
  entries := sound.entries
  told := forall_set sound.told told
  held := by
    refine forall_set sound.held fun nowHolds row isRow same => ?_
    rcases holds nowHolds with before | ⟨-, noRow⟩
    · exact sound.held p (mem_of_getElem? isProcess) before row isRow same
    · exact absurd same (by simpa using find?_eq_none.mp noRow row isRow)
  alone := alone_set sound isProcess holds
  past := sound.past
  once := sound.once

theorem sound_of_commit {kept : Response} (sound : Sound state)
    (isProcess : state.processes[position]? = some p)
    (isCompleted : p.phase = .completed expiresAt response kept false) :
    Sound {
      toStore := { state.toStore with
        table := state.table ++ [⟨p.request, some kept, expiresAt⟩]
        effects := state.effects ++ [⟨p.request, some kept, expiresAt, state.now⟩] }
      processes := state.processes.set position
        { p with phase := .committed expiresAt response kept } } := by
  have isOne : p ∈ state.processes := mem_of_getElem? isProcess
  have holds : p.phase.holds = true := by rw [isCompleted]; rfl
  have isNew : Written (state.effects ++ [⟨p.request, some kept, expiresAt, state.now⟩])
      p.request (some kept) expiresAt :=
    ⟨_, mem_append_right _ (mem_singleton.mpr rfl), rfl, rfl, rfl⟩
  refine ⟨?_, ?_, ?_, ?_, ?_, ?_, ?_⟩
  · intro row isRow
    rcases mem_concat.mp isRow with before | rfl
    · exact (sound.rows row before).mono
    · exact isNew
  · exact fun entry isEntry => (sound.entries entry isEntry).mono
  · exact forall_set (fun q isProcess => (sound.told q isProcess).mono) isNew
  · intro q member otherHolds row isRow same
    obtain ⟨j, isAt⟩ := mem_iff_getElem?.mp member
    rcases process_after isProcess isAt with ⟨-, rfl⟩ | ⟨apart, isOther⟩
    · cases otherHolds
    · rcases mem_concat.mp isRow with before | rfl
      · exact sound.held q (mem_of_getElem? isOther) otherHolds row before same
      · exact sound.alone j position q p isOther isProcess apart otherHolds holds same.symm
  · exact alone_set sound isProcess nofun
  · intro e isEffect
    rcases mem_concat.mp isEffect with before | rfl
    · rcases sound.past e before with expired | ⟨row, isRow, same⟩
      · exact .inl expired
      · exact .inr ⟨row, mem_append_left _ isRow, same⟩
    · exact .inr ⟨_, mem_append_right _ (mem_singleton.mpr rfl), rfl, Nat.le_refl _⟩
  · refine pairwise_append.mpr ⟨sound.once, pairwise_singleton _ _, ?_⟩
    intro e isEffect later isNewEffect sameKey
    rw [mem_singleton.mp isNewEffect] at sameKey ⊢
    rcases sound.past e isEffect with expired | ⟨row, isRow, same, -⟩
    · exact expired
    · exact absurd (same.trans sameKey) (sound.held p isOne holds row isRow)

theorem sound_of_warm {droppedAt : Nat} {kept : Response}
    (sound : Sound state) (isProcess : state.processes[position]? = some p)
    (isCommitted : p.phase = .committed expiresAt response kept) :
    Sound {
      toStore := { state.toStore with
        cache := insertOrUpdate (fun entry : Entry => entry.request.key)
          ⟨p.request, kept, expiresAt, droppedAt⟩ state.cache }
      processes := state.processes.set position
        { p with phase := .answered (.fresh response) } } where
  rows := sound.rows
  entries := by
    have written := sound.told p (mem_of_getElem? isProcess)
    rw [isCommitted] at written
    intro entry isEntry
    rcases mem_insertOrUpdate _ isEntry with rfl | before
    · exact written
    · exact sound.entries entry before
  told := forall_set sound.told trivial
  held := forall_set sound.held nofun
  alone := alone_set sound isProcess nofun
  past := sound.past
  once := sound.once

theorem sound_of_arrive (request : Request) (sound : Sound state) :
    Sound { state with processes := state.processes ++ [{ request }] } where
  rows := sound.rows
  entries := sound.entries
  told := by
    intro q member
    rcases mem_concat.mp member with before | rfl
    · exact sound.told q before
    · trivial
  held := by
    intro q member holds
    rcases mem_concat.mp member with before | rfl
    · exact sound.held q before holds
    · cases holds
  alone := by
    have old : ∀ {j : Nat} {q : Process},
        (state.processes ++ [({ request } : Process)])[j]? = some q → q.phase.holds = true →
          state.processes[j]? = some q := by
      intro j q isAt holds
      rw [getElem?_append] at isAt
      split at isAt
      case isTrue => exact isAt
      case isFalse =>
        rw [mem_singleton.mp (mem_of_getElem? isAt)] at holds
        cases holds
    exact fun i j q r isFirst isSecond notSame firstHolds secondHolds =>
      sound.alone i j q r (old isFirst firstHolds) (old isSecond secondHolds) notSame firstHolds
        secondHolds
  past := sound.past
  once := sound.once

theorem sound_of_delete (sound : Sound state)
    (expired : ∀ row ∈ state.table, row.request.key = key → row.expiresAt < state.now) :
    Sound { state with
      table := state.table.filter fun row => row.request.key ≠ key
      selected := state.selected.erase key } where
  rows row isRow := sound.rows row (mem_filter.mp isRow).1
  entries := sound.entries
  told := sound.told
  held q member holds row isRow := sound.held q member holds row (mem_filter.mp isRow).1
  alone := sound.alone
  past := by
    intro e isEffect
    rcases sound.past e isEffect with isPast | ⟨row, isRow, same, notBefore⟩
    · exact .inl isPast
    · by_cases isDeleted : row.request.key = key
      · exact .inl (Nat.lt_of_le_of_lt notBefore (expired row isRow isDeleted))
      · exact .inr ⟨row, mem_filter.mpr ⟨isRow, by simpa using isDeleted⟩, same, notBefore⟩
  once := sound.once

theorem sound_step {action : Action} (stepped : step window state action = some next)
    (admitted : Admitted state action) (sound : Sound state) : Sound next := by
  cases action with
  | arrive request =>
    cases stepped
    exact sound_of_arrive request sound
  | move position move =>
    obtain ⟨p, store, phase, isProcess, acted, rfl⟩ := move_cases stepped
    have notOwn : ∀ response kept own, move = .handle response kept own → own = false := by
      rintro response kept own rfl
      exact admitted
    have told : Told store.effects p.request phase := by
      apply told_of_act acted (sound.told p (mem_of_getElem? isProcess)) sound.rows
        sound.entries _ _ _ notOwn
      · rintro rfl
        exact admitted p isProcess
      · rintro rfl
        exact admitted p isProcess
      · rintro rfl
        exact admitted p isProcess
    rcases act_cases acted notOwn with ⟨rfl, holds, -⟩ |
      ⟨expiresAt, response, kept, own, isCompleted, rfl, rfl⟩ |
      ⟨expiresAt, response, kept, isCommitted, rfl, rfl⟩
    · exact sound_of_quiet sound isProcess told holds
    · have isOwn := sound.told p (mem_of_getElem? isProcess)
      rw [isCompleted] at isOwn
      have written : own = false := isOwn
      subst written
      exact sound_of_commit sound isProcess isCompleted
    · exact sound_of_warm sound isProcess isCommitted
  | tick passed =>
    cases stepped
    refine { sound with past := fun e isEffect => ?_ }
    exact (sound.past e isEffect).imp_left fun isPast =>
      Nat.lt_of_lt_of_le isPast (Nat.le_add_right _ _)
  | select key =>
    rw [step] at stepped
    obtain ⟨-, stepped⟩ := ite_none_right_eq_some.mp stepped
    cases stepped
    exact { sound with }
  | delete key =>
    rw [step] at stepped
    obtain ⟨-, stepped⟩ := ite_none_right_eq_some.mp stepped
    cases stepped
    exact sound_of_delete sound admitted

theorem sound_start : Sound {} where
  rows _ none_ := by cases none_
  entries _ none_ := by cases none_
  told _ none_ := by cases none_
  held _ none_ := by cases none_
  alone _ _ _ _ none_ := by cases none_
  past _ none_ := by cases none_
  once := List.Pairwise.nil

theorem free_of_fail (sound : Sound state) (isProcess : state.processes[position]? = some p)
    (holds : p.phase.holds = true)
    (failed : step window state (.move position .fail) = some next) :
    next.KeyFree p.request.key := by
  obtain ⟨q, store, phase, isAt, acted, rfl⟩ := move_cases failed
  rw [isProcess] at isAt
  cases isAt
  have isRolledBack : store = state.toStore ∧ phase = .answered .failed := by
    cases inPhase : p.phase <;> rw [inPhase] at acted holds <;> cases holds <;>
      exact ⟨(Prod.mk.inj (some.inj acted)).1.symm, (Prod.mk.inj (some.inj acted)).2.symm⟩
  obtain ⟨rfl, rfl⟩ := isRolledBack
  refine ⟨sound.held p (mem_of_getElem? isProcess) holds, fun q member otherHolds => ?_⟩
  obtain ⟨j, isAt⟩ := mem_iff_getElem?.mp member
  rcases process_after isProcess isAt with ⟨-, rfl⟩ | ⟨apart, isOther⟩
  · cases otherHolds
  · exact sound.alone j position q p isOther isProcess apart otherHolds holds

theorem idempotent_of_sound (sound : Sound state) : Idempotent window state where
  once := sound.once
  own := by
    intro p member at_ response isReplay
    have told := sound.told p member
    rw [isReplay] at told
    obtain ⟨e, isEffect, isKept, sameKey, sameCaller, -⟩ := told
    exact ⟨e, isEffect, isKept, sameKey, sameCaller⟩
  free _ _ _ isProcess holds failed := free_of_fail sound isProcess holds failed
  anew := by
    intro p member at_ isFound
    have told := sound.told p member
    cases inPhase : p.phase with
    | answered outcome =>
      rw [inPhase] at told isFound
      cases outcome with
      | replayed found response =>
        cases isFound
        obtain ⟨e, isEffect, -, sameKey, -, fresh⟩ := told
        exact ⟨e, isEffect, sameKey, fresh⟩
      | reused found | processing found | expired found =>
        cases isFound
        exact told
      | fresh response | failed => cases isFound
    | _ =>
      rw [inPhase] at isFound
      cases isFound

end

/-- In every run in which what a request finds under its key fits, a key has one effect in its
window, replays are their caller's own, failures leave the key free, and what has expired is
done anew. -/
theorem idempotent_of_admitted (window : Nat) :
    ∀ actions state, run (step window) {} actions = some state →
      Meets (step window) Admitted {} actions → Idempotent window state :=
  fun _ _ reached meets =>
    idempotent_of_sound (run_invariant_of_meets sound_step reached meets sound_start)

def plain : Digests where
  blake2b text := text
  contentHash
    | .body dump => dump
    | .identity parts => "\x1f".intercalate parts

def toldBy (userId : String) : Request :=
  remember plain { principal := userId, userId } { tenantId := "acme" } none "SEMANTIC"
    "I prefer tea." "{}"

def acknowledged : Response := ⟨201, "mem_1"⟩

/-- A request that is alone from its unit of work to its commit. -/
def writes (position : Nat) : List Action :=
  [.move position (.lookup true), .move position .begin_, .move position .reserve,
    .move position (.handle acknowledged acknowledged false), .move position .complete,
    .move position .commit]

def secondUser : List Action :=
  .arrive (toldBy "mia") :: writes 0 ++
    [.move 0 (.warm true), .arrive (toldBy "noor"), .move 1 (.lookup true)]

def dayLater : List Action :=
  .arrive (toldBy "mia") :: writes 0 ++
    [.move 0 (.warm false), .tick 86401, .arrive (toldBy "mia"), .move 1 (.lookup true),
      .move 1 .begin_, .move 1 .reserve, .move 1 .get]

theorem secondUser_ends : (run (step 86400) {} secondUser).map (fun state =>
      (state.processes[1]?, state.effects.map fun e => e.request.caller)) =
      some (some ⟨toldBy "noor", .answered (.replayed 0 acknowledged)⟩,
        [{ principal := "mia", userId := "mia" }]) := by
  decide +kernel

theorem dayLater_ends : (run (step 86400) {} dayLater).map (fun state =>
      (state.processes[1]?, state.effects.map fun e => e.expiresAt)) =
      some (some ⟨toldBy "mia", .answered (.expired 86401)⟩, [86400]) := by
  decide +kernel

/-- The second user is answered for the first; and a day later, the first user is refused on
account of a record that has expired. -/
theorem second_user_is_answered_for_the_first :
    (∃ state, run (step 86400) {} secondUser = some state ∧ ¬Idempotent 86400 state) ∧
      ∃ state, run (step 86400) {} dayLater = some state ∧ ¬Idempotent 86400 state := by
  constructor
  · obtain ⟨state, reached, ends⟩ := map_eq_some_iff.mp secondUser_ends
    obtain ⟨isProcess, isEffect⟩ := Prod.mk.inj ends
    refine ⟨state, reached, fun idempotent => ?_⟩
    obtain ⟨e, member, -, -, -, sameCaller⟩ :=
      idempotent.own _ (mem_of_getElem? isProcess) 0 acknowledged rfl
    have isFirst : e.request.caller ∈ state.effects.map fun e => e.request.caller :=
      mem_map_of_mem member
    rw [isEffect, sameCaller] at isFirst
    exact absurd isFirst (by decide)
  · obtain ⟨state, reached, ends⟩ := map_eq_some_iff.mp dayLater_ends
    obtain ⟨isProcess, isEffect⟩ := Prod.mk.inj ends
    refine ⟨state, reached, fun idempotent => ?_⟩
    obtain ⟨e, member, -, notExpired⟩ := idempotent.anew _ (mem_of_getElem? isProcess) 86401 rfl
    have isOnly : e.expiresAt ∈ state.effects.map fun e => e.expiresAt := mem_map_of_mem member
    rw [isEffect] at isOnly
    rw [mem_singleton.mp isOnly] at notExpired
    exact absurd notExpired (by decide)

/-- A user whose first try fails, who then is acknowledged, and again without an effect. -/
def retried : List Action :=
  [.arrive (toldBy "mia"), .move 0 (.lookup true), .move 0 .begin_, .move 0 .reserve,
    .move 0 .fail, .arrive (toldBy "mia")] ++ writes 1 ++
    [.move 1 (.warm false), .arrive (toldBy "mia"), .move 2 (.lookup true), .move 2 .begin_,
      .move 2 .reserve, .move 2 .get]

theorem idempotent_of_retried :
    ∃ state, run (step 86400) {} retried = some state ∧
      state.processes[2]? = some ⟨toldBy "mia", .answered (.replayed 0 acknowledged)⟩ ∧
      Meets (step 86400) Admitted {} retried ∧ Idempotent 86400 state :=
  exists_run_showing (by decide +kernel) fun state reached =>
    have meets : Meets (step 86400) Admitted {} retried := by decide +kernel
    ⟨meets, idempotent_of_admitted 86400 retried state reached meets⟩

end MemoryService.Idempotency
