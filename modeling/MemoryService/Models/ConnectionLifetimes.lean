import MemoryService.Models.Connections

/-!
# A client is open while it is used, and closed once

A client waits to be used by the call that opened it while that call closes others.
-/

namespace MemoryService.Models

open Foundation List Option

universe u

variable {Key : Type u} [DecidableEq Key]

/-- A client in use is open, a key has one in service, and the others are closed once. -/
structure Lawful (state : State Key) : Prop where
  open_ : ∀ call ∈ state.calls, ∀ id, call.phase = .inUse id →
    ∃ client, state.clients.opened[id]? = some client ∧ client.key = call.choice.key ∧
      client.revision = call.choice.revision ∧ client.closed = 0
  unharmed : ∀ call ∈ state.calls, call.phase ≠ .failed .keyError
  single : ∀ (first second : Nat) (client other : Connection Key),
    state.clients.opened[first]? = some client → state.clients.opened[second]? = some other →
      client.key = other.key → client.retired = false → other.retired = false → first = second
  keptOpen : ∀ key id, state.clients.kept.get? key = some id →
    ∃ client, state.clients.opened[id]? = some client ∧ client.key = key ∧
      client.retired = false ∧ client.closed = 0
  closedOnce : ∀ (id : Nat) (client : Connection Key), state.clients.opened[id]? = some client →
    (∀ key, state.clients.kept.get? key ≠ some id) →
      client.closed = if ∃ call ∈ state.calls, call.phase = .inUse id then 0 else 1

variable (clients : Clients Key) (choice : EndpointChoice Key)

def TurnAdmitted (usable : Bool) :
    Phase → Prop
  | .retiring => usable = true → clients.kept.get? choice.key = none
  | .evicting id =>
    let (evicted, waits) := clients.evict clients.kept.items.length
    waits = false → evicted.kept.contains choice.key = true ∧
      evicted.opened[id]?.any (·.closed = 0) = true
  | _ => True

instance (clients : Clients Key) (choice : EndpointChoice Key) (usable : Bool) (phase : Phase) :
    Decidable (TurnAdmitted clients choice usable phase) := by
  cases phase <;> unfold TurnAdmitted <;> infer_instance

def Admitted (state : State Key) : Action Key → Prop
  | .call _ => True
  | .advance position usable =>
    ∀ call ∈ state.calls[position]?, TurnAdmitted state.clients call.choice usable call.phase

instance (state : State Key) (action : Action Key) : Decidable (Admitted state action) := by
  cases action <;> unfold Admitted <;> infer_instance

def Phase.uses (phase : Phase) (id : Nat) : Bool := phase = .inUse id

def Held (id : Nat) : Prop :=
  ∃ client, clients.opened[id]? = some client ∧ client.key = choice.key ∧
    client.revision = choice.revision

def Told : Phase → Prop
  | .evicting id | .inUse id => Held clients choice id
  | .failed .keyError => False
  | _ => True

section

variable {clients later : Clients Key} {choice : EndpointChoice Key} {id : Nat} {phase : Phase}
  {usable : Bool}

omit [DecidableEq Key] in
theorem Held.mono (held : Held clients choice id) (extend : clients.Extends later) :
    Held later choice id := by
  obtain ⟨client, isOpened, isKey, isRevision⟩ := held
  obtain ⟨after, isAfter, sameKey, sameRevision⟩ := extend id client isOpened
  exact ⟨after, isAfter, sameKey.trans isKey, sameRevision.trans isRevision⟩

omit [DecidableEq Key] in
theorem Told.mono (told : Told clients choice phase) (extend : clients.Extends later) :
    Told later choice phase := by
  cases phase with
  | evicting id => exact Held.mono told extend
  | inUse id => exact Held.mono told extend
  | failed error =>
    cases error with
    | notConfigured => trivial
    | keyError => exact told
  | resolved | retiring | finished => trivial

structure TurnKeeps (clients : Clients Key) (choice : EndpointChoice Key) (phase : Phase)
    (after : Turn Key) : Prop where
  sound : after.1.Sound
  extend : clients.Extends after.1
  users : ∀ id, after.1.usersAt id + (phase.uses id).toNat =
    clients.usersAt id + (after.2.uses id).toNat
  told : Told after.1 choice after.2

theorem TurnKeeps.after_keeps {after : Turn Key} (keeps : clients.Keeps later)
    (turned : TurnKeeps later choice phase after) : TurnKeeps clients choice phase after :=
  ⟨turned.sound, keeps.extend.trans turned.extend,
    fun id => (turned.users id).trans (by rw [keeps.users]), turned.told⟩

theorem arrive_keeps {client : Connection Key} (sound : clients.Sound)
    (idle : ∀ id, phase.uses id = false) (isOpened : clients.opened[id]? = some client)
    (isKey : client.key = choice.key) (isRevision : client.revision = choice.revision)
    (isOpen : client.closed = 0) (isKept : clients.kept.contains choice.key = true) :
    TurnKeeps clients choice phase (arrive clients choice.key id) := by
  rw [arrive]
  cases isMoved : clients.moveToEnd choice.key with
  | none =>
    rw [Clients.moveToEnd, if_pos isKept] at isMoved
    cases isMoved
  | some moved =>
    obtain ⟨keeps, sameOpened⟩ := Clients.keeps_moveToEnd sound isMoved
    rw [← sameOpened] at isOpened
    refine TurnKeeps.after_keeps keeps ⟨Clients.sound_take keeps.sound isOpened isOpen,
      Clients.extends_changed _ _ _ (fun _ => rfl) fun _ => rfl, ?_, ?_⟩
    · intro other
      change Clients.usersAt
        { opened := moved.opened.modify id Connection.take, kept := moved.kept }
        other + _ = _
      rw [idle, Clients.usersAt_changed, Clients.usersAt, Phase.uses]
      by_cases same : id = other
      · subst same
        rw [if_pos rfl, isOpened, decide_eq_true rfl]
        rfl
      · rw [if_neg same, decide_eq_false fun isUsing => same (Phase.inUse.inj isUsing)]
    · refine ⟨client.take, ?_, isKey, isRevision⟩
      change (moved.opened.modify id Connection.take)[id]? = some client.take
      rw [Clients.getElem?_changed, if_pos rfl, isOpened]
      rfl

theorem settle_keeps (usable : Bool) (sound : clients.Sound) (idle : ∀ id, phase.uses id = false)
    (held : Held clients choice id)
    (isThere : TurnAdmitted clients choice usable (.evicting id)) :
    TurnKeeps clients choice phase (settle clients choice.key id) := by
  have keeps := Clients.keeps_evict sound clients.kept.items.length
  rw [settle]
  cases isEvicted : clients.evict clients.kept.items.length with
  | mk evicted waits =>
    rw [isEvicted] at keeps
    rw [TurnAdmitted, isEvicted] at isThere
    have stillHeld := held.mono keeps.extend
    cases waits with
    | true =>
      refine TurnKeeps.after_keeps keeps ⟨keeps.sound, Clients.Extends.refl _, ?_, stillHeld⟩
      exact fun other => by rw [idle]; rfl
    | false =>
      obtain ⟨isKept, isOpen⟩ := isThere rfl
      obtain ⟨client, isOpened, isKey, isRevision⟩ := stillHeld
      rw [isOpened] at isOpen
      exact TurnKeeps.after_keeps keeps (arrive_keeps keeps.sound idle isOpened isKey isRevision
        (by simpa using isOpen) isKept)

theorem open_keeps (sound : clients.Sound) (idle : ∀ id, phase.uses id = false)
    (isNew : usable = true → clients.kept.get? choice.key = none) :
    TurnKeeps clients choice phase (openClient clients choice usable) := by
  rw [openClient]
  split
  case isFalse =>
      exact ⟨sound, Clients.Extends.refl _, fun other => by rw [idle]; rfl, trivial⟩
  case isTrue isUsable =>
      let connection : Connection Key := { key := choice.key, revision := choice.revision }
      let opened := { clients with opened := clients.opened ++ [connection] }.remember
        choice.key clients.opened.length
      have keeps : clients.Keeps opened :=
        Clients.keeps_remember connection sound (isNew isUsable) rfl rfl rfl
      have isOpened : opened.opened[clients.opened.length]? = some connection :=
        List.getElem?_concat_length
      refine TurnKeeps.after_keeps keeps (settle_keeps usable keeps.sound idle
        ⟨connection, isOpened, rfl, rfl⟩ ?_)
      -- what has just been remembered is last, and in service
      have isLast : opened.kept.items.getLast? = some (choice.key, clients.opened.length) :=
        Dict.getLast?_moveToEnd (Dict.get?_set_self ..)
      have stays := Clients.evict_keeps_last opened.kept.items.length isLast
      have kept := Clients.keeps_evict keeps.sound opened.kept.items.length
      cases isEvicted : opened.evict opened.kept.items.length with
      | mk evicted waits =>
        rw [isEvicted] at stays kept
        have isThere : evicted.kept.get? choice.key = some clients.opened.length :=
          Dict.get?_eq_some_iff.mpr (List.mem_of_getLast? stays)
        obtain ⟨client, isClient, -, serves⟩ := kept.sound.kept _ _ isThere
        have isOpen := (kept.sound.unretired _ client isClient serves).2
        rw [TurnAdmitted, isEvicted]
        refine fun _ => ⟨Dict.contains_iff.mpr (Dict.mem_keys_of_get? isThere), ?_⟩
        rw [isClient]
        exact decide_eq_true isOpen

theorem turn_keeps {after : Turn Key} (sound : clients.Sound) (told : Told clients choice phase)
    (counted : ∀ id, phase.uses id = true → 0 < clients.usersAt id)
    (admitted : TurnAdmitted clients choice usable phase)
    (turned : turn clients choice usable phase = some after) :
    TurnKeeps clients choice phase after := by
  cases phase with
  | resolved =>
    have idle : ∀ id, Phase.uses .resolved id = false := fun _ => rfl
    rw [turn] at turned
    split at turned
    case h_1 isNew =>
        cases turned
        exact open_keeps sound idle fun _ => isNew
    case h_2 id isKept =>
        obtain ⟨client, isOpened, isKey, serves⟩ := sound.kept _ _ isKept
        rw [isOpened, any_some] at turned
        split at turned
        case isTrue isRevision =>
            cases turned
            exact arrive_keeps sound idle isOpened isKey (of_decide_eq_true isRevision)
              (sound.unretired id client isOpened serves).2
              (Dict.contains_iff.mpr (Dict.mem_keys_of_get? isKept))
        case isFalse =>
            have keeps := Clients.keeps_retire sound choice.key
            have isGone : (clients.retire choice.key).1.kept.get? choice.key = none := by
              rw [Clients.retire, isKept]
              exact Dict.get?_erase_self ..
            cases isRetired : clients.retire choice.key with
            | mk retired waits =>
              rw [isRetired] at turned keeps isGone
              cases waits with
              | true =>
                cases turned
                exact TurnKeeps.after_keeps keeps
                  ⟨keeps.sound, Clients.Extends.refl _, fun _ => rfl, trivial⟩
              | false =>
                cases turned
                exact TurnKeeps.after_keeps keeps (open_keeps keeps.sound idle fun _ => isGone)
  | retiring =>
    cases turned
    exact open_keeps sound (fun _ => rfl) admitted
  | evicting id =>
    cases turned
    exact settle_keeps usable sound (fun _ => rfl) told admitted
  | inUse id =>
    cases turned
    obtain ⟨client, isOpened, isKey, isRevision⟩ := told
    have isUsed := counted id (decide_eq_true rfl)
    rw [Clients.usersAt, isOpened] at isUsed
    refine ⟨Clients.sound_leave sound isOpened isUsed,
      Clients.extends_changed _ _ _ Connection.leave_key Connection.leave_revision, ?_, trivial⟩
    intro other
    change Clients.usersAt { opened := clients.opened.modify id Connection.leave
                             kept := clients.kept } other + _ = _
    rw [Clients.usersAt_changed, Clients.usersAt, Phase.uses]
    by_cases same : id = other
    · subst same
      rw [if_pos rfl, isOpened, decide_eq_true rfl]
      simp only [elim_some, Connection.leave_users]
      exact Nat.sub_add_cancel isUsed
    · rw [if_neg same, decide_eq_false fun isUsing => same (Phase.inUse.inj isUsing)]
      rfl
  | finished | failed _ => cases turned

end

structure Sound (state : State Key) : Prop where
  table : state.clients.Sound
  told : ∀ call ∈ state.calls, Told state.clients call.choice call.phase
  counted : ∀ id, state.clients.usersAt id = state.calls.countP (·.phase.uses id)

section

variable {state next : State Key} {action : Action Key}

theorem sound_step (stepped : step state action = some next) (admitted : Admitted state action)
    (sound : Sound state) : Sound next := by
  cases action with
  | call choice =>
    cases stepped
    refine ⟨sound.table, ?_, ?_⟩
    · intro call isCall
      rcases mem_concat.mp isCall with isOld | rfl
      · exact sound.told call isOld
      · trivial
    · intro id
      rw [countP_append, ← sound.counted]
      rfl
  | advance position usable =>
    obtain ⟨call, isCall, isTurn⟩ := bind_eq_some_iff.mp stepped
    obtain ⟨⟨clients, phase⟩, turned, rfl⟩ := map_eq_some_iff.mp isTurn
    have member := mem_of_getElem? isCall
    have counted : ∀ id, call.phase.uses id = true → 0 < state.clients.usersAt id := by
      intro id uses
      rw [sound.counted]
      exact countP_pos_iff.mpr ⟨call, member, uses⟩
    have keeps := turn_keeps sound.table (sound.told call member) counted
      (admitted call isCall) turned
    obtain ⟨isPosition, isAt⟩ := List.getElem?_eq_some_iff.mp isCall
    refine ⟨keeps.sound, forall_mem_set ?_ keeps.told, ?_⟩
    · exact fun other isOther => (sound.told other isOther).mono keeps.extend
    · intro id
      have isUsers : clients.usersAt id + (call.phase.uses id).toNat =
          state.clients.usersAt id + (phase.uses id).toNat := keeps.users id
      have isCount := sound.counted id
      change clients.usersAt id = (state.calls.set position { call with phase }).countP _
      rw [countP_set isPosition, isAt]
      change _ = _ - (if call.phase.uses id = true then 1 else 0) +
        if phase.uses id = true then 1 else 0
      have asIf : ∀ uses : Bool, uses.toNat = if uses = true then 1 else 0 := by decide
      rw [asIf, asIf, isCount] at isUsers
      by_cases before : call.phase.uses id = true
      · have some_ : 0 < state.calls.countP (·.phase.uses id) :=
          countP_pos_iff.mpr ⟨call, member, before⟩
        rw [if_pos before] at isUsers ⊢
        omega
      · rw [if_neg before] at isUsers ⊢
        omega

theorem lawful_of_sound (sound : Sound state) : Lawful state := by
  have isUsed : ∀ (id : Nat) (client : Connection Key),
      state.clients.opened[id]? = some client →
        client.users = state.calls.countP (·.phase.uses id) := by
    intro id client isOpened
    rw [← sound.counted, Clients.usersAt, isOpened]
    rfl
  refine ⟨?_, ?_, ?_, ?_, ?_⟩
  · intro call isCall id isPhase
    have told := sound.told call isCall
    rw [isPhase] at told
    obtain ⟨client, isOpened, isKey, isRevision⟩ := told
    refine ⟨client, isOpened, isKey, isRevision, ?_⟩
    have users : 0 < client.users := by
      rw [isUsed id client isOpened]
      exact countP_pos_iff.mpr ⟨call, isCall, decide_eq_true isPhase⟩
    cases isRetired : client.retired with
    | false => exact (sound.table.unretired id client isOpened isRetired).2
    | true =>
      rw [sound.table.retired id client isOpened isRetired, if_neg (Nat.ne_of_gt users)]
  · intro call isCall isPhase
    have told := sound.told call isCall
    rw [isPhase] at told
    exact told
  · intro first second client other isFirst isSecond sameKey serves otherServes
    have isThere := (sound.table.unretired first client isFirst serves).1
    have otherThere := (sound.table.unretired second other isSecond otherServes).1
    rw [sameKey, otherThere] at isThere
    exact (some.inj isThere).symm
  · intro key id isThere
    obtain ⟨client, isOpened, isKey, serves⟩ := sound.table.kept key id isThere
    exact ⟨client, isOpened, isKey, serves, (sound.table.unretired id client isOpened serves).2⟩
  · intro id client isOpened notKept
    have isRetired : client.retired = true := by
      cases serves : client.retired with
      | true => rfl
      | false => exact absurd (sound.table.unretired id client isOpened serves).1 (notKept _)
    rw [sound.table.retired id client isOpened isRetired, isUsed id client isOpened]
    by_cases inUse : ∃ call ∈ state.calls, call.phase = .inUse id
    · obtain ⟨call, isCall, isPhase⟩ := inUse
      have some_ : 0 < state.calls.countP (·.phase.uses id) :=
        countP_pos_iff.mpr ⟨call, isCall, decide_eq_true isPhase⟩
      rw [if_neg (Nat.ne_of_gt some_), if_pos ⟨call, isCall, isPhase⟩]
    · rw [if_neg inUse, if_pos]
      refine countP_eq_zero.mpr fun call isCall uses => inUse ⟨call, isCall, ?_⟩
      exact of_decide_eq_true uses

end

def start (service : Option Key) : State Key :=
  match service with
  | none => {}
  | some key =>
    { clients := ({ opened := [{ key, revision := none }] } : Clients Key).remember key 0 }

theorem sound_start (service : Option Key) : Sound (start service) := by
  have empty : Clients.Sound ({} : Clients Key) := by
    refine ⟨?_, ?_, ?_⟩
    · intro key id isThere
      cases isThere
    · intro id client isOpened
      cases isOpened
    · intro id client isOpened
      cases isOpened
  cases service with
  | none => exact ⟨empty, nofun, fun _ => rfl⟩
  | some key =>
    have keeps := Clients.keeps_remember { key, revision := none } empty rfl rfl rfl rfl
    exact ⟨keeps.sound, nofun, fun id => keeps.users id⟩

/-- Every client is used open and closed once, in every run where a call that comes back from
closing other clients finds its place as it left it. -/
theorem clients_lawful (service : Option Key) {actions : List (Action Key)} {state : State Key}
    (reached : run step (start service) actions = some state)
    (meets : Meets step Admitted (start service) actions) : Lawful state :=
  lawful_of_sound (run_invariant_of_meets sound_step reached meets (sound_start service))

/-- A client is opened and used; the registration moves; two calls resolve the new revision, and
the second opens its client while the first waits for the old one to close. -/
def rotated : List (Action String) :=
  [.call ⟨"a1", some 1⟩, .advance 0 true, .advance 0 true, .call ⟨"a1", some 2⟩,
    .call ⟨"a1", some 2⟩, .advance 1 true, .advance 2 true, .advance 1 true, .advance 2 true]

/-- The client that the second call opened is never closed. -/
theorem replaced_client_is_never_closed :
    ¬ ∀ (actions : List (Action String)) (state : State String),
      run step (start none) actions = some state → Lawful state := by
  intro always
  have isRun : (run step (start none) rotated).map (fun state => (state.clients.kept.items,
      state.clients.opened[1]?.map Connection.closed, state.calls.map Call.phase)) =
        some ([("a1", 2)], some 0, [.finished, .inUse 2, .finished]) := by
    decide +kernel
  obtain ⟨state, reached, isState⟩ := map_eq_some_iff.mp isRun
  obtain ⟨isKept, rest⟩ := Prod.mk.inj isState
  obtain ⟨isClosed, isPhases⟩ := Prod.mk.inj rest
  obtain ⟨client, isOpened, notClosed⟩ := map_eq_some_iff.mp isClosed
  have notKept : ∀ key, state.clients.kept.get? key ≠ some 1 := by
    intro key isThere
    have member := Dict.get?_eq_some_iff.mp isThere
    rw [isKept] at member
    simp at member
  have unused : ¬ ∃ call ∈ state.calls, call.phase = .inUse 1 := by
    rintro ⟨call, isCall, isPhase⟩
    have member := List.mem_map.mpr ⟨call, isCall, isPhase⟩
    rw [isPhases] at member
    exact absurd member (by decide)
  have once := (always rotated state reached).closedOnce 1 client isOpened notKept
  rw [if_neg unused, notClosed] at once
  cases once

/-- The same calls, each after the other. -/
theorem clients_lawful_inTurn :
    ∃ state, run step (start (some "service")) [.call ⟨"a1", some 1⟩, .advance 0 true,
        .advance 0 true, .call ⟨"a1", some 2⟩, .advance 1 true, .advance 1 true,
        .call ⟨"a1", some 2⟩, .advance 2 true, .advance 1 true] = some state ∧ Lawful state :=
  exists_run (by decide +kernel) fun _ reached =>
    clients_lawful (some "service") reached (by decide +kernel)

end MemoryService.Models
