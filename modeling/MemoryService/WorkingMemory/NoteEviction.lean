import MemoryService.Domain.Memory
import MemoryService.Foundation.Binary64
import MemoryService.WorkingMemory.HotThread
import Mathlib.Algebra.Order.Group.Multiset

/-!
# Working notes under eviction

The notes of one thread or agent run are one cache list. `remember` pushes a note, and evicts
where the list is full: each cache command of an eviction is a step of its own.
-/

namespace MemoryService.WorkingMemory.Notes

open Domain Foundation List Option

/-- What `remember` dumps. -/
structure Note where
  content : String
  memoryType : MemoryType
  principal : String
  importance : Rat
  deferred : Bool
  writtenAt : Instant
  deriving DecidableEq

inductive Item where
  | note (note : Note)
  | unreadable (raw : String)
  deriving DecidableEq

structure Settings where
  forgettingArchiveThreshold : Rat
  /-- the time to live of the list, in seconds -/
  workingTtl : Nat
  maxItems : Nat

section Fading

variable (settings : Settings) (halving : Rat → Rat)

def idle (now writtenAt : Instant) : Rat :=
  Binary64.round (mkRat (now.micros - writtenAt.micros : Nat) Instant.microsPerSecond)

/-- `0.5 ** (idle / max(1.0, working_ttl / 2))`. -/
def recency (now writtenAt : Instant) : Rat :=
  halving (Binary64.round
    (idle now writtenAt / max 1 (Binary64.round (settings.workingTtl / 2))))

/-- Whether an eviction drops an item; what it cannot read it keeps. -/
def faded (now : Instant) : Item → Bool
  | .note note =>
    Binary64.round (note.importance * recency settings halving now note.writtenAt) <
      settings.forgettingArchiveThreshold
  | .unreadable _ => false

/-- `keep`: the items that an eviction pushes back. -/
def kept (now : Instant) (raw : List Item) : List Item :=
  raw.filter fun item => !faded settings halving now item

end Fading

/-- What `LTRIM` cuts off; a bound of zero cuts nothing. -/
def trimmed (maxLen : Nat) (items : List Item) : List Item :=
  if maxLen = 0 then [] else items.take (items.length - maxLen)

theorem trimmed_append_newest (maxLen : Nat) (items : List Item) :
    trimmed maxLen items ++ newest maxLen items = items := by
  rw [trimmed, newest]
  split
  · simp
  · exact take_append_drop _ items

theorem coe_newest (maxLen : Nat) (items : List Item) :
    (newest maxLen items : Multiset Item) = (items : Multiset Item) - trimmed maxLen items := by
  have parts : ((trimmed maxLen items : List Item) : Multiset Item) + newest maxLen items =
      items := by
    rw [Multiset.coe_add, trimmed_append_newest]
  rw [← parts, add_tsub_cancel_left]

/-- What is left of an eviction. -/
inductive Client where
  /-- the list is to be read -/
  | ranging (now : Instant)
  | deleting (keep : List Item)
  | pushing (item : Item) (later : List Item) (maxLen : Nat)

/-- The eviction has read the list and has not yet written it back. -/
def Client.writes : Client → Bool
  | .ranging _ => false
  | .deleting _ | .pushing _ _ _ => true

structure State where
  list : List Item := []
  clients : List Client := []
  /-- every note that the cache took -/
  remembered : Multiset Item := 0
  /-- of these, the ones that nothing let go -/
  owed : Multiset Item := 0

def State.writing (state : State) : List Client := state.clients.filter Client.writes

inductive Action where
  | remember (note : Note) (reply : Reply)
  /-- `evict_working` comes to this list -/
  | evict (now : Instant)
  | advance (place : Nat) (reply : Reply)
  /-- the time to live of the list is over -/
  | expire

section Steps

variable (settings : Settings) (halving : Rat → Rat) (state : State)

def State.push (note : Note) : State :=
  let items := state.list ++ [.note note]
  { state with
    list := newest settings.maxItems items
    remembered := .note note ::ₘ state.remembered
    owed := (.note note ::ₘ state.owed) - trimmed settings.maxItems items }

def afterPush (later : List Item) (maxLen : Nat) : Option Client :=
  match later with
  | [] => none
  | item :: later => some (.pushing item later maxLen)

/-- One command of an eviction.  A failure of the cache ends it. -/
def State.command (reply : Reply) : Client → State × Option Client
  | .ranging now =>
    match reply with
    | .answers =>
      let keep := kept settings halving now state.list
      if keep.length ≠ state.list.length then
        ({ state with owed := state.owed - state.list.filter (faded settings halving now) },
          some (.deleting keep))
      else (state, none)
    | _ => (state, none)
  | .deleting keep =>
    match reply with
    | .answers => ({ state with list := [] }, afterPush keep keep.length)
    | .unavailable => (state, none)
    | .unanswered => ({ state with list := [] }, none)
  | .pushing item later maxLen =>
    match reply with
    | .answers =>
      ({ state with list := newest maxLen (state.list ++ [item]) }, afterPush later maxLen)
    | .unavailable => (state, none)
    | .unanswered => ({ state with list := newest maxLen (state.list ++ [item]) }, none)

/-- The eviction at a place goes on as what its command left of it. -/
def State.proceed (place : Nat) (client : Option Client) : State :=
  { state with clients := state.clients.eraseIdx place ++ client.toList }

def step : Action → Option State
  | .remember note reply => some (if reply = .unavailable then state else state.push settings note)
  | .evict now => some { state with clients := state.clients ++ [.ranging now] }
  | .advance place reply =>
    (state.clients[place]?).map fun client =>
      let (after, left) := state.command settings halving reply client
      after.proceed place left
  | .expire => some { state with list := [], owed := state.owed - state.list }

end Steps

/-- Where no eviction has still to write, every note owed is in the list as often as
it was remembered, and none is there more often. -/
def State.Kept (state : State) : Prop :=
  state.writing = [] →
    state.owed ≤ (state.list : Multiset Item) ∧ (state.list : Multiset Item) ≤ state.remembered
deriving Decidable

section Condition

variable (settings : Settings) (halving : Rat → Rat)

def Harmless (state : State) : Action → Prop
  | .remember _ reply => reply = .unavailable ∨ state.writing = []
  | .evict _ => True
  | .advance place reply =>
    match state.clients[place]? with
    | some (.ranging now) =>
      (reply = .answers ∧ ∃ item ∈ state.list, faded settings halving now item) → state.writing = []
    | some (.deleting keep) => reply = .unanswered → keep = []
    | some (.pushing _ later _) => reply = .answers ∨ reply = .unanswered ∧ later = []
    | none => True
  | .expire => True

instance (state : State) (action : Action) :
    Decidable (Harmless settings halving state action) := by
  unfold Harmless
  split
  · infer_instance
  · infer_instance
  · split
    · infer_instance
    · infer_instance
    · infer_instance
    · infer_instance
  · infer_instance

end Condition

def Client.Holds (state : State) : Client → Prop
  | .ranging _ => False
  | .deleting keep =>
    state.owed ≤ (keep : Multiset Item) ∧ state.owed ≤ (state.list : Multiset Item) ∧
      (keep : Multiset Item) ≤ state.remembered ∧ (state.list : Multiset Item) ≤ state.remembered
  | .pushing item later maxLen =>
    state.owed ≤ ((state.list ++ item :: later : List Item) : Multiset Item) ∧
      ((state.list ++ item :: later : List Item) : Multiset Item) ≤ state.remembered ∧
        state.list.length + later.length + 1 ≤ maxLen

/-- At most one eviction has still to write. -/
def State.Sound (state : State) : Prop :=
  match state.writing with
  | [] =>
    state.owed ≤ (state.list : Multiset Item) ∧ (state.list : Multiset Item) ≤ state.remembered
  | [client] => client.Holds state
  | _ :: _ :: _ => False

theorem State.Sound.kept {state : State} (sound : state.Sound) : state.Kept := by
  intro isIdle
  rw [State.Sound, isIdle] at sound
  exact sound

theorem sound_initial : ({} : State).Sound := by
  simp [State.Sound, State.writing]

variable {place maxLen : Nat} {client : Client} {item : Item} {later : List Item} {reply : Reply}

section Invariant

variable {settings : Settings} {halving : Rat → Rat} {state next : State}

theorem State.writing_proceed (place : Nat) (left : Option Client) :
    (state.proceed place left).writing =
      (state.clients.eraseIdx place).filter Client.writes ++ left.toList.filter Client.writes := by
  rw [State.writing, State.proceed, filter_append]

theorem State.writing_perm (isThere : state.clients[place]? = some client) :
    state.writing.Perm
      ([client].filter Client.writes ++ (state.clients.eraseIdx place).filter Client.writes) := by
  obtain ⟨inside, isClient⟩ := List.getElem?_eq_some_iff.mp isThere
  have moved := (getElem_cons_eraseIdx_perm inside).symm.filter Client.writes
  rw [isClient] at moved
  rw [← filter_append, singleton_append]
  exact moved

theorem State.Sound.held (sound : state.Sound)
    (isThere : state.clients[place]? = some client) (isWriter : client.writes) :
    (state.clients.eraseIdx place).filter Client.writes = [] ∧ client.Holds state := by
  have writers := State.writing_perm isThere
  rw [filter_cons_of_pos isWriter, filter_nil, singleton_append] at writers
  rw [State.Sound] at sound
  match isWriting : state.writing with
  | [] => simp [isWriting] at writers
  | [single] =>
    rw [isWriting] at writers sound
    obtain ⟨isClient, isAlone⟩ := List.cons.inj (singleton_perm.mp writers)
    exact ⟨isAlone.symm, isClient ▸ sound⟩
  | _ :: _ :: _ =>
    rw [isWriting] at sound
    exact sound.elim

theorem newest_push {items : List Item} (room : items.length + later.length + 1 ≤ maxLen) :
    newest maxLen (items ++ [item]) = items ++ [item] := by
  apply newest_of_length_le
  simp
  omega

theorem sound_push {note : Note} (sound : state.Sound) (isIdle : state.writing = []) :
    (state.push settings note).Sound := by
  rw [State.Sound, isIdle] at sound
  obtain ⟨owed, remembered⟩ := sound
  have samewriting : (state.push settings note).writing = [] := isIdle
  rw [State.Sound, samewriting]
  have pushed : ((state.list ++ [.note note] : List Item) : Multiset Item) =
      .note note ::ₘ (state.list : Multiset Item) := by
    rw [← Multiset.coe_add, Multiset.coe_singleton, add_comm, Multiset.singleton_add]
  simp only [State.push]
  rw [coe_newest, pushed]
  constructor
  · exact tsub_le_tsub_right (Multiset.cons_le_cons _ owed) _
  · exact (Multiset.sub_le_self _ _).trans (Multiset.cons_le_cons _ remembered)

theorem coe_kept (now : Instant) (raw : List Item) :
    (kept settings halving now raw : Multiset Item) =
      (raw : Multiset Item) - raw.filter (faded settings halving now) := by
  have parts := Multiset.filter_add_not (faded settings halving now ·) (raw : Multiset Item)
  have isKept : (kept settings halving now raw : Multiset Item) =
      Multiset.filter (fun item => ¬faded settings halving now item) raw := by
    simp [kept, Multiset.filter_coe]
  have isFaded : (raw.filter (faded settings halving now) : Multiset Item) =
      Multiset.filter (fun item => faded settings halving now item) raw := by
    simp [Multiset.filter_coe]
  rw [isKept, isFaded]
  nth_rewrite 2 [← parts]
  rw [add_tsub_cancel_left]

theorem State.Sound.of_perm (sound : state.Sound) (sameList : next.list = state.list)
    (sameOwed : next.owed = state.owed) (sameRemembered : next.remembered = state.remembered)
    (sameWriting : next.writing.Perm state.writing) : next.Sound := by
  rw [State.Sound] at sound ⊢
  match isWriting : state.writing with
  | [] =>
    rw [isWriting] at sound sameWriting
    rw [perm_nil.mp sameWriting, sameList, sameOwed, sameRemembered]
    exact sound
  | [client] =>
    rw [isWriting] at sound sameWriting
    rw [perm_singleton.mp sameWriting]
    cases client with
    | ranging now => exact sound.elim
    | deleting keep =>
      simp only [Client.Holds, sameList, sameOwed, sameRemembered] at sound ⊢
      exact sound
    | pushing item later maxLen =>
      simp only [Client.Holds, sameList, sameOwed, sameRemembered] at sound ⊢
      exact sound
  | _ :: _ :: _ =>
    rw [isWriting] at sound
    exact sound.elim

theorem sound_afterPush (later : List Item) (maxLen : Nat)
    (isWriting : next.writing = (afterPush later maxLen).toList)
    (owed : next.owed ≤ ((next.list ++ later : List Item) : Multiset Item))
    (remembered : ((next.list ++ later : List Item) : Multiset Item) ≤ next.remembered)
    (room : next.list.length + later.length ≤ maxLen) : next.Sound := by
  rw [State.Sound, isWriting]
  cases later with
  | nil =>
    rw [append_nil] at owed remembered
    exact ⟨owed, remembered⟩
  | cons item later => exact ⟨owed, remembered, by simpa [Nat.add_assoc] using room⟩

theorem writes_afterPush (later : List Item) (maxLen : Nat) :
    (afterPush later maxLen).toList.filter Client.writes = (afterPush later maxLen).toList := by
  cases later <;> rfl

section

variable (sound : state.Sound)
include sound

theorem sound_ranging {now : Instant} (isThere : state.clients[place]? = some (.ranging now))
    (alone : (reply = .answers ∧ ∃ item ∈ state.list, faded settings halving now item) →
      state.writing = [])
    (stepped : step settings halving state (.advance place reply) = some next) :
    next.Sound := by
  have writers := State.writing_perm isThere
  have ends : (state.proceed place none).Sound := by
    refine sound.of_perm rfl rfl rfl ?_
    rw [State.writing_proceed]
    simpa [Client.writes] using writers.symm
  simp only [step, isThere, map_some, some.injEq] at stepped
  subst stepped
  cases reply with
  | unavailable => exact ends
  | unanswered => exact ends
  | answers =>
    simp only [State.command]
    split
    case isFalse => exact ends
    case isTrue fewer =>
      have fadedOne : ∃ item ∈ state.list, faded settings halving now item := by
        by_contra! noneFaded
        apply fewer
        rw [kept, filter_eq_self.mpr]
        intro item member
        simp [noneFaded item member]
      have isIdle := alone ⟨rfl, fadedOne⟩
      have noOthers : (state.clients.eraseIdx place).filter Client.writes = [] := by
        rw [isIdle] at writers
        exact (append_eq_nil_iff.mp (nil_perm.mp writers)).2
      rw [State.Sound, isIdle] at sound
      obtain ⟨owed, remembered⟩ := sound
      rw [State.Sound, State.writing_proceed]
      simp only [noOthers]
      refine ⟨?_, ?_, ?_, remembered⟩
      · rw [coe_kept]
        exact tsub_le_tsub_right owed _
      · exact (Multiset.sub_le_self _ _).trans owed
      · rw [coe_kept]
        exact (Multiset.sub_le_self _ _).trans remembered

theorem sound_deleting {keep : List Item} (isThere : state.clients[place]? = some (.deleting keep))
    (noneLeft : reply = .unanswered → keep = [])
    (stepped : step settings halving state (.advance place reply) = some next) :
    next.Sound := by
  obtain ⟨noOthers, owedKept, owed, keptRemembered, remembered⟩ := sound.held isThere rfl
  simp only [step, isThere, map_some, some.injEq] at stepped
  subst stepped
  have deleted (left : List Item) (isKeep : left = keep) :
      (({ state with list := [] } : State).proceed place (afterPush left keep.length)).Sound := by
    subst isKeep
    apply sound_afterPush left left.length
    · rw [State.writing_proceed, writes_afterPush]
      simp only [noOthers, nil_append]
    · exact owedKept
    · exact keptRemembered
    · simp [State.proceed]
  cases reply with
  | answers => exact deleted keep rfl
  | unavailable =>
    simp only [State.command]
    rw [State.Sound, State.writing_proceed, noOthers]
    exact ⟨owed, remembered⟩
  | unanswered => exact deleted [] (noneLeft rfl).symm

theorem sound_pushing (isThere : state.clients[place]? = some (.pushing item later maxLen))
    (taken : reply = .answers ∨ reply = .unanswered ∧ later = [])
    (stepped : step settings halving state (.advance place reply) = some next) :
    next.Sound := by
  obtain ⟨noOthers, owed, remembered, room⟩ := sound.held isThere rfl
  simp only [step, isThere, map_some, some.injEq] at stepped
  subst stepped
  have pushed (left : List Item) (isLater : left = later) :
      (({ state with list := newest maxLen (state.list ++ [item]) } : State).proceed place
        (afterPush left maxLen)).Sound := by
    subst isLater
    have splits : state.list ++ item :: left = state.list ++ [item] ++ left := by simp
    rw [newest_push room]
    rw [splits] at owed remembered
    apply sound_afterPush left maxLen
    · rw [State.writing_proceed, writes_afterPush]
      simp only [noOthers, nil_append]
    · exact owed
    · exact remembered
    · simp only [State.proceed, length_append, length_singleton]
      omega
  cases taken with
  | inl answered =>
    subst answered
    exact pushed later rfl
  | inr lastOne =>
    rw [lastOne.1]
    exact pushed [] lastOne.2.symm

theorem sound_expire :
    ({ state with list := [], owed := state.owed - state.list } : State).Sound := by
  have sameWriting :
      ({ state with list := [], owed := state.owed - state.list } : State).writing =
        state.writing := rfl
  rw [State.Sound] at sound ⊢
  rw [sameWriting]
  match isWriting : state.writing with
  | [] =>
    rw [isWriting] at sound
    exact ⟨tsub_le_iff_left.mpr (by simpa using sound.1), Multiset.zero_le _⟩
  | [.ranging now] =>
    rw [isWriting] at sound
    exact sound.elim
  | [.deleting keep] =>
    rw [isWriting] at sound
    obtain ⟨owedKept, owed, keptRemembered, remembered⟩ := sound
    have nothingOwed : state.owed - state.list ≤ 0 := by
      rw [tsub_le_iff_left, add_zero]
      exact owed
    refine ⟨?_, ?_, keptRemembered, Multiset.zero_le _⟩
    · exact nothingOwed.trans (Multiset.zero_le _)
    · exact nothingOwed
  | [.pushing item later maxLen] =>
    rw [isWriting] at sound
    obtain ⟨owed, remembered, room⟩ := sound
    refine ⟨?_, ?_, ?_⟩
    · rw [nil_append, tsub_le_iff_left, Multiset.coe_add]
      exact owed
    · refine le_trans ?_ remembered
      rw [nil_append, ← Multiset.coe_add]
      exact Multiset.le_add_left _ _
    · simp
      omega
  | _ :: _ :: _ =>
    rw [isWriting] at sound
    exact sound.elim

end

theorem sound_step {action : Action} (stepped : step settings halving state action = some next)
    (harmless : Harmless settings halving state action) (sound : state.Sound) : next.Sound := by
  cases action with
  | remember note reply =>
    simp only [step, some.injEq] at stepped
    subst stepped
    split
    case isTrue => exact sound
    case isFalse taken => exact sound_push sound (harmless.resolve_left taken)
  | evict now =>
    simp only [step, some.injEq] at stepped
    subst stepped
    refine sound.of_perm rfl rfl rfl ?_
    simp [State.writing, Client.writes]
  | advance place reply =>
    match isThere : state.clients[place]? with
    | none => simp [step, isThere] at stepped
    | some (.ranging now) =>
      simp only [Harmless, isThere] at harmless
      exact sound_ranging sound isThere harmless stepped
    | some (.deleting keep) =>
      simp only [Harmless, isThere] at harmless
      exact sound_deleting sound isThere harmless stepped
    | some (.pushing item later maxLen) =>
      simp only [Harmless, isThere] at harmless
      exact sound_pushing sound isThere harmless stepped
  | expire =>
    simp only [step, some.injEq] at stepped
    subst stepped
    exact sound_expire sound

end Invariant

/-- After every run of harmless steps, each note that nothing let go is in the list
once for each time it was remembered. -/
theorem every_note_is_kept {settings : Settings} {halving : Rat → Rat} {actions : List Action}
    {state : State} (reached : run (step settings halving) {} actions = some state)
    (harmless : Meets (step settings halving) (Harmless settings halving) {} actions) :
    state.Kept :=
  State.Sound.kept <|
    run_invariant_of_meets (fun stepped admitted sound => sound_step stepped admitted sound)
      reached harmless sound_initial

def shortLived : Settings where
  forgettingArchiveThreshold := 1 / 20
  workingTtl := 1800
  maxItems := 50

def noteOf (content : String) (importance : Rat) : Note where
  content
  memoryType := .observation
  principal := "user:u"
  importance
  deferred := false
  writtenAt := ⟨0⟩

def noteBetween : List Action :=
  [.remember (noteOf "was here" 0) .answers, .evict ⟨0⟩, .advance 0 .answers,
    .remember (noteOf "on holiday" 1) .answers, .advance 0 .answers]

theorem note_between_is_lost :
    ¬∀ actions state, run (step shortLived fun _ => 1) {} actions = some state → state.Kept :=
  not_always_of_run noteBetween (by decide +kernel)

def notesThenEviction : List Action :=
  [.remember (noteOf "was here" 0) .answers, .remember (noteOf "on holiday" 1) .answers,
    .evict ⟨0⟩, .advance 0 .answers, .advance 0 .answers, .advance 0 .answers]

theorem note_before_is_kept :
    ∃ state, run (step shortLived fun _ => 1) {} notesThenEviction = some state ∧
      state.list = [.note (noteOf "on holiday" 1)] ∧ state.Kept :=
  exists_run_showing (by decide +kernel) fun _ reached =>
    every_note_is_kept reached (by decide +kernel)

end MemoryService.WorkingMemory.Notes
