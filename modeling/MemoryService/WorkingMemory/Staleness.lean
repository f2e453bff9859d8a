import MemoryService.WorkingMemory.HotThread

/-!
# When the hot thread is never stale

A reader's answer is right when it is what the store would have answered at some moment between
the reader's question and its answer.
-/

namespace MemoryService.WorkingMemory

open Domain Foundation List

/-! ## Answers -/

variable (messages : List Message)

/-- No visible message numbered at most `floor` is newer than `sequence`. -/
def NoneNewer (floor sequence : Nat) : Prop :=
  ∀ m ∈ messages, m.kind = .visible → m.sequence ≤ floor → m.sequence ≤ sequence
deriving Decidable

def Serves (floor : Nat) (list : List Message) : Prop :=
  ∀ last ∈ list.getLast?, NoneNewer messages floor last.sequence
deriving Decidable

/-- The answer is the store's newest visible messages, when it held the first `n`. -/
def Answer.Right (answer : Answer) : Prop :=
  ∃ n, answer.asked ≤ n ∧ n ≤ messages.length ∧
    answer.messages = (listThread (messages.take n) answer.limit).map dump

def Kept (item : Message) : Prop := ∃ m ∈ messages, m.kind = .visible ∧ item = dump m

@[simp]
theorem dump_sequence (m : Message) : (dump m).sequence = m.sequence := rfl

theorem rtake_eq_newest {α : Type} {n : Nat} {items : List α} (positive : 1 ≤ n) :
    items.rtake n = newest n items := by
  rw [newest, if_neg (by omega)]

variable {transcript : Transcript}

theorem window_eq {first : Nat} {raw : List Message}
    (gapless : raw.map Message.sequence = List.range' (first + 1) raw.length)
    (kept : ∀ item ∈ raw, Kept transcript.messages item) :
    ((transcript.messages.drop first).take raw.length).map dump = raw ∧
      ∀ m ∈ (transcript.messages.drop first).take raw.length, m.kind = .visible := by
  have row :
      ∀ i, (inside : i < raw.length) →
        ∃ m, transcript.messages[first + i]? = some m ∧ m.kind = .visible ∧ raw[i] = dump m := by
    intro i inside
    obtain ⟨m, stored, isVisible, isDump⟩ := kept raw[i] (getElem_mem inside)
    have number : raw[i].sequence = first + 1 + i := by
      have places := congrArg (fun numbers => numbers[i]?) gapless
      simp only [getElem?_map, getElem?_eq_getElem inside, getElem?_range' inside] at places
      simpa using places
    rw [isDump, dump_sequence] at number
    have place := (Transcript.getElem?_of_mem stored).2.2
    have index : m.sequence - 1 = first + i := by omega
    rw [index] at place
    exact ⟨m, place, isVisible, isDump⟩
  have window :
      ∀ i, (inside : i < raw.length) →
        ((transcript.messages.drop first).take raw.length)[i]? =
          transcript.messages[first + i]? := by
    intro i inside
    rw [getElem?_take_of_lt inside, getElem?_drop]
  constructor
  · apply ext_getElem?
    intro i
    by_cases inside : i < raw.length
    · obtain ⟨m, place, -, isDump⟩ := row i inside
      rw [getElem?_map, window i inside, place, getElem?_eq_getElem inside, isDump]
      simp
    · have beyond : ((transcript.messages.drop first).take raw.length).length ≤ i := by
        rw [length_take]
        omega
      rw [getElem?_map, getElem?_eq_none beyond, getElem?_eq_none (by omega)]
      simp
  · intro m member
    obtain ⟨i, isInside, isRow⟩ := mem_iff_getElem.mp member
    have inside : i < raw.length := by
      rw [length_take] at isInside
      omega
    obtain ⟨found, place, isVisible, -⟩ := row i inside
    have same := window i inside
    rw [place, getElem?_eq_getElem isInside, isRow] at same
    rw [Option.some.inj same]
    exact isVisible

theorem filter_visible_take {first count n : Nat} (reaches : first + count ≤ n)
    (visible : ∀ m ∈ (transcript.messages.drop first).take count, m.kind = .visible)
    (noneNewer : NoneNewer transcript.messages n (first + count)) :
    (transcript.messages.take n).filter (fun m => m.kind = .visible) =
      (transcript.messages.take first).filter (fun m => m.kind = .visible) ++
        (transcript.messages.drop first).take count := by
  obtain ⟨later, rfl⟩ := Nat.exists_eq_add_of_le reaches
  rw [take_add, take_add, filter_append, filter_append]
  have stretch :
      ((transcript.messages.drop first).take count).filter (fun m => m.kind = .visible) =
        (transcript.messages.drop first).take count := by
    apply filter_eq_self.mpr
    intro m member
    simpa using visible m member
  have noneAfter :
      ((transcript.messages.drop (first + count)).take later).filter
        (fun m => m.kind = .visible) = [] := by
    apply filter_eq_nil_iff.mpr
    intro m member isVisible
    obtain ⟨stored, beyond, within⟩ := Transcript.mem_take_drop member
    have notNewer := noneNewer m stored (by simpa using isVisible) within
    omega
  rw [stretch, noneAfter, append_nil]

theorem getLast_sequence {raw : List Message} {first : Nat} {last : Message}
    (gapless : raw.map Message.sequence = List.range' (first + 1) raw.length)
    (isLast : raw.getLast? = some last) : last.sequence = first + raw.length := by
  have numbers : (raw.map Message.sequence).getLast? = some last.sequence := by
    rw [getLast?_map, isLast, Option.map_some]
  rw [gapless, getLast?_range'] at numbers
  obtain ⟨nonempty, numbers⟩ := Option.ite_none_left_eq_some.mp numbers
  have number := Option.some.inj numbers
  omega

theorem answer_right {limit asked : Nat} {list messages : List Message}
    (positive : 1 ≤ limit) (bounded : asked ≤ transcript.messages.length)
    (kept : ∀ item ∈ list, Kept transcript.messages item)
    (serves : Serves transcript.messages asked list)
    (answered : answerFrom limit (newest limit list) = some messages) :
    Answer.Right transcript.messages { limit, asked, messages } := by
  have short : (newest limit list).length ≤ limit := length_newest_le positive
  have sameLast : (newest limit list).getLast? = list.getLast? := getLast?_newest
  have keptRaw : ∀ item ∈ newest limit list, Kept transcript.messages item :=
    fun item member => kept item (mem_of_mem_newest member)
  generalize newest limit list = raw at answered short sameLast keptRaw
  cases raw with
  | nil => cases answered
  | cons head rest =>
    rw [answerFrom] at answered
    obtain ⟨gapless, answered⟩ := Option.ite_none_left_eq_some.mp answered
    obtain ⟨full, answered⟩ := Option.ite_none_left_eq_some.mp answered
    cases answered
    have gapless := not_not.mp gapless
    obtain ⟨first, isFirst⟩ : ∃ first, head.sequence = first + 1 := by
      obtain ⟨m, stored, -, isDump⟩ := keptRaw head mem_cons_self
      have number := (Transcript.getElem?_of_mem stored).1
      rw [isDump, dump_sequence]
      exact ⟨m.sequence - 1, by omega⟩
    rw [isFirst] at gapless
    obtain ⟨last, isLast⟩ : ∃ last, (head :: rest).getLast? = some last :=
      ⟨_, getLast?_eq_some_getLast (by simp)⟩
    have lastNumber := getLast_sequence gapless isLast
    have within : first + (head :: rest).length ≤ transcript.messages.length := by
      obtain ⟨m, stored, -, isDump⟩ := keptRaw last (mem_of_getLast? isLast)
      have number := (Transcript.getElem?_of_mem stored).2.1
      rw [isDump, dump_sequence] at lastNumber
      omega
    have noneNewer := serves last (by rw [← sameLast, isLast]; simp)
    rw [lastNumber] at noneNewer
    obtain ⟨window, visible⟩ := window_eq gapless keptRaw
    refine ⟨max asked (first + (head :: rest).length), Nat.le_max_left _ _, by omega, ?_⟩
    have newestVisible :
        NoneNewer transcript.messages (max asked (first + (head :: rest).length))
          (first + (head :: rest).length) := by
      intro m stored isVisible bound
      by_cases below : m.sequence ≤ asked
      · exact noneNewer m stored isVisible below
      · omega
    rw [listThread, filter_visible_take (by omega) visible newestVisible, rtake_eq_newest positive]
    have lengthWindow :
        ((transcript.messages.drop first).take (head :: rest).length).length =
          (head :: rest).length := by
      rw [← length_map (f := dump), window]
    by_cases isFull : (head :: rest).length = limit
    · rw [newest_append_of_length_eq positive (by rw [lengthWindow, isFull]), window]
    · have fromStart : first = 0 := by omega
      rw [fromStart] at window lengthWindow ⊢
      rw [take_zero, filter_nil, nil_append,
        newest_of_length_le (by rw [lengthWindow]; exact short), window]

/-- The floor a client relies on, where the stored revision is `rev`. -/
def Client.floor (rev : Option Nat) : Client → Option Nat
  | .checking _ revision asked => if rev = some revision then some asked else none
  | .ranging _ _ asked => some asked
  | _ => none

/-- The floors a state's next answers may rest on, where the stored revision is `rev`. -/
def State.floors (state : State) (rev : Option Nat) : List Nat :=
  (if rev = some state.revision then [state.transcript.messages.length] else []) ++
    state.clients.filterMap (Client.floor rev)

section

variable (maxMessages : Nat)

/-- A push and a revision leave no reader without a message that it is due. -/
def Admitted (state : State) : Action → Prop
  | .advance place reply =>
    match state.clients[place]? with
    | none => True
    | some client =>
      match (client.turn maxMessages state reply).command with
      | .listPush message =>
        ∀ floor ∈ state.floors state.hot.rev,
          NoneNewer state.transcript.messages floor message.sequence
      | .set revision =>
        ∀ floor ∈ state.floors (some revision),
          Serves state.transcript.messages floor state.hot.list
      | _ => True
  | _ => True

instance (state : State) (action : Action) :
    Decidable (Admitted maxMessages state action) := by
  unfold Admitted
  repeat' split
  all_goals exact inferInstance

def Client.pending : Client → List Message
  | .pushing message _ => [message]
  | .deleting messages _ => messages
  | .refilling message later _ => message :: later
  | _ => []

def Client.revision : Client → Nat
  | .pushing _ revision => revision
  | .setting revision => revision
  | .checking _ revision _ => revision
  | .ranging _ revision _ => revision
  | .reading _ revision => revision
  | .deleting _ revision => revision
  | .refilling _ _ revision => revision

def Client.question : Client → Option (Nat × Nat)
  | .checking limit _ asked => some (limit, asked)
  | .ranging limit _ asked => some (limit, asked)
  | _ => none

structure Client.Sound (state : State) (client : Client) : Prop where
  pending : ∀ m ∈ client.pending, m ∈ state.transcript.messages ∧ m.kind = .visible
  revision : client.revision ≤ state.revision
  question : ∀ asked ∈ client.question, 1 ≤ asked.1 ∧ asked.2 ≤ state.transcript.messages.length

structure Inv (state : State) : Prop where
  kept : ∀ item ∈ state.hot.list, Kept state.transcript.messages item
  rev : ∀ revision ∈ state.hot.rev, revision ≤ state.revision
  clients : ∀ client ∈ state.clients, client.Sound state
  serves : ∀ floor ∈ state.floors state.hot.rev,
    Serves state.transcript.messages floor state.hot.list
  right : ∀ answer ∈ state.answers, answer.Right state.transcript.messages

variable {maxMessages : Nat} {state : State}

/-! ## One step -/

variable {floor : Nat} {rev : Option Nat}

theorem mem_floors :
    floor ∈ state.floors rev ↔
      rev = some state.revision ∧ floor = state.transcript.messages.length ∨
        ∃ client ∈ state.clients, client.floor rev = some floor := by
  rw [State.floors, mem_append, mem_filterMap]
  split
  case isTrue same => simp [same]
  case isFalse differs => simp [differs]

variable {client : Client}

theorem question_of_floor (relies : client.floor rev = some floor) :
    ∃ limit, client.question = some (limit, floor) := by
  cases client with
  | checking limit revision asked =>
    rw [Client.floor] at relies
    split at relies
    · exact ⟨limit, by rw [Client.question, Option.some.inj relies]⟩
    · cases relies
  | ranging limit revision asked =>
    exact ⟨limit, by rw [Client.question, Option.some.inj relies]⟩
  | _ => cases relies

/-- What a step of a client may do: its command, the client it becomes, its answer. -/
structure Turn.Fits (state : State) (turn : Turn) : Prop where
  pushed : ∀ m, turn.command = .listPush m → m ∈ state.transcript.messages ∧ m.kind = .visible
  set : ∀ revision, turn.command = .set revision → revision ≤ state.revision
  client : ∀ client ∈ turn.client, client.Sound state
  asks : ∀ client ∈ turn.client, turn.command = .nothing ∨ client.question = none
  serves : ∀ client ∈ turn.client, ∀ floor ∈ client.floor state.hot.rev,
    Serves state.transcript.messages floor state.hot.list
  answer : ∀ answer ∈ turn.answer, answer.Right state.transcript.messages

/-- A client that asks nothing any more. -/
private def Settled (state : State) (next : Option Client) : Prop :=
  ∀ client ∈ next, client.Sound state ∧ client.question = none

theorem settled_none : Settled state none := by
  intro client isNext
  cases isNext

theorem settled_setting {revision : Nat} (bounded : revision ≤ state.revision) :
    Settled state (some (.setting revision)) := by
  intro client isNext
  cases isNext
  refine ⟨⟨?_, bounded, ?_⟩, by simp [Client.question]⟩
  · simp [Client.pending]
  · simp [Client.question]

theorem settled_reading {limit revision : Nat} (bounded : revision ≤ state.revision) :
    Settled state (some (.reading limit revision)) := by
  intro client isNext
  cases isNext
  refine ⟨⟨?_, bounded, ?_⟩, by simp [Client.question]⟩
  · simp [Client.pending]
  · simp [Client.question]

theorem settled_deleting
    {messages : List Message} {revision : Nat} (bounded : revision ≤ state.revision)
    (pending : ∀ m ∈ messages, m ∈ state.transcript.messages ∧ m.kind = .visible) :
    Settled state (some (.deleting messages revision)) := by
  intro client isNext
  cases isNext
  exact ⟨⟨pending, bounded, by simp [Client.question]⟩, by simp [Client.question]⟩

theorem settled_afterDelete
    {messages : List Message} {revision : Nat} (bounded : revision ≤ state.revision)
    (pending : ∀ m ∈ messages, m ∈ state.transcript.messages ∧ m.kind = .visible) :
    Settled state (some (afterDelete messages revision)) := by
  cases messages with
  | nil => exact settled_setting bounded
  | cons message later =>
    intro client isNext
    have isRefilling : client = .refilling message later revision := by
      simpa [afterDelete, eq_comm] using isNext
    rw [isRefilling]
    exact ⟨⟨pending, bounded, by simp [Client.question]⟩, by simp [Client.question]⟩

theorem fits_of_settled {turn : Turn} (settled : Settled state turn.client)
    (pushed : ∀ m, turn.command = .listPush m → m ∈ state.transcript.messages ∧ m.kind = .visible)
    (set : ∀ revision, turn.command = .set revision → revision ≤ state.revision)
    (answer : ∀ answer ∈ turn.answer, answer.Right state.transcript.messages) :
    turn.Fits state where
  pushed := pushed
  set := set
  client client isNext := (settled client isNext).1
  asks client isNext := .inr (settled client isNext).2
  serves client isNext floor relies := by
    obtain ⟨limit, asks⟩ := question_of_floor relies
    rw [(settled client isNext).2] at asks
    cases asks
  answer := answer

variable {command : Command}

theorem fits_reply {success failure : Option Client} (reply : Reply)
    (onSuccess : Settled state success) (onFailure : Settled state failure)
    (pushed : ∀ m, command = .listPush m → m ∈ state.transcript.messages ∧ m.kind = .visible)
    (set : ∀ revision, command = .set revision → revision ≤ state.revision) :
    (Turn.reply command success failure reply).Fits state := by
  cases reply with
  | answers =>
    apply fits_of_settled onSuccess pushed set
    simp [Turn.reply]
  | unavailable =>
    apply fits_of_settled onFailure
    · simp [Turn.reply]
    · simp [Turn.reply]
    · simp [Turn.reply]
  | unanswered =>
    apply fits_of_settled onFailure pushed set
    simp [Turn.reply]

variable {limit revision asked : Nat}

private theorem sound_ranging (sound : (Client.checking limit revision asked).Sound state) :
    (Client.ranging limit revision asked).Sound state where
  pending := by simp [Client.pending]
  revision := sound.revision
  question := sound.question

theorem serves_of_floor (inv : Inv state)
    (isClient : client ∈ state.clients) (relies : client.floor state.hot.rev = some floor) :
    Serves state.transcript.messages floor state.hot.list :=
  inv.serves floor (mem_floors.mpr (.inr ⟨client, isClient, relies⟩))

theorem fits_checking (inv : Inv state) (reply : Reply)
    (isClient : Client.checking limit revision asked ∈ state.clients) :
    ((Client.checking limit revision asked).turn maxMessages state reply).Fits state := by
  have sound := inv.clients _ isClient
  rw [Client.turn]
  by_cases passes : state.hot.rev = some revision ∧ reply = .answers
  · obtain ⟨same, rfl⟩ := passes
    have serves : Serves state.transcript.messages asked state.hot.list :=
      serves_of_floor inv isClient (by simp [Client.floor, same])
    simp only [same, if_true, Turn.reply]
    constructor
    case pushed => simp
    case set => simp
    case client =>
      intro next isNext
      cases isNext
      exact sound_ranging sound
    case asks => simp
    case serves =>
      intro next isNext floor relies
      cases isNext
      cases relies
      exact serves
    case answer => simp
  · have reads :
        Turn.reply .nothing
            (some (if state.hot.rev = some revision then
              .ranging limit revision asked else .reading limit revision))
            (some (.reading limit revision)) reply =
          Turn.reply .nothing (some (.reading limit revision))
            (some (.reading limit revision)) reply := by
      cases reply with
      | answers => rw [if_neg (by simpa using passes)]
      | unavailable => simp [Turn.reply]
      | unanswered => simp [Turn.reply]
    rw [reads]
    apply fits_reply reply (settled_reading sound.revision) (settled_reading sound.revision)
    · simp
    · simp

theorem fits_ranging (inv : Inv state) (reply : Reply)
    (isClient : Client.ranging limit revision asked ∈ state.clients) :
    ((Client.ranging limit revision asked).turn maxMessages state reply).Fits state := by
  have sound := inv.clients _ isClient
  have asks := sound.question (limit, asked) (by simp [Client.question])
  have missed : ({ client := some (.reading limit revision) } : Turn).Fits state := by
    apply fits_of_settled (settled_reading sound.revision)
    · simp
    · simp
    · simp
  cases reply with
  | answers =>
    rw [Client.turn]
    split
    case h_1 messages answered =>
      apply fits_of_settled settled_none
      · simp
      · simp
      · intro answer isAnswer
        cases isAnswer
        apply answer_right asks.1 asks.2 inv.kept _ answered
        exact serves_of_floor inv isClient (by simp [Client.floor])
    case h_2 => exact missed
  | unavailable => exact missed
  | unanswered => exact missed

theorem fits_reading {limit revision : Nat} (reply : Reply)
    (sound : (Client.reading limit revision).Sound state) :
    ((Client.reading limit revision).turn maxMessages state reply).Fits state := by
  rw [Client.turn]
  split
  case isTrue =>
    apply fits_of_settled settled_none
    · simp
    · simp
    · simp
  case isFalse =>
    have pending :
        ∀ m ∈ newest maxMessages
            ((listThread state.transcript.messages limit).filter fun m => m.kind = .visible),
          m ∈ state.transcript.messages ∧ m.kind = .visible := by
      intro m member
      obtain ⟨listed, isVisible⟩ := mem_filter.mp (mem_of_mem_newest member)
      have stored := mem_of_mem_drop listed
      exact ⟨(mem_filter.mp stored).1, by simpa using isVisible⟩
    apply fits_of_settled (settled_deleting sound.revision pending)
    · simp
    · simp
    · simp

theorem turn_fits (inv : Inv state) (reply : Reply)
    (isClient : client ∈ state.clients) :
    (client.turn maxMessages state reply).Fits state := by
  have sound := inv.clients client isClient
  cases client with
  | pushing message revision =>
    apply fits_reply reply (settled_setting sound.revision) settled_none
    · intro m isPushed
      cases isPushed
      exact sound.pending message (by simp [Client.pending])
    · intro other isSet
      cases isSet
  | setting revision =>
    apply fits_reply reply settled_none settled_none
    · intro m isPushed
      cases isPushed
    · intro other isSet
      cases isSet
      exact sound.revision
  | checking limit revision asked => exact fits_checking inv reply isClient
  | ranging limit revision asked => exact fits_ranging inv reply isClient
  | reading limit revision => exact fits_reading reply sound
  | deleting messages revision =>
    apply fits_reply reply (settled_afterDelete sound.revision sound.pending) settled_none
    · simp
    · simp
  | refilling message later revision =>
    have rest : ∀ m ∈ later, m ∈ state.transcript.messages ∧ m.kind = .visible :=
      fun m member => sound.pending m (mem_cons_of_mem message member)
    apply fits_reply reply (settled_afterDelete sound.revision rest) settled_none
    · intro m isPushed
      cases isPushed
      exact sound.pending message (by simp [Client.pending])
    · intro other isSet
      cases isSet

theorem mem_apply_list {hot : HotThread} {item : Message}
    (member : item ∈ (hot.apply maxMessages command).list) :
    item ∈ hot.list ∨ ∃ m, command = .listPush m ∧ item = dump m := by
  cases command with
  | nothing => exact .inl member
  | listPush m =>
    rcases mem_append.mp (mem_of_mem_newest member) with isOld | isNew
    · exact .inl isOld
    · exact .inr ⟨m, by simp, mem_singleton.mp isNew⟩
  | deleteList => simp [HotThread.apply] at member
  | set revision => exact .inl member

theorem apply_rev {hot : HotThread} {revision : Nat}
    (isRev : revision ∈ (hot.apply maxMessages command).rev) :
    revision ∈ hot.rev ∨ command = .set revision := by
  cases command with
  | set other =>
    have same : other = revision := by simpa [HotThread.apply] using isRev
    exact .inr (by rw [same])
  | _ => exact .inl isRev

theorem take_inv (inv : Inv state) {turn : Turn} (fits : turn.Fits state) (place : Nat)
    (admittedPush : ∀ m, turn.command = .listPush m →
      ∀ floor ∈ state.floors state.hot.rev, NoneNewer state.transcript.messages floor m.sequence)
    (admittedSet : ∀ revision, turn.command = .set revision →
      ∀ floor ∈ state.floors (some revision),
        Serves state.transcript.messages floor state.hot.list) :
    Inv (state.take maxMessages place turn) where
  kept := by
    intro item member
    rcases mem_apply_list member with isOld | ⟨m, isPush, isDump⟩
    · exact inv.kept item isOld
    · obtain ⟨stored, isVisible⟩ := fits.pushed m isPush
      exact ⟨m, stored, isVisible, isDump⟩
  rev := by
    intro revision isRev
    rcases apply_rev isRev with isOld | isSet
    · exact inv.rev revision isOld
    · exact fits.set revision isSet
  clients := by
    intro client member
    rcases mem_append.mp member with isOld | isNew
    · have sound := inv.clients client (mem_of_mem_eraseIdx isOld)
      exact ⟨sound.pending, sound.revision, sound.question⟩
    · have sound := fits.client client (by simpa using isNew)
      exact ⟨sound.pending, sound.revision, sound.question⟩
  serves := by
    intro floor isFloor
    have resting :
        floor ∈ state.floors (state.hot.apply maxMessages turn.command).rev ∨
          turn.command = .nothing ∧ Serves state.transcript.messages floor state.hot.list := by
      rcases mem_floors.mp isFloor with isCurrent | ⟨client, member, relies⟩
      · exact .inl (mem_floors.mpr (.inl isCurrent))
      · rcases mem_append.mp member with isOld | isNew
        · have isClient := mem_of_mem_eraseIdx isOld
          exact .inl (mem_floors.mpr (.inr ⟨client, isClient, relies⟩))
        · have isNext : client ∈ turn.client := by simpa using isNew
          rcases fits.asks client isNext with isNothing | asksNothing
          · refine .inr ⟨isNothing, fits.serves client isNext floor ?_⟩
            simpa [State.take, isNothing, HotThread.apply] using relies
          · obtain ⟨limit, asks⟩ := question_of_floor relies
            rw [asksNothing] at asks
            cases asks
    show Serves state.transcript.messages floor (state.hot.apply maxMessages turn.command).list
    cases isCommand : turn.command with
    | nothing =>
      rw [isCommand] at resting
      rcases resting with isOld | ⟨-, serves⟩
      · exact inv.serves floor isOld
      · exact serves
    | listPush m =>
      rw [isCommand] at resting
      rcases resting with isOld | ⟨impossible, -⟩
      · intro last isLast
        have isPushed : last = dump m := by
          simpa [HotThread.apply, getLast?_newest, eq_comm] using isLast
        rw [isPushed]
        exact admittedPush m isCommand floor isOld
      · cases impossible
    | deleteList =>
      intro last isLast
      simp [HotThread.apply] at isLast
    | set revision =>
      rw [isCommand] at resting
      rcases resting with isOld | ⟨impossible, -⟩
      · exact admittedSet revision isCommand floor isOld
      · cases impossible
  right := by
    intro answer member
    rcases mem_append.mp member with isOld | isNew
    · exact inv.right answer isOld
    · exact fits.answer answer (by simpa using isNew)

theorem noneNewer_add {floor sequence : Nat} (draft : Message)
    (bounded : floor ≤ transcript.messages.length)
    (noneNewer : NoneNewer transcript.messages floor sequence) :
    NoneNewer (transcript.add draft).messages floor sequence := by
  intro m member isVisible below
  rcases mem_append.mp member with isOld | isNew
  · exact noneNewer m isOld isVisible below
  · have number : m.sequence = transcript.messages.length + 1 := by
      rw [mem_singleton.mp isNew, Transcript.committed]
      exact transcript.nextSequence_eq
    omega

private theorem Answer.Right.add {messages : List Message} {answer : Answer} (m : Message)
    (right : answer.Right messages) : answer.Right (messages ++ [m]) := by
  obtain ⟨n, asked, within, isStore⟩ := right
  refine ⟨n, asked, ?_, ?_⟩
  · rw [length_append]
    omega
  · rw [take_append_of_le_length within]
    exact isStore

private theorem Client.Sound.mono {later : State} (sound : client.Sound state)
    (messages : ∀ m ∈ state.transcript.messages, m ∈ later.transcript.messages)
    (lengths : state.transcript.messages.length ≤ later.transcript.messages.length)
    (revisions : state.revision ≤ later.revision) : client.Sound later where
  pending m isPending := by
    obtain ⟨stored, isVisible⟩ := sound.pending m isPending
    exact ⟨messages m stored, isVisible⟩
  revision := Nat.le_trans sound.revision revisions
  question asked isAsked := by
    obtain ⟨positive, bounded⟩ := sound.question asked isAsked
    exact ⟨positive, Nat.le_trans bounded lengths⟩

theorem floor_le (inv : Inv state)
    (isFloor : floor ∈ state.floors rev) : floor ≤ state.transcript.messages.length := by
  rcases mem_floors.mp isFloor with ⟨-, isAll⟩ | ⟨client, member, relies⟩
  · omega
  · obtain ⟨limit, asks⟩ := question_of_floor relies
    exact ((inv.clients client member).question (limit, floor) asks).2

theorem append_inv (inv : Inv state) (draft : Message) :
    Inv { state with
      transcript := state.transcript.add draft
      revision := state.revision + 1
      clients := state.clients ++
        [appended (state.transcript.committed draft) (state.revision + 1)] } where
  kept := by
    intro item member
    obtain ⟨m, stored, isVisible, isDump⟩ := inv.kept item member
    exact ⟨m, mem_append_left _ stored, isVisible, isDump⟩
  rev := by
    intro revision isRev
    have bounded := inv.rev revision isRev
    dsimp only
    omega
  clients := by
    intro client member
    rcases mem_append.mp member with isOld | isNew
    · apply (inv.clients client isOld).mono
      · intro m stored
        exact mem_append_left _ stored
      · simp [Transcript.add]
      · simp
    · rw [mem_singleton.mp isNew, appended]
      split
      case isTrue isVisible =>
        constructor
        · intro m isPending
          have isMessage : m = state.transcript.committed draft := by
            simpa [Client.pending] using isPending
          rw [isMessage]
          exact ⟨mem_append_right _ (by simp), isVisible⟩
        · simp [Client.revision]
        · simp [Client.question]
      case isFalse =>
        constructor
        · simp [Client.pending]
        · simp [Client.revision]
        · simp [Client.question]
  serves := by
    intro floor isFloor
    rcases mem_floors.mp isFloor with ⟨isCurrent, -⟩ | ⟨client, member, relies⟩
    · -- no stored revision is newer than the thread's was
      have bounded := inv.rev _ isCurrent
      dsimp only at bounded
      omega
    · rcases mem_append.mp member with isOld | isNew
      · have isOldFloor : floor ∈ state.floors state.hot.rev :=
          mem_floors.mpr (.inr ⟨client, isOld, relies⟩)
        intro last isLast
        apply noneNewer_add draft (floor_le inv isOldFloor)
        exact inv.serves floor isOldFloor last isLast
      · rw [mem_singleton.mp isNew, appended] at relies
        split at relies
        · cases relies
        · cases relies
  right := by
    intro answer member
    exact (inv.right answer member).add _

theorem floor_of_none (rev : Option Nat)
    (relies : client.floor none = some floor) : client.floor rev = some floor := by
  cases client with
  | ranging limit revision asked => exact relies
  | checking limit revision asked => simp [Client.floor] at relies
  | _ => cases relies

theorem forget_inv
    (inv : Inv state) {later : State} (transcripts : later.transcript = state.transcript)
    (revisions : state.revision ≤ later.revision)
    (answers : later.answers = state.answers)
    (clients : ∀ client ∈ later.clients, client ∈ state.clients)
    (list : later.hot.list = state.hot.list ∨ later.hot.list = [])
    (rev : later.hot.rev = state.hot.rev ∨ later.hot.rev = none) : Inv later where
  kept := by
    intro item member
    rw [transcripts]
    rcases list with same | isEmpty
    · exact inv.kept item (by rwa [← same])
    · simp [isEmpty] at member
  rev := by
    intro revision isRev
    rcases rev with same | isNone
    · rw [same] at isRev
      exact Nat.le_trans (inv.rev revision isRev) revisions
    · simp [isNone] at isRev
  clients := by
    intro client member
    apply (inv.clients client (clients client member)).mono
    · simp [transcripts]
    · simp [transcripts]
    · exact revisions
  serves := by
    intro floor isFloor
    have isOldFloor : floor ∈ state.floors state.hot.rev := by
      apply mem_floors.mpr
      rcases mem_floors.mp isFloor with ⟨isCurrent, isAll⟩ | ⟨client, member, relies⟩
      · rcases rev with same | isNone
        · rw [same] at isCurrent
          have bounded := inv.rev _ isCurrent
          have unmoved : later.revision = state.revision := by omega
          exact .inl ⟨by rw [isCurrent, unmoved], by rw [isAll, transcripts]⟩
        · rw [isNone] at isCurrent
          cases isCurrent
      · refine .inr ⟨client, clients client member, ?_⟩
        rcases rev with same | isNone
        · rwa [← same]
        · rw [isNone] at relies
          exact floor_of_none _ relies
    rw [transcripts]
    rcases list with same | isEmpty
    · rw [same]
      exact inv.serves floor isOldFloor
    · intro last isLast
      simp [isEmpty] at isLast
  right := by
    intro answer member
    rw [transcripts]
    exact inv.right answer (by rwa [← answers])

theorem ask_inv (inv : Inv state) {limit : Nat} (positive : 1 ≤ limit) :
    Inv { state with
      clients := state.clients ++
        [.checking limit state.revision state.transcript.messages.length] } where
  kept := inv.kept
  rev := inv.rev
  clients := by
    intro client member
    rcases mem_append.mp member with isOld | isNew
    · have sound := inv.clients client isOld
      exact ⟨sound.pending, sound.revision, sound.question⟩
    · rw [mem_singleton.mp isNew]
      constructor
      · simp [Client.pending]
      · simp [Client.revision]
      · intro asked isAsked
        have isQuestion : (limit, state.transcript.messages.length) = asked := by
          simpa [Client.question] using isAsked
        rw [← isQuestion]
        exact ⟨positive, Nat.le_refl _⟩
  serves := by
    intro floor isFloor
    apply inv.serves
    apply mem_floors.mpr
    rcases mem_floors.mp isFloor with isCurrent | ⟨client, member, relies⟩
    · exact .inl isCurrent
    · rcases mem_append.mp member with isOld | isNew
      · exact .inr ⟨client, isOld, relies⟩
      · rw [mem_singleton.mp isNew, Client.floor] at relies
        obtain ⟨isCurrent, relies⟩ := Option.ite_none_right_eq_some.mp relies
        exact .inl ⟨isCurrent, (Option.some.inj relies).symm⟩
  right := inv.right

/-! ## All runs -/

theorem inv_initial : Inv {} where
  kept := by simp
  rev := by simp
  clients := by simp
  serves := by
    intro floor isFloor
    simp [State.floors] at isFloor
  right := by simp

theorem step_inv {next : State} {action : Action}
    (stepped : step maxMessages state action = some next)
    (admitted : Admitted maxMessages state action) (inv : Inv state) : Inv next := by
  cases action with
  | append draft =>
    cases stepped
    exact append_inv inv draft
  | touch =>
    cases stepped
    exact forget_inv inv rfl (by simp) rfl (by simp) (by simp) (by simp)
  | listMessages limit =>
    rw [step] at stepped
    obtain ⟨positive, stepped⟩ := Option.ite_none_left_eq_some.mp stepped
    cases stepped
    exact ask_inv inv (by omega)
  | advance place reply =>
    obtain ⟨client, isPlace, rfl⟩ := Option.map_eq_some_iff.mp stepped
    have isClient : client ∈ state.clients := mem_of_getElem? isPlace
    rw [Admitted, isPlace] at admitted
    apply take_inv inv (turn_fits inv reply isClient)
    · intro m isPush
      simpa [isPush] using admitted
    · intro revision isSet
      simpa [isSet] using admitted
  | crash place =>
    cases stepped
    have remain : ∀ client ∈ state.clients.eraseIdx place, client ∈ state.clients :=
      fun client member => mem_of_mem_eraseIdx member
    exact forget_inv inv rfl (Nat.le_refl _) rfl remain (by simp) (by simp)
  | expireList =>
    cases stepped
    exact forget_inv inv rfl (Nat.le_refl _) rfl (by simp) (by simp) (by simp)
  | expireRev =>
    cases stepped
    exact forget_inv inv rfl (Nat.le_refl _) rfl (by simp) (by simp) (by simp)

end

/-- The cache answers nothing or the newest visible messages, in every run that keeps
the floors served. -/
theorem recent_is_newest {maxMessages : Nat} {actions : List Action} {state : State}
    (reached : run (step maxMessages) {} actions = some state)
    (admitted : Meets (step maxMessages) (Admitted maxMessages) {} actions) :
    ∀ answer ∈ state.answers, answer.Right state.transcript.messages := by
  have inv : Inv state := run_invariant_of_meets step_inv reached admitted inv_initial
  exact inv.right

/-! ## A stale answer -/

def draft (kind : MessageKind) : Message where
  messageId := "msg"
  threadId := "thr"
  sessionId := "ses"
  turnId := "trn"
  tenantId := "ten"
  role := .user
  kind := kind
  sequence := 1
  contentHash := ""
  authorPrincipal := "user:u"
  occurredAt := ⟨0⟩
  createdAt := ⟨0⟩

def RightNumbers (state : State) : Prop :=
  ∀ answer ∈ state.answers, ∃ n < state.transcript.messages.length + 1,
    answer.asked ≤ n ∧
      answer.messages.map Message.sequence =
        (listThread (state.transcript.messages.take n) answer.limit).map Message.sequence

instance : DecidablePred RightNumbers := fun state =>
  inferInstanceAs (Decidable (∀ answer ∈ state.answers, ∃ n < _, _ ∧ _))

theorem rightNumbers_of_right {state : State}
    (right : ∀ answer ∈ state.answers, answer.Right state.transcript.messages) :
    RightNumbers state := by
  intro answer member
  obtain ⟨n, asked, within, isStore⟩ := right answer member
  refine ⟨n, by omega, asked, ?_⟩
  rw [isStore, map_map]
  apply map_congr_left
  intro m _
  simp

/-- A visible message's push is lost, an internal message sets the revision, and a
reader is given the visible message before. -/
theorem lost_push_is_stale :
    ¬∀ actions state, run (step 200) {} actions = some state →
      ∀ answer ∈ state.answers, answer.Right state.transcript.messages := by
  intro always
  have numbers : ∀ actions state, run (step 200) {} actions = some state → RightNumbers state :=
    fun actions state reached => rightNumbers_of_right (always actions state reached)
  revert numbers
  apply not_always_of_run
    [.append (draft .visible), .advance 0 .answers, .advance 0 .answers,
      .append (draft .visible), .advance 0 .unavailable,
      .append (draft .internal), .advance 0 .answers,
      .listMessages 1, .advance 0 .answers, .advance 0 .answers]
  decide +kernel

def refillRun : List Action :=
  [.append (draft .visible), .advance 0 .answers, .advance 0 .answers,
    .append (draft .visible), .advance 0 .answers, .advance 0 .answers,
    .listMessages 2, .advance 0 .answers, .advance 0 .answers,
    .expireRev, .listMessages 1, .advance 0 .answers, .advance 0 .answers,
    .advance 0 .answers, .advance 0 .answers, .advance 0 .answers,
    .listMessages 1, .advance 0 .answers, .advance 0 .answers]

theorem recent_is_newest_after_refill :
    ∃ state, run (step 200) {} refillRun = some state ∧ state.answers.length = 2 ∧
      ∀ answer ∈ state.answers, answer.Right state.transcript.messages :=
  exists_run_showing (by decide +kernel) fun _ reached =>
    recent_is_newest reached (by decide +kernel)

end MemoryService.WorkingMemory
