import MemoryService.Domain.Conversation
import Mathlib.Data.List.DropRight
import MemoryService.Foundation.Transition

/-!
# The messages of one thread

The store numbers the messages of a thread from one, visible and internal ones in
one sequence.  A reader is given the newest visible ones, the oldest first.
-/

namespace MemoryService.WorkingMemory

open Domain List

/-- `items[-n:]`, which is the whole list where `n` is zero. -/
def newest {α : Type} (n : Nat) (items : List α) : List α :=
  if n = 0 then items else items.rtake n

section Newest

variable {α : Type} {n : Nat} {items : List α}

theorem newest_suffix : newest n items <:+ items := by
  rw [newest]
  split
  · exact suffix_refl items
  · exact drop_suffix _ items

theorem mem_of_mem_newest {item : α} (member : item ∈ newest n items) : item ∈ items :=
  newest_suffix.subset member

theorem length_newest_le (positive : 1 ≤ n) : (newest n items).length ≤ n := by
  rw [newest, if_neg (by omega), List.rtake, length_drop]
  omega

theorem newest_append_of_length_eq {before : List α} (positive : 1 ≤ n)
    (full : items.length = n) : newest n (before ++ items) = items := by
  rw [newest, if_neg (by omega), List.rtake]
  have dropped : (before ++ items).length - n = before.length := by
    simp [full]
  rw [dropped, drop_left]

theorem newest_of_length_le (short : items.length ≤ n) : newest n items = items := by
  rw [newest]
  split
  · simp
  · have noneDropped : items.length - n = 0 := by omega
    rw [List.rtake, noneDropped, drop_zero]

theorem getLast?_newest : (newest n items).getLast? = items.getLast? := by
  rw [newest]
  split
  · simp
  · rw [List.rtake, getLast?_drop]
    split
    case isTrue nothing =>
      have isEmpty : items = [] := by
        apply eq_nil_of_length_eq_zero
        omega
      simp [isEmpty]
    case isFalse => simp

end Newest

/-- `list_thread` without the internal messages: the newest `limit`, the oldest first. -/
def listThread (messages : List Message) (limit : Nat) : List Message :=
  (messages.filter fun m => m.kind = .visible).rtake limit

structure Transcript where
  messages : List Message
  numbered : messages.map Message.sequence = List.range' 1 messages.length

namespace Transcript

def empty : Transcript := ⟨[], by simp⟩

variable (transcript : Transcript)

def nextSequence : Nat := (transcript.messages.map Message.sequence).max?.getD 0 + 1

theorem nextSequence_eq :
    transcript.nextSequence = transcript.messages.length + 1 := by
  rw [nextSequence, transcript.numbered]
  cases transcript.messages.length with
  | zero => simp
  | succ n =>
    have isMax : (List.range' 1 (n + 1)).max? = some (n + 1) := by
      rw [max?_eq_some_iff]
      constructor
      · simp [mem_range'_1]
      · intro other member
        have bounds := mem_range'_1.mp member
        omega
    rw [isMax, Option.getD_some]

def committed (draft : Message) : Message := { draft with sequence := transcript.nextSequence }

def add (draft : Message) : Transcript where
  messages := transcript.messages ++ [transcript.committed draft]
  numbered := by
    simp [transcript.numbered, committed, nextSequence_eq, List.range'_concat, Nat.add_comm]

variable {transcript : Transcript} {m : Message}

theorem sequence_getElem {i : Nat} (inside : i < transcript.messages.length) :
    transcript.messages[i].sequence = i + 1 := by
  have places :
      (transcript.messages.map Message.sequence)[i]? =
        (List.range' 1 transcript.messages.length)[i]? := by
    rw [transcript.numbered]
  rw [getElem?_range' inside, getElem?_map, getElem?_eq_getElem inside] at places
  have numbers : transcript.messages[i].sequence = 1 + 1 * i := by
    simpa using places
  omega

theorem getElem?_of_mem (member : m ∈ transcript.messages) :
    1 ≤ m.sequence ∧ m.sequence ≤ transcript.messages.length ∧
      transcript.messages[m.sequence - 1]? = some m := by
  obtain ⟨i, inside, rfl⟩ := mem_iff_getElem.mp member
  have number := sequence_getElem inside
  rw [number, Nat.add_sub_cancel]
  exact ⟨by omega, by omega, getElem?_eq_getElem inside⟩

theorem mem_take_drop {first count : Nat}
    (member : m ∈ (transcript.messages.drop first).take count) :
    m ∈ transcript.messages ∧ first < m.sequence ∧ m.sequence ≤ first + count := by
  obtain ⟨i, inside, isRow⟩ := mem_iff_getElem.mp member
  have isInside : first + i < transcript.messages.length ∧ i < count := by
    simp only [length_take, length_drop] at inside
    omega
  rw [getElem_take, getElem_drop] at isRow
  have number := sequence_getElem isInside.1
  rw [isRow] at number
  refine ⟨?_, by omega, by omega⟩
  rw [← isRow]
  exact getElem_mem isInside.1

end Transcript

/-!
## The hot thread cache

A writer commits its message, pushes it and sets the revision; a reader compares the revision,
reads the list, and on a miss refills it from the store.  Every cache command is one step of its
client, and it may fail before or after it took effect.
-/

open Foundation

/-- `hot:thread:{tenant}:{thread}` and `…:rev`; a missing list is an empty one. -/
structure HotThread where
  list : List Message := []
  rev : Option Nat := none

/-- A message as the cache keeps it: `_dump` leaves the attachments out. -/
def dump (message : Message) : Message := { message with attachments := [] }

inductive Command where
  | nothing
  | listPush (message : Message)
  | deleteList
  | set (revision : Nat)

def HotThread.apply (maxMessages : Nat) (hot : HotThread) : Command → HotThread
  | .nothing => hot
  | .listPush message => { hot with list := newest maxMessages (hot.list ++ [dump message]) }
  | .deleteList => { hot with list := [] }
  | .set revision => { hot with rev := some revision }

/-- What `recent` makes of the list it read: nothing on a miss or a gap, and nothing
from a short list that does not start at the thread's first message. -/
def answerFrom (limit : Nat) (raw : List Message) : Option (List Message) :=
  match raw with
  | [] => none
  | first :: _ =>
    if raw.map Message.sequence ≠ List.range' first.sequence raw.length then none
    else if raw.length < limit ∧ first.sequence ≠ 1 then none
    else some raw

/-- What is left of a call. -/
inductive Client where
  | pushing (message : Message) (revision : Nat)
  | setting (revision : Nat)
  | checking (limit revision asked : Nat)
  /-- `recent`: the revision was the thread's; the list is to be read -/
  | ranging (limit revision asked : Nat)
  /-- `list_messages`: a miss; the store is to be read -/
  | reading (limit revision : Nat)
  | deleting (messages : List Message) (revision : Nat)
  | refilling (message : Message) (later : List Message) (revision : Nat)

structure Answer where
  limit : Nat
  asked : Nat
  messages : List Message

structure State where
  transcript : Transcript := .empty
  revision : Nat := 0
  hot : HotThread := {}
  clients : List Client := []
  answers : List Answer := []

/-- How the cache takes a command. -/
inductive Reply where
  | answers
  | unavailable
  /-- the command takes effect, and its answer is lost: `CacheUnavailable` -/
  | unanswered
  deriving DecidableEq

structure Turn where
  command : Command := .nothing
  client : Option Client := none
  answer : Option Answer := none

def Turn.reply (command : Command) (success failure : Option Client) : Reply → Turn
  | .answers => { command, client := success }
  | .unavailable => { client := failure }
  | .unanswered => { command, client := failure }

section Steps

variable (maxMessages : Nat)

/-- `refill`, once its list is deleted. -/
def afterDelete (messages : List Message) (revision : Nat) : Client :=
  match messages with
  | [] => .setting revision
  | message :: later => .refilling message later revision

def Client.turn (state : State) (reply : Reply) : Client → Turn
  | .pushing message revision => .reply (.listPush message) (some (.setting revision)) none reply
  | .setting revision => .reply (.set revision) none none reply
  | .checking limit revision asked =>
    let checked := if state.hot.rev = some revision then .ranging limit revision asked
      else .reading limit revision
    .reply .nothing (some checked) (some (.reading limit revision)) reply
  | .ranging limit revision asked =>
    match reply with
    | .answers =>
      match answerFrom limit (newest limit state.hot.list) with
      | some messages => { answer := some { limit, asked, messages } }
      | none => { client := some (.reading limit revision) }
    | _ => { client := some (.reading limit revision) }
  | .reading limit revision =>
    let messages := listThread state.transcript.messages limit
    let visible := newest maxMessages (messages.filter fun m => m.kind = .visible)
    if messages = [] then {} else { client := some (.deleting visible revision) }
  | .deleting messages revision =>
    .reply .deleteList (some (afterDelete messages revision)) none reply
  | .refilling message later revision =>
    .reply (.listPush message) (some (afterDelete later revision)) none reply

inductive Action where
  /-- the transaction of an append; its cache side follows -/
  | append (draft : Message)
  /-- the thread is renamed -/
  | touch
  | listMessages (limit : Nat)
  /-- the client at a place makes its next command -/
  | advance (place : Nat) (reply : Reply)
  | crash (place : Nat)
  | expireList
  | expireRev

def appended (message : Message) (revision : Nat) : Client :=
  if message.kind = .visible then .pushing message revision else .setting revision

def State.take (state : State) (place : Nat) (turn : Turn) : State :=
  { state with
    hot := state.hot.apply maxMessages turn.command
    clients := state.clients.eraseIdx place ++ turn.client.toList
    answers := state.answers ++ turn.answer.toList }

def step (state : State) : Action → Option State
  | .append draft =>
    let message := state.transcript.committed draft
    let revision := state.revision + 1
    some { state with
      transcript := state.transcript.add draft
      revision
      clients := state.clients ++ [appended message revision] }
  | .touch => some { state with revision := state.revision + 1 }
  | .listMessages limit =>
    -- every caller asks for at least one message
    if limit = 0 then none
    else
      let asked := state.transcript.messages.length
      some { state with
        clients := state.clients ++ [.checking limit state.revision asked] }
  | .advance place reply =>
    (state.clients[place]?).map fun client =>
      state.take maxMessages place (client.turn maxMessages state reply)
  | .crash place => some { state with clients := state.clients.eraseIdx place }
  | .expireList => some { state with hot := { state.hot with list := [] } }
  | .expireRev => some { state with hot := { state.hot with rev := none } }

end Steps

end MemoryService.WorkingMemory
