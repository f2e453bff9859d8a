import MemoryService.Context.Window
import MemoryService.Foundation.Exchange

/-!
# The window keeps the tool protocol

A piece that is given whole has a result for each of its calls and no other results; every other
message is given without its calls, and the results stay out.
-/

namespace MemoryService.Context

open Domain Foundation Option List

def WindowMessage.isTool (m : WindowMessage) : Bool := m.role = MessageRole.tool.value

def WindowMessage.calls (m : WindowMessage) : List String := m.toolCalls.map MessageToolCall.id

/-- Only the assistant makes calls, every call has its result and every result its call. -/
structure ToolProtocol (shown : List WindowMessage) : Prop where
  madeByAssistant : ∀ m ∈ shown, m.toolCalls ≠ [] → m.role = MessageRole.assistant.value
  answered : Answered WindowMessage.isTool WindowMessage.calls WindowMessage.toolCallId shown
  called : Called WindowMessage.isTool WindowMessage.calls WindowMessage.toolCallId shown

abbrev PairedWindow (shown : List WindowMessage) : Prop :=
  Paired WindowMessage.isTool WindowMessage.calls WindowMessage.toolCallId shown

theorem shown_isTool (m : Message) (calls : Bool) :
    (shown m calls).isTool = decide (m.role = .tool) := by
  cases isRole : m.role <;> simp [shown, WindowMessage.isTool, isRole, MessageRole.value]

theorem shown_calls (m : Message) (calls : Bool) :
    (shown m calls).calls = if calls then m.toolCalls.map MessageToolCall.id else [] := by
  cases calls <;> rfl

/-- A piece that may be given whole. -/
structure Accepted (piece : Piece) : Prop where
  spoken : piece.head.role ≠ .tool
  complete : ∀ c ∈ piece.head.toolCalls, ∃ m ∈ piece.results, m.toolCallId = some c.id

variable {piece given : Piece} {m : Message} {t : Turn}

theorem accepted_of_whole (isWhole : whole piece = some given) : Accepted given := by
  rw [whole] at isWhole
  split at isWhole
  · cases isWhole
  · rename_i spoken
    split at isWhole
    · rename_i complete
      obtain rfl := some.inj isWhole
      refine ⟨spoken, ?_⟩
      simpa using complete
    · split at isWhole
      · cases isWhole
      · obtain rfl := some.inj isWhole
        exact ⟨spoken, nofun⟩

def WellRoled (m : Message) : Prop := m.toolCalls ≠ [] → m.role = .assistant

theorem wellRoled_of_no_problem
    (allowed : toolFieldsProblem m.role m.toolCalls m.toolCallId = none) : WellRoled m := by
  intro makesCalls
  by_contra notAssistant
  rw [toolFieldsProblem, if_pos ⟨makesCalls, notAssistant⟩] at allowed
  cases allowed

theorem paired_of_accepted (accepted : Accepted piece)
    (wellRoled : ∀ m ∈ piece.messages, WellRoled m) :
    PairedWindow (piece.messages.map (shown · true)) := by
  have isTool : ∀ m ∈ piece.results, m.role = .tool := fun m member => (piece.answer m member).1
  apply Paired.exchange
  · simpa [shown_isTool] using accepted.spoken
  · intro result member
    obtain ⟨m, ofPiece, rfl⟩ := mem_map.mp member
    rw [shown_isTool]
    exact decide_eq_true (isTool m ofPiece)
  · intro result member
    obtain ⟨m, ofPiece, rfl⟩ := mem_map.mp member
    obtain ⟨-, c, ofHead, answers⟩ := piece.answer m ofPiece
    exact ⟨c.id, mem_map_of_mem ofHead, answers⟩
  · intro call member
    obtain ⟨c, ofHead, rfl⟩ := mem_map.mp member
    obtain ⟨m, ofPiece, answers⟩ := accepted.complete c ofHead
    exact ⟨shown m true, mem_map_of_mem ofPiece, answers⟩
  · intro result member
    obtain ⟨m, ofPiece, rfl⟩ := mem_map.mp member
    have noCalls : m.toolCalls = [] := by
      by_contra makesCalls
      have isAssistant := wellRoled m (mem_cons_of_mem _ ofPiece) makesCalls
      rw [isTool m ofPiece] at isAssistant
      cases isAssistant
    rw [shown_calls, noCalls]
    rfl

theorem messages_of_unit {out : List Piece} (member : piece ∈ unit out m) :
    ∀ other ∈ piece.messages, other = m ∨ ∃ before ∈ out, other ∈ before.messages := by
  intro other ofPiece
  cases out with
  | nil =>
    rw [unit, mem_singleton] at member
    rw [member, Piece.messages, mem_singleton] at ofPiece
    exact .inl ofPiece
  | cons last before =>
    rw [unit] at member
    split at member
    · rcases mem_cons.mp member with isHead | isLater
      · rw [isHead] at ofPiece
        change other ∈ last.head :: (last.results ++ [m]) at ofPiece
        rw [← cons_append, mem_append, mem_singleton] at ofPiece
        rcases ofPiece with earlier | isNew
        · exact .inr ⟨last, mem_cons_self, earlier⟩
        · exact .inl isNew
      · exact .inr ⟨piece, mem_cons_of_mem last isLater, ofPiece⟩
    · rcases mem_cons.mp member with isHead | isLater
      · rw [isHead, Piece.messages, mem_singleton] at ofPiece
        exact .inl ofPiece
      · exact .inr ⟨piece, isLater, ofPiece⟩

theorem messages_of_units {messages : List Message}
    (member : piece ∈ units messages) : ∀ m ∈ piece.messages, m ∈ messages := by
  have none : ∀ before ∈ ([] : List Piece), ∀ m ∈ before.messages, m ∈ messages := by simp
  refine List.foldlRecOn messages unit
    (motive := fun out => ∀ before ∈ out, ∀ m ∈ before.messages, m ∈ messages) none ?_ piece
    (mem_reverse.mp member)
  intro out held next isRead piece member m ofPiece
  rcases messages_of_unit member m ofPiece with isNext | ⟨before, ofOut, ofBefore⟩
  · exact isNext ▸ isRead
  · exact held before ofOut m ofBefore

theorem wellRoled_of_whole (isWhole : whole piece = some given)
    (wellRoled : ∀ m ∈ piece.messages, WellRoled m) : ∀ m ∈ given.messages, WellRoled m := by
  rw [whole] at isWhole
  split at isWhole
  · cases isWhole
  · split at isWhole
    · obtain rfl := some.inj isWhole
      exact wellRoled
    · split at isWhole
      · cases isWhole
      · obtain rfl := some.inj isWhole
        intro m member makesCalls
        rw [Piece.messages, mem_singleton] at member
        rw [member] at makesCalls
        exact absurd rfl makesCalls

/-- The pieces of a turn may all be given whole. -/
structure Given (piece : Piece) : Prop where
  accepted : Accepted piece
  wellRoled : ∀ m ∈ piece.messages, WellRoled m

theorem pieces_of_turn {out : List Turn} (allGiven : ∀ t ∈ out, ∀ p ∈ t, Given p)
    (given : Given piece) : ∀ t ∈ turn out piece, ∀ p ∈ t, Given p := by
  have alone : ∀ p ∈ [piece], Given p := by simpa using given
  intro t member
  cases out with
  | nil =>
    rw [turn, mem_singleton] at member
    exact member ▸ alone
  | cons last before =>
    rw [turn] at member
    split at member
    · rcases mem_cons.mp member with isHead | isLater
      · exact isHead ▸ alone
      · exact allGiven t isLater
    · rcases mem_cons.mp member with isHead | isLater
      · rw [isHead]
        intro p ofTurn
        rcases mem_append.mp ofTurn with ofLast | isNew
        · exact allGiven last mem_cons_self p ofLast
        · exact alone p isNew
      · exact allGiven t (mem_cons_of_mem last isLater)

theorem pieces_of_turns {pieces : List Piece} (given : ∀ p ∈ pieces, Given p) :
    ∀ t ∈ turns pieces, ∀ p ∈ t, Given p := by
  have none : ∀ t ∈ ([] : List Turn), ∀ p ∈ t, Given p := by simp
  intro t member
  refine List.foldlRecOn pieces turn (motive := fun out => ∀ t ∈ out, ∀ p ∈ t, Given p) none ?_ t
    (mem_reverse.mp member)
  exact fun out held next isRead => pieces_of_turn held (given next isRead)

theorem fromAQuestion_subset (found : List Turn) : fromAQuestion found ⊆ found := by
  cases found with
  | nil => exact List.Subset.refl _
  | cons first others =>
    cases others with
    | nil => exact List.Subset.refl _
    | cons next later =>
      rw [fromAQuestion]
      split
      · exact subset_cons_self _ _
      · exact List.Subset.refl _

theorem newestTurns_subset (found : List Turn) (maxTurns : Option ℤ) :
    newestTurns found maxTurns ⊆ found := by
  cases maxTurns with
  | none => exact List.Subset.refl _
  | some most =>
    rw [newestTurns]
    split
    · exact drop_subset _ _
    · exact nil_subset _

section

variable (wording : Wording) (now : Instant)

theorem paired_of_layers (given : ∀ p ∈ t, Given p) (text whole : Bool) :
    PairedWindow ((Layers.of wording now t).messages text whole) := by
  cases whole with
  | true =>
    have each : ((Layers.of wording now t).messages text true) =
        (t.map fun piece => piece.messages.map (shown · true)).flatten := by
      simp [Layers.messages, Layers.of, flatMap_def, map_flatten, Function.comp_def]
    rw [each]
    apply Paired.flatten
    intro log member
    obtain ⟨piece, ofTurn, rfl⟩ := mem_map.mp member
    exact paired_of_accepted (given piece ofTurn).accepted (given piece ofTurn).wellRoled
  | false =>
    -- the text leaves out the results, and no call is shown
    apply Paired.of_quiet
    intro entry member
    obtain ⟨m, ofText, rfl⟩ := mem_map.mp member
    rw [shown_isTool, shown_calls]
    refine ⟨decide_eq_false ?_, rfl⟩
    cases text with
    | true =>
      have kept := (mem_filter.mp ofText).2
      simp only [Bool.and_eq_true, decide_eq_true_eq] at kept
      exact kept.1
    | false => cases ofText

theorem roles_of_layers (given : ∀ p ∈ t, Given p) (text whole : Bool) :
    ∀ m ∈ (Layers.of wording now t).messages text whole, m.toolCalls ≠ [] →
      m.role = MessageRole.assistant.value := by
  intro entry member makesCalls
  obtain ⟨m, ofLayer, rfl⟩ := mem_map.mp member
  cases whole with
  | false => exact absurd rfl makesCalls
  | true =>
    obtain ⟨piece, ofTurn, ofPiece⟩ := mem_flatMap.mp ofLayer
    exact congrArg MessageRole.value ((given piece ofTurn).wellRoled m ofPiece makesCalls)

theorem protocol_of_shownTurns {layers : List Layers}
    (ofTurns : ∀ l ∈ layers, ∃ t, (∀ p ∈ t, Given p) ∧ l = Layers.of wording now t)
    (texts : Nat) (full : Bool) : ToolProtocol (shownTurns layers texts full) := by
  have ofIndexed : ∀ l n, (l, n) ∈ layers.zipIdx.reverse →
      ∃ t, (∀ p ∈ t, Given p) ∧ l = Layers.of wording now t := by
    intro l n member
    exact ofTurns l (fst_mem_of_mem_zipIdx (mem_reverse.mp member))
  have paired : PairedWindow (shownTurns layers texts full) := by
    rw [shownTurns, flatMap_def]
    apply Paired.flatten
    intro log member
    obtain ⟨⟨l, n⟩, indexed, rfl⟩ := mem_map.mp member
    obtain ⟨t, given, rfl⟩ := ofIndexed l n indexed
    exact paired_of_layers wording now given _ _
  refine ⟨?_, paired.answered, paired.called⟩
  intro m member
  obtain ⟨⟨l, n⟩, indexed, ofTurn⟩ := mem_flatMap.mp member
  obtain ⟨t, given, rfl⟩ := ofIndexed l n indexed
  exact roles_of_layers wording now given _ _ m ofTurn

/-- The window that is replayed is one a model accepts, whatever was read and whatever the
budget. -/
theorem replayed_window_keeps_protocol (threadId : String) (messages : List Message)
    (tokenBudget : ℤ) (maxTurns : Option ℤ)
    (allowed : ∀ m ∈ messages, toolFieldsProblem m.role m.toolCalls m.toolCallId = none) :
    ToolProtocol
      (replayWindow wording threadId messages tokenBudget maxTurns now).messages := by
  have givenPieces : ∀ p ∈ (units (messages.filter replayable)).filterMap whole, Given p := by
    intro p member
    obtain ⟨piece, ofUnits, isWhole⟩ := mem_filterMap.mp member
    have wellRoled : ∀ m ∈ piece.messages, WellRoled m := by
      intro m ofPiece
      have read := messages_of_units ofUnits m ofPiece
      exact wellRoled_of_no_problem (allowed m (mem_filter.mp read).1)
    exact ⟨accepted_of_whole isWhole, wellRoled_of_whole isWhole wellRoled⟩
  have givenTurns : ∀ t ∈ newestTurns (fromAQuestion
      (turns ((units (messages.filter replayable)).filterMap whole))) maxTurns,
      ∀ p ∈ t, Given p := by
    intro t member
    exact pieces_of_turns givenPieces t
      (fromAQuestion_subset _ (newestTurns_subset _ maxTurns member))
  rw [replayWindow]
  split
  · exact ⟨nofun, Paired.nil.answered, Paired.nil.called⟩
  · rename_i newest older isFound
    apply protocol_of_shownTurns wording now
    intro l member
    have ofFound := mem_of_mem_take member
    rw [← isFound] at ofFound
    obtain ⟨t, ofTurns, rfl⟩ := mem_map.mp ofFound
    exact ⟨t, givenTurns t (mem_reverse.mp ofTurns), rfl⟩

end

def asciiWording : Wording where
  split text := (text.toList.splitOn ' ').map String.ofList
  lower := String.toLower
  upper := String.toUpper
  str value := String.ofList value.dumps
  isZero value := value.word = ['0']
  decimal value := String.ofList value.dumps
  older _ _ _ := false

def messageOf (id : String) (role : MessageRole) (sequence : Nat) (content : String) : Message where
  messageId := id
  threadId := "thr_1"
  sessionId := "s"
  turnId := "t"
  tenantId := "acme"
  role := role
  sequence := sequence
  content := content
  contentHash := "2f"
  authorPrincipal := "user:ada"
  occurredAt := ⟨sequence⟩
  createdAt := ⟨sequence⟩

/-- A question, two calls of which the second was never answered, the same question again, a
call with its result, and the answer. -/
def lookedUp : List Message :=
  let call (id : String) : MessageToolCall := { id, name := "weather", arguments := [] }
  [ messageOf "m1" .user 1 "rain?",
    { messageOf "m2" .assistant 2 "" with toolCalls := [call "c1", call "c2"] },
    { messageOf "m3" .tool 3 "no" with kind := .internal, toolCallId := some "c1" },
    messageOf "m4" .user 4 "rain?",
    { messageOf "m5" .assistant 5 "" with toolCalls := [call "c3"] },
    { messageOf "m6" .tool 6 "yes" with kind := .internal, toolCallId := some "c3" },
    messageOf "m7" .assistant 7 "it rains" ]

theorem lookedUp_keeps_protocol :
    ToolProtocol (replayWindow asciiWording "thr_1" lookedUp 1000 (some 4) ⟨8⟩).messages := by
  have allowed : ∀ m ∈ lookedUp, toolFieldsProblem m.role m.toolCalls m.toolCallId = none := by
    decide
  exact replayed_window_keeps_protocol asciiWording ⟨8⟩ "thr_1" lookedUp 1000 (some 4) allowed

example :
    (replayWindow asciiWording "thr_1" lookedUp 1000 (some 4) ⟨8⟩).messageIds =
      ["m1", "m4", "m5", "m6", "m7"] := by
  decide +kernel

end MemoryService.Context
