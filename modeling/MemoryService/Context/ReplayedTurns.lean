import MemoryService.Context.ToolProtocol
import MemoryService.Foundation.Spending

/-!
# What the replayed window gives of its turns

The budget is spent twice from the newest turn back: on the cores, which say how many turns are
kept, and on the texts of the kept turns that made calls.
-/

namespace MemoryService.Context

open Domain Foundation Spending List

def callTokens (call : MessageToolCall) : ℤ :=
  estimateTokens call.name + estimateTokens (dumped (.obj call.arguments))

def WindowMessage.tokens (m : WindowMessage) : ℤ :=
  estimateTokens m.text + total callTokens m.toolCalls + messageOverheadTokens

def turnsRead (messages : List Message) (maxTurns : Option ℤ) : List Turn :=
  (newestTurns (fromAQuestion
    (turns ((units (messages.filter replayable)).filterMap whole))) maxTurns).reverse

/-- The question and what the agent said. -/
def sayings (turn : Turn) : List Message :=
  (turn.flatMap Piece.messages).filter fun m => m.role ≠ .tool && m.content ≠ ""

section

variable (wording : Wording) (now : Instant)

def keptTurns (tokenBudget : ℤ) (found : List Turn) : List Turn :=
  match found.map (Layers.of wording now) with
  | [] => []
  | newest :: older => found.take (cores tokenBudget newest older).1

def recordedSteps (kept : List Turn) : List String :=
  (kept.reverse.filter fun turn => steps turn ≠ []).map (stepsList wording now)

/-- The window is of the kept turns, the newest, and has the steps and the sayings of each. -/
structure GivesCores (window : ConversationWindow) (found kept : List Turn) : Prop where
  newest : kept <+: found
  only : ∀ entry ∈ window.messages, ∃ turn ∈ kept, ∃ m ∈ turn.flatMap Piece.messages,
    m.messageId = entry.messageId
  recorded : window.record = "\n\n".intercalate (recordedSteps wording now kept)
  said : ∀ turn ∈ kept, steps turn = [] → (sayings turn).map (shown · false) <:+: window.messages

theorem stepsList_eq_empty_iff (turn : Turn) :
    stepsList wording now turn = "" ↔ steps turn = [] := by
  rw [stepsList]
  constructor
  · intro isEmpty
    by_contra made
    rw [if_neg (by simpa using made)] at isEmpty
    simp only [String.append_assoc, cons_append, String.intercalate_cons_append] at isEmpty
    exact absurd (congrArg String.toList isEmpty) (by simp)
  · intro none_
    rw [none_]
    rfl

theorem steps_of (turn : Turn) :
    (Layers.of wording now turn).steps =
      if steps turn = [] then none else some (stepsList wording now turn) := by
  simp only [Layers.of, stepsList_eq_empty_iff]

theorem steps_of_eq_none_iff (turn : Turn) :
    (Layers.of wording now turn).steps = none ↔ steps turn = [] := by
  rw [steps_of]
  split <;> simp_all

theorem record_eq (kept : List Turn) :
    (kept.map (Layers.of wording now)).reverse.filterMap Layers.steps =
      recordedSteps wording now kept := by
  rw [recordedSteps, ← map_reverse, filterMap_map]
  induction kept.reverse with
  | nil => rfl
  | cons turn others ih =>
    rw [filterMap_cons, Function.comp_apply, steps_of]
    by_cases quiet : steps turn = []
    · rw [if_pos quiet, filter_cons_of_neg (by simpa using quiet)]
      exact ih
    · rw [if_neg quiet, filter_cons_of_pos (by simpa using quiet), map_cons]
      exact congrArg _ ih

/-- The cost of what the window says is reported, and is over the budget only where there is
nothing but the newest turn's core. -/
structure Accounted (window : ConversationWindow) (found kept : List Turn)
    (tokenBudget : ℤ) : Prop where
  recorded : window.record = "\n\n".intercalate (recordedSteps wording now kept)
  estimate : window.tokenEstimate =
    total (fun list => (estimateTokens list : ℤ)) (recordedSteps wording now kept) +
      total WindowMessage.tokens window.messages
  reported : tokenBudget < window.tokenEstimate → window.overBudget = true
  alone : window.overBudget = true → ∃ newest, found.head? = some newest ∧
    window.messages = (sayings newest).map (shown · false) ∧
    window.record = stepsList wording now newest

end

theorem messageTokens_eq (message : Message) :
    messageTokens message =
      estimateTokens message.content + total callTokens message.toolCalls + messageOverheadTokens :=
  rfl

theorem tokens_whole (m : Message) : (shown m true).tokens = messageTokens m :=
  (messageTokens_eq m).symm

theorem tokens_text (m : Message) :
    (shown m false).tokens = messageTokens { m with toolCalls := [] } :=
  (messageTokens_eq { m with toolCalls := [] }).symm

theorem messageTokens_pos (message : Message) : 0 < messageTokens message := by
  have calls : 0 ≤ total callTokens message.toolCalls :=
    total_nonneg fun call => Int.add_nonneg (Int.natCast_nonneg _) (Int.natCast_nonneg _)
  have content := Int.natCast_nonneg (estimateTokens message.content)
  rw [messageTokens_eq, messageOverheadTokens]
  omega

namespace Layers

def coreCost (turn : Layers) : ℤ := if turn.steps.isSome then turn.stepsCost else turn.textCost

def furtherCost (turn : Layers) : ℤ := if turn.steps.isSome then turn.textCost else 0

def newestCost (newest : Layers) : ℤ := newest.stepsCost + newest.textCost

def quietCost (turn : Layers) : ℤ := if turn.steps.isSome then 0 else turn.textCost

variable (turn : Layers)

theorem coreCost_eq : turn.coreCost = turn.stepsCost + turn.quietCost := by
  rw [coreCost, quietCost]
  split
  · rw [Int.add_zero]
  · rename_i quiet
    rw [Option.not_isSome_iff_eq_none] at quiet
    rw [stepsCost, quiet]
    exact (Int.zero_add _).symm

theorem textCost_split : turn.textCost = turn.furtherCost + turn.quietCost := by
  rw [furtherCost, quietCost]
  split
  · rw [Int.add_zero]
  · rw [Int.zero_add]

theorem stepsCost_nonneg : 0 ≤ turn.stepsCost := by
  rw [stepsCost]
  cases turn.steps with
  | none => exact Int.le_refl 0
  | some list => exact Int.natCast_nonneg _

theorem textCost_eq :
    turn.textCost = total (fun m => messageTokens { m with toolCalls := [] }) turn.text :=
  rfl

theorem tokens_messages :
    total WindowMessage.tokens (turn.messages true false) = turn.textCost := by
  rw [textCost_eq]
  exact (total_map ..).trans (congrArg (total · _) (funext tokens_text))

theorem tokens_messages_whole :
    total WindowMessage.tokens (turn.messages true true) = turn.textCost + turn.wholeCost := by
  have paid : total WindowMessage.tokens (turn.messages true true) =
      (turn.whole.map messageTokens).foldr (· + ·) 0 := by
    exact (total_map ..).trans (congrArg (total · _) (funext tokens_whole))
  rw [paid, wholeCost]
  omega

theorem textCost_nonneg : 0 ≤ turn.textCost := by
  rw [textCost_eq]
  exact total_nonneg fun m => Int.le_of_lt (messageTokens_pos _)

theorem textCost_eq_zero_iff : turn.textCost = 0 ↔ turn.text = [] := by
  rw [textCost_eq]
  constructor
  · intro isZero
    cases isText : turn.text with
    | nil => rfl
    | cons first others =>
      have positive := messageTokens_pos { first with toolCalls := [] }
      have rest : 0 ≤ total (fun m => messageTokens { m with toolCalls := [] }) others :=
        total_nonneg fun m => Int.le_of_lt (messageTokens_pos _)
      rw [isText, total_cons] at isZero
      omega
  · intro none_
    rw [none_]
    rfl

theorem quietCost_nonneg : 0 ≤ turn.quietCost := by
  rw [quietCost]
  split
  · exact Int.le_refl 0
  · exact turn.textCost_nonneg

theorem quietCost_eq_zero_iff :
    turn.quietCost = 0 ↔ (turn.steps = none → turn.text = []) := by
  rw [quietCost]
  cases turn.steps with
  | none => simp [textCost_eq_zero_iff]
  | some list => simp

theorem coreCost_nonneg : 0 ≤ turn.coreCost := by
  rw [coreCost]
  split
  · exact turn.stepsCost_nonneg
  · exact turn.textCost_nonneg

theorem furtherCost_nonneg : 0 ≤ turn.furtherCost := by
  rw [furtherCost]
  split
  · exact turn.textCost_nonneg
  · exact Int.le_refl 0

end Layers

open Layers

section

variable {budget : ℤ}

theorem coresOf_eq (older : List Layers) (kept : Nat) (used : ℤ) :
    coresOf budget older kept used =
      (kept + (affordable coreCost (budget - used) older).length,
        used + total coreCost (affordable coreCost (budget - used) older)) := by
  induction older generalizing kept used with
  | nil => simp [coresOf, affordable]
  | cons turn rest ih =>
    have beyond : budget < used + turn.coreCost ↔ budget - used < turn.coreCost := by omega
    have left : budget - (used + turn.coreCost) = budget - used - turn.coreCost := by omega
    have isCore : (if turn.steps.isSome then turn.stepsCost else turn.textCost) =
        turn.coreCost := rfl
    rw [coresOf, affordable]
    simp only [isCore, beyond]
    split
    · simp
    · rw [ih, left, length_cons, total_cons, Nat.add_assoc, Nat.add_comm 1, Int.add_assoc]

theorem textsOf_eq (given : List Layers) (texts : Nat) {used : ℤ} (isRoom : used ≤ budget) :
    textsOf budget given texts used =
      (texts + (affordable furtherCost (budget - used) given).length,
        used + total furtherCost (affordable furtherCost (budget - used) given)) := by
  induction given generalizing texts used with
  | nil => simp [textsOf, affordable]
  | cons turn rest ih =>
    rw [textsOf, affordable]
    split
    case isTrue calls =>
        have isText : turn.furtherCost = turn.textCost := if_pos calls
        rw [isText]
        split
        case isTrue beyond =>
            rw [if_pos (by omega)]
            simp
        case isFalse fits =>
            have left : budget - (used + turn.textCost) = budget - used - turn.textCost := by
              omega
            rw [if_neg (by omega), ih _ (Int.not_lt.mp fits), left,
              length_cons, total_cons, isText, Nat.add_assoc, Nat.add_comm 1, Int.add_assoc]
    case isFalse quiet =>
        have isFree : turn.furtherCost = 0 := if_neg quiet
        rw [isFree, if_neg (by omega), ih _ isRoom, length_cons,
          total_cons, isFree, Nat.add_assoc, Nat.add_comm 1, Int.sub_zero, Int.zero_add]

variable (budget)

def given (newest : Layers) (older : List Layers) : List Layers :=
  affordable coreCost (budget - newest.newestCost) older

def spoken (newest : Layers) (older : List Layers) : List Layers :=
  affordable furtherCost
    (budget - (newest.newestCost + total coreCost (given budget newest older)))
    (given budget newest older)

variable {budget} {newest : Layers} {older : List Layers}

theorem cores_eq : cores budget newest older =
    (1 + (given budget newest older).length,
      newest.newestCost + total coreCost (given budget newest older)) :=
  coresOf_eq ..

theorem cores_fit (some_ : given budget newest older ≠ []) :
    newest.newestCost + total coreCost (given budget newest older) ≤ budget := by
  have isRoom := room_of_affordable some_ coreCost_nonneg
  have fits : total coreCost (given budget newest older) ≤ _ := total_affordable_le isRoom
  omega

theorem spoken_isPrefix : spoken budget newest older <+: given budget newest older :=
  affordable_isPrefix

theorem texts_eq :
    texts budget older (cores budget newest older).1 (cores budget newest older).2 =
      (1 + (spoken budget newest older).length,
        newest.newestCost + total coreCost (given budget newest older) +
          total furtherCost (spoken budget newest older)) := by
  have isTake : older.take (given budget newest older).length = given budget newest older :=
    (prefix_iff_eq_take.mp affordable_isPrefix).symm
  rw [texts, cores_eq, Nat.add_sub_cancel_left, isTake]
  by_cases none_ : given budget newest older = []
  · rw [spoken, none_]
    simp [textsOf, affordable]
  · exact textsOf_eq _ 1 (cores_fit none_)

theorem texts_fit (some_ : given budget newest older ≠ []) :
    newest.newestCost + total coreCost (given budget newest older) +
      total furtherCost (spoken budget newest older) ≤ budget := by
  have isRoom := Int.sub_nonneg_of_le (cores_fit some_)
  have fits : total furtherCost (spoken budget newest older) ≤ _ := total_affordable_le isRoom
  omega

end

section

variable (wording : Wording) (now : Instant)

def usedTexts (budget : ℤ) (newest : Layers) (older : List Layers) : ℤ :=
  newest.newestCost + total coreCost (given budget newest older) +
    total furtherCost (spoken budget newest older)

def fullyGiven (budget : ℤ) (newest : Layers) (older : List Layers) : Bool :=
  newest.steps.isSome && usedTexts budget newest older + newest.wholeCost ≤ budget

theorem shownTurns_eq (newest : Layers) (said silent : List Layers) (full : Bool) :
    shownTurns (newest :: (said ++ silent)) (1 + said.length) full =
      said.reverse.flatMap (Layers.messages · true false) ++ newest.messages true full := by
  have isShown : ∀ layers : List Layers, shownTurns layers (1 + said.length) full =
      layers.zipIdx.reverse.flatMap fun entry =>
        entry.1.messages (entry.2 < 1 + said.length) (entry.2 = 0 && full) := fun _ => rfl
  have unsaid : (silent.zipIdx (1 + said.length)).reverse.flatMap (fun entry =>
      entry.1.messages (entry.2 < 1 + said.length) (entry.2 = 0 && full)) = [] := by
    rw [flatMap_eq_nil_iff]
    rintro ⟨turn, n⟩ member
    have late := le_snd_of_mem_zipIdx (mem_reverse.mp member)
    have notSaid : ¬ n < 1 + said.length := Nat.not_lt.mpr late
    have notNewest : n ≠ 0 := by omega
    simp [Layers.messages, notSaid, notNewest]
  have isSaid : ∀ entry ∈ (said.zipIdx 1).reverse,
      entry.1.messages (entry.2 < 1 + said.length) (entry.2 = 0 && full) =
        entry.1.messages true false := by
    rintro ⟨turn, n⟩ member
    have early := snd_lt_add_of_mem_zipIdx (mem_reverse.mp member)
    have late := le_snd_of_mem_zipIdx (mem_reverse.mp member)
    have notNewest : n ≠ 0 := by omega
    simp [early, notNewest]
  have first : 0 < 1 + said.length := Nat.add_pos_left Nat.one_pos _
  rw [isShown, zipIdx_cons, reverse_cons, flatMap_append, zipIdx_append,
    reverse_append, flatMap_append, unsaid, nil_append, flatMap_congr isSaid,
    ← flatMap_map Prod.fst (Layers.messages · true false), map_reverse,
    zipIdx_map_fst]
  simp [first]

variable {wording now} {messages : List Message} {maxTurns : Option ℤ} {newest : Layers}
  {older : List Layers}

theorem replayWindow_nil (threadId : String) (budget : ℤ)
    (none_ : turnsRead messages maxTurns = []) :
    replayWindow wording threadId messages budget maxTurns now =
      { threadId := some threadId, form := .messages } := by
  rw [turnsRead] at none_
  rw [replayWindow]
  split
  case h_1 => rfl
  case h_2 isFound =>
      rw [none_] at isFound
      cases isFound

theorem replayWindow_eq (threadId : String) (budget : ℤ)
    (isRead : (turnsRead messages maxTurns).map (Layers.of wording now) = newest :: older) :
    let window := replayWindow wording threadId messages budget maxTurns now
    let full := fullyGiven budget newest older
    let used := usedTexts budget newest older + if full then newest.wholeCost else 0
    window.messages =
        (spoken budget newest older).reverse.flatMap (Layers.messages · true false) ++
          newest.messages true full ∧
      window.record = "\n\n".intercalate
        ((newest :: given budget newest older).reverse.filterMap Layers.steps) ∧
      window.tokenEstimate = used ∧ window.overBudget = decide (budget < used) := by
  have isTake : (newest :: older).take (1 + (given budget newest older).length) =
      newest :: given budget newest older := by
    rw [Nat.add_comm, take_succ_cons]
    exact congrArg _ (prefix_iff_eq_take.mp affordable_isPrefix).symm
  have isUsed : newest.newestCost + total coreCost (given budget newest older) +
      total furtherCost (spoken budget newest older) = usedTexts budget newest older := rfl
  have isFull : (newest.steps.isSome &&
      decide (usedTexts budget newest older + newest.wholeCost ≤ budget)) =
        fullyGiven budget newest older := rfl
  obtain ⟨silent, isGiven⟩ : spoken budget newest older <+: given budget newest older :=
    spoken_isPrefix
  have isShown := shownTurns_eq newest (spoken budget newest older) silent
    (fullyGiven budget newest older)
  rw [isGiven] at isShown
  have isSum : (if fullyGiven budget newest older then
      usedTexts budget newest older + newest.wholeCost else usedTexts budget newest older) =
        usedTexts budget newest older +
          if fullyGiven budget newest older then newest.wholeCost else 0 := by
    split
    · rfl
    · rw [Int.add_zero]
  simp only [replayWindow]
  rw [← turnsRead, isRead]
  simp only [texts_eq]
  rw [cores_eq]
  simp only [isTake, isUsed, isFull, isShown, isSum, and_self]

end

end MemoryService.Context
