import MemoryService.Context.ReplayedTurns

/-!
# Whether the kept turns give their cores, and whether the estimate is what was given

Both fail in the same windows: a turn that made no call and says something stands behind a turn
whose text does not fit.  It is counted and paid for, and it is not given.
-/

namespace MemoryService.Context

open Domain Foundation Spending Layers List

theorem messages_unit (out : List Piece) (m : Message) :
    (unit out m).reverse.flatMap Piece.messages = out.reverse.flatMap Piece.messages ++ [m] := by
  cases out with
  | nil => rfl
  | cons last before =>
    rw [unit]
    split
    case isTrue answers =>
        simp [Piece.messages, Piece.append]
    case isFalse => simp [Piece.messages]

theorem messages_units (messages : List Message) :
    (units messages).flatMap Piece.messages = messages := by
  have reading : ∀ out, (messages.foldl unit out).reverse.flatMap Piece.messages =
      out.reverse.flatMap Piece.messages ++ messages := by
    induction messages with
    | nil => exact fun out => (append_nil _).symm
    | cons m later ih =>
      intro out
      rw [foldl_cons, ih, messages_unit, append_assoc]
      rfl
  exact reading []

theorem pieces_of_turns_eq (pieces : List Piece) : (turns pieces).flatten = pieces := by
  have step : ∀ out piece, (turn out piece).reverse.flatten = out.reverse.flatten ++ [piece] := by
    intro out piece
    cases out with
    | nil => rfl
    | cons last before =>
      rw [turn]
      split <;> simp
  have reading : ∀ out, (pieces.foldl turn out).reverse.flatten =
    out.reverse.flatten ++ pieces := by
    induction pieces with
    | nil => exact fun out => (append_nil _).symm
    | cons piece later ih =>
      intro out
      rw [foldl_cons, ih, step, append_assoc]
      rfl
  exact reading []

def messageIds (messages : List Message) : List String := messages.map Message.messageId

theorem ids_of_whole {piece accepted : Piece} (isWhole : whole piece = some accepted) :
    (messageIds accepted.messages).Sublist (messageIds piece.messages) := by
  rw [whole] at isWhole
  split at isWhole
  · cases isWhole
  · split at isWhole
    · obtain rfl := Option.some.inj isWhole
      exact List.Sublist.refl _
    · split at isWhole
      · cases isWhole
      · obtain rfl := Option.some.inj isWhole
        exact (nil_sublist _).cons_cons _

theorem ids_of_accepted (pieces : List Piece) :
    (messageIds ((pieces.filterMap whole).flatMap Piece.messages)).Sublist
      (messageIds (pieces.flatMap Piece.messages)) := by
  induction pieces with
  | nil => exact List.Sublist.refl _
  | cons piece others ih =>
    rw [flatMap_cons, messageIds, messageIds, map_append]
    cases isWhole : whole piece with
    | none =>
      rw [filterMap_cons_none isWhole]
      exact ih.trans (sublist_append_right _ _)
    | some accepted =>
      rw [filterMap_cons_some isWhole, flatMap_cons, map_append]
      exact (ids_of_whole isWhole).append ih

variable (found : List Turn)

theorem fromAQuestion_suffix : fromAQuestion found <:+ found := by
  cases found with
  | nil => exact suffix_rfl
  | cons first others =>
    cases others with
    | nil => exact suffix_rfl
    | cons next later =>
      rw [fromAQuestion]
      split
      · exact suffix_cons _ _
      · exact suffix_rfl

theorem newestTurns_suffix (maxTurns : Option ℤ) :
    newestTurns found maxTurns <:+ found := by
  cases maxTurns with
  | none => exact suffix_rfl
  | some most =>
    rw [newestTurns]
    split
    · exact drop_suffix _ _
    · exact nil_suffix

def turnMessages : List Message := found.flatMap fun turn => turn.flatMap Piece.messages

theorem ids_of_turnsRead {messages : List Message} (maxTurns : Option ℤ)
    (distinct : (messageIds messages).Nodup) :
    (messageIds (turnMessages (turnsRead messages maxTurns))).Nodup := by
  have isRow : ∀ found : List Turn, turnMessages found = found.flatten.flatMap Piece.messages := by
    intro found
    rw [turnMessages, ← flatMap_id, flatMap_assoc]
    rfl
  have backwards : (messageIds (turnMessages (turnsRead messages maxTurns))).Perm
      (messageIds (turnMessages (turnsRead messages maxTurns).reverse)) :=
    ((reverse_perm _).symm.flatMap_right _).map _
  rw [backwards.nodup_iff, isRow, turnsRead, reverse_reverse]
  obtain ⟨early, isEarly⟩ := (newestTurns_suffix (fromAQuestion (turns
    ((units (messages.filter replayable)).filterMap whole))) maxTurns).trans
      (fromAQuestion_suffix _)
  have given := pieces_of_turns_eq ((units (messages.filter replayable)).filterMap whole)
  rw [← isEarly, flatten_append] at given
  have within := ids_of_accepted (units (messages.filter replayable))
  rw [messages_units, ← given, flatMap_append, messageIds, map_append] at within
  have kept : (messageIds (messages.filter replayable)).Sublist (messageIds messages) :=
    filter_sublist.map _
  exact distinct.sublist (((sublist_append_right _ _).trans within).trans kept)

section

variable (budget : ℤ)

structure FitBehind (newest : Layers) (older kept : List Layers) : Prop where
  newestFirst : kept <+: older
  fits : kept ≠ [] → newest.newestCost + total coreCost kept ≤ budget
  longest : ∀ turn, kept ++ [turn] <+: older →
    budget < newest.newestCost + total coreCost (kept ++ [turn])

/-- Wherever a turn that made no call and says something is kept behind a turn that made calls,
that turn's text fits, with the cores and with the texts before it. -/
def TextsReach (newest : Layers) (older : List Layers) : Prop :=
  ∀ kept newer turn later, FitBehind budget newest older kept → kept = newer ++ turn :: later →
    turn.steps.isSome → (∃ quiet ∈ later, quiet.steps = none ∧ quiet.text ≠ []) →
    newest.newestCost + total coreCost kept + total furtherCost (newer ++ [turn]) ≤ budget

variable {budget} {newest : Layers} {older kept : List Layers}

theorem given_fitBehind : FitBehind budget newest older (given budget newest older) := by
  refine ⟨affordable_isPrefix, cores_fit, fun turn isPrefix => Int.not_le.mp fun fits => ?_⟩
  have taken : given budget newest older ++ [turn] <+: given budget newest older :=
    (prefix_affordable_iff coreCost_nonneg isPrefix (by simp)).mpr (by omega)
  have short := taken.length_le
  rw [length_append, length_singleton, given] at short
  omega

theorem eq_given_of_fitBehind (fit : FitBehind budget newest older kept) :
    kept = given budget newest older := by
  have isGiven : kept <+: given budget newest older := by
    by_cases none_ : kept = []
    · rw [none_]
      exact nil_prefix
    · have fits := fit.fits none_
      exact (prefix_affordable_iff coreCost_nonneg fit.newestFirst none_).mpr (by omega)
  obtain ⟨more, isAll⟩ := isGiven
  cases more with
  | nil => rwa [append_nil] at isAll
  | cons turn others =>
    have next : kept ++ [turn] <+: given budget newest older :=
      ⟨others, by rw [← isAll, append_assoc]; rfl⟩
    have beyond := fit.longest turn (next.trans affordable_isPrefix)
    have fits := (prefix_affordable_iff coreCost_nonneg (next.trans affordable_isPrefix)
      (by simp)).mp next
    omega

theorem textsReach_iff : TextsReach budget newest older ↔
    ∀ silent, given budget newest older = spoken budget newest older ++ silent →
      ∀ quiet ∈ silent, quiet.steps = none → quiet.text = [] := by
  constructor
  · intro reach silent isGiven quiet isSilent isQuiet
    by_contra speaks
    cases silent with
    | nil => cases isSilent
    | cons turn later =>
      have some_ : given budget newest older ≠ [] := by
        rw [isGiven]
        simp
      have fits := cores_fit some_
      have notSpoken : ¬ spoken budget newest older ++ [turn] <+: spoken budget newest older := by
        intro isPrefix
        have short := isPrefix.length_le
        rw [length_append, length_singleton] at short
        omega
      have isPrefix : spoken budget newest older ++ [turn] <+: given budget newest older :=
        ⟨later, by rw [isGiven, append_assoc]; rfl⟩
      have beyond := mt (prefix_affordable_iff furtherCost_nonneg isPrefix (by simp)).mpr notSpoken
      -- what costs nothing further would have been taken
      have calls : turn.steps.isSome := by
        by_contra none_
        have isFree : turn.furtherCost = 0 := if_neg none_
        have taken := texts_fit some_
        rw [total_append, total_cons, total_nil, isFree] at beyond
        omega
      have isLater : quiet ∈ later := by
        rcases mem_cons.mp isSilent with rfl | isLater
        · rw [isQuiet] at calls
          cases calls
        · exact isLater
      have reaches := reach _ _ turn later given_fitBehind isGiven calls
        ⟨quiet, isLater, isQuiet, speaks⟩
      omega
  · intro heard kept newer turn later fit isKept calls isSome
    obtain ⟨quiet, isLater, isQuiet, speaks⟩ := isSome
    have isGiven := eq_given_of_fitBehind fit
    subst isGiven
    obtain ⟨silent, isAll⟩ : spoken budget newest older <+: given budget newest older :=
      spoken_isPrefix
    have isPrefix : newer ++ [turn] <+: given budget newest older :=
      ⟨later, by rw [isKept, append_assoc]; rfl⟩
    by_cases isSpoken : newer ++ [turn] <+: spoken budget newest older
    · have fits := (prefix_affordable_iff furtherCost_nonneg isPrefix (by simp)).mp isSpoken
      omega
    · -- the texts end before this turn, so what stands behind it is silent
      have shorter : spoken budget newest older <+: newer ++ [turn] :=
        (List.prefix_or_prefix_of_prefix isPrefix spoken_isPrefix).resolve_left isSpoken
      obtain ⟨between, isBetween⟩ := shorter
      have isSilent : silent = between ++ later := by
        have same : spoken budget newest older ++ silent =
            spoken budget newest older ++ (between ++ later) := by
          rw [isAll, isKept, ← append_assoc, isBetween, append_assoc]
          rfl
        exact append_cancel_left same
      exact absurd (heard silent isAll.symm quiet
        (by rw [isSilent]; exact mem_append_right _ isLater) isQuiet) speaks

end

variable {found : List Turn} {tokenBudget : ℤ} {entry : WindowMessage} {threadId : String}
  {silent : List Layers}

section

variable (wording : Wording) (now : Instant)

def TextsReachIn (budget : ℤ) (found : List Turn) : Prop :=
  ∀ newest older, found.map (Layers.of wording now) = newest :: older →
    TextsReach budget newest older

variable {wording now} {messages : List Message} {maxTurns : Option ℤ} {newest : Layers}
  {older : List Layers}

theorem keptTurns_map (tokenBudget : ℤ)
    (isFound : found.map (Layers.of wording now) = newest :: older) :
    (keptTurns wording now tokenBudget found).map (Layers.of wording now) =
      newest :: given tokenBudget newest older := by
  simp only [keptTurns, isFound, cores_eq]
  rw [map_take, isFound, Nat.add_comm, take_succ_cons]
  exact congrArg _ (prefix_iff_eq_take.mp affordable_isPrefix).symm

theorem keptTurns_isPrefix (tokenBudget : ℤ) (found : List Turn) :
    keptTurns wording now tokenBudget found <+: found := by
  rw [keptTurns]
  split
  · exact nil_prefix
  · exact take_prefix _ _

theorem mem_keptTurns {layers : Layers}
    (isFound : found.map (Layers.of wording now) = newest :: older)
    (member : layers ∈ newest :: given tokenBudget newest older) :
    ∃ turn ∈ keptTurns wording now tokenBudget found, Layers.of wording now turn = layers := by
  rw [← keptTurns_map tokenBudget isFound] at member
  exact mem_map.mp member

theorem id_of_messages {turn : Turn} {text all : Bool}
    (member : entry ∈ (Layers.of wording now turn).messages text all) :
    ∃ m ∈ turn.flatMap Piece.messages, m.messageId = entry.messageId := by
  obtain ⟨m, isSaid, rfl⟩ := mem_map.mp member
  refine ⟨m, ?_, rfl⟩
  split at isSaid
  · exact isSaid
  · split at isSaid
    · exact (mem_filter.mp isSaid).1
    · cases isSaid

section

variable (isRead : (turnsRead messages maxTurns).map (Layers.of wording now) = newest :: older)
include isRead

theorem turn_of_shown (member : entry ∈
      (replayWindow wording threadId messages tokenBudget maxTurns now).messages) :
    ∃ layers ∈ newest :: spoken tokenBudget newest older,
      ∃ m ∈ layers.whole, m.messageId = entry.messageId := by
  have fromTurn : ∃ layers ∈ newest :: spoken tokenBudget newest older,
      ∃ text all, entry ∈ layers.messages text all := by
    rw [(replayWindow_eq threadId tokenBudget isRead).1, mem_append, mem_flatMap] at member
    rcases member with ⟨layers, isSpoken, member⟩ | member
    · exact ⟨layers, mem_cons_of_mem _ (mem_reverse.mp isSpoken), _, _, member⟩
    · exact ⟨newest, mem_cons_self, _, _, member⟩
  obtain ⟨layers, isSpoken, text, all, member⟩ := fromTurn
  have isGiven : layers ∈ newest :: given tokenBudget newest older :=
    cons_subset_cons _ spoken_isPrefix.subset isSpoken
  obtain ⟨turn, -, rfl⟩ := mem_keptTurns isRead isGiven
  exact ⟨_, isSpoken, id_of_messages member⟩

theorem gives_cores_of_textsReach (reach : TextsReach tokenBudget newest older) :
    GivesCores wording now
      (replayWindow wording threadId messages tokenBudget maxTurns now)
      (turnsRead messages maxTurns)
      (keptTurns wording now tokenBudget (turnsRead messages maxTurns)) := by
  obtain ⟨isShown, isRecord, -⟩ := replayWindow_eq threadId tokenBudget isRead
  refine ⟨keptTurns_isPrefix _ _, ?_, ?_, ?_⟩
  · intro entry member
    obtain ⟨layers, isSpoken, m, ofWhole, isSame⟩ := turn_of_shown isRead member
    obtain ⟨turn, isTurn, rfl⟩ := mem_keptTurns isRead
      (cons_subset_cons _ spoken_isPrefix.subset isSpoken)
    exact ⟨turn, isTurn, m, ofWhole, isSame⟩
  · rw [isRecord, ← keptTurns_map tokenBudget isRead, record_eq]
  · intro turn isKept isQuiet
    have none_ := (steps_of_eq_none_iff wording now turn).mpr isQuiet
    have member := mem_map_of_mem (f := Layers.of wording now) isKept
    rw [keptTurns_map tokenBudget isRead] at member
    rw [isShown]
    rcases mem_cons.mp member with isNewest | isGiven
    · have partly : fullyGiven tokenBudget newest older = false := by
        rw [fullyGiven, ← isNewest, none_]
        rfl
      rw [partly, ← isNewest]
      exact (suffix_append _ _).isInfix
    · obtain ⟨silent, isAll⟩ :
        spoken tokenBudget newest older <+: given tokenBudget newest older :=
        spoken_isPrefix
      rw [← isAll] at isGiven
      rcases mem_append.mp isGiven with isSpoken | isSilent
      · refine List.IsInfix.trans ?_ (prefix_append _ _).isInfix
        rw [flatMap_def]
        exact infix_of_mem_flatten (mem_map.mpr ⟨_, mem_reverse.mpr isSpoken, rfl⟩)
      · have empty : sayings turn = [] := textsReach_iff.mp reach silent isAll.symm _ isSilent none_
        rw [empty]
        exact nil_infix

end

theorem textsReach_of_gives_cores (distinct : (messageIds messages).Nodup)
    (isRead : (turnsRead messages maxTurns).map (Layers.of wording now) = newest :: older)
    (gives : GivesCores wording now
      (replayWindow wording threadId messages tokenBudget maxTurns now)
      (turnsRead messages maxTurns)
      (keptTurns wording now tokenBudget (turnsRead messages maxTurns))) :
    TextsReach tokenBudget newest older := by
  refine textsReach_iff.mpr fun silent isGiven quiet isSilent isQuiet => ?_
  by_contra speaks
  obtain ⟨m, isSaid⟩ := exists_mem_of_ne_nil _ speaks
  have isKept : quiet ∈ newest :: given tokenBudget newest older := by
    rw [isGiven]
    exact mem_cons_of_mem _ (mem_append_right _ isSilent)
  obtain ⟨turn, isTurn, rfl⟩ := mem_keptTurns isRead isKept
  have heard := (gives.said turn isTurn ((steps_of_eq_none_iff wording now turn).mp isQuiet)).subset
    (mem_map_of_mem isSaid)
  obtain ⟨layers, isSpoken, same, ofWhole, isSame⟩ := turn_of_shown isRead heard
  have apart : (messageIds ((newest :: spoken tokenBudget newest older).flatMap
      Layers.whole ++ silent.flatMap Layers.whole)).Nodup := by
    have isAll : (newest :: spoken tokenBudget newest older).flatMap Layers.whole ++
        silent.flatMap Layers.whole =
          turnMessages (keptTurns wording now tokenBudget (turnsRead messages maxTurns)) := by
      rw [← flatMap_append, cons_append, ← isGiven, ← keptTurns_map tokenBudget isRead, flatMap_map]
      rfl
    rw [isAll]
    obtain ⟨dropped, isFound⟩ :
        keptTurns wording now tokenBudget (turnsRead messages maxTurns) <+:
          turnsRead messages maxTurns := keptTurns_isPrefix _ _
    have whole := ids_of_turnsRead maxTurns distinct
    rw [← isFound, turnMessages, flatMap_append, messageIds, map_append] at whole
    exact whole.sublist (sublist_append_left _ _)
  rw [messageIds, map_append] at apart
  have fromSpoken : m.messageId ∈ messageIds ((newest :: spoken tokenBudget newest older).flatMap
      Layers.whole) :=
    mem_map.mpr ⟨same, mem_flatMap.mpr ⟨layers, isSpoken, ofWhole⟩, isSame⟩
  have fromSilent : m.messageId ∈ messageIds (silent.flatMap Layers.whole) :=
    mem_map_of_mem (mem_flatMap.mpr ⟨_, isSilent, (mem_filter.mp isSaid).1⟩)
  exact (nodup_append.mp apart).2.2 _ fromSpoken _ fromSilent rfl

theorem cost_of_record (kept : List Turn) :
    total (fun list => (estimateTokens list : ℤ)) (recordedSteps wording now kept) =
      total stepsCost (kept.map (Layers.of wording now)) := by
  rw [recordedSteps, total_map, ← total_reverse (kept.map _), ← map_reverse]
  induction kept.reverse with
  | nil => rfl
  | cons turn others ih =>
    rw [map_cons, total_cons, stepsCost, steps_of]
    by_cases quiet : steps turn = []
    · rw [if_pos quiet, filter_cons_of_neg (by simpa using quiet), ih]
      exact (Int.zero_add _).symm
    · rw [if_neg quiet, filter_cons_of_pos (by simpa using quiet), total_cons, ih]
      rfl

theorem estimate_eq (threadId : String)
    (isRead : (turnsRead messages maxTurns).map (Layers.of wording now) = newest :: older)
    (isGiven : given tokenBudget newest older = spoken tokenBudget newest older ++ silent) :
    let window := replayWindow wording threadId messages tokenBudget maxTurns now
    window.tokenEstimate =
      total (fun list => (estimateTokens list : ℤ))
          (recordedSteps wording now (keptTurns wording now tokenBudget
            (turnsRead messages maxTurns))) +
        total WindowMessage.tokens window.messages + total quietCost silent := by
  intro window
  obtain ⟨isShown, -, isEstimate, -⟩ := replayWindow_eq threadId tokenBudget isRead
  have texts : total WindowMessage.tokens
      ((spoken tokenBudget newest older).reverse.flatMap (Layers.messages · true false)) =
        total furtherCost (spoken tokenBudget newest older) +
          total quietCost (spoken tokenBudget newest older) := by
    rw [total_flatMap, total_reverse, ← total_add]
    exact congrArg (total · _) (funext fun turn => turn.tokens_messages.trans turn.textCost_split)
  have newestText : total WindowMessage.tokens
      (newest.messages true (fullyGiven tokenBudget newest older)) =
        newest.textCost +
          if fullyGiven tokenBudget newest older then newest.wholeCost else 0 := by
    cases fullyGiven tokenBudget newest older with
    | true => exact newest.tokens_messages_whole
    | false => exact newest.tokens_messages.trans (Int.add_zero _).symm
  have coreCosts : total coreCost (given tokenBudget newest older) =
      total stepsCost (given tokenBudget newest older) +
        (total quietCost (spoken tokenBudget newest older) + total quietCost silent) := by
    rw [← total_append, ← isGiven, ← total_add]
    exact congrArg (total · _) (funext coreCost_eq)
  rw [isEstimate, isShown, total_append, texts, newestText, cost_of_record,
    keptTurns_map tokenBudget isRead, total_cons, usedTexts, coreCosts, newestCost]
  omega

theorem alone_of_over
    (isRead : (turnsRead messages maxTurns).map (Layers.of wording now) = newest :: older)
    (beyond : (replayWindow wording threadId messages tokenBudget maxTurns now).overBudget) :
    given tokenBudget newest older = [] ∧ fullyGiven tokenBudget newest older = false := by
  rw [(replayWindow_eq threadId tokenBudget isRead).2.2.2, decide_eq_true_eq] at beyond
  cases isFull : fullyGiven tokenBudget newest older with
  | true =>
    have fits := isFull
    rw [fullyGiven, Bool.and_eq_true, decide_eq_true_eq] at fits
    rw [isFull, if_pos rfl] at beyond
    exact absurd beyond (Int.not_lt.mpr fits.2)
  | false =>
    rw [isFull, if_neg (by decide), Int.add_zero] at beyond
    refine ⟨by_contra fun some_ => ?_, rfl⟩
    exact absurd beyond (Int.not_lt.mpr (texts_fit some_))

end

section

variable {wording : Wording} {now : Instant} {threadId : String} {messages : List Message}
  {tokenBudget : ℤ} {maxTurns : Option ℤ} {newest : Layers} {older : List Layers}

theorem textsReach_iff_total
    (isGiven : given tokenBudget newest older = spoken tokenBudget newest older ++ silent) :
    TextsReach tokenBudget newest older ↔ total quietCost silent = 0 := by
  rw [textsReach_iff, total_eq_zero_iff quietCost_nonneg]
  constructor
  · exact fun heard turn isSilent =>
      turn.quietCost_eq_zero_iff.mpr (heard silent isGiven turn isSilent)
  · intro nothing others isOthers quiet isSilent
    obtain rfl := append_cancel_left (isGiven.symm.trans isOthers)
    exact quiet.quietCost_eq_zero_iff.mp (nothing quiet isSilent)

theorem accounted_iff_textsReach
    (isRead : (turnsRead messages maxTurns).map (Layers.of wording now) = newest :: older) :
    Accounted wording now
        (replayWindow wording threadId messages tokenBudget maxTurns now)
        (turnsRead messages maxTurns)
        (keptTurns wording now tokenBudget (turnsRead messages maxTurns)) tokenBudget ↔
      TextsReach tokenBudget newest older := by
  obtain ⟨silent, isAll⟩ : spoken tokenBudget newest older <+:
      given tokenBudget newest older := spoken_isPrefix
  have isEstimate := estimate_eq threadId isRead isAll.symm
  obtain ⟨isShown, isRecord, isUsed, isOver⟩ := replayWindow_eq threadId tokenBudget isRead
  rw [textsReach_iff_total isAll.symm]
  constructor
  · intro accounted
    have paid := accounted.estimate
    omega
  · intro nothing
    refine ⟨?_, ?_, ?_, ?_⟩
    · rw [isRecord, ← keptTurns_map tokenBudget isRead, record_eq]
    · rw [isEstimate, nothing, Int.add_zero]
    · intro beyond
      rw [isOver, ← isUsed]
      exact decide_eq_true beyond
    · intro beyond
      obtain ⟨none_, partly⟩ := alone_of_over isRead beyond
      have noTexts : spoken tokenBudget newest older = [] := prefix_nil.mp (none_ ▸ spoken_isPrefix)
      rw [noTexts, partly] at isShown
      rw [none_] at isRecord
      cases isFound : turnsRead messages maxTurns with
      | nil =>
        rw [isFound] at isRead
        cases isRead
      | cons first others =>
        rw [isFound] at isRead
        obtain ⟨rfl, -⟩ := cons_eq_cons.mp isRead
        refine ⟨first, rfl, isShown, ?_⟩
        rw [isRecord, reverse_singleton, filterMap_cons, steps_of]
        by_cases quiet : steps first = []
        · rw [if_pos quiet, (stepsList_eq_empty_iff wording now first).mpr quiet]
          rfl
        · rw [if_neg quiet]
          exact String.intercalate_singleton

end

section

variable (wording : Wording) (now : Instant) (threadId : String) (messages : List Message)
  (tokenBudget : ℤ) (maxTurns : Option ℤ)

/-- The kept turns give their cores in exactly the windows where the texts reach the turns that
made no call. -/
theorem kept_turns_give_cores :
    let found := turnsRead messages maxTurns
    let GivesTheirs := GivesCores wording now
      (replayWindow wording threadId messages tokenBudget maxTurns now) found
      (keptTurns wording now tokenBudget found)
    (TextsReachIn wording now tokenBudget found → GivesTheirs) ∧
      ((messageIds messages).Nodup → GivesTheirs → TextsReachIn wording now tokenBudget found) := by
  constructor
  · intro reach
    cases isRead : (turnsRead messages maxTurns).map (Layers.of wording now) with
    | nil =>
      have none_ := map_eq_nil_iff.mp isRead
      rw [replayWindow_nil threadId tokenBudget none_, none_]
      exact ⟨List.nil_prefix, nofun, rfl, nofun⟩
    | cons newest older => exact gives_cores_of_textsReach isRead (reach newest older isRead)
  · intro distinct gives newest older isRead
    exact textsReach_of_gives_cores distinct isRead gives

/-- The estimate is the cost of what is given in exactly the same windows, where no budget is
overdrawn for nothing. -/
theorem window_accounted_iff :
    Accounted wording now
        (replayWindow wording threadId messages tokenBudget maxTurns now)
        (turnsRead messages maxTurns)
        (keptTurns wording now tokenBudget (turnsRead messages maxTurns)) tokenBudget ↔
      (turnsRead messages maxTurns = [] → 0 ≤ tokenBudget) ∧
        TextsReachIn wording now tokenBudget (turnsRead messages maxTurns) := by
  cases isRead : (turnsRead messages maxTurns).map (Layers.of wording now) with
  | nil =>
    have none_ := map_eq_nil_iff.mp isRead
    have nothing : TextsReachIn wording now tokenBudget [] := nofun
    rw [replayWindow_nil threadId tokenBudget none_, none_]
    constructor
    · intro accounted
      refine ⟨fun _ => ?_, nothing⟩
      by_contra negative
      cases accounted.reported (Int.not_le.mp negative)
    · rintro ⟨isBudget, -⟩
      exact ⟨rfl, rfl, fun beyond => absurd (isBudget rfl) (Int.not_le.mpr beyond), nofun⟩
  | cons newest older =>
    have some_ : turnsRead messages maxTurns ≠ [] := by
      intro none_
      rw [none_] at isRead
      cases isRead
    have reaches : TextsReachIn wording now tokenBudget (turnsRead messages maxTurns) ↔
        TextsReach tokenBudget newest older := by
      constructor
      · exact fun reach => reach newest older isRead
      · intro reach _ _ isOther
        rw [isRead] at isOther
        cases isOther
        exact reach
    rw [reaches, accounted_iff_textsReach isRead]
    exact ⟨fun reach => ⟨fun none_ => absurd none_ some_, reach⟩, And.right⟩

end

/-- A question that nobody answered, a question that was looked up and answered at length, and
the newest question. -/
def unanswered : List Message :=
  let call : MessageToolCall := { id := "c1", name := "weather", arguments := [] }
  [ messageOf "m1" .user 1 "Rome?",
    messageOf "m2" .user 2 "rain?",
    { messageOf "m3" .assistant 3 "" with toolCalls := [call] },
    { messageOf "m4" .tool 4 "no" with kind := .internal, toolCallId := some "c1" },
    messageOf "m5" .assistant 5 "No rain is expected before the evening, and little after it.",
    messageOf "m6" .user 6 "why?" ]

theorem unanswered_question_is_lost :
    (messageIds unanswered).Nodup ∧
      ¬ GivesCores asciiWording ⟨8⟩
        (replayWindow asciiWording "thr_1" unanswered 32 none ⟨8⟩) (turnsRead unanswered none)
        (keptTurns asciiWording ⟨8⟩ 32 (turnsRead unanswered none)) := by
  refine ⟨by decide, fun gives => ?_⟩
  have isKept : (keptTurns asciiWording ⟨8⟩ 32 (turnsRead unanswered none)).map
      (fun turn => ((steps turn).isEmpty, messageIds (sayings turn))) =
        [(true, ["m6"]), (false, ["m2", "m5"]), (true, ["m1"])] := by
    decide +kernel
  have isGiven : (replayWindow asciiWording "thr_1" unanswered 32 none ⟨8⟩).messages.map
      WindowMessage.messageId = ["m6"] := by
    decide +kernel
  have third : (true, ["m1"]) ∈ (keptTurns asciiWording ⟨8⟩ 32 (turnsRead unanswered none)).map
      (fun turn => ((steps turn).isEmpty, messageIds (sayings turn))) := by
    rw [isKept]
    decide
  obtain ⟨turn, member, isThird⟩ := mem_map.mp third
  obtain ⟨isQuiet, isSaying⟩ := Prod.mk.inj isThird
  have isSaid : "m1" ∈ messageIds (sayings turn) := by
    rw [isSaying]
    exact mem_singleton_self _
  obtain ⟨m, isSaying, isFirst⟩ := mem_map.mp isSaid
  have shownIt := (gives.said turn member (isEmpty_iff.mp isQuiet)).subset (mem_map_of_mem isSaying)
  have among := mem_map_of_mem (f := WindowMessage.messageId) shownIt
  rw [isGiven] at among
  exact absurd (isFirst.symm.trans (mem_singleton.mp among)) (by decide)

theorem unanswered_question_is_charged :
    ¬ Accounted asciiWording ⟨8⟩
      (replayWindow asciiWording "thr_1" unanswered 32 none ⟨8⟩) (turnsRead unanswered none)
      (keptTurns asciiWording ⟨8⟩ 32 (turnsRead unanswered none)) 32 := by
  intro accounted
  have isEstimate : (replayWindow asciiWording "thr_1" unanswered 32 none ⟨8⟩).tokenEstimate =
      19 := by
    decide +kernel
  have isCost : total (fun list => (estimateTokens list : ℤ)) (recordedSteps asciiWording ⟨8⟩
      (keptTurns asciiWording ⟨8⟩ 32 (turnsRead unanswered none))) +
        total WindowMessage.tokens
          (replayWindow asciiWording "thr_1" unanswered 32 none ⟨8⟩).messages = 14 := by
    decide +kernel
  have paid := accounted.estimate
  rw [isEstimate, isCost] at paid
  exact absurd paid (by decide)

end MemoryService.Context
