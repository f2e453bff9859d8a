import MemoryService.Memory.Figures

/-!
# Merges of statements that say different things

A memory that is weighed by its wording, its vectors or the model is merged only where its
figures and its negation are the candidate's.
-/

namespace MemoryService.Memory.Consolidation

open Domain Foundation Subjects List Option

def DedupDecision.joins (decision : DedupDecision) : Bool :=
  decision = .reinforce || decision = .merge

variable {memories : List CanonicalMemory} {pairs : CanonicalMemory → SubjectPair}
  {askable : List (CanonicalMemory × Rat)} {asked : CanonicalMemory × Rat}

section

variable (reader : Reader) (settings : MemoryIntelligenceSettings)
  (candidate : MemoryCandidate) (ctx : MemoryExecutionContext)

def reinforcedByRule (pair : SubjectPair) (mem : CanonicalMemory) : Prop :=
  passedOver candidate mem = false ∧
    (mem.normalizedHash = reader.normalizedHash candidate.content ∨
      verbatim candidate mem = false ∧ sameSlot candidate pair mem = true ∧
        sameValue reader candidate mem = true)

def ruled (pair : SubjectPair) (mem : CanonicalMemory) : Bool :=
  !passedOver candidate mem &&
    (mem.normalizedHash = reader.normalizedHash candidate.content ||
      !verbatim candidate mem && sameSlot candidate pair mem &&
        (sameValue reader candidate mem ||
          bothValued reader candidate mem && isSingleValued candidate.predicate ||
          candidate.negatesPrior && replacementOverlap ≤
            jaccard (reader.tokens candidate.content) (reader.tokens mem.content)))

def firstRuled (existing : List CanonicalMemory) : Option CanonicalMemory :=
  (ownFirst ctx existing).find? fun mem =>
    ruled reader candidate (reader.pairs candidate (ownFirst ctx existing) mem) mem

variable {reader settings candidate ctx} {pair : SubjectPair} {mem : CanonicalMemory}
  {outcome : ConsolidationOutcome}

theorem settled_isSome :
    (settled reader candidate ctx pair mem).isSome = ruled reader candidate pair mem := by
  unfold settled ruled
  split_ifs with passed sameWords literally slot equal newValue shared replaces
  all_goals simp_all

theorem settled_of_reinforcedByRule (reinforced : reinforcedByRule reader candidate pair mem) :
    settled reader candidate ctx pair mem = some (.on .reinforce mem) := by
  obtain ⟨compared, sameWords | ⟨worded, slot, equal⟩⟩ := reinforced
  · rw [settled, compared, if_neg Bool.false_ne_true, if_pos sameWords]
  · rw [settled, compared, worded, slot, equal, if_neg Bool.false_ne_true,
      if_neg Bool.false_ne_true, if_pos rfl, if_pos rfl, ite_self]

theorem adjudicate_joins {native same : ConsolidationOutcome}
    (joins : (adjudicate reader candidate mem native same).decision.joins = true) :
    adjudicate reader candidate mem native same = native ∨
      adjudicate reader candidate mem native same = same ∧
        sameFigures reader candidate mem = true := by
  revert joins
  rw [adjudicate]
  split
  · exact fun _ => .inl rfl
  · split
    case isFalse _ => exact fun _ => .inl rfl
    case isTrue sameFigures =>
      split
      · exact fun _ => .inr ⟨rfl, sameFigures⟩
      · intro joins
        cases joins
      · intro joins
        cases joins
      · exact fun _ => .inl rfl

theorem settled_joins (isSettled : settled reader candidate ctx pair mem = some outcome)
    (joins : outcome.decision.joins = true) :
    outcome.targetMemoryId = some mem.memoryId ∧
      (reinforcedByRule reader candidate pair mem ∨ sameFigures reader candidate mem = true) := by
  unfold settled at isSettled
  split_ifs at isSettled with passed sameWords literally slot equal newValue shared replaces
  · rw [← some.inj isSettled]
    exact ⟨rfl, .inl ⟨Bool.eq_false_iff.mpr passed, .inl sameWords⟩⟩
  · rw [← some.inj isSettled]
    exact ⟨rfl, .inl ⟨Bool.eq_false_iff.mpr passed,
      .inr ⟨Bool.eq_false_iff.mpr literally, slot, equal⟩⟩⟩
  · rw [← some.inj isSettled] at joins ⊢
    rcases adjudicate_joins joins with isNative | ⟨isSame, sameFigures⟩
    · rw [isNative] at joins
      cases joins
    · rw [isSame]
      exact ⟨rfl, .inr sameFigures⟩
  · rw [← some.inj isSettled] at joins
    cases joins
  · rw [← some.inj isSettled] at joins
    cases joins

def Guarded (reader : Reader) (candidate : MemoryCandidate) (memories : List CanonicalMemory)
    (outcome : ConsolidationOutcome) : Prop :=
  ∃ mem ∈ memories, outcome.targetMemoryId = some mem.memoryId ∧
    sameFigures reader candidate mem = true

theorem mergeOrReinforce_target (reader : Reader) (candidate : MemoryCandidate)
    (mem : CanonicalMemory) :
    (mergeOrReinforce reader candidate mem).targetMemoryId = some mem.memoryId := by
  rw [mergeOrReinforce]
  split <;> rfl

theorem better_guarded {score : Rat} {best : Option (ConsolidationOutcome × Rat)}
    (guarded : ∀ found ∈ best, Guarded reader candidate memories found.1)
    (isGuarded : Guarded reader candidate memories outcome) :
    ∀ found ∈ better best outcome score, Guarded reader candidate memories found.1 := by
  intro found isFound
  rw [better] at isFound
  split at isFound
  · rw [← some.inj isFound]
    exact isGuarded
  · exact guarded found isFound

/-- What is weighed so far: the best is guarded, and what is kept for later is a memory. -/
structure Weighed (reader : Reader) (candidate : MemoryCandidate)
    (memories : List CanonicalMemory) (weighing : Weighing) : Prop where
  best : ∀ found ∈ weighing.best, Guarded reader candidate memories found.1
  askable : ∀ asked ∈ weighing.askable, asked.1 ∈ memories
  denseBand : ∀ mem ∈ weighing.denseBand, mem ∈ memories

theorem weigh_weighed {weighing : Weighing}
    (weighed : Weighed reader candidate memories weighing) (member : mem ∈ memories) :
    Weighed reader candidate memories (weigh reader settings candidate pair weighing mem) := by
  rw [weigh]
  dsimp only
  split
  case isTrue _ => exact weighed
  case isFalse _ =>
    split
    case isTrue _ =>
      split
      case isTrue sameFigures =>
        refine ⟨better_guarded weighed.best ?_, weighed.askable, weighed.denseBand⟩
        exact ⟨mem, member, mergeOrReinforce_target reader candidate mem, sameFigures⟩
      case isFalse _ => exact weighed
    case isFalse _ =>
      refine ⟨weighed.best, ?_, ?_⟩
      · dsimp only
        split
        · intro asked isAsked
          rcases mem_concat.mp isAsked with earlier | rfl
          · exact weighed.askable asked earlier
          · exact member
        · exact weighed.askable
      · dsimp only
        split
        · intro other isOther
          rcases mem_concat.mp isOther with earlier | rfl
          · exact weighed.denseBand other earlier
          · exact member
        · exact weighed.denseBand

theorem foldl_weigh_weighed {pairs : CanonicalMemory → SubjectPair}
    {memories : List CanonicalMemory} :
    ∀ {rest : List CanonicalMemory} {weighing : Weighing}, rest ⊆ memories →
      Weighed reader candidate memories weighing →
      Weighed reader candidate memories (rest.foldl
        (fun weighing mem => weigh reader settings candidate (pairs mem) weighing mem) weighing)
  | [], _, _, weighed => weighed
  | mem :: rest, _, within, weighed => by
    have restWithin : rest ⊆ memories := fun _ later => within (mem_cons_of_mem mem later)
    rw [foldl_cons]
    exact foldl_weigh_weighed restWithin (weigh_weighed weighed (within mem_cons_self))

theorem foldl_densely_guarded {cosine : String → String → Rat} :
    ∀ {band : List CanonicalMemory} {best : Option (ConsolidationOutcome × Rat)},
      band ⊆ memories → (∀ found ∈ best, Guarded reader candidate memories found.1) →
      ∀ found ∈ band.foldl (densely reader settings candidate cosine) best,
        Guarded reader candidate memories found.1
  | [], _, _, guarded => guarded
  | mem :: rest, best, within, guarded => by
    have restWithin : rest ⊆ memories := fun _ later => within (mem_cons_of_mem mem later)
    rw [foldl_cons]
    refine foldl_densely_guarded restWithin ?_
    unfold densely
    dsimp only
    split
    case isTrue close =>
      exact better_guarded guarded ⟨mem, within mem_cons_self, rfl, close.2⟩
    case isFalse _ => exact guarded

theorem mem_of_closest (isClosest : closest pairs askable = some asked) : asked ∈ askable := by
  rw [closest] at isClosest
  exact (mem_filter.mp (argmax_mem isClosest)).1

theorem mem_of_uncertain
    (isAsked : uncertain reader candidate pairs askable = some asked) : asked ∈ askable := by
  rw [uncertain] at isAsked
  cases isClosest : closest pairs askable with
  | none =>
    rw [isClosest] at isAsked
    exact mem_of_closest isAsked
  | some other =>
    rw [isClosest] at isAsked
    rw [← some.inj isAsked]
    exact mem_of_closest isClosest

theorem weighed_guarded {ordered : List CanonicalMemory}
    (joins : (weighed reader settings candidate pairs ordered).decision.joins = true) :
    Guarded reader candidate ordered (weighed reader settings candidate pairs ordered) := by
  have start : Weighed reader candidate ordered {} := by
    refine ⟨?_, ?_, ?_⟩
    · intro _ impossible
      cases impossible
    · intro _ impossible
      cases impossible
    · intro _ impossible
      cases impossible
  have all := @foldl_weigh_weighed reader settings candidate pairs _ _ _ (List.Subset.refl ordered)
    start
  revert joins
  unfold weighed
  dsimp only
  split
  case h_1 outcome score isBest =>
    intro _
    split at isBest
    · exact all.best _ isBest
    · exact foldl_densely_guarded all.denseBand all.best _ isBest
  case h_2 _ =>
    split
    · intro joins
      cases joins
    · rename_i asked _ isAsked
      intro joins
      rcases adjudicate_joins joins with isCreate | ⟨isSame, sameFigures⟩
      · rw [isCreate] at joins
        cases joins
      · rw [isSame]
        exact ⟨_, all.askable _ (mem_of_uncertain isAsked), mergeOrReinforce_target _ _ _,
          sameFigures⟩

theorem mem_ownFirst {existing : List CanonicalMemory} :
    mem ∈ ownFirst ctx existing ↔ mem ∈ existing := by
  rw [ownFirst, mem_append, mem_filter, mem_filter]
  by_cases isOwn : mem.ownerPrincipal = ctx.principalId
  · simp [isOwn]
  · simp [isOwn]

theorem consolidate_of_none {existing : List CanonicalMemory} (nonempty : existing ≠ [])
    (noRule : firstRuled reader candidate ctx existing = none) :
    consolidate reader settings candidate ctx existing =
      weighed reader settings candidate (reader.pairs candidate (ownFirst ctx existing))
        (ownFirst ctx existing) := by
  have unsettled : ((ownFirst ctx existing).findSome? fun mem => settled reader candidate ctx
      (reader.pairs candidate (ownFirst ctx existing) mem) mem) = none := by
    rw [findSome?_eq_none_iff]
    intro mem member
    have notRuled := find?_eq_none.mp noRule mem member
    rw [← @settled_isSome reader candidate ctx, Bool.not_eq_true, isSome_eq_false_iff,
      isNone_iff_eq_none] at notRuled
    exact notRuled
  rw [consolidate, if_neg nonempty]
  dsimp only
  rw [unsettled, getD_none]

theorem consolidate_of_ruled {existing : List CanonicalMemory}
    (isFirst : firstRuled reader candidate ctx existing = some mem) :
    mem ∈ existing ∧ settled reader candidate ctx
      (reader.pairs candidate (ownFirst ctx existing) mem) mem =
        some (consolidate reader settings candidate ctx existing) := by
  obtain ⟨isRuled, before, after, whole, earlier⟩ := find?_eq_some_iff_append.mp isFirst
  have member : mem ∈ existing := by
    rw [← @mem_ownFirst ctx, whole]
    exact mem_append_right _ mem_cons_self
  rw [← @settled_isSome reader candidate ctx] at isRuled
  obtain ⟨outcome, isSettled⟩ := isSome_iff_exists.mp isRuled
  have found : ((ownFirst ctx existing).findSome? fun mem => settled reader candidate ctx
      (reader.pairs candidate (ownFirst ctx existing) mem) mem) = some outcome := by
    rw [findSome?_eq_some_iff]
    refine ⟨before, mem, after, whole, isSettled, fun other isEarlier => ?_⟩
    have notRuled := earlier other isEarlier
    rw [← @settled_isSome reader candidate ctx, Bool.not_eq_true', isSome_eq_false_iff,
      isNone_iff_eq_none] at notRuled
    exact notRuled
  refine ⟨member, ?_⟩
  rw [consolidate, if_neg (ne_nil_of_mem member)]
  dsimp only
  rw [found, getD_some, isSettled]

theorem joins_guarded_iff {existing : List CanonicalMemory}
    (unique : (existing.map CanonicalMemory.memoryId).Nodup) :
    (∀ mem ∈ existing, (consolidate reader settings candidate ctx existing).decision.joins = true →
        (consolidate reader settings candidate ctx existing).targetMemoryId =
          some mem.memoryId → sameFigures reader candidate mem = true) ↔
      ∀ mem ∈ firstRuled reader candidate ctx existing,
        reinforcedByRule reader candidate (reader.pairs candidate (ownFirst ctx existing) mem) mem →
          sameFigures reader candidate mem = true := by
  have sameMemory : ∀ {mem other : CanonicalMemory}, mem ∈ existing → other ∈ existing →
      mem.memoryId = other.memoryId → mem = other :=
    fun member isOther same => inj_on_of_nodup_map unique member isOther same
  cases isFirst : firstRuled reader candidate ctx existing with
  | none =>
    refine iff_of_true ?_ fun _ impossible => by cases impossible
    intro mem member joins isTarget
    rw [consolidate_of_none (ne_nil_of_mem member) isFirst] at joins isTarget
    obtain ⟨other, isOther, sameTarget, sameFigures⟩ := weighed_guarded joins
    have sameId := some.inj (isTarget.symm.trans sameTarget)
    rw [sameMemory member (mem_ownFirst.mp isOther) sameId]
    exact sameFigures
  | some first =>
    obtain ⟨isStored, isSettled⟩ := @consolidate_of_ruled reader settings _ _ _ _ isFirst
    constructor
    · intro guarded mem isMem reinforced
      obtain rfl := some.inj isMem
      have isReinforced := some.inj (isSettled.symm.trans (settled_of_reinforcedByRule reinforced))
      refine guarded first isStored ?_ ?_
      · rw [isReinforced]
        rfl
      · rw [isReinforced]
        rfl
    · intro guarded mem member joins isTarget
      obtain ⟨sameTarget, byRule⟩ := settled_joins isSettled joins
      rw [sameMemory member isStored (some.inj (isTarget.symm.trans sameTarget))]
      rcases byRule with reinforced | sameFigures
      · exact guarded first rfl reinforced
      · exact sameFigures

end

/-- The consolidator joins a candidate with memories of its figures and its negation only, exactly
when the first memory that a rule settles has them where it is reinforced for its words or for
the value of its slot. -/
theorem no_false_merge_iff (unicode : Unicode) (contentHash : String → Digest)
    (spelled : Option String → Option String → Bool)
    (pairs withVectors : MemoryCandidate → List CanonicalMemory → CanonicalMemory → SubjectPair)
    (cosine : Option (String → String → Rat))
    (assist : Option (MemoryCandidate → CanonicalMemory → ConflictVerdict))
    (settings : MemoryIntelligenceSettings) (candidate : MemoryCandidate)
    (ctx : MemoryExecutionContext) (existing : List CanonicalMemory)
    (unique : (existing.map CanonicalMemory.memoryId).Nodup) :
    let reader := Reader.native unicode contentHash spelled pairs withVectors cosine assist
    let outcome := consolidate reader settings candidate ctx existing
    (∀ mem ∈ existing, outcome.decision.joins = true →
        outcome.targetMemoryId = some mem.memoryId →
        Native.figures unicode mem.content.toList =
            Native.figures unicode candidate.content.toList ∧
          Native.hasNegation unicode mem.content.toList =
            Native.hasNegation unicode candidate.content.toList) ↔
      ∀ mem ∈ firstRuled reader candidate ctx existing,
        reinforcedByRule reader candidate (pairs candidate (ownFirst ctx existing) mem) mem →
          Native.figures unicode mem.content.toList =
              Native.figures unicode candidate.content.toList ∧
            Native.hasNegation unicode mem.content.toList =
              Native.hasNegation unicode candidate.content.toList := by
  intro reader outcome
  have figures_iff : ∀ mem, sameFigures reader candidate mem = true ↔
      Native.figures unicode mem.content.toList = Native.figures unicode candidate.content.toList ∧
        Native.hasNegation unicode mem.content.toList =
          Native.hasNegation unicode candidate.content.toList :=
    fun mem => decide_eq_true_iff
  have joins := @joins_guarded_iff reader settings candidate ctx existing unique
  simp only [figures_iff] at joins
  exact joins

def livedIn (object content : String) : MemoryCandidate where
  content := content
  memoryType := .user
  subject := some "user:lena"
  predicate := some "lives_in"
  object := some object
  evidence := []

def lenaMoved : CanonicalMemory where
  memoryId := "mem_1"
  tenantId := "tyrell"
  memoryType := .user
  content := "I have lived in Oslo since 2019"
  normalizedHash := ⟨"64a1", rfl⟩
  subject := some "user:lena"
  predicate := some "lives_in"
  object := some "Oslo since 2019"
  temporal := { observedAt := ⟨1⟩ }
  evidence := []
  updatedAt := ⟨1⟩

def lena : MemoryExecutionContext where
  tenantId := ⟨"tyrell", by decide⟩
  userId := some ⟨"lena", by decide⟩
  runHasAgent := MemoryExecutionContext.no_run

def byName (candidate : MemoryCandidate) (_ : List CanonicalMemory) (mem : CanonicalMemory) :
    SubjectPair :=
  let subject : SubjectMatch :=
    if candidate.subject = mem.subject then { verdict := .same, score := 1 }
    else { verdict := .different }
  { subject, statement := subject }

def latinReader : Reader :=
  .native latin (fun text => if text = "i have lived in oslo since 2019" then ⟨"64a1", rfl⟩
    else ⟨"64b2", rfl⟩) (fun subject stored => decide (subject = stored)) byName byName none none

theorem no_false_merge_oslo :
    ([lenaMoved].map CanonicalMemory.memoryId).Nodup ∧
      consolidate latinReader {} (livedIn "Oslo" "I have lived in Oslo since 2019.") lena
          [lenaMoved] = .on .reinforce lenaMoved ∧
        Native.figures latin lenaMoved.content.toList =
            Native.figures latin "I have lived in Oslo since 2019.".toList ∧
          Native.hasNegation latin lenaMoved.content.toList =
            Native.hasNegation latin "I have lived in Oslo since 2019.".toList := by
  have unique : ([lenaMoved].map CanonicalMemory.memoryId).Nodup := by decide
  have guarded := (no_false_merge_iff latin _ _ byName byName none none {}
    (livedIn "Oslo" "I have lived in Oslo since 2019.") lena [lenaMoved] unique).mpr (by
      intro mem isFirst _
      have isStored := (@consolidate_of_ruled latinReader {} _ lena _ _ isFirst).1
      obtain rfl := mem_singleton.mp isStored
      exact ⟨by decide +kernel, by decide +kernel⟩)
  have isReinforced : consolidate latinReader {}
      (livedIn "Oslo" "I have lived in Oslo since 2019.") lena [lenaMoved] =
        .on .reinforce lenaMoved := by decide +kernel
  refine ⟨unique, isReinforced, guarded lenaMoved mem_cons_self ?_ ?_⟩
  · exact congrArg (fun outcome => outcome.decision.joins) isReinforced
  · exact congrArg ConsolidationOutcome.targetMemoryId isReinforced

/-- The year since which she has lived there is not compared, and the new one is dropped. -/
theorem year_is_lost :
    consolidate latinReader {} (livedIn "Oslo since 2021" "I have lived in Oslo since 2021") lena
        [lenaMoved] = .on .reinforce lenaMoved ∧
      Native.figures latin lenaMoved.content.toList ≠
        Native.figures latin "I have lived in Oslo since 2021".toList :=
  ⟨by decide +kernel, by decide +kernel⟩

end MemoryService.Memory.Consolidation
