import MemoryService.Feedback.Counting

/-!
# When the memory bears one vote of each voter

A run is followed step by step.
-/

namespace MemoryService.Feedback.VoteLog

open Domain Foundation Memory Option List

/-! ## What is admitted -/

def Applies (record : FeedbackRecord) (r : CanonicalMemory) : Prop :=
  match effect record with
  | .reinforces => r.temporal.status = .current
  | .retracts => r.temporal.status = .current ∨ r.temporal.status = .retracted
  | .nothing => True

def closedBy (r : CanonicalMemory) : FeedbackProjection → Bool
  | .ran (.memoryRetracted retractedAt) =>
    r.temporal.status = .retracted ∧ r.temporal.validTo = some retractedAt
  | _ => false

/-- What a projection needs: its voter's vote that stands is repeated with its effect, or can
be undone. -/
def Effective (base : CanonicalMemory) (log : List FeedbackRecord) (voter : Voter)
    (record : FeedbackRecord) (r : CanonicalMemory) : Prop :=
  match standing log voter with
  | none => Applies record r
  | some prior =>
    if prior.sameThumb record then effect prior = effect record
    else
      match effect prior with
      | .reinforces =>
        r.temporal.status = .current ∧
          Votes.TakenBack (raised base.confidence (reinforcements log - 1))
      | .retracts =>
        prior.projection.any (closedBy r) = true ∧ log.any ownRetraction = false ∧
          votersFor .retracts log = {voter}
      | .nothing => Applies record r

/-- A vote that repeats another finds it standing, and one that is projected is the newest and finds
the vote before it. -/
def Admitted (memoryId : String) (base : CanonicalMemory) (state : State) : Action → Prop
  | .submit feedback sender now =>
    countedOnce (stored feedback sender now) = true →
      ∀ voter ∈ voterKey feedback,
        ∀ found ∈ newest FeedbackRecord.key (before voter (stored feedback sender now)) state.log,
          recent state.log voter found → found.sameThumb feedback = true →
            standing state.log voter = some found ∧ effect found = effect feedback
  | .project feedbackId _ _ =>
    ∀ record ∈ state.log.find? fun r => r.feedbackId = feedbackId,
      record.projection = none → ∀ voter ∈ voterKey record, mine voter record = true →
        (∀ g ∈ counted state.log voter, g.key < record.key) ∧
          (∀ prior ∈ standing state.log voter, recent state.log voter prior) ∧
          ∀ r ∈ Statements.row memoryId state.store.rows, Effective base state.log voter record r
  | _ => True

instance decidableApplies (record : FeedbackRecord) (r : CanonicalMemory) :
    Decidable (Applies record r) := by
  unfold Applies
  split
  · exact inferInstance
  · exact inferInstance
  · exact inferInstance

instance decidableEffective (base : CanonicalMemory) (log : List FeedbackRecord) (voter : Voter)
    (record : FeedbackRecord) (r : CanonicalMemory) :
    Decidable (Effective base log voter record r) := by
  unfold Effective
  split
  · exact inferInstance
  · split
    · exact inferInstance
    · split
      · exact inferInstance
      · exact inferInstance
      · exact inferInstance

instance (memoryId : String) (base : CanonicalMemory) (state) (action) :
    Decidable (Admitted memoryId base state action) := by
  unfold Admitted
  split <;> infer_instance

/-! ## The memory -/

def Tallies (base : CanonicalMemory) (count : Nat) (isRetracted : Prop) (r : CanonicalMemory) :
    Prop :=
  r.reinforcementCount = base.reinforcementCount + count ∧
    r.confidence = raised base.confidence count ∧
    (r.temporal.status = .retracted ↔ isRetracted)

variable {r' r : CanonicalMemory} {projection : FeedbackProjection} {log : List FeedbackRecord}
  {feedbackId : String}

section Row

variable {normalizedHash : String → Digest} {tenantId memoryId newId : String}
  {now : Instant} {store : Votes.Store} {base r : CanonicalMemory} {count : Nat}
  {isRetracted : Prop} {record prior : FeedbackRecord}

theorem raised_succ (confidence : Rat) (count : Nat) :
    raised confidence (count + 1) =
      min 1 (Binary64.add (raised confidence count) Votes.reinforcementStep) :=
  Function.iterate_succ_apply' _ count confidence

structure Done (record : FeedbackRecord) (base r : CanonicalMemory) (count : Nat)
    (isRetracted : Prop) (projection : FeedbackProjection) (r' : CanonicalMemory) : Prop where
  tallies : Tallies base (count + if projection = .ran .memoryReinforced then 1 else 0)
    (isRetracted ∨ retracts projection = true) r'
  applied : stoodDown projection = false
  reinforcedIff : projection = .ran .memoryReinforced ↔
    effect record = .reinforces ∧ r.temporal.status = .current
  retractedIff : retracts projection = true ↔
    effect record = .retracts ∧ r.temporal.status = .current

theorem effect_of_affirms (affirms : record.affirms = true) : effect record = .reinforces := by
  rw [effect, if_pos affirms]

theorem effect_of_rejects (rejects : record.verdict = .reject) : effect record = .retracts := by
  have notAffirms : ¬record.affirms = true := by simp [FeedbackRecord.affirms, rejects]
  rw [effect, if_neg notAffirms, if_pos rejects]

theorem effect_of_corrects (notAffirms : ¬record.affirms = true)
    (notRejects : ¬record.verdict = .reject) : effect record = .nothing := by
  rw [effect, if_neg notAffirms, if_neg notRejects]

section

variable (tallies : Tallies base count isRetracted r)
include tallies

theorem done_nothing (isNothing : r.temporal.status = .current → effect record = .nothing) :
    Done record base r count isRetracted (.ran .nothing) r where
  tallies := by simpa [retracts] using tallies
  applied := rfl
  reinforcedIff := by
    constructor
    · intro impossible
      cases impossible
    · intro holds
      rw [isNothing holds.2] at holds
      cases holds.1
  retractedIff := by
    constructor
    · intro impossible
      cases impossible
    · intro holds
      rw [isNothing holds.2] at holds
      cases holds.1

theorem done_reinforced
    (isCurrent : r.temporal.status = .current) (affirms : effect record = .reinforces)
    (same : Votes.core r' = Votes.core (Votes.reinforced now r)) :
    Done record base r count isRetracted (.ran .memoryReinforced) r' := by
  obtain ⟨counts, confidence, status⟩ := tallies
  obtain ⟨temporal, -, confidence', count', -⟩ := Votes.fields_of_core same
  refine ⟨⟨?_, ?_, ?_⟩, rfl, by simp [affirms, isCurrent], by simp [retracts, affirms]⟩
  · rw [count', if_pos rfl]
    show r.reinforcementCount + 1 = _
    rw [counts, Nat.add_assoc]
  · rw [confidence', if_pos rfl, raised_succ, ← confidence]
    rfl
  · rw [temporal]
    show r.temporal.status = .retracted ↔ _
    rw [status]
    simp [retracts]

theorem done_changed (isCurrent : r.temporal.status = .current)
    (notReinforced : projection ≠ .ran .memoryReinforced)
    (applied : stoodDown projection = false) (notAffirms : effect record ≠ .reinforces)
    (retractedIff : retracts projection = true ↔ effect record = .retracts)
    (status' : r'.temporal.status = .retracted ↔ retracts projection = true)
    (confidence' : r'.confidence = r.confidence)
    (count' : r'.reinforcementCount = r.reinforcementCount) :
    Done record base r count isRetracted projection r' := by
  obtain ⟨counts, confidence, status⟩ := tallies
  have notRetracted : ¬isRetracted := by
    rw [← status, isCurrent]
    decide
  refine ⟨⟨?_, ?_, ?_⟩, applied, ?_, ?_⟩
  · rw [count', counts, if_neg notReinforced, Nat.add_zero]
  · rw [confidence', confidence, if_neg notReinforced, Nat.add_zero]
  · rw [status']
    simp [notRetracted]
  · constructor
    · exact fun same => absurd same notReinforced
    · exact fun holds => absurd holds.1 notAffirms
  · rw [retractedIff]
    simp [isCurrent]

end

theorem projectMemory_spec (held : Held tenantId memoryId store r)
    (tallies : Tallies base count isRetracted r)
    (fresh : newId ∉ store.rows.map CanonicalMemory.memoryId) :
    ∃ r', Held tenantId memoryId
        (projectMemory normalizedHash tenantId memoryId now newId record store).1 r' ∧
      Done record base r count isRetracted
        (projectMemory normalizedHash tenantId memoryId now newId record store).2 r' := by
  by_cases isCurrent : r.temporal.status = .current
  case neg =>
    have missing := @Held.not_current now _ _ _ _ held isCurrent
    have unchanged : projectMemory normalizedHash tenantId memoryId now newId record store =
        (store, .ran .nothing) := by
      rw [projectMemory, Votes.project, Votes.project, missing]
      simp
    rw [unchanged]
    exact ⟨r, held, done_nothing tallies fun current => absurd current isCurrent⟩
  have current := @Held.current now _ _ _ _ held isCurrent
  by_cases affirms : record.affirms = true
  · obtain ⟨r', held', same⟩ := @Held.affirm now _ _ _ _ held isCurrent
    have done : (projectMemory normalizedHash tenantId memoryId now newId record store).2 =
        .ran .memoryReinforced := by
      rw [projectMemory, if_pos affirms, Votes.project, current]
    rw [done]
    refine ⟨r', ?_, done_reinforced tallies isCurrent (effect_of_affirms affirms) same⟩
    rw [projectMemory, if_pos affirms]
    exact held'
  by_cases rejects : record.verdict = .reject
  · obtain ⟨r', held', status', confidence', count'⟩ := @Held.reject now _ _ _ _ held isCurrent
    have done : (projectMemory normalizedHash tenantId memoryId now newId record store).2 =
        .ran (.memoryRetracted now) := by
      rw [projectMemory, if_neg affirms, if_pos rejects, Votes.project, current]
    have retracts_ := effect_of_rejects rejects
    rw [done]
    refine ⟨r', ?_, ?_⟩
    · rw [projectMemory, if_neg affirms, if_pos rejects]
      exact held'
    · exact done_changed tallies isCurrent (by simp) rfl (by rw [retracts_]; decide)
        (by simp [retracts, retracts_]) (by simp [retracts, status']) confidence' count'
  · have corrects := effect_of_corrects affirms rejects
    by_cases hasText : record.correction = ""
    · have unchanged : projectMemory normalizedHash tenantId memoryId now newId record
          store = (store, .ran .nothing) := by
        rw [projectMemory, if_neg affirms, if_neg rejects, current]
        exact if_pos hasText
      rw [unchanged]
      exact ⟨r, held, done_nothing tallies fun _ => corrects⟩
    · obtain ⟨r', held', status', confidence', count'⟩ := @Held.correct now _ _ _ _ held
        normalizedHash newId record.feedbackId record.correction isCurrent hasText fresh
      have corrected_ : projectMemory normalizedHash tenantId memoryId now newId record
          store = (replaceBy now (Memory.correct normalizedHash store.rows r newId
            record.feedbackId record.correction now) store, .memorySuperseded newId) := by
        rw [projectMemory, if_neg affirms, if_neg rejects, current]
        exact if_neg hasText
      rw [corrected_]
      refine ⟨r', held', ?_⟩
      exact done_changed tallies isCurrent (by simp) rfl (by rw [corrects]; decide)
        (by simp [retracts, corrects]) (by simp [retracts, status']) confidence' count'

def Projects (f : FeedbackRecord) : Prop :=
  match effect f with
  | .reinforces => f.projection = some (.ran .memoryReinforced)
  | .retracts => True
  | .nothing => f.projection ≠ some (.ran .memoryReinforced) ∧ f.projection.any retracts = false

theorem reverse_reinforcement (held : Held tenantId memoryId store r)
    (tallies : Tallies base (count + 1) isRetracted r)
    (isCurrent : r.temporal.status = .current)
    (projection : prior.projection = some (.ran .memoryReinforced))
    (takenBack : Votes.TakenBack (raised base.confidence count)) :
    ∃ r', Held tenantId memoryId (reverse tenantId memoryId now prior store) r' ∧
      Tallies base count isRetracted r' ∧ r'.temporal.status = .current := by
  obtain ⟨counts, confidence, status⟩ := tallies
  obtain ⟨r', held', same⟩ := @Held.reverse_affirm now _ _ _ _ held isCurrent
  obtain ⟨temporal, -, confidence', count', -⟩ := Votes.fields_of_core same
  have isCurrent' : r'.temporal.status = .current := by
    rw [temporal]
    exact isCurrent
  refine ⟨r', ?_, ⟨?_, ?_, ?_⟩, isCurrent'⟩
  · rw [reverse, projection]
    exact held'
  · rw [count']
    show r.reinforcementCount - 1 = _
    omega
  · rw [confidence']
    show max Votes.confidenceFloor (Binary64.sub r.confidence Votes.reinforcementStep) = _
    rw [confidence, raised_succ]
    exact (Votes.takenBack_iff _).mpr takenBack
  · rw [← status, isCurrent, isCurrent']

theorem reverse_rejection (held : Held tenantId memoryId store r)
    (tallies : Tallies base count isRetracted r)
    (closed : prior.projection.any (closedBy r) = true) :
    ∃ r', Held tenantId memoryId (reverse tenantId memoryId now prior store) r' ∧
      Tallies base count False r' ∧ r'.temporal.status = .current := by
  obtain ⟨counts, confidence, -⟩ := tallies
  obtain ⟨projection, isProjected, closes⟩ : ∃ projection,
      prior.projection = some projection ∧ closedBy r projection = true := by
    cases isProjected : prior.projection with
    | none => simp [isProjected] at closed
    | some projection => exact ⟨projection, rfl, by simpa [isProjected] using closed⟩
  obtain ⟨retractedAt, isRetraction, isRetracted, ends⟩ : ∃ retractedAt,
      projection = .ran (.memoryRetracted retractedAt) ∧ r.temporal.status = .retracted ∧
        r.temporal.validTo = some retractedAt := by
    unfold closedBy at closes
    split at closes
    case h_1 retractedAt =>
      rw [decide_eq_true_eq] at closes
      exact ⟨retractedAt, rfl, closes⟩
    case h_2 => cases closes
  obtain ⟨r', held', same⟩ := @Held.reverse_reject now _ _ _ _ held retractedAt isRetracted ends
  obtain ⟨temporal, -, confidence', count', -⟩ := Votes.fields_of_core same
  have isCurrent' : r'.temporal.status = .current := by
    rw [temporal]
    rfl
  refine ⟨r', ?_, ⟨?_, ?_, ?_⟩, isCurrent'⟩
  · rw [reverse, isProjected, isRetraction]
    exact held'
  · rw [count']
    exact counts
  · rw [confidence']
    exact confidence
  · rw [isCurrent']
    decide

theorem reverse_nothing (isNothing : effect prior = .nothing) (projects : Projects prior) :
    reverse tenantId memoryId now prior store = store := by
  rw [Projects, isNothing] at projects
  unfold reverse
  split
  case h_1 projection isProjected =>
    rw [isProjected] at projects
    cases projection with
    | nothing =>
      unfold Votes.reverseMemory
      cases Statements.get now tenantId memoryId store.rows <;> rfl
    | memoryReinforced => exact absurd rfl projects.1
    | memoryRetracted retractedAt => simp [retracts] at projects
    | runLabelled ids =>
      unfold Votes.reverseMemory
      cases Statements.get now tenantId memoryId store.rows <;> rfl
  case h_2 => rfl

end Row

section Voters

variable {log log' : List FeedbackRecord} {voter : Voter} {newEffect effect_ : Effect}
  (voted : ∀ w, (counted log' w).map effect =
    if w = voter then some newEffect else (counted log w).map effect)
include voted

theorem mem_votersFor_voted (w : Voter) :
    w ∈ votersFor effect_ log' ↔
      if w = voter then newEffect = effect_ else w ∈ votersFor effect_ log := by
  rw [mem_votersFor, voted]
  split
  case isTrue _ => exact some_inj
  case isFalse _ => exact mem_votersFor.symm

theorem card_votersFor_voted :
    (votersFor effect_ log').card + (if voter ∈ votersFor effect_ log then 1 else 0) =
      (votersFor effect_ log).card + (if newEffect = effect_ then 1 else 0) := by
  by_cases isNew : newEffect = effect_
  · have inserted : votersFor effect_ log' = insert voter (votersFor effect_ log) := by
      ext w
      rw [mem_votersFor_voted voted, Finset.mem_insert]
      by_cases same : w = voter
      · simp [same, isNew]
      · simp [same]
    rw [inserted, if_pos isNew]
    by_cases isOld : voter ∈ votersFor effect_ log
    · rw [Finset.insert_eq_of_mem isOld, if_pos isOld]
    · rw [Finset.card_insert_of_notMem isOld, if_neg isOld]
  · have erased : votersFor effect_ log' = (votersFor effect_ log).erase voter := by
      ext w
      rw [mem_votersFor_voted voted, Finset.mem_erase]
      by_cases same : w = voter
      · simp [same, isNew]
      · simp [same]
    rw [erased, if_neg isNew]
    by_cases isOld : voter ∈ votersFor effect_ log
    · have positive := Finset.card_pos.mpr ⟨voter, isOld⟩
      rw [Finset.card_erase_of_mem isOld, if_pos isOld]
      omega
    · rw [Finset.erase_eq_of_notMem isOld, if_neg isOld]

theorem nonempty_votersFor_voted :
    (votersFor effect_ log').Nonempty ↔
      newEffect = effect_ ∨ ∃ w ∈ votersFor effect_ log, w ≠ voter := by
  constructor
  · intro nonempty
    obtain ⟨w, member⟩ := nonempty
    rw [mem_votersFor_voted voted] at member
    split at member
    case isTrue _ => exact .inl member
    case isFalse isOther => exact .inr ⟨w, member, isOther⟩
  · intro found
    rcases found with isNew | ⟨w, member, isOther⟩
    · exact ⟨voter, (mem_votersFor_voted voted voter).mpr (by rw [if_pos rfl]; exact isNew)⟩
    · exact ⟨w, (mem_votersFor_voted voted w).mpr (by rw [if_neg isOther]; exact member)⟩

end Voters

structure Inv (tenantId memoryId : String) (base : CanonicalMemory) (state : State) : Prop where
  row : ∃ r, Held tenantId memoryId state.store r ∧ Bears base state.log r
  logged : WellLogged state.log
  alike : ∀ voter vote, counted state.log voter = some vote →
    ∃ prior, standing state.log voter = some prior ∧ effect prior = effect vote
  projects : ∀ voter prior, standing state.log voter = some prior → Projects prior

section Invariant

variable {normalizedHash : String → Digest} {tenantId memoryId : String}
  {base : CanonicalMemory} {state next : State} {voter : Voter} {record : FeedbackRecord}

theorem Inv.effect_standing (inv : Inv tenantId memoryId base state) (voter : Voter) :
    (standing state.log voter).map effect = (counted state.log voter).map effect := by
  cases isCounted : counted state.log voter with
  | none =>
    have noneStands : standing state.log voter = none := by
      rw [standing, newest_eq_none_iff]
      intro f member
      by_contra applied
      rw [Bool.not_eq_false] at applied
      have unprojected := newest_eq_none_iff.mp isCounted f member
      rw [projected_of_applied applied] at unprojected
      cases unprojected
    rw [noneStands]
  | some vote =>
    obtain ⟨prior, stands, same⟩ := inv.alike voter vote isCounted
    rw [stands, map_some, map_some, same]

theorem Inv.of_sameTally (inv : Inv tenantId memoryId base state)
    (logged : WellLogged log) (same : log.filter tallied = state.log.filter tallied) :
    Inv tenantId memoryId base { state with log } := by
  obtain ⟨counted, standing, count, own⟩ := SameTally.of_filter logged inv.logged same
  obtain ⟨r, held, bears⟩ := inv.row
  refine ⟨⟨r, held, ?_⟩, logged, ?_, ?_⟩
  · rw [Bears, count, own, votersFor_congr counted]
    exact bears
  · intro voter vote isCounted
    rw [counted] at isCounted
    rw [standing]
    exact inv.alike voter vote isCounted
  · intro voter prior stands
    rw [standing] at stands
    exact inv.projects voter prior stands

theorem replaced_spec (logged : WellLogged state.log) (vote : FeedbackRecord) :
    WellLogged (replaceEarlierVotes state.log vote) ∧
      (replaceEarlierVotes state.log vote).filter tallied = state.log.filter tallied := by
  apply dismiss_spec logged _ (.inl rfl)
  intro f member isId
  obtain ⟨waiting, isWaiting, sameId⟩ := List.mem_map.mp isId
  obtain ⟨isLogged, isPending⟩ := mem_pendingOn isWaiting
  have same : waiting = f := inj_on_of_nodup_map logged.unique isLogged member sameId
  rw [← same]
  exact of_decide_eq_true isPending

theorem replaced_ids (log : List FeedbackRecord) (vote : FeedbackRecord) :
    (replaceEarlierVotes log vote).map FeedbackRecord.feedbackId =
      log.map FeedbackRecord.feedbackId := by
  rw [replaceEarlierVotes, setProjection, map_updateWhere, setReview, map_updateWhere]
  · intro _
    rfl
  · intro _
    rfl

theorem Inv.submit (inv : Inv tenantId memoryId base state) {feedback : FeedbackRecord}
    {sender : Credential} {now : Instant}
    (fresh : feedback.feedbackId ∉ state.log.map FeedbackRecord.feedbackId) :
    Inv tenantId memoryId base (submit feedback sender now state) := by
  have notDismissed : (stored feedback sender now).review ≠ some .dismissed := by
    rw [stored]
    simp only
    split <;> simp
  by_cases isCounted : countedOnce (stored feedback sender now) = true
  · obtain ⟨logged, same⟩ := replaced_spec inv.logged (stored feedback sender now)
    obtain ⟨logged', same'⟩ := @append_spec _
      (countOnce state.log (stored feedback sender now)).2 logged
      (by
        rw [replaced_ids, countOnce]
        simp only
        split
        · exact fresh
        · exact fresh)
      (by
        rw [countOnce]
        simp only
        split
        · intro isPending
          cases isPending
        · exact fun _ => rfl)
      (by
        rw [countOnce]
        simp only
        split
        · exact fun _ => rfl
        · exact fun isDismissed => absurd isDismissed notDismissed)
      (by
        rw [countOnce]
        simp only
        split
        · simp [tallied, retracts]
        · exact not_tallied rfl)
    rw [VoteLog.submit, if_pos isCounted]
    exact inv.of_sameTally logged' (same'.trans same)
  · obtain ⟨logged', same'⟩ := @append_spec _ (stored feedback sender now) inv.logged fresh
      (fun _ => rfl) (fun isDismissed => absurd isDismissed notDismissed) (not_tallied rfl)
    rw [VoteLog.submit, if_neg isCounted]
    exact inv.of_sameTally logged' same'

theorem waiting_of_found (logged : WellLogged state.log)
    (found : state.log.find? (fun r => r.feedbackId = feedbackId) = some record)
    (isPending : record.pending = true) :
    ∀ f ∈ state.log, f.feedbackId ∈ [feedbackId] → f.review = some .pending := by
  intro f member isId
  have isId' : record.feedbackId = feedbackId := by simpa using find?_some found
  rw [← isId'] at isId
  rw [logged.record_of_id (mem_of_find?_eq_some found) member isId]
  exact of_decide_eq_true isPending

theorem Inv.review (inv : Inv tenantId memoryId base state) {approve : Bool}
    (stepped : step normalizedHash tenantId memoryId state (.review feedbackId approve) =
      some next) :
    Inv tenantId memoryId base next := by
  unfold step at stepped
  cases found : state.log.find? fun r => r.feedbackId = feedbackId with
  | none => simp [found] at stepped
  | some record =>
    simp only [found] at stepped
    by_cases isPending : record.pending = true
    · rw [if_pos isPending] at stepped
      have waiting := waiting_of_found inv.logged found isPending
      cases approve with
      | true =>
        obtain ⟨logged, same⟩ := approve_spec inv.logged waiting
        rw [if_pos rfl] at stepped
        rw [← some.inj stepped]
        exact inv.of_sameTally logged same
      | false =>
        obtain ⟨logged, same⟩ := @dismiss_spec [feedbackId] .dismissed _ inv.logged waiting
          (.inr rfl)
        rw [if_neg Bool.false_ne_true] at stepped
        rw [← some.inj stepped]
        exact inv.of_sameTally logged same
    · rw [if_neg isPending] at stepped
      cases stepped

theorem bears_closed (bears : Bears base state.log r)
    (isCurrent : r.temporal.status = .current) (status : r'.temporal.status ≠ .retracted)
    (confidence : r'.confidence = r.confidence)
    (count : r'.reinforcementCount = r.reinforcementCount) : Bears base state.log r' := by
  obtain ⟨counts, confidences, isRetracted⟩ := bears
  refine ⟨count.trans counts, confidence.trans confidences, ?_⟩
  rw [← isRetracted, isCurrent]
  simp [status]

theorem Inv.archive (inv : Inv tenantId memoryId base state) {now : Instant}
    (stepped : step normalizedHash tenantId memoryId state (.archive now) = some next) :
    Inv tenantId memoryId base next := by
  obtain ⟨r, held, bears⟩ := inv.row
  rw [step, some.injEq] at stepped
  subst stepped
  by_cases isCurrent : r.temporal.status = .current
  · rw [held.current isCurrent]
    obtain ⟨r', held', same⟩ := @Held.archive now _ _ _ _ held
    obtain ⟨temporal, -, confidence, count, -⟩ := Votes.fields_of_core same
    refine { inv with row := ⟨r', held', bears_closed bears isCurrent ?_ confidence count⟩ }
    rw [temporal]
    show TemporalStatus.archived ≠ .retracted
    decide
  · rw [held.not_current isCurrent]
    exact inv

theorem Inv.supersede (inv : Inv tenantId memoryId base state) {now : Instant}
    {replacement : CanonicalMemory}
    (stepped : step normalizedHash tenantId memoryId state (.supersede replacement now) =
      some next) :
    Inv tenantId memoryId base next := by
  obtain ⟨r, held, bears⟩ := inv.row
  rw [step] at stepped
  obtain ⟨fresh, stepped⟩ := ite_none_left_eq_some.mp stepped
  rw [some.injEq] at stepped
  subst stepped
  by_cases isCurrent : r.temporal.status = .current
  · rw [held.current isCurrent]
    obtain ⟨r', held', status, confidence, count⟩ := @Held.supersede now _ _ _ _ held _ fresh
    refine { inv with row := ⟨r', held', bears_closed bears isCurrent ?_ confidence count⟩ }
    rw [status]
    decide
  · rw [held.not_current isCurrent]
    exact inv

section Project

variable {now : Instant} {newId : String}

theorem project_own_eq (isOwn : ownWord record = true)
    (waits : record.review ≠ some .pending) (open_ : record.review ≠ some .dismissed) :
    project normalizedHash tenantId memoryId now newId record state =
      { store := (projectMemory normalizedHash tenantId memoryId now newId record
          state.store).1
        log := setProjection state.log [record.feedbackId]
          (projectMemory normalizedHash tenantId memoryId now newId record
            state.store).2 } := by
  rw [project]
  split
  case isTrue isVote =>
    have approved : record.review = some .approved := by
      cases review : record.review with
      | none => simp [review] at isVote
      | some reviewState =>
        cases reviewState with
        | pending => exact absurd review waits
        | approved => rfl
        | dismissed => exact absurd review open_
    have nobody : voterKey record = none := by
      by_contra someone
      simp [ownWord, approved, isVote.2, someone] at isOwn
    rw [projectVote, if_pos nobody]
  case isFalse _ => rfl

theorem Inv.project_own (inv : Inv tenantId memoryId base state) (member : record ∈ state.log)
    (isOwn : ownWord record = true) (unprojected : record.projection = none)
    (waits : record.review ≠ some .pending)
    (fresh : newId ∉ state.store.rows.map CanonicalMemory.memoryId) :
    Inv tenantId memoryId base
      (project normalizedHash tenantId memoryId now newId record state) := by
  have open_ : record.review ≠ some .dismissed := by
    intro isDismissed
    have closed := inv.logged.closed record member isDismissed
    rw [unprojected] at closed
    cases closed
  rw [project_own_eq isOwn waits open_]
  obtain ⟨r, held, bears⟩ := inv.row
  obtain ⟨r', held', done⟩ := @projectMemory_spec normalizedHash _ _ newId now _ base r _ _
    record held bears fresh
  obtain ⟨logged, counted, standing, count, own⟩ := own_spec inv.logged member isOwn waits
    unprojected (projectMemory normalizedHash tenantId memoryId now newId record state.store).2
  refine ⟨⟨r', held', ?_⟩, logged, ?_, ?_⟩
  · obtain ⟨counts, confidence, status⟩ := done.tallies
    rw [Bears, count, own, votersFor_congr counted]
    refine ⟨counts, confidence, ?_⟩
    rw [status, or_right_comm]
  · intro voter vote isCounted
    rw [counted] at isCounted
    rw [standing]
    exact inv.alike voter vote isCounted
  · intro voter prior stands
    rw [standing] at stands
    exact inv.projects voter prior stands

theorem projectVote_eq (isMine : mine voter record = true)
    (finds : (settleEarlier state.log record).2 = standing state.log voter) :
    project normalizedHash tenantId memoryId now newId record state =
      if (standing state.log voter).any fun prior => prior.sameThumb record then
        { state with
          log := setProjection (settleEarlier state.log record).1 [record.feedbackId]
            .alreadyCounted }
      else
        let store := ((standing state.log voter).map fun prior =>
          reverse tenantId memoryId now prior state.store).getD state.store
        { store := (projectMemory normalizedHash tenantId memoryId now newId record store).1
          log := setProjection (settleEarlier state.log record).1 [record.feedbackId]
            (projectMemory normalizedHash tenantId memoryId now newId record store).2 } := by
  obtain ⟨approved, isVote, isVoter⟩ := mine_iff.mp isMine
  have somebody : voterKey record ≠ none := by
    rw [isVoter]
    simp
  have reviewed : record.review.isSome = true ∧ record.vote = true := by
    rw [approved]
    exact ⟨rfl, isVote⟩
  rw [project, if_pos reviewed, projectVote, if_neg somebody]
  simp only [finds]
  split
  · rfl
  · rfl

theorem reverse_ids (prior : FeedbackRecord) (store : Votes.Store) :
    (reverse tenantId memoryId now prior store).rows.map CanonicalMemory.memoryId =
      store.rows.map CanonicalMemory.memoryId := by
  have written : ∀ memories, (store.updateAll now memories).rows.map CanonicalMemory.memoryId =
      store.rows.map CanonicalMemory.memoryId := by
    intro memories
    rw [(Votes.updateAll_rows now store memories).1, List.map_map]
    apply map_congr_left
    intro r _
    exact (Votes.writeRows_id memories r).1
  unfold reverse
  split
  case h_1 projection _ =>
    unfold Votes.reverseMemory
    split
    case h_1 memory _ _ =>
      split
      case isTrue _ => exact written [Votes.unreinforced now memory]
      case isFalse _ => rfl
    case h_2 => exact written _
    case h_3 => rfl
  case h_2 => rfl

theorem effect_voted {log' : List FeedbackRecord}
    (voted : ∀ w, counted log' w =
      if w = voter then some { record with projection := some projection }
      else counted state.log w) (w : Voter) :
    (counted log' w).map effect =
      if w = voter then some (effect record) else (counted state.log w).map effect := by
  rw [voted]
  split
  · rfl
  · rfl

theorem Inv.repeat_vote (inv : Inv tenantId memoryId base state)
    (member : record ∈ state.log) (isMine : mine voter record = true)
    (unprojected : record.projection = none)
    (newer : ∀ g ∈ counted state.log voter, g.key < record.key) {prior : FeedbackRecord}
    (stands : standing state.log voter = some prior) (same : effect prior = effect record) :
    Inv tenantId memoryId base
      { state with
        log := setProjection (settleEarlier state.log record).1 [record.feedbackId]
          .alreadyCounted } := by
  obtain ⟨logged, voted, stood, count, own⟩ :=
    vote_spec inv.logged member isMine unprojected .alreadyCounted newer
  obtain ⟨r, held, bears⟩ := inv.row
  have standsStill : ∀ w, standing (setProjection (settleEarlier state.log record).1
      [record.feedbackId] .alreadyCounted) w = standing state.log w := by
    intro w
    rw [stood, if_neg]
    exact fun holds => absurd holds.2 (by decide)
  have effects : ∀ effect_, votersFor effect_ (setProjection (settleEarlier state.log record).1
      [record.feedbackId] .alreadyCounted) = votersFor effect_ state.log := by
    intro effect_
    ext w
    rw [mem_votersFor, mem_votersFor, effect_voted voted]
    split
    case isTrue isVoter => rw [isVoter, ← inv.effect_standing, stands, map_some, same]
    case isFalse _ => rfl
  refine ⟨⟨r, held, ?_⟩, logged, ?_, ?_⟩
  · rw [Bears, reinforcements, count, own, effects, effects]
    exact bears
  · intro w vote isCounted
    rw [standsStill]
    rw [voted] at isCounted
    split at isCounted
    case isTrue isVoter =>
      rw [← some.inj isCounted, isVoter]
      exact ⟨prior, stands, same⟩
    case isFalse _ => exact inv.alike w vote isCounted
  · intro w vote standing_
    rw [standsStill] at standing_
    exact inv.projects w vote standing_

theorem Inv.apply_vote (inv : Inv tenantId memoryId base state)
    (member : record ∈ state.log) (isMine : mine voter record = true)
    (unprojected : record.projection = none)
    (newer : ∀ g ∈ counted state.log voter, g.key < record.key)
    {store : Votes.Store} {count : Nat} {isRetracted : Prop}
    (held : Held tenantId memoryId store r) (tallies : Tallies base count isRetracted r)
    (fresh : newId ∉ store.rows.map CanonicalMemory.memoryId) (applies : Applies record r)
    (counts : count + (if voter ∈ votersFor .reinforces state.log then 1 else 0) =
      reinforcements state.log)
    (retractions : isRetracted ↔ state.log.any ownRetraction = true ∨
      ∃ w ∈ votersFor .retracts state.log, w ≠ voter) :
    Inv tenantId memoryId base
      { store := (projectMemory normalizedHash tenantId memoryId now newId record store).1
        log := setProjection (settleEarlier state.log record).1 [record.feedbackId]
          (projectMemory normalizedHash tenantId memoryId now newId record store).2 } := by
  obtain ⟨r', held', done⟩ := @projectMemory_spec normalizedHash _ _ newId now _ base r _ _
    record held tallies fresh
  obtain ⟨logged, voted, stood, own, retracted⟩ := vote_spec inv.logged member isMine unprojected
    (projectMemory normalizedHash tenantId memoryId now newId record store).2 newer
  have effects := effect_voted voted
  have reinforcedIff :
      (projectMemory normalizedHash tenantId memoryId now newId record store).2 =
          .ran .memoryReinforced ↔ effect record = .reinforces := by
    rw [done.reinforcedIff]
    refine ⟨fun holds => holds.1, fun isEffect => ⟨isEffect, ?_⟩⟩
    rw [Applies, isEffect] at applies
    exact applies
  refine ⟨⟨r', held', ?_⟩, logged, ?_, ?_⟩
  · obtain ⟨count', confidence', status'⟩ := done.tallies
    have cards := @card_votersFor_voted _ _ _ _ .reinforces effects
    have total : reinforcements (setProjection (settleEarlier state.log record).1
        [record.feedbackId]
          (projectMemory normalizedHash tenantId memoryId now newId record store).2) =
        count + if (projectMemory normalizedHash tenantId memoryId now newId record
          store).2 = .ran .memoryReinforced then 1 else 0 := by
      rw [reinforcements, own]
      rw [reinforcements] at counts
      simp only [reinforcedIff]
      omega
    refine ⟨?_, ?_, ?_⟩
    · rw [total]
      exact count'
    · rw [total]
      exact confidence'
    · rw [status', retracted, nonempty_votersFor_voted effects]
      constructor
      · intro holds
        rcases holds with was | isRetraction
        · rcases retractions.mp was with isOwn | another
          · exact .inl isOwn
          · exact .inr (.inr another)
        · exact .inr (.inl (done.retractedIff.mp isRetraction).1)
      · intro holds
        rcases holds with isOwn | isEffect | another
        · exact .inl (retractions.mpr (.inl isOwn))
        · rw [Applies, isEffect] at applies
          rcases applies with isCurrent | already
          · exact .inr (done.retractedIff.mpr ⟨isEffect, isCurrent⟩)
          · exact .inl (tallies.2.2.mp already)
        · exact .inl (retractions.mpr (.inr another))
  · intro w vote isCounted
    rw [stood]
    rw [voted] at isCounted
    split at isCounted
    case isTrue isVoter =>
      rw [if_pos ⟨isVoter, done.applied⟩]
      exact ⟨vote, isCounted, rfl⟩
    case isFalse isOther =>
      rw [if_neg fun holds => isOther holds.1]
      exact inv.alike w vote isCounted
  · intro w prior stands
    rw [stood] at stands
    split at stands
    case isTrue isVoter =>
      rw [← some.inj stands]
      have sameEffect : effect { record with projection := some (projectMemory normalizedHash
          tenantId memoryId now newId record store).2 } = effect record := rfl
      cases isEffect : effect record with
      | reinforces =>
        rw [Projects, sameEffect, isEffect]
        exact congrArg some (reinforcedIff.mpr isEffect)
      | retracts =>
        rw [Projects, sameEffect, isEffect]
        trivial
      | nothing =>
        rw [Projects, sameEffect, isEffect]
        refine ⟨?_, ?_⟩
        · intro same
          have reinforces := reinforcedIff.mp (some.inj same)
          rw [isEffect] at reinforces
          cases reinforces
        · apply Bool.eq_false_iff.mpr
          intro same
          have isRetraction := (done.retractedIff.mp same).1
          rw [isEffect] at isRetraction
          cases isRetraction
    case isFalse _ => exact inv.projects w prior stands

theorem applies_of_current (isCurrent : r.temporal.status = .current) : Applies record r := by
  rw [Applies]
  cases effect record with
  | reinforces => exact isCurrent
  | retracts => exact .inl isCurrent
  | nothing => trivial

theorem retracts_apart (others : voter ∉ votersFor .retracts log) :
    (log.any ownRetraction = true ∨ (votersFor .retracts log).Nonempty) ↔
      log.any ownRetraction = true ∨ ∃ w ∈ votersFor .retracts log, w ≠ voter := by
  apply or_congr_right
  constructor
  · intro nonempty
    obtain ⟨w, member⟩ := nonempty
    refine ⟨w, member, ?_⟩
    intro same
    rw [same] at member
    exact others member
  · intro another
    obtain ⟨w, member, -⟩ := another
    exact ⟨w, member⟩

theorem Inv.projectVote (inv : Inv tenantId memoryId base state)
    (member : record ∈ state.log) (isMine : mine voter record = true)
    (unprojected : record.projection = none)
    (fresh : newId ∉ state.store.rows.map CanonicalMemory.memoryId)
    (newer : ∀ g ∈ counted state.log voter, g.key < record.key)
    (isRecent : ∀ prior ∈ standing state.log voter, recent state.log voter prior)
    (effective : ∀ r ∈ Statements.row memoryId state.store.rows,
      Effective base state.log voter record r) :
    Inv tenantId memoryId base
      (project normalizedHash tenantId memoryId now newId record state) := by
  obtain ⟨r, held, bears⟩ := inv.row
  have effective := effective r held.row
  have member_iff : ∀ effect_, voter ∈ votersFor effect_ state.log ↔
      (standing state.log voter).map effect = some effect_ := by
    intro effect_
    rw [mem_votersFor, inv.effect_standing voter]
  have isVoter := (mine_iff.mp isMine).2.2
  rw [projectVote_eq isMine
    (settleEarlier_eq inv.logged member isVoter unprojected newer isRecent)]
  unfold Effective at effective
  cases stands : standing state.log voter with
  | none =>
    rw [stands] at effective member_iff
    have nowhere : ∀ effect_, voter ∉ votersFor effect_ state.log := by
      intro effect_ isVoter
      rw [member_iff] at isVoter
      cases isVoter
    apply inv.apply_vote member isMine unprojected newer held bears fresh effective
    · rw [if_neg (nowhere .reinforces), Nat.add_zero]
    · exact retracts_apart (nowhere .retracts)
  | some prior =>
    rw [stands] at effective member_iff
    have isEffect : ∀ effect_, voter ∈ votersFor effect_ state.log ↔ effect prior = effect_ := by
      intro effect_
      rw [member_iff, map_some, some_inj]
    have ids := @reverse_ids tenantId memoryId now prior state.store
    rw [← ids] at fresh
    by_cases isRepeat : prior.sameThumb record = true
    · simp only [isRepeat, if_true] at effective
      rw [any_some, if_pos isRepeat]
      exact inv.repeat_vote member isMine unprojected newer stands effective
    · rw [any_some, if_neg isRepeat]
      simp only [isRepeat, Bool.false_eq_true, if_false] at effective
      simp only [map_some, getD_some]
      cases priorEffect : effect prior with
      | reinforces =>
        rw [priorEffect] at effective
        have isReinforcement := (isEffect .reinforces).mpr priorEffect
        obtain ⟨count, total⟩ : ∃ count, reinforcements state.log = count + 1 := by
          apply Nat.exists_eq_succ_of_ne_zero
          have positive := Finset.card_pos.mpr ⟨voter, isReinforcement⟩
          rw [reinforcements]
          omega
        have projection := inv.projects voter prior stands
        rw [Projects, priorEffect] at projection
        rw [total, Nat.add_sub_cancel] at effective
        rw [Bears, total] at bears
        obtain ⟨r', held', tallies, isCurrent⟩ := @reverse_reinforcement _ _ now _ _ _ _ _ _
          held bears effective.1 projection effective.2
        apply inv.apply_vote member isMine unprojected newer held' tallies fresh
          (applies_of_current isCurrent)
        · rw [if_pos isReinforcement, total]
        · apply retracts_apart
          rw [isEffect, priorEffect]
          decide
      | retracts =>
        rw [priorEffect] at effective
        obtain ⟨closed, noneOwn, alone⟩ := effective
        obtain ⟨r', held', tallies, isCurrent⟩ := @reverse_rejection _ _ now _ _ _ _ _ _
          held bears closed
        apply inv.apply_vote member isMine unprojected newer held' tallies fresh
          (applies_of_current isCurrent)
        · rw [if_neg, Nat.add_zero]
          rw [isEffect, priorEffect]
          decide
        · simp [noneOwn, alone]
      | nothing =>
        rw [priorEffect] at effective
        have projects := inv.projects voter prior stands
        rw [reverse_nothing priorEffect projects] at fresh ⊢
        apply inv.apply_vote member isMine unprojected newer held bears fresh effective
        · rw [if_neg, Nat.add_zero]
          rw [isEffect, priorEffect]
          decide
        · apply retracts_apart
          rw [isEffect, priorEffect]
          decide

end Project

end Invariant

end MemoryService.Feedback.VoteLog
