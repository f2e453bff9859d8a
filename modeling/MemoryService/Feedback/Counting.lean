import MemoryService.Feedback.VotedRow

/-!
# One effective vote for each voter

What the log says of a voter depends on the records that were projected. Storing and reviewing a
vote change none of them; a projection makes its vote the one that counts.
-/

namespace MemoryService.Feedback.VoteLog

open Domain Foundation Memory List

structure WellLogged (log : List FeedbackRecord) : Prop where
  unique : (log.map FeedbackRecord.feedbackId).Nodup
  waiting : ∀ f ∈ log, f.review = some .pending → f.projection = none
  closed : ∀ f ∈ log, f.review = some .dismissed → f.projection.isSome = true

variable {kind : FeedbackRecord → Bool} {effect_ : Effect} {vote g : FeedbackRecord}
  {ids : List String} {projection : FeedbackProjection}

section Log

variable {log log' : List FeedbackRecord} {voter : Voter} {f : FeedbackRecord}

theorem keyId {a b : FeedbackRecord} (same : a.key = b.key) : a.feedbackId = b.feedbackId :=
  (Prod.mk.inj (toLex.injective same)).2

theorem WellLogged.distinct (logged : WellLogged log) :
    ∀ a ∈ log, ∀ b ∈ log, a.key = b.key → a = b := by
  intro a isA b isB same
  exact inj_on_of_nodup_map logged.unique isA isB (keyId same)

theorem mine_iff : mine voter f = true ↔
    f.review = some .approved ∧ f.vote = true ∧ voterKey f = some voter := by
  rw [mine, decide_eq_true_eq]

def tallied (f : FeedbackRecord) : Bool :=
  f.projection.isSome ∧
    (f.review = some .approved ∨ f.projection = some (.ran .memoryReinforced) ∨
      f.projection.any retracts)

theorem projectedVote_iff : projectedVote voter f = true ↔
    mine voter f = true ∧ f.projection.isSome = true := by
  rw [projectedVote, decide_eq_true_eq]

theorem isAppliedVote_iff : isAppliedVote voter f = true ↔
    mine voter f = true ∧ ∃ projection, f.projection = some projection ∧
      stoodDown projection = false := by
  rw [isAppliedVote, decide_eq_true_eq]
  cases f.projection with
  | none => simp
  | some projection => simp

theorem projected_of_applied (applied : isAppliedVote voter f = true) :
    projectedVote voter f = true := by
  obtain ⟨isMine, projection, isProjected, -⟩ := isAppliedVote_iff.mp applied
  rw [projectedVote_iff, isProjected]
  exact ⟨isMine, rfl⟩

theorem counted_of_filter (logged : WellLogged log) (logged' : WellLogged log')
    (same : log.filter (projectedVote voter) = log'.filter (projectedVote voter)) :
    counted log voter = counted log' voter :=
  newest_of_filter logged.distinct logged'.distinct same

theorem standing_of_filter (logged : WellLogged log) (logged' : WellLogged log')
    (same : log.filter (isAppliedVote voter) = log'.filter (isAppliedVote voter)) :
    standing log voter = standing log' voter :=
  newest_of_filter logged.distinct logged'.distinct same

theorem any_of_filter
    (same : log.filter kind = log'.filter kind) : log.any kind = log'.any kind := by
  have found : ∀ list : List FeedbackRecord, list.any kind = true ↔ ∃ f, f ∈ list.filter kind := by
    intro list
    simp only [any_eq_true, mem_filter]
  rw [Bool.eq_iff_iff, found, found, same]

theorem countP_of_filter
    (same : log.filter kind = log'.filter kind) : log.countP kind = log'.countP kind := by
  rw [countP_eq_length_filter, countP_eq_length_filter, same]

theorem mem_votersFor :
    voter ∈ votersFor effect_ log ↔ (counted log voter).map effect = some effect_ := by
  rw [votersFor, Finset.mem_filter]
  refine ⟨fun holds => holds.2, fun holds => ⟨?_, holds⟩⟩
  obtain ⟨vote, isCounted, -⟩ := Option.map_eq_some_iff.mp holds
  obtain ⟨member, kind, -⟩ := newest_spec isCounted
  rw [voters, mem_toFinset, mem_filterMap]
  exact ⟨vote, member, (mine_iff.mp (projectedVote_iff.mp kind).1).2.2⟩

theorem votersFor_congr (same : ∀ voter, counted log voter = counted log' voter) :
    votersFor effect_ log = votersFor effect_ log' := by
  ext voter
  rw [mem_votersFor, mem_votersFor, same]

/-- What is told by the log when the records that say something are the same. -/
structure SameTally (log log' : List FeedbackRecord) : Prop where
  counted : ∀ voter, counted log voter = counted log' voter
  standing : ∀ voter, standing log voter = standing log' voter
  reinforcements : reinforcements log = reinforcements log'
  ownRetraction : log.any ownRetraction = log'.any ownRetraction

theorem filter_of_tallied (isTallied : ∀ f, kind f = true → tallied f = true)
    (same : log.filter tallied = log'.filter tallied) : log.filter kind = log'.filter kind := by
  have restrict : ∀ list : List FeedbackRecord,
      list.filter kind = (list.filter tallied).filter kind := by
    intro list
    rw [filter_filter]
    apply filter_congr
    intro f _
    cases isKind : kind f with
    | false => rfl
    | true => rw [isTallied f isKind, Bool.and_self]
  rw [restrict, restrict log', same]

theorem SameTally.of_filter (logged : WellLogged log) (logged' : WellLogged log')
    (same : log.filter tallied = log'.filter tallied) : SameTally log log' := by
  have ofProjected : ∀ voter f, projectedVote voter f = true → tallied f = true := by
    intro voter f isProjected
    obtain ⟨isMine, projected⟩ := projectedVote_iff.mp isProjected
    rw [tallied, decide_eq_true_eq]
    exact ⟨projected, .inl (mine_iff.mp isMine).1⟩
  have countedSame : ∀ voter, VoteLog.counted log voter = VoteLog.counted log' voter := by
    intro voter
    exact counted_of_filter logged logged' (filter_of_tallied (ofProjected voter) same)
  refine ⟨countedSame, ?_, ?_, ?_⟩
  · intro voter
    apply standing_of_filter logged logged'
    exact filter_of_tallied
      (fun f applied => ofProjected voter f (projected_of_applied applied)) same
  · rw [VoteLog.reinforcements, VoteLog.reinforcements, votersFor_congr countedSame,
      countP_of_filter (filter_of_tallied _ same)]
    intro f isOwn
    rw [ownReinforcement, decide_eq_true_eq] at isOwn
    rw [tallied, decide_eq_true_eq, isOwn.2]
    exact ⟨rfl, .inr (.inl rfl)⟩
  · apply any_of_filter (filter_of_tallied _ same)
    intro f isOwn
    rw [VoteLog.ownRetraction, decide_eq_true_eq] at isOwn
    rw [tallied, decide_eq_true_eq]
    refine ⟨?_, .inr (.inr isOwn.2)⟩
    cases projection : f.projection with
    | none => simp [projection] at isOwn
    | some _ => rfl

theorem mem_pendingOn (member : f ∈ pendingOn log vote) : f ∈ log ∧ f.pending = true := by
  have sorted := mem_of_mem_take member
  rw [mem_insertionSort, mem_filter, decide_eq_true_eq] at sorted
  exact ⟨sorted.1, sorted.2.1⟩

theorem not_tallied (unprojected : f.projection = none) : tallied f = false := by
  rw [tallied, unprojected]
  rfl

theorem dismiss_spec (logged : WellLogged log)
    (waiting : ∀ f ∈ log, f.feedbackId ∈ ids → f.review = some .pending)
    (isNothing : projection = .replaced ∨ projection = .dismissed) :
    WellLogged (setProjection (setReview log ids .dismissed) ids projection) ∧
      (setProjection (setReview log ids .dismissed) ids projection).filter tallied =
        log.filter tallied := by
  have unselected : ∀ f ∈ log, decide (f.feedbackId ∈ ids) = true → f.projection = none := by
    intro f member selected
    exact logged.waiting f member (waiting f member (of_decide_eq_true selected))
  have dismissed : ∀ f ∈ setReview log ids .dismissed, decide (f.feedbackId ∈ ids) = true →
      f.review = some .dismissed ∧ f.projection = none := by
    intro f member selected
    rcases mem_updateWhere_cases member with ⟨old, isOld, isSelected, rfl⟩ | ⟨-, notSelected⟩
    · exact ⟨rfl, unselected old isOld isSelected⟩
    · rw [selected] at notSelected
      cases notSelected
  refine ⟨⟨?_, ?_, ?_⟩, ?_⟩
  · exact nodup_map_updateWhere (fun _ => rfl) (nodup_map_updateWhere (fun _ => rfl) logged.unique)
  · intro f member isPending
    rcases mem_updateWhere_cases member with ⟨old, isOld, isSelected, rfl⟩ | ⟨isOld, notSelected⟩
    · have isDismissed : old.review = some .pending := isPending
      rw [(dismissed old isOld isSelected).1] at isDismissed
      cases isDismissed
    · rcases mem_updateWhere_cases isOld with ⟨older, -, isSelected, rfl⟩ | ⟨isOlder, -⟩
      · cases show some ReviewState.dismissed = some .pending from isPending
      · exact logged.waiting f isOlder isPending
  · intro f member isDismissed
    rcases mem_updateWhere_cases member with ⟨old, -, -, rfl⟩ | ⟨isOld, notSelected⟩
    · rfl
    · rcases mem_updateWhere_cases isOld with ⟨older, -, isSelected, rfl⟩ | ⟨isOlder, -⟩
      · rw [isSelected] at notSelected
        cases notSelected
      · exact logged.closed f isOlder isDismissed
  · have first : (setReview log ids .dismissed).filter tallied = log.filter tallied := by
      apply filter_updateWhere
      · exact fun f member selected => not_tallied (unselected f member selected)
      · exact fun f member selected => not_tallied (unselected f member selected)
    rw [← first]
    apply filter_updateWhere
    · exact fun f member selected => not_tallied (dismissed f member selected).2
    · intro f member selected
      obtain ⟨isDismissed, -⟩ := dismissed f member selected
      rcases isNothing with isReplaced | isDropped
      · simp [tallied, isDismissed, isReplaced, retracts]
      · simp [tallied, isDismissed, isDropped, retracts]

theorem approve_spec (logged : WellLogged log)
    (waiting : ∀ f ∈ log, f.feedbackId ∈ ids → f.review = some .pending) :
    WellLogged (setReview log ids .approved) ∧
      (setReview log ids .approved).filter tallied = log.filter tallied := by
  have unselected : ∀ f ∈ log, decide (f.feedbackId ∈ ids) = true → f.projection = none := by
    intro f member selected
    exact logged.waiting f member (waiting f member (of_decide_eq_true selected))
  refine ⟨⟨nodup_map_updateWhere (fun _ => rfl) logged.unique, ?_, ?_⟩, ?_⟩
  · intro f member isPending
    rcases mem_updateWhere_cases member with ⟨old, -, -, rfl⟩ | ⟨isOld, -⟩
    · cases show some ReviewState.approved = some .pending from isPending
    · exact logged.waiting f isOld isPending
  · intro f member isDismissed
    rcases mem_updateWhere_cases member with ⟨old, -, -, rfl⟩ | ⟨isOld, -⟩
    · cases show some ReviewState.approved = some .dismissed from isDismissed
    · exact logged.closed f isOld isDismissed
  · apply filter_updateWhere
    · exact fun f member selected => not_tallied (unselected f member selected)
    · exact fun f member selected => not_tallied (unselected f member selected)

theorem append_spec (logged : WellLogged log)
    (fresh : f.feedbackId ∉ log.map FeedbackRecord.feedbackId)
    (waiting : f.review = some .pending → f.projection = none)
    (closed : f.review = some .dismissed → f.projection.isSome = true)
    (notTallied : tallied f = false) :
    WellLogged (log ++ [f]) ∧ (log ++ [f]).filter tallied = log.filter tallied := by
  refine ⟨⟨nodup_map_insert fresh logged.unique, ?_, ?_⟩, ?_⟩
  · intro g member isPending
    rcases mem_concat.mp member with isOld | rfl
    · exact logged.waiting g isOld isPending
    · exact waiting isPending
  · intro g member isDismissed
    rcases mem_concat.mp member with isOld | rfl
    · exact logged.closed g isOld isDismissed
    · exact closed isDismissed
  · rw [filter_append, filter_singleton, notTallied]
    simp

theorem filter_setProjection (unkind : ∀ g ∈ log, g.feedbackId ∈ ids →
      kind g = false ∧ kind { g with projection := some projection } = false) :
    (setProjection log ids projection).filter kind = log.filter kind := by
  apply filter_updateWhere
  · exact fun g member selected => (unkind g member (of_decide_eq_true selected)).1
  · exact fun g member selected => (unkind g member (of_decide_eq_true selected)).2

theorem mem_setProjection (member : g ∈ setProjection log ids projection) :
    (∃ old ∈ log, old.feedbackId ∈ ids ∧ g = { old with projection := some projection }) ∨
      (g ∈ log ∧ g.feedbackId ∉ ids) := by
  rcases mem_updateWhere_cases member with ⟨old, isOld, selected, rfl⟩ | ⟨isOld, notSelected⟩
  · exact .inl ⟨old, isOld, of_decide_eq_true selected, rfl⟩
  · exact .inr ⟨isOld, of_decide_eq_false notSelected⟩

theorem WellLogged.setProjection (logged : WellLogged log)
    (waits : ∀ g ∈ log, g.feedbackId ∈ ids → g.review ≠ some .pending)
    (projection : FeedbackProjection) : WellLogged (setProjection log ids projection) := by
  refine ⟨nodup_map_updateWhere (fun _ => rfl) logged.unique, ?_, ?_⟩
  · intro g member isPending
    rcases mem_setProjection member with ⟨old, isOld, isId, rfl⟩ | ⟨isOld, -⟩
    · exact absurd isPending (waits old isOld isId)
    · exact logged.waiting g isOld isPending
  · intro g member isDismissed
    rcases mem_setProjection member with ⟨old, -, -, rfl⟩ | ⟨isOld, -⟩
    · rfl
    · exact logged.closed g isOld isDismissed

theorem WellLogged.record_of_id (logged : WellLogged log) (member : f ∈ log)
    (other : g ∈ log) (sameId : g.feedbackId ∈ [f.feedbackId]) : g = f :=
  inj_on_of_nodup_map logged.unique other member (mem_singleton.mp sameId)

theorem not_own_of_mine (isMine : mine voter f = true) : ownWord f = false := by
  obtain ⟨approved, isVote, isVoter⟩ := mine_iff.mp isMine
  simp [ownWord, approved, isVote, isVoter]

theorem own_spec (logged : WellLogged log) (member : f ∈ log) (isOwn : ownWord f = true)
    (waits : f.review ≠ some .pending) (unprojected : f.projection = none)
    (projection : FeedbackProjection) :
    WellLogged (setProjection log [f.feedbackId] projection) ∧
      (∀ voter, counted (setProjection log [f.feedbackId] projection) voter = counted log voter) ∧
      (∀ voter, standing (setProjection log [f.feedbackId] projection) voter = standing log voter) ∧
      reinforcements (setProjection log [f.feedbackId] projection) =
        reinforcements log + (if projection = .ran .memoryReinforced then 1 else 0) ∧
      ((setProjection log [f.feedbackId] projection).any ownRetraction = true ↔
        log.any ownRetraction = true ∨ retracts projection = true) := by
  have logged' : WellLogged (setProjection log [f.feedbackId] projection) := by
    apply logged.setProjection
    intro g isLogged isId
    rw [logged.record_of_id member isLogged isId]
    exact waits
  have notMine : ∀ voter, mine voter f = false := by
    intro voter
    by_contra isMine
    rw [Bool.not_eq_false] at isMine
    rw [not_own_of_mine isMine] at isOwn
    cases isOwn
  have countedSame : ∀ voter, counted (setProjection log [f.feedbackId] projection) voter =
      counted log voter := by
    intro voter
    apply counted_of_filter logged' logged
    apply filter_setProjection
    intro g isLogged isId
    rw [logged.record_of_id member isLogged isId]
    have notMine' : mine voter { f with projection := some projection } = false := notMine voter
    simp [projectedVote, notMine, notMine']
  refine ⟨logged', countedSame, ?_, ?_, ?_⟩
  · intro voter
    apply standing_of_filter logged' logged
    apply filter_setProjection
    intro g isLogged isId
    rw [logged.record_of_id member isLogged isId]
    have notMine' : mine voter { f with projection := some projection } = false := notMine voter
    simp [isAppliedVote, notMine, notMine']
  · have before : ownReinforcement f = false := by simp [ownReinforcement, unprojected]
    have after : ownReinforcement { f with projection := some projection } =
        decide (projection = .ran .memoryReinforced) := by
      have isOwn' : ownWord { f with projection := some projection } = true := isOwn
      simp [ownReinforcement, isOwn']
    rw [reinforcements, reinforcements, votersFor_congr countedSame, VoteLog.setProjection,
      countP_updateWhere_key logged.unique member (by simp) before, after]
    simp only [decide_eq_true_eq]
    omega
  · rw [any_eq_true, any_eq_true]
    have isOwn' : ownWord { f with projection := some projection } = true := isOwn
    constructor
    · intro found
      obtain ⟨g, isLogged, kind⟩ := found
      rcases mem_setProjection isLogged with ⟨old, isOld, isId, rfl⟩ | ⟨isOld, -⟩
      · rw [ownRetraction, decide_eq_true_eq] at kind
        exact .inr kind.2
      · exact .inl ⟨g, isOld, kind⟩
    · intro found
      rcases found with ⟨g, isLogged, kind⟩ | isRetraction
      · refine ⟨g, kept_mem isLogged ?_, kind⟩
        rw [decide_eq_false_iff_not]
        intro isId
        rw [logged.record_of_id member isLogged isId, ownRetraction, unprojected] at kind
        simp at kind
      · refine ⟨_, updated_mem member (by simp), ?_⟩
        rw [ownRetraction, decide_eq_true_eq]
        exact ⟨isOwn', isRetraction⟩

section

variable (isVoter : voterKey vote = some voter)
include isVoter

theorem sameVoter_iff :
    sameVoter vote f = true ↔ voterKey f = some voter := by
  rw [sameVoter, ← isVoter, voterKey, voterKey]
  cases user : vote.userId with
  | some userId =>
    cases f.userId with
    | some other => simp
    | none => cases f.agentId <;> simp
  | none =>
    rw [voterKey, user] at isVoter
    obtain ⟨agentId, agent, -⟩ := Option.map_eq_some_iff.mp isVoter
    cases f.userId with
    | some other => simp [agent]
    | none => cases f.agentId <;> simp [agent]

theorem appliedVotes_eq :
    appliedVotes log vote = (newestFirst FeedbackRecord.key (log.filter (mine voter))).take 20 := by
  rw [appliedVotes]
  congr 3
  funext g
  rw [Bool.eq_iff_iff, decide_eq_true_eq, mine_iff, sameVoter_iff isVoter]

theorem mem_appliedVotes (member : f ∈ appliedVotes log vote) : f ∈ log ∧ mine voter f = true := by
  rw [appliedVotes_eq isVoter] at member
  exact mem_filter.mp (mem_newestFirst.mp (mem_of_mem_take member))

end

/-- One of the twenty newest approved votes of its voter. -/
def recent (log : List FeedbackRecord) (voter : Voter) (f : FeedbackRecord) : Prop :=
  ((log.filter (mine voter)).countP fun g => f.key < g.key) < 20
deriving Decidable

theorem find_applied (logged : WellLogged log) (isVoter : voterKey vote = some voter) :
    (appliedVotes log vote).find? kind = some f ↔
      newest FeedbackRecord.key (fun g => mine voter g && kind g) log = some f ∧
        recent log voter f := by
  have distinct : ((log.filter (mine voter)).map FeedbackRecord.key).Nodup := by
    apply List.Nodup.of_map fun key => (ofLex key).2
    rw [map_map]
    exact logged.unique.sublist (List.Sublist.map _ filter_sublist)
  rw [appliedVotes_eq isVoter, find?_take_newestFirst distinct, newest_filter logged.distinct]
  rfl

def before (voter : Voter) (vote f : FeedbackRecord) : Bool :=
  mine voter f ∧ f.feedbackId ≠ vote.feedbackId ∧ f.key < vote.key ∧
    f.projection ≠ some .alreadyCounted

theorem appliedVote_iff (logged : WellLogged log) (isVoter : voterKey vote = some voter) :
    appliedVote log vote = some f ↔
      newest FeedbackRecord.key (before voter vote) log = some f ∧ recent log voter f := by
  have kinds : (fun g => mine voter g && decide (g.feedbackId ≠ vote.feedbackId ∧
      g.key < vote.key ∧ g.projection ≠ some .alreadyCounted)) = before voter vote := by
    funext g
    rw [Bool.eq_iff_iff, Bool.and_eq_true, decide_eq_true_eq, before, decide_eq_true_eq]
  rw [appliedVote, find_applied logged isVoter, kinds]

theorem key_lt_of_projected {latest : FeedbackRecord}
    (newer : ∀ g ∈ counted log voter, g.key < latest.key) (isLogged : g ∈ log)
    (projected : projectedVote voter g = true) : g.key < latest.key := by
  cases isCounted : counted log voter with
  | none =>
    rw [newest_eq_none_iff.mp isCounted g isLogged] at projected
    cases projected
  | some vote =>
    have below := (newest_spec isCounted).2.2 g isLogged projected
    exact below.trans_lt (newer vote isCounted)

theorem settleEarlier_eq (logged : WellLogged log) (member : f ∈ log)
    (isVoter : voterKey f = some voter) (unprojected : f.projection = none)
    (newer : ∀ g ∈ counted log voter, g.key < f.key)
    (isRecent : ∀ prior ∈ standing log voter, recent log voter prior) :
    (settleEarlier log f).2 = standing log voter := by
  have kinds : ∀ g ∈ log, (mine voter g &&
      (decide (g.feedbackId ≠ f.feedbackId) && decide ¬f.key < g.key &&
        g.projection.any fun projection => !stoodDown projection)) = isAppliedVote voter g := by
    intro g isLogged
    rw [Bool.eq_iff_iff]
    simp only [Bool.and_eq_true, decide_eq_true_eq]
    constructor
    · intro holds
      rw [isAppliedVote, decide_eq_true_eq]
      exact ⟨holds.1, holds.2.2⟩
    · intro applied
      obtain ⟨isMine, projection, isProjected, stands⟩ := isAppliedVote_iff.mp applied
      have isOther : g.feedbackId ≠ f.feedbackId := by
        intro sameId
        rw [logged.record_of_id member isLogged (mem_singleton.mpr sameId), unprojected]
          at isProjected
        cases isProjected
      have isOlder := key_lt_of_projected newer isLogged (projected_of_applied applied)
      refine ⟨isMine, ⟨isOther, isOlder.not_gt⟩, ?_⟩
      rw [isProjected, Option.any_some, stands]
      rfl
  apply Option.ext
  intro prior
  rw [settleEarlier, earlierVotes, find?_filter]
  simp only [Bool.decide_and, Bool.decide_eq_true]
  rw [find_applied logged isVoter, newest_congr kinds]
  exact and_iff_left_of_imp (isRecent prior)

theorem mem_earlierVotes {record : FeedbackRecord} (isVoter : voterKey record = some voter)
    (member : f ∈ earlierVotes log record) :
    f ∈ log ∧ mine voter f = true ∧ f.feedbackId ≠ record.feedbackId ∧ f.key < record.key := by
  rw [earlierVotes, mem_filter, decide_eq_true_eq] at member
  obtain ⟨isApplied, isOther, notLater⟩ := member
  obtain ⟨isLogged, isMine⟩ := mem_appliedVotes isVoter isApplied
  refine ⟨isLogged, isMine, isOther, lt_of_le_of_ne (not_lt.mp notLater) ?_⟩
  exact fun same => isOther (keyId same)

theorem not_mine_of_other {other : Voter} (isMine : mine voter f = true)
    (isOther : other ≠ voter) : mine other f = false := by
  by_contra also
  rw [Bool.not_eq_false] at also
  have first := (mine_iff.mp isMine).2.2
  rw [(mine_iff.mp also).2.2] at first
  exact isOther (Option.some.inj first)

private def closedIds (log : List FeedbackRecord) (record : FeedbackRecord) : List String :=
  ((earlierVotes log record).filter fun found => found.projection = none).map
    FeedbackRecord.feedbackId

section Vote

variable (logged : WellLogged log) (member : f ∈ log) (isMine : mine voter f = true)
include logged member isMine

omit member in
theorem closed_vote (isLogged : g ∈ log) (isClosed : g.feedbackId ∈ closedIds log f) :
    mine voter g = true ∧ g.projection = none ∧ g.feedbackId ≠ f.feedbackId ∧ g.key < f.key := by
  obtain ⟨old, isOld, sameId⟩ := mem_map.mp isClosed
  rw [mem_filter, decide_eq_true_eq] at isOld
  obtain ⟨isRecord, isMine', isOther, earlier⟩ := mem_earlierVotes (mine_iff.mp isMine).2.2 isOld.1
  have same : old = g := inj_on_of_nodup_map logged.unique isRecord isLogged sameId
  rw [same] at isOld isMine' isOther earlier
  exact ⟨isMine', isOld.2, isOther, earlier⟩

omit member in
theorem filter_settled (unkind : ∀ g, mine voter g = true → g.projection = none →
      kind g = false ∧ kind { g with projection := some .replaced } = false) :
    (settleEarlier log f).1.filter kind = log.filter kind := by
  apply filter_setProjection
  intro g isLogged isClosed
  obtain ⟨isMine', unprojected, -, -⟩ := closed_vote logged isMine isLogged isClosed
  exact unkind g isMine' unprojected

omit member in
theorem settled_logged : WellLogged (settleEarlier log f).1 := by
  apply logged.setProjection
  intro g isLogged isClosed
  rw [(mine_iff.mp (closed_vote logged isMine isLogged isClosed).1).1]
  decide

theorem settled_member : f ∈ (settleEarlier log f).1 := by
  apply kept_mem member
  rw [decide_eq_false_iff_not]
  intro isClosed
  exact (closed_vote logged isMine member isClosed).2.2.1 rfl

variable (unprojected : f.projection = none) (projection : FeedbackProjection)
include unprojected

theorem filter_voted (unkind : ∀ g, mine voter g = true → g.projection = none →
      kind g = false ∧ kind { g with projection := some .replaced } = false)
    (unkindVote : kind { f with projection := some projection } = false) :
    (setProjection (settleEarlier log f).1 [f.feedbackId] projection).filter kind =
      log.filter kind := by
  rw [← filter_settled logged isMine unkind]
  apply filter_setProjection
  intro g isLogged isId
  have settled := settled_logged logged isMine
  rw [settled.record_of_id (settled_member logged member isMine) isLogged isId]
  exact ⟨(unkind f isMine unprojected).1, unkindVote⟩

omit unprojected in
theorem voted_logged :
    WellLogged (setProjection (settleEarlier log f).1 [f.feedbackId] projection) := by
  have settled := settled_logged logged isMine
  apply settled.setProjection
  intro g isLogged isId
  rw [settled.record_of_id (settled_member logged member isMine) isLogged isId,
    (mine_iff.mp isMine).1]
  decide

section

variable (newer : ∀ g ∈ counted log voter, g.key < f.key)
include newer

omit unprojected in
theorem newest_voted
    (isLogged : g ∈ setProjection (settleEarlier log f).1 [f.feedbackId] projection)
    (isProjected : projectedVote voter g = true) :
    g = { f with projection := some projection } ∨ g.key < f.key := by
  have settled := settled_logged logged isMine
  rcases mem_setProjection isLogged with ⟨old, isOld, isId, rfl⟩ | ⟨isOld, -⟩
  · rw [settled.record_of_id (settled_member logged member isMine) isOld isId]
    exact .inl rfl
  · rcases mem_setProjection isOld with ⟨older, isOlder, isClosed, rfl⟩ | ⟨isOlder, -⟩
    · exact .inr (closed_vote logged isMine isOlder isClosed).2.2.2
    · exact .inr (key_lt_of_projected newer isOlder isProjected)

theorem vote_spec :
    WellLogged (setProjection (settleEarlier log f).1 [f.feedbackId] projection) ∧
      (∀ w, counted (setProjection (settleEarlier log f).1 [f.feedbackId] projection) w =
        if w = voter then some { f with projection := some projection } else counted log w) ∧
      (∀ w, standing (setProjection (settleEarlier log f).1 [f.feedbackId] projection) w =
        if w = voter ∧ stoodDown projection = false then
          some { f with projection := some projection }
        else standing log w) ∧
      (setProjection (settleEarlier log f).1 [f.feedbackId] projection).countP
        ownReinforcement = log.countP ownReinforcement ∧
      (setProjection (settleEarlier log f).1 [f.feedbackId] projection).any ownRetraction =
        log.any ownRetraction := by
  have logged' := voted_logged logged member isMine projection
  have isMine' : mine voter { f with projection := some projection } = true := isMine
  have isVoted : { f with projection := some projection } ∈
      setProjection (settleEarlier log f).1 [f.feedbackId] projection :=
    updated_mem (settled_member logged member isMine) (by simp)
  have notOwn : ∀ g, mine voter g = true → ownWord g = false ∧
      ownWord { g with projection := some .replaced } = false := by
    intro g isMine
    have closed : mine voter { g with projection := some .replaced } = true := isMine
    exact ⟨not_own_of_mine isMine, not_own_of_mine closed⟩
  refine ⟨logged', ?_, ?_, ?_, ?_⟩
  · intro w
    split
    case isTrue isVoter =>
      rw [isVoter, counted, newest_eq_some_iff logged'.distinct]
      refine ⟨isVoted, projectedVote_iff.mpr ⟨isMine', rfl⟩, fun g isLogged isProjected => ?_⟩
      rcases newest_voted logged member isMine projection newer isLogged isProjected
        with same | below
      · rw [same]
      · exact below.le
    case isFalse isOther =>
      apply counted_of_filter logged' logged
      apply filter_voted logged member isMine unprojected projection
      · intro g isMine' _
        have closed : mine voter { g with projection := some .replaced } = true := isMine'
        simp [projectedVote, not_mine_of_other isMine' isOther, not_mine_of_other closed isOther]
      · simp [projectedVote, not_mine_of_other isMine' isOther]
  · intro w
    split
    case isTrue isVoter =>
      rw [isVoter.1, standing, newest_eq_some_iff logged'.distinct]
      refine ⟨isVoted, isAppliedVote_iff.mpr ⟨isMine', projection, rfl, isVoter.2⟩,
        fun g isLogged isApplied => ?_⟩
      rcases newest_voted logged member isMine projection newer isLogged
        (projected_of_applied isApplied) with same | below
      · rw [same]
      · exact below.le
    case isFalse isOther =>
      apply standing_of_filter logged' logged
      apply filter_voted logged member isMine unprojected projection
      · intro g _ unprojected
        simp [isAppliedVote, unprojected, stoodDown]
      · by_cases sameVoter : w = voter
        · have stands : stoodDown projection = true := by
            by_contra notStood
            rw [Bool.not_eq_true] at notStood
            exact isOther ⟨sameVoter, notStood⟩
          simp [isAppliedVote, stands]
        · simp [isAppliedVote, not_mine_of_other isMine' sameVoter]
  · apply countP_of_filter
    apply filter_voted logged member isMine unprojected projection
    · intro g isMine' _
      simp [ownReinforcement, notOwn g isMine']
    · simp [ownReinforcement, not_own_of_mine isMine']
  · apply any_of_filter
    apply filter_voted logged member isMine unprojected projection
    · intro g isMine' _
      simp [ownRetraction, notOwn g isMine']
    · simp [ownRetraction, not_own_of_mine isMine']

end

end Vote

end Log

end MemoryService.Feedback.VoteLog
