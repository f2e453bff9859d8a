import MemoryService.Feedback.OneVote

/-!
# Runs of votes on one memory

Storing, reviewing, sweeping and replacing keep what the memory bears; so does a projection that
is admitted.
-/

namespace MemoryService.Feedback.VoteLog

open Domain Foundation Memory Option List

variable {newId : String} {now : Instant} {log : List FeedbackRecord} {record : FeedbackRecord}
  {store : Votes.Store}

section Runs

variable {normalizedHash : String → Digest} {tenantId memoryId : String}
  {base : CanonicalMemory} {state next : State}

theorem own_or_mine (record : FeedbackRecord) :
    ownWord record = true ∨ ∃ voter, voterKey record = some voter ∧ mine voter record = true := by
  by_cases isOwn : ownWord record = true
  · exact .inl isOwn
  · rw [ownWord, decide_eq_true_eq, not_not] at isOwn
    obtain ⟨approved, isVote, someone⟩ := isOwn
    obtain ⟨voter, isVoter⟩ := ne_none_iff_exists'.mp someone
    exact .inr ⟨voter, isVoter, mine_iff.mpr ⟨approved, isVote, isVoter⟩⟩

theorem project_cases {feedbackId : String}
    (stepped : step normalizedHash tenantId memoryId state (.project feedbackId newId now) =
      some next) :
    next = state ∨ ∃ record,
      (state.log.find? fun r => r.feedbackId = feedbackId) = some record ∧
        record.projection = none ∧ record.review ≠ some .pending ∧
        newId ∉ state.store.rows.map CanonicalMemory.memoryId ∧
        next = project normalizedHash tenantId memoryId now newId record state := by
  unfold step at stepped
  cases found : state.log.find? fun r => r.feedbackId = feedbackId with
  | none =>
    simp only [found, some.injEq] at stepped
    exact .inl stepped.symm
  | some record =>
    simp only [found] at stepped
    split at stepped
    case isTrue _ => exact .inl (some.inj stepped).symm
    case isFalse isOpen =>
      obtain ⟨fresh, stepped⟩ := ite_none_left_eq_some.mp stepped
      rw [not_or, Bool.not_eq_true, isSome_eq_false_iff, isNone_iff_eq_none]
        at isOpen
      refine .inr ⟨record, rfl, isOpen.1, ?_, fresh, (some.inj stepped).symm⟩
      intro waits
      exact isOpen.2 (by rw [FeedbackRecord.pending, waits]; decide)

theorem Inv.step {action : Action} (inv : Inv tenantId memoryId base state)
    (stepped : VoteLog.step normalizedHash tenantId memoryId state action = some next)
    (admitted : Admitted memoryId base state action) : Inv tenantId memoryId base next := by
  cases action with
  | submit feedback sender now =>
    rw [VoteLog.step] at stepped
    split at stepped
    case isTrue _ =>
      rw [← some.inj stepped]
      exact inv
    case isFalse isNew =>
      rw [← some.inj stepped]
      apply inv.submit
      intro isId
      obtain ⟨f, member, sameId⟩ := mem_map.mp isId
      exact isNew (any_eq_true.mpr ⟨f, member, decide_eq_true sameId⟩)
  | review feedbackId approve => exact inv.review stepped
  | archive now => exact inv.archive stepped
  | supersede replacement now => exact inv.supersede stepped
  | project feedbackId newId now =>
    rcases project_cases stepped with same | ⟨record, found, unprojected, waits, fresh, isNext⟩
    · rw [same]
      exact inv
    · rw [isNext]
      have member := mem_of_find?_eq_some found
      rcases own_or_mine record with isOwn | ⟨voter, isVoter, isMine⟩
      · exact inv.project_own member isOwn unprojected waits fresh
      · obtain ⟨newer, isRecent, effective⟩ :=
          admitted record found unprojected voter isVoter isMine
        exact inv.projectVote member isMine unprojected fresh newer isRecent effective

def KeepsReports (log log' : List FeedbackRecord) : Prop :=
  ∀ f ∈ log', f.projection = some .alreadyCounted →
    ∃ g ∈ log, g.feedbackId = f.feedbackId ∧ g.projection = some .alreadyCounted

theorem KeepsReports.trans {log' log'' : List FeedbackRecord} (first : KeepsReports log log')
    (second : KeepsReports log' log'') : KeepsReports log log'' := by
  intro f member reported
  obtain ⟨g, isG, sameId, reportedG⟩ := second f member reported
  obtain ⟨e, isE, sameId', reportedE⟩ := first g isG reportedG
  exact ⟨e, isE, sameId'.trans sameId, reportedE⟩

theorem keepsReports_refl (log : List FeedbackRecord) : KeepsReports log log :=
  fun f member reported => ⟨f, member, rfl, reported⟩

theorem keepsReports_review (log : List FeedbackRecord) (ids : List String)
    (review : ReviewState) : KeepsReports log (setReview log ids review) := by
  intro f member reported
  rcases mem_updateWhere_cases member with ⟨old, isOld, -, rfl⟩ | ⟨isOld, -⟩
  · exact ⟨old, isOld, rfl, reported⟩
  · exact ⟨f, isOld, rfl, reported⟩

theorem keepsReports_projection {ids : List String}
    {projection : FeedbackProjection} (isOther : projection ≠ .alreadyCounted) :
    KeepsReports log (setProjection log ids projection) := by
  intro f member reported
  rcases mem_setProjection member with ⟨old, -, -, rfl⟩ | ⟨isOld, -⟩
  · exact absurd (some.inj reported) isOther
  · exact ⟨f, isOld, rfl, reported⟩

theorem fair_of_keeps (keeps : KeepsReports state.log next.log) : FairlyReported state next := by
  intro f member reported unreported
  obtain ⟨g, isG, sameId, reportedG⟩ := keeps f member reported
  rw [unreported g isG sameId] at reportedG
  cases reportedG

theorem fair_submit (inv : Inv tenantId memoryId base state)
    {feedback : FeedbackRecord} {sender : Credential}
    (admitted : Admitted memoryId base state (.submit feedback sender now)) :
    FairlyReported state (submit feedback sender now state) := by
  by_cases isCounted : countedOnce (stored feedback sender now) = true
  case neg =>
    apply fair_of_keeps
    intro f member reported
    rw [VoteLog.submit, if_neg isCounted] at member
    rcases mem_concat.mp member with isOld | rfl
    · exact ⟨f, isOld, rfl, reported⟩
    · cases reported
  have keeps : KeepsReports state.log
      (replaceEarlierVotes state.log (stored feedback sender now)) := by
    apply (keepsReports_review _ _ _).trans
    exact keepsReports_projection (by decide)
  intro f member reported unreported
  rw [VoteLog.submit, if_pos isCounted] at member
  rcases mem_append.mp member with isOld | isNew
  · exact @fair_of_keeps state { state with log := _ } keeps f isOld reported unreported
  · rw [mem_singleton.mp isNew, countOnce] at reported ⊢
    simp only at reported ⊢
    split at reported
    case isFalse _ => cases reported
    case isTrue isRepeat =>
      rw [if_pos isRepeat]
      rw [countedOnce, decide_eq_true_eq] at isCounted
      obtain ⟨voter, isVoter⟩ := ne_none_iff_exists'.mp isCounted.2.2
      obtain ⟨found, isFound, sameThumb⟩ : ∃ found,
          appliedVote state.log (stored feedback sender now) = some found ∧
            found.sameThumb (stored feedback sender now) = true := by
        cases isFound : appliedVote state.log (stored feedback sender now) with
        | none => simp [isFound] at isRepeat
        | some found => exact ⟨found, rfl, by simpa [isFound] using isRepeat⟩
      obtain ⟨isNewest, isRecent⟩ := (appliedVote_iff inv.logged isVoter).mp isFound
      obtain ⟨stands, same⟩ := admitted (decide_eq_true isCounted) voter isVoter found isNewest
        isRecent sameThumb
      have isBefore := (newest_spec isNewest).2.1
      rw [before, decide_eq_true_eq] at isBefore
      refine ⟨voter, found, isVoter, stands, isBefore.2.2.1, same, ?_⟩
      rw [← inv.effect_standing, stands, map_some, same]
      rfl

theorem projectMemory_ne :
    (projectMemory normalizedHash tenantId memoryId now newId record store).2 ≠
      .alreadyCounted := by
  rw [projectMemory]
  split
  case isTrue _ => simp
  case isFalse _ =>
    split
    case isTrue _ => simp
    case isFalse _ =>
      cases store.current now tenantId memoryId with
      | none => simp
      | some memory =>
        simp only
        split
        · simp
        · simp

theorem keepsReports_settleEarlier (log : List FeedbackRecord) (record : FeedbackRecord) :
    KeepsReports log (settleEarlier log record).1 :=
  keepsReports_projection (by decide)

theorem reported_eq (logged : WellLogged log) {f : FeedbackRecord} (isRecord : record ∈ log)
    (member : f ∈ setProjection (settleEarlier log record).1 [record.feedbackId]
      .alreadyCounted)
    (reported : f.projection = some .alreadyCounted) :
    f = { record with projection := some .alreadyCounted } ∨
      ∃ g ∈ log, g.feedbackId = f.feedbackId ∧ g.projection = some .alreadyCounted := by
  rcases mem_setProjection member with ⟨old, isOld, isId, rfl⟩ | ⟨isOld, -⟩
  · left
    rcases mem_setProjection isOld with ⟨older, isOlder, -, rfl⟩ | ⟨isLogged, -⟩
    · rw [logged.record_of_id isRecord isOlder isId]
    · rw [logged.record_of_id isRecord isLogged isId]
  · exact .inr (keepsReports_settleEarlier log record f isOld reported)

theorem fair_project (inv : Inv tenantId memoryId base state)
    (member : record ∈ state.log)
    (unprojected : record.projection = none) (waits : record.review ≠ some .pending)
    (admitted : ∀ voter ∈ voterKey record, mine voter record = true →
      (∀ g ∈ counted state.log voter, g.key < record.key) ∧
        (∀ prior ∈ standing state.log voter, recent state.log voter prior) ∧
        ∀ r ∈ Statements.row memoryId state.store.rows, Effective base state.log voter record r) :
    FairlyReported state (project normalizedHash tenantId memoryId now newId record state) := by
  have open_ : record.review ≠ some .dismissed := by
    intro isDismissed
    have closed := inv.logged.closed record member isDismissed
    rw [unprojected] at closed
    cases closed
  rcases own_or_mine record with isOwn | ⟨voter, isVoter, isMine⟩
  · rw [project_own_eq isOwn waits open_]
    exact fair_of_keeps (keepsReports_projection projectMemory_ne)
  obtain ⟨newer, isRecent, effective⟩ := admitted voter isVoter isMine
  rw [projectVote_eq isMine
    (settleEarlier_eq inv.logged member isVoter unprojected newer isRecent)]
  by_cases isRepeat : (standing state.log voter).any (fun prior => prior.sameThumb record) = true
  case neg =>
    rw [if_neg isRepeat]
    apply fair_of_keeps
    exact (keepsReports_settleEarlier state.log record).trans
      (keepsReports_projection projectMemory_ne)
  rw [if_pos isRepeat]
  intro f isNext reported unreported
  rcases reported_eq inv.logged member isNext reported with isRecord | ⟨g, isG, sameId, reportedG⟩
  case inr =>
    rw [unreported g isG sameId] at reportedG
    cases reportedG
  rw [isRecord]
  obtain ⟨r, held, bears⟩ := inv.row
  have effective := effective r held.row
  unfold Effective at effective
  cases stands : standing state.log voter with
  | none => simp [stands] at isRepeat
  | some prior =>
    rw [stands, any_some] at isRepeat
    simp only [stands, isRepeat, if_true] at effective
    refine ⟨voter, prior, isVoter, stands, ?_, effective, ?_⟩
    · obtain ⟨isLogged, applied, -⟩ := newest_spec stands
      exact key_lt_of_projected newer isLogged (projected_of_applied applied)
    · rw [← inv.effect_standing, stands, map_some, effective]
      rfl

theorem Inv.fair {action : Action} (inv : Inv tenantId memoryId base state)
    (stepped : VoteLog.step normalizedHash tenantId memoryId state action = some next)
    (admitted : Admitted memoryId base state action) : FairlyReported state next := by
  cases action with
  | submit feedback sender now =>
    rw [VoteLog.step] at stepped
    split at stepped
    case isTrue _ =>
      rw [← some.inj stepped]
      exact fair_of_keeps (keepsReports_refl _)
    case isFalse _ =>
      rw [← some.inj stepped]
      exact fair_submit inv admitted
  | review feedbackId approve =>
    apply fair_of_keeps
    unfold VoteLog.step at stepped
    cases found : state.log.find? fun r => r.feedbackId = feedbackId with
    | none => simp [found] at stepped
    | some record =>
      simp only [found] at stepped
      obtain ⟨-, stepped⟩ := ite_none_right_eq_some.mp stepped
      split at stepped
      case isTrue _ =>
        rw [← some.inj stepped]
        exact keepsReports_review _ _ _
      case isFalse _ =>
        rw [← some.inj stepped]
        apply (keepsReports_review _ _ _).trans
        exact keepsReports_projection (by decide)
  | archive now =>
    apply fair_of_keeps
    rw [VoteLog.step, some.injEq] at stepped
    subst stepped
    cases state.store.current now tenantId memoryId with
    | none => exact keepsReports_refl _
    | some memory => exact keepsReports_refl _
  | supersede replacement now =>
    apply fair_of_keeps
    rw [VoteLog.step] at stepped
    obtain ⟨-, stepped⟩ := ite_none_left_eq_some.mp stepped
    rw [some.injEq] at stepped
    subst stepped
    cases state.store.current now tenantId memoryId with
    | none => exact keepsReports_refl _
    | some memory => exact keepsReports_refl _
  | project feedbackId newId now =>
    rcases project_cases stepped with same | ⟨record, found, unprojected, waits, fresh, isNext⟩
    · rw [same]
      exact fair_of_keeps (keepsReports_refl _)
    · rw [isNext]
      exact fair_project inv (mem_of_find?_eq_some found) unprojected waits
        (admitted record found unprojected)

structure Unvoted (tenantId memoryId : String) (base : CanonicalMemory) (store : Votes.Store) :
    Prop where
  held : Held tenantId memoryId store base
  notRetracted : base.temporal.status ≠ .retracted

theorem Unvoted.inv (unvoted : Unvoted tenantId memoryId base store) :
    Inv tenantId memoryId base { store } where
  row := by
    refine ⟨base, unvoted.held, rfl, rfl, ?_⟩
    simp [unvoted.notRetracted, votersFor, voters]
  logged := ⟨nodup_nil, by simp, by simp⟩
  alike := by
    intro voter vote isCounted
    cases isCounted
  projects := by
    intro voter prior stands
    cases stands

/-- Along a run that is admitted the memory bears one vote of each voter, and what a further
step that is admitted reports as already counted stands. -/
theorem one_vote_along {store : Votes.Store} {actions : List Action} {target : State}
    (unvoted : Unvoted tenantId memoryId base store)
    (reached : run (step normalizedHash tenantId memoryId) { store } actions = some target)
    (admitted : Meets (step normalizedHash tenantId memoryId) (Admitted memoryId base)
      { store } actions) :
    target.OneVote memoryId base ∧
      ∀ action after, step normalizedHash tenantId memoryId target action = some after →
        Admitted memoryId base target action → FairlyReported target after := by
  have inv : Inv tenantId memoryId base target :=
    run_invariant_of_meets (fun stepped admitted inv => Inv.step inv stepped admitted)
      reached admitted unvoted.inv
  obtain ⟨r, held, bears⟩ := inv.row
  exact ⟨⟨r, held.row, bears⟩, fun action after stepped admitted => inv.fair stepped admitted⟩

end Runs

def tea : CanonicalMemory where
  memoryId := "mem_tea"
  tenantId := "acme"
  ownerPrincipal := "user:ada"
  memoryType := .user
  content := "I prefer tea"
  normalizedHash := ⟨"2b", rfl⟩
  confidence := 1 / 2
  temporal := { observedAt := ⟨1⟩ }
  evidence := [⟨.message, "msg_tea"⟩]
  updatedAt := ⟨1⟩

theorem unvoted_tea : Unvoted "acme" "mem_tea" tea { rows := [tea] } where
  held :=
    { unique := by decide
      underived := by simp
      stored := List.mem_singleton_self tea
      sameId := rfl
      sameTenant := rfl
      standing := rfl
      notDerived := rfl }
  notRetracted := by decide

def cast (feedbackId userId : String) (verdict : FeedbackVerdict) (now : Nat) : List Action :=
  [.submit { feedbackId, userId := some userId, verdict, createdAt := ⟨now⟩ } {} ⟨now⟩,
    .review feedbackId true,
    .project feedbackId "mem_new" ⟨now + 1⟩]

def toAndFro : List Action :=
  cast "fb_1" "ada" .confirm 10 ++ cast "fb_2" "bob" .confirm 20 ++ cast "fb_3" "ada" .reject 30 ++
    cast "fb_4" "ada" .confirm 40 ++ [.archive ⟨50⟩]

theorem toAndFro_one_vote :
    ∃ target, run (step (fun _ => ⟨"2c", rfl⟩) "acme" "mem_tea") { store := { rows := [tea] } }
        toAndFro = some target ∧
      target.OneVote "mem_tea" tea :=
  exists_run (by decide +kernel) fun _ reached =>
    (one_vote_along unvoted_tea reached (by decide +kernel)).1

/-- Two voters reject the memory, and the first of them comes to confirm it: it is current
although the other's rejection is the newest vote of theirs. -/
theorem rejection_lost :
    ¬∀ actions target,
      run (step (fun _ => ⟨"2c", rfl⟩) "acme" "mem_tea") { store := { rows := [tea] } } actions =
        some target → target.OneVote "mem_tea" tea :=
  not_always_of_run
    (cast "fb_1" "ada" .reject 10 ++ cast "fb_2" "bob" .reject 20 ++ cast "fb_3" "ada" .confirm 30)
    (by decide +kernel)

end MemoryService.Feedback.VoteLog
