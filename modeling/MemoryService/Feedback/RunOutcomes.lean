import MemoryService.Feedback.VoteLog
import MemoryService.Foundation.Precedence

/-!
# The outcome of a run

A verdict on a run labels it, unless a source that ranks higher already did: a person over the
judge over the run's own status.
-/

namespace MemoryService.Feedback.RunOutcomes

open Domain Foundation Memory List Option

abbrev FeedbackVerdict := VoteLog.FeedbackVerdict

abbrev FeedbackSource := VoteLog.FeedbackSource

def verdictValue : FeedbackVerdict → String
  | .confirm => "confirm"
  | .reject => "reject"
  | .correct => "correct"
  | .approve => "approve"
  | .edit => "edit"

def affirming (verdict : FeedbackVerdict) : Bool := verdict = .confirm ∨ verdict = .approve

def outcomePrecedence : FeedbackSource → Nat
  | .system => 1
  | .judge => 2
  | .interrupt => 3
  | .human => 3

def outcomeTeaches (source : FeedbackSource) (success : Bool) : Bool := !success || source ≠ .system

structure EvidenceRef where
  sourceType : String
  sourceId : String

structure Verdict where
  feedbackId : String
  tenantId : String
  /-- the run -/
  targetId : String
  verdict : FeedbackVerdict
  source : FeedbackSource := .human
  evidenceRefs : List EvidenceRef := []

variable (record : Verdict)

def Verdict.affirmed : Bool := affirming record.verdict

def Verdict.memoryRefs : List String :=
  (record.evidenceRefs.filter fun ref =>
    ref.sourceType = "memory" || "mem_".toList.isPrefixOf ref.sourceId.toList).map
      EvidenceRef.sourceId

structure RunOutcome where
  tenantId : String
  runId : String
  success : Bool
  note : String
  source : FeedbackSource
  recordedAt : Instant
  deriving DecidableEq

structure Invocation where
  tenantId : String
  runId : String
  learnedAt : Option Instant

structure State where
  store : Votes.Store
  outcomes : List RunOutcome := []
  invocations : List Invocation := []
  learning : List String := []

def isOf (tenantId runId : String) (outcome : RunOutcome) : Bool :=
  outcome.tenantId = tenantId ∧ outcome.runId = runId

def State.outcome (state : State) (tenantId runId : String) : Option RunOutcome :=
  state.outcomes.find? (isOf tenantId runId)

def State.setOutcome (state : State) (outcome : RunOutcome) : State :=
  let known := isOf outcome.tenantId outcome.runId
  { state with
    outcomes :=
      if state.outcomes.any known then updateWhere known (fun _ => outcome) state.outcomes
      else state.outcomes ++ [outcome]
    invocations :=
      updateWhere (fun c => c.tenantId = outcome.tenantId ∧ c.runId = outcome.runId)
        (fun c => { c with learnedAt := none }) state.invocations }

def outcomeOf (now : Instant) : RunOutcome where
  tenantId := record.tenantId
  runId := record.targetId
  success := record.affirmed
  note := "feedback " ++ record.feedbackId ++ ": " ++ verdictValue record.verdict
  source := record.source
  recordedAt := now

def labelRun (learn : Bool) (now : Instant) (state : State) : State × Bool :=
  let existing := state.outcome record.tenantId record.targetId
  let rank := outcomePrecedence record.source
  if existing.any fun outcome => rank < outcomePrecedence outcome.source then (state, false)
  else
    let labelled := state.setOutcome (outcomeOf record now)
    (if learn then { labelled with learning := labelled.learning ++ [record.tenantId] }
      else labelled, true)

def adjustCited (now : Instant) (state : State) : State × List String :=
  let step :=
    if record.affirmed then Votes.citedConfidenceStep else -Votes.citedConfidenceStep
  let done := Votes.adjust now record.tenantId (Votes.citedMemoryIds record.memoryRefs) step
    (if record.affirmed then 1 else 0) state.store
  ({ state with store := done.1 }, done.2)

inductive RunProjection where
  | none (runId reason : String)
  | runLabelled (memoryIds : List String) (runId : String)

def projectRun (now : Instant) (state : State) : State × RunProjection :=
  let teaches := outcomeTeaches record.source record.affirmed
  let (labelled, done) := labelRun record teaches now state
  if !done then
    (labelled, .none record.targetId "a higher-ranked source already decided the run's outcome")
  else
    let (adjusted, memoryIds) :=
      if teaches then adjustCited record now labelled else (labelled, [])
    (adjusted, .runLabelled memoryIds record.targetId)

inductive Action where
  | project (record : Verdict) (now : Instant)
  /-- the memories, the recorded calls and the queue change in any other way -/
  | otherwise (store : Votes.Store) (invocations : List Invocation) (learning : List String)

def step (state : State) : Action → Option State
  | .project record now => some (projectRun record now state).1
  | .otherwise store invocations learning => some { state with store, invocations, learning }

abbrev Projected := Verdict × Instant

def rank (projected : Projected) : Nat := outcomePrecedence projected.1.source

def projectedOn (tenantId runId : String) (actions : List Action) : List Projected :=
  actions.filterMap fun action =>
    match action with
    | .project record now =>
      if record.tenantId = tenantId ∧ record.targetId = runId then some (record, now)
      else none
    | .otherwise _ _ _ => none

section

variable {state : State} {record : Verdict} {now : Instant} {tenantId runId : String}

theorem outcomeOf_set (state : State) (outcome : RunOutcome) :
    (state.setOutcome outcome).outcome outcome.tenantId outcome.runId = some outcome := by
  have isOwn : isOf outcome.tenantId outcome.runId outcome = true := by simp [isOf]
  simp only [State.outcome, State.setOutcome]
  split
  · rename_i isKnown
    exact find?_updateWhere_own isOwn isKnown
  · rename_i isNew
    have noneBefore : state.outcomes.find? (isOf outcome.tenantId outcome.runId) = none := by
      simpa using isNew
    rw [List.find?_append, noneBefore, none_or]
    exact List.find?_cons_of_pos isOwn

theorem outcomeOf_set_other (state : State) {outcome : RunOutcome}
    (isOther : ¬(outcome.tenantId = tenantId ∧ outcome.runId = runId)) :
    (state.setOutcome outcome).outcome tenantId runId = state.outcome tenantId runId := by
  have notOwn : isOf tenantId runId outcome = false := by
    rw [isOf]
    exact decide_eq_false isOther
  simp only [State.outcome, State.setOutcome]
  split
  · apply find?_updateWhere_other
    intro other isSame
    simp only [isOf, decide_eq_true_eq] at isSame
    refine ⟨?_, notOwn⟩
    rw [isOf, isSame.1, isSame.2]
    exact decide_eq_false isOther
  · rw [List.find?_append, List.find?_cons_of_neg (by simp [notOwn]), List.find?_nil, or_none]

theorem projectRun_cases (record : Verdict) (now : Instant) (state : State) :
    (∃ outcome, state.outcome record.tenantId record.targetId = some outcome ∧
        outcomePrecedence record.source < outcomePrecedence outcome.source ∧
        (projectRun record now state).1 = state) ∨
      (∀ outcome, state.outcome record.tenantId record.targetId = some outcome →
          outcomePrecedence outcome.source ≤ outcomePrecedence record.source) ∧
        (projectRun record now state).1.outcomes =
          (state.setOutcome (outcomeOf record now)).outcomes := by
  rw [projectRun, labelRun]
  cases isExisting : state.outcome record.tenantId record.targetId with
  | none =>
    refine .inr ⟨nofun, ?_⟩
    simp only [any_none, Bool.false_eq_true, if_false, Bool.not_true]
    split <;> rfl
  | some outcome =>
    by_cases above : outcomePrecedence record.source < outcomePrecedence outcome.source
    · refine .inl ⟨outcome, rfl, above, ?_⟩
      simp only [any_some, decide_eq_true above, if_true, Bool.not_false]
    · refine .inr ⟨?_, ?_⟩
      · intro other isOther
        rw [← some.inj isOther]
        exact Nat.le_of_not_lt above
      · simp only [any_some, decide_eq_false above, Bool.false_eq_true, if_false,
          Bool.not_true]
        split <;> rfl

end

section

variable {tenantId runId : String}

/-- The outcome is that of the latest verdict of the highest rank. -/
def DecidedBy (tenantId runId : String) (verdicts : List Projected) (state : State) : Prop :=
  match state.outcome tenantId runId with
  | none => verdicts = []
  | some outcome => ∃ projected, Decisive rank verdicts projected ∧
      outcome = outcomeOf projected.1 projected.2

theorem projectedOn_append (tenantId runId : String) (first second : List Action) :
    projectedOn tenantId runId (first ++ second) =
      projectedOn tenantId runId first ++ projectedOn tenantId runId second := by
  rw [projectedOn, filterMap_append]
  rfl

theorem decided_step {state next : State} {action : Action} {before : List Action}
    (decided : DecidedBy tenantId runId (projectedOn tenantId runId before) state)
    (stepped : step state action = some next) :
    DecidedBy tenantId runId (projectedOn tenantId runId (before ++ [action])) next := by
  rw [projectedOn_append]
  cases action with
  | otherwise store invocations learning =>
    obtain rfl := some.inj stepped
    have added : projectedOn tenantId runId [.otherwise store invocations learning] = [] := rfl
    rw [added, append_nil]
    exact decided
  | project record now =>
    obtain rfl := some.inj stepped
    by_cases isOwn : record.tenantId = tenantId ∧ record.targetId = runId
    · obtain ⟨rfl, rfl⟩ := isOwn
      have added : projectedOn record.tenantId record.targetId [.project record now] =
          [(record, now)] := by simp [projectedOn]
      rw [added]
      rw [DecidedBy] at decided
      rcases projectRun_cases record now state with
        ⟨outcome, isHeld, above, unchanged⟩ | ⟨notAbove, labelled⟩
      · rw [isHeld] at decided
        obtain ⟨projected, decisive, isOutcome⟩ := decided
        rw [unchanged, DecidedBy, isHeld]
        refine ⟨projected, decisive.kept ?_, isOutcome⟩
        rw [isOutcome] at above
        exact above
      · have isNew : (projectRun record now state).1.outcome record.tenantId
            record.targetId = some (outcomeOf record now) := by
          rw [State.outcome, labelled]
          exact outcomeOf_set state (outcomeOf record now)
        rw [DecidedBy, isNew]
        refine ⟨(record, now), ?_, rfl⟩
        cases isHeld : state.outcome record.tenantId record.targetId with
        | none =>
          rw [isHeld] at decided
          rw [decided]
          exact decisive_singleton (record, now)
        | some outcome =>
          rw [isHeld] at decided
          obtain ⟨projected, decisive, isOutcome⟩ := decided
          apply decisive.replaced
          have atMost := notAbove outcome isHeld
          rw [isOutcome] at atMost
          exact atMost
    · have added : projectedOn tenantId runId [.project record now] = [] := by
        simp [projectedOn, isOwn]
      have sameOutcome : (projectRun record now state).1.outcome tenantId runId =
          state.outcome tenantId runId := by
        rcases projectRun_cases record now state with ⟨-, -, -, unchanged⟩ | ⟨-, labelled⟩
        · rw [unchanged]
        · rw [State.outcome, labelled]
          exact outcomeOf_set_other state isOwn
      rw [added, append_nil, DecidedBy, sameOutcome]
      exact decided

theorem decided_along {actions : List Action} :
    ∀ {before : List Action} {state target : State},
      DecidedBy tenantId runId (projectedOn tenantId runId before) state →
        run step state actions = some target →
          DecidedBy tenantId runId (projectedOn tenantId runId (before ++ actions)) target := by
  induction actions with
  | nil =>
    intro before state target decided reached
    rw [append_nil, ← some.inj reached]
    exact decided
  | cons action later ih =>
    intro before state target decided reached
    obtain ⟨next, stepped, rest⟩ := run_cons_eq_some reached
    have onward := ih (decided_step decided stepped) rest
    rwa [append_assoc] at onward

/-- Whatever verdicts are projected, and however often: the outcome of a run is the latest
verdict of the highest rank so far, and a verdict that is outranked changes nothing. -/
theorem outcome_is_decisive {start target : State} {actions : List Action}
    (unlabelled : start.outcomes = []) (reached : run step start actions = some target)
    (tenantId runId : String) :
    DecidedBy tenantId runId (projectedOn tenantId runId actions) target ∧
      ∀ record now, record.tenantId = tenantId → record.targetId = runId →
        Outranked rank (projectedOn tenantId runId actions) (record, now) →
          step target (.project record now) = some target := by
  have noOutcome : DecidedBy tenantId runId (projectedOn tenantId runId []) start := by
    rw [DecidedBy, State.outcome, unlabelled]
    rfl
  have decided := decided_along noOutcome reached
  rw [List.nil_append] at decided
  refine ⟨decided, ?_⟩
  rintro record now rfl rfl outranked
  rw [DecidedBy] at decided
  rcases projectRun_cases record now target with ⟨-, -, -, unchanged⟩ | ⟨notAbove, -⟩
  · rw [step, unchanged]
  · exfalso
    cases isHeld : target.outcome record.tenantId record.targetId with
    | none =>
      rw [isHeld] at decided
      obtain ⟨other, member, -⟩ := outranked
      rw [decided] at member
      cases member
    | some outcome =>
      rw [isHeld] at decided
      obtain ⟨projected, decisive, isOutcome⟩ := decided
      have below := decisive.outranked_iff.mp outranked
      have atMost := notAbove outcome isHeld
      rw [isOutcome] at atMost
      exact Nat.not_lt_of_le atMost below

end

def ownStatus : Verdict where
  feedbackId := "fb_1"
  tenantId := "acme"
  targetId := "run_1"
  verdict := .confirm
  source := .system

def thumbsDown : Verdict where
  feedbackId := "fb_2"
  tenantId := "acme"
  targetId := "run_1"
  verdict := .reject

theorem status_after_person :
    ∃ target, run step { store := { rows := [] } }
        [.project ownStatus ⟨1⟩, .project thumbsDown ⟨2⟩] = some target ∧
      DecidedBy "acme" "run_1" [(ownStatus, ⟨1⟩), (thumbsDown, ⟨2⟩)] target ∧
      step target (.project ownStatus ⟨3⟩) = some target := by
  refine ⟨_, rfl, ?_⟩
  have decided := @outcome_is_decisive { store := { rows := [] } } _
    [.project ownStatus ⟨1⟩, .project thumbsDown ⟨2⟩] rfl rfl "acme" "run_1"
  refine ⟨decided.1, decided.2 ownStatus ⟨3⟩ rfl rfl ?_⟩
  exact ⟨(thumbsDown, ⟨2⟩), by simp [projectedOn, ownStatus, thumbsDown], by decide⟩

end MemoryService.Feedback.RunOutcomes
