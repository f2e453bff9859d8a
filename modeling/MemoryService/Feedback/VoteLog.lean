import MemoryService.Feedback.Votes
import MemoryService.Foundation.Newest
import MemoryService.Memory.Supersession
import Mathlib.Data.Finset.Card
import Mathlib.Data.Prod.Lex

/-!
# The verdicts on one memory

A verdict is stored, waits for its review unless it may do without, and is projected by a job of
its own.
-/

namespace MemoryService.Feedback.VoteLog

open Domain Foundation Memory Statements

inductive FeedbackVerdict where
  | confirm
  | reject
  | correct
  | approve
  | edit
  deriving DecidableEq

inductive FeedbackSource where
  | human
  | interrupt
  | judge
  | system
  deriving DecidableEq

inductive ReviewState where
  | pending
  | approved
  | dismissed
  deriving DecidableEq

inductive FeedbackProjection where
  | replaced
  | alreadyCounted
  | dismissed
  | ran (projection : Votes.Projection)
  | memorySuperseded (supersededBy : String)
  deriving DecidableEq

structure FeedbackRecord where
  feedbackId : String
  userId : Option String := none
  agentId : Option String := none
  verdict : FeedbackVerdict
  correction : String := ""
  source : FeedbackSource := .human
  createdAt : Instant
  vote : Bool := false
  review : Option ReviewState := none
  projection : Option FeedbackProjection := none
  deriving DecidableEq

namespace FeedbackRecord

variable (f : FeedbackRecord)

/-- The order of votes: when they were cast, and then their ids. -/
def key : Instant ×ₗ String := toLex (f.createdAt, f.feedbackId)

def pending : Bool := f.review = some .pending

def affirms : Bool := f.verdict = .confirm ∨ f.verdict = .approve

def corrects : Bool := f.verdict = .correct ∨ f.verdict = .edit

def rewrites : Bool := f.corrects ∧ f.correction ≠ ""

def thumbsUp : Bool := f.affirms

def sameThumb (a b : FeedbackRecord) : Bool := a.thumbsUp = b.thumbsUp

end FeedbackRecord

inductive Voter where
  | user (userId : String)
  | agent (agentId : String)
  deriving DecidableEq

variable (f : FeedbackRecord)

def voterKey : Option Voter :=
  match f.userId with
  | some userId => some (.user userId)
  | none => f.agentId.map .agent

def stoodDown : FeedbackProjection → Bool
  | .replaced => true
  | .alreadyCounted => true
  | _ => false

def retracts : FeedbackProjection → Bool
  | .ran (.memoryRetracted _) => true
  | _ => false

/-- Who sends a verdict. -/
structure Credential where
  trusted : Bool := false
  runVouched : Bool := false
  admin : Bool := false

/-- Whether a verdict on a memory is a vote. -/
def classify (sender : Credential) : Bool :=
  if sender.trusted then false
  else if sender.runVouched ∧ (f.source = .system ∨ f.source = .judge) then false
  else !f.rewrites

def needsReview (sender : Credential) : Bool :=
  if sender.trusted then false
  else if f.source = .judge then true
  else if f.rewrites then false
  else !sender.admin

section Log

variable (log : List FeedbackRecord)

def sameVoter (vote found : FeedbackRecord) : Bool :=
  if vote.userId.isSome then found.userId = vote.userId
  else found.userId = none ∧ found.agentId = vote.agentId

variable (vote : FeedbackRecord)

def appliedVotes : List FeedbackRecord :=
  (newestFirst FeedbackRecord.key (log.filter fun r =>
    r.review = some .approved ∧ r.vote ∧ sameVoter vote r)).take 20

def pendingOn : List FeedbackRecord :=
  ((log.filter fun r => r.pending ∧ r.vote ∧ sameVoter vote r).insertionSort fun a b =>
    a.key ≤ b.key).take 1000

/-- `_applied_vote`. -/
def appliedVote : Option FeedbackRecord :=
  (appliedVotes log vote).find? fun found =>
    found.feedbackId ≠ vote.feedbackId ∧ found.key < vote.key ∧
      found.projection ≠ some .alreadyCounted

def setProjection (ids : List String) (projection : FeedbackProjection) : List FeedbackRecord :=
  updateWhere (fun r => r.feedbackId ∈ ids) (fun r => { r with projection := some projection })
    log

def setReview (ids : List String) (review : ReviewState) : List FeedbackRecord :=
  updateWhere (fun r => r.feedbackId ∈ ids) (fun r => { r with review := some review }) log

/-- `_replace_earlier_votes`. -/
def replaceEarlierVotes : List FeedbackRecord :=
  let ids := (pendingOn log vote).map FeedbackRecord.feedbackId
  setProjection (setReview log ids .dismissed) ids .replaced

/-- `_count_once`: a repeat of the vote that counts is stored as such. -/
def countOnce : List FeedbackRecord × FeedbackRecord :=
  (replaceEarlierVotes log vote,
    if (appliedVote log vote).any fun counted => counted.sameThumb vote then
      { vote with review := some .dismissed, projection := some .alreadyCounted }
    else vote)

def earlierVotes (record : FeedbackRecord) : List FeedbackRecord :=
  (appliedVotes log record).filter fun found =>
    found.feedbackId ≠ record.feedbackId ∧ ¬record.key < found.key

/-- `_settle_earlier`: what is not applied yet never will be, and of the rest the newest that
did not stand down is the vote whose effect stands. -/
def settleEarlier (record : FeedbackRecord) : List FeedbackRecord × Option FeedbackRecord :=
  let earlier := earlierVotes log record
  (setProjection log
      ((earlier.filter fun found => found.projection = none).map
        FeedbackRecord.feedbackId) .replaced,
    earlier.find? fun found => found.projection.any fun projection => !stoodDown projection)

end Log

structure State where
  store : Votes.Store
  log : List FeedbackRecord := []

inductive Action where
  | submit (feedback : FeedbackRecord) (sender : Credential) (now : Instant)
  | review (feedbackId : String) (approve : Bool)
  | project (feedbackId newId : String) (now : Instant)
  | archive (now : Instant)
  | supersede (replacement : CanonicalMemory) (now : Instant)

section System

variable (normalizedHash : String → Digest) (tenantId memoryId : String) (now : Instant)

def replaceBy (closings : List Closing) (store : Votes.Store) : Votes.Store :=
  let written := store.updateAll now (closings.map Closing.closed)
  { written with rows := written.rows ++ (closings.head?.map Closing.replacement).toList }

/-- `_project_memory`. -/
def projectMemory (newId : String) (record : FeedbackRecord)
    (store : Votes.Store) :
    Votes.Store × FeedbackProjection :=
  if record.affirms then
    let done := Votes.project now tenantId store (.affirm memoryId)
    (done.1, .ran done.2)
  else if record.verdict = .reject then
    let done := Votes.project now tenantId store (.reject memoryId)
    (done.1, .ran done.2)
  else
    match store.current now tenantId memoryId with
    | none => (store, .ran .nothing)
    | some memory =>
      if record.correction = "" then (store, .ran .nothing)
      else
        let closings := Memory.correct normalizedHash store.rows memory newId
          record.feedbackId record.correction now
        (replaceBy now closings store, .memorySuperseded newId)

/-- `_reverse` of a vote on the memory. -/
def reverse (prior : FeedbackRecord) (store : Votes.Store) : Votes.Store :=
  match prior.projection with
  | some (.ran projection) => Votes.reverseMemory now tenantId memoryId projection store
  | _ => store

/-- `_project_vote`. -/
def projectVote (newId : String) (record : FeedbackRecord) (state : State) :
    State × FeedbackProjection :=
  if voterKey record = none then
    let done := projectMemory normalizedHash tenantId memoryId now newId record state.store
    ({ state with store := done.1 }, done.2)
  else
    let settled := settleEarlier state.log record
    if settled.2.any fun prior => prior.sameThumb record then
      ({ state with log := settled.1 }, .alreadyCounted)
    else
      let store := (settled.2.map fun prior =>
        reverse tenantId memoryId now prior state.store).getD state.store
      let done := projectMemory normalizedHash tenantId memoryId now newId record store
      ({ store := done.1, log := settled.1 }, done.2)

/-- The `feedback.project` job of a record that is not projected yet and does not wait. -/
def project (newId : String) (record : FeedbackRecord) (state : State) : State :=
  let done :=
    if record.review.isSome ∧ record.vote then
      projectVote normalizedHash tenantId memoryId now newId record state
    else
      let done := projectMemory normalizedHash tenantId memoryId now newId record state.store
      ({ state with store := done.1 }, done.2)
  { done.1 with log := setProjection done.1.log [record.feedbackId] done.2 }

def stored (feedback : FeedbackRecord) (sender : Credential) (now : Instant) : FeedbackRecord :=
  { feedback with
    createdAt := now
    projection := none
    vote := classify feedback sender
    review := if needsReview feedback sender then some .pending else none }

def countedOnce (f : FeedbackRecord) : Bool := f.pending ∧ f.vote ∧ voterKey f ≠ none

def submit (feedback : FeedbackRecord) (sender : Credential) (now : Instant)
    (state : State) : State :=
  let record := stored feedback sender now
  let done := if countedOnce record then countOnce state.log record else (state.log, record)
  { state with log := done.1 ++ [done.2] }

/-- `_archive`. -/
def archived (m : CanonicalMemory) : CanonicalMemory :=
  { m with temporal := { m.temporal with status := .archived }, updatedAt := now }

def step (state : State) : Action → Option State
  | .submit feedback sender now =>
    if state.log.any fun r => r.feedbackId = feedback.feedbackId then some state
    else some (submit feedback sender now state)
  | .review feedbackId approve =>
    match state.log.find? fun r => r.feedbackId = feedbackId with
    | none => none
    | some record =>
      if record.pending then
        if approve then
          some { state with log := setReview state.log [feedbackId] .approved }
        else
          some { state with
            log :=
              setProjection (setReview state.log [feedbackId] .dismissed) [feedbackId]
                .dismissed }
      else none
  | .project feedbackId newId now =>
    match state.log.find? fun r => r.feedbackId = feedbackId with
    | none => some state
    | some record =>
      if record.projection.isSome ∨ record.pending then some state
      else if newId ∈ state.store.rows.map CanonicalMemory.memoryId then none
      else some (project normalizedHash tenantId memoryId now newId record state)
  | .archive now =>
    some ((state.store.current now tenantId memoryId).elim state fun memory =>
      { state with store := state.store.update now (archived now memory) })
  | .supersede replacement now =>
    if replacement.memoryId ∈ state.store.rows.map CanonicalMemory.memoryId then none
    else
      some ((state.store.current now tenantId memoryId).elim state fun target =>
        let twins := twins tenantId target true state.store.rows
        { state with
          store := replaceBy now (Pipeline.closeAll target replacement twins now) state.store })

end System

def mine (voter : Voter) (f : FeedbackRecord) : Bool :=
  f.review = some .approved ∧ f.vote ∧ voterKey f = some voter

def projectedVote (voter : Voter) (f : FeedbackRecord) : Bool := mine voter f ∧ f.projection.isSome

def isAppliedVote (voter : Voter) (f : FeedbackRecord) : Bool :=
  mine voter f ∧ f.projection.any fun projection => !stoodDown projection

variable (log : List FeedbackRecord)

def counted (voter : Voter) : Option FeedbackRecord :=
  newest FeedbackRecord.key (projectedVote voter) log

def standing (voter : Voter) : Option FeedbackRecord :=
  newest FeedbackRecord.key (isAppliedVote voter) log

/-- The effect of a vote: a vote that corrects carries no text and has none. -/
inductive Effect where
  | reinforces
  | retracts
  | nothing
  deriving DecidableEq

variable (f : FeedbackRecord)

def effect : Effect :=
  if f.affirms then .reinforces
  else if f.verdict = .reject then .retracts
  else .nothing

def voters : Finset Voter := (log.filterMap voterKey).toFinset

def votersFor (effect_ : Effect) (log : List FeedbackRecord) : Finset Voter :=
  (voters log).filter fun voter => (counted log voter).map effect = some effect_

def ownWord : Bool := ¬(f.review = some .approved ∧ f.vote ∧ voterKey f ≠ none)

def ownReinforcement : Bool := ownWord f ∧ f.projection = some (.ran .memoryReinforced)

def ownRetraction : Bool := ownWord f ∧ f.projection.any retracts

def reinforcements : Nat := log.countP ownReinforcement + (votersFor .reinforces log).card

def raised (confidence : Rat) (count : Nat) : Rat :=
  (fun c => min 1 (Binary64.add c Votes.reinforcementStep))^[count] confidence

/-- The memory bears the effect of the vote of each voter that counts, once, and of what was
applied on its sender's own word. -/
def Bears (base : CanonicalMemory) (log : List FeedbackRecord) (r : CanonicalMemory) : Prop :=
  r.reinforcementCount = base.reinforcementCount + reinforcements log ∧
    r.confidence = raised base.confidence (reinforcements log) ∧
    (r.temporal.status = .retracted ↔
      log.any ownRetraction = true ∨ (votersFor .retracts log).Nonempty)
deriving Decidable

/-- The memory bears what is counted of each voter. -/
def State.OneVote (memoryId : String) (base : CanonicalMemory) (state : State) : Prop :=
  ∃ r, row memoryId state.store.rows = some r ∧ Bears base state.log r

instance decidableOneVote (memoryId : String) (base : CanonicalMemory) (state : State) :
    Decidable (state.OneVote memoryId base) :=
  decidable_of_iff ((row memoryId state.store.rows).any fun r =>
      decide (Bears base state.log r)) <| by
    rw [Option.any_eq_true]
    simp only [decide_eq_true_eq, State.OneVote]

/-- A vote that is told to be counted already repeats one of its voter that is. -/
def FairlyReported (before after : State) : Prop :=
  ∀ f ∈ after.log, f.projection = some .alreadyCounted →
    (∀ g ∈ before.log, g.feedbackId = f.feedbackId → g.projection = none) →
      ∃ voter earlier, voterKey f = some voter ∧
        standing before.log voter = some earlier ∧ earlier.key < f.key ∧
        effect earlier = effect f ∧ (counted before.log voter).map effect = some (effect f)

end MemoryService.Feedback.VoteLog
