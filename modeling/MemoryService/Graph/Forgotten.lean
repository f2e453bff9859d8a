import MemoryService.Graph.Commits
import MemoryService.Graph.Reads

/-!
# What the graph shows of a withdrawn memory

The job that runs after a memory was forgotten or retracted closes its relations as it closes
those of a memory that was replaced.
-/

namespace MemoryService.Graph

open Domain Foundation Memory Option

variable (tenantId memoryId : String)

/-- The memory was forgotten or is retracted. -/
def Gone (state : State) : Prop :=
  ∃ m ∈ Statements.row memoryId state.memories,
    m.tenantId = tenantId ∧ (m.deletedAt ≠ none ∨ m.temporal.status = .retracted)

def RanAt (actions : List Action) (instant : Instant) : Prop :=
  ∃ job read, Action.enrich job instant read ∈ actions ∧ job.names tenantId memoryId = true

def ClosedBy (actions : List Action) (r : Relation) : Prop :=
  ∃ closed, RanAt tenantId memoryId actions closed ∧ r.status = .superseded ∧
    r.validTo = some closed ∧ r.invalidatedAt = some closed

def Ask.Past (ask : Ask) (tenantId memoryId : String) (actions : List Action)
    (r : Relation) : Prop :=
  ∃ closed, RanAt tenantId memoryId actions closed ∧ r.status = .superseded ∧
    r.validTo = some closed ∧ (ask.asOf ≠ none ∨ ask.validAt ≠ none) ∧
    (∀ asOf ∈ ask.asOf, asOf < closed) ∧ ∀ validAt ∈ ask.validAt, validAt < closed

/-- The reads show of the memory only what is past. -/
structure OnlyHistory (tenantId memoryId : String) (actions : List Action)
    (tables : Tables) : Prop where
  traversal : ∀ digests ask entityIds hops maxVisited,
    ∀ r ∈ (neighborhood digests ask tables entityIds hops maxVisited).relations,
      r.isFrom tenantId memoryId = true → ask.Past tenantId memoryId actions r
  facts : ∀ digests ask settings boost hops matched existing replaced,
    ∀ r ∈ stageFacts digests ask tables settings boost hops matched existing replaced,
      r.isFrom tenantId memoryId = true → ask.Past tenantId memoryId actions r
  listed : ∀ digests ask entityId depth relationsMax historyMax maxVisited,
    let shown := profile digests ask tables entityId depth relationsMax historyMax maxVisited
    (∀ r ∈ shown.relations, r.isFrom tenantId memoryId = false) ∧
      (∀ r ∈ shown.current, r.isFrom tenantId memoryId = false) ∧
      ∀ r ∈ shown.history, r.isFrom tenantId memoryId = true → ClosedBy tenantId memoryId actions r

def StaysGone (normalizedHash : String → Digest) (rules : Rules) (tenantId memoryId : String)
    (state : State) (action : Action) : Prop :=
  Forgotten tenantId memoryId state.memories ∨
    ∀ next ∈ step normalizedHash rules state action, Gone tenantId memoryId next

section

variable {normalizedHash : String → Digest} {rules : Rules} {state next : State}
  {tenantId memoryId : String} {actions : List Action} {action : Action} {r : Relation}

def Shut (tenantId memoryId : String) (actions : List Action) (state : State) : Prop :=
  ∀ r ∈ sourced tenantId memoryId state.tables.relations,
    r.status = .current ∨ ClosedBy tenantId memoryId actions r

theorem settled_closedBy {now : Instant} (ran : RanAt tenantId memoryId actions now)
    (before : r.status = .current ∨ ClosedBy tenantId memoryId actions r) :
    ClosedBy tenantId memoryId actions (r.settled now) := by
  rw [Relation.settled]
  split
  case isTrue => exact ⟨now, ran, rfl, rfl, rfl⟩
  case isFalse notCurrent => exact before.resolve_left notCurrent

theorem shut_step (isAction : action ∈ actions)
    (stepped : step normalizedHash rules state action = some next)
    (shut : Shut tenantId memoryId actions state) :
    Shut tenantId memoryId actions next := by
  cases action with
  | commit change job =>
    obtain ⟨rows', -, -, rfl⟩ := commit_cases stepped
    exact shut
  | enrich job now read =>
    obtain rfl := enrich_eq stepped
    by_cases named : job.names tenantId memoryId = true
    · have ran : RanAt tenantId memoryId actions now := ⟨job, read, isAction, named⟩
      obtain ⟨rfl, inIds⟩ := job.names_iff.mp named
      cases got : Statements.get now job.tenantId memoryId state.memories with
      | none =>
        intro r member
        rw [sourced_job_closes inIds (by simp [got])] at member
        obtain ⟨old, isOld, rfl⟩ := List.mem_map.mp member
        exact .inr (settled_closedBy ran (shut old isOld))
      | some m =>
        by_cases isClosed : closes m = true
        · intro r member
          rw [sourced_job_closes inIds (by simpa [got] using isClosed)] at member
          obtain ⟨old, isOld, rfl⟩ := List.mem_map.mp member
          exact .inr (settled_closedBy ran (shut old isOld))
        · intro r member
          rcases sourced_job_writes got (Bool.eq_false_iff.mpr isClosed) inIds member with
            ⟨isOld, -⟩ | rewritten
          · exact shut r isOld
          · left
            obtain ⟨e, isRead, -, sameStatus, -⟩ := rewritten.ends
            simp only [closes, decide_eq_true_eq, not_or, not_not] at isClosed
            rw [← sameStatus, (enrichMemory_readFrom e isRead).status, if_pos isClosed.1]
    · intro r member
      rw [sourced_of_unnamed named] at member
      exact shut r member

def NoneCurrent (tenantId memoryId : String) (state : State) : Prop :=
  ∀ r ∈ sourced tenantId memoryId state.tables.relations, r.status ≠ .current

def Withdrawn (tenantId memoryId : String) (state : State) : Prop :=
  Gone tenantId memoryId state ∧ NoneCurrent tenantId memoryId state

theorem noneCurrent_of_gone {job : Job} {now : Instant}
    {read : CanonicalMemory → Reading} (isGone : Gone tenantId memoryId state)
    (named : job.names tenantId memoryId = true) :
    ∀ r ∈ sourced tenantId memoryId (enrichMemories rules read now job.tenantId
      job.memoryIds state.memories state.tables).relations, r.status ≠ .current := by
  obtain ⟨rfl, inIds⟩ := job.names_iff.mp named
  obtain ⟨m, isRow, -, withdrawn⟩ := isGone
  have closes_ : ∀ x, Statements.get now job.tenantId memoryId state.memories = some x →
      closes x = true := by
    intro x got
    rw [Statements.get, filter_eq_some_iff, mem_def.mp isRow] at got
    obtain ⟨same, checks⟩ := got
    rw [some.inj same] at withdrawn
    simp only [decide_eq_true_eq] at checks
    have isRetracted := withdrawn.resolve_left (not_not.mpr checks.2.1)
    simp [closes, isRetracted]
  intro r member
  rw [sourced_job_closes inIds closes_] at member
  obtain ⟨old, -, rfl⟩ := List.mem_map.mp member
  exact settled_status_ne

theorem noneCurrent_step (isGone : Gone tenantId memoryId state)
    (stepped : step normalizedHash rules state action = some next)
    (noneCurrent : NoneCurrent tenantId memoryId state) :
    NoneCurrent tenantId memoryId next := by
  cases action with
  | commit change job =>
    obtain ⟨rows', -, -, rfl⟩ := commit_cases stepped
    exact noneCurrent
  | enrich job now read =>
    obtain rfl := enrich_eq stepped
    by_cases named : job.names tenantId memoryId = true
    · exact noneCurrent_of_gone isGone named
    · intro r member
      rw [sourced_of_unnamed named] at member
      exact noneCurrent r member

theorem gone_step (stays : StaysGone normalizedHash rules tenantId memoryId state action)
    (stepped : step normalizedHash rules state action = some next) :
    Gone tenantId memoryId next := by
  rcases stays with isForgotten | stays
  · have stillForgotten : Forgotten tenantId memoryId next.memories := by
      cases action with
      | commit change job =>
        obtain ⟨rows', -, applied, rfl⟩ := commit_cases stepped
        exact forgotten_apply applied isForgotten
      | enrich job now read =>
        obtain rfl := enrich_eq stepped
        exact isForgotten
    obtain ⟨m, isRow, sameTenant, deleted⟩ := stillForgotten
    exact ⟨m, isRow, sameTenant, .inl deleted⟩
  · exact stays next stepped

theorem withdrawn_step (stepped : step normalizedHash rules state action = some next)
    (stays : StaysGone normalizedHash rules tenantId memoryId state action)
    (withdrawn : Withdrawn tenantId memoryId state) : Withdrawn tenantId memoryId next :=
  ⟨gone_step stays stepped, noneCurrent_step withdrawn.1 stepped withdrawn.2⟩

theorem past_of_passes {ask : Ask} {tables : Tables}
    (isClosed : ClosedBy tenantId memoryId actions r) (passes : ask.Passes tables r) :
    ask.Past tenantId memoryId actions r := by
  obtain ⟨closed, ran, status, ends, invalidated⟩ := isClosed
  have passesTime := passes.2
  refine ⟨closed, ran, status, ends, ?_, ?_, ?_⟩
  · by_contra noTime
    rw [not_or, not_not, not_not] at noTime
    rw [noTime.1, noTime.2, passes_now_iff, status] at passesTime
    cases passesTime
  · intro asOf isAsked
    rw [mem_def.mp isAsked] at passesTime
    exact (passes_asOf_holds passesTime).2 closed ends
  · intro validAt isAsked
    rw [mem_def.mp isAsked] at passesTime
    exact passes_validAt_before passesTime closed invalidated

theorem onlyHistory_of (shut : Shut tenantId memoryId actions state)
    (noneCurrent : NoneCurrent tenantId memoryId state) :
    OnlyHistory tenantId memoryId actions state.tables := by
  have allClosed : ∀ r ∈ state.tables.relations, r.isFrom tenantId memoryId = true →
      ClosedBy tenantId memoryId actions r := by
    intro r member own
    have isSourced := List.mem_filter.mpr ⟨member, own⟩
    exact (shut r isSourced).resolve_left (noneCurrent r isSourced)
  constructor
  · intro digests ask entityIds hops maxVisited r member own
    have passes := neighborhood_passes r member
    exact past_of_passes (allClosed r passes.1 own) passes
  · intro digests ask settings boost hops matched existing replaced r member own
    have passes := stageFacts_pass r member
    exact past_of_passes (allClosed r passes.1 own) passes
  · intro digests ask entityId depth relationsMax historyMax maxVisited
    have listed : ∀ r ∈ entityRelations digests ask state.tables entityId true relationsMax,
        r.isFrom tenantId memoryId = false := by
      intro r member
      obtain ⟨-, selected, inTables, sameId, kind⟩ := mem_entityRelations member
      refine Bool.eq_false_iff.mpr fun own => ?_
      have selectedOwn : selected.isFrom tenantId memoryId = true := by
        rw [← own, isFrom_of_same_id sameId]
      exact noneCurrent selected (List.mem_filter.mpr ⟨inTables, selectedOwn⟩)
        (of_decide_eq_true kind)
    refine ⟨listed, fun r member => ?_, fun r member own => ?_⟩
    · exact listed r (List.mem_filter.mp (mem_distinctBy member)).1
    · exact allClosed r (mem_entityRelations member).1 own

end

/-- Once the job of a memory that was forgotten or retracted has run, and for as long as the
memory stays so, the graph shows its relations as history only. -/
theorem withdrawn_is_history (normalizedHash : String → Digest) (rules : Rules)
    (before after : List Action) (job : Job) (now : Instant) (read : CanonicalMemory → Reading)
    (atJob state : State) (tenantId memoryId : String)
    (toJob : run (step normalizedHash rules) {} before = some atJob)
    (isGone : Gone tenantId memoryId atJob) (named : job.names tenantId memoryId = true)
    (reached : run (step normalizedHash rules) atJob (.enrich job now read :: after) = some state)
    (stays : Meets (step normalizedHash rules)
      (StaysGone normalizedHash rules tenantId memoryId) atJob
      (.enrich job now read :: after)) :
    OnlyHistory tenantId memoryId (before ++ .enrich job now read :: after) state.tables := by
  have whole : run (step normalizedHash rules) {} (before ++ .enrich job now read :: after) =
      some state := by
    rw [run_append, toJob]
    exact reached
  have shut : Shut tenantId memoryId (before ++ .enrich job now read :: after) state :=
    run_invariant_of_meets (fun stepped isAction inv => shut_step isAction stepped inv) whole
      (meets_of_forall fun action isAction _ => isAction) (fun r member => by cases member)
  obtain ⟨afterJob, ranJob, rest⟩ := run_cons_eq_some reached
  obtain ⟨jobStays, restStays⟩ := stays
  rw [ranJob] at restStays
  have stillGone : Gone tenantId memoryId afterJob := gone_step jobStays ranJob
  have closed : NoneCurrent tenantId memoryId afterJob := by
    obtain rfl := enrich_eq ranJob
    exact noneCurrent_of_gone isGone named
  have withdrawn : Withdrawn tenantId memoryId state :=
    run_invariant_of_meets withdrawn_step rest restStays ⟨stillGone, closed⟩
  exact onlyHistory_of shut withdrawn.2

structure NeverShown (tenantId memoryId : String) (tables : Tables) : Prop where
  traversal : ∀ digests ask entityIds hops maxVisited,
    ∀ r ∈ (neighborhood digests ask tables entityIds hops maxVisited).relations,
      r.isFrom tenantId memoryId = false
  facts : ∀ digests ask settings boost hops matched existing replaced,
    ∀ r ∈ stageFacts digests ask tables settings boost hops matched existing replaced,
      r.isFrom tenantId memoryId = false
  listed : ∀ digests ask entityId depth relationsMax historyMax maxVisited,
    let shown := profile digests ask tables entityId depth relationsMax historyMax maxVisited
    ∀ r ∈ shown.relations ++ shown.current ++ shown.history, r.isFrom tenantId memoryId = false

def beforeForgetting : List Action :=
  [.commit (.add employment) indexed, .enrich indexed ⟨20⟩ silent,
    .commit (.forget ⟨30⟩ "acme" "mem_1") indexed]

/-- What held at an instant between the enrichment and the forgetting. -/
def askedEarlier : Ask where
  tenantId := "acme"
  scopeKeys := ["user:acme/ana"]
  asOf := some ⟨25⟩

def shownEarlier (state : State) : Nat × Bool × Bool :=
  ((neighborhood (fun _ => "") askedEarlier state.tables
      [entity plainRules employment "user:ana"] 1 200).relations.countP
        (Relation.isFrom "acme" "mem_1"),
    (Statements.row "mem_1" state.memories).any fun m => m.tenantId = "acme" ∧ m.deletedAt ≠ none,
    state.queued.isEmpty)

def sameHash (_ : String) : Digest := employment.normalizedHash

theorem forgotten_of_shown {state : State} {shown : Nat} {idle : Bool}
    (counts : shownEarlier state = (shown, true, idle)) :
    Forgotten "acme" "mem_1" state.memories := by
  have deleted := congrArg (fun counts => counts.2.1) counts
  simp only [shownEarlier, any_eq_true, decide_eq_true_eq] at deleted
  exact deleted

theorem forgetting_run :
    ∃ atJob state, run (step sameHash plainRules) {} beforeForgetting = some atJob ∧
      Gone "acme" "mem_1" atJob ∧
      run (step sameHash plainRules) atJob [.enrich indexed ⟨40⟩ silent] = some state ∧
      Meets (step sameHash plainRules) (StaysGone sameHash plainRules "acme" "mem_1") atJob
        [.enrich indexed ⟨40⟩ silent] ∧
      shownEarlier state = (1, true, true) := by
  have toJob : (run (step sameHash plainRules) {} beforeForgetting).map shownEarlier =
      some (1, true, false) := by
    decide +kernel
  have toEnd : (run (step sameHash plainRules) {}
      (beforeForgetting ++ [.enrich indexed ⟨40⟩ silent])).map shownEarlier =
        some (1, true, true) := by
    decide +kernel
  obtain ⟨atJob, reached, counts⟩ := map_eq_some_iff.mp toJob
  rw [run_append, reached, bind_some] at toEnd
  obtain ⟨state, reachedEnd, countsEnd⟩ := map_eq_some_iff.mp toEnd
  have isForgotten := forgotten_of_shown counts
  obtain ⟨m, isRow, sameTenant, deleted⟩ := isForgotten
  refine ⟨atJob, state, reached, ⟨m, isRow, sameTenant, .inl deleted⟩, reachedEnd, ?_, countsEnd⟩
  refine ⟨.inl ⟨m, isRow, sameTenant, deleted⟩, ?_⟩
  split <;> trivial

theorem forgotten_shown_earlier :
    ¬∀ (normalizedHash : String → Digest) (rules : Rules) (before after : List Action)
      (job : Job) (now : Instant) (read : CanonicalMemory → Reading) (atJob state : State)
      (tenantId memoryId : String),
      run (step normalizedHash rules) {} before = some atJob →
      Gone tenantId memoryId atJob → job.names tenantId memoryId = true →
      run (step normalizedHash rules) atJob (.enrich job now read :: after) = some state →
      Meets (step normalizedHash rules)
        (StaysGone normalizedHash rules tenantId memoryId) atJob
        (.enrich job now read :: after) →
      NeverShown tenantId memoryId state.tables := by
  intro never
  obtain ⟨atJob, state, toJob, isGone, reached, stays, counts⟩ := forgetting_run
  have unseen := never sameHash plainRules beforeForgetting [] indexed ⟨40⟩ silent atJob state
    "acme" "mem_1" toJob isGone (by decide) reached stays
  have oneShown := congrArg Prod.fst counts
  obtain ⟨r, member, own⟩ := List.countP_pos_iff.mp (Nat.one_pos.trans_eq oneShown.symm)
  rw [unseen.traversal _ _ _ _ _ r member] at own
  cases own

/-- The run of the example again: all that is shown is history. -/
theorem forgotten_is_history :
    ∃ state, shownEarlier state = (1, true, true) ∧
      OnlyHistory "acme" "mem_1" (beforeForgetting ++ [.enrich indexed ⟨40⟩ silent])
        state.tables := by
  obtain ⟨atJob, state, toJob, isGone, reached, stays, counts⟩ := forgetting_run
  exact ⟨state, counts, withdrawn_is_history sameHash plainRules beforeForgetting [] indexed ⟨40⟩
    silent atJob state "acme" "mem_1" toJob isGone (by decide) reached stays⟩

end MemoryService.Graph
