import MemoryService.Feedback.Approvals

/-!
# Decisions are counted once

Every counted approval has a recorded call of its own, every interrupt has one counted decision,
and what is refused as spent is spent.
-/

namespace MemoryService.Feedback.Approvals

open Domain Foundation Option List

section

variable (forms : Forms) (state : State)

def State.counted : List Decision := state.rows.filter Decision.counted

def State.approved : List CallKey :=
  (state.rows.filter fun d => d.counted && d.approves).map (Decision.call forms)

/-- What it is to count decisions once. -/
structure Once (state : State) : Prop where
  backed : Backed (state.approved forms) (state.calls.map Invocation.call)
  interrupts : (state.counted.map Decision.interrupt).Nodup
  refused : ∀ d ∈ state.rows, d.projection = some (.none_ .spent) →
    ∃ other ∈ state.counted, other.approves = true ∧ other.call forms = d.call forms ∧
      other.id ≠ d.id
  tally : state.counts.Perm (state.counted.map (Decision.count forms))

variable (found : Decision)

def ShowsInterrupt : Prop :=
  ∀ d ∈ state.counted, d.interrupt = found.interrupt →
    ∃ shown ∈ listFor state.rows found.tenantId found.targetId, shown.id = d.id
deriving Decidable

def ShowsApprovals : Prop :=
  ∀ d ∈ state.counted, d.approves = true → d.call forms = found.call forms →
    ∃ shown ∈ countedDecisions state.rows found.tenantId (found.agentId.getD "")
      (found.metadata.tool.getD "None") approvalDecisionsRead, shown.id = d.id
deriving Decidable

def CallLeft : Prop :=
  (state.approved forms).count (found.call forms) < recorded forms state.calls found
deriving Decidable

def Alone : Prop :=
  ∀ job ∈ state.jobs, job.id ≠ found.id →
    ∀ other ∈ state.get job.id, other.interrupt ≠ found.interrupt
deriving Decidable

def Shown : Action → Prop
  | .start id _ => ∀ found ∈ state.get id, ShowsInterrupt state found
  | .finish id => ∀ found ∈ state.get id, Alone state found ∧
      (found.approves = true → ShowsApprovals forms state found ∨ CallLeft forms state found)
  | _ => True

structure Open (state : State) (job : Job) (found : Decision) : Prop where
  isRow : state.get job.id = some found
  uncounted : found.counted = false
  settled : found.pending = false
  fresh : ∀ d ∈ state.counted, d.interrupt ≠ found.interrupt
  looked : job.looked = true → found.approves = true → backed forms state.calls found = true

structure Inv (state : State) : Prop where
  once : Once forms state
  unique : (state.rows.map Decision.id).Nodup
  waiting : ∀ d ∈ state.rows, d.pending = true → d.counted = false
  jobs : ∀ job ∈ state.jobs, ∃ found, Open forms state job found

end

variable {forms : Forms} {state : State} {id : String × String} {found a b d : Decision}
  {calls : List Invocation} {rows : List Decision} {write : Decision → Decision} {next : State}

theorem get_mem (isRow : state.get id = some found) : found ∈ state.rows ∧ found.id = id :=
  ⟨mem_of_find?_eq_some isRow, by simpa using find?_some isRow⟩

theorem eq_of_id (unique : (state.rows.map Decision.id).Nodup)
    (aRow : a ∈ state.rows) (bRow : b ∈ state.rows) (same : a.id = b.id) : a = b :=
  inj_on_of_nodup_map unique aRow bRow same

theorem mem_counted : d ∈ state.counted ↔ d ∈ state.rows ∧ d.counted = true := mem_filter

theorem exists_of_given {name : Option String} (isGiven : given name = true) :
    ∃ value, name = some value := by
  cases name with
  | none => cases isGiven
  | some value => exact ⟨value, rfl⟩

theorem recorded_eq_count (isGiven : given found.agentRunId = true) :
    recorded forms calls found = (calls.map Invocation.call).count (found.call forms) := by
  rw [recorded, invocationsForRun, countP_filter, List.count, countP_map]
  obtain ⟨runId, isRun⟩ := exists_of_given isGiven
  rw [isRun, getD_some]
  refine countP_congr fun c _ => ?_
  simp only [Function.comp_apply, Invocation.call, Decision.call, isRun, Bool.and_eq_true,
    decide_eq_true_eq, beq_iff_eq, Prod.mk.injEq]
  tauto

theorem recorded_append (calls more : List Invocation) (found : Decision) :
    recorded forms (calls ++ more) found =
      recorded forms calls found + recorded forms more found := by
  rw [recorded, invocationsForRun, filter_append, countP_append]
  rfl

theorem backed_append (more : List Invocation)
    (isBacked : backed forms calls found = true) : backed forms (calls ++ more) found = true := by
  simp only [backed, Bool.and_eq_true, decide_eq_true_eq] at isBacked ⊢
  refine ⟨isBacked.1, ?_⟩
  rw [recorded_append]
  exact Nat.add_pos_left isBacked.2 _

theorem given_of_backed (isBacked : backed forms calls found = true) :
    given found.agentRunId = true ∧ 0 < recorded forms calls found := by
  simp only [backed, Bool.and_eq_true, decide_eq_true_eq] at isBacked
  exact ⟨isBacked.1.1, isBacked.2⟩

theorem mem_countedDecisions {tenantId agentId tool : String} {limit : Nat}
    (member : d ∈ countedDecisions rows tenantId agentId tool limit) :
    d ∈ rows ∧ d.tenantId = tenantId ∧ d.agentId.getD "" = agentId ∧
      d.metadata.tool = some tool ∧ d.counted = true := by
  have selected := mem_newestFirst.mp (mem_of_mem_take member)
  simpa [and_assoc] using mem_filter.mp selected

theorem agent_eq (same : a.agentId.getD "" = b.agentId.getD "") : a.agentId = b.agentId := by
  have aNamed := a.agentNamed
  have bNamed := b.agentNamed
  cases aAgent : a.agentId with
  | none =>
    cases bAgent : b.agentId with
    | none => rfl
    | some name =>
      rw [aAgent, bAgent] at same
      exact absurd (bAgent.trans (congrArg some same.symm)) bNamed
  | some name =>
    cases bAgent : b.agentId with
    | none =>
      rw [aAgent, bAgent] at same
      exact absurd (aAgent.trans (congrArg some same)) aNamed
    | some other =>
      rw [aAgent, bAgent] at same
      exact congrArg some same

theorem call_of_shown (isBacked : backed forms calls found = true)
    (member : d ∈ countedDecisions state.rows found.tenantId (found.agentId.getD "")
      (found.metadata.tool.getD "None") approvalDecisionsRead)
    (sameRun : d.agentRunId = some (found.agentRunId.getD ""))
    (sameArgs : forms.stableHash d.metadata.args = forms.stableHash found.metadata.args) :
    d ∈ state.counted ∧ d.call forms = found.call forms := by
  obtain ⟨isRow, sameTenant, sameAgent, sameTool, isCounted⟩ := mem_countedDecisions member
  obtain ⟨isGiven, some_⟩ := given_of_backed isBacked
  obtain ⟨runId, isRun⟩ := exists_of_given isGiven
  obtain ⟨c, -, matched⟩ := countP_pos_iff.mp some_
  simp only [Bool.and_eq_true, decide_eq_true_eq] at matched
  rw [← matched.1.2, getD_some] at sameTool
  rw [isRun, getD_some] at sameRun
  refine ⟨mem_counted.mpr ⟨isRow, isCounted⟩, ?_⟩
  rw [Decision.call, Decision.call, sameTenant, agent_eq sameAgent, sameRun, isRun, sameTool,
    matched.1.2, sameArgs]

theorem exists_approval_of_spent (isBacked : backed forms state.calls found = true)
    (isSpent : spent forms state.rows state.calls found = true) :
    ∃ other ∈ state.counted, other.approves = true ∧ other.call forms = found.call forms := by
  have some_ := (given_of_backed isBacked).2.trans_le (of_decide_eq_true isSpent)
  obtain ⟨d, member, matched⟩ := countP_pos_iff.mp some_
  simp only [Bool.and_eq_true, decide_eq_true_eq] at matched
  obtain ⟨isCounted, sameCall⟩ := call_of_shown isBacked member matched.1.1 matched.2
  exact ⟨d, isCounted, matched.1.2, sameCall⟩

section

variable (unique : (state.rows.map Decision.id).Nodup)
include unique

theorem count_le_shown
    (isGiven : given found.agentRunId = true) (shows : ShowsApprovals forms state found) :
    (state.approved forms).count (found.call forms) ≤
      (countedDecisions state.rows found.tenantId (found.agentId.getD "")
        (found.metadata.tool.getD "None") approvalDecisionsRead).countP fun d =>
          d.agentRunId = some (found.agentRunId.getD "") && d.approves &&
            forms.stableHash d.metadata.args = forms.stableHash found.metadata.args := by
  obtain ⟨runId, isRun⟩ := exists_of_given isGiven
  rw [State.approved, List.count, countP_map, countP_filter, countP_eq_length_filter,
    countP_eq_length_filter]
  have distinct : (state.rows.filter fun d =>
      ((fun call => call == found.call forms) ∘ Decision.call forms) d &&
        (d.counted && d.approves)).Nodup := (List.Nodup.of_map _ unique).filter _
  refine (subperm_of_subset distinct fun d member => ?_).length_le
  obtain ⟨isRow, ofCall⟩ := mem_filter.mp member
  simp only [Function.comp_apply, Bool.and_eq_true, beq_iff_eq] at ofCall
  obtain ⟨sameCall, isCounted, isApproval⟩ := ofCall
  obtain ⟨shown, isShown, sameId⟩ :=
    shows d (mem_counted.mpr ⟨isRow, isCounted⟩) isApproval sameCall
  rw [eq_of_id unique (mem_countedDecisions isShown).1 isRow sameId] at isShown
  simp only [Decision.call, Prod.mk.injEq] at sameCall
  refine mem_filter.mpr ⟨isShown, ?_⟩
  simp only [Bool.and_eq_true, decide_eq_true_eq]
  exact ⟨⟨by rw [sameCall.2.2.1, isRun, getD_some], isApproval⟩, sameCall.2.2.2.2⟩

theorem callLeft_of_not_spent (isGiven : given found.agentRunId = true)
    (notSpent : spent forms state.rows state.calls found = false)
    (shows : ShowsApprovals forms state found ∨ CallLeft forms state found) :
    CallLeft forms state found := by
  rcases shows with shows | left
  · have fewer := Nat.lt_of_not_le (of_decide_eq_false notSpent)
    exact (count_le_shown unique isGiven shows).trans_lt fewer
  · exact left

theorem fresh_of_refused (foundRow : found ∈ state.rows) (uncounted : found.counted = false)
    (shows : ShowsInterrupt state found) (notRefused : refused forms state.rows found = none) :
    ∀ d ∈ state.counted, d.interrupt ≠ found.interrupt := by
  intro d isCounted sameInterrupt
  have notBefore : countedBefore state.rows found = false := by
    rw [refused] at notRefused
    split at notRefused
    · cases notRefused
    · split at notRefused
      · cases notRefused
      · split at notRefused
        · cases notRefused
        next notBefore => exact Bool.eq_false_iff.mpr notBefore
  obtain ⟨isRow, wasCounted⟩ := mem_counted.mp isCounted
  obtain ⟨shown, isShown, sameId⟩ := shows d isCounted sameInterrupt
  have inRows : shown ∈ state.rows :=
    (mem_filter.mp (mem_newestFirst.mp (mem_of_mem_take isShown))).1
  rw [eq_of_id unique inRows isRow sameId] at isShown
  simp only [Decision.interrupt, Prod.mk.injEq] at sameInterrupt
  have otherId : d.feedbackId ≠ found.feedbackId := by
    intro same
    have isFound := eq_of_id unique isRow foundRow (Prod.ext sameInterrupt.1 same)
    rw [isFound, uncounted] at wasCounted
    cases wasCounted
  refine any_eq_false.mp notBefore d isShown ?_
  simp [otherId, sameInterrupt, wasCounted]

end

structure Keeps (forms : Forms) (write : Decision → Decision) : Prop where
  id : ∀ d, (write d).id = d.id
  interrupt : ∀ d, (write d).interrupt = d.interrupt
  call : ∀ d, (write d).call forms = d.call forms

theorem keeps_projection (forms : Forms) (projection : Projection) :
    Keeps forms fun d => { d with projection := some projection } where
  id _ := rfl
  interrupt _ := rfl
  call _ := rfl

theorem get_updateWhere_other {other : String × String}
    (keeps : Keeps forms write) (apart : other ≠ id) :
    (updateWhere (fun d => d.id = id) write state.rows).find? (fun d => d.id = other) =
      state.rows.find? fun d => d.id = other := by
  refine find?_updateWhere_other fun d isId => ?_
  have notOther : d.id ≠ other := by
    rw [of_decide_eq_true isId]
    exact apart.symm
  refine ⟨decide_eq_false notOther, decide_eq_false ?_⟩
  rw [keeps.id]
  exact notOther

theorem Inv.leave (inv : Inv forms state) (id : String × String) : Inv forms (state.leave id) where
  once := ⟨inv.once.backed, inv.once.interrupts, inv.once.refused, inv.once.tally⟩
  unique := inv.unique
  waiting := inv.waiting
  jobs := by
    intro job member
    obtain ⟨found, isOpen⟩ := inv.jobs job (mem_filter.mp member).1
    exact ⟨found, isOpen.isRow, isOpen.uncounted, isOpen.settled, isOpen.fresh, isOpen.looked⟩

theorem idle_leave : ∀ job ∈ (state.leave id).jobs, job.id ≠ id :=
  fun _ member => of_decide_eq_true (mem_filter.mp member).2

theorem Inv.rewrite (inv : Inv forms state) (keeps : Keeps forms write)
    (idle : ∀ job ∈ state.jobs, job.id ≠ id)
    (before : ∀ d ∈ state.rows, d.id = id → d.counted = false)
    (after : ∀ d ∈ state.rows, d.id = id → (write d).counted = false)
    (isSpent : ∀ d ∈ state.rows, d.id = id → (write d).projection = some (.none_ .spent) →
      d.projection = some (.none_ .spent) ∨
        ∃ other ∈ state.counted, other.approves = true ∧ other.call forms = d.call forms) :
    Inv forms
      { state with rows := updateWhere (fun d => d.id = id) write state.rows } := by
  have counted_eq : State.counted
      { state with rows := updateWhere (fun d => d.id = id) write state.rows } = state.counted := by
    refine filter_updateWhere (fun d isRow isId => before d isRow (of_decide_eq_true isId))
      fun d isRow isId => after d isRow (of_decide_eq_true isId)
  have approved_eq : State.approved forms
      { state with rows := updateWhere (fun d => d.id = id) write state.rows } =
        state.approved forms := by
    rw [State.approved, State.approved]
    congr 1
    refine filter_updateWhere (fun d isRow isId => ?_) fun d isRow isId => ?_
    · rw [before d isRow (of_decide_eq_true isId), Bool.false_and]
    · rw [after d isRow (of_decide_eq_true isId), Bool.false_and]
  have notCounted : ∀ other ∈ state.counted, other.id ≠ id := by
    intro other isCounted isId
    obtain ⟨isRow, wasCounted⟩ := mem_counted.mp isCounted
    rw [before other isRow isId] at wasCounted
    cases wasCounted
  refine ⟨⟨?_, ?_, ?_, ?_⟩, ?_, ?_, ?_⟩
  · rw [approved_eq]
    exact inv.once.backed
  · rw [counted_eq]
    exact inv.once.interrupts
  · rw [counted_eq]
    intro d member refused
    rcases mem_updateWhere_cases member with ⟨old, isRow, isId, rfl⟩ | ⟨isRow, -⟩
    · have oldId := of_decide_eq_true isId
      rw [keeps.call, keeps.id]
      rcases isSpent old isRow oldId refused with already | ⟨other, isCounted, approves, sameCall⟩
      · exact inv.once.refused old isRow already
      · exact ⟨other, isCounted, approves, sameCall, by
          rw [oldId]
          exact notCounted other isCounted⟩
    · exact inv.once.refused d isRow refused
  · rw [counted_eq]
    exact inv.once.tally
  · exact nodup_map_updateWhere keeps.id inv.unique
  · intro d member isPending
    rcases mem_updateWhere_cases member with ⟨old, isRow, isId, rfl⟩ | ⟨isRow, -⟩
    · exact after old isRow (of_decide_eq_true isId)
    · exact inv.waiting d isRow isPending
  · intro job member
    obtain ⟨found, isOpen⟩ := inv.jobs job member
    refine ⟨found, ?_, isOpen.uncounted, isOpen.settled, ?_, isOpen.looked⟩
    · exact (get_updateWhere_other keeps (idle job member)).trans isOpen.isRow
    · rw [counted_eq]
      exact isOpen.fresh

theorem Inv.settle_none (inv : Inv forms state)
    (isRow : state.get found.id = some found) (uncounted : found.counted = false)
    {reason : Reason}
    (isSpent : reason = .spent → ∃ other ∈ state.counted, other.approves = true ∧
      other.call forms = found.call forms) :
    Inv forms (state.settle found.id (.none_ reason)) := by
  have only : ∀ d ∈ state.rows, d.id = found.id → d = found := fun d member same =>
    eq_of_id inv.unique member (get_mem isRow).1 same
  refine (inv.leave found.id).rewrite (keeps_projection forms (.none_ reason)) idle_leave ?_ ?_ ?_
  · intro d member isId
    rw [only d member isId]
    exact uncounted
  · intro d _ _
    rfl
  · intro d member isId refused
    rw [only d member isId]
    exact .inr (isSpent (Projection.none_.inj (some.inj refused)))

theorem approved_settle (unique : (state.rows.map Decision.id).Nodup)
    (isRow : found ∈ state.rows) (uncounted : found.counted = false)
    (approves : found.approves = true) :
    ((state.settle found.id .toolCallCounted).approved forms).Perm
      (found.call forms :: state.approved forms) := by
  have notBefore : (found.counted && found.approves) = false := by
    rw [uncounted, Bool.false_and]
  let counts : Decision → Decision := fun d => { d with projection := some .toolCallCounted }
  have after : ((counts found).counted && (counts found).approves) = true := approves
  have perm := @filter_updateWhere_perm _ _ found counts state.rows Decision.id
    (fun d => d.counted && d.approves) _ unique isRow notBefore after
  exact perm.map (Decision.call forms)

theorem Inv.count (inv : Inv forms state)
    (isRow : state.get found.id = some found) (uncounted : found.counted = false)
    (settled : found.pending = false)
    (fresh : ∀ d ∈ state.counted, d.interrupt ≠ found.interrupt) (alone : Alone state found)
    (left : found.approves = true → (state.approved forms).count (found.call forms) <
        (state.calls.map Invocation.call).count (found.call forms)) :
    Inv forms { state.settle found.id .toolCallCounted with
      counts := found.count forms :: state.counts } := by
  obtain ⟨inRows, -⟩ := get_mem isRow
  have notCounted : ∀ other ∈ state.counted, other.id ≠ found.id := by
    intro other isCounted isId
    obtain ⟨otherRow, wasCounted⟩ := mem_counted.mp isCounted
    rw [eq_of_id inv.unique otherRow inRows isId, uncounted] at wasCounted
    cases wasCounted
  let next : State := { state.settle found.id .toolCallCounted with
    counts := found.count forms :: state.counts }
  let written : Decision := { found with projection := some .toolCallCounted }
  have counted_perm : next.counted.Perm (written :: state.counted) :=
    filter_updateWhere_perm inv.unique inRows uncounted rfl
  have approvedBacked : Backed (next.approved forms) (state.calls.map Invocation.call) := by
    cases approves : found.approves with
    | true =>
      exact (inv.once.backed.use (left approves)).perm
        (approved_settle inv.unique inRows uncounted approves)
    | false =>
      have same : next.approved forms = state.approved forms := by
        rw [State.approved, State.approved]
        congr 1
        refine filter_updateWhere (fun d member isId => ?_) fun d member isId => ?_
        · rw [eq_of_id inv.unique member inRows (of_decide_eq_true isId), approves, Bool.and_false]
        · have isFound := eq_of_id inv.unique member inRows (of_decide_eq_true isId)
          rw [isFound]
          exact (congrArg (_ && ·) approves).trans (Bool.and_false _)
      rw [same]
      exact inv.once.backed
  refine ⟨⟨approvedBacked, ?_, ?_, ?_⟩, ?_, ?_, ?_⟩
  · refine (counted_perm.map Decision.interrupt).nodup_iff.mpr (nodup_cons.mpr ⟨?_, ?_⟩)
    · intro member
      obtain ⟨d, isCounted, same⟩ := mem_map.mp member
      exact fresh d isCounted same
    · exact inv.once.interrupts
  · intro d member refused
    rcases mem_updateWhere_cases member with ⟨old, -, -, rfl⟩ | ⟨isOld, -⟩
    · cases refused
    · obtain ⟨other, isCounted, found_⟩ := inv.once.refused d isOld refused
      exact ⟨other, counted_perm.mem_iff.mpr (mem_cons_of_mem _ isCounted), found_⟩
  · exact (inv.once.tally.cons _).trans (counted_perm.map (Decision.count forms)).symm
  · exact nodup_map_updateWhere (keeps_projection forms _).id inv.unique
  · intro d member isPending
    rcases mem_updateWhere_cases member with ⟨old, isOld, isId, rfl⟩ | ⟨isOld, -⟩
    · rw [eq_of_id inv.unique isOld inRows (of_decide_eq_true isId)] at isPending
      exact absurd isPending (by rw [settled]; decide)
    · exact inv.waiting d isOld isPending
  · intro job member
    have apart : job.id ≠ found.id := of_decide_eq_true (mem_filter.mp member).2
    obtain ⟨other, isOpen⟩ := inv.jobs job (mem_filter.mp member).1
    refine ⟨other, ?_, isOpen.uncounted, isOpen.settled, ?_, isOpen.looked⟩
    · exact (get_updateWhere_other (keeps_projection forms _) apart).trans isOpen.isRow
    · intro d isCounted
      rcases mem_cons.mp (counted_perm.mem_iff.mp isCounted) with rfl | earlier
      · exact (alone job (mem_filter.mp member).1 apart other isOpen.isRow).symm
      · exact isOpen.fresh d earlier

theorem Inv.open_job (inv : Inv forms state) {job : Job} (isOpen : Open forms state job found) :
    Inv forms { state with jobs := job :: state.jobs } where
  once := ⟨inv.once.backed, inv.once.interrupts, inv.once.refused, inv.once.tally⟩
  unique := inv.unique
  waiting := inv.waiting
  jobs := by
    intro other member
    rcases mem_cons.mp member with rfl | earlier
    · exact ⟨found, isOpen.isRow, isOpen.uncounted, isOpen.settled, isOpen.fresh, isOpen.looked⟩
    · obtain ⟨d, wasOpen⟩ := inv.jobs other earlier
      exact ⟨d, wasOpen.isRow, wasOpen.uncounted, wasOpen.settled, wasOpen.fresh, wasOpen.looked⟩

theorem refused_ne_spent : refused forms rows found ≠ some .spent := by
  rw [refused]
  split
  · decide
  · split
    · decide
    · split
      · decide
      · exact some_ne_none _ |>.symm

section

variable (inv : Inv forms state)
include inv

theorem Inv.start {attempt : Nat} (started : start forms state id attempt = some next)
    (shows : ∀ found ∈ state.get id, ShowsInterrupt state found) : Inv forms next := by
  rw [Approvals.start] at started
  split at started
  · cases started
  split at started
  · rw [← some.inj started]
    exact inv
  next found isRow =>
    obtain ⟨inRows, isId⟩ := get_mem isRow
    split at started
    · rw [← some.inj started]
      exact inv
    next unprojected =>
      simp only [Bool.or_eq_true, not_or, Bool.not_eq_true] at unprojected
      have uncounted : found.counted = false := by
        rw [Decision.counted, isSome_eq_false_iff.mp unprojected.1 |> isNone_iff_eq_none.mp]
        rfl
      split at started
      · rw [← some.inj started]
        exact inv
      split at started
      next reason isRefused =>
        rw [← some.inj started, ← isId]
        refine inv.settle_none (by rw [isId]; exact isRow) uncounted fun isSpent => ?_
        rw [isSpent] at isRefused
        exact absurd isRefused refused_ne_spent
      next notRefused =>
        rw [← some.inj started]
        refine inv.open_job ⟨isRow, uncounted, unprojected.2, ?_, fun looked => by cases looked⟩
        exact fresh_of_refused inv.unique inRows uncounted (shows found isRow) notRefused

theorem Inv.look (looked : look forms state id = some next) : Inv forms next := by
  rw [Approvals.look] at looked
  split at looked
  next isJob =>
    obtain ⟨found, isOpen⟩ := inv.jobs ⟨id, false⟩ isJob
    obtain ⟨other, isRow, foundNext⟩ := map_eq_some_iff.mp looked
    obtain rfl : other = found := some.inj (isRow.symm.trans isOpen.isRow)
    obtain ⟨-, isId⟩ := get_mem isRow
    split at foundNext
    · rw [← foundNext, ← isId]
      refine inv.settle_none (by rw [isId]; exact isRow) isOpen.uncounted fun isSpent => ?_
      cases isSpent
    next isBacked =>
      rw [← foundNext]
      have readable : other.approves = true → backed forms state.calls other = true :=
        fun approves => by simpa [approves] using isBacked
      exact (inv.leave id).open_job
        ⟨isRow, isOpen.uncounted, isOpen.settled, isOpen.fresh, fun _ => readable⟩
  · cases looked

theorem Inv.finish (finished : finish forms state id = some next)
    (shown : Shown forms state (.finish id)) : Inv forms next := by
  rw [Approvals.finish] at finished
  split at finished
  next isJob =>
    obtain ⟨found, isOpen⟩ := inv.jobs ⟨id, true⟩ isJob
    obtain ⟨other, isRow, foundNext⟩ := map_eq_some_iff.mp finished
    obtain rfl : other = found := some.inj (isRow.symm.trans isOpen.isRow)
    obtain ⟨-, isId⟩ := get_mem isRow
    obtain ⟨alone, shows⟩ := shown other isRow
    rw [← isId] at isRow
    split at foundNext
    next isSpent =>
      rw [Bool.and_eq_true] at isSpent
      rw [← foundNext, ← isId]
      refine inv.settle_none isRow isOpen.uncounted fun _ => ?_
      exact exists_approval_of_spent (isOpen.looked rfl isSpent.1) isSpent.2
    next notSpent =>
      rw [← foundNext, ← isId]
      refine inv.count isRow isOpen.uncounted isOpen.settled isOpen.fresh alone fun approves => ?_
      obtain ⟨isGiven, -⟩ := given_of_backed (isOpen.looked rfl approves)
      rw [← recorded_eq_count isGiven]
      refine callLeft_of_not_spent inv.unique isGiven ?_ (shows approves)
      simpa [approves] using notSpent
  · cases finished

theorem Inv.submit (new : Decision) : Inv forms (submit state new) := by
  rw [Approvals.submit]
  split
  · exact inv
  next isNew =>
    have absent : state.get new.id = none := by simpa using isNew
    have counted_eq : State.counted
        { state with rows := state.rows ++ [{ new with projection := none }] } = state.counted := by
      rw [State.counted, filter_append, filter_singleton]
      exact append_nil _
    have approved_eq : State.approved forms
        { state with rows := state.rows ++ [{ new with projection := none }] } =
          state.approved forms := by
      rw [State.approved, filter_append, filter_singleton]
      exact congrArg _ (append_nil _)
    refine ⟨⟨?_, ?_, ?_, ?_⟩, ?_, ?_, ?_⟩
    · rw [approved_eq]
      exact inv.once.backed
    · rw [counted_eq]
      exact inv.once.interrupts
    · rw [counted_eq]
      intro d member refused
      rcases mem_concat.mp member with old | rfl
      · exact inv.once.refused d old refused
      · cases refused
    · rw [counted_eq]
      exact inv.once.tally
    · refine nodup_map_insert (fun member => ?_) inv.unique
      obtain ⟨d, isRow, sameId⟩ := mem_map.mp member
      have otherId : d.id ≠ new.id := by
        simpa using find?_eq_none.mp absent d isRow
      exact otherId sameId
    · intro d member isPending
      rcases mem_concat.mp member with old | rfl
      · exact inv.waiting d old isPending
      · rfl
    · intro job member
      obtain ⟨found, isOpen⟩ := inv.jobs job member
      refine ⟨found, ?_, isOpen.uncounted, isOpen.settled, ?_, isOpen.looked⟩
      · rw [State.get, find?_append]
        exact congrArg (Option.or · _) isOpen.isRow
      · rw [counted_eq]
        exact isOpen.fresh

theorem Inv.record (c : Invocation) : Inv forms (record state c) := by
  rw [Approvals.record]
  split
  · exact inv
  · refine ⟨⟨?_, inv.once.interrupts, inv.once.refused, inv.once.tally⟩, inv.unique, inv.waiting,
      ?_⟩
    · dsimp only
      rw [map_append]
      exact inv.once.backed.supply _
    · intro job member
      obtain ⟨found, isOpen⟩ := inv.jobs job member
      exact ⟨found, isOpen.isRow, isOpen.uncounted, isOpen.settled, isOpen.fresh,
        fun looked approves => backed_append [c] (isOpen.looked looked approves)⟩

theorem Inv.review {approve : Bool}
    (reviewed : review state id approve = some next) : Inv forms next := by
  rw [Approvals.review] at reviewed
  split at reviewed
  · cases reviewed
  next found isRow =>
    split at reviewed
    next isPending =>
      rw [← some.inj reviewed]
      obtain ⟨inRows, isId⟩ := get_mem isRow
      have only : ∀ d ∈ state.rows, d.id = id → d = found := fun d member same =>
        eq_of_id inv.unique member inRows (same.trans isId.symm)
      have uncounted := inv.waiting found inRows isPending
      refine inv.rewrite ⟨fun _ => rfl, fun _ => rfl, fun _ => rfl⟩ ?_ ?_ ?_ ?_
      · intro job member isJob
        obtain ⟨other, isOpen⟩ := inv.jobs job member
        have isFound : state.get id = some other := by
          rw [← isJob]
          exact isOpen.isRow
        rw [some.inj (isRow.symm.trans isFound), isOpen.settled] at isPending
        cases isPending
      · intro d member same
        rw [only d member same]
        exact uncounted
      · intro d member same
        rw [only d member same]
        cases approve with
        | true => exact uncounted
        | false => rfl
      · intro d member same refused
        cases approve with
        | true => exact .inl refused
        | false => cases refused
    next => cases reviewed

end

theorem inv_step {action : Action} (stepped : step forms state action = some next)
    (shown : Shown forms state action) (inv : Inv forms state) : Inv forms next := by
  cases action with
  | submit new =>
    rw [← some.inj stepped]
    exact inv.submit new
  | record c =>
    rw [← some.inj stepped]
    exact inv.record c
  | review id approve => exact inv.review stepped
  | start id attempt => exact inv.start stepped shown
  | look id => exact inv.look stepped
  | finish id => exact inv.finish stepped shown
  | fail id =>
    rw [← some.inj stepped]
    exact inv.leave id

theorem inv_empty : Inv forms {} where
  once := ⟨Backed.nil _, nodup_nil, fun _ member => (by cases member), List.Perm.nil⟩
  unique := nodup_nil
  waiting := fun _ member => by cases member
  jobs := fun _ member => by cases member

/-- In every run whose reads show what was counted, decisions are counted once. -/
theorem approvals_counted_once (forms : Forms) (actions : List Action) (state : State)
    (reached : run (step forms) {} actions = some state)
    (shown : Meets (step forms) (Shown forms) {} actions) : Once forms state :=
  (run_invariant_of_meets inv_step reached shown inv_empty).once

instance (forms : Forms) (state : State) (action) : Decidable (Shown forms state action) := by
  unfold Shown
  split <;> infer_instance

def plainForms : Forms where
  stableHash _ := "3c"
  argShape _ := ""
  strip name := name

def transfer (feedbackId targetId interruptId : String) (verdict : FeedbackVerdict)
    (createdAt : Nat) : Decision where
  feedbackId
  tenantId := "acme"
  targetId
  agentId := some "planner"
  agentRunId := some "run_7"
  verdict
  reviewer := some "user:ada"
  metadata := { tool := some "transfer_stock", args := .obj [], interruptId := some interruptId }
  createdAt := ⟨createdAt⟩

def transferCall : Invocation where
  tenantId := "acme"
  toolId := "tol_1"
  toolName := "transfer_stock"
  runId := some "run_7"
  agentId := some "planner"
  argsHash := "3c"

/-- The decision arrives and its job runs to its end. -/
def projected (d : Decision) : List Action := [.submit d, .start d.id 10, .look d.id, .finish d.id]

theorem approval_projected_alone : ∃ next, project plainForms
    { rows := [transfer "fb_1" "call_1" "int_1" .approve 1], calls := [transferCall] }
    ("acme", "fb_1") 10 = some next :=
  (@project_alone plainForms _ (transfer "fb_1" "call_1" "int_1" .approve 1)
    rfl rfl rfl (by simp) 10 (by decide)).imp fun _ => And.left

def rejectedTwice : List Action :=
  projected (transfer "fb_1" "call_1" "int_1" .reject 1) ++
    projected (transfer "fb_2" "call_2" "int_1" .reject 2)

theorem interrupt_counted_twice :
    ¬∀ (forms : Forms) (actions : List Action) (state : State),
      run (step forms) {} actions = some state → Once forms state := by
  intro always
  have ends : (run (step plainForms) {} rejectedTwice).map (fun state =>
      decide (state.counted.map Decision.interrupt).Nodup) = some false := by
    decide +kernel
  obtain ⟨state, reached, twice⟩ := map_eq_some_iff.mp ends
  exact of_decide_eq_false twice (always plainForms rejectedTwice state reached).interrupts

def approvedTwice : List Action :=
  .record transferCall :: projected (transfer "fb_1" "call_1" "int_1" .approve 1) ++
    projected (transfer "fb_2" "call_2" "int_2" .approve 2)

theorem one_call_backs_one :
    ∃ state, run (step plainForms) {} approvedTwice = some state ∧
      state.counted.map Decision.feedbackId = ["fb_1"] ∧ Once plainForms state :=
  exists_run_showing (by decide +kernel) fun state reached =>
    approvals_counted_once plainForms approvedTwice state reached (by decide +kernel)

end MemoryService.Feedback.Approvals
