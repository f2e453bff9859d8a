import MemoryService.Tools.OutcomesLearned

/-!
# Procedures that are rejected

A vote rejects the stored procedure of a pattern, and another one restores it.
-/

namespace MemoryService.Tools.Learning

open Domain Foundation Option List

variable {Notes : Type}

structure Voted (Notes : Type) where
  learning : State Notes := {}
  rejected : List (Group × Digest) := []

inductive Move where
  | learn (action : Action)
  | reject (group : Group)
  | restore (group : Group)

def isRejected (group : Group) (procedure : StoredProcedure Notes) : Bool :=
  keyOf procedure = group ∧ procedure.status = .rejected

def fingerprints (selects : StoredProcedure Notes → Bool)
    (procedures : List (StoredProcedure Notes)) : List (Group × Digest) :=
  (procedures.filter selects).filterMap fun procedure =>
    procedure.stepsHash.map fun stepsHash => (keyOf procedure, stepsHash)

def reject (group : Group) : List (StoredProcedure Notes) → List (StoredProcedure Notes) :=
  updateWhere (fun procedure => keyOf procedure = group)
    fun procedure => { procedure with status := .rejected }

def restore (group : Group) : List (StoredProcedure Notes) → List (StoredProcedure Notes) :=
  updateWhere (isRejected group) fun procedure => { procedure with status := .active }

variable [DecidableEq Notes] (stableHash : Skill → Digest) (describe : Describe Notes)
  (tenantId : String) (voted : Voted Notes)

def vote : Move → Option (Voted Notes)
  | .learn action =>
    (step stableHash describe tenantId voted.learning action).map fun learning =>
      { voted with learning }
  | .reject group =>
    let procedures := voted.learning.procedures
    some
      { learning := { voted.learning with procedures := reject group procedures }
        rejected := voted.rejected ++ fingerprints (fun p => keyOf p = group) procedures }
  | .restore group =>
    let procedures := voted.learning.procedures
    some
      { learning := { voted.learning with procedures := restore group procedures }
        rejected := voted.rejected.filter (· ∉ fingerprints (isRejected group) procedures) }

/-- No active procedure has steps that were rejected for its key. -/
def StaysRejected : Prop :=
  ∀ procedure ∈ voted.learning.procedures, procedure.status = .active →
    ∀ stepsHash ∈ procedure.stepsHash, (keyOf procedure, stepsHash) ∉ voted.rejected
deriving Decidable

def ReadsRejection (rejected : List (Group × Digest)) (reading : Reading Notes) : Prop :=
  ∀ mined ∈ mineProcedure describe reading.group.pattern
      (trajectoriesOf reading.outcomes reading.calls),
    admitted reading.now mined = true → (reading.group, stableHash mined.skill) ∈ rejected →
      reading.existing.any (fun e => e.status = .rejected ∧
        e.stepsHash = some (stableHash mined.skill)) = true
deriving Decidable

def Remembers : Move → Prop
  | .learn (.save place) =>
    ∀ pass ∈ voted.learning.passes[place]?, ∀ saving ∈ pass.saving,
      ReadsRejection stableHash describe voted.rejected saving.1
  | _ => True

instance (voted : Voted Notes) (move) : Decidable (Remembers stableHash describe voted move) := by
  unfold Remembers
  split <;> infer_instance

variable {stableHash : Skill → Digest} {describe : Describe Notes} {tenantId : String}
  {voted next : Voted Notes} {group : Group}

omit [DecidableEq Notes] in
theorem mem_fingerprints {selects : StoredProcedure Notes → Bool}
    {procedures : List (StoredProcedure Notes)} {stepsHash : Digest} :
    (group, stepsHash) ∈ fingerprints selects procedures ↔
      ∃ procedure ∈ procedures, selects procedure = true ∧ keyOf procedure = group ∧
        procedure.stepsHash = some stepsHash := by
  rw [fingerprints, mem_filterMap]
  constructor
  · rintro ⟨procedure, member, isOf⟩
    obtain ⟨isIn, isSelected⟩ := mem_filter.mp member
    obtain ⟨hash, isHash, same⟩ := map_eq_some_iff.mp isOf
    cases same
    exact ⟨procedure, isIn, isSelected, rfl, isHash⟩
  · rintro ⟨procedure, isIn, isSelected, rfl, isHash⟩
    refine ⟨procedure, mem_filter.mpr ⟨isIn, isSelected⟩, ?_⟩
    rw [isHash]
    rfl

theorem procedures_step {state next : State Notes} {action : Action}
    (stepped : step stableHash describe tenantId state action = some next) :
    next.procedures = state.procedures ∨
      ∃ place pass saved, action = .save place ∧ state.passes[place]? = some pass ∧
        pass.saving = some saved ∧ next.procedures = save saved.2 state.procedures := by
  cases action with
  | record call =>
    obtain ⟨-, rfl⟩ := step_cases stepped
    exact .inl rfl
  | outcome outcome =>
    cases stepped
    exact .inl rfl
  | begin limit =>
    obtain ⟨todo, rfl⟩ := step_cases stepped
    exact .inl rfl
  | mine place group now =>
    obtain ⟨pass, -, -, rfl⟩ := step_cases stepped
    exact .inl rfl
  | save place =>
    obtain ⟨pass, reading, procedure, isPass, isSaving, rfl⟩ := step_cases stepped
    exact .inr ⟨place, pass, (reading, procedure), rfl, isPass, isSaving, rfl⟩
  | finish place =>
    obtain ⟨pass, -, rfl⟩ := step_cases stepped
    exact .inl rfl
  | fail place =>
    cases step_cases stepped
    exact .inl rfl

theorem learn_stays {action : Action} {learning : State Notes}
    (stepped : step stableHash describe tenantId voted.learning action = some learning)
    (remembers : Remembers stableHash describe voted (.learn action))
    (sound : Sound stableHash describe tenantId voted.learning) (stays : StaysRejected voted) :
    StaysRejected { voted with learning } := by
  rcases procedures_step stepped with same | ⟨place, pass, saved, rfl, isPass, isSaving, saves⟩
  · intro procedure member isActive
    rw [same] at member
    exact stays procedure member isActive
  · intro procedure member isActive stepsHash isHash
    rw [saves] at member
    rcases mem_insertOrUpdate keyOf member with rfl | before
    · have right := sound.passes pass (mem_of_getElem? isPass)
      obtain ⟨mined, isMined, isAdmitted, -, minedHash, -, notRejected⟩ :=
        active_of_relearn stableHash describe tenantId (right.saving saved isSaving) isActive
      rw [mem_def, minedHash] at isHash
      cases isHash
      rw [(right.saved isSaving).2.1]
      intro wasRejected
      rw [remembers pass isPass saved isSaving mined isMined isAdmitted wasRejected] at notRejected
      cases notRejected
    · exact stays procedure before isActive stepsHash isHash

omit [DecidableEq Notes] in
theorem reject_stays (stays : StaysRejected voted) :
    StaysRejected
      { learning :=
          { voted.learning with procedures := reject group voted.learning.procedures }
        rejected := voted.rejected ++
          fingerprints (fun p => keyOf p = group) voted.learning.procedures } := by
  intro procedure member isActive stepsHash isHash wasRejected
  rcases mem_updateWhere_cases member with ⟨old, -, -, rfl⟩ | ⟨before, isOther⟩
  · cases isActive
  · rcases mem_append.mp wasRejected with already | isNew
    · exact stays procedure before isActive stepsHash isHash already
    · obtain ⟨other, -, isOf, sameKey, -⟩ := mem_fingerprints.mp isNew
      rw [← sameKey] at isOther
      exact of_decide_eq_false isOther ((of_decide_eq_true isOf) ▸ rfl)

omit [DecidableEq Notes] in
theorem restore_stays (stays : StaysRejected voted) :
    StaysRejected
      { learning :=
          { voted.learning with procedures := restore group voted.learning.procedures }
        rejected :=
          voted.rejected.filter
            (· ∉ fingerprints (isRejected group) voted.learning.procedures) } := by
  intro procedure member isActive stepsHash isHash wasRejected
  obtain ⟨already, notRestored⟩ := mem_filter.mp wasRejected
  rcases mem_updateWhere_cases member with ⟨old, isIn, wasOf, rfl⟩ | ⟨before, -⟩
  · exact of_decide_eq_true notRestored (mem_fingerprints.mpr ⟨old, isIn, wasOf, rfl, isHash⟩)
  · exact stays procedure before isActive stepsHash isHash already

theorem vote_stays {move : Move}
    (stepped : vote stableHash describe tenantId voted move = some next)
    (remembers : Remembers stableHash describe voted move)
    (invariant : Sound stableHash describe tenantId voted.learning ∧ StaysRejected voted) :
    Sound stableHash describe tenantId next.learning ∧ StaysRejected next := by
  obtain ⟨sound, stays⟩ := invariant
  cases move with
  | learn action =>
    obtain ⟨learning, learned, rfl⟩ := map_eq_some_iff.mp stepped
    exact ⟨sound_step learned sound, learn_stays learned remembers sound stays⟩
  | reject group =>
    cases stepped
    exact ⟨⟨sound.unique, sound.passes⟩, reject_stays stays⟩
  | restore group =>
    cases stepped
    exact ⟨⟨sound.unique, sound.passes⟩, restore_stays stays⟩

/-- In a run that forgets no rejection, rejected steps stay rejected. -/
theorem rejected_stays (stableHash : Skill → Digest) (describe : Describe Notes)
    (tenantId : String) (moves : List Move) (voted : Voted Notes)
    (reached : run (vote stableHash describe tenantId) {} moves = some voted)
    (remembers : Meets (vote stableHash describe tenantId)
      (Remembers stableHash describe) {} moves) : StaysRejected voted := by
  have start : Sound stableHash describe tenantId (Voted.learning ({} : Voted Notes)) ∧
      StaysRejected ({} : Voted Notes) :=
    ⟨sound_start, fun procedure member => by cases member⟩
  exact (run_invariant_of_meets vote_stays reached remembers start).2

def searchIn (invocationId runId : String) : ToolInvocation :=
  { searchCall with invocationId, runId := some runId }

def thirdRun : List Move :=
  [.learn (.record (searchIn "call_1" "r_1")), .learn (.record (searchIn "call_2" "r_2")),
    .learn (.outcome (approved "r_1")), .learn (.outcome (approved "r_2")),
    .learn (.begin 500), .learn (.mine 0 plannerSearch ⟨40⟩), .learn (.save 0),
    .learn (.finish 0), .learn (.record (searchIn "call_3" "r_3")),
    .learn (.outcome (approved "r_3")), .learn (.begin 500)]

def lateRejection : List Move :=
  thirdRun ++ [.learn (.mine 0 plannerSearch ⟨50⟩), .reject plannerSearch, .learn (.save 0)]

theorem late_rejection_is_lost :
    ¬∀ (stableHash : Skill → Digest) (describe : Describe ℕ) (tenantId : String)
      (moves : List Move) (voted : Voted ℕ),
      run (vote stableHash describe tenantId) {} moves = some voted → StaysRejected voted :=
  fun always => not_always_of_run lateRejection (by decide +kernel) (always sameHash samples "acme")

def timelyRejection : List Move :=
  thirdRun ++ [.reject plannerSearch, .learn (.mine 0 plannerSearch ⟨50⟩), .learn (.save 0)]

theorem timely_rejection_stays :
    ∃ voted, run (vote sameHash samples "acme") {} timelyRejection = some voted ∧
      voted.learning.procedures.map (fun p => (p.support, p.status)) = [(3, .rejected)] ∧
        StaysRejected voted :=
  exists_run_showing (by decide +kernel) fun voted reached =>
    rejected_stays sameHash samples "acme" timelyRejection voted reached (by decide +kernel)

end MemoryService.Tools.Learning
