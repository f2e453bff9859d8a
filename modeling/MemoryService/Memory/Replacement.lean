import MemoryService.Foundation.Reach
import MemoryService.Foundation.Transition
import MemoryService.Memory.Statements

/-!
# Replacement across conversations

A later statement marks an earlier one of the same user as replaced: still current, as an earlier
value, or superseded. Forgetting the later one undoes what it replaced.
-/

namespace MemoryService.Memory.Replacement

open Domain Foundation Statements Option List

def earlierValue (m : CanonicalMemory) : Bool :=
  m.systemMetadata.replacedBy.any fun mark => mark.grade = some .earlier

variable (form unit : CanonicalMemory)

/-- `apply`: the form is marked as replaced by the unit, which is not touched. -/
def apply (grade : Grade) (now : Instant) : CanonicalMemory :=
  let mark : ReplacedBy := { memoryId := unit.memoryId, grade := some grade }
  match grade with
  | .earlier =>
    { form with
      systemMetadata := { form.systemMetadata with replacedBy := some mark }
      updatedAt := now }
  | .superseded =>
    { form with
      temporal :=
        { form.temporal with
          status := .superseded
          supersededBy := some unit.memoryId
          validTo := some (form.temporal.validTo.getD unit.temporal.since) }
      systemMetadata :=
        { form.systemMetadata with
          replacedBy := some mark
          supersedeReason := some "replaced in a later statement" }
      updatedAt := now }

def reopens (ids : List String) (memory : CanonicalMemory) : Bool :=
  memory.systemMetadata.replacedBy.any (fun mark => mark.grade = some .superseded) ∧
    memory.temporal.status = .superseded ∧
    memory.temporal.supersededBy.any fun newer => newer ∈ ids

/-- What `reinstate` makes of a memory whose mark names one of the ids. -/
def reinstated (ids : List String) (now : Instant) (memory : CanonicalMemory) :
    CanonicalMemory :=
  let metadata := { memory.systemMetadata with replacedBy := none }
  if reopens ids memory then
    { memory with
      temporal := { memory.temporal with status := .current, supersededBy := none, validTo := none }
      systemMetadata := { metadata with supersedeReason := none }
      updatedAt := now }
  else { memory with systemMetadata := metadata, updatedAt := now }

/-- The memories `reinstate` writes. -/
def isReinstated (tenantId : String) (ids : List String) (r : CanonicalMemory) : Bool :=
  r.tenantId = tenantId ∧ r.deletedAt = none ∧ (replacedBy r).any fun newer => newer ∈ ids

variable (now : Instant) (tenantId : String) (ids : List String)

def reinstate (rows : List CanonicalMemory) : List CanonicalMemory :=
  updateWhere (isReinstated tenantId ids) (fun r => written (reinstated ids now r) r) rows

/-- `forget` of each of the ids. -/
def forgetAll (rows : List CanonicalMemory) : List CanonicalMemory :=
  updateWhere
    (fun r => r.memoryId ∈ ids ∧ r.tenantId = tenantId ∧ r.deletedAt = none)
    (forgotten now) rows

/-- The memory and the copies that are forgotten with it; `none` where it is not found. -/
def gone (tenantId memoryId : String) (rows : List CanonicalMemory) :
    Option (List String) :=
  (get now tenantId memoryId rows).map fun memory =>
    memory.memoryId :: (twins tenantId memory false rows).map CanonicalMemory.memoryId

/-- `MemoryService.forget`, the caller being one who may: a memory that is already
forgotten stays so. -/
def forget (tenantId memoryId : String) (rows : List CanonicalMemory) :
    Option (List CanonicalMemory) :=
  if isForgotten tenantId memoryId rows then some rows
  else
    (gone now tenantId memoryId rows).map fun ids =>
      reinstate now tenantId ids (forgetAll now tenantId ids rows)

structure State where
  rows : List CanonicalMemory := []
  /-- the earlier and the later statement of every replacement so far -/
  replaced : List (String × String) := []

inductive Action where
  | say (memory : CanonicalMemory)
  | replace (formId unitId : String) (grade : Grade) (now : Instant)
  | forget (tenantId memoryId : String) (now : Instant)

def isNew (memory : CanonicalMemory) (rows : List CanonicalMemory) : Bool :=
  memory.memoryId ∉ rows.map CanonicalMemory.memoryId ∧ memory.deletedAt = none ∧
    memory.systemMetadata.replacedBy = none

def comparable : Bool :=
  form.memoryId ≠ unit.memoryId ∧ form.tenantId = unit.tenantId ∧
    form.ownerPrincipal = unit.ownerPrincipal ∧
    form.deletedAt = none ∧ form.temporal.status = .current ∧
    unit.deletedAt = none ∧ unit.temporal.status = .current

variable (state : State)

def step : Action → Option State
  | .say memory =>
    if isNew memory state.rows then some { state with rows := Statements.add memory state.rows }
    else none
  | .replace formId unitId grade now => do
      let form ← row formId state.rows
      let unit ← row unitId state.rows
      if comparable form unit then
        some
          { rows := Statements.update (apply form unit grade now) state.rows
            replaced := state.replaced ++ [(formId, unitId)] }
      else none
  | .forget tenantId memoryId now =>
    (forget now tenantId memoryId state.rows).map fun rows => { state with rows }

variable (r : CanonicalMemory)

def holdsNow : Bool := r.deletedAt = none ∧ r.temporal.status = .current ∧ earlierValue r = false

def State.Overruled (memoryId : String) : Prop :=
  ∃ newer ∈ state.rows, newer.deletedAt = none ∧ newer.memoryId ∈ reach state.replaced [memoryId]
deriving Decidable

/-- Nothing is served as what holds now that a standing statement replaced. -/
def State.Settled : Prop := ∀ r ∈ state.rows, holdsNow r = true → ¬state.Overruled r.memoryId
deriving Decidable

/-- Not forgotten, and not among what is being forgotten. -/
def stays : Bool := r.deletedAt = none ∧ ¬(r.memoryId ∈ ids ∧ r.tenantId = tenantId)

/-- Marked by what is being forgotten, and current without the mark. -/
def comesBack : Bool :=
  stays tenantId ids r ∧ isReinstated tenantId ids r ∧
    (r.temporal.status = .current ∨ reopens ids r)

/-- What a forget reopens leads, mark by mark, to no memory that stays. -/
def Admitted : Action → Prop
  | .say _ => True
  | .replace _ _ _ _ => True
  | .forget tenantId memoryId now =>
    ∀ ids ∈ gone now tenantId memoryId state.rows,
      ∀ r ∈ state.rows, comesBack tenantId ids r = true →
        ∀ newer ∈ state.rows, stays tenantId ids newer = true →
          newer.memoryId ∉ reach state.replaced [r.memoryId]

instance (state : State) (action : Action) : Decidable (Admitted state action) := by
  cases action with
  | say memory => exact inferInstanceAs (Decidable True)
  | replace formId unitId grade now => exact inferInstanceAs (Decidable True)
  | forget tenantId memoryId now =>
    exact inferInstanceAs (Decidable (∀ ids ∈ _, ∀ r ∈ _, _ → ∀ newer ∈ _, _ → _))

theorem not_holdsNow_apply (grade : Grade) (now : Instant)
    (r : CanonicalMemory) : holdsNow (written (apply form unit grade now) r) = false := by
  cases grade with
  | earlier => simp [holdsNow, written, apply, earlierValue]
  | superseded => simp [holdsNow, written, apply]

theorem holdsNow_reinstated (now : Instant) (r : CanonicalMemory) :
    holdsNow (written (reinstated ids now r) r) = true ↔
      r.deletedAt = none ∧ (r.temporal.status = .current ∨ reopens ids r = true) := by
  rw [reinstated]
  split
  case isTrue reopened =>
    simp [holdsNow, written, earlierValue, reopened]
  case isFalse closed =>
    simp [holdsNow, written, earlierValue, closed]

variable {r r' : CanonicalMemory} {state next : State} {memoryId formId unitId : String}
  {grade : Grade} {now : Instant}

section Forgetting

variable {now : Instant} {tenantId memoryId : String} {ids : List String}
  {rows next : List CanonicalMemory}

theorem forget_cases (forgot : forget now tenantId memoryId rows = some next) :
    (gone now tenantId memoryId rows = none ∧ next = rows) ∨
      ∃ ids, gone now tenantId memoryId rows = some ids ∧
        next = reinstate now tenantId ids (forgetAll now tenantId ids rows) := by
  rw [forget] at forgot
  split at forgot
  case isTrue already =>
    apply Or.inl
    refine ⟨?_, (some.inj forgot).symm⟩
    obtain ⟨r, found, -, isDeleted⟩ :
        ∃ r, row memoryId rows = some r ∧ r.tenantId = tenantId ∧ r.deletedAt.isSome = true := by
      simpa [isForgotten, Option.any_eq_true] using already
    have missing : get now tenantId memoryId rows = none := by
      rw [Statements.get, found, Option.filter_eq_none_iff]
      intro other isOther
      cases isOther
      obtain ⟨at_, deleted⟩ := isSome_iff_exists.mp isDeleted
      simp [deleted]
    rw [gone, missing]
    rfl
  case isFalse _ =>
    obtain ⟨ids, isGone, isNext⟩ := map_eq_some_iff.mp forgot
    exact .inr ⟨ids, isGone, isNext.symm⟩

private def forgetRow (now : Instant) (tenantId : String) (ids : List String)
    (r : CanonicalMemory) : CanonicalMemory :=
  if r.memoryId ∈ ids ∧ r.tenantId = tenantId ∧ r.deletedAt = none then forgotten now r
  else r

theorem forgetRow_deleted (r : CanonicalMemory) :
    (forgetRow now tenantId ids r).deletedAt = none ↔ stays tenantId ids r = true := by
  rw [forgetRow, stays]
  split
  case isTrue taken => simp [forgotten, taken]
  case isFalse left =>
    simp only [decide_eq_true_eq]
    constructor
    · intro standing
      exact ⟨standing, fun isGone => left ⟨isGone.1, isGone.2, standing⟩⟩
    · exact And.left

theorem forgetRow_stays (staying : stays tenantId ids r = true) :
    forgetRow now tenantId ids r = r := by
  rw [forgetRow, if_neg]
  rw [stays] at staying
  intro taken
  simp [taken] at staying

theorem mem_forgetAll :
    r' ∈ forgetAll now tenantId ids rows ↔ ∃ r ∈ rows, forgetRow now tenantId ids r = r' := by
  rw [forgetAll, mem_updateWhere]
  refine exists_congr fun r => and_congr_right fun _ => ?_
  rw [forgetRow]
  simp only [decide_eq_true_eq]

theorem mem_reinstate_iff (standing : r'.deletedAt = none) :
    r' ∈ reinstate now tenantId ids (forgetAll now tenantId ids rows) ↔
      ∃ r ∈ rows, stays tenantId ids r = true ∧
        (if isReinstated tenantId ids r then written (reinstated ids now r) r else r) = r' := by
  rw [reinstate, mem_updateWhere]
  constructor
  · intro member
    obtain ⟨middle, isMiddle, isLast⟩ := member
    obtain ⟨r, stored, isForgotten⟩ := mem_forgetAll.mp isMiddle
    have kept : middle.deletedAt = none := by
      rw [← isLast] at standing
      split at standing
      case isTrue _ => exact standing
      case isFalse _ => exact standing
    rw [← isForgotten] at kept
    have staying := (forgetRow_deleted r).mp kept
    rw [forgetRow_stays staying] at isForgotten
    rw [← isForgotten] at isLast
    exact ⟨r, stored, staying, isLast⟩
  · intro member
    obtain ⟨r, stored, staying, isLast⟩ := member
    exact ⟨r, mem_forgetAll.mpr ⟨r, stored, forgetRow_stays staying⟩, isLast⟩

theorem id_written_reinstated (r : CanonicalMemory) :
    (written (reinstated ids now r) r).memoryId = r.memoryId := by
  rw [written, reinstated]
  split <;> rfl

theorem id_of_reinstated (r : CanonicalMemory) :
    (if isReinstated tenantId ids r then written (reinstated ids now r) r else r).memoryId =
      r.memoryId := by
  split
  case isTrue _ => exact id_written_reinstated r
  case isFalse _ => rfl

theorem deleted_of_reinstated (r : CanonicalMemory) :
    (if isReinstated tenantId ids r then written (reinstated ids now r) r else r).deletedAt =
      r.deletedAt := by
  split <;> rfl

theorem stays_standing (staying : stays tenantId ids r = true) : r.deletedAt = none := by
  simp only [stays, decide_eq_true_eq] at staying
  exact staying.1

theorem overruled_forget_iff {replaced : List (String × String)} {old : String} :
    State.Overruled
        { rows := reinstate now tenantId ids (forgetAll now tenantId ids rows), replaced }
        old ↔
      ∃ newer ∈ rows, stays tenantId ids newer = true ∧ newer.memoryId ∈ reach replaced [old] := by
  constructor
  · intro overruled
    obtain ⟨newer', member, standing, reached⟩ := overruled
    obtain ⟨newer, stored, staying, isNewer⟩ := (mem_reinstate_iff standing).mp member
    rw [← isNewer, id_of_reinstated] at reached
    exact ⟨newer, stored, staying, reached⟩
  · intro overruled
    obtain ⟨newer, stored, staying, reached⟩ := overruled
    have standing := stays_standing staying
    rw [← @deleted_of_reinstated now tenantId ids] at standing
    refine ⟨_, (mem_reinstate_iff standing).mpr ⟨newer, stored, staying, rfl⟩, standing, ?_⟩
    rw [id_of_reinstated]
    exact reached

end Forgetting

structure State.WellNamed (state : State) : Prop where
  unique : (state.rows.map CanonicalMemory.memoryId).Nodup
  named : ∀ earlier later, Edge state.replaced earlier later →
    earlier ∈ state.rows.map CanonicalMemory.memoryId ∧
      later ∈ state.rows.map CanonicalMemory.memoryId

theorem State.WellNamed.of_same_ids (wellNamed : state.WellNamed)
    (sameIds : next.rows.map CanonicalMemory.memoryId = state.rows.map CanonicalMemory.memoryId)
    (named : ∀ earlier later, Edge next.replaced earlier later →
      earlier ∈ state.rows.map CanonicalMemory.memoryId ∧
        later ∈ state.rows.map CanonicalMemory.memoryId) :
    next.WellNamed where
  unique := by
    rw [sameIds]
    exact wellNamed.unique
  named := by
    rw [sameIds]
    exact named

theorem row_mem {rows : List CanonicalMemory} (found : row memoryId rows = some r) :
    r ∈ rows ∧ r.memoryId = memoryId := by
  rw [row] at found
  exact ⟨mem_of_find?_eq_some found, by simpa using find?_some found⟩

theorem reinstate_ids (now : Instant) (tenantId : String) (ids : List String)
    (rows : List CanonicalMemory) :
    (reinstate now tenantId ids (forgetAll now tenantId ids rows)).map CanonicalMemory.memoryId =
      rows.map CanonicalMemory.memoryId := by
  rw [reinstate, forgetAll, map_updateWhere, map_updateWhere]
  · intro r
    rfl
  · exact id_written_reinstated

theorem replace_cases (stepped : step state (.replace formId unitId grade now) = some next) :
    ∃ form unit, row formId state.rows = some form ∧ row unitId state.rows = some unit ∧
      comparable form unit = true ∧
      next =
        { rows := Statements.update (apply form unit grade now) state.rows
          replaced := state.replaced ++ [(formId, unitId)] } := by
  simp only [step, bind_eq_bind, bind_eq_some_iff] at stepped
  obtain ⟨form, isForm, unit, isUnit, taken⟩ := stepped
  obtain ⟨related, taken⟩ := ite_none_right_eq_some.mp taken
  exact ⟨form, unit, isForm, isUnit, related, (some.inj taken).symm⟩

theorem step_wellNamed {action : Action}
    (stepped : step state action = some next) (wellNamed : state.WellNamed) :
    next.WellNamed := by
  cases action with
  | say memory =>
    rw [step] at stepped
    obtain ⟨isNew_, stepped⟩ := ite_none_right_eq_some.mp stepped
    simp only [isNew, decide_eq_true_eq] at isNew_
    cases stepped
    refine ⟨nodup_map_insert isNew_.1 wellNamed.unique, ?_⟩
    intro earlier later isEdge
    obtain ⟨isEarlier, isLater⟩ := wellNamed.named earlier later isEdge
    rw [Statements.add, map_append]
    exact ⟨mem_append_left _ isEarlier, mem_append_left _ isLater⟩
  | replace formId unitId grade now =>
    obtain ⟨form, unit, isForm, isUnit, -, rfl⟩ := replace_cases stepped
    refine wellNamed.of_same_ids ids_update ?_
    intro earlier later isEdge
    rcases mem_append.mp isEdge with isOld | isNewEdge
    · exact wellNamed.named earlier later isOld
    · obtain ⟨rfl, rfl⟩ := Prod.mk.inj (mem_singleton.mp isNewEdge)
      have formStored := row_mem isForm
      have unitStored := row_mem isUnit
      exact ⟨mem_map.mpr ⟨form, formStored⟩, mem_map.mpr ⟨unit, unitStored⟩⟩
  | forget tenantId memoryId now =>
    obtain ⟨rows, forgot, rfl⟩ := map_eq_some_iff.mp stepped
    rcases forget_cases forgot with ⟨-, rfl⟩ | ⟨ids, -, rfl⟩
    · exact wellNamed
    · exact wellNamed.of_same_ids (reinstate_ids now tenantId ids state.rows) wellNamed.named

theorem say_settled {memory : CanonicalMemory}
    (stepped : step state (.say memory) = some next) (wellNamed : state.WellNamed)
    (settled : state.Settled) : next.Settled := by
  rw [step] at stepped
  obtain ⟨isNew_, stepped⟩ := ite_none_right_eq_some.mp stepped
  simp only [isNew, decide_eq_true_eq] at isNew_
  cases stepped
  intro r member holds overruled
  obtain ⟨newer, isNewer, standing, reached⟩ := overruled
  obtain ⟨⟨other, leaves⟩, ⟨last, enters⟩⟩ := ends_of_mem_reach reached
  have rNamed := (wellNamed.named _ _ leaves).1
  have newerNamed := (wellNamed.named _ _ enters).2
  -- a new statement has replaced nothing yet, and nothing has replaced it
  have notNew : ∀ m ∈ Statements.add memory state.rows,
      m.memoryId ∈ state.rows.map CanonicalMemory.memoryId → m ∈ state.rows := by
    intro m added known
    rcases mem_concat.mp added with isOld | rfl
    · exact isOld
    · exact absurd known isNew_.1
  exact settled r (notNew r member rNamed) holds
    ⟨newer, notNew newer isNewer newerNamed, standing, reached⟩

theorem replace_settled (stepped : step state (.replace formId unitId grade now) = some next)
    (wellNamed : state.WellNamed) (settled : state.Settled) : next.Settled := by
  obtain ⟨form, unit, isForm, isUnit, related, rfl⟩ := replace_cases stepped
  obtain ⟨formStored, formNamed⟩ := row_mem isForm
  simp only [comparable, decide_eq_true_eq] at related
  intro r' member holds overruled
  obtain ⟨newer', isNewer, standing, reached⟩ := overruled
  rcases mem_updateWhere_cases member with ⟨r, stored, -, rfl⟩ | ⟨stored, notForm⟩
  · rw [not_holdsNow_apply] at holds
    cases holds
  · -- the statement that overrules it now did so before, or the form did
    rcases reach_insert reached with before | isFormId | through
    · apply settled r' stored holds
      rcases mem_updateWhere_cases isNewer with ⟨m, mStored, isSelected, rfl⟩ | ⟨mStored, -⟩
      · refine ⟨m, mStored, standing, ?_⟩
        simp only [decide_eq_true_eq] at isSelected
        rw [isSelected.1]
        exact before
      · exact ⟨newer', mStored, standing, before⟩
    · have same : r' = form := by
        apply inj_on_of_nodup_map wellNamed.unique stored formStored
        rw [isFormId, formNamed]
      rw [same] at notForm
      cases grade <;> simp [apply] at notForm
    · apply settled r' stored holds
      refine ⟨form, formStored, related.2.2.2.1, ?_⟩
      rw [formNamed]
      exact through

theorem forget_settled_iff {tenantId : String}
    (stepped : step state (.forget tenantId memoryId now) = some next)
    (settled : state.Settled) :
    next.Settled ↔ Admitted state (.forget tenantId memoryId now) := by
  obtain ⟨rows, forgot, rfl⟩ := map_eq_some_iff.mp stepped
  rw [Admitted]
  rcases forget_cases forgot with ⟨noneGone, rfl⟩ | ⟨ids, isGone, rfl⟩
  · rw [noneGone]
    simp only [mem_def, reduceCtorEq, false_implies, implies_true, iff_true]
    exact settled
  · rw [isGone]
    constructor
    · intro after ids' isIds r stored back newer newerStored staying reached
      cases isIds
      simp only [comesBack, decide_eq_true_eq] at back
      obtain ⟨rStays, reinstatedRow, currentAgain⟩ := back
      have standing := stays_standing rStays
      have holds : holdsNow (written (reinstated ids now r) r) = true :=
        (holdsNow_reinstated ids now r).mpr ⟨standing, currentAgain⟩
      have stillStanding : (written (reinstated ids now r) r).deletedAt = none := standing
      have member : written (reinstated ids now r) r ∈
          reinstate now tenantId ids (forgetAll now tenantId ids state.rows) :=
        (mem_reinstate_iff stillStanding).mpr ⟨r, stored, rStays, by rw [if_pos reinstatedRow]⟩
      apply after _ member holds
      apply overruled_forget_iff.mpr
      refine ⟨newer, newerStored, staying, ?_⟩
      rw [id_written_reinstated]
      exact reached
    · intro admitted r' member holds overruled
      have standing : r'.deletedAt = none := by
        simp only [holdsNow, decide_eq_true_eq] at holds
        exact holds.1
      obtain ⟨r, stored, rStays, isLast⟩ := (mem_reinstate_iff standing).mp member
      obtain ⟨newer, newerStored, staying, reached⟩ := overruled_forget_iff.mp overruled
      split at isLast
      case isTrue reinstatedRow =>
        rw [← isLast] at holds reached
        have back : comesBack tenantId ids r = true := by
          simp only [comesBack, decide_eq_true_eq]
          exact ⟨rStays, reinstatedRow, ((holdsNow_reinstated ids now r).mp holds).2⟩
        rw [id_written_reinstated] at reached
        exact admitted ids rfl r stored back newer newerStored staying reached
      case isFalse _ =>
        rw [← isLast] at holds reached
        exact settled r stored holds ⟨newer, newerStored, stays_standing staying, reached⟩

theorem initial_wellNamed : State.WellNamed {} where
  unique := by simp
  named := by
    intro earlier later isEdge
    cases isEdge

theorem initial_settled : State.Settled {} := by
  intro r member
  cases member

/-- In a run, nothing that a standing statement replaced is ever served as what holds now
just where every forget is admitted. -/
theorem settled_along_iff {actions : List Action} {target : State}
    (reached : run step {} actions = some target) :
    (∀ first, first <+: actions → ∀ state, run step {} first = some state → state.Settled) ↔
      Meets step Admitted {} actions := by
  constructor
  · intro settled
    apply meets_of_invariant_along _ reached settled
    intro state next action stepped before after
    cases action with
    | say memory => trivial
    | replace formId unitId grade now => trivial
    | forget tenantId memoryId now => exact (forget_settled_iff stepped before).mp after
  · intro admitted first isFirst state isReached
    obtain ⟨later, rfl⟩ := isFirst
    have kept : state.WellNamed ∧ state.Settled := by
      apply run_invariant_of_meets _ isReached admitted.of_append
        ⟨initial_wellNamed, initial_settled⟩
      intro before after action stepped isAdmitted inv
      refine ⟨step_wellNamed stepped inv.1, ?_⟩
      cases action with
      | say memory => exact say_settled stepped inv.1 inv.2
      | replace formId unitId grade now => exact replace_settled stepped inv.1 inv.2
      | forget tenantId memoryId now =>
        exact (forget_settled_iff stepped inv.2).mpr isAdmitted
    exact kept.2

def livesIn (memoryId city : String) (hash : Digest) (saidAt : Instant) :
    CanonicalMemory where
  memoryId := memoryId
  tenantId := "hooli"
  ownerPrincipal := "user:gavin"
  memoryType := .user
  content := "I live in " ++ city
  normalizedHash := hash
  subject := some "user:gavin"
  predicate := some "lives_in"
  object := some city
  temporal := { observedAt := saidAt }
  evidence := [⟨.message, "msg_" ++ memoryId⟩]
  updatedAt := saidAt

def twoMoves : List Action :=
  [.say (livesIn "mem_a" "Lyon" ⟨"1a", rfl⟩ ⟨1⟩),
    .say (livesIn "mem_b" "Porto" ⟨"1b", rfl⟩ ⟨2⟩),
    .replace "mem_a" "mem_b" .superseded ⟨2⟩,
    .say (livesIn "mem_c" "Turin" ⟨"1c", rfl⟩ ⟨3⟩),
    .replace "mem_b" "mem_c" .superseded ⟨3⟩]

/-- Forgetting the second city brings the first one back beside the third. -/
theorem forgotten_middle_brings_back :
    ¬∀ actions state, run step {} actions = some state → state.Settled := by
  apply not_always_of_run (twoMoves ++ [.forget "hooli" "mem_b" ⟨4⟩])
  decide +kernel

/-- Forgetting the third brings the second one back and, forgotten in its turn, that brings
back the first. -/
theorem newest_first_settled :
    (∃ state,
        run step {} (twoMoves ++ [.forget "hooli" "mem_c" ⟨4⟩, .forget "hooli" "mem_b" ⟨5⟩]) =
            some state ∧
          (state.rows.filter holdsNow).map CanonicalMemory.memoryId = ["mem_a"]) ∧
      ∀ first,
        first <+: twoMoves ++ [.forget "hooli" "mem_c" ⟨4⟩, .forget "hooli" "mem_b" ⟨5⟩] →
          ∀ state, run step {} first = some state → state.Settled := by
  have standing :
      (run step {} (twoMoves ++ [.forget "hooli" "mem_c" ⟨4⟩, .forget "hooli" "mem_b" ⟨5⟩])).map
        (fun state => (state.rows.filter holdsNow).map CanonicalMemory.memoryId) =
      some ["mem_a"] := by
    decide +kernel
  obtain ⟨state, reached, cities⟩ := map_eq_some_iff.mp standing
  exact ⟨⟨state, reached, cities⟩, (settled_along_iff reached).mpr (by decide +kernel)⟩

end MemoryService.Memory.Replacement
