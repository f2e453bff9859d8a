import MemoryService.Feedback.RowWrites

/-!
# When a reversed vote is undone

A vote is undone when, after it is projected and reversed, every memory is as it was, its
bookkeeping aside.
-/

namespace MemoryService.Feedback.Votes

open Domain Foundation Memory List Statements

/-- Projected and then reversed, the vote leaves the memories as they were. -/
def Undone (now later : Instant) (tenantId : String) (store : Store) (vote : Vote) : Prop :=
  let projected := project now tenantId store vote
  (reverse later tenantId projected.2 projected.1 vote).rows.map core = store.rows.map core

/-- The step that a reinforcement adds is not cut off, and is the step that taking it back
removes, in doubles. -/
def TakenBack (confidence : Rat) : Prop :=
  confidenceFloor ≤ confidence ∧ Binary64.add confidence reinforcementStep ≤ 1 ∧
    Binary64.sub (Binary64.add confidence reinforcementStep) reinforcementStep = confidence
deriving Decidable

theorem takenBack_iff (confidence : Rat) :
    max confidenceFloor
        (Binary64.sub (min 1 (Binary64.add confidence reinforcementStep))
          reinforcementStep) = confidence ↔
      TakenBack confidence := by
  have belowTop : Binary64.add (Binary64.sub 1 reinforcementStep) reinforcementStep ≤ 1 := by
    decide +kernel
  have aboveFloor : confidenceFloor ≤ Binary64.sub 1 reinforcementStep := by decide +kernel
  have offFloor : ¬Binary64.sub (Binary64.add confidenceFloor reinforcementStep)
      reinforcementStep ≤ confidenceFloor := by
    decide +kernel
  rw [TakenBack]
  by_cases below : Binary64.add confidence reinforcementStep ≤ 1
  · rw [min_eq_right below]
    constructor
    · intro same
      have floor : confidenceFloor ≤ confidence := by
        rw [← same]
        exact le_max_left _ _
      refine ⟨floor, below, ?_⟩
      rcases le_total confidenceFloor (Binary64.sub (Binary64.add confidence
        reinforcementStep) reinforcementStep) with above | under
      · rwa [max_eq_right above] at same
      · rw [max_eq_left under] at same
        rw [← same] at under
        exact absurd under offFloor
    · intro holds
      obtain ⟨floor, -, same⟩ := holds
      rw [same, max_eq_right floor]
  · rw [min_eq_left (le_of_not_ge below), max_eq_right aboveFloor]
    constructor
    · intro same
      rw [← same] at below
      exact absurd belowTop below
    · intro holds
      exact absurd holds.2.1 below

/-- What `_adjust` cuts a confidence off to. -/
def clamp (confidence : Rat) : Rat := min 1 (max confidenceFloor confidence)

variable {confidence : Rat} {written m r : CanonicalMemory}

theorem clamp_of_mem (floor : confidenceFloor ≤ confidence)
    (top : confidence ≤ 1) : clamp confidence = confidence := by
  rw [clamp, max_eq_right floor, min_eq_right top]

theorem clamp_of_lt (under : confidence ≤ confidenceFloor) :
    clamp confidence = confidenceFloor := by
  have small : confidenceFloor ≤ 1 := by decide +kernel
  rw [clamp, max_eq_left under, min_eq_right small]

theorem clamp_of_gt (over_ : 1 ≤ confidence) : clamp confidence = 1 := by
  have small : confidenceFloor ≤ 1 := by decide +kernel
  rw [clamp, max_eq_right (small.trans over_), min_eq_left over_]

/-- Moving a confidence by a step and by its opposite is not cut off and leaves it, in
doubles. -/
def Rebounds (step confidence : Rat) : Prop :=
  (confidenceFloor ≤ confidence ∧ confidence ≤ 1) ∧
    (confidenceFloor ≤ Binary64.add confidence step ∧ Binary64.add confidence step ≤ 1) ∧
      Binary64.add (Binary64.add confidence step) (-step) = confidence
deriving Decidable

/-- At its ends the range is not left and reached again. -/
structure Regular (step : Rat) : Prop where
  top : Binary64.add (clamp (Binary64.add 1 (-step))) step ≤ 1
  bottom : confidenceFloor ≤ Binary64.add (clamp (Binary64.add confidenceFloor (-step))) step
  fromTop : Binary64.add 1 step ≤ 1 → Binary64.add (Binary64.add 1 step) (-step) ≤ 1
  fromBottom : confidenceFloor ≤ Binary64.add confidenceFloor step →
    confidenceFloor ≤ Binary64.add (Binary64.add confidenceFloor step) (-step)

theorem regular_up : Regular citedConfidenceStep where
  top := by decide +kernel
  bottom := by decide +kernel
  fromTop := by decide +kernel
  fromBottom := by decide +kernel

theorem regular_down : Regular (-citedConfidenceStep) where
  top := by decide +kernel
  bottom := by decide +kernel
  fromTop := by decide +kernel
  fromBottom := by decide +kernel

theorem rebounds_iff {step : Rat} (regular : Regular step) (confidence : Rat) :
    clamp (Binary64.add (clamp (Binary64.add confidence step)) (-step)) = confidence ↔
      Rebounds step confidence := by
  rw [Rebounds]
  by_cases inRange :
      confidenceFloor ≤ Binary64.add confidence step ∧ Binary64.add confidence step ≤ 1
  · rw [clamp_of_mem inRange.1 inRange.2]
    constructor
    · intro same
      rcases le_total (Binary64.add (Binary64.add confidence step) (-step)) confidenceFloor
        with under | above
      · -- at the floor the way back ends at the floor or above it
        rw [clamp_of_lt under] at same
        subst same
        have isFloor := regular.fromBottom inRange.1
        exact ⟨⟨le_refl _, by decide +kernel⟩, inRange, le_antisymm under isFloor⟩
      · rcases le_total (Binary64.add (Binary64.add confidence step) (-step)) 1 with below | beyond
        · rw [clamp_of_mem above below] at same
          rw [same] at above below
          exact ⟨⟨above, below⟩, inRange, same⟩
        · rw [clamp_of_gt beyond] at same
          subst same
          have isTop := regular.fromTop inRange.2
          exact ⟨⟨by decide +kernel, le_refl _⟩, inRange, le_antisymm isTop beyond⟩
    · intro holds
      rw [holds.2.2, clamp_of_mem holds.1.1 holds.1.2]
  · constructor
    · intro same
      apply absurd _ inRange
      rcases le_total (Binary64.add confidence step) confidenceFloor with under | above
      · rw [clamp_of_lt under] at same
        have bottom := regular.bottom
        rw [same] at bottom
        exact ⟨bottom, under.trans (by decide +kernel)⟩
      · rcases le_total (Binary64.add confidence step) 1 with below | beyond
        · exact ⟨above, below⟩
        · rw [clamp_of_gt beyond] at same
          have top := regular.top
          rw [same] at top
          exact ⟨above, top⟩
    · intro holds
      exact absurd holds.2.1 inRange

def Store.cited (now : Instant) (tenantId : String) (refs : List String) (store : Store) :
    List CanonicalMemory :=
  (citedMemoryIds refs).filterMap fun memoryId => store.current now tenantId memoryId

def backOrder (later : Instant) (cited : List CanonicalMemory) : List String :=
  ((cited.map CanonicalMemory.memoryId).insertionSort (· ≤ ·)).filter fun memoryId =>
    cited.any fun m => m.memoryId = memoryId ∧ lasts later m

def Reversible (now later : Instant) (tenantId : String) (store : Store) : Vote → Prop
  | .affirm memoryId => ∀ m ∈ store.current now tenantId memoryId,
      lasts later m = true ∧ TakenBack m.confidence ∧ Spared store tenantId [m.memoryId]
  | .reject memoryId => ∀ m ∈ store.current now tenantId memoryId,
      let wrong := m :: twins m.tenantId m true store.rows
      isDerived m = false ∧
        (∀ t ∈ wrong, t.temporal.validTo = none) ∧
        (∀ r ∈ store.rows, Replacement.isReinstated tenantId
          (wrong.map CanonicalMemory.memoryId) r = false) ∧
        (∀ t ∈ twins m.tenantId m false store.rows,
          ¬(t.temporal.status = .retracted ∧ t.temporal.validTo = some now)) ∧
        Spared store tenantId (wrong.map CanonicalMemory.memoryId)
  | .correct _ => True
  | .run affirmed refs teaches => teaches = true →
      let step := if affirmed then citedConfidenceStep else -citedConfidenceStep
      let cited := store.cited now tenantId refs
      Spared store tenantId (cited.map CanonicalMemory.memoryId) ∧
        Spared store tenantId (backOrder later cited) ∧
        ∀ m ∈ cited,
          if lasts later m then Rebounds step m.confidence
          else affirmed = false ∧ clamp (Binary64.add m.confidence step) = m.confidence

instance (now later : Instant) (tenantId : String) (store : Store) (vote) :
    Decidable (Reversible now later tenantId store vote) := by
  unfold Reversible
  split <;> infer_instance

/-- What a phase makes of a memory: nothing that a read of it looks at is changed. -/
structure Change where
  apply : CanonicalMemory → CanonicalMemory
  keeps : ∀ m, Keeps (apply m) m
  temporal : ∀ m, (apply m).temporal = m.temporal
  systemMetadata : ∀ m, (apply m).systemMetadata = m.systemMetadata

/-- A list of ids is read, and the memories that are found are written. -/
structure Phase where
  store : Store
  tenantId : String
  now : Instant
  ids : List String
  change : Change
  unique : (store.rows.map CanonicalMemory.memoryId).Nodup
  distinct : ids.Nodup

namespace Phase

variable (p : Phase)

def found : List CanonicalMemory :=
  p.ids.filterMap fun memoryId => p.store.current p.now p.tenantId memoryId

def foundIds : List String := p.found.map CanonicalMemory.memoryId

def writes : List CanonicalMemory := p.found.map p.change.apply

def row (r : CanonicalMemory) : CanonicalMemory := writeRows p.now p.store p.writes r

def after : Store := p.store.updateAll p.now p.writes

def Spares : Prop := Spared p.store p.tenantId p.foundIds

theorem foundIds_eq :
    p.foundIds =
      p.ids.filter fun memoryId => (p.store.current p.now p.tenantId memoryId).isSome := by
  rw [foundIds, found]
  induction p.ids with
  | nil => rfl
  | cons first rest ih =>
    rw [filterMap_cons, filter_cons]
    cases isFound : p.store.current p.now p.tenantId first with
    | none =>
      rw [Option.isSome_none, if_neg Bool.false_ne_true]
      exact ih
    | some m =>
      rw [Option.isSome_some, if_pos rfl, map_cons, ((current_eq_some p.unique).mp isFound).2.1]
      congr 1

theorem foundIds_nodup : p.foundIds.Nodup := by
  rw [foundIds_eq]
  exact p.distinct.filter _

variable {p} {m r : CanonicalMemory} {later : Instant} {back : Change}

theorem mem_found :
    m ∈ p.found ↔
      m ∈ p.store.rows ∧ m.memoryId ∈ p.ids ∧ m.tenantId = p.tenantId ∧ m.deletedAt = none ∧
        m.temporal.status = .current ∧ lasts p.now m = true := by
  rw [found, mem_filterMap]
  constructor
  · intro isFound
    obtain ⟨memoryId, isId, isFound⟩ := isFound
    obtain ⟨stored, isNamed, rest⟩ := (current_eq_some p.unique).mp isFound
    rw [← isNamed] at isId
    exact ⟨stored, isId, rest⟩
  · intro holds
    obtain ⟨stored, isId, rest⟩ := holds
    exact ⟨m.memoryId, isId, (current_eq_some p.unique).mpr ⟨stored, rfl, rest⟩⟩

theorem found_of_id (stored : r ∈ p.store.rows) (isId : r.memoryId ∈ p.foundIds) :
    r ∈ p.found := by
  obtain ⟨other, isFound, sameId⟩ := mem_map.mp isId
  have same : other = r := inj_on_of_nodup_map p.unique (mem_found.mp isFound).1 stored sameId
  rw [← same]
  exact isFound

theorem writes_ids : p.writes.map CanonicalMemory.memoryId = p.foundIds := by
  rw [writes, foundIds, map_map]
  exact map_congr_left fun m _ => (p.change.keeps m).memoryId

theorem writes_tenant : ∀ x ∈ p.writes, x.tenantId = p.tenantId := by
  intro x member
  obtain ⟨m, isFound, rfl⟩ := mem_map.mp member
  exact (p.change.keeps m).tenantId.trans (mem_found.mp isFound).2.2.1

theorem row_own (spared : p.Spares) (member : m ∈ p.found) :
    core (p.row m) = core (p.change.apply m) := by
  obtain ⟨stored, -, sameTenant, -, isCurrent, -⟩ := mem_found.mp member
  apply phase_own writes_tenant _ (mem_map_of_mem member) (p.change.keeps m)
  · rw [writes_ids]
    exact spared m stored sameTenant (by rw [isCurrent]; decide)
  · rw [writes_ids]
    exact p.foundIds_nodup

theorem row_other (spared : SparedRow p.store p.tenantId p.foundIds r)
    (isOther : r.memoryId ∉ p.foundIds) : p.row r = r := by
  apply phase_other writes_tenant
  · rw [writes_ids]
    exact spared
  · rw [writes_ids]
    exact isOther

theorem row_unspared (sameTenant : r.tenantId = p.tenantId) {source : String}
    (isSource : source ∈ p.foundIds) (isDerived : r.memoryId ∈ p.store.derived p.tenantId source)
    (notAfter : ¬After p.foundIds source r.memoryId) :
    (p.row r).temporal.status = .retracted := by
  rw [← writes_ids] at isSource notAfter
  apply phase_unspared writes_tenant _ sameTenant isSource isDerived notAfter
  rw [writes_ids]
  exact p.foundIds_nodup

theorem row_id (r : CanonicalMemory) :
    (p.row r).memoryId = r.memoryId ∧ (p.row r).tenantId = r.tenantId :=
  writeRows_id _ r

theorem after_rows : p.after.rows = p.store.rows.map p.row := (updateAll_rows _ _ _).1

theorem after_derived : p.after.derived = p.store.derived := derived_updateAll _ _ _

theorem row_fields (spared : p.Spares) (stored : r ∈ p.store.rows) :
    (p.row r).temporal = r.temporal ∧ (p.row r).systemMetadata = r.systemMetadata ∧
      (p.row r).deletedAt = r.deletedAt := by
  by_cases isId : r.memoryId ∈ p.foundIds
  · obtain ⟨temporal, metadata, -, -, deleted⟩ :=
      fields_of_core (row_own spared (found_of_id stored isId))
    exact ⟨temporal.trans (p.change.temporal r), metadata.trans (p.change.systemMetadata r),
      deleted.trans (p.change.keeps r).deletedAt⟩
  · rw [row_other (spared r stored) isId]
    exact ⟨rfl, rfl, rfl⟩

variable (p later back) in
/-- What was found is read again later, in the order of its ids. -/
def again : Phase where
  store := p.after
  tenantId := p.tenantId
  now := later
  ids := p.foundIds.insertionSort (· ≤ ·)
  change := back
  unique := updateAll_unique p.unique
  distinct := (perm_insertionSort _ _).nodup_iff.mpr p.foundIds_nodup

theorem mem_found_again (spared : p.Spares) {x : CanonicalMemory} :
    x ∈ (p.again later back).found ↔ ∃ r ∈ p.found, lasts later r = true ∧ x = p.row r := by
  rw [mem_found]
  simp only [again, after_rows, mem_map, mem_insertionSort]
  constructor
  · intro isAgain
    obtain ⟨⟨r, stored, rfl⟩, isId, -, -, -, lasting⟩ := isAgain
    rw [(row_id r).1] at isId
    rw [lasts_congr (row_fields spared stored).2.1] at lasting
    exact ⟨r, found_of_id stored isId, lasting, rfl⟩
  · intro isAgain
    obtain ⟨r, isFound, lasting, rfl⟩ := isAgain
    obtain ⟨stored, -, sameTenant, standing, isCurrent, -⟩ := mem_found.mp isFound
    obtain ⟨temporal, metadata, deleted⟩ := row_fields spared stored
    obtain ⟨keptId, keptTenant⟩ := @row_id p r
    refine ⟨⟨r, stored, rfl⟩, ?_, keptTenant.trans sameTenant, deleted.trans standing, ?_, ?_⟩
    · rw [keptId]
      exact mem_map_of_mem isFound
    · rw [temporal]
      exact isCurrent
    · rw [lasts_congr metadata]
      exact lasting

theorem again_ids (spared : p.Spares) :
    (p.again later back).foundIds = backOrder later p.found := by
  rw [foundIds_eq, backOrder]
  apply filter_congr
  intro memoryId isId
  rw [Bool.eq_iff_iff, Option.isSome_iff_exists, any_eq_true]
  constructor
  · intro isAgain
    obtain ⟨x, isFound⟩ := isAgain
    have member : x ∈ (p.again later back).found := mem_filterMap.mpr ⟨memoryId, isId, isFound⟩
    obtain ⟨r, isMine, lasting, rfl⟩ := (mem_found_again spared).mp member
    have isNamed := ((current_eq_some (p.again later back).unique).mp isFound).2.1
    rw [(row_id r).1] at isNamed
    exact ⟨r, isMine, by simp [isNamed, lasting]⟩
  · intro holds
    obtain ⟨r, isMine, holds⟩ := holds
    simp only [Bool.decide_and, Bool.decide_eq_true, Bool.and_eq_true, decide_eq_true_eq] at holds
    obtain ⟨isNamed, lasting⟩ := holds
    have member : p.row r ∈ (p.again later back).found :=
      (mem_found_again spared).mpr ⟨r, isMine, lasting, rfl⟩
    obtain ⟨stored, -, rest⟩ := mem_found.mp member
    refine ⟨p.row r, ?_⟩
    rw [current_eq_some (p.again later back).unique]
    exact ⟨stored, by rw [(row_id r).1, isNamed], rest⟩

theorem again_row_iff :
    (p.again later back).after.rows.map core = p.store.rows.map core ↔
      ∀ r ∈ p.store.rows, core ((p.again later back).row (p.row r)) = core r := by
  rw [after_rows]
  simp only [again, after_rows, map_map, map_inj_left, Function.comp_apply]

theorem spares_of_undone
    (undone : ∀ r ∈ p.store.rows, core ((p.again later back).row (p.row r)) = core r) :
    p.Spares := by
  by_contra notSpared
  obtain ⟨r, stored, sameTenant, standing, source, isSource, isDerived, notAfter⟩ :=
    exists_unspared notSpared
  have isRetracted := row_unspared sameTenant isSource isDerived notAfter
  have temporal := (fields_of_core (undone r stored)).1
  rw [row, writeRows_retracted isRetracted] at temporal
  · rw [temporal] at isRetracted
    exact standing isRetracted
  · -- what is retracted is not found again
    intro m member sameId
    obtain ⟨x, isFound, rfl⟩ := mem_map.mp member
    obtain ⟨isRow, -, -, -, isCurrent, -⟩ := mem_found.mp isFound
    have isMoved : p.row r ∈ (p.again later back).store.rows := by
      rw [again, after_rows]
      exact mem_map_of_mem stored
    have same := inj_on_of_nodup_map (p.again later back).unique isRow isMoved
      (((back.keeps x).memoryId.symm.trans sameId.symm))
    rw [← same, isCurrent] at isRetracted
    cases isRetracted

theorem spares_again_of_undone (spared : p.Spares)
    (undone : ∀ r ∈ p.store.rows, core ((p.again later back).row (p.row r)) = core r) :
    Spared p.store p.tenantId (backOrder later p.found) := by
  by_contra notSpared
  obtain ⟨r, stored, sameTenant, standing, source, isSource, isDerived, notAfter⟩ :=
    exists_unspared notSpared
  obtain ⟨keptId, keptTenant⟩ := @row_id p r
  rw [← @again_ids p later back spared] at isSource notAfter
  rw [← keptId] at isDerived notAfter
  rw [← after_derived] at isDerived
  have isRetracted := @row_unspared (p.again later back) _ (keptTenant.trans sameTenant) _
    isSource isDerived notAfter
  rw [(fields_of_core (undone r stored)).1] at isRetracted
  exact standing isRetracted

theorem again_spares (spared : p.Spares)
    (sparedBack : Spared p.store p.tenantId (backOrder later p.found)) :
    (p.again later back).Spares := by
  rw [Spares, again_ids spared, Spared, again, after_rows]
  intro x member
  obtain ⟨r, stored, rfl⟩ := mem_map.mp member
  have kept := sparedBack r stored
  rw [SparedRow] at kept ⊢
  rw [(row_id r).1, (row_id r).2, (row_fields spared stored).1, after_derived]
  exact kept

theorem lasts_of_again (member : m ∈ p.found) (isBack : m.memoryId ∈ backOrder later p.found) :
    lasts later m = true := by
  obtain ⟨-, isLasting⟩ := mem_filter.mp isBack
  obtain ⟨other, isOther, same⟩ := any_eq_true.mp isLasting
  simp only [Bool.decide_and, Bool.decide_eq_true, Bool.and_eq_true, decide_eq_true_eq] at same
  rw [← inj_on_of_nodup_map p.unique (mem_found.mp isOther).1 (mem_found.mp member).1 same.1]
  exact same.2

/-- What was written is written back where it lasts, and is left as written where it does not. -/
theorem returned_iff {returns stays : CanonicalMemory → Prop}
    (back_iff : ∀ m written, core written = core (p.change.apply m) →
      (core (back.apply written) = core m ↔ returns m))
    (left_iff : ∀ m, core (p.change.apply m) = core m ↔ stays m) :
    (p.again later back).after.rows.map core = p.store.rows.map core ↔
      p.Spares ∧ Spared p.store p.tenantId (backOrder later p.found) ∧
        ∀ m ∈ p.found, if lasts later m then returns m else stays m := by
  rw [again_row_iff]
  by_cases spared : p.Spares
  case neg =>
    exact iff_of_false (fun undone => spared (spares_of_undone undone)) fun h => spared h.1
  by_cases sparedBack : Spared p.store p.tenantId (backOrder later p.found)
  case neg =>
    exact iff_of_false (fun undone => sparedBack (spares_again_of_undone spared undone))
      fun h => sparedBack h.2.1
  have sparedAgain : (p.again later back).Spares := again_spares spared sparedBack
  have isMoved : ∀ r ∈ p.store.rows, p.row r ∈ (p.again later back).store.rows := by
    intro r stored
    rw [again, after_rows]
    exact mem_map_of_mem stored
  have mine : ∀ m ∈ p.found, (core ((p.again later back).row (p.row m)) = core m ↔
      if lasts later m then returns m else stays m) := by
    intro m isFound
    have own := row_own spared isFound
    by_cases lasting : lasts later m = true
    · rw [if_pos lasting, row_own sparedAgain ((mem_found_again spared).mpr
        ⟨m, isFound, lasting, rfl⟩)]
      exact back_iff m (p.row m) own
    · rw [if_neg lasting, row_other (sparedAgain _ (isMoved m (mem_found.mp isFound).1)), own]
      · exact left_iff m
      · rw [again_ids spared, (row_id m).1]
        exact fun isBack => lasting (lasts_of_again isFound isBack)
  constructor
  · intro undone
    exact ⟨spared, sparedBack, fun m isFound => (mine m isFound).mp
      (undone m (mem_found.mp isFound).1)⟩
  · intro condition r stored
    by_cases isId : r.memoryId ∈ p.foundIds
    · have isFound := found_of_id stored isId
      exact (mine r isFound).mpr (condition.2.2 r isFound)
    · rw [row_other (sparedAgain _ (isMoved r stored)), row_other (spared r stored) isId]
      rw [again_ids spared, (row_id r).1]
      exact fun isBack => isId ((mem_insertionSort _).mp (mem_filter.mp isBack).1)

end Phase

section Affirm

variable {now later : Instant} {tenantId memoryId : String} {store : Store}

def reinforcing (now : Instant) : Change where
  apply := reinforced now
  keeps _ := ⟨rfl, rfl, rfl, rfl, rfl, rfl, rfl⟩
  temporal _ := rfl
  systemMetadata _ := rfl

def unreinforcing (later : Instant) : Change where
  apply := unreinforced later
  keeps _ := ⟨rfl, rfl, rfl, rfl, rfl, rfl, rfl⟩
  temporal _ := rfl
  systemMetadata _ := rfl

theorem reverse_eq (store : Store) :
    reverseMemory later tenantId memoryId .memoryReinforced store =
      store.updateAll later (([memoryId].filterMap fun memoryId =>
        store.current later tenantId memoryId).map (unreinforced later)) := by
  rw [filterMap_cons, filterMap_nil, Store.current]
  unfold reverseMemory
  cases Statements.get later tenantId memoryId store.rows with
  | none => rfl
  | some written =>
    by_cases isCurrent : written.temporal.status = .current
    · simp [Option.filter, isCurrent, Store.updateAll]
    · simp [Option.filter, isCurrent, Store.updateAll]

theorem core_unreinforced (later : Instant) (m : CanonicalMemory) :
    core (unreinforced later m) = core (unreinforced later (core m)) := rfl

theorem core_taken_back_iff (now later : Instant) (same : core written = core (reinforced now m)) :
    core (unreinforced later written) = core m ↔ TakenBack m.confidence := by
  rw [core_unreinforced, same, ← takenBack_iff]
  constructor
  · intro undone
    exact (fields_of_core undone).2.2.1
  · intro confidence
    have taken : core (unreinforced later (core (reinforced now m))) =
        core { m with
          confidence :=
            max confidenceFloor
              (Binary64.sub (min 1 (Binary64.add m.confidence reinforcementStep))
                reinforcementStep) } := rfl
    rw [taken, confidence]

theorem core_reinforced_ne (now : Instant) (m : CanonicalMemory) :
    core (reinforced now m) ≠ core m := by
  intro same
  have sameCount := (fields_of_core same).2.2.2.1
  rw [reinforced] at sameCount
  simp at sameCount

theorem affirm_undone_iff (unique : (store.rows.map CanonicalMemory.memoryId).Nodup)
    (memoryId : String) :
    Undone now later tenantId store (.affirm memoryId) ↔
      Reversible now later tenantId store (.affirm memoryId) := by
  rw [Undone, Reversible, project, reverse]
  cases found : store.current now tenantId memoryId with
  | none => simp [reverseMemory]
  | some m =>
    obtain ⟨-, isNamed, -⟩ := (current_eq_some unique).mp found
    let p : Phase := ⟨store, tenantId, now, [memoryId], reinforcing now, unique, nodup_singleton _⟩
    have isFound : p.found = [m] := by simp [Phase.found, p, found]
    have isOne : p.foundIds = [memoryId] := by rw [Phase.foundIds, isFound, map_singleton, isNamed]
    have isAfter : store.update now (reinforced now m) = p.after := by
      rw [Phase.after, Phase.writes, isFound]
      rfl
    have isAgain : reverseMemory later tenantId memoryId .memoryReinforced p.after =
        (p.again later (unreinforcing later)).after := by
      rw [reverse_eq, Phase.after.eq_def (p.again _ _), Phase.writes, Phase.found]
      simp only [Phase.again, isOne]
      rfl
    have undone := @Phase.returned_iff p later (unreinforcing later)
      (fun m => TakenBack m.confidence) (fun _ => False)
      (fun m written => core_taken_back_iff now later)
      (fun m => iff_false_intro (core_reinforced_ne now m))
    dsimp only
    rw [isAfter, isAgain]
    refine undone.trans ?_
    rw [Phase.Spares, isOne, isFound]
    simp only [Option.mem_def, Option.some.injEq, forall_eq', forall_mem_singleton, isNamed]
    by_cases lasting : lasts later m = true
    · have isBack : backOrder later [m] = [memoryId] := by simp [backOrder, isNamed, lasting]
      rw [isBack, if_pos lasting]
      exact ⟨fun holds => ⟨lasting, holds.2.2, holds.1⟩,
        fun holds => ⟨holds.2.2, holds.2.2, holds.2.1⟩⟩
    · rw [if_neg lasting]
      exact iff_of_false (fun holds => holds.2.2) fun holds => lasting holds.1

end Affirm

section Run

variable {now later : Instant} {tenantId : String} {store : Store} {step : Rat}
  {reinforce : Int}

def adjusting (step : Rat) (reinforce : Int) (now : Instant) : Change where
  apply := adjusted step reinforce now
  keeps _ := ⟨rfl, rfl, rfl, rfl, rfl, rfl, rfl⟩
  temporal _ := rfl
  systemMetadata _ := rfl

theorem core_adjusted_iff (now : Instant) (natural : 0 ≤ reinforce) (m : CanonicalMemory) :
    core (adjusted step reinforce now m) = core m ↔
      reinforce = 0 ∧ clamp (Binary64.add m.confidence step) = m.confidence := by
  constructor
  · intro same
    obtain ⟨-, -, confidence, count, -⟩ := fields_of_core same
    have counted : (m.reinforcementCount + reinforce).toNat = m.reinforcementCount := count
    refine ⟨?_, confidence⟩
    omega
  · intro same
    obtain ⟨zero, confidence⟩ := same
    have taken : core (adjusted step reinforce now m) =
        core { m with
          confidence := clamp (Binary64.add m.confidence step)
          reinforcementCount := (m.reinforcementCount + reinforce).toNat } := rfl
    have count : (m.reinforcementCount + reinforce).toNat = m.reinforcementCount := by omega
    rw [taken, confidence, count]

theorem core_adjusted_back_iff (now later : Instant) (regular : Regular step)
    (natural : 0 ≤ reinforce)
    (same : core written = core (adjusted step reinforce now m)) :
    core (adjusted (-step) (-reinforce) later written) = core m ↔ Rebounds step m.confidence := by
  have onCore : core (adjusted (-step) (-reinforce) later written) =
      core (adjusted (-step) (-reinforce) later (core written)) := rfl
  rw [onCore, same, ← rebounds_iff regular]
  constructor
  · intro undone
    exact (fields_of_core undone).2.2.1
  · intro confidence
    have taken : core (adjusted (-step) (-reinforce) later (core (adjusted step reinforce now m))) =
        core { m with
          confidence := clamp (Binary64.add (clamp (Binary64.add m.confidence step)) (-step))
          reinforcementCount :=
            (((m.reinforcementCount + reinforce).toNat : Int) + -reinforce).toNat } := rfl
    have count : (((m.reinforcementCount + reinforce).toNat : Int) + -reinforce).toNat =
        m.reinforcementCount := by
      omega
    rw [taken, confidence, count]

theorem citedMemoryIds_nodup (refs : List String) : (citedMemoryIds refs).Nodup :=
  (nodup_eraseDups refs).sublist (take_sublist _ _)

section

variable (unique : (store.rows.map CanonicalMemory.memoryId).Nodup)
include unique

theorem moved_back_undone_iff
    (refs : List String) (regular : Regular step) (natural : 0 ≤ reinforce) :
    let done := adjust now tenantId (citedMemoryIds refs) step reinforce store
    let cited := store.cited now tenantId refs
    (adjust later tenantId done.2 (-step) (-reinforce) done.1).1.rows.map core =
        store.rows.map core ↔
      Spared store tenantId (cited.map CanonicalMemory.memoryId) ∧
        Spared store tenantId (backOrder later cited) ∧
        ∀ m ∈ cited,
          if lasts later m then Rebounds step m.confidence
          else reinforce = 0 ∧ clamp (Binary64.add m.confidence step) = m.confidence :=
  @Phase.returned_iff
    ⟨store, tenantId, now, citedMemoryIds refs, adjusting step reinforce now, unique,
      citedMemoryIds_nodup refs⟩
    later (adjusting (-step) (-reinforce) later) (fun m => Rebounds step m.confidence)
    (fun m => reinforce = 0 ∧ clamp (Binary64.add m.confidence step) = m.confidence)
    (fun _ _ => core_adjusted_back_iff now later regular natural)
    (core_adjusted_iff now natural)

theorem run_undone_iff
    (affirmed : Bool) (refs : List String) (teaches : Bool) :
    Undone now later tenantId store (.run affirmed refs teaches) ↔
      Reversible now later tenantId store (.run affirmed refs teaches) := by
  cases teaches with
  | false => simp [Undone, Reversible, project, reverse]
  | true =>
    cases affirmed with
    | true =>
      have isUndone := @moved_back_undone_iff now later tenantId store
        citedConfidenceStep 1 unique refs regular_up (by decide)
      refine Iff.trans ?_ (isUndone.trans ?_)
      · rfl
      · simp [Reversible]
    | false =>
      have isUndone := @moved_back_undone_iff now later tenantId store
        (-citedConfidenceStep) 0 unique refs regular_down (by decide)
      rw [neg_neg, neg_zero] at isUndone
      refine Iff.trans ?_ (isUndone.trans ?_)
      · rfl
      · simp [Reversible]

end

end Run

end MemoryService.Feedback.Votes
