import MemoryService.Tools.Procedures

/-!
# The best sequence and the order of the runs

The order in which the paths are met depends on that of the runs, and of two paths that no rule
tells apart the first met is the best.
-/

namespace MemoryService.Tools

open Domain Foundation List

section FirstGreatest

variable {α : Type} {less : α → α → Bool}

theorem firstGreatest_mem {items : List α} {greatest : α}
    (isGreatest : firstGreatest less items = some greatest) : greatest ∈ items := by
  cases items with
  | nil => cases isGreatest
  | cons first rest =>
    rw [firstGreatest, Option.some.injEq] at isGreatest
    rw [← isGreatest]
    apply List.foldlRecOn
    · exact mem_cons_self
    · intro best isBest next isNext
      split
      · exact mem_cons_of_mem first isNext
      · exact isBest

theorem firstGreatest_greatest (irrefl : ∀ a, less a a = false)
    (trans : ∀ a b c, less a b → less b c → less a c) {items : List α} {greatest : α}
    (isGreatest : firstGreatest less items = some greatest) :
    ∀ item ∈ items, less greatest item = false := by
  induction items using List.reverseRecOn generalizing greatest with
  | nil => cases isGreatest
  | append_singleton items last ih =>
    cases items with
    | nil =>
      cases isGreatest
      simp [irrefl]
    | cons first rest =>
      rw [cons_append, firstGreatest, foldl_append, Option.some.injEq] at isGreatest
      have before := ih rfl
      simp only [foldl_cons, foldl_nil] at isGreatest
      intro item member
      by_contra isLess
      rw [Bool.not_eq_false] at isLess
      split at isGreatest
      case isTrue grew =>
        rw [← isGreatest] at isLess
        rcases mem_append.mp member with isEarlier | isLast
        · have isLess := trans _ _ _ grew isLess
          rw [before item isEarlier] at isLess
          cases isLess
        · rw [mem_singleton.mp isLast, irrefl] at isLess
          cases isLess
      case isFalse stayed =>
        rw [← isGreatest] at isLess
        rcases mem_concat.mp member with isEarlier | rfl
        · rw [before item isEarlier] at isLess
          cases isLess
        · exact stayed isLess

theorem firstGreatest_append {before after : List α} {greatest : α}
    (isMore : ∀ item ∈ before, less item greatest = true)
    (isMost : ∀ item ∈ after, less greatest item = false) :
    firstGreatest less (before ++ greatest :: after) = some greatest := by
  have stays : after.foldl (fun best next => if less best next then next else best) greatest =
      greatest := by
    induction after with
    | nil => rfl
    | cons next rest ih =>
      have notMore : ¬less greatest next = true := by simp [isMost next mem_cons_self]
      rw [foldl_cons, if_neg notMore]
      exact ih fun item isLater => isMost item (mem_cons_of_mem next isLater)
  cases before with
  | nil => rw [nil_append, firstGreatest, stays]
  | cons first rest =>
    rw [cons_append, firstGreatest, foldl_append, foldl_cons]
    have isLess : less (rest.foldl (fun best next => if less best next then next else best) first)
        greatest = true := isMore _ (firstGreatest_mem rfl)
    rw [if_pos isLess, stays]

end FirstGreatest

theorem lessLong_irrefl (counted : List String × ℕ) : lessLong counted counted = false := by
  simp [lessLong]

variable (first second third : List String × ℕ)

theorem lessLong_trans (less : lessLong first second)
    (isLess : lessLong second third) : lessLong first third := by
  simp only [lessLong, decide_eq_true_eq] at less isLess ⊢
  rcases less with shorter | ⟨sameLength, fewer | ⟨sameCount, later⟩⟩
  · rcases isLess with shorter' | ⟨sameLength', -⟩ <;> left <;> omega
  · rcases isLess with shorter' | ⟨sameLength', fewer' | ⟨sameCount', -⟩⟩
    · left
      omega
    · exact .inr ⟨by omega, .inl (by omega)⟩
    · exact .inr ⟨by omega, .inl (by omega)⟩
  · rcases isLess with shorter' | ⟨sameLength', fewer' | ⟨sameCount', later'⟩⟩
    · left
      omega
    · exact .inr ⟨by omega, .inl (by omega)⟩
    · exact .inr ⟨by omega, .inr ⟨by omega, lt_trans later later'⟩⟩

theorem lessSupported_irrefl (counted : List String × ℕ) :
    lessSupported counted counted = false := by
  simp [lessSupported]

theorem lessSupported_trans
    (less : lessSupported first second) (isLess : lessSupported second third) :
    lessSupported first third := by
  simp only [lessSupported, decide_eq_true_eq] at less isLess ⊢
  omega

variable (trajectories : List Trajectory)

/-- The runs that a path must have. -/
def required : ℕ := max 2 ((trajectories.length + 1) / 2)

def qualifying : List (List String × ℕ) :=
  (pathCounts (trajectories.map Trajectory.path)).filter fun (_, n) => required trajectories ≤ n

/-- Of the paths that enough runs are on no other is longer, or as long with more runs, or with
as many and a first tool that comes before; or where there are none, no other path has more runs,
or as many and is longer. -/
def Top (path : List String) : Prop :=
  if qualifying trajectories = [] then
    ∃ counted ∈ pathCounts (trajectories.map Trajectory.path), counted.1 = path ∧
      ∀ other ∈ pathCounts (trajectories.map Trajectory.path), lessSupported counted other = false
  else
    ∃ counted ∈ qualifying trajectories, counted.1 = path ∧
      ∀ other ∈ qualifying trajectories, lessLong counted other = false

variable {paths : List (List String)} {counted : List String × ℕ} {path : List String}

theorem mem_pathCounts :
    counted ∈ pathCounts paths ↔
      (∃ other ∈ paths, counted.1 ∈ pathPrefixes other) ∧
        counted.2 = paths.countP fun other => counted.1 ∈ pathPrefixes other := by
  rw [pathCounts, mem_map]
  constructor
  · rintro ⟨path, isPath, rfl⟩
    exact ⟨mem_flatMap.mp (mem_eraseDups.mp isPath), rfl⟩
  · rintro ⟨isPath, sameCount⟩
    exact ⟨counted.1, mem_eraseDups.mpr (mem_flatMap.mpr isPath), Prod.ext rfl sameCount.symm⟩

theorem mem_pathPrefixes {other : List String} :
    path ∈ pathPrefixes other ↔ path ≠ [] ∧ path <+: other := by
  rw [pathPrefixes, mem_map]
  constructor
  · rintro ⟨length, isLess, rfl⟩
    refine ⟨fun isNil => ?_, take_prefix _ _⟩
    have isLess := mem_range.mp isLess
    rw [take_eq_nil_iff] at isNil
    rcases isNil with isZero | isEmpty
    · cases isZero
    · rw [isEmpty] at isLess
      cases isLess
  · rintro ⟨notNil, isStart⟩
    have positive := length_pos_iff.mpr notNil
    have within := isStart.length_le
    refine ⟨path.length - 1, mem_range.mpr (by omega), ?_⟩
    rw [Nat.sub_add_cancel positive]
    exact (prefix_iff_eq_take.mp isStart).symm

section Perm

variable {trajectories others : List Trajectory}

section

variable (isPerm : trajectories.Perm others)
include isPerm

theorem mem_pathCounts_perm :
    counted ∈ pathCounts (trajectories.map Trajectory.path) ↔
      counted ∈ pathCounts (others.map Trajectory.path) := by
  have paths := isPerm.map Trajectory.path
  rw [mem_pathCounts, mem_pathCounts, paths.countP_eq]
  simp only [paths.mem_iff]

theorem mem_qualifying_perm :
    counted ∈ qualifying trajectories ↔ counted ∈ qualifying others := by
  rw [qualifying, qualifying, mem_filter, mem_filter, mem_pathCounts_perm isPerm,
    required, required, isPerm.length_eq]

theorem top_perm : Top trajectories path ↔ Top others path := by
  have sameNone : qualifying trajectories = [] ↔ qualifying others = [] := by
    rw [eq_nil_iff_forall_not_mem, eq_nil_iff_forall_not_mem]
    simp only [mem_qualifying_perm isPerm]
  simp only [Top, sameNone, mem_qualifying_perm isPerm, mem_pathCounts_perm isPerm]

end

end Perm

section Best

variable {trajectories : List Trajectory}

theorem bestSequence_eq (trajectories : List Trajectory) :
    bestSequence trajectories =
      ((firstGreatest lessLong (if qualifying trajectories = [] then
          ((firstGreatest lessSupported (pathCounts (trajectories.map Trajectory.path))).map
            fun (path, _) => (path, 0)).toList
        else qualifying trajectories)).map Prod.fst).getD [] := rfl

theorem best_of_supported (isNone : qualifying trajectories = [])
    (isGreatest : firstGreatest lessSupported (pathCounts (trajectories.map Trajectory.path)) =
      some counted) :
    bestSequence trajectories = counted.1 := by
  rw [bestSequence_eq, if_pos isNone, isGreatest]
  rfl

theorem best_of_long (isSome : qualifying trajectories ≠ [])
    (isGreatest : firstGreatest lessLong (qualifying trajectories) = some counted) :
    bestSequence trajectories = counted.1 := by
  rw [bestSequence_eq, if_neg isSome, isGreatest]
  rfl

theorem exists_firstGreatest {α : Type} (less : α → α → Bool) {items : List α}
    (isSome : items ≠ []) : ∃ greatest, firstGreatest less items = some greatest := by
  cases items with
  | nil => exact absurd rfl isSome
  | cons first rest => exact ⟨_, rfl⟩

theorem top_bestSequence (isPath : pathCounts (trajectories.map Trajectory.path) ≠ []) :
    Top trajectories (bestSequence trajectories) := by
  rw [Top]
  split
  case isTrue isNone =>
    obtain ⟨counted, isGreatest⟩ := exists_firstGreatest lessSupported isPath
    rw [best_of_supported isNone isGreatest]
    exact ⟨counted, firstGreatest_mem isGreatest, rfl,
      firstGreatest_greatest lessSupported_irrefl lessSupported_trans isGreatest⟩
  case isFalse isSome =>
    obtain ⟨counted, isGreatest⟩ := exists_firstGreatest lessLong isSome
    rw [best_of_long isSome isGreatest]
    exact ⟨counted, firstGreatest_mem isGreatest, rfl,
      firstGreatest_greatest lessLong_irrefl lessLong_trans isGreatest⟩

theorem pathCounts_cons (first : List String) (rest : List (List String))
    (isStart : path ∈ pathPrefixes first) :
    ∃ before after count, pathCounts (first :: rest) = before ++ (path, count) :: after ∧
      ∀ counted ∈ before, counted.1.length < path.length ∧ counted.1 <+: path := by
  obtain ⟨notNil, isPrefixOf⟩ := mem_pathPrefixes.mp isStart
  obtain ⟨earlier, later, isSplit⟩ := append_of_mem isStart
  have isRising : (pathPrefixes first).Pairwise fun a b => a.length < b.length := by
    rw [pathPrefixes, pairwise_map]
    refine pairwise_lt_range.imp_of_mem ?_
    intro a b _ isLess less
    have within := mem_range.mp isLess
    rw [length_take, length_take]
    omega
  have shorter : ∀ other ∈ earlier, other.length < path.length := by
    rw [isSplit, pairwise_append] at isRising
    exact fun other isEarlier => isRising.2.2 other isEarlier path mem_cons_self
  have starts : ∀ other ∈ earlier, other <+: path := by
    intro other isEarlier
    have isOther : other ∈ pathPrefixes first := isSplit ▸ mem_append_left _ isEarlier
    exact prefix_of_prefix_length_le (mem_pathPrefixes.mp isOther).2 isPrefixOf
      (shorter other isEarlier).le
  have notEarlier : path ∉ earlier := fun member => (shorter path member).false
  have isRest : (path :: (later ++ rest.flatMap pathPrefixes)).removeAll earlier =
      path :: (later ++ rest.flatMap pathPrefixes).removeAll earlier := by
    simp [List.removeAll, notEarlier]
  have isMet : ((first :: rest).flatMap pathPrefixes).eraseDups = earlier.eraseDups ++ path ::
        (((later ++ rest.flatMap pathPrefixes).removeAll earlier).filter
          fun other => !other == path).eraseDups := by
    rw [flatMap_cons, isSplit, append_assoc, cons_append, eraseDups_append, isRest, eraseDups_cons]
  rw [pathCounts, isMet, map_append, map_cons]
  refine ⟨_, _, _, rfl, ?_⟩
  intro counted member
  obtain ⟨other, isEarlier, rfl⟩ := mem_map.mp member
  have isEarlier := mem_eraseDups.mp isEarlier
  exact ⟨shorter other isEarlier, starts other isEarlier⟩

theorem count_le_of_prefix {other : List String × ℕ}
    (isCounted : counted ∈ pathCounts paths) (isOther : other ∈ pathCounts paths)
    (isPrefixOf : other.1 <+: counted.1) : counted.2 ≤ other.2 := by
  obtain ⟨⟨run, -, isStart⟩, count⟩ := mem_pathCounts.mp isOther
  rw [(mem_pathCounts.mp isCounted).2, count]
  apply countP_mono_left
  intro path _ isOn
  simp only [decide_eq_true_eq, mem_pathPrefixes] at isOn ⊢
  exact ⟨(mem_pathPrefixes.mp isStart).1, isPrefixOf.trans isOn.2⟩

theorem count_unique {count : ℕ}
    (isCounted : counted ∈ pathCounts paths) (isOther : (counted.1, count) ∈ pathCounts paths) :
    (counted.1, count) = counted :=
  Prod.ext rfl ((mem_pathCounts.mp isOther).2.trans (mem_pathCounts.mp isCounted).2.symm)

theorem exists_met_first (isCounted : counted ∈ pathCounts (trajectories.map Trajectory.path)) :
    ∃ others : List Trajectory, others.Perm trajectories ∧ ∃ before after,
      pathCounts (others.map Trajectory.path) = before ++ counted :: after ∧
        ∀ other ∈ before, other.1.length < counted.1.length ∧ other.1 <+: counted.1 := by
  obtain ⟨⟨path, isPath, isStart⟩, -⟩ := mem_pathCounts.mp isCounted
  obtain ⟨run, isRun, rfl⟩ := mem_map.mp isPath
  obtain ⟨earlier, later, rfl⟩ := append_of_mem isRun
  have isPerm : (run :: (earlier ++ later)).Perm (earlier ++ run :: later) := perm_middle.symm
  obtain ⟨before, after, count, isSplit, areBefore⟩ :=
    pathCounts_cons run.path ((earlier ++ later).map Trajectory.path) isStart
  refine ⟨run :: (earlier ++ later), isPerm, before, after, ?_, areBefore⟩
  rw [map_cons, isSplit]
  have isOther : (counted.1, count) ∈
      pathCounts ((run :: (earlier ++ later)).map Trajectory.path) := by
    rw [map_cons, isSplit]
    exact mem_append_right _ mem_cons_self
  rw [count_unique ((mem_pathCounts_perm isPerm).mpr isCounted) isOther]

theorem exists_best_of_top (isTop : Top trajectories path) :
    ∃ others : List Trajectory, others.Perm trajectories ∧ bestSequence others = path := by
  rw [Top] at isTop
  split at isTop
  case isTrue isNone =>
    obtain ⟨counted, isCounted, rfl, isMost⟩ := isTop
    obtain ⟨others, isPerm, before, after, isSplit, areBefore⟩ := exists_met_first isCounted
    have isOther : ∀ other ∈ before ++ counted :: after,
        other ∈ pathCounts (trajectories.map Trajectory.path) := by
      intro other member
      exact (mem_pathCounts_perm isPerm).mp (isSplit ▸ member)
    have noneQualify : qualifying others = [] := by
      rw [eq_nil_iff_forall_not_mem] at isNone ⊢
      exact fun other member => isNone other ((mem_qualifying_perm isPerm).mp member)
    refine ⟨others, isPerm, best_of_supported noneQualify ?_⟩
    rw [isSplit]
    apply firstGreatest_append
    · intro other isBefore
      have isIn := isOther other (mem_append_left _ isBefore)
      have most := isMost other isIn
      have enough := count_le_of_prefix isCounted isIn (areBefore other isBefore).2
      have shorter := (areBefore other isBefore).1
      simp only [lessSupported, decide_eq_false_iff_not, decide_eq_true_eq] at most ⊢
      omega
    · intro other isAfter
      exact isMost other (isOther other (by simp [isAfter]))
  case isFalse isSome =>
    obtain ⟨counted, isCounted, rfl, isMost⟩ := isTop
    obtain ⟨others, isPerm, before, after, isSplit, areBefore⟩ :=
      exists_met_first (mem_filter.mp isCounted).1
    have enough : required others ≤ counted.2 := by
      simpa using (mem_filter.mp ((mem_qualifying_perm isPerm).mpr isCounted)).2
    have isQualifying : qualifying others =
        before.filter (fun (_, n) => required others ≤ n) ++
          counted :: after.filter fun (_, n) => required others ≤ n := by
      simp [qualifying, isSplit, enough]
    have someQualify : qualifying others ≠ [] := by simp [isQualifying]
    refine ⟨others, isPerm, best_of_long someQualify ?_⟩
    rw [isQualifying]
    apply firstGreatest_append
    · intro other isBefore
      have shorter := (areBefore other (mem_of_mem_filter isBefore)).1
      simp [lessLong, shorter]
    · intro other isAfter
      apply isMost other
      rw [← mem_qualifying_perm isPerm, isQualifying]
      exact mem_append_right _ (mem_cons_of_mem _ isAfter)

theorem pathCounts_ne_nil {run : Trajectory} (isRun : run ∈ trajectories) (isPath : run.path ≠ []) :
    pathCounts (trajectories.map Trajectory.path) ≠ [] := by
  have isCounted : (run.path, (trajectories.map Trajectory.path).countP
      fun other => run.path ∈ pathPrefixes other) ∈ pathCounts (trajectories.map Trajectory.path) :=
    mem_pathCounts.mpr ⟨⟨run.path, mem_map_of_mem isRun,
      mem_pathPrefixes.mpr ⟨isPath, prefix_rfl⟩⟩, rfl⟩
  exact ne_nil_of_mem isCounted

theorem Top.ne_nil (isTop : Top trajectories path) : path ≠ [] := by
  have isStart : ∃ counted ∈ pathCounts (trajectories.map Trajectory.path), counted.1 = path := by
    rw [Top] at isTop
    split at isTop
    · obtain ⟨counted, isCounted, isPath, -⟩ := isTop
      exact ⟨counted, isCounted, isPath⟩
    · obtain ⟨counted, isCounted, isPath, -⟩ := isTop
      exact ⟨counted, mem_of_mem_filter isCounted, isPath⟩
  obtain ⟨counted, isCounted, rfl⟩ := isStart
  obtain ⟨⟨run, -, isOn⟩, -⟩ := mem_pathCounts.mp isCounted
  exact (mem_pathPrefixes.mp isOn).1

end Best

end MemoryService.Tools
