import Mathlib.Data.List.Perm.Subperm

/-!
# Searches level by level

What can be reached in so many links from where a search starts, and the search that keeps what
it has visited and, of that, what was reached last.
-/

namespace MemoryService.Foundation

universe u

variable {α : Type u}

def Within (link : α → α → Prop) (start : α → Prop) : Nat → α → Prop
  | 0, x => start x
  | k + 1, x => Within link start k x ∨ ∃ y, Within link start k y ∧ link y x

/-- Reached in so many links, and in no fewer. -/
def Level (link : α → α → Prop) (start : α → Prop) (k : Nat) (x : α) : Prop :=
  Within link start k x ∧ ∀ i < k, ¬Within link start i x

variable {link other : α → α → Prop} {start from_ : α → Prop} {x y : α} {k : Nat}

theorem Within.succ (reached : Within link start k x) : Within link start (k + 1) x := .inl reached

theorem Within.mono {l : Nat} (notAfter : k ≤ l) (reached : Within link start k x) :
    Within link start l x := by
  induction notAfter with
  | refl => exact reached
  | step _ ih => exact ih.succ

theorem Within.of_start (starts : start x) (k : Nat) : Within link start k x :=
  Within.mono (Nat.zero_le k) starts

theorem Within.imp (links : ∀ x y, link x y → other x y)
    (starts : ∀ x, start x → from_ x) (reached : Within link start k x) :
    Within other from_ k x := by
  induction k generalizing x with
  | zero => exact starts x reached
  | succ k ih =>
    rcases reached with before | ⟨y, before, linked⟩
    · exact .inl (ih before)
    · exact .inr ⟨y, ih before, links y x linked⟩

theorem Within.exists_level (reached : Within link start k x) :
    ∃ j, j ≤ k ∧ Level link start j x := by
  induction k with
  | zero => exact ⟨0, Nat.le_refl 0, reached, fun i none_ => absurd none_ (Nat.not_lt_zero i)⟩
  | succ k ih =>
    by_cases before : Within link start k x
    · obtain ⟨j, notAfter, isLevel⟩ := ih before
      exact ⟨j, Nat.le_succ_of_le notAfter, isLevel⟩
    · exact ⟨k + 1, Nat.le_refl _, reached,
        fun i early isReached => before (isReached.mono (Nat.le_of_lt_succ early))⟩

theorem Within.linked (reached : Within link start k x) (isNew : ¬start x) :
    ∃ j y, j < k ∧ Within link start j y ∧ link y x := by
  induction k with
  | zero => exact absurd reached isNew
  | succ k ih =>
    rcases reached with before | ⟨y, before, isLinked⟩
    · obtain ⟨j, y, early, isReached, isLinked⟩ := ih before
      exact ⟨j, y, Nat.lt_succ_of_lt early, isReached, isLinked⟩
    · exact ⟨k, y, Nat.lt_succ_self k, before, isLinked⟩

/-- A search after so many steps. -/
structure Searched (link : α → α → Prop) (start : α → Prop) (k : Nat)
    (visited frontier : α → Prop) : Prop where
  reached : ∀ x, visited x ↔ Within link start k x
  last : ∀ x, frontier x ↔ Level link start k x

theorem searched_start : Searched link start 0 start start where
  reached _ := Iff.rfl
  last _ := ⟨fun starts => ⟨starts, fun i none_ => absurd none_ (Nat.not_lt_zero i)⟩, And.left⟩

section Step

variable {k : Nat} {visited frontier next : α → Prop}
  (searched : Searched link start k visited frontier)
include searched

theorem Searched.congr {visited' frontier' : α → Prop} (sameVisited : ∀ x, visited' x ↔ visited x)
    (sameFrontier : ∀ x, frontier' x ↔ frontier x) :
    Searched link start k visited' frontier' where
  reached x := (sameVisited x).trans (searched.reached x)
  last x := (sameFrontier x).trans (searched.last x)

theorem Searched.visited_of_last (isLast : frontier x) : visited x :=
  (searched.reached x).mpr ((searched.last x).mp isLast).1

theorem Searched.closed
    (isVisited : visited x) (isOld : ¬frontier x) (linked : link x y) : visited y := by
  have isReached := (searched.reached x).mp isVisited
  obtain ⟨j, notAfter, isLevel⟩ := isReached.exists_level
  have early : j < k := by
    rcases Nat.eq_or_lt_of_le notAfter with rfl | early
    · exact absurd ((searched.last x).mpr isLevel) isOld
    · exact early
  exact (searched.reached y).mpr (Within.mono early (.inr ⟨x, isLevel.1, linked⟩))

theorem Searched.step (isNext : ∀ y, next y ↔ ¬visited y ∧ ∃ x, frontier x ∧ link x y) :
    Searched link start (k + 1) (fun x => visited x ∨ next x) next := by
  have reached : ∀ x, visited x ∨ next x ↔ Within link start (k + 1) x := by
    intro x
    constructor
    · rintro (isVisited | isNew)
      · exact .inl ((searched.reached x).mp isVisited)
      · obtain ⟨-, y, isLast, linked⟩ := (isNext x).mp isNew
        exact .inr ⟨y, ((searched.last y).mp isLast).1, linked⟩
    · intro isReached
      by_cases isVisited : visited x
      · exact .inl isVisited
      · rcases isReached with before | ⟨y, before, linked⟩
        · exact .inl ((searched.reached x).mpr before)
        · refine .inr ((isNext x).mpr ⟨isVisited, y, ?_, linked⟩)
          by_contra isOld
          exact isVisited (searched.closed ((searched.reached y).mpr before) isOld linked)
  refine ⟨reached, fun x => ⟨fun isNew => ⟨(reached x).mp (.inr isNew), ?_⟩, ?_⟩⟩
  · intro i early isReached
    exact ((isNext x).mp isNew).1
      ((searched.reached x).mpr (isReached.mono (Nat.le_of_lt_succ early)))
  · rintro ⟨isReached, isNew⟩
    rcases (reached x).mpr isReached with isVisited | isNext'
    · exact absurd ((searched.reached x).mp isVisited) (isNew k (Nat.lt_succ_self k))
    · exact isNext'

end Step

end MemoryService.Foundation

/-!
## What a list of edges reaches

The search goes from the start along the edges that leave it, and from what they lead to along the
edges that are left.  Every round takes an edge away, so the number of edges is fuel enough.
-/

namespace MemoryService.Foundation

universe u

variable {α : Type u}

/-- The relation a list of edges stands for. -/
def Edge (edges : List (α × α)) (a b : α) : Prop := (a, b) ∈ edges

variable [DecidableEq α] (edges : List (α × α))

/-- The ends of the edges that leave `start`. -/
def leaving (start : List α) : List α := (edges.filter fun edge => edge.1 ∈ start).map Prod.snd

def remaining (start : List α) : List (α × α) := edges.filter fun edge => edge.1 ∉ start

def search : Nat → List (α × α) → List α → List α
  | 0, _, _ => []
  | fuel + 1, edges, start =>
    if leaving edges start = [] then []
    else
      leaving edges start ++ search fuel (remaining edges start) (leaving edges start)

/-- Everything that the edges lead to from `start`. -/
def reach (start : List α) : List α := search edges.length edges start

variable {edges : List (α × α)} {start : List α} {a b : α}

theorem mem_leaving_iff : b ∈ leaving edges start ↔ ∃ a ∈ start, Edge edges a b := by
  constructor
  · intro member
    obtain ⟨edge, isTaken, isEnd⟩ := List.mem_map.mp member
    obtain ⟨isEdge, leaves⟩ := List.mem_filter.mp isTaken
    refine ⟨edge.1, by simpa using leaves, ?_⟩
    rw [Edge, ← isEnd]
    exact isEdge
  · intro edge
    obtain ⟨a, isStart, isEdge⟩ := edge
    apply List.mem_map.mpr
    exact ⟨(a, b), List.mem_filter.mpr ⟨isEdge, by simpa using isStart⟩, rfl⟩

theorem edge_remaining_iff : Edge (remaining edges start) a b ↔ Edge edges a b ∧ a ∉ start := by
  simp [Edge, remaining]

theorem length_remaining_lt (someLeave : leaving edges start ≠ []) :
    (remaining edges start).length < edges.length := by
  obtain ⟨b, member⟩ := List.exists_mem_of_ne_nil _ someLeave
  obtain ⟨a, isStart, isEdge⟩ := mem_leaving_iff.mp member
  apply List.length_filter_lt_length_iff_exists.mpr
  exact ⟨(a, b), isEdge, by simpa using isStart⟩

theorem path_remaining (isStart : a ∈ start) (path : Relation.TransGen (Edge edges) a b) :
    b ∈ leaving edges start ∨
      ∃ c ∈ leaving edges start, Relation.TransGen (Edge (remaining edges start)) c b := by
  induction path with
  | single isEdge => exact .inl (mem_leaving_iff.mpr ⟨a, isStart, isEdge⟩)
  | @tail b last path isEdge ih =>
    by_cases again : b ∈ start
    · exact .inl (mem_leaving_iff.mpr ⟨b, again, isEdge⟩)
    · have left : Edge (remaining edges start) b last := edge_remaining_iff.mpr ⟨isEdge, again⟩
      rcases ih with isFound | ⟨c, isFound, path⟩
      · exact .inr ⟨b, isFound, .single left⟩
      · exact .inr ⟨c, isFound, path.tail left⟩

theorem mem_search_iff :
    ∀ (fuel : Nat) (edges : List (α × α)) (start : List α), edges.length ≤ fuel →
      (b ∈ search fuel edges start ↔ ∃ a ∈ start, Relation.TransGen (Edge edges) a b) := by
  intro fuel
  induction fuel with
  | zero =>
    intro edges start enough
    have noEdges : edges = [] := List.eq_nil_of_length_eq_zero (by omega)
    simp only [search, List.not_mem_nil, false_iff]
    rintro ⟨a, -, path⟩
    obtain ⟨c, isEdge, -⟩ := Relation.TransGen.head'_iff.mp path
    simp [Edge, noEdges] at isEdge
  | succ fuel ih =>
    intro edges start enough
    rw [search]
    split
    case isTrue noneLeave =>
      simp only [List.not_mem_nil, false_iff]
      rintro ⟨a, isStart, path⟩
      rcases path_remaining isStart path with isFound | ⟨c, isFound, -⟩
      · simp [noneLeave] at isFound
      · simp [noneLeave] at isFound
    case isFalse someLeave =>
      have shorter := length_remaining_lt someLeave
      rw [List.mem_append, ih (remaining edges start) (leaving edges start) (by omega)]
      constructor
      · intro found
        rcases found with isFound | ⟨c, isFound, path⟩
        · obtain ⟨a, isStart, isEdge⟩ := mem_leaving_iff.mp isFound
          exact ⟨a, isStart, .single isEdge⟩
        · obtain ⟨a, isStart, isEdge⟩ := mem_leaving_iff.mp isFound
          have whole : Relation.TransGen (Edge edges) c b :=
            Relation.TransGen.mono (fun _ _ left => (edge_remaining_iff.mp left).1) _ _ path
          exact ⟨a, isStart, whole.head isEdge⟩
      · intro found
        obtain ⟨a, isStart, path⟩ := found
        exact path_remaining isStart path

theorem mem_reach_iff : b ∈ reach edges start ↔ ∃ a ∈ start, Relation.TransGen (Edge edges) a b :=
  mem_search_iff edges.length edges start (Nat.le_refl _)

theorem mem_reach_of_edge (isStart : a ∈ start) (isEdge : Edge edges a b) : b ∈ reach edges start :=
  mem_reach_iff.mpr ⟨a, isStart, .single isEdge⟩

theorem reach_closed (isReached : a ∈ reach edges start) (isEdge : Edge edges a b) :
    b ∈ reach edges start := by
  obtain ⟨first, isStart, path⟩ := mem_reach_iff.mp isReached
  exact mem_reach_iff.mpr ⟨first, isStart, path.tail isEdge⟩

theorem reach_insert {from_ to_ : α} (isReached : b ∈ reach (edges ++ [(from_, to_)]) [a]) :
    b ∈ reach edges [a] ∨ a = from_ ∨ from_ ∈ reach edges [a] := by
  obtain ⟨first, isFirst, path⟩ := mem_reach_iff.mp isReached
  rw [List.mem_singleton.mp isFirst] at path
  have step : ∀ {x y : α}, Edge (edges ++ [(from_, to_)]) x y → Edge edges x y ∨ x = from_ := by
    intro x y isEdge
    rcases List.mem_append.mp isEdge with isOld | isNew
    · exact .inl isOld
    · exact .inr (congrArg Prod.fst (List.mem_singleton.mp isNew))
  induction path with
  | single isEdge =>
    rcases step isEdge with isOld | isFrom
    · exact .inl (mem_reach_of_edge (List.mem_singleton_self a) isOld)
    · exact .inr (.inl isFrom)
  | tail path isEdge ih =>
    rcases ih (mem_reach_iff.mpr ⟨a, List.mem_singleton_self a, path⟩) with
      found | through
    · rcases step isEdge with isOld | isFrom
      · exact .inl (reach_closed found isOld)
      · rw [isFrom] at found
        exact .inr (.inr found)
    · exact .inr through

theorem ends_of_mem_reach (isReached : b ∈ reach edges [a]) :
    (∃ c, Edge edges a c) ∧ ∃ c, Edge edges c b := by
  obtain ⟨first, isFirst, path⟩ := mem_reach_iff.mp isReached
  rw [List.mem_singleton.mp isFirst] at path
  obtain ⟨next, leaves, -⟩ := Relation.TransGen.head'_iff.mp path
  obtain ⟨last, -, enters⟩ := Relation.TransGen.tail'_iff.mp path
  exact ⟨⟨next, leaves⟩, ⟨last, enters⟩⟩

end MemoryService.Foundation

/-!
## Searches that do not come back

The search goes depth first until it meets a goal and never comes to a node twice on its way, so
the number of nodes is fuel enough.  No goal is missed: what follows the last visit of a node on
a path is a path that does not come back to it.
-/

namespace MemoryService.Foundation

universe u

/-- The first of the items that answers `true` decides; none where an item before it has no
answer. -/
def anyOf {β : Type u} (answer : β → Option Bool) : List β → Option Bool
  | [] => some false
  | item :: rest =>
    match answer item with
    | some true => some true
    | some false => anyOf answer rest
    | none => none

section AnyOf

variable {β : Type u} {answer other : β → Option Bool} {items : List β}

theorem anyOf_congr (same : ∀ item ∈ items, answer item = other item) :
    anyOf answer items = anyOf other items := by
  induction items with
  | nil => rfl
  | cons item rest ih =>
    rw [anyOf, anyOf, same item List.mem_cons_self,
      ih fun later member => same later (List.mem_cons_of_mem item member)]

theorem anyOf_isSome (answers : ∀ item ∈ items, (answer item).isSome) :
    (anyOf answer items).isSome := by
  induction items with
  | nil => rfl
  | cons item rest ih =>
    have isAnswer := answers item List.mem_cons_self
    have later := ih fun later member => answers later (List.mem_cons_of_mem item member)
    rw [anyOf]
    cases found : answer item with
    | none => simp [found] at isAnswer
    | some value => cases value <;> simp [later]

theorem exists_of_anyOf (isFound : anyOf answer items = some true) :
    ∃ item ∈ items, answer item = some true := by
  induction items with
  | nil => cases isFound
  | cons item rest ih =>
    rw [anyOf] at isFound
    cases isItem : answer item with
    | none => simp [isItem] at isFound
    | some value =>
      cases value with
      | true => exact ⟨item, List.mem_cons_self, isItem⟩
      | false =>
        rw [isItem] at isFound
        obtain ⟨later, member, isLater⟩ := ih isFound
        exact ⟨later, List.mem_cons_of_mem item member, isLater⟩

theorem forall_of_anyOf (noneFound : anyOf answer items = some false) :
    ∀ item ∈ items, answer item = some false := by
  induction items with
  | nil => simp
  | cons item rest ih =>
    rw [anyOf] at noneFound
    cases isItem : answer item with
    | none => simp [isItem] at noneFound
    | some value =>
      rw [isItem] at noneFound
      cases value with
      | true => simp at noneFound
      | false =>
        rw [List.forall_mem_cons]
        exact ⟨isItem, ih noneFound⟩

end AnyOf

section Visit

variable {α : Type u} [DecidableEq α] (next : α → List α) (isGoal : α → Bool)

def visit : ℕ → List α → α → Option Bool
  | 0, _, _ => none
  | fuel + 1, visited, node =>
    if node ∈ visited then some false
    else if isGoal node then some true
    else anyOf (visit fuel (node :: visited)) (next node)

inductive Leads (visited : List α) : α → Prop
  | goal {node : α} : node ∉ visited → isGoal node = true → Leads visited node
  | step {node later : α} :
      node ∉ visited → later ∈ next node → Leads visited later → Leads visited node

variable {next isGoal} {visited more : List α} {node later : α}

omit [DecidableEq α] in
theorem Leads.mono (leads : Leads next isGoal more node) (fewer : visited ⊆ more) :
    Leads next isGoal visited node := by
  induction leads with
  | goal isNew isEnd => exact .goal (fun member => isNew (fewer member)) isEnd
  | step isNew isNext _ ih =>
    exact .step (fun member => isNew (fewer member)) isNext ih

theorem Leads.last_visit (node : α) (leads : Leads next isGoal visited later) :
    Leads next isGoal (node :: visited) later ∨
      isGoal node = true ∨ ∃ after ∈ next node, Leads next isGoal (node :: visited) after := by
  induction leads with
  | @goal place isNew isEnd =>
    by_cases same : place = node
    · exact .inr (.inl (same ▸ isEnd))
    · exact .inl (.goal (by simp [same, isNew]) isEnd)
  | @step place after isNew isNext _ ih =>
    rcases ih with keepsOff | further
    · by_cases same : place = node
      · exact .inr (.inr ⟨after, same ▸ isNext, keepsOff⟩)
      · exact .inl (.step (by simp [same, isNew]) isNext keepsOff)
    · exact .inr further

theorem leads_iff (isNew : node ∉ visited) :
    Leads next isGoal visited node ↔
      isGoal node = true ∨ ∃ after ∈ next node, Leads next isGoal (node :: visited) after := by
  constructor
  · intro leads
    rcases leads.last_visit node with keepsOff | further
    · cases keepsOff with
      | goal notVisited _ => simp at notVisited
      | step notVisited _ _ => simp at notVisited
    · exact further
  · intro further
    rcases further with isEnd | ⟨after, isNext, leads⟩
    · exact .goal isNew isEnd
    · exact .step isNew isNext (leads.mono (List.subset_cons_self node visited))

theorem visit_eq_some {found : Bool} (isFound : visit next isGoal fuel visited node = some found) :
    found = true ↔ Leads next isGoal visited node := by
  induction fuel generalizing visited node found with
  | zero => cases isFound
  | succ fuel ih =>
    rw [visit] at isFound
    split at isFound
    case isTrue wasVisited =>
      cases isFound
      refine iff_of_false Bool.false_ne_true fun leads => ?_
      cases leads with
      | goal isNew _ => exact isNew wasVisited
      | step isNew _ _ => exact isNew wasVisited
    case isFalse isNew =>
      split at isFound
      case isTrue isEnd =>
        cases isFound
        exact iff_of_true rfl (.goal isNew isEnd)
      case isFalse notEnd =>
        rw [leads_iff isNew]
        cases found with
        | true =>
          obtain ⟨after, isNext, isAnswer⟩ := exists_of_anyOf isFound
          exact iff_of_true rfl (.inr ⟨after, isNext, (ih isAnswer).mp rfl⟩)
        | false =>
          refine iff_of_false Bool.false_ne_true fun further => ?_
          rcases further with isEnd | ⟨after, isNext, leads⟩
          · exact notEnd isEnd
          · have isAnswer := forall_of_anyOf isFound after isNext
            exact Bool.false_ne_true ((ih isAnswer).mpr leads)

theorem visit_isSome {nodes : List α} (closed : ∀ node ∈ nodes, next node ⊆ nodes)
    (distinct : visited.Nodup) (inside : visited ⊆ nodes)
    (isNode : node ∈ nodes) (enough : nodes.length < fuel + visited.length) :
    (visit next isGoal fuel visited node).isSome := by
  induction fuel generalizing visited node with
  | zero =>
    have notMore : visited.length ≤ nodes.length := (distinct.subperm inside).length_le
    omega
  | succ fuel ih =>
    rw [visit]
    split
    case isTrue => rfl
    case isFalse isNew =>
      split
      case isTrue => rfl
      case isFalse =>
        apply anyOf_isSome
        intro after isNext
        apply ih
        · exact List.nodup_cons.mpr ⟨isNew, distinct⟩
        · exact List.cons_subset.mpr ⟨isNode, inside⟩
        · exact closed node isNode isNext
        · rw [List.length_cons]
          omega

end Visit

def IsPath (link : α → α → Prop) : List α → Prop
  | [] => True
  | [x] => ∀ y, ¬link y x
  | x :: next :: rest => (∀ y, link y x ↔ y = next) ∧ IsPath link (next :: rest)

namespace IsPath

theorem tail {path : List α} (isPath : IsPath link (x :: path)) : IsPath link path := by
  cases path with
  | nil => trivial
  | cons next rest => exact isPath.2

theorem suffix {later : List α} (isPath : IsPath link path) (isSuffix : later <:+ path) :
    IsPath link later := by
  induction path with
  | nil => rwa [List.suffix_nil.mp isSuffix]
  | cons x rest ih =>
    rcases List.suffix_cons_iff.mp isSuffix with rfl | isLater
    · exact isPath
    · exact ih isPath.tail isLater

theorem cons {next : α} {path : List α} (isPath : IsPath link (next :: path))
    (isNext : ∀ y, link y x ↔ y = next) : IsPath link (x :: next :: path) := ⟨isNext, isPath⟩

theorem congr (isPath : IsPath link path)
    (same : ∀ x ∈ path, ∀ y, other y x ↔ link y x) : IsPath other path := by
  induction path with
  | nil => trivial
  | cons x rest ih =>
    have later := ih isPath.tail fun z isLater => same z (List.mem_cons_of_mem x isLater)
    cases rest with
    | nil => exact fun y isLink => isPath y ((same x List.mem_cons_self y).mp isLink)
    | cons next rest =>
      exact ⟨fun y => (same x List.mem_cons_self y).trans (isPath.1 y), later⟩

theorem transGen_iff (isPath : IsPath link (x :: path)) :
    Relation.TransGen link y x ↔ y ∈ path := by
  induction path generalizing x with
  | nil =>
    refine iff_of_false (fun leads => ?_) List.not_mem_nil
    obtain ⟨last, -, isLink⟩ := Relation.TransGen.tail'_iff.mp leads
    exact isPath last isLink
  | cons next rest ih =>
    rw [List.mem_cons, ← ih isPath.2, Relation.TransGen.tail'_iff]
    constructor
    · intro ⟨last, leads, isLink⟩
      rw [(isPath.1 last).mp isLink, Relation.reflTransGen_iff_eq_or_transGen] at leads
      exact leads.imp_left Eq.symm
    · intro leads
      refine ⟨next, ?_, (isPath.1 next).mpr rfl⟩
      exact Relation.reflTransGen_iff_eq_or_transGen.mpr (leads.imp_left Eq.symm)

end IsPath

end MemoryService.Foundation
