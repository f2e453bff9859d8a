import MemoryService.Foundation.Binary64
import MemoryService.Foundation.FirstSeen
import MemoryService.Foundation.ReadThrough
import Mathlib.Data.List.MinMax
import Mathlib.Data.List.Perm.Subperm
import Mathlib.Data.List.Sort
import Mathlib.Data.Prod.Lex
import Mathlib.Data.String.Basic

/-!
# The forms of one statement

A turn is kept as said beside what was read from it, and each is a record of its own.
-/

namespace MemoryService.Retrieval.Forms

open Foundation List

structure SourceRef where
  sourceType : Option String := none
  sourceId : Option String := none
  deriving DecidableEq

structure HitPayload where
  derived : Bool := false
  /-- a reference that is no mapping is `none` -/
  sourceRefs : List (Option SourceRef) := []
  ownerPrincipal : Option String := none
  observedAt : Option String := none
  earlierValue : Bool := false
  category : Option String := none
  statementKind : Option String := none
  deriving DecidableEq

structure SearchHit where
  recordId : String
  payload : HitPayload := {}
  deriving DecidableEq

inductive VectorName where
  | denseEn
  | denseMl
  | bm25
  | colbert
  | denseEnCtx
  | denseMlCtx
  | bm25Ctx
  | colbertCtx
  deriving DecidableEq

def fusionK : Rat := 10

def lateWeight : Rat := 6

def lateContextWeight : Rat := 2

def turnCategory : String := "verbatim_turn"

def referredCategory : String := "referred_turn"

def correctionCategory : String := "CORRECTION"

def given (text : Option String) : Option String := text.filter (· ≠ "")

/-- `_speaker_key`: an agent bound to a user relays that user's words. -/
def speakerKey (principal : String) : String :=
  let start := "agent:".toList
  if start.isPrefixOf principal.toList ∧ '/' ∈ principal.toList then
    "user:" ++ String.ofList ((principal.toList.drop start.length).takeWhile (· ≠ '/'))
  else principal

def sourceOf (ref : Option SourceRef) : Option (String × String) :=
  ref.bind fun ref =>
    (given ref.sourceType).bind fun kind => (given ref.sourceId).map fun id => (kind, id)

structure StatementKey where
  speaker : String
  observed : String
  sources : List (String × String)
  earlierValue : Bool
  deriving DecidableEq

def statementKey (payload : HitPayload) : Option StatementKey :=
  if payload.derived then none
  else
    let sources := (payload.sourceRefs.filterMap sourceOf).insertionSort
      fun first second => toLex first ≤ toLex second
    if sources = [] ∨ sources.length ≠ payload.sourceRefs.length ∨
        sources.any (fun source => source.1 = "memory") then none
    else
      (given payload.ownerPrincipal).bind fun owner =>
        (given payload.observedAt).map fun observed =>
          { speaker := speakerKey owner, observed, sources
            earlierValue := payload.earlierValue }

abbrev ArmRanks : Type := Dict String Nat

structure ArmPool where
  hits : List SearchHit
  ranks : Dict VectorName ArmRanks
  forms : List (String × List SearchHit) := []

def ranked (listed : List SearchHit) : ArmRanks where
  items := (firstSeen (fun entry => entry.1.recordId) (listed.zipIdx 1)).map
    fun entry => (entry.1.recordId, entry.2)
  distinct := by
    rw [map_map]
    exact keys_firstSeen_nodup _ _

def ArmPool.of (arms : Dict VectorName (List SearchHit)) : ArmPool where
  hits := firstSeen SearchHit.recordId (arms.items.flatMap Prod.snd)
  ranks := arms.mapValues ranked

variable (pool : ArmPool)

/-- `forms.get(rid) or (hits[rid],)`. -/
def ArmPool.formsOf (hit : SearchHit) : List SearchHit :=
  (pool.forms.lookup hit.recordId).getD [hit]

def weight : VectorName → Rat
  | .colbert => lateWeight
  | .colbertCtx => lateContextWeight
  | _ => 1

def fused (recordId : String) : Rat :=
  pool.ranks.items.foldl
    (fun total arm =>
      match arm.2.get? recordId with
      | some rank => Binary64.add total (Binary64.round (weight arm.1 / (fusionK + rank)))
      | none => total)
    0

def groups : List (List SearchHit) :=
  let keys := (pool.hits.filterMap fun hit => statementKey hit.payload).eraseDups
  (keys.map fun key => pool.hits.filter fun hit => statementKey hit.payload = some key).filter
    fun group => 1 < group.length

/-- `_standing_for`: the turn as said, or before it a referring turn that corrects nothing. -/
def standingFor (ordered : List SearchHit) : Option SearchHit :=
  let corrects := ordered.any fun hit => hit.payload.statementKind = some correctionCategory
  let wanted := if corrects then [turnCategory] else [referredCategory, turnCategory]
  wanted.findSome? fun kind => ordered.find? fun hit => hit.payload.category = some kind

def arranged (group : List SearchHit) : List SearchHit :=
  let ordered := group.insertionSort fun first second =>
    toLex (-fused pool first.recordId, first.recordId) ≤
      toLex (-fused pool second.recordId, second.recordId)
  match standingFor ordered with
  | some turn => turn :: ordered.erase turn
  | none => ordered

/-- `shown.get(rid, rid)`: the record that stands for a record's statement. -/
def shownIn (arrangements : List (List SearchHit)) (recordId : String) : String :=
  match arrangements.find? fun forms => forms.any fun hit => hit.recordId = recordId with
  | some (first :: _) => first.recordId
  | _ => recordId

/-- An arm's list with one record for each statement, the best form's place its own. -/
def closeUp (shown : String → String) (ranks : ArmRanks) : ArmRanks where
  items :=
    ((firstSeen (fun entry => shown entry.1)
      (ranks.items.insertionSort fun first second => first.2 ≤ second.2)).zipIdx 1).map
        fun entry => (shown entry.1.1, entry.2)
  distinct := by
    have firsts := keys_firstSeen_nodup (fun entry : String × Nat => shown entry.1)
      (ranks.items.insertionSort fun first second => first.2 ≤ second.2)
    rw [map_map]
    refine (congrArg List.Nodup ?_).mp firsts
    rw [← zipIdx_map_fst 1 (firstSeen _ _), map_map, zipIdx_map_fst]
    rfl

def statements : ArmPool :=
  if groups pool = [] then pool
  else
    let arrangements := (groups pool).map (arranged pool)
    let shown := shownIn arrangements
    { hits := pool.hits.filter fun hit => shown hit.recordId = hit.recordId
      ranks := pool.ranks.mapValues (closeUp shown)
      forms := arrangements.filterMap fun forms =>
        forms.head?.map fun first => (first.recordId, forms) }

/-! ## The lists of an arm -/

/-- The ranks of an arm's records rise along its list. -/
def Rising (ranks : ArmRanks) : Prop := ranks.items.Pairwise fun first second => first.2 < second.2

variable {entry : String × Nat} {recordId : String} {place : Nat} {forms : List SearchHit}

section Arms

variable {listed : List SearchHit} {ranks : ArmRanks} {shown : String → String}

theorem rising_zipIdx {α : Type} (items : List α) (start : Nat) :
    (items.zipIdx start).Pairwise fun first second => first.2 < second.2 := by
  have places : ((items.zipIdx start).map Prod.snd).Pairwise (· < ·) := by
    rw [zipIdx_map_snd]
    exact pairwise_lt_range' 1
  exact pairwise_map.mp places

theorem ranked_rising (listed : List SearchHit) : Rising (ranked listed) := by
  rw [Rising, ranked]
  exact pairwise_map.mpr ((rising_zipIdx listed 1).sublist (firstSeen_sublist _ _))

theorem rank_pos (member : entry ∈ (ranked listed).items) : 1 ≤ entry.2 := by
  obtain ⟨⟨hit, place⟩, isFirst, rfl⟩ := mem_map.mp member
  exact (mem_zipIdx_iff_le_and_getElem?_sub.mp (mem_of_mem_firstSeen isFirst)).1

theorem mem_keys_ranked :
    recordId ∈ (ranked listed).keys ↔ ∃ hit ∈ listed, hit.recordId = recordId := by
  constructor
  · intro member
    obtain ⟨entry, inItems, rfl⟩ := mem_map.mp member
    obtain ⟨placed, isFirst, rfl⟩ := mem_map.mp inItems
    exact ⟨placed.1, fst_mem_of_mem_zipIdx (mem_of_mem_firstSeen isFirst), rfl⟩
  · rintro ⟨hit, member, rfl⟩
    obtain ⟨place, inside, isHit⟩ := getElem_of_mem member
    have isPlaced : (hit, place + 1) ∈ listed.zipIdx 1 := by
      rw [mem_zipIdx_iff_le_and_getElem?_sub]
      simp [← isHit]
    obtain ⟨kept, isKept, same⟩ :=
      exists_firstSeen (fun entry : SearchHit × Nat => entry.1.recordId) isPlaced
    exact mem_map.mpr ⟨_, mem_map_of_mem isKept, same⟩

theorem closeUp_items (rising : Rising ranks) :
    (closeUp shown ranks).items =
      ((firstSeen (fun entry => shown entry.1) ranks.items).zipIdx 1).map
        fun entry => (shown entry.1.1, entry.2) := by
  have sorted : ranks.items.insertionSort (fun first second => first.2 ≤ second.2) =
      ranks.items :=
    List.Pairwise.insertionSort_eq (rising.imp fun less => Nat.le_of_lt less)
  simp only [closeUp, sorted]

theorem closeUp_closed (shown : String → String) (ranks : ArmRanks) :
    (closeUp shown ranks).items.map Prod.snd =
      List.range' 1 (closeUp shown ranks).items.length := by
  rw [closeUp, map_map, length_map, length_zipIdx, ← zipIdx_map_snd]
  rfl

theorem mem_closeUp (rising : Rising ranks) :
    (closeUp shown ranks).get? recordId = some place ↔
      ∃ entry, (firstSeen (fun entry => shown entry.1) ranks.items)[place - 1]? = some entry ∧
        1 ≤ place ∧ shown entry.1 = recordId := by
  rw [Dict.get?_eq_some_iff, closeUp_items rising, mem_map]
  constructor
  · rintro ⟨⟨entry, index⟩, member, same⟩
    cases same
    obtain ⟨least, found⟩ := mem_zipIdx_iff_le_and_getElem?_sub.mp member
    exact ⟨entry, found, least, rfl⟩
  · rintro ⟨entry, found, least, rfl⟩
    exact ⟨(entry, place), mem_zipIdx_iff_le_and_getElem?_sub.mpr ⟨least, found⟩, rfl⟩

end Arms

/-! ## The forms of a statement -/

def SameStatement (first second : SearchHit) : Prop :=
  first = second ∨
    statementKey first.payload = statementKey second.payload ∧ statementKey first.payload ≠ none

section Statements

variable {pool : ArmPool} {hit top other : SearchHit} {group : List SearchHit}

theorem SameStatement.symm (same : SameStatement hit other) : SameStatement other hit := by
  cases same with
  | inl equal => exact .inl equal.symm
  | inr keys => exact .inr ⟨keys.1.symm, keys.1 ▸ keys.2⟩

theorem SameStatement.trans (first : SameStatement hit top) (second : SameStatement top other) :
    SameStatement hit other := by
  cases first with
  | inl equal => exact equal ▸ second
  | inr keys =>
    cases second with
    | inl equal => exact equal ▸ .inr keys
    | inr more => exact .inr ⟨keys.1.trans more.1, keys.2⟩

theorem mem_groups : group ∈ groups pool ↔
    ∃ key, (∃ hit ∈ pool.hits, statementKey hit.payload = some key) ∧
      group = pool.hits.filter (fun hit => statementKey hit.payload = some key) ∧
        1 < group.length := by
  simp only [groups, mem_filter, mem_map, mem_eraseDups, mem_filterMap, decide_eq_true_eq]
  constructor
  · rintro ⟨⟨key, isKey, rfl⟩, many⟩
    exact ⟨key, isKey, rfl, many⟩
  · rintro ⟨key, isKey, rfl, many⟩
    exact ⟨⟨key, isKey, rfl⟩, many⟩

theorem mem_group_iff (isGroup : group ∈ groups pool) (member : hit ∈ group) :
    other ∈ group ↔ other ∈ pool.hits ∧ SameStatement hit other := by
  obtain ⟨key, -, rfl, -⟩ := mem_groups.mp isGroup
  simp only [mem_filter, decide_eq_true_eq] at member ⊢
  constructor
  · rintro ⟨inPool, isKey⟩
    refine ⟨inPool, .inr ⟨member.2.trans isKey.symm, ?_⟩⟩
    rw [member.2]
    exact Option.some_ne_none key
  · rintro ⟨inPool, equal | ⟨keys, -⟩⟩
    · exact equal ▸ member
    · exact ⟨inPool, keys ▸ member.2⟩

theorem mem_pool_of_mem_group (isGroup : group ∈ groups pool) (member : hit ∈ group) :
    hit ∈ pool.hits :=
  ((mem_group_iff isGroup member).mp member).1

theorem exists_group (inPool : hit ∈ pool.hits)
    (otherInPool : other ∈ pool.hits) (apart : hit ≠ other) (same : SameStatement hit other) :
    ∃ group ∈ groups pool, hit ∈ group := by
  obtain ⟨keys, hasKey⟩ := same.resolve_left apart
  obtain ⟨key, isKey⟩ := Option.ne_none_iff_exists'.mp hasKey
  refine ⟨pool.hits.filter fun hit => statementKey hit.payload = some key, ?_, ?_⟩
  · refine mem_groups.mpr ⟨key, ⟨hit, inPool, isKey⟩, rfl, ?_⟩
    have pair : [hit, other] ⊆
        pool.hits.filter fun hit => statementKey hit.payload = some key := by
      simp [inPool, otherInPool, isKey, ← keys]
    have pairDistinct : [hit, other].Nodup := by simp [apart]
    have counted := (subperm_of_subset pairDistinct pair).length_le
    simp only [length_cons, length_nil] at counted
    omega
  · simp [inPool, isKey]

theorem mem_of_standingFor {ordered : List SearchHit} {turn : SearchHit}
    (stands : standingFor ordered = some turn) : turn ∈ ordered := by
  obtain ⟨kind, -, isFound⟩ := exists_of_findSome?_eq_some stands
  exact mem_of_find?_eq_some isFound

theorem arranged_perm (pool : ArmPool) (group : List SearchHit) :
    (arranged pool group).Perm group := by
  have sorted := perm_insertionSort (fun first second : SearchHit =>
    toLex (-fused pool first.recordId, first.recordId) ≤
      toLex (-fused pool second.recordId, second.recordId)) group
  rw [arranged]
  split
  case h_1 turn stands =>
    exact (perm_cons_erase (mem_of_standingFor stands)).symm.trans sorted
  case h_2 => exact sorted

theorem group_eq {others : List SearchHit} (othersGroup : others ∈ groups pool)
    (member : hit ∈ group) (otherMember : hit ∈ others) (isGroup : group ∈ groups pool) :
    others = group := by
  obtain ⟨key, -, rfl, -⟩ := mem_groups.mp isGroup
  obtain ⟨otherKey, -, rfl, -⟩ := mem_groups.mp othersGroup
  simp only [mem_filter, decide_eq_true_eq] at member otherMember
  rw [Option.some.inj (otherMember.2.symm.trans member.2)]

theorem exists_top (pool : ArmPool) (member : hit ∈ group) :
    ∃ top later, arranged pool group = top :: later ∧ top ∈ group := by
  have forms := arranged_perm pool group
  cases isArranged : arranged pool group with
  | nil =>
    rw [isArranged] at forms
    rw [nil_perm.mp forms] at member
    cases member
  | cons top later =>
    refine ⟨top, later, rfl, ?_⟩
    rw [← forms.mem_iff, isArranged]
    exact mem_cons_self

section Distinct

variable (distinct : (pool.hits.map SearchHit.recordId).Nodup)

include distinct

theorem hit_eq (inPool : hit ∈ pool.hits) (otherInPool : other ∈ pool.hits)
    (same : hit.recordId = other.recordId) : hit = other :=
  inj_on_of_nodup_map distinct inPool otherInPool same

theorem found_group (inPool : hit ∈ pool.hits) (isFound : ((groups pool).map (arranged pool)).find?
      (fun forms => forms.any fun other => other.recordId = hit.recordId) = some forms) :
    ∃ group ∈ groups pool, forms = arranged pool group ∧ hit ∈ group := by
  obtain ⟨group, isGroup, rfl⟩ := mem_map.mp (mem_of_find?_eq_some isFound)
  have hasRecord := find?_some isFound
  simp only [any_eq_true, decide_eq_true_eq] at hasRecord
  obtain ⟨other, isForm, sameId⟩ := hasRecord
  have otherMember := (arranged_perm pool group).mem_iff.mp isForm
  have isHit := hit_eq distinct (mem_pool_of_mem_group isGroup otherMember) inPool sameId
  exact ⟨group, isGroup, rfl, isHit ▸ otherMember⟩

theorem shownIn_group (isGroup : group ∈ groups pool) (member : hit ∈ group) :
    (arranged pool group).head?.map SearchHit.recordId =
      some (shownIn ((groups pool).map (arranged pool)) hit.recordId) := by
  have inPool := mem_pool_of_mem_group isGroup member
  obtain ⟨top, later, isArranged, -⟩ := exists_top pool member
  rw [shownIn]
  cases isFound : ((groups pool).map (arranged pool)).find?
      fun forms => forms.any fun other => other.recordId = hit.recordId with
  | none =>
    have absent := find?_eq_none.mp isFound (arranged pool group) (mem_map_of_mem isGroup)
    refine absurd (any_eq_true.mpr ⟨hit, ?_, decide_eq_true rfl⟩) absent
    exact (arranged_perm pool group).mem_iff.mpr member
  | some forms =>
    obtain ⟨others, othersGroup, rfl, otherMember⟩ := found_group distinct inPool isFound
    rw [group_eq othersGroup member otherMember isGroup, isArranged]
    rfl

section

variable (inPool : hit ∈ pool.hits)
include inPool

theorem shownIn_alone (alone : ∀ group ∈ groups pool, hit ∉ group) :
    shownIn ((groups pool).map (arranged pool)) hit.recordId = hit.recordId := by
  rw [shownIn]
  cases isFound : ((groups pool).map (arranged pool)).find?
      fun forms => forms.any fun other => other.recordId = hit.recordId with
  | none => rfl
  | some forms =>
    obtain ⟨others, othersGroup, -, otherMember⟩ := found_group distinct inPool isFound
    exact absurd otherMember (alone others othersGroup)

theorem shownIn_spec :
    ∃ top ∈ pool.hits, SameStatement hit top ∧
      ∀ other ∈ pool.hits, SameStatement hit other →
        shownIn ((groups pool).map (arranged pool)) other.recordId = top.recordId := by
  by_cases grouped : ∃ group ∈ groups pool, hit ∈ group
  case pos =>
    obtain ⟨group, isGroup, member⟩ := grouped
    obtain ⟨top, later, isArranged, topMember⟩ := exists_top pool member
    have topSame := (mem_group_iff isGroup member).mp topMember
    refine ⟨top, topSame.1, topSame.2, ?_⟩
    intro other otherInPool same
    have isShown := shownIn_group distinct isGroup
      ((mem_group_iff isGroup member).mpr ⟨otherInPool, same⟩)
    rw [isArranged] at isShown
    exact (Option.some.inj isShown).symm
  case neg =>
    push Not at grouped
    refine ⟨hit, inPool, .inl rfl, ?_⟩
    intro other otherInPool same
    by_cases isHit : hit = other
    case pos =>
      subst isHit
      exact shownIn_alone distinct inPool grouped
    case neg =>
      obtain ⟨group, isGroup, member⟩ := exists_group inPool otherInPool isHit same
      exact absurd member (grouped group isGroup)

theorem shownIn_eq_iff (otherInPool : other ∈ pool.hits) :
    shownIn ((groups pool).map (arranged pool)) hit.recordId =
        shownIn ((groups pool).map (arranged pool)) other.recordId ↔
      SameStatement hit other := by
  obtain ⟨top, topInPool, topSame, shows⟩ := shownIn_spec distinct inPool
  obtain ⟨otherTop, otherTopInPool, otherSame, otherShows⟩ := shownIn_spec distinct otherInPool
  constructor
  · intro same
    rw [shows hit inPool (.inl rfl), otherShows other otherInPool (.inl rfl)] at same
    have oneTop := hit_eq distinct topInPool otherTopInPool same
    exact topSame.trans (oneTop ▸ otherSame.symm)
  · intro same
    rw [shows hit inPool (.inl rfl), shows other otherInPool same]

end

theorem mem_forms_iff (inPool : top ∈ pool.hits) :
    (top.recordId, forms) ∈ ((groups pool).map (arranged pool)).filterMap
        (fun forms => forms.head?.map fun first => (first.recordId, forms)) ↔
      ∃ group ∈ groups pool, forms = arranged pool group ∧ forms.head? = some top := by
  simp only [mem_filterMap, mem_map, Option.map_eq_some_iff, Prod.mk.injEq]
  constructor
  · rintro ⟨_, ⟨group, isGroup, rfl⟩, first, isFirst, sameId, rfl⟩
    have firstMember : first ∈ group :=
      (arranged_perm pool group).mem_iff.mp (mem_of_mem_head? isFirst)
    have isTop := hit_eq distinct (mem_pool_of_mem_group isGroup firstMember) inPool sameId
    exact ⟨group, isGroup, rfl, isTop ▸ isFirst⟩
  · rintro ⟨group, isGroup, rfl, isTop⟩
    exact ⟨_, ⟨group, isGroup, rfl⟩, top, isTop, rfl, rfl⟩

theorem formsOf_group (isGroup : group ∈ groups pool) (member : top ∈ group)
    (stands : shownIn ((groups pool).map (arranged pool)) top.recordId = top.recordId) :
    (statements pool).formsOf top = arranged pool group := by
  have inPool := mem_pool_of_mem_group isGroup member
  have isShown := shownIn_group distinct isGroup member
  obtain ⟨first, later, isArranged, firstMember⟩ := exists_top pool member
  rw [isArranged, stands] at isShown
  have isTop := hit_eq distinct (mem_pool_of_mem_group isGroup firstMember) inPool
    (Option.some.inj isShown)
  have someGroup : groups pool ≠ [] := ne_nil_of_mem isGroup
  have isEntry := (mem_forms_iff distinct inPool).mpr
    ⟨group, isGroup, rfl, by rw [isArranged, isTop]; rfl⟩
  rw [statements, if_neg someGroup, ArmPool.formsOf]
  simp only
  cases isFound : List.lookup top.recordId (((groups pool).map (arranged pool)).filterMap
      fun forms => forms.head?.map fun first => (first.recordId, forms)) with
  | none =>
    have absent := lookup_eq_none_iff.mp isFound _ isEntry
    simp at absent
  | some forms =>
    obtain ⟨others, othersGroup, rfl, isHead⟩ :=
      (mem_forms_iff distinct inPool).mp (ReadThrough.mem_of_lookup_eq_some isFound)
    have otherMember : top ∈ others :=
      (arranged_perm pool others).mem_iff.mp (mem_of_mem_head? isHead)
    rw [group_eq othersGroup member otherMember isGroup, Option.getD_some]

theorem formsOf_alone (plain : pool.forms = []) (inPool : top ∈ pool.hits)
    (alone : ∀ group ∈ groups pool, top ∉ group) : (statements pool).formsOf top = [top] := by
  rw [statements]
  split
  case isTrue => rw [ArmPool.formsOf, plain, lookup_nil, Option.getD_none]
  case isFalse =>
    rw [ArmPool.formsOf]
    simp only
    cases isFound : List.lookup top.recordId (((groups pool).map (arranged pool)).filterMap
        fun forms => forms.head?.map fun first => (first.recordId, forms)) with
    | none => rw [Option.getD_none]
    | some forms =>
      obtain ⟨others, othersGroup, rfl, isHead⟩ :=
        (mem_forms_iff distinct inPool).mp (ReadThrough.mem_of_lookup_eq_some isFound)
      have otherMember : top ∈ others :=
        (arranged_perm pool others).mem_iff.mp (mem_of_mem_head? isHead)
      exact absurd otherMember (alone others othersGroup)

theorem mem_formsOf_iff (plain : pool.forms = []) (inPool : top ∈ pool.hits)
    (stands : shownIn ((groups pool).map (arranged pool)) top.recordId = top.recordId) :
    hit ∈ (statements pool).formsOf top ↔ hit ∈ pool.hits ∧ SameStatement top hit := by
  by_cases grouped : ∃ group ∈ groups pool, top ∈ group
  case pos =>
    obtain ⟨group, isGroup, member⟩ := grouped
    rw [formsOf_group distinct isGroup member stands, (arranged_perm pool group).mem_iff,
      mem_group_iff isGroup member]
  case neg =>
    push Not at grouped
    rw [formsOf_alone distinct plain inPool grouped, mem_singleton]
    constructor
    · intro isTop
      exact ⟨isTop ▸ inPool, .inl isTop.symm⟩
    · rintro ⟨hitInPool, same⟩
      by_contra apart
      obtain ⟨group, isGroup, member⟩ := exists_group inPool hitInPool (Ne.symm apart) same
      exact grouped group isGroup member

end Distinct

end Statements

/-! ## The ranks of statements -/

def best (ranks : ArmRanks) (forms : List SearchHit) : Option Nat :=
  (forms.filterMap fun form => ranks.get? form.recordId).min?

/-- An arm lists the statements it had a form of, in the order of their best forms. -/
structure KeepsOrder (grouped : ArmPool) (old new : ArmRanks) : Prop where
  only : ∀ recordId ∈ new.keys, ∃ top ∈ grouped.hits, top.recordId = recordId
  listed : ∀ top ∈ grouped.hits,
    (new.get? top.recordId).isSome = (best old (grouped.formsOf top)).isSome
  order : ∀ first ∈ grouped.hits, ∀ second ∈ grouped.hits,
    ∀ {firstRank secondRank firstBest secondBest : Nat},
      new.get? first.recordId = some firstRank → new.get? second.recordId = some secondRank →
        best old (grouped.formsOf first) = some firstBest →
          best old (grouped.formsOf second) = some secondBest →
            (firstRank < secondRank ↔ firstBest < secondBest)
  alone : ∀ top ∈ grouped.hits, grouped.formsOf top = [top] → ∀ {rank : Nat},
    old.get? top.recordId = some rank → ∃ better ≤ rank, new.get? top.recordId = some better

theorem best_singleton (ranks : ArmRanks) (hit : SearchHit) :
    best ranks [hit] = ranks.get? hit.recordId := by
  rw [best, filterMap_cons]
  cases ranks.get? hit.recordId <;> rfl

theorem keepsOrder_self {pool : ArmPool} {ranks : ArmRanks}
    (alone : ∀ hit ∈ pool.hits, pool.formsOf hit = [hit])
    (only : ∀ recordId ∈ ranks.keys, ∃ hit ∈ pool.hits, hit.recordId = recordId) :
    KeepsOrder pool ranks ranks where
  only := only
  listed top member := by rw [alone top member, best_singleton]
  order := by
    intro first firstMember second secondMember firstRank secondRank firstBest secondBest
      isFirst isSecond isFirstBest isSecondBest
    rw [alone first firstMember, best_singleton, isFirst] at isFirstBest
    rw [alone second secondMember, best_singleton, isSecond] at isSecondBest
    rw [Option.some.inj isFirstBest, Option.some.inj isSecondBest]
  alone := by
    intro top _ _ rank isRank
    exact ⟨rank, Nat.le_refl rank, isRank⟩

section CloseUp

variable {ranks : ArmRanks} {shown : String → String} {hits forms : List SearchHit}
  {recordId : String}

theorem best_eq_some_iff (isForm : ∀ hit, hit ∈ forms ↔ hit ∈ hits ∧ shown hit.recordId = recordId)
    (known : ∀ recordId ∈ ranks.keys, ∃ hit ∈ hits, hit.recordId = recordId) {rank : Nat} :
    best ranks forms = some rank ↔
      (∃ entry ∈ ranks.items, shown entry.1 = recordId ∧ entry.2 = rank) ∧
        ∀ entry ∈ ranks.items, shown entry.1 = recordId → rank ≤ entry.2 := by
  have ofForms : ∀ {place : Nat},
      place ∈ forms.filterMap (fun form => ranks.get? form.recordId) ↔
        ∃ entry ∈ ranks.items, shown entry.1 = recordId ∧ entry.2 = place := by
    intro place
    simp only [mem_filterMap, Dict.get?_eq_some_iff, isForm]
    constructor
    · rintro ⟨form, ⟨-, isShown⟩, member⟩
      exact ⟨_, member, isShown, rfl⟩
    · rintro ⟨⟨formId, place⟩, member, isShown, rfl⟩
      obtain ⟨form, isHit, rfl⟩ := known formId (mem_map_of_mem member)
      exact ⟨form, ⟨isHit, isShown⟩, member⟩
  rw [best, min?_eq_some_iff, ofForms]
  refine and_congr_right fun _ => ?_
  constructor
  · intro least entry member isShown
    exact least entry.2 (ofForms.mpr ⟨entry, member, isShown, rfl⟩)
  · intro least place isPlace
    obtain ⟨entry, member, isShown, rfl⟩ := ofForms.mp isPlace
    exact least entry member isShown

theorem best_of_place (rising : Rising ranks)
    (isForm : ∀ hit, hit ∈ forms ↔ hit ∈ hits ∧ shown hit.recordId = recordId)
    (known : ∀ recordId ∈ ranks.keys, ∃ hit ∈ hits, hit.recordId = recordId)
    (isPlace : (closeUp shown ranks).get? recordId = some place) :
    ∃ entry, (firstSeen (fun entry => shown entry.1) ranks.items)[place - 1]? = some entry ∧
      1 ≤ place ∧ best ranks forms = some entry.2 := by
  obtain ⟨entry, isEntry, positive, isShown⟩ := (mem_closeUp rising).mp isPlace
  have isFirst := mem_of_getElem? isEntry
  refine ⟨entry, isEntry, positive, (best_eq_some_iff isForm known).mpr ⟨?_, ?_⟩⟩
  · exact ⟨entry, mem_of_mem_firstSeen isFirst, isShown, rfl⟩
  · intro other member otherShown
    exact firstSeen_le rising isFirst member (otherShown.trans isShown.symm)

variable (shown) in
theorem place_of_entry (rising : Rising ranks) (member : entry ∈ ranks.items) :
    ∃ place, (closeUp shown ranks).get? (shown entry.1) = some place := by
  obtain ⟨kept, isKept, same⟩ := exists_firstSeen (fun entry : String × Nat => shown entry.1) member
  obtain ⟨index, inside, isAt⟩ := getElem_of_mem isKept
  refine ⟨index + 1, (mem_closeUp rising).mpr ⟨kept, ?_, by omega, same⟩⟩
  rw [Nat.add_sub_cancel, getElem?_eq_getElem inside, isAt]

theorem place_le {items : List (String × Nat)}
    (rising : items.Pairwise fun first second => first.2 < second.2)
    (positive : ∀ entry ∈ items, 1 ≤ entry.2)
    (isAt : items[place]? = some entry) : place + 1 ≤ entry.2 := by
  induction place generalizing entry with
  | zero => exact positive entry (mem_of_getElem? isAt)
  | succ place ih =>
    obtain ⟨inside, isEntry⟩ := List.getElem?_eq_some_iff.mp isAt
    have before := ih (getElem?_eq_getElem (by omega))
    have less := pairwise_iff_getElem.mp rising place (place + 1) (by omega) inside (by omega)
    rw [isEntry] at less
    omega

theorem keepsOrder_closeUp {grouped : ArmPool} (rising : Rising ranks)
    (positive : ∀ entry ∈ ranks.items, 1 ≤ entry.2)
    (known : ∀ recordId ∈ ranks.keys, ∃ hit ∈ hits, hit.recordId = recordId)
    (isTop : ∀ hit ∈ hits, ∃ top ∈ grouped.hits, top.recordId = shown hit.recordId)
    (isForm : ∀ top ∈ grouped.hits, ∀ hit,
      hit ∈ grouped.formsOf top ↔ hit ∈ hits ∧ shown hit.recordId = top.recordId) :
    KeepsOrder grouped ranks (closeUp shown ranks) where
  only := by
    intro recordId isKey
    obtain ⟨place, isPlace⟩ := Dict.exists_get? isKey
    obtain ⟨entry, isEntry, -, rfl⟩ := (mem_closeUp rising).mp isPlace
    have member := mem_of_mem_firstSeen (mem_of_getElem? isEntry)
    obtain ⟨hit, isHit, sameId⟩ := known entry.1 (mem_map_of_mem member)
    rw [← sameId]
    exact isTop hit isHit
  listed := by
    intro top topMember
    cases isPlace : (closeUp shown ranks).get? top.recordId with
    | some place =>
      obtain ⟨entry, -, -, isBest⟩ := best_of_place rising (isForm top topMember) known isPlace
      rw [isBest]
      rfl
    | none =>
      cases isBest : best ranks (grouped.formsOf top) with
      | none => rfl
      | some rank =>
        obtain ⟨⟨entry, member, isShown, -⟩, -⟩ :=
          (best_eq_some_iff (isForm top topMember) known).mp isBest
        obtain ⟨place, isThere⟩ := place_of_entry shown rising member
        rw [isShown, isPlace] at isThere
        cases isThere
  order := by
    intro first firstMember second secondMember firstRank secondRank firstBest secondBest
      isFirst isSecond isFirstBest isSecondBest
    obtain ⟨firstEntry, firstAt, firstPositive, firstIs⟩ :=
      best_of_place rising (isForm first firstMember) known isFirst
    obtain ⟨secondEntry, secondAt, secondPositive, secondIs⟩ :=
      best_of_place rising (isForm second secondMember) known isSecond
    have firstSame := Option.some.inj (firstIs.symm.trans isFirstBest)
    have secondSame := Option.some.inj (secondIs.symm.trans isSecondBest)
    have rises : ∀ {i j : Nat} {a b : String × Nat},
        (firstSeen (fun entry => shown entry.1) ranks.items)[i]? = some a →
          (firstSeen (fun entry => shown entry.1) ranks.items)[j]? = some b →
            i < j → a.2 < b.2 := by
      intro i j a b isA isB less
      obtain ⟨insideA, rfl⟩ := List.getElem?_eq_some_iff.mp isA
      obtain ⟨insideB, rfl⟩ := List.getElem?_eq_some_iff.mp isB
      exact pairwise_iff_getElem.mp (rising.sublist (firstSeen_sublist _ _)) i j insideA
        insideB less
    rw [← firstSame, ← secondSame]
    constructor
    · intro less
      exact rises firstAt secondAt (by omega)
    · intro less
      rcases Nat.lt_trichotomy (firstRank - 1) (secondRank - 1) with isLess | isSame | isMore
      · omega
      · rw [isSame, secondAt] at firstAt
        rw [Option.some.inj firstAt] at less
        omega
      · have reverse := rises secondAt firstAt isMore
        omega
  alone := by
    intro top topMember isAlone rank isRank
    have inItems := Dict.get?_eq_some_iff.mp isRank
    have topShown : shown top.recordId = top.recordId :=
      ((isForm top topMember top).mp (by simp [isAlone])).2
    obtain ⟨place, isPlace⟩ := place_of_entry shown rising inItems
    rw [topShown] at isPlace
    obtain ⟨entry, isAt, placePositive, isShown⟩ := (mem_closeUp rising).mp isPlace
    have isFirst := mem_of_getElem? isAt
    have below := place_le (rising.sublist (firstSeen_sublist _ _))
      (fun entry member => positive entry (mem_of_mem_firstSeen member)) isAt
    have least := firstSeen_le rising isFirst inItems (topShown.trans isShown.symm)
    exact ⟨place, by omega, isPlace⟩

end CloseUp

/-! ## Lists without gaps -/

def RepeatsLast (records : List String) : Prop :=
  ∃ first again, records = first ++ again ∧ first.Nodup ∧ ∀ recordId ∈ again, recordId ∈ first

def HasForms (pool : ArmPool) : Prop :=
  ∃ first ∈ pool.hits, ∃ second ∈ pool.hits, first ≠ second ∧ SameStatement first second

def Closed (ranks : ArmRanks) : Prop := ranks.items.map Prod.snd = List.range' 1 ranks.items.length

theorem ranked_closed_iff (listed : List SearchHit) :
    Closed (ranked listed) ↔ RepeatsLast (listed.map SearchHit.recordId) := by
  have isClosed : Closed (ranked listed) ↔
      (firstSeen (fun entry => entry.1.recordId) (listed.zipIdx 1)).map Prod.snd =
        List.range' 1 (firstSeen (fun entry => entry.1.recordId) (listed.zipIdx 1)).length := by
    rw [Closed, ranked, map_map, length_map]
    rfl
  rw [isClosed]
  have distinct := keys_firstSeen_nodup (fun entry : SearchHit × Nat => entry.1.recordId)
    (listed.zipIdx 1)
  have covers : ∀ entry ∈ listed.zipIdx 1, ∃ kept ∈ firstSeen
      (fun entry : SearchHit × Nat => entry.1.recordId) (listed.zipIdx 1),
      kept.1.recordId = entry.1.recordId := fun entry member => exists_firstSeen _ member
  have inside : ∀ entry ∈ firstSeen (fun entry : SearchHit × Nat => entry.1.recordId)
      (listed.zipIdx 1), entry ∈ listed.zipIdx 1 := fun entry => mem_of_mem_firstSeen
  constructor
  · intro closed
    generalize firstSeen (fun entry => entry.1.recordId) (listed.zipIdx 1) = kept at *
    -- the entry at a place has the place as its rank, and so the hit of that place
    have atPlace : ∀ place (isInside : place < kept.length),
        listed[place]? = some kept[place].1 := by
      intro place isInside
      have isRank : kept[place].2 = place + 1 := by
        have ranks : (kept.map Prod.snd)[place]? = (List.range' 1 kept.length)[place]? := by
          rw [closed]
        rw [getElem?_map, getElem?_eq_getElem isInside, getElem?_range' isInside] at ranks
        simpa [Nat.add_comm] using ranks
      have isListed := mem_zipIdx_iff_le_and_getElem?_sub.mp
        (inside kept[place] (getElem_mem isInside))
      rw [isRank, Nat.add_sub_cancel] at isListed
      exact isListed.2
    have isStart : kept.map Prod.fst = listed.take kept.length := by
      apply ext_getElem?
      intro place
      by_cases isInside : place < kept.length
      case pos =>
        rw [getElem?_take_of_lt isInside, atPlace place isInside]
        simp [isInside]
      case neg =>
        rw [getElem?_eq_none (by simp; omega), getElem?_eq_none (by simp; omega)]
    refine ⟨(listed.take kept.length).map SearchHit.recordId,
      (listed.drop kept.length).map SearchHit.recordId, ?_, ?_, ?_⟩
    · rw [← map_append, take_append_drop]
    · rw [← isStart, map_map]
      exact distinct
    · intro recordId isAgain
      obtain ⟨hit, member, rfl⟩ := mem_map.mp isAgain
      obtain ⟨place, isInside, isHit⟩ := getElem_of_mem (mem_of_mem_drop member)
      obtain ⟨entry, isKept, same⟩ := covers (hit, place + 1) (by
        rw [mem_zipIdx_iff_le_and_getElem?_sub]
        simp [← isHit])
      rw [← isStart, map_map]
      exact mem_map.mpr ⟨entry, isKept, same⟩
  · rintro ⟨first, again, isSplit, firstDistinct, seen⟩
    obtain ⟨start, rest, rfl, rfl, rfl⟩ := map_eq_append_iff.mp isSplit
    have startKept : firstSeen (fun entry : SearchHit × Nat => entry.1.recordId)
        (start.zipIdx 1) = start.zipIdx 1 := by
      apply firstSeen_of_nodup
      rw [← zipIdx_map_fst 1 start, map_map] at firstDistinct
      exact firstDistinct
    have nothingNew : firstSeen (fun entry : SearchHit × Nat => entry.1.recordId)
        ((start ++ rest).zipIdx 1) = start.zipIdx 1 := by
      rw [zipIdx_append, firstSeen_append_of_seen, startKept]
      intro entry isLater
      have isRest := fst_mem_of_mem_zipIdx isLater
      obtain ⟨hit, member, same⟩ := mem_map.mp (seen _ (mem_map_of_mem isRest))
      obtain ⟨place, isInside, isHit⟩ := getElem_of_mem member
      refine ⟨(hit, place + 1), ?_, same⟩
      rw [mem_zipIdx_iff_le_and_getElem?_sub]
      simp [← isHit]
    rw [nothingNew, zipIdx_map_snd, length_zipIdx]

/-! ## Grouping the pool of some arms -/

/-- Every record is shown or a form of one record that is. -/
structure Partitioned (pool grouped : ArmPool) : Prop where
  kept : grouped.hits.Sublist pool.hits
  own : ∀ top ∈ grouped.hits, top ∈ grouped.formsOf top
  known : ∀ top ∈ grouped.hits, ∀ form ∈ grouped.formsOf top, form ∈ pool.hits
  one : ∀ hit ∈ pool.hits, ∃! top, top ∈ grouped.hits ∧ hit ∈ grouped.formsOf top

section Grouped

variable {pool : ArmPool}

theorem groups_eq_nil_iff (distinct : pool.hits.Nodup) : groups pool = [] ↔ ¬HasForms pool := by
  constructor
  · rintro isEmpty ⟨first, firstInPool, second, secondInPool, apart, same⟩
    obtain ⟨group, isGroup, -⟩ := exists_group firstInPool secondInPool apart same
    rw [isEmpty] at isGroup
    cases isGroup
  · intro noForms
    by_contra someGroup
    obtain ⟨group, isGroup⟩ := exists_mem_of_ne_nil _ someGroup
    obtain ⟨key, -, isFilter, many⟩ := mem_groups.mp isGroup
    have groupDistinct : group.Nodup := isFilter ▸ distinct.filter _
    match group, many, groupDistinct with
    | first :: second :: later, _, groupDistinct =>
      have apart : first ≠ second := by
        intro isSame
        simp [isSame] at groupDistinct
      have firstIn : first ∈ first :: second :: later := mem_cons_self
      have both := (mem_group_iff isGroup firstIn).mp
        (mem_cons_of_mem first (mem_cons_self (a := second)))
      exact noForms ⟨first, mem_pool_of_mem_group isGroup (by simp), second, both.1, apart, both.2⟩

section Distinct

variable (distinct : (pool.hits.map SearchHit.recordId).Nodup) (plain : pool.forms = [])

theorem hits_statements : (statements pool).hits = pool.hits.filter fun hit =>
      shownIn ((groups pool).map (arranged pool)) hit.recordId = hit.recordId := by
  rw [statements]
  split
  case isTrue isEmpty =>
    symm
    rw [filter_eq_self, isEmpty]
    intro hit _
    exact decide_eq_true rfl
  case isFalse => rfl

include distinct

theorem exists_shown {hit : SearchHit} (inPool : hit ∈ pool.hits) :
    ∃ top ∈ (statements pool).hits,
      top.recordId = shownIn ((groups pool).map (arranged pool)) hit.recordId := by
  obtain ⟨top, topInPool, same, shows⟩ := shownIn_spec distinct inPool
  refine ⟨top, ?_, (shows hit inPool (.inl rfl)).symm⟩
  rw [hits_statements, mem_filter]
  exact ⟨topInPool, decide_eq_true (shows top topInPool same)⟩

include plain

theorem mem_formsOf_shown {top : SearchHit} (isTop : top ∈ (statements pool).hits)
    (hit : SearchHit) :
    hit ∈ (statements pool).formsOf top ↔ hit ∈ pool.hits ∧
      shownIn ((groups pool).map (arranged pool)) hit.recordId = top.recordId := by
  rw [hits_statements, mem_filter, decide_eq_true_eq] at isTop
  obtain ⟨inPool, stands⟩ := isTop
  rw [mem_formsOf_iff distinct plain inPool stands]
  refine and_congr_right fun hitInPool => ?_
  rw [← shownIn_eq_iff distinct inPool hitInPool, stands]
  exact eq_comm

theorem partitioned_statements : Partitioned pool (statements pool) where
  kept := by
    rw [hits_statements]
    exact filter_sublist
  own top isTop := by
    rw [mem_formsOf_shown distinct plain isTop]
    rw [hits_statements, mem_filter, decide_eq_true_eq] at isTop
    exact isTop
  known top isTop form isForm := ((mem_formsOf_shown distinct plain isTop form).mp isForm).1
  one := by
    intro hit inPool
    obtain ⟨top, isTop, isShown⟩ := exists_shown distinct inPool
    refine ⟨top, ⟨isTop, ?_⟩, ?_⟩
    · exact (mem_formsOf_shown distinct plain isTop hit).mpr ⟨inPool, isShown.symm⟩
    · rintro other ⟨otherTop, isForm⟩
      have otherShown := ((mem_formsOf_shown distinct plain otherTop hit).mp isForm).2
      have fewer : (statements pool).hits.Sublist pool.hits := by
        rw [hits_statements]
        exact filter_sublist
      exact hit_eq distinct (fewer.subset otherTop) (fewer.subset isTop)
        (otherShown.symm.trans isShown.symm)

omit plain in
theorem groups_statements : groups (statements pool) = [] := by
  have fewer : (statements pool).hits.Sublist pool.hits := by
    rw [hits_statements]
    exact filter_sublist
  rw [groups_eq_nil_iff (fewer.nodup (List.Nodup.of_map _ distinct))]
  rintro ⟨first, firstTop, second, secondTop, apart, same⟩
  rw [hits_statements, mem_filter, decide_eq_true_eq] at firstTop secondTop
  have shownSame := (shownIn_eq_iff distinct firstTop.1 secondTop.1).mpr same
  rw [firstTop.2, secondTop.2] at shownSame
  exact apart (hit_eq distinct firstTop.1 secondTop.1 shownSame)

end Distinct

end Grouped

/-- Grouping keeps the ranking: the records are parted into statements, every arm lists them in
the order of their best forms, without a gap wherever the pool has a statement of two forms or
the arm's own list had none, and grouping again changes nothing. -/
theorem forms_keep_ranking (arms : Dict VectorName (List SearchHit)) :
    Partitioned (ArmPool.of arms) (statements (ArmPool.of arms)) ∧
      (statements (ArmPool.of arms)).ranks.keys = arms.keys ∧
      (∀ name listed, arms.get? name = some listed →
        ∃ new, (statements (ArmPool.of arms)).ranks.get? name = some new ∧
          KeepsOrder (statements (ArmPool.of arms)) (ranked listed) new ∧
          (Closed new ↔ HasForms (ArmPool.of arms) ∨ RepeatsLast (listed.map SearchHit.recordId))) ∧
      statements (statements (ArmPool.of arms)) = statements (ArmPool.of arms) := by
  have distinct : ((ArmPool.of arms).hits.map SearchHit.recordId).Nodup := keys_firstSeen_nodup _ _
  have hitsDistinct := List.Nodup.of_map _ distinct
  have plain : (ArmPool.of arms).forms = [] := rfl
  have known : ∀ name listed, arms.get? name = some listed →
      ∀ recordId ∈ (ranked listed).keys,
        ∃ hit ∈ (ArmPool.of arms).hits, hit.recordId = recordId := by
    intro name listed isArm recordId isKey
    obtain ⟨hit, member, rfl⟩ := mem_keys_ranked.mp isKey
    have isListed : hit ∈ arms.items.flatMap Prod.snd :=
      mem_flatMap.mpr ⟨(name, listed), Dict.get?_eq_some_iff.mp isArm, member⟩
    exact exists_firstSeen _ isListed
  refine ⟨partitioned_statements distinct plain, ?_, ?_, ?_⟩
  · rw [statements]
    split
    · exact Dict.keys_mapValues ranked arms
    · exact (Dict.keys_mapValues _ _).trans (Dict.keys_mapValues ranked arms)
  · intro name listed isArm
    have isRanked : (ArmPool.of arms).ranks.get? name = some (ranked listed) := by
      rw [ArmPool.of, Dict.get?_mapValues, isArm]
      rfl
    by_cases isEmpty : groups (ArmPool.of arms) = []
    case pos =>
      have unchanged : statements (ArmPool.of arms) = ArmPool.of arms := by
        rw [statements, if_pos isEmpty]
      have noForms := (groups_eq_nil_iff hitsDistinct).mp isEmpty
      rw [unchanged]
      refine ⟨ranked listed, isRanked, ?_, ?_⟩
      · exact keepsOrder_self (fun hit _ => rfl) (known name listed isArm)
      · rw [ranked_closed_iff, or_iff_right noForms]
    case neg =>
      have hasForms : HasForms (ArmPool.of arms) :=
        not_not.mp fun noForms => isEmpty ((groups_eq_nil_iff hitsDistinct).mpr noForms)
      refine ⟨closeUp (shownIn ((groups (ArmPool.of arms)).map (arranged (ArmPool.of arms))))
        (ranked listed), ?_, ?_, ?_⟩
      · rw [statements, if_neg isEmpty]
        simp only [Dict.get?_mapValues, isRanked, Option.map_some]
      · exact keepsOrder_closeUp (ranked_rising listed) (fun entry => rank_pos)
          (known name listed isArm) (fun hit inPool => exists_shown distinct inPool)
          (fun top isTop => mem_formsOf_shown distinct plain isTop)
      · exact iff_of_true (closeUp_closed _ _) (.inl hasForms)
  · rw [statements, if_pos (groups_statements distinct)]

def repeating : Dict VectorName (List SearchHit) where
  items := [(.bm25, [{ recordId := "mem_1" }, { recordId := "mem_1" }, { recordId := "mem_2" }])]
  distinct := by decide

theorem repeated_record_leaves_gap :
    ¬∀ (arms : Dict VectorName (List SearchHit)) (name : VectorName) (new : ArmRanks),
      (statements (ArmPool.of arms)).ranks.get? name = some new → Closed new := by
  intro closed
  have isGap : (statements (ArmPool.of repeating)).ranks.get? .bm25 =
      some (ranked
        [{ recordId := "mem_1" }, { recordId := "mem_1" }, { recordId := "mem_2" }]) :=
    rfl
  have absurdly := closed repeating .bm25 _ isGap
  revert absurdly
  rw [Closed]
  decide

end MemoryService.Retrieval.Forms
