import MemoryService.Memory.Relating

/-!
# Pairs that are related

The relation of two statements is the same in either order, and what it keeps apart shares
nothing.
-/

namespace MemoryService.Memory.Relating

open Domain Foundation Foundation.Regex List

variable {unicode : Unicode} {new old : Anchors} {newText oldText : String}

theorem clashing_comm (new old : Anchors) : clashing new old = clashing old new := by
  rw [clashing, clashing, Finset.inter_comm new.labels, Finset.inter_comm (codes new)]
  refine congrArg₂ (· ∪ ·) (Finset.filter_congr fun label _ => ?_) (if_congr ?_ rfl rfl)
  · rw [Finset.inter_comm]
  · exact and_left_comm

theorem RunOf.length_lt {short long : String} (run : RunOf short long) :
    short.length < long.length := by
  obtain ⟨apart, inside, -⟩ := run
  have lengths := inside.length_le
  simp only [length_append, length_cons, String.length_toList] at lengths
  rcases Nat.lt_or_eq_of_le (show short.length ≤ long.length by omega) with less | same
  · exact less
  · have whole := inside.eq_of_length (by
      simp only [length_append, length_cons, String.length_toList, same])
    simp only [cons_append, List.cons.injEq, append_cancel_right_eq, true_and] at whole
    exact absurd (String.toList_inj.mp whole) apart

theorem mem_commonNames {a b : Finset String} {name : String} :
    name ∈ commonNames a b ↔
      (name ∈ a ∧ name ∈ b) ∨ (name ∈ a ∧ ∃ long ∈ b, RunOf name long) ∨
        (name ∈ b ∧ ∃ long ∈ a, RunOf name long) := by
  rw [commonNames, Finset.mem_union, Finset.mem_inter]
  refine or_congr Iff.rfl ?_
  simp only [Finset.mem_image, Finset.mem_filter, Finset.mem_product, Prod.exists]
  constructor
  · rintro ⟨short, long, ⟨⟨x, y, ⟨inA, inB⟩, ordered⟩, run⟩, rfl⟩
    rw [byLength] at ordered
    split at ordered
    · cases ordered
      exact .inl ⟨inA, _, inB, run⟩
    · cases ordered
      exact .inr ⟨inB, _, inA, run⟩
  · rintro (⟨inA, long, inB, run⟩ | ⟨inB, long, inA, run⟩)
    · refine ⟨name, long, ⟨⟨name, long, ⟨inA, inB⟩, ?_⟩, run⟩, rfl⟩
      exact if_pos (Nat.le_of_lt run.length_lt)
    · refine ⟨name, long, ⟨⟨long, name, ⟨inA, inB⟩, ?_⟩, run⟩, rfl⟩
      exact if_neg (Nat.not_le_of_lt run.length_lt)

theorem commonNames_comm (a b : Finset String) : commonNames a b = commonNames b a := by
  ext name
  rw [mem_commonNames, mem_commonNames]
  exact or_congr and_comm or_comm

theorem common_comm : common unicode new old newText oldText =
    common unicode old new oldText newText := by
  rw [common, common, commonNames_comm, Finset.inter_comm new.bare, Finset.union_comm
    (codeLabels unicode newText)]

theorem rescuing_comm : rescuing unicode new old newText oldText =
    rescuing unicode old new oldText newText := by
  rw [rescuing, rescuing, common_comm, clashing_comm]

theorem changed_comm (ids : Finset (String × String)) :
    changed unicode newText oldText ids = changed unicode oldText newText ids :=
  Bool.and_comm _ _

theorem relate_comm (unicode : Unicode) (new old : Anchors) (newText oldText : String) :
    relate unicode new old newText oldText = relate unicode old new oldText newText := by
  rw [relate, relate, clashing_comm new old, common_comm, rescuing_comm, changed_comm,
    Finset.inter_comm new.values, Finset.union_comm new.ids, Bool.and_comm (newText ≠ "")]

theorem apart_excludes (apart : (relate unicode new old newText oldText).apart = true) :
    (relate unicode new old newText oldText).anchored = false ∧
      (relate unicode new old newText oldText).valueChanged = false := by
  simp only [relate, Bool.and_eq_true, Bool.not_eq_true'] at apart
  obtain ⟨⟨clashes, notShared⟩, notRescued⟩ := apart
  simp only [relate, Relation.anchored, clashes, notShared, notRescued]
  simp

theorem not_related_of_apart {relation : Relation} (apart : relation.apart = true)
    (cosine : Option Rat) : related relation cosine = false := if_pos apart

theorem no_grade_of_apart {relation : Relation} (apart : relation.apart = true)
    (decimals : Rat → String) (scores : PairScores) (kinds : List (Option StatementKind))
    (t : Thresholds) : (decide_ decimals relation scores kinds t).grade = none := by
  rw [decide_, if_pos (not_related_of_apart apart scores.cosine)]

namespace StatementReader

variable {reader : StatementReader} {unit old : Said} {newSlots : Slots}
  {oldSlots : EvidenceRef → Slots} {pair : Pair}

structure Offered (reader : StatementReader) (unicode : Unicode) (newSlots : Slots)
    (oldSlots : EvidenceRef → Slots) (pair : Pair) : Prop where
  together : pair.relation.apart = false
  bySlot : (reader.ofAnchors unicode pair.unit pair.old).apart = true →
    reader.slotsChanged pair.unit pair.old newSlots oldSlots = true

theorem of_pair_offer {held : Pair} {linked ruled : Bool}
    (taken : held.offer linked ruled = .offered pair ∨ held.offer linked ruled = .pending pair) :
    held = pair ∧ pair.relation.apart = false := by
  rw [Pair.offer] at taken
  split at taken
  case isTrue _ => rcases taken with isOffered | isPending <;> contradiction
  case isFalse together =>
    rw [Bool.not_eq_true] at together
    have isHeld : held = pair := by
      split at taken
      · rcases taken with isOffered | isPending <;> contradiction
      · split at taken
        · rcases taken with isOffered | isPending
          · exact Offer.offered.inj isOffered
          · contradiction
        · split at taken
          · rcases taken with isOffered | isPending
            · contradiction
            · exact Offer.pending.inj isPending
          · rcases taken with isOffered | isPending <;> contradiction
    exact ⟨isHeld, isHeld ▸ together⟩

theorem offered_of_offer
    (taken : reader.offer unicode unit old newSlots oldSlots = .offered pair ∨
      reader.offer unicode unit old newSlots oldSlots = .pending pair) :
    reader.Offered unicode newSlots oldSlots pair := by
  rw [offer] at taken
  split at taken
  case isTrue _ => rcases taken with isOffered | isPending <;> contradiction
  case isFalse _ =>
    split at taken
    case isTrue _ => rcases taken with isOffered | isPending <;> contradiction
    case isFalse _ =>
      obtain ⟨rfl, together⟩ := of_pair_offer taken
      refine ⟨together, fun apart => ?_⟩
      by_contra same
      rw [Bool.not_eq_true] at same
      dsimp only at same apart together
      rw [slotRelation, same] at together
      exact absurd (apart.symm.trans together) (by decide)

theorem offered_of_related {units earlier closed : List Said} {pair : Pair}
    (member : pair ∈ reader.relatedPairs unicode units earlier newSlots closed) :
    reader.Offered unicode newSlots (reader.slotsBySource (earlier ++ closed)) pair := by
  rw [relatedPairs] at member
  rcases mem_append.mp member with isOffered | isClose
  · obtain ⟨taken, isOffer, isPair⟩ := mem_filterMap.mp isOffered
    obtain ⟨unit, -, inUnit⟩ := mem_flatMap.mp isOffer
    obtain ⟨old, -, rfl⟩ := mem_map.mp inUnit
    split at isPair
    case h_1 held isHeld =>
      rw [Option.some.inj isPair] at isHeld
      exact offered_of_offer (.inl isHeld)
    case h_2 _ => cases isPair
  · rw [closeEnough] at isClose
    split at isClose
    case h_1 _ => cases isClose
    case h_2 cosine _ =>
      obtain ⟨held, isHeld, rfl⟩ := mem_map.mp (mem_filter.mp isClose).1
      obtain ⟨taken, isOffer, isPair⟩ := mem_filterMap.mp isHeld
      obtain ⟨unit, -, inUnit⟩ := mem_flatMap.mp isOffer
      obtain ⟨old, -, rfl⟩ := mem_map.mp inUnit
      split at isPair
      case h_1 pending isPending =>
        rw [Option.some.inj isPair] at isPending
        have offered := offered_of_offer (.inr isPending)
        exact ⟨offered.together, offered.bySlot⟩
      case h_2 _ => cases isPair

end StatementReader

/-- The relation is the same both ways; what it finds apart is neither anchored nor changed and
gets no grade; and such a pair comes to the decision only where a slot has another value, which
makes the two one thing again. -/
theorem relation_symmetric_and_exclusive (unicode : Unicode) (new old : Anchors)
    (newText oldText : String) :
    relate unicode new old newText oldText = relate unicode old new oldText newText ∧
      ((relate unicode new old newText oldText).apart = true →
        (relate unicode new old newText oldText).anchored = false ∧
          (relate unicode new old newText oldText).valueChanged = false ∧
            ∀ decimals scores kinds t, (decide_ decimals
              (relate unicode new old newText oldText) scores kinds t).grade = none) ∧
      ∀ (reader : StatementReader) (units earlier : List Said) (newSlots : Slots)
        (closed : List Said), ∀ pair ∈ reader.relatedPairs unicode units earlier newSlots closed,
          reader.Offered unicode newSlots (reader.slotsBySource (earlier ++ closed)) pair := by
  refine ⟨relate_comm unicode new old newText oldText, fun apart => ?_, ?_⟩
  · obtain ⟨notAnchored, notChanged⟩ := apart_excludes apart
    exact ⟨notAnchored, notChanged, no_grade_of_apart apart⟩
  · intro reader units earlier newSlots closed pair member
    exact StatementReader.offered_of_related member

theorem relation_symmetric_and_exclusive_bikes :
    (relate latin { ids := {("bike", "3")} } { ids := {("bike", "4")} } "Bike #3 is red."
        "Bike #4 is blue.").apart = true ∧
      (relate latin { ids := {("bike", "3")} } { ids := {("bike", "4")} } "Bike #3 is red."
        "Bike #4 is blue.").valueChanged = false :=
  ⟨by decide +kernel, ((relation_symmetric_and_exclusive latin _ _ _ _).2.1
    (by decide +kernel)).2.1⟩

def firstFlat : Said where
  memory :=
    { memoryId := "mem_flat3"
      tenantId := "t1"
      memoryType := .semantic
      content := "I live in flat 3 in Leeds."
      normalizedHash := ⟨"f1a3", rfl⟩
      subject := some "user"
      predicate := some "lives_in"
      object := some "flat 3 in leeds"
      temporal := { observedAt := ⟨1⟩ }
      evidence := [⟨.message, "msg_flat3"⟩]
      updatedAt := ⟨1⟩ }

def nextFlat : Said where
  memory :=
    { memoryId := "mem_flat4"
      tenantId := "t1"
      memoryType := .semantic
      content := "I moved to flat 4 in Bristol."
      normalizedHash := ⟨"f1a4", rfl⟩
      subject := some "user"
      predicate := some "lives_in"
      object := some "flat 4 in bristol"
      temporal := { observedAt := ⟨2⟩ }
      evidence := [⟨.message, "msg_flat4"⟩]
      updatedAt := ⟨2⟩ }

def ownSlot (said : Said) : Slots :=
  match said.memory.subject, said.memory.predicate, said.memory.object with
  | some subject, some predicate, some value => Dict.ofList [((subject, predicate), {value})]
  | _, _, _ => ∅

def flatReader : StatementReader where
  anchors text _ :=
    if text = firstFlat.content then { names := {"leeds"}, ids := {("flat", "3")} }
    else { names := {"bristol"}, ids := {("flat", "4")} }
  spokenSlots _ := ∅
  slotsOf memories := (memories.head?.map ownSlot).getD ∅
  links _ _ := false
  isRule _ := false
  cosine := none

/-- The two labels clash and nothing else is shared, and the older statement is marked all the
same: the person's slot has another value. -/
theorem apart_and_marked :
    (flatReader.ofAnchors latin nextFlat firstFlat).apart = true ∧
      (flatReader.relatedPairs latin [nextFlat] [firstFlat] (ownSlot nextFlat) []).map (fun pair =>
        (decide_ (fun _ => "0.86") pair.relation { contradiction := 43 / 50 } [] {}).grade) =
          [some .earlier] := by
  decide +kernel

end MemoryService.Memory.Relating
