import MemoryService.Context.Completeness
import MemoryService.Foundation.Spending
import MemoryService.Foundation.Transition

/-!
# What a bundle charges for

A candidate is left out, comes with its unit, or comes alone.
-/

namespace MemoryService.Context

open Domain Foundation Spending List

namespace Packed

def items (packed : Packed) : List ContextItem :=
  packed.memories ++ packed.knowledge ++ packed.graphFacts ++ packed.summaries ++ packed.history

def cost (packed : Packed) : ℤ := total ContextItem.tokenEstimate packed.items

variable {packed next : Packed} {c other : Candidate}

@[simp]
theorem included_iff : packed.included c = true ↔ c.recordId ∈ packed.includedIds :=
  contains_iff_mem

/-- An item comes in, at the end of a section. -/
structure Gains (packed next : Packed) (c : Candidate) : Prop where
  items : next.items.Perm (candidateToItem c :: packed.items)
  ids : next.includedIds = c.recordId :: packed.includedIds

theorem perm_section (before section_ after : List ContextItem) (item : ContextItem) :
    (before ++ (section_ ++ [item]) ++ after).Perm (item :: (before ++ section_ ++ after)) := by
  rw [append_assoc before, append_assoc section_, singleton_append, append_assoc before]
  exact (perm_middle.append_left before).trans perm_middle

/-- The records that are included are the records that are listed, each of them once. -/
structure Sound (packed : Packed) : Prop where
  nodup : (packed.items.map ContextItem.itemId).Nodup
  listed : ∀ id, id ∈ packed.includedIds ↔ id ∈ packed.items.map ContextItem.itemId

theorem sound_empty (room : ℤ) : Sound { remaining := room } := ⟨nodup_nil, fun _ => Iff.rfl⟩

theorem Gains.sound (gains : Gains packed next c) (sound : packed.Sound)
    (isNew : packed.included c = false) : next.Sound := by
  have items := gains.items.map ContextItem.itemId
  rw [map_cons] at items
  constructor
  · rw [items.nodup_iff, nodup_cons]
    refine ⟨fun member => ?_, sound.nodup⟩
    have isIn := included_iff.mpr ((sound.listed c.recordId).mpr member)
    rw [isNew] at isIn
    cases isIn
  · intro id
    rw [gains.ids, items.mem_iff, mem_cons, mem_cons, sound.listed]
    rfl

theorem Gains.cost (gains : Gains packed next c) :
    next.cost = (candidateToItem c).tokenEstimate + packed.cost := by
  rw [Packed.cost, total_perm gains.items, total_cons]
  rfl

theorem place_of_included (isIn : packed.included c = true) : packed.place c = packed := by
  rw [place, if_pos isIn]

theorem place_gains (isNew : packed.included c = false) : Gains packed (packed.place c) c := by
  rw [place, if_neg (by rw [isNew]; decide)]
  constructor
  · split
    case isTrue _ =>
      exact perm_section (packed.memories ++ packed.knowledge ++ packed.graphFacts)
        packed.summaries packed.history _
    case isFalse _ =>
      have gained := perm_section packed.memories packed.knowledge
        (packed.graphFacts ++ packed.summaries ++ packed.history) (candidateToItem c)
      simp only [items, append_assoc] at gained ⊢
      exact gained
  · split <;> rfl

def Apart (packed : Packed) (unit : List Candidate) : Prop :=
  (unit.map Candidate.recordId).Nodup ∧ ∀ e ∈ unit, packed.included e = false

theorem ids_place (id : String) : id ∈ (packed.place c).includedIds ↔
    id ∈ packed.includedIds ∨ id = c.recordId := by
  cases isIn : packed.included c with
  | true =>
    rw [place_of_included isIn]
    constructor
    · exact Or.inl
    · rintro (already | same)
      · exact already
      · rw [same, ← included_iff]
        exact isIn
  | false =>
    rw [(place_gains isIn).ids, mem_cons]
    exact or_comm

variable (unit : List Candidate)

theorem ids_places (id : String) :
    id ∈ (unit.foldl place packed).includedIds ↔
      id ∈ packed.includedIds ∨ id ∈ unit.map Candidate.recordId := by
  induction unit generalizing packed with
  | nil => simp
  | cons first rest ih =>
    rw [foldl_cons, ih, ids_place, map_cons, mem_cons, or_assoc]

theorem included_place : (packed.place c).included other = true ↔
    packed.included other = true ∨ other.recordId = c.recordId := by
  rw [included_iff, ids_place, included_iff]

theorem sound_places {unit : List Candidate} (sound : packed.Sound) :
    (unit.foldl place packed).Sound := by
  refine List.foldlRecOn (motive := Sound) unit _ sound fun placed isSound e _ => ?_
  cases isIn : placed.included e with
  | true =>
    rw [place_of_included isIn]
    exact isSound
  | false => exact (place_gains isIn).sound isSound isIn

theorem one_le_estimate (c : Candidate) : 1 ≤ (candidateToItem c).tokenEstimate := by
  have atLeast : 1 ≤ estimateTokens c.text := by
    rw [estimateTokens]
    split
    · exact Nat.le_max_left _ _
    · exact Nat.le_max_left _ _
  exact Int.ofNat_le.mpr atLeast

theorem unitCost_cons :
    ContextBuilder.unitCost (c :: unit) =
      (candidateToItem c).tokenEstimate + ContextBuilder.unitCost unit := rfl

theorem cost_places :
    (unit.foldl place packed).cost ≤ packed.cost + ContextBuilder.unitCost unit ∧
      ((unit.foldl place packed).cost = packed.cost + ContextBuilder.unitCost unit ↔
        packed.Apart unit) := by
  induction unit generalizing packed with
  | nil => simp [ContextBuilder.unitCost, Apart]
  | cons first rest ih =>
    have positive := one_le_estimate first
    obtain ⟨atMost, exactly⟩ := @ih (packed.place first)
    rw [foldl_cons, unitCost_cons]
    cases isIn : packed.included first with
    | true =>
      rw [place_of_included isIn] at atMost ⊢
      refine ⟨by omega, ⟨fun same => by omega, fun apart => ?_⟩⟩
      have isNew := apart.2 first mem_cons_self
      rw [isIn] at isNew
      cases isNew
    | false =>
      have gained := (place_gains isIn).cost
      refine ⟨by omega, ?_⟩
      have apart_iff : packed.Apart (first :: rest) ↔ (packed.place first).Apart rest := by
        simp only [Apart, map_cons, nodup_cons, forall_mem_cons, isIn, true_and]
        constructor
        · rintro ⟨⟨notLater, nodup⟩, isNew⟩
          refine ⟨nodup, fun e member => ?_⟩
          rw [← Bool.not_eq_true, included_place, not_or, Bool.not_eq_true]
          exact ⟨isNew e member, fun same => notLater (same ▸ mem_map_of_mem member)⟩
        · rintro ⟨nodup, isNew⟩
          have apart : ∀ e ∈ rest, packed.included e = false ∧ ¬e.recordId = first.recordId := by
            intro e isLater
            have stillNew := isNew e isLater
            rw [← Bool.not_eq_true, included_place, not_or, Bool.not_eq_true] at stillNew
            exact stillNew
          refine ⟨⟨fun member => ?_, nodup⟩, fun e isLater => (apart e isLater).1⟩
          obtain ⟨e, isLater, same⟩ := mem_map.mp member
          exact (apart e isLater).2 same
      rw [apart_iff, ← exactly, gained]
      constructor
      · intro same
        omega
      · intro same
        omega

end Packed

inductive Entry where
  | left
  | unit
  | alone
  deriving DecidableEq

namespace ContextBuilder

variable (builder : ContextBuilder) (result : RetrievalResult) (query : String)

def entry (packed : Packed) (c : Candidate) : Entry :=
  if packed.included c = true ∨ builder.belowFloor query c = true then .left
  else if c.kind = .chunk ∧ packed.knowledge.length < builder.cfg.knowledgeMax then
    if packed.remaining < unitCost (unitOf result packed c) then .left else .unit
  else if packed.remaining < (candidateToItem c).tokenEstimate then .left
  else if c.kind = .memory ∧ c.payload.earlierValue = true ∧ result.routed.history = false then
    if historyMax ≤ packed.history.length then .left else .alone
  else if (c.kind = .memory ∧ (packed.primaryMemories < builder.cfg.memoriesMax ∨
        c.expansionEdge.any expansionEdges.contains = true)) ∨
      (c.kind = .fact ∧ packed.graphFacts.length < builder.cfg.graphFactsMax) ∨
      (c.kind = .summary ∧ packed.summaries.length < builder.cfg.summariesMax) then .alone
  else .left

def brings (packed : Packed) (c : Candidate) : List Candidate :=
  match builder.entry result query packed c with
  | .left => []
  | .unit => unitOf result packed c
  | .alone => [c]

variable {builder result query} {packed : Packed} {c other : Candidate}

/-- What is kept of a bundle that leaves a candidate out. -/
structure Same (packed next : Packed) : Prop where
  items : next.items = packed.items
  ids : next.includedIds = packed.includedIds
  remaining : next.remaining = packed.remaining

/-- A candidate alone comes in and is paid for. -/
structure Takes (packed next : Packed) (c : Candidate) : Prop where
  isNew : packed.included c = false
  affords : (candidateToItem c).tokenEstimate ≤ packed.remaining
  gains : Packed.Gains packed next c
  remaining : next.remaining = packed.remaining - (candidateToItem c).tokenEstimate

/-- A unit comes in and is paid for. -/
structure TakesUnit (result : RetrievalResult) (packed next : Packed) (c : Candidate) : Prop where
  isNew : packed.included c = false
  isChunk : c.kind = .chunk
  affords : unitCost (unitOf result packed c) ≤ packed.remaining
  placed : next = { (unitOf result packed c).foldl Packed.place packed with
    remaining := packed.remaining - unitCost (unitOf result packed c) }

def Does (result : RetrievalResult) (packed next : Packed) (c : Candidate) : Entry → Prop
  | .left => Same packed next
  | .unit => TakesUnit result packed next c
  | .alone => Takes packed next c

theorem pack_does (builder : ContextBuilder) (result : RetrievalResult) (query : String)
    (packed : Packed) (c : Candidate) :
    Does result packed (builder.pack result query packed c) c
      (builder.entry result query packed c) := by
  rw [entry, pack]
  dsimp only
  by_cases isIn : packed.included c = true
  · rw [if_pos (Or.inl isIn), if_pos isIn]
    exact ⟨rfl, rfl, rfl⟩
  rw [if_neg isIn]
  have isNew : packed.included c = false := Bool.not_eq_true _ ▸ isIn
  by_cases isLow : builder.belowFloor query c = true
  · rw [if_pos (Or.inr isLow), if_pos isLow]
    exact ⟨rfl, rfl, rfl⟩
  rw [if_neg (not_or.mpr ⟨isIn, isLow⟩), if_neg isLow]
  split
  case isTrue isPassage =>
    split
    case isTrue _ =>
      split
      case isTrue _ => exact ⟨rfl, rfl, rfl⟩
      case isFalse _ => exact ⟨rfl, rfl, rfl⟩
    case isFalse fits => exact ⟨isNew, isPassage.1, Int.not_lt.mp fits, rfl⟩
  case isFalse _ =>
    split
    case isTrue _ => exact ⟨rfl, rfl, rfl⟩
    case isFalse fits =>
      have affords := Int.not_lt.mp fits
      have taken : ∀ {next : Packed},
          next.items.Perm (candidateToItem c :: packed.items) →
          next.includedIds = c.recordId :: packed.includedIds →
          next.remaining = packed.remaining - (candidateToItem c).tokenEstimate →
          Takes packed next c :=
        fun items ids paid => ⟨isNew, affords, ⟨items, ids⟩, paid⟩
      split
      case isTrue _ =>
        split
        case isTrue _ => exact ⟨rfl, rfl, rfl⟩
        case isFalse _ =>
          refine taken ?_ rfl rfl
          have gained := Packed.perm_section (packed.memories ++ packed.knowledge ++
            packed.graphFacts ++ packed.summaries) packed.history [] (candidateToItem c)
          simp only [append_nil] at gained
          exact gained
      case isFalse _ =>
        by_cases isMemory : c.kind = .memory ∧
            (packed.primaryMemories < builder.cfg.memoriesMax ∨
              c.expansionEdge.any expansionEdges.contains = true)
        · rw [if_pos isMemory, if_pos (Or.inl isMemory)]
          refine taken ?_ rfl rfl
          have gained := Packed.perm_section [] packed.memories (packed.knowledge ++
            packed.graphFacts ++ packed.summaries ++ packed.history) (candidateToItem c)
          simp only [nil_append, Packed.items, append_assoc] at gained ⊢
          exact gained
        rw [if_neg isMemory]
        by_cases isFact : c.kind = .fact ∧ packed.graphFacts.length < builder.cfg.graphFactsMax
        · rw [if_pos isFact, if_pos (Or.inr (Or.inl isFact))]
          refine taken ?_ rfl rfl
          have gained := Packed.perm_section (packed.memories ++ packed.knowledge)
            packed.graphFacts (packed.summaries ++ packed.history) (candidateToItem c)
          simp only [Packed.items, append_assoc] at gained ⊢
          exact gained
        rw [if_neg isFact]
        by_cases isSummary : c.kind = .summary ∧ packed.summaries.length < builder.cfg.summariesMax
        · rw [if_pos isSummary, if_pos (Or.inr (Or.inr isSummary))]
          refine taken ?_ rfl rfl
          exact Packed.perm_section (packed.memories ++ packed.knowledge ++ packed.graphFacts)
            packed.summaries packed.history _
        · rw [if_neg isSummary, if_neg (not_or.mpr ⟨isMemory, not_or.mpr ⟨isFact, isSummary⟩⟩)]
          exact ⟨rfl, rfl, rfl⟩

theorem companions_new {node : String} (member : other ∈ companionsFor result packed node) :
    packed.included other = false := by
  obtain ⟨_, -, _, -, -, isNew⟩ := companion_found member
  exact isNew

theorem unit_new (isNew : packed.included c = false)
    (member : other ∈ unitOf result packed c) : packed.included other = false := by
  rcases mem_cons.mp member with rfl | companion
  · exact isNew
  · split at companion
    · exact companions_new companion
    · cases companion

def UnitApart (result : RetrievalResult) (packed : Packed) (c : Candidate) : Prop :=
  ((unitOf result packed c).map Candidate.recordId).Nodup

theorem pack_sound (sound : packed.Sound) : (builder.pack result query packed c).Sound := by
  have does := pack_does builder result query packed c
  cases isEntry : builder.entry result query packed c with
  | left =>
    rw [isEntry] at does
    obtain ⟨items, ids, -⟩ := does
    constructor
    · rw [items]
      exact sound.nodup
    · rw [items, ids]
      exact sound.listed
  | unit =>
    rw [isEntry] at does
    rw [does.placed]
    have placed := @Packed.sound_places packed (unitOf result packed c) sound
    exact ⟨placed.nodup, placed.listed⟩
  | alone =>
    rw [isEntry] at does
    exact does.gains.sound sound does.isNew

theorem pack_affords (nonneg : 0 ≤ packed.remaining) :
    0 ≤ (builder.pack result query packed c).remaining := by
  have does := pack_does builder result query packed c
  cases isEntry : builder.entry result query packed c with
  | left =>
    rw [isEntry] at does
    rw [does.remaining]
    exact nonneg
  | unit =>
    rw [isEntry] at does
    rw [does.placed]
    exact Int.sub_nonneg.mpr does.affords
  | alone =>
    rw [isEntry] at does
    rw [does.remaining]
    exact Int.sub_nonneg.mpr does.affords

theorem pack_charges (builder : ContextBuilder) (result : RetrievalResult) (query : String)
    (packed : Packed) (c : Candidate) :
    (builder.pack result query packed c).remaining + (builder.pack result query packed c).cost ≤
        packed.remaining + packed.cost ∧
      ((builder.pack result query packed c).remaining +
          (builder.pack result query packed c).cost = packed.remaining + packed.cost ↔
        (builder.entry result query packed c = .unit → UnitApart result packed c)) := by
  have does := pack_does builder result query packed c
  cases isEntry : builder.entry result query packed c with
  | left =>
    rw [isEntry] at does
    have sameCost : (builder.pack result query packed c).cost = packed.cost := by
      rw [Packed.cost, Packed.cost, does.items]
    rw [does.remaining, sameCost]
    exact ⟨le_refl _, fun _ => nofun, fun _ => rfl⟩
  | unit =>
    rw [isEntry] at does
    obtain ⟨atMost, exactly⟩ := @Packed.cost_places packed (unitOf result packed c)
    have sameCost : (builder.pack result query packed c).cost =
        ((unitOf result packed c).foldl Packed.place packed).cost := by
      rw [does.placed]
      rfl
    have paid : (builder.pack result query packed c).remaining =
        packed.remaining - unitCost (unitOf result packed c) := by rw [does.placed]
    have apart_iff : packed.Apart (unitOf result packed c) ↔ UnitApart result packed c :=
      ⟨And.left, fun nodup => ⟨nodup, fun _ member => unit_new does.isNew member⟩⟩
    rw [paid, sameCost]
    refine ⟨by omega, ?_⟩
    rw [← apart_iff, ← exactly]
    constructor
    · intro same _
      omega
    · intro same
      have costs := same rfl
      omega
  | alone =>
    rw [isEntry] at does
    rw [does.remaining, does.gains.cost]
    exact ⟨by omega, fun _ => nofun, fun _ => by omega⟩

def UnitsApart (builder : ContextBuilder) (result : RetrievalResult) (query : String) :
    Packed → List Candidate → Prop :=
  Admits (builder.pack result query) fun packed c =>
    builder.entry result query packed c = .unit → UnitApart result packed c

theorem foldl_charges (candidates : List Candidate) (packed : Packed) :
    (candidates.foldl (builder.pack result query) packed).remaining +
          (candidates.foldl (builder.pack result query) packed).cost ≤
        packed.remaining + packed.cost ∧
      ((candidates.foldl (builder.pack result query) packed).remaining +
          (candidates.foldl (builder.pack result query) packed).cost =
            packed.remaining + packed.cost ↔
        UnitsApart builder result query packed candidates) := by
  induction candidates generalizing packed with
  | nil => exact ⟨le_refl _, fun _ => trivial, fun _ => rfl⟩
  | cons c rest ih =>
    obtain ⟨stepAtMost, stepExactly⟩ := pack_charges builder result query packed c
    obtain ⟨atMost, exactly⟩ := ih (builder.pack result query packed c)
    rw [foldl_cons, UnitsApart, Admits, ← stepExactly, ← UnitsApart, ← exactly]
    refine ⟨by omega, fun same => by omega, ?_⟩
    rintro ⟨sameFirst, sameLater⟩
    omega

theorem sound_foldl (seen : List Candidate) (room : ℤ) :
    (seen.foldl (builder.pack result query) { remaining := room }).Sound :=
  List.foldlRecOn (motive := Packed.Sound) seen _ (Packed.sound_empty room)
    fun _ isSound _ _ => pack_sound isSound

theorem packAll_accounts (builder : ContextBuilder) (result : RetrievalResult) (query : String)
    (room : ℤ) :
    (builder.packAll result query room).Sound ∧
      (0 ≤ room → 0 ≤ (builder.packAll result query room).remaining) ∧
      ((builder.packAll result query room).remaining +
          (builder.packAll result query room).cost = room ↔
        UnitsApart builder result query { remaining := room } result.candidates) := by
  refine ⟨?_, fun nonneg => ?_, ?_⟩
  · exact sound_foldl result.candidates room
  · exact List.foldlRecOn (motive := fun packed : Packed => 0 ≤ packed.remaining)
      result.candidates _ nonneg fun _ isLeft _ _ => pack_affords isLeft
  · have exactly := (@foldl_charges builder result query result.candidates { remaining := room }).2
    have isEmpty : Packed.cost { remaining := room } = 0 := rfl
    rw [isEmpty, add_zero] at exactly
    exact exactly

end ContextBuilder

namespace ContextBundle

def items (bundle : ContextBundle) : List ContextItem :=
  bundle.memories ++ bundle.knowledge ++ bundle.graphFacts ++ bundle.summaries ++ bundle.history

/-- Nothing is twice in the bundle, and its estimate is what was drawn and what the items cost. -/
structure Accounts (bundle : ContextBundle) (drawn : ℤ) : Prop where
  once : (bundle.items.map ContextItem.itemId).Nodup
  charged : bundle.tokenEstimate = drawn + total ContextItem.tokenEstimate bundle.items
  kept : drawn ≤ bundle.tokenBudget → bundle.tokenEstimate ≤ bundle.tokenBudget

end ContextBundle

namespace ContextBuilder

variable (builder : ContextBuilder) (query : String) (result : RetrievalResult)
  (window : ConversationWindow) (budget : ℤ) (revisionFp : String)

theorem assemble_items :
    (builder.assemble query result window budget revisionFp).items =
      (builder.packAll result query (budget - builder.drawn window)).items := rfl

theorem assemble_tokenEstimate :
    (builder.assemble query result window budget revisionFp).tokenEstimate =
      budget - (builder.packAll result query (budget - builder.drawn window)).remaining := rfl

theorem assemble_tokenBudget :
    (builder.assemble query result window budget revisionFp).tokenBudget = budget := rfl

/-- A bundle accounts for what it lists exactly when no unit that was taken into it repeats a
record. -/
theorem bundle_accounts_iff :
    (builder.assemble query result window budget revisionFp).Accounts (builder.drawn window) ↔
      UnitsApart builder result query { remaining := budget - builder.drawn window }
        result.candidates := by
  obtain ⟨sound, affords, exactly⟩ :=
    packAll_accounts builder result query (budget - builder.drawn window)
  rw [← exactly]
  constructor
  · intro accounts
    have charged := accounts.charged
    rw [assemble_items, assemble_tokenEstimate] at charged
    have sameCost : (builder.packAll result query (budget - builder.drawn window)).cost =
        total ContextItem.tokenEstimate
          (builder.packAll result query (budget - builder.drawn window)).items := rfl
    omega
  · intro same
    refine ⟨sound.nodup, ?_, fun isDrawn => ?_⟩
    · have sameCost : (builder.packAll result query (budget - builder.drawn window)).cost =
          total ContextItem.tokenEstimate
            (builder.packAll result query (budget - builder.drawn window)).items := rfl
      rw [assemble_items, assemble_tokenEstimate]
      omega
    · rw [assemble_tokenBudget] at isDrawn ⊢
      rw [assemble_tokenEstimate]
      have isLeft := affords (Int.sub_nonneg.mpr isDrawn)
      omega

end ContextBuilder

def referenceEdge : ContextEdge where
  sourceId := "sec_2"
  targetId := "sec_1"
  edge := .crossReference

def referringStage : VerificationStage :=
    { plainStage with edges := [definitionEdge, referenceEdge] }

def referringResult : RetrievalResult where
  routed := aboutTerm
  candidates := [usesTerm, definesTerm]
  diagnostics := (referringStage.call aboutTerm [usesTerm, definesTerm] {}).2

def referringBundle (budget : ℤ) : ContextBundle :=
  plainBuilder.assemble aboutTerm.query referringResult {} budget ""

/-- Both groups are asked for, and their one companion is charged for each. -/
theorem referred_twice_is_charged_twice :
    (referringBundle 100).items.map ContextItem.itemId = ["chk_2", "chk_1"] ∧
      ¬(referringBundle 100).Accounts (plainBuilder.drawn {}) := by
  refine ⟨by decide +kernel, fun accounts => ?_⟩
  have charged := accounts.charged
  revert charged
  decide +kernel

end MemoryService.Context
