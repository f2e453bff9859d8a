import MemoryService.Approval.Reading
import MemoryService.Approval.Suggestions

/-!
# Accepting a suggestion does what it says

Once a suggestion is accepted the tool should ask for the calls of its argument shape, or stop
asking for them, and ask for all the others as it did.
-/

namespace MemoryService.Approval

open Foundation List Option

variable {shape : Text} {entry : ToolDescriptor} {tree : Tree} {existing : Option Text}
  {risk : SideEffects} {catalog : List ToolDescriptor} {name : String}
  {workspaceId : Option String} {counts : ApprovalCounts} {found : Offer}

section

variable (floorLog10 : Rat → Int)

section Meaning

variable {floorLog10} {args : Members}

theorem eval_shapeIs (shape : Text) :
    eval floorLog10 args (shapeIs shape) =
      (argShape floorLog10 args).map fun own => decide (own = shape) := by
  change ((argShape floorLog10 args).map Value.str).bind
    (fun a => (some (Value.str shape)).map fun b => compare .eq a b) = _
  cases argShape floorLog10 args <;> rfl

theorem eval_or_of_shape (isShape : argShape floorLog10 args = some shape)
    (tree : Tree) : eval floorLog10 args (.or tree (shapeIs shape)) = some true := by
  have isTrue : eval floorLog10 args (shapeIs shape) = some true := by
    rw [eval_shapeIs, isShape, map_some, decide_eq_true rfl]
  have isSome : (eval floorLog10 args tree).isSome := eval_isSome fun _ => by rw [isShape]; rfl
  obtain ⟨decided, isDecided⟩ := isSome_iff_exists.mp isSome
  rw [eval, isDecided, isTrue]
  cases decided <;> rfl

theorem eval_or_of_other (isOther : argShape floorLog10 args ≠ some shape) (tree : Tree) :
    eval floorLog10 args (.or tree (shapeIs shape)) = some true ↔
      eval floorLog10 args tree = some true := by
  have notTrue : eval floorLog10 args (shapeIs shape) ≠ some true := by
    rw [eval_shapeIs]
    intro isTrue
    obtain ⟨own, isOwn, same⟩ := map_eq_some_iff.mp isTrue
    exact isOther (isOwn.trans (congrArg some (of_decide_eq_true same)))
  rw [eval]
  cases isLeft : eval floorLog10 args tree with
  | none => exact Iff.rfl
  | some decided =>
    cases decided with
    | true => exact Iff.rfl
    | false => exact iff_of_false notTrue (by simp)

end Meaning

/-- The tool asks for approval of a call with these arguments.  Where evaluating its rule raises
(the shape of an infinity, or of what is no number), it counts as not asking. -/
def Asks (entry : ToolDescriptor) (args : Members) : Prop :=
  match entry.rule with
  | some expression => evaluate floorLog10 args expression = some true
  | none => entry.risk = .irreversible

structure DoesWhatItSays (found : Offer) (after : ToolDescriptor) : Prop where
  ofShape : ∀ args, argShape floorLog10 args = some found.shape →
    (Asks floorLog10 after args ↔ found.suggestion = .alwaysAsk)
  ofOthers : ∀ args, argShape floorLog10 args ≠ some found.shape →
    (Asks floorLog10 after args ↔ Asks floorLog10 found.entry args)
  neverRelaxed : found.suggestion = .autoApprove → found.entry.rule.isSome →
    ∀ args, Asks floorLog10 found.entry args → Asks floorLog10 after args

/-- The expression is taken, and the tool then does what the suggestion says. -/
def AcceptedRight (store : Store) (agentId workspaceId : Option String)
    (identified : Option (String × String × Text)) : Prop :=
  accept floorLog10 store agentId workspaceId identified ≠ .error .invalidExpression ∧
    ∀ found after next, suggested floorLog10 store agentId workspaceId identified = .ok found →
      accept floorLog10 store agentId workspaceId identified = .ok (after, next) →
      DoesWhatItSays floorLog10 found after ∧
        byName next.catalog after.name workspaceId = some after

/-- The characters of a composed expression, counted in its parts. -/
def composedLength (existing : Option Text) (risk : SideEffects) (suggestion : Suggestion)
    (shape : Text) : Nat :=
  match suggestion with
  | .alwaysAsk =>
    if base existing risk = "false".toList then (whenShape shape).length
    else (base existing risk).length + (whenShape shape).length + 8
  | .autoApprove =>
    if base existing risk = "true".toList then (whenShape shape).length + 6
    else (base existing risk).length + (whenShape shape).length + 13

theorem compose_length (existing : Option Text) (risk : SideEffects) (suggestion : Suggestion)
    (shape : Text) :
    (compose existing risk suggestion shape).length =
      composedLength existing risk suggestion shape := by
  have marks : "(".toList.length = 1 ∧ ")".toList.length = 1 ∧ "not (".toList.length = 5 ∧
      ") or (".toList.length = 6 ∧ ") and not (".toList.length = 11 := by
    decide
  cases suggestion <;> rw [compose, composedLength] <;> split <;>
    simp only [List.length_append] <;> omega

variable {floorLog10}

variable (floorLog10) in
theorem asks_iff_base
    (parses : ∀ expression, entry.rule = some expression → (parse expression).isSome) :
    ∃ tree, parse (base entry.approveWhen entry.risk) = some tree ∧
      ∀ args, Asks floorLog10 entry args ↔ eval floorLog10 args tree = some true := by
  cases isRule : entry.rule with
  | some expression =>
    obtain ⟨tree, isParsed⟩ := Option.isSome_iff_exists.mp (parses expression isRule)
    have isBase : base entry.approveWhen entry.risk = expression := by
      rw [base, ← ToolDescriptor.rule, isRule, Option.getD_some]
    refine ⟨tree, by rw [isBase, isParsed], fun args => ?_⟩
    rw [Asks, isRule]
    simp only [evaluate, isParsed, Option.bind_some]
  | none =>
    have isBase : base entry.approveWhen entry.risk = tierText entry.risk := by
      rw [base, ← ToolDescriptor.rule, isRule, Option.getD_none]
    by_cases isIrreversible : entry.risk = .irreversible
    · refine ⟨.lit true, by rw [isBase, tierText, if_pos isIrreversible]; rfl, fun args => ?_⟩
      rw [Asks, isRule]
      exact iff_of_true isIrreversible rfl
    · refine ⟨.lit false, by rw [isBase, tierText, if_neg isIrreversible]; rfl, fun args => ?_⟩
      rw [Asks, isRule]
      exact iff_of_false isIrreversible (by simp [eval])

theorem asks_of_parse {expression : Text}
    (isParsed : parse expression = some tree) (args : Members) :
    Asks floorLog10 { entry with approveWhen := some expression } args ↔
      eval floorLog10 args tree = some true := by
  have isRule : ToolDescriptor.rule { entry with approveWhen := some expression } =
      some expression := by
    refine Option.filter_eq_some_iff.mpr ⟨rfl, decide_eq_true ?_⟩
    rintro rfl
    have : parse [] = none := rfl
    rw [this] at isParsed
    cases isParsed
  rw [Asks, isRule]
  simp only [evaluate, isParsed, Option.bind_some]

variable (floorLog10) in
theorem parse_compose_always (isBase : parse (base existing risk) = some tree)
    (fits : composedLength existing risk .alwaysAsk shape ≤ maxExpressionChars) :
    ∃ composed, parse (compose existing risk .alwaysAsk shape) = some composed ∧
      ∀ args, eval floorLog10 args composed = eval floorLog10 args (.or tree (shapeIs shape)) := by
  rw [composedLength] at fits
  rw [compose]
  split at fits
  · next isFalse =>
      have parsedFalse : parse "false".toList = some (.lit false) := rfl
      rw [isFalse, parsedFalse] at isBase
      cases isBase
      rw [if_pos isFalse]
      exact ⟨shapeIs shape, parse_whenShape fits, fun args => rfl⟩
  · next notFalse =>
      rw [if_neg notFalse]
      exact ⟨.or tree (shapeIs shape),
        parse_or isBase (parse_whenShape (by omega)) (by omega), fun args => rfl⟩

variable (floorLog10) in
theorem parse_compose_auto (isFalse : base existing risk = "false".toList)
    (fits : composedLength existing risk .autoApprove shape ≤ maxExpressionChars) :
    ∃ composed, parse (compose existing risk .autoApprove shape) = some composed ∧
      ∀ args, eval floorLog10 args composed = some false := by
  have notTrue : ¬base existing risk = "true".toList := by
    rw [isFalse]
    decide
  rw [composedLength, if_neg notTrue] at fits
  rw [compose, if_neg notTrue]
  refine ⟨.and (.lit false) (.not (shapeIs shape)), ?_, fun args => rfl⟩
  exact parse_and_not (by rw [isFalse]; rfl) (parse_whenShape (by omega)) (by omega)

theorem key_of_find? {sought : String × String}
    (isFound : (catalog.find? fun row => row.key = sought) = some entry) :
    entry.key = sought := by
  simpa using find?_some isFound

theorem byName_cases (isFound : byName catalog name workspaceId = some entry) :
    entry.name = name ∧ (catalog.find? fun row => row.key = entry.key) = some entry ∧
      (entry.key = (workspaceId.getD "", name) ∨
        (catalog.find? fun row => row.key = (workspaceId.getD "", name)) = none ∧
          entry.key = ("", name)) := by
  rcases or_eq_some_iff.mp isFound with own | ⟨noOwn, tenantWide⟩
  · have isKey := key_of_find? own
    exact ⟨congrArg Prod.snd isKey, by rw [isKey]; exact own, .inl isKey⟩
  · have isKey := key_of_find? tenantWide
    exact ⟨congrArg Prod.snd isKey, by rw [isKey]; exact tenantWide, .inr ⟨noOwn, isKey⟩⟩

theorem store_entry_ok {store next : Store} {tool : String}
    (isEntry : store.entry tool workspaceId = some (entry, next)) :
    byName next.catalog tool workspaceId = some entry ∧
      (entry ∈ store.catalog ∨ entry.rule = none) := by
  rw [Store.entry] at isEntry
  cases isFound : byName store.catalog tool workspaceId with
  | some found =>
    rw [isFound] at isEntry
    cases isEntry
    exact ⟨isFound, .inl (mem_of_find?_eq_some (byName_cases isFound).2.1)⟩
  | none =>
    obtain ⟨noOwn, noTenantWide⟩ := or_eq_none_iff.mp isFound
    have notThere : byName store.catalog tool none = none :=
      or_eq_none_iff.mpr ⟨noTenantWide, noTenantWide⟩
    rw [isFound] at isEntry
    obtain ⟨⟨made, catalog⟩, isMade, same⟩ := map_eq_some_iff.mp isEntry
    cases same
    rw [ensure, notThere] at isMade
    dsimp only at isMade
    obtain ⟨-, ⟨⟩⟩ := ite_none_right_eq_some.mp isMade
    refine ⟨?_, .inr rfl⟩
    rw [byName, find?_append, find?_append, noOwn, noTenantWide]
    by_cases isTenant : workspaceId.getD "" = ""
    · rw [isTenant]
      simp [ToolDescriptor.key]
    · simp [ToolDescriptor.key, Ne.symm isTenant]

theorem byName_upsert (isFound : byName catalog name workspaceId = some entry) (expression : Text) :
    ∃ next, upsert catalog { entry with approveWhen := some expression } =
        ({ entry with approveWhen := some expression }, next) ∧
      byName next name workspaceId = some { entry with approveWhen := some expression } := by
  let updated : ToolDescriptor := { entry with approveWhen := some expression }
  obtain ⟨-, isFirst, isKey⟩ := byName_cases isFound
  refine ⟨updateWhere (fun row => row.key = entry.key) (fun _ => updated) catalog, ?_, ?_⟩
  · have stored : (catalog.find? fun row => row.key = updated.key) = some entry := isFirst
    rw [upsert, stored]
    rfl
  · have present : (catalog.any fun row => row.key = entry.key) = true :=
      any_eq_true.mpr ⟨entry, mem_of_find?_eq_some isFirst, decide_eq_true rfl⟩
    have written : (updateWhere (fun row => row.key = entry.key) (fun _ => updated) catalog).find?
        (fun row => row.key = entry.key) = some updated :=
      find?_updateWhere_own (decide_eq_true rfl) present
    rcases isKey with isOwn | ⟨noOwn, isTenants⟩
    · rw [byName, ← isOwn, written]
      rfl
    · have apart : entry.key ≠ (workspaceId.getD "", name) := by
        intro isOwn
        rw [← isOwn, isFirst] at noOwn
        cases noOwn
      have stillNone : (updateWhere (fun row => row.key = entry.key) (fun _ => updated)
          catalog).find? (fun row => row.key = (workspaceId.getD "", name)) = none := by
        rw [find?_updateWhere_other, noOwn]
        intro row isEntry
        have sameKey : row.key = entry.key := of_decide_eq_true isEntry
        exact ⟨decide_eq_false (sameKey ▸ apart), decide_eq_false apart⟩
      rw [byName, stillNone, ← isTenants, written]
      rfl

/-- The rule can be added, or what is taken for it says the same. -/
def Fits (floorLog10 : Rat → Int) (found : Offer) : Prop :=
  if accepted (some found.entry) found.shape then
    ∀ args, argShape floorLog10 args = some found.shape →
      (Asks floorLog10 found.entry args ↔ found.suggestion = .alwaysAsk)
  else
    composedLength found.entry.approveWhen found.entry.risk found.suggestion found.shape ≤
      maxExpressionChars

section Accept

variable {store : Store} {agentId workspaceId : Option String}
  {identified : Option (String × String × Text)}

theorem suggested_ne_invalid :
    suggested floorLog10 store agentId workspaceId identified ≠ .error .invalidExpression := by
  unfold suggested
  repeat' split
  all_goals
    intro same
    cases same

/-- What is offered: the entry that the catalog holds under the tool's name, and a rule
that asks less only where the tool has none or has this one. -/
structure Offered (store : Store) (workspaceId : Option String) (found : Offer) : Prop where
  isEntry : byName found.store.catalog found.entry.name workspaceId = some found.entry
  isStored : found.entry ∈ store.catalog ∨ found.entry.rule = none
  reversible : found.suggestion = .autoApprove → found.entry.risk ≠ .irreversible
  noOther : found.suggestion = .autoApprove →
    accepted (some found.entry) found.shape = false → found.entry.rule = none

theorem offered_auto (isOffered : offered counts (some entry) = some .autoApprove) :
    entry.risk ≠ .irreversible ∧
      (accepted (some entry) counts.argShape = false → entry.rule = none) := by
  unfold offered at isOffered
  split at isOffered
  case h_1 found _ same =>
      cases same
      obtain ⟨reversible, isOffered⟩ := ite_none_left_eq_some.mp isOffered
      refine ⟨reversible, fun notAccepted => ?_⟩
      rw [notAccepted, Bool.not_false, Bool.and_true] at isOffered
      split at isOffered
      · cases isOffered
      · next noRule => exact not_isSome_iff_eq_none.mp noRule
  case h_2 isOther =>
      exact (isOther entry isOffered rfl).elim

theorem offer_auto (isOffered : offer floorLog10 store counts (some entry) = some .autoApprove) :
    offered counts (some entry) = some .autoApprove := by
  rw [offer] at isOffered
  split at isOffered
  · assumption
  · exact isOffered

theorem suggested_ok
    (isFound : suggested floorLog10 store agentId workspaceId identified = .ok found) :
    Offered store workspaceId found := by
  unfold suggested at isFound
  split at isFound
  · cases isFound
  · next agent tool shape =>
      split at isFound
      · cases isFound
      · split at isFound
        · cases isFound
        · next counts isPattern =>
            have sameShape : counts.argShape = shape := by
              have isSought := find?_some isPattern
              simp only [Bool.and_eq_true, decide_eq_true_eq] at isSought
              exact isSought.2
            split at isFound
            · cases isFound
            · split at isFound
              · cases isFound
              · next entry next isEntry =>
                  split at isFound
                  · cases isFound
                  · next suggestion isOffered =>
                      cases isFound
                      obtain ⟨isRead, isStored⟩ := store_entry_ok isEntry
                      have sameName := (byName_cases isRead).1
                      refine ⟨by rw [sameName]; exact isRead, isStored, ?_, ?_⟩
                      · rintro rfl
                        exact (offered_auto (offer_auto isOffered)).1
                      · rintro rfl
                        rw [← sameShape]
                        exact (offered_auto (offer_auto isOffered)).2

theorem does_of_accepted (agrees : ∀ args, argShape floorLog10 args = some found.shape →
      (Asks floorLog10 found.entry args ↔ found.suggestion = .alwaysAsk)) :
    DoesWhatItSays floorLog10 found found.entry where
  ofShape := agrees
  ofOthers := fun _ _ => Iff.rfl
  neverRelaxed := fun _ _ _ asks => asks

section

variable (fits : composedLength found.entry.approveWhen found.entry.risk found.suggestion
  found.shape ≤ maxExpressionChars)
include fits

theorem does_of_always (isAlways : found.suggestion = .alwaysAsk)
    (parses : ∀ expression, found.entry.rule = some expression → (parse expression).isSome) :
    ∃ composed, parse found.expression = some composed ∧
      DoesWhatItSays floorLog10 found
        { found.entry with approveWhen := some found.expression } := by
  obtain ⟨tree, isBase, asksBase⟩ := asks_iff_base floorLog10 parses
  rw [isAlways] at fits
  obtain ⟨composed, isParsed, means⟩ := parse_compose_always floorLog10 isBase fits
  rw [← isAlways, ← Offer.expression] at isParsed
  refine ⟨composed, isParsed, ?_, ?_, ?_⟩
  · intro args isShape
    rw [asks_of_parse isParsed, means, eval_or_of_shape isShape]
    exact iff_of_true rfl isAlways
  · intro args isOther
    rw [asks_of_parse isParsed, means, eval_or_of_other isOther, asksBase]
  · intro isAuto
    rw [isAlways] at isAuto
    cases isAuto

theorem does_of_auto (isAuto : found.suggestion = .autoApprove)
    (noRule : found.entry.rule = none) (reversible : found.entry.risk ≠ .irreversible) :
    ∃ composed, parse found.expression = some composed ∧
      DoesWhatItSays floorLog10 found
        { found.entry with approveWhen := some found.expression } := by
  have isFalse : base found.entry.approveWhen found.entry.risk = "false".toList := by
    rw [base, ← ToolDescriptor.rule, noRule, getD_none, tierText, if_neg reversible]
  rw [isAuto] at fits
  obtain ⟨composed, isParsed, means⟩ := parse_compose_auto floorLog10 isFalse fits
  rw [← isAuto, ← Offer.expression] at isParsed
  refine ⟨composed, isParsed, ?_, ?_, ?_⟩
  · intro args _
    rw [asks_of_parse isParsed, means, isAuto]
    simp
  · intro args _
    rw [asks_of_parse isParsed, means, Asks, noRule]
    simp [reversible]
  · intro _ hasRule
    rw [noRule] at hasRule
    cases hasRule

end

variable (floorLog10) in
theorem does_of_fits (isOffered : Offered store workspaceId found)
    (parses : ∀ expression, found.entry.rule = some expression → (parse expression).isSome)
    (notAccepted : accepted (some found.entry) found.shape = false)
    (fits : composedLength found.entry.approveWhen found.entry.risk found.suggestion
      found.shape ≤ maxExpressionChars) :
    ∃ composed, parse found.expression = some composed ∧
      DoesWhatItSays floorLog10 found
        { found.entry with approveWhen := some found.expression } := by
  cases isSuggested : found.suggestion with
  | alwaysAsk => exact does_of_always fits isSuggested parses
  | autoApprove =>
    exact does_of_auto fits isSuggested (isOffered.noOther isSuggested notAccepted)
      (isOffered.reversible isSuggested)

theorem write_right_iff (isOffered : Offered store workspaceId found)
    (parses : ∀ expression, found.entry.rule = some expression → (parse expression).isSome) :
    (found.write ≠ .error .invalidExpression ∧
      ∀ after next, found.write = .ok (after, next) →
        DoesWhatItSays floorLog10 found after ∧
          byName next.catalog after.name workspaceId = some after) ↔
      Fits floorLog10 found := by
  cases isAccepted : accepted (some found.entry) found.shape with
  | true =>
    have unwritten : found.write = .ok (found.entry, found.store) := if_pos isAccepted
    rw [Fits, if_pos isAccepted, unwritten]
    constructor
    · intro right
      exact (right.2 _ _ rfl).1.ofShape
    · intro agrees
      refine ⟨fun same => (by cases same), fun after next same => ?_⟩
      cases same
      exact ⟨does_of_accepted agrees, isOffered.isEntry⟩
  | false =>
    have notAccepted : ¬accepted (some found.entry) found.shape = true := by
      rw [isAccepted]
      exact Bool.false_ne_true
    rw [Fits, if_neg notAccepted, Offer.write, if_neg notAccepted]
    constructor
    · intro right
      cases isParsed : parse found.expression with
      | none =>
        rw [isParsed] at right
        exact absurd rfl right.1
      | some tree =>
        rw [← compose_length]
        exact length_le_of_parse isParsed
    · intro fits
      obtain ⟨composed, isParsed, does⟩ := does_of_fits floorLog10 isOffered parses isAccepted fits
      obtain ⟨next, isWritten, isRead⟩ := byName_upsert isOffered.isEntry found.expression
      rw [isParsed, if_neg (by simp), isWritten]
      refine ⟨fun same => (by cases same), fun after later same => ?_⟩
      cases same
      exact ⟨does, isRead⟩

theorem accept_eq_write
    (isFound : suggested floorLog10 store agentId workspaceId identified = .ok found) :
    accept floorLog10 store agentId workspaceId identified = found.write := by
  rw [accept, isFound]
  rfl

end Accept

/-- Accepting a suggestion does what it says exactly where the tool's expression has no
text of this shape's rule and there is room for it, or has the text and says the same. -/
theorem accept_right_iff (floorLog10 : Rat → Int) (store : Store)
    (agentId workspaceId : Option String) (identified : Option (String × String × Text))
    (parses : ∀ entry ∈ store.catalog, ∀ expression, entry.rule = some expression →
      (parse expression).isSome) :
    AcceptedRight floorLog10 store agentId workspaceId identified ↔
      ∀ found, suggested floorLog10 store agentId workspaceId identified = .ok found →
        Fits floorLog10 found := by
  have parsesFound : ∀ found, Offered store workspaceId found →
      ∀ expression, found.entry.rule = some expression → (parse expression).isSome := by
    intro found isOffered expression isRule
    rcases isOffered.isStored with isStored | noRule
    · exact parses found.entry isStored expression isRule
    · rw [noRule] at isRule
      cases isRule
  constructor
  · intro right found isFound
    have isOffered := suggested_ok isFound
    refine (write_right_iff isOffered (parsesFound found isOffered)).mp ⟨?_, ?_⟩
    · rw [← accept_eq_write isFound]
      exact right.1
    · intro after next isWritten
      exact right.2 found after next isFound (accept_eq_write isFound ▸ isWritten)
  · intro fits
    constructor
    · cases isFound : suggested floorLog10 store agentId workspaceId identified with
      | error refusal =>
        have refused : accept floorLog10 store agentId workspaceId identified =
            .error refusal := by
          rw [accept, isFound]
          rfl
        rw [refused]
        intro same
        rw [Except.error.inj same] at isFound
        exact suggested_ne_invalid isFound
      | ok found =>
        have isOffered := suggested_ok isFound
        rw [accept_eq_write isFound]
        exact ((write_right_iff isOffered (parsesFound found isOffered)).mpr (fits found isFound)).1
    · intro found after next isFound isWritten
      have isOffered := suggested_ok isFound
      rw [accept_eq_write isFound] at isWritten
      exact ((write_right_iff isOffered (parsesFound found isOffered)).mpr
        (fits found isFound)).2 after next isWritten

end

def magnitude (x : Rat) : Int := (Nat.toDigits 10 x.floor.toNat).length - 1

def hundreds : Text := "amount:num:1e2".toList

def refunds : ApprovalCounts where
  agentId := "claims-bot"
  tool := "refund"
  argShape := hundreds
  approvals := 6
  rejections := 6

variable (approveWhen : Option Text)

def refundStore : Store where
  tenantId := "northwind"
  catalog := [{ name := "refund", approveWhen }]
  patterns := [refunds]

def refundOffer : Offer where
  entry := { name := "refund", approveWhen }
  suggestion := .alwaysAsk
  shape := hundreds
  store := refundStore approveWhen

theorem suggested_refund :
    suggested magnitude (refundStore approveWhen) (some "claims-bot") none
        (some ("claims-bot", "refund", hundreds)) =
      .ok (refundOffer approveWhen) := by
  have supported : refunds.suggestion = some .alwaysAsk := by decide +kernel
  have isPattern : (refundStore approveWhen).approvalPattern "claims-bot" "refund" hundreds =
      some refunds := rfl
  have isEntry : (refundStore approveWhen).entry "refund" none =
      some ({ name := "refund", approveWhen }, refundStore approveWhen) := rfl
  have isOffered : offer magnitude (refundStore approveWhen) refunds
      (some { name := "refund", approveWhen }) = some .alwaysAsk := by
    unfold offer offered
    rw [supported]
  unfold suggested
  simp only [isPattern, supported, isEntry, isOffered]
  rfl

def refundRule : Text := compose none .write .autoApprove hundreds

/-- Calls of the shape were to be approved automatically; now they should always be asked
about, and that is accepted, and nothing changes. -/
theorem change_of_mind_is_lost :
    (∀ entry ∈ (refundStore (some refundRule)).catalog, ∀ expression,
      entry.rule = some expression → (parse expression).isSome) ∧
    ¬AcceptedRight magnitude (refundStore (some refundRule)) (some "claims-bot") none
      (some ("claims-bot", "refund", hundreds)) := by
  have isRule : (refundOffer (some refundRule)).entry.rule = some refundRule := by
    decide +kernel
  constructor
  · intro entry member expression isOwn
    rw [List.mem_singleton.mp member] at isOwn
    have isParsed : (parse refundRule).isSome := by decide +kernel
    cases isRule.symm.trans isOwn
    exact isParsed
  · intro right
    have isAccepted : accepted (some (refundOffer (some refundRule)).entry) hundreds = true := by
      decide +kernel
    have unchanged : accept magnitude (refundStore (some refundRule)) (some "claims-bot") none
        (some ("claims-bot", "refund", hundreds)) =
          .ok ((refundOffer (some refundRule)).entry, refundStore (some refundRule)) :=
      (accept_eq_write (suggested_refund _)).trans (if_pos isAccepted)
    have does := (right.2 _ _ _ (suggested_refund _) unchanged).1
    have isShape : argShape magnitude [("amount".toList, .num (.finite 120))] = some hundreds := by
      decide +kernel
    have asks := (does.ofShape _ isShape).mpr rfl
    have isSilent : evaluate magnitude [("amount".toList, .num (.finite 120))] refundRule =
        some false := by
      decide +kernel
    rw [Asks, isRule] at asks
    cases isSilent.symm.trans asks

/-- The first rule of a tool does what it says. -/
theorem first_rule_is_right :
    AcceptedRight magnitude (refundStore none) (some "claims-bot") none
      (some ("claims-bot", "refund", hundreds)) := by
  refine (accept_right_iff magnitude (refundStore none) (some "claims-bot") none
    (some ("claims-bot", "refund", hundreds)) ?_).mpr ?_
  · intro entry member expression isRule
    rw [List.mem_singleton.mp member] at isRule
    cases isRule
  · intro found isFound
    cases (suggested_refund none).symm.trans isFound
    have room : composedLength none .write .alwaysAsk hundreds ≤ maxExpressionChars := by
      decide +kernel
    exact room

end MemoryService.Approval
