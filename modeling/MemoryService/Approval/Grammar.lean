import MemoryService.Approval.Words

/-!
# The grammar of approval expressions

An expression is a disjunction of conjunctions of terms, and a term may be negated or stand in
parentheses; a sentence carries the tree of its derivation.
-/

namespace MemoryService.Approval

open Foundation Reader List Option

def Value.isBool : Value → Bool
  | .bool _ => true
  | _ => false

def Token.operator : Token → Option Op
  | .op found => some found
  | .kw .in_ => some .in_
  | _ => none

section Grammar

variable (loose : Bool)

mutual

inductive IsOperand : List Token → Operand → Prop
  | lit (value : Value) : loose = true ∨ value.isBool = false → IsOperand [.lit value] (.lit value)
  | path (names : List Text) : IsOperand [.name names] (.path names)
  | list {tokens : List Token} {items : List Operand} : AreItems tokens items →
      IsOperand (.punct .openBracket :: (tokens ++ [.punct .closeBracket])) (.list items)

inductive AreItems : List Token → List Operand → Prop
  | none : loose = true → AreItems [] []
  | last {tokens : List Token} {item : Operand} : IsOperand tokens item → AreItems tokens [item]
  | more {tokens others : List Token} {item : Operand} {items : List Operand} :
      IsOperand tokens item → AreItems others items →
      AreItems (tokens ++ .punct .comma :: others) (item :: items)

end

inductive Level where
  | disjunction
  | conjunction
  | term

inductive Sentence : Level → List Token → Tree → Prop
  | conjunction {tokens : List Token} {tree : Tree} :
      Sentence .conjunction tokens tree → Sentence .disjunction tokens tree
  | or {tokens others : List Token} {left right : Tree} :
      Sentence .disjunction tokens left → Sentence .conjunction others right →
      Sentence .disjunction (tokens ++ .kw .or_ :: others) (.or left right)
  | term {tokens : List Token} {tree : Tree} :
      Sentence .term tokens tree → Sentence .conjunction tokens tree
  | and {tokens others : List Token} {left right : Tree} :
      Sentence .conjunction tokens left → Sentence .term others right →
      Sentence .conjunction (tokens ++ .kw .and_ :: others) (.and left right)
  | not {tokens : List Token} {tree : Tree} :
      Sentence .term tokens tree → Sentence .term (.kw .not_ :: tokens) (.not tree)
  | closed {tokens : List Token} {tree : Tree} :
      Sentence .disjunction tokens tree →
      Sentence .term (.punct .openParen :: (tokens ++ [.punct .closeParen])) tree
  | bare (value : Bool) : Sentence .term [.lit (.bool value)] (.lit value)
  | comparison {tokens others : List Token} {left right : Operand} {token : Token} {op : Op} :
      IsOperand loose tokens left → token.operator = some op → IsOperand loose others right →
      Sentence .term (tokens ++ token :: others) (.cmp op left right)

end Grammar

section

variable {depth : ℕ} {tree : Tree} {rest : List Token}

theorem closed_eq_some_iff {found : Option (Tree × List Token)} {after : List Token} :
    closed found = some (tree, after) ↔ found = some (tree, .punct .closeParen :: after) := by
  constructor
  · intro isClosed
    rw [closed.eq_def] at isClosed
    split at isClosed
    · cases isClosed
      rfl
    · cases isClosed
  · rintro rfl
    rfl

theorem conjunct_bool {value : Bool} :
    conjunct (depth + 1) (.lit (.bool value) :: rest) =
      if endsBare rest then some (.lit value, rest)
      else comparison (.lit (.bool value) :: rest) := rfl

def Opens : Token → Prop
  | .kw .not_ => True
  | .punct .openParen => True
  | .lit (.bool _) => True
  | _ => False

theorem opening (first : Token) :
    first = .kw .not_ ∨ first = .punct .openParen ∨ (∃ value, first = .lit (.bool value)) ∨
      ¬Opens first := by
  by_cases opens : Opens first
  · rw [Opens.eq_def] at opens
    split at opens
    · exact .inl rfl
    · exact .inr (.inl rfl)
    · exact .inr (.inr (.inl ⟨_, rfl⟩))
    · exact opens.elim
  · exact .inr (.inr (.inr opens))

theorem conjunct_comparison {first : Token} (isComparison : ¬Opens first) :
    conjunct (depth + 1) (first :: rest) = comparison (first :: rest) := by
  rw [conjunct.eq_def]
  split
  case h_1 same => cases same
  case h_2 _ same =>
      cases same
      exact (isComparison trivial).elim
  case h_3 _ same =>
      cases same
      exact (isComparison trivial).elim
  case h_4 _ same =>
      cases same
      exact (isComparison trivial).elim
  case h_5 => rfl

end

theorem listed_takes {item : Reader Token Operand} (takes : Takes item (IsOperand true))
    (rounds : ℕ) :
    Takes (listed item rounds) fun tokens items =>
      ∃ inner, tokens = inner ++ [.punct .closeBracket] ∧ AreItems true inner items := by
  induction rounds with
  | zero =>
    intro tokens items after read
    cases read
  | succ rounds ih =>
    intro tokens items after read
    rw [listed.eq_def] at read
    split at read
    case h_1 same => cases same
    case h_2 rest _ =>
        cases read
        exact ⟨[.punct .closeBracket], rfl, [], rfl, .none rfl⟩
    case h_3 same _ =>
        cases same
        obtain ⟨⟨first, between⟩, firstRead, laterRead⟩ := Option.bind_eq_some_iff.mp read
        obtain ⟨front, rfl, isFirst⟩ := takes firstRead
        simp only at laterRead
        split at laterRead
        · obtain ⟨⟨others, rest⟩, othersRead, same⟩ := Option.map_eq_some_iff.mp laterRead
          cases same
          obtain ⟨_, rfl, inner, rfl, areOthers⟩ := ih othersRead
          exact ⟨front ++ .punct .comma :: (inner ++ [.punct .closeBracket]), by simp,
            front ++ .punct .comma :: inner, by simp, .more isFirst areOthers⟩
        · cases laterRead
          exact ⟨front ++ [.punct .closeBracket], by simp, front, rfl, .last isFirst⟩
        · cases laterRead

theorem operand_takes (depth : ℕ) : Takes (operand depth) (IsOperand true) := by
  induction depth with
  | zero =>
    intro tokens value after read
    cases read
  | succ depth ih =>
    intro tokens value after read
    rw [operand.eq_def] at read
    split at read
    case h_1 same => cases same
    case h_2 =>
        cases read
        exact ⟨[_], rfl, .lit _ (.inl rfl)⟩
    case h_3 =>
        cases read
        exact ⟨[_], rfl, .path _⟩
    case h_4 same =>
        cases same
        obtain ⟨⟨items, rest⟩, itemsRead, same⟩ := Option.map_eq_some_iff.mp read
        cases same
        obtain ⟨_, rfl, inner, rfl, areItems⟩ := listed_takes ih _ itemsRead
        exact ⟨.punct .openBracket :: (inner ++ [.punct .closeBracket]), rfl, .list areItems⟩
    case h_5 => cases read

theorem comparison_takes : Takes comparison (Sentence true .term) := by
  intro tokens tree after read
  obtain ⟨⟨left, between⟩, leftRead, laterRead⟩ := Option.bind_eq_some_iff.mp read
  obtain ⟨front, rfl, isLeft⟩ := operand_takes _ leftRead
  have isComparison {token : Token} {op : Op} {rest : List Token}
      (isOp : token.operator = some op)
      (read : (operand rest.length rest).map (Prod.map (.cmp op left) id) = some (tree, after)) :
      ∃ whole, front ++ token :: rest = whole ++ after ∧ Sentence true .term whole tree := by
    obtain ⟨⟨right, last⟩, rightRead, same⟩ := Option.map_eq_some_iff.mp read
    cases same
    obtain ⟨others, rfl, isRight⟩ := operand_takes _ rightRead
    exact ⟨front ++ token :: others, by simp, .comparison isLeft isOp isRight⟩
  simp only [compared.eq_def] at laterRead
  split at laterRead
  · exact isComparison rfl laterRead
  · exact isComparison rfl laterRead
  · cases laterRead

theorem disjunction_takes {item : Reader Token Tree} (takes : Takes item (Sentence true .term)) :
    Takes (disjunction item) (Sentence true .disjunction) := by
  refine separated_takes .conjunction ?_ (separated_takes .term ?_ takes)
  · intro tokens others left right token isLeft separates isRight
    cases token with
    | kw word => cases word <;> first | exact isLeft.or isRight | cases separates
    | _ => cases separates
  · intro tokens others left right token isLeft separates isRight
    cases token with
    | kw word => cases word <;> first | exact isLeft.and isRight | cases separates
    | _ => cases separates

theorem conjunct_takes (depth : ℕ) : Takes (conjunct depth) (Sentence true .term) := by
  induction depth with
  | zero =>
    intro tokens tree after read
    cases read
  | succ depth ih =>
    intro tokens tree after read
    cases tokens with
    | nil => cases read
    | cons first rest =>
      rcases opening first with rfl | rfl | ⟨value, rfl⟩ | isComparison
      · obtain ⟨⟨inner, between⟩, innerRead, same⟩ := Option.map_eq_some_iff.mp read
        cases same
        obtain ⟨front, rfl, isInner⟩ := ih innerRead
        exact ⟨.kw .not_ :: front, rfl, .not isInner⟩
      · obtain ⟨front, rfl, isInner⟩ := disjunction_takes ih (closed_eq_some_iff.mp read)
        exact ⟨.punct .openParen :: (front ++ [.punct .closeParen]), by simp, .closed isInner⟩
      · rw [conjunct_bool] at read
        split at read
        · cases read
          exact ⟨[_], rfl, .bare value⟩
        · exact comparison_takes read
      · rw [conjunct_comparison isComparison] at read
        exact comparison_takes read

def listedAfter (p : Reader Token Operand) (rounds : Nat) (first : Operand) :
    Reader Token (List Operand)
  | .punct .comma :: rest => (listed p rounds rest).map (Prod.map (first :: ·) id)
  | .punct .closeBracket :: rest => some ([first], rest)
  | _ => none

theorem listed_succ {p : Reader Token Operand} {rounds : ℕ} {tokens : List Token}
    (isOpen : ∀ rest, tokens ≠ .punct .closeBracket :: rest) :
    listed p (rounds + 1) tokens =
      (p tokens).bind fun (first, after) => listedAfter p rounds first after := by
  rw [listed.eq_def]
  split
  case h_1 same => cases same
  case h_2 rest _ => exact absurd rfl (isOpen rest)
  case h_3 same _ => cases same; rfl

variable {loose : Bool}

theorem IsOperand.starts {tokens : List Token} {value : Operand}
    (isOperand : IsOperand loose tokens value) :
    ∃ first rest, tokens = first :: rest ∧ first ≠ .punct .closeBracket ∧
      (Opens first → ∃ value, first = .lit (.bool value) ∧ rest = []) := by
  cases isOperand with
  | lit value _ =>
    refine ⟨_, _, rfl, nofun, fun opens => ?_⟩
    cases value <;> first | exact opens.elim | exact ⟨_, rfl, rfl⟩
  | path names => exact ⟨_, _, rfl, nofun, False.elim⟩
  | list _ => exact ⟨_, _, rfl, nofun, False.elim⟩

mutual

theorem IsOperand.read {tokens : List Token} {value : Operand} {depth : ℕ} :
    IsOperand loose tokens value → tokens.length ≤ depth → ∀ rest,
      operand depth (tokens ++ rest) = some (value, rest)
  | .lit _ _, enough, rest => by
    obtain ⟨depth, rfl⟩ := Nat.exists_eq_add_of_le' enough
    rfl
  | .path _, enough, rest => by
    obtain ⟨depth, rfl⟩ := Nat.exists_eq_add_of_le' enough
    rfl
  | @IsOperand.list _ inner _ areItems, enough, rest => by
    obtain ⟨depth, rfl⟩ : ∃ n, depth = n + 1 := Nat.exists_eq_add_of_le' (by simp at enough; omega)
    have read : listed (operand depth) ((inner ++ .punct .closeBracket :: rest).length + 1)
        (inner ++ .punct .closeBracket :: rest) = some (_, rest) :=
      areItems.read (by simp at enough; omega) (by rw [length_append]; omega) rest
    rw [cons_append, append_assoc, singleton_append, operand, read]
    rfl

theorem AreItems.read {tokens : List Token} {items : List Operand} {depth rounds : ℕ} :
    AreItems loose tokens items → tokens.length ≤ depth → tokens.length < rounds → ∀ rest,
      listed (operand depth) rounds (tokens ++ .punct .closeBracket :: rest) = some (items, rest)
  | .none _, _, enough, rest => by
    obtain ⟨rounds, rfl⟩ := Nat.exists_eq_add_of_le' enough
    rfl
  | .last isOperand, deep, enough, rest => by
    obtain ⟨rounds, rfl⟩ : ∃ n, rounds = n + 1 := Nat.exists_eq_add_of_le' (by omega)
    obtain ⟨first, others, rfl, notClosed, -⟩ := isOperand.starts
    rw [listed_succ (by rintro _ ⟨⟩; exact notClosed rfl), isOperand.read deep]
    rfl
  | @AreItems.more _ front later _ items isOperand areItems, deep, enough, rest => by
    obtain ⟨rounds, rfl⟩ : ∃ n, rounds = n + 1 := Nat.exists_eq_add_of_le' (by omega)
    simp only [length_append, length_cons] at deep enough
    obtain ⟨first, others, rfl, notClosed, -⟩ := isOperand.starts
    have read : listed (operand depth) rounds (later ++ .punct .closeBracket :: rest) =
        some (items, rest) := areItems.read (by omega) (by omega) rest
    rw [append_assoc, listed_succ (by rintro _ ⟨⟩; exact notClosed rfl), isOperand.read (by omega)]
    simp only [bind_some, cons_append, listedAfter, read]
    rfl

end

theorem endsBare_of_operator {token : Token} {op : Op} (isOp : token.operator = some op)
    (rest : List Token) : endsBare (token :: rest) = false := by
  cases token with
  | kw word => cases word <;> first | rfl | cases isOp
  | op _ => rfl
  | _ => cases isOp

theorem comparison_read {tokens others : List Token} {left right : Operand} {token : Token}
    {op : Op} (isLeft : IsOperand loose tokens left) (isOp : token.operator = some op)
    (isRight : IsOperand loose others right) (rest : List Token) :
    comparison (tokens ++ token :: (others ++ rest)) = some (.cmp op left right, rest) := by
  have read : operand (others ++ rest).length (others ++ rest) = some (right, rest) :=
    isRight.read (by simp) rest
  rw [comparison, isLeft.read (by simp), bind_some]
  cases token with
  | op found =>
    cases isOp
    simp only [compared, read]
    rfl
  | kw word =>
    cases word with
    | in_ =>
      cases isOp
      simp only [compared, read]
      rfl
    | _ => cases isOp
  | _ => cases isOp

theorem conjunct_comparison_read {tokens others : List Token} {left right : Operand}
    {token : Token} {op : Op} (isLeft : IsOperand loose tokens left)
    (isOp : token.operator = some op) (isRight : IsOperand loose others right)
    (rest : List Token) (depth : ℕ) :
    conjunct (depth + 1) (tokens ++ token :: (others ++ rest)) =
      some (.cmp op left right, rest) := by
  have read := comparison_read isLeft isOp isRight rest
  obtain ⟨first, inner, rfl, -, whole⟩ := isLeft.starts
  by_cases opens : Opens first
  · obtain ⟨value, rfl, rfl⟩ := whole opens
    rw [singleton_append, conjunct_bool, endsBare_of_operator isOp]
    exact read
  · rw [cons_append, conjunct_comparison opens]
    exact read

def Level.Reads (depth : ℕ) (tokens : List Token) (tree : Tree) (rest : List Token) : Level → Prop
  | .term => conjunct depth tokens = some (tree, rest)
  | .conjunction => Continues Token.isAnd .and (conjunct depth) tokens tree rest
  | .disjunction => (∀ token ∈ rest.head?, token.isAnd = false) →
      Continues Token.isOr .or (separated Token.isAnd .and (conjunct depth)) tokens tree rest

variable {tree : Tree}

theorem Sentence.read {level : Level} {tokens : List Token}
    (sentence : Sentence loose level tokens tree) {depth : ℕ} (enough : tokens.length ≤ depth)
    {rest : List Token} (ends : endsBare rest) :
    level.Reads depth (tokens ++ rest) tree rest := by
  induction sentence generalizing depth rest with
  | conjunction _ ih =>
    intro stops
    exact .single ((ih enough ends).stops stops)
  | or _ _ left right =>
    intro stops
    simp only [length_append, length_cons] at enough
    rw [append_assoc]
    exact (left (by omega) rfl (by rintro _ ⟨⟩; rfl)).next rfl ((right (by omega) ends).stops stops)
  | term _ ih => exact .single (ih enough ends)
  | and _ _ left right =>
    simp only [length_append, length_cons] at enough
    rw [append_assoc]
    exact (left (by omega) rfl).next rfl (right (by omega) ends)
  | not _ ih =>
    obtain ⟨depth, rfl⟩ := Nat.exists_eq_add_of_le' (Nat.le_of_add_left_le enough)
    exact map_eq_some_iff.mpr ⟨_, ih (Nat.le_of_succ_le_succ enough) ends, rfl⟩
  | closed _ ih =>
    obtain ⟨depth, rfl⟩ := Nat.exists_eq_add_of_le' (Nat.le_of_add_left_le enough)
    rw [cons_append, append_assoc]
    refine closed_eq_some_iff.mpr ((ih (by simp at enough; omega) rfl ?_).stops ?_)
    · rintro _ ⟨⟩; rfl
    · rintro _ ⟨⟩; rfl
  | bare value =>
    obtain ⟨depth, rfl⟩ := Nat.exists_eq_add_of_le' enough
    exact if_pos ends
  | comparison isLeft isOp isRight =>
    obtain ⟨depth, rfl⟩ : ∃ n, depth = n + 1 := Nat.exists_eq_add_of_le' (by simp at enough; omega)
    rw [append_assoc]
    exact conjunct_comparison_read isLeft isOp isRight rest depth

theorem parse_eq_some_iff {text : Text} :
    parse text = some tree ↔
      ∃ read, tokens text = some read ∧
        disjunction (conjunct read.length) read = some (tree, []) := by
  have whole_iff : ∀ found : Option (Tree × List Token),
      whole found = some tree ↔ found = some (tree, []) := by
    intro found
    constructor
    · intro isWhole
      rw [whole.eq_def] at isWhole
      split at isWhole
      · cases isWhole
        rfl
      · cases isWhole
    · rintro rfl
      rfl
  rw [parse, bind_eq_some_iff]
  simp only [whole_iff]

theorem parse_of_sentence {text : Text} {read : List Token}
    (isRead : tokens text = some read) (sentence : Sentence loose .disjunction read tree) :
    parse text = some tree := by
  have reads : Continues Token.isOr .or
      (separated Token.isAnd .and (conjunct read.length)) (read ++ []) tree [] :=
    sentence.read le_rfl rfl nofun
  rw [append_nil] at reads
  exact parse_eq_some_iff.mpr ⟨read, isRead, reads.stops nofun⟩

theorem parse_eq_some_iff_sentence {text : Text} :
    parse text = some tree ↔
      ∃ read, tokens text = some read ∧ Sentence true .disjunction read tree := by
  constructor
  · intro isParsed
    obtain ⟨read, isRead, parsed⟩ := parse_eq_some_iff.mp isParsed
    obtain ⟨front, same, sentence⟩ := disjunction_takes (conjunct_takes _) parsed
    rw [append_nil] at same
    exact ⟨read, isRead, same ▸ sentence⟩
  · rintro ⟨read, isRead, sentence⟩
    exact parse_of_sentence isRead sentence

def Op.Compares (op : Op) (a b : Value) : Prop :=
  (a ≠ .missing ∧ b ≠ .missing) ∧
    match op with
    | .eq => a.equal b = true
    | .ne => a.equal b = false
    | .in_ => a.within b = true
    | op => Value.ordered op a b = some true

theorem compare_iff {op : Op} {a b : Value} : compare op a b = true ↔ op.Compares a b := by
  rw [compare.eq_def]
  split
  case h_1 => exact iff_of_false nofun fun compares => compares.1.1 rfl
  case h_2 => exact iff_of_false nofun fun compares => compares.1.2 rfl
  case h_3 isThere others =>
      have areThere : a ≠ .missing ∧ b ≠ .missing := ⟨isThere, others⟩
      cases op <;> simp [Op.Compares, areThere, getD_eq_iff]

section Meaning

variable (floorLog10 : Rat → Int) (args : Members)

def Means : Tree → Prop
  | .or left right => Means left ∨ Means right
  | .and left right => Means left ∧ Means right
  | .not inner => ¬Means inner
  | .cmp op left right =>
    ∃ a ∈ value floorLog10 args left, ∃ b ∈ value floorLog10 args right, op.Compares a b
  | .lit value => value = true

theorem means_of_eval {asks : Bool}
    (isEval : eval floorLog10 args tree = some asks) :
    asks = true ↔ Means floorLog10 args tree := by
  induction tree generalizing asks with
  | or left right ihLeft ihRight =>
    rw [eval] at isEval
    rw [Means]
    split at isEval
    · next isLeft =>
        cases isEval
        exact iff_of_true rfl (.inl ((ihLeft isLeft).mp rfl))
    · next isLeft =>
        rw [ihRight isEval, or_iff_right fun means => nomatch (ihLeft isLeft).mpr means]
    · cases isEval
  | and left right ihLeft ihRight =>
    rw [eval] at isEval
    rw [Means]
    split at isEval
    · next isLeft => rw [ihRight isEval, and_iff_right ((ihLeft isLeft).mp rfl)]
    · next isLeft =>
        cases isEval
        exact iff_of_false nofun fun means => nomatch (ihLeft isLeft).mpr means.1
    · cases isEval
  | not inner ih =>
    obtain ⟨found, isFound, rfl⟩ := map_eq_some_iff.mp isEval
    rw [Means, ← ih isFound, Bool.not_eq_true', Bool.not_eq_true]
  | cmp op left right =>
    obtain ⟨a, isLeft, laterEval⟩ := bind_eq_some_iff.mp isEval
    obtain ⟨b, isRight, rfl⟩ := map_eq_some_iff.mp laterEval
    simp [Means, isLeft, isRight, compare_iff]
  | lit value =>
    cases isEval
    exact Iff.rfl

end Meaning

mutual

def Operand.asksShape : Operand → Bool
  | .lit _ => false
  | .path names => names = [shapeName]
  | .list items => itemsAskShape items

def itemsAskShape : List Operand → Bool
  | [] => false
  | item :: items => item.asksShape || itemsAskShape items

end

def Tree.asksShape : Tree → Bool
  | .or left right => left.asksShape || right.asksShape
  | .and left right => left.asksShape || right.asksShape
  | .not inner => inner.asksShape
  | .cmp _ left right => left.asksShape || right.asksShape
  | .lit _ => false

section Total

variable {floorLog10 : Rat → Int} {args : Members}

mutual

theorem value_isSome : ∀ {node : Operand},
    (node.asksShape = true → (argShape floorLog10 args).isSome) →
      (value floorLog10 args node).isSome
  | .lit _, _ => rfl
  | .list items, shaped => by
    rw [value, isSome_map]
    exact values_isSome shaped
  | .path names, shaped => by
    rw [value]
    split
    · next isShape =>
        rw [isSome_map]
        exact shaped (decide_eq_true isShape)
    · rfl

theorem values_isSome : ∀ {items : List Operand},
    (itemsAskShape items = true → (argShape floorLog10 args).isSome) →
      (values floorLog10 args items).isSome
  | [], _ => rfl
  | item :: items, shaped => by
    simp only [itemsAskShape, Bool.or_eq_true, or_imp] at shaped
    obtain ⟨first, isFirst⟩ := isSome_iff_exists.mp (value_isSome shaped.1)
    rw [values, isFirst, bind_some, isSome_map]
    exact values_isSome shaped.2

end

theorem eval_isSome (shaped : tree.asksShape = true → (argShape floorLog10 args).isSome) :
    (eval floorLog10 args tree).isSome := by
  induction tree with
  | or left right ihLeft ihRight =>
    simp only [Tree.asksShape, Bool.or_eq_true, or_imp] at shaped
    rw [eval]
    split
    · rfl
    · exact ihRight shaped.2
    · next raised => simpa [raised] using ihLeft shaped.1
  | and left right ihLeft ihRight =>
    simp only [Tree.asksShape, Bool.or_eq_true, or_imp] at shaped
    rw [eval]
    split
    · exact ihRight shaped.2
    · rfl
    · next raised => simpa [raised] using ihLeft shaped.1
  | not inner ih =>
    rw [eval, isSome_map]
    exact ih shaped
  | cmp op left right =>
    simp only [Tree.asksShape, Bool.or_eq_true, or_imp] at shaped
    obtain ⟨a, isLeft⟩ := isSome_iff_exists.mp (value_isSome shaped.1)
    rw [eval, isLeft, bind_some, isSome_map]
    exact value_isSome shaped.2
  | lit value => rfl

end Total

/-- Not an infinity, nor not-a-number. -/
def Value.isFinite : Value → Bool
  | .num (.finite _) => true
  | .num _ => false
  | _ => true

theorem kinds_isSome (floorLog10 : Rat → Int) {args : Members}
    (finite : ∀ arg ∈ args, arg.2.isFinite = true) :
    (args.mapM fun (name, value) =>
      (valueKind floorLog10 value).map (name ++ ':' :: ·)).isSome := by
  induction args with
  | nil => rfl
  | cons arg others ih =>
    obtain ⟨name, value⟩ := arg
    obtain ⟨isFinite, othersFinite⟩ := forall_mem_cons.mp finite
    have isKind : (valueKind floorLog10 value).isSome := by
      cases value with
      | num value => cases value <;> first | rfl | cases isFinite
      | _ => rfl
    obtain ⟨kind, isKind⟩ := isSome_iff_exists.mp isKind
    obtain ⟨kinds, areKinds⟩ := isSome_iff_exists.mp (ih othersFinite)
    rw [mapM_cons, areKinds]
    simp only [isKind]
    rfl

/-- The trees that the parser gives are those of the sentences that the words of a text within
the limit make; and an expression says of a call what its tree means, unless it asks for a shape
that is not had. -/
theorem expression_means (floorLog10 : Rat → Int) (args : Members) (text : Text) (tree : Tree)
    (finite : tree.asksShape = true → ∀ arg ∈ args, arg.2.isFinite = true) :
    (parse text = some tree ↔ text.length ≤ maxExpressionChars ∧
      ∃ read, Spells text read ∧ Sentence true .disjunction read tree) ∧
    (parse text = some tree → ∃ asks, evaluate floorLog10 args text = some asks ∧
      (asks = true ↔ Means floorLog10 args tree)) := by
  have isSentence : parse text = some tree ↔ text.length ≤ maxExpressionChars ∧
      ∃ read, Spells text read ∧ Sentence true .disjunction read tree := by
    simp only [parse_eq_some_iff_sentence, tokens_eq_some_iff, and_assoc, exists_and_left]
  refine ⟨isSentence, fun isParsed => ?_⟩
  have shaped (asks : tree.asksShape = true) : (argShape floorLog10 args).isSome := by
    rw [argShape, Option.isSome_map]
    exact kinds_isSome floorLog10 fun arg member =>
      finite asks arg ((perm_insertionSort _ _).mem_iff.mp member)
  obtain ⟨asks, isEval⟩ := Option.isSome_iff_exists.mp (eval_isSome shaped)
  refine ⟨asks, ?_, means_of_eval floorLog10 args isEval⟩
  rw [evaluate, isParsed]
  exact isEval

/-- A call is asked about that is not known to be urgent. -/
theorem not_urgent_means :
    ∃ asks, evaluate (fun _ => 0) [] "not urgent == true".toList = some asks ∧
      (asks = true ↔
        Means (fun _ => 0) [] (.not (.cmp .eq (.path ["urgent".toList]) (.lit (.bool true))))) :=
  (expression_means (fun _ => 0) [] "not urgent == true".toList
    (.not (.cmp .eq (.path ["urgent".toList]) (.lit (.bool true)))) (fun _ => nofun)).2 rfl

theorem Sentence.no_bool {level : Level} {tokens : List Token}
    (sentence : Sentence false level tokens tree) (op : Op) (value : Bool) (right : Operand) :
    tree ≠ .cmp op (.lit (.bool value)) right := by
  induction sentence with
  | conjunction _ ih => exact ih
  | term _ ih => exact ih
  | closed _ ih => exact ih
  | comparison isLeft _ _ =>
    rintro ⟨⟩
    cases isLeft with
    | lit _ isPlain => exact isPlain.elim nofun nofun
  | _ => exact nofun

/-- A boolean is compared, which no sentence of the grammar as it is written does. -/
theorem booleans_are_compared :
    ¬ ∀ text tree, text.length ≤ maxExpressionChars →
      (parse text = some tree ↔
        ∃ read, Spells text read ∧ Sentence false .disjunction read tree) := by
  intro always
  have isParsed : parse "true == urgent".toList =
      some (.cmp .eq (.lit (.bool true)) (.path ["urgent".toList])) := rfl
  obtain ⟨_, -, sentence⟩ := (always _ _ (by decide)).mp isParsed
  exact sentence.no_bool _ _ _ rfl

end MemoryService.Approval
