import MemoryService.Subjects.Subject

/-!
# When a comparison treats its sides alike

All rules but one ask the same of both sides.
-/

namespace MemoryService.Subjects

open List

/-- No word labels two different identifiers. -/
def Subject.Consistent (a : Subject) : Prop :=
  ∀ word i j, word ≠ "" → (word, i) ∈ a.labelled → (word, j) ∈ a.labelled → i = j

variable {word value i : String} {pairs : List (String × String)} {α : Type} {a b : Subject}

section

variable {a b : Subject}

theorem mem_of_lookup (found : pairs.lookup word = some value) : (word, value) ∈ pairs := by
  induction pairs with
  | nil => cases found
  | cons pair pairs ih =>
    obtain ⟨key, held⟩ := pair
    rw [lookup_cons] at found
    by_cases same : word = key
    · rw [same] at found ⊢
      simp only [beq_self_eq_true, Option.some.injEq] at found
      rw [found]
      exact mem_cons_self
    · simp only [beq_eq_false_iff_ne.mpr same] at found
      exact mem_cons_of_mem _ (ih found)

theorem lookup_of_mem (member : (word, value) ∈ pairs) : ∃ held, pairs.lookup word = some held := by
  induction pairs with
  | nil => cases member
  | cons pair pairs ih =>
    obtain ⟨key, held⟩ := pair
    rw [lookup_cons]
    by_cases same : word = key
    · exact ⟨held, by simp [same]⟩
    · simp only [beq_eq_false_iff_ne.mpr same]
      rcases mem_cons.mp member with isHead | isLater
      · exact absurd (congrArg Prod.fst isHead) same
      · exact ih isLater

theorem mem_of_label (labels : a.label word = some i) : (word, i) ∈ a.labelled :=
  mem_reverse.mp (mem_of_lookup labels)

theorem label_of_mem (member : (word, i) ∈ a.labelled) : ∃ j, a.label word = some j :=
  lookup_of_mem (mem_reverse.mpr member)

theorem labelsConflict_iff :
    labelsConflict a b = true ↔
      ∃ word i, word ≠ "" ∧ (word, i) ∈ b.labelled ∧ ∃ j, a.label word = some j ∧ j ≠ i := by
  rw [labelsConflict, any_eq_true]
  constructor
  · intro ⟨⟨word, i⟩, member, differs⟩
    simp only [Bool.and_eq_true, decide_eq_true_eq] at differs
    cases held : a.label word with
    | none =>
      rw [held] at differs
      exact absurd rfl differs.2
    | some j =>
      rw [held] at differs
      exact ⟨word, i, differs.1, member, j, held, differs.2⟩
  · intro ⟨word, i, isWord, member, j, held, differs⟩
    refine ⟨(word, i), member, ?_⟩
    simp [isWord, held, differs]

theorem labelsConflict_iff_of_consistent (consistent : a.Consistent) :
    labelsConflict a b = true ↔
      ∃ word i j, word ≠ "" ∧ (word, j) ∈ a.labelled ∧ (word, i) ∈ b.labelled ∧ j ≠ i := by
  rw [labelsConflict_iff]
  constructor
  · intro ⟨word, i, isWord, ofB, j, held, differs⟩
    exact ⟨word, i, j, isWord, mem_of_label held, ofB, differs⟩
  · intro ⟨word, i, j, isWord, ofA, ofB, differs⟩
    obtain ⟨held, isHeld⟩ := label_of_mem ofA
    have sameId : held = j := consistent word held j isWord (mem_of_label isHeld) ofA
    exact ⟨word, i, isWord, ofB, j, sameId ▸ isHeld, differs⟩

theorem labelsConflict_symm (first : a.Consistent) (second : b.Consistent) :
    labelsConflict a b = labelsConflict b a := by
  rw [Bool.eq_iff_iff, labelsConflict_iff_of_consistent first,
    labelsConflict_iff_of_consistent second]
  constructor
  · intro ⟨word, i, j, isWord, ofA, ofB, differs⟩
    exact ⟨word, j, i, isWord, ofB, ofA, differs.symm⟩
  · intro ⟨word, i, j, isWord, ofB, ofA, differs⟩
    exact ⟨word, j, i, isWord, ofA, ofB, differs.symm⟩

theorem labelsConflict_self : labelsConflict a a = true ↔ ¬a.Consistent := by
  rw [labelsConflict_iff]
  constructor
  · intro ⟨word, i, isWord, member, j, held, differs⟩ consistent
    exact differs (consistent word j i isWord (mem_of_label held) member)
  · intro inconsistent
    simp only [Subject.Consistent, not_forall] at inconsistent
    obtain ⟨word, i, j, isWord, ofI, ofJ, differs⟩ := inconsistent
    obtain ⟨held, isHeld⟩ := label_of_mem ofI
    by_cases same : held = i
    · exact ⟨word, j, isWord, ofJ, held, isHeld, same ▸ differs⟩
    · exact ⟨word, i, isWord, ofI, held, isHeld, same⟩

end

theorem differ_symm [DecidableEq α] (first second : Bool) (x y : α) :
    (first && second && decide (x ≠ y)) = (second && first && decide (y ≠ x)) := by
  have sides : decide (x ≠ y) = decide (y ≠ x) := decide_eq_decide.mpr ne_comm
  rw [sides, Bool.and_comm first second]

theorem conflict_symm (labels : labelsConflict a b = labelsConflict b a) :
    conflict a b = conflict b a := by
  rw [conflict, conflict, labels, differ_symm (!a.ids.isEmpty), differ_symm (truthy a.legal),
    bothDiffer, differ_symm (decide a.titles.Nonempty), bothDiffer,
    differ_symm (decide a.directions.Nonempty)]
  rfl

theorem blocked_symm (labels : labelsConflict a b = labelsConflict b a) :
    blocked a b = blocked b a := by
  have same : (a.identity = b.identity) = (b.identity = a.identity) := propext eq_comm
  rw [blocked, blocked, conflict_symm labels, Bool.or_comm a.identity.isSome, Bool.or_comm a.empty]
  simp only [same]

theorem oneEdit_symm (x y : List Char) :
    editDistanceAtMostOne x y = editDistanceAtMostOne y x := by
  by_cases same : x = y
  · rw [same]
  · by_cases long : x.length = y.length
    · have places : diffs x y = diffs y x := by
        rw [diffs, diffs, long]
        exact filter_congr fun i _ => decide_eq_decide.mpr ne_comm
      rw [editDistanceAtMostOne, editDistanceAtMostOne, if_neg same, if_pos long,
        if_neg (Ne.symm same), if_pos long.symm, places]
      split
      · rfl
      · rename_i i j _
        have first : (x[i]? = y[j]?) = (y[j]? = x[i]?) := propext eq_comm
        have second : (x[j]? = y[i]?) = (y[i]? = x[j]?) := propext eq_comm
        simp only [first, second, Bool.and_assoc, Bool.and_comm (decide (y[j]? = x[i]?))]
      · rfl
    · rw [editDistanceAtMostOne, editDistanceAtMostOne, if_neg same, if_neg long,
        if_neg (Ne.symm same), if_neg (Ne.symm long)]
      by_cases less : x.length < y.length
      · rw [if_pos less, if_neg (by omega)]
      · rw [if_neg less, if_pos (by omega)]

theorem near_symm (x y : String) : near x y = near y x := by
  rw [near, near, oneEdit_symm, min_comm]

theorem matchAll_one (x y : String) : matchAll [x] [y] = near x y := by
  cases isNear : near x y <;> simp [matchAll, isNear]

theorem matchAll_two (x x' : String) {y y' : String} (distinct : y ≠ y') :
    matchAll [x, x'] [y, y'] =
      if near x y = true then near x' y' else near x y' && near x' y := by
  have eraseSecond : [y, y'].erase y' = [y] := by
    rw [erase_cons_tail (by simpa using distinct), erase_cons_head]
  cases first : near x y <;> cases second : near x y' <;> cases third : near x' y <;>
    cases fourth : near x' y' <;>
    simp [matchAll, first, second, third, fourth, eraseSecond]

theorem matchAll_symm {xs ys : List String} (distinct : xs.Nodup) (others : ys.Nodup)
    (long : xs.length = ys.length) (short : xs.length ≤ 2) :
    matchAll xs ys = matchAll ys xs := by
  cases xs with
  | nil =>
    have noneThere : ys = [] := length_eq_zero_iff.mp long.symm
    rw [noneThere]
  | cons x rest =>
    cases rest with
    | nil =>
      obtain ⟨y, one⟩ := length_eq_one_iff.mp long.symm
      rw [one, matchAll_one, matchAll_one, near_symm]
    | cons x' tail =>
      have two : ys.length = 2 := by
        simp only [length_cons] at long short
        omega
      obtain ⟨y, y', isTwo⟩ := length_eq_two.mp two
      have noMore : tail = [] := by
        apply length_eq_zero_iff.mp
        simp only [length_cons] at short
        omega
      rw [isTwo] at others ⊢
      rw [noMore] at distinct ⊢
      have sides : x ≠ x' := by simpa using distinct
      have otherSides : y ≠ y' := by simpa using others
      rw [matchAll_two x x' otherSides, matchAll_two y y' sides, near_symm x y,
        near_symm x' y', near_symm x y', near_symm x' y, Bool.and_comm (near y' x)]

section

variable (lexicon : Lexicon) (order : SetOrder)

theorem spellingVariants_symm (onlyA onlyB : Finset String) :
    spellingVariants order onlyA onlyB = spellingVariants order onlyB onlyA := by
  rw [spellingVariants, spellingVariants, variants, variants]
  by_cases refused : (order.iterate onlyA).length ≠ (order.iterate onlyB).length ∨
      2 < (order.iterate onlyA).length
  · rw [if_pos refused, if_pos (by omega)]
  · rw [if_neg refused, if_neg (by omega)]
    exact matchAll_symm (order.nodup onlyA) (order.nodup onlyB) (by omega) (by omega)

theorem initialism_symm (onlyA onlyB : Finset String) (a b : List String) :
    initialism lexicon order onlyA a onlyB b = initialism lexicon order onlyB b onlyA a := by
  rw [initialism, initialism, Bool.or_comm]

theorem code_one_side (a b : Subject) :
    codeAgainstName lexicon a b = none ∨ codeAgainstName lexicon b a = none := by
  by_cases words : b.tokens.Nonempty
  · apply Or.inr
    rw [codeAgainstName]
    simp [words]
  · apply Or.inl
    rw [codeAgainstName]
    simp [words]

theorem orElse_symm {first second : Option α} (one : first = none ∨ second = none) :
    (first.orElse fun _ => second) = second.orElse fun _ => first := by
  rcases one with isNone | isNone
  · rw [isNone]
    cases second <;> rfl
  · rw [isNone]
    cases first <;> rfl

theorem shorter_symm (part : a.tokens ⊂ b.tokens ∨ b.tokens ⊂ a.tokens) :
    (if a.tokens ⊂ b.tokens then a else b) = if b.tokens ⊂ a.tokens then b else a := by
  rcases part with isLess | isLess
  · rw [if_pos isLess, if_neg (ssubset_asymm isLess)]
  · rw [if_neg (ssubset_asymm isLess), if_pos isLess]

theorem overlap_symm (a b : Subject) (names : List Subject) :
    overlap lexicon a b names = overlap lexicon b a names := by
  have together :
      (a.ids = b.ids ∧ a.labelled = b.labelled ∧ joined lexicon a b = true) =
        (b.ids = a.ids ∧ b.labelled = a.labelled ∧ joined lexicon b a = true) := by
    simp only [joined, eq_comm]
  have sequences : (a.sequence = b.sequence) = (b.sequence = a.sequence) := propext eq_comm
  have tokens : (a.tokens = b.tokens) = (b.tokens = a.tokens) := propext eq_comm
  have parts :
      (a.tokens ⊂ b.tokens ∨ b.tokens ⊂ a.tokens) =
        (b.tokens ⊂ a.tokens ∨ a.tokens ⊂ b.tokens) := propext or_comm
  rw [overlap, overlap, orElse_symm (code_one_side lexicon a b)]
  simp only [together, sequences, tokens]
  by_cases part : a.tokens ⊂ b.tokens ∨ b.tokens ⊂ a.tokens
  · rw [shorter_symm part]
    simp only [parts]
  · have otherPart : ¬(b.tokens ⊂ a.tokens ∨ a.tokens ⊂ b.tokens) := parts ▸ part
    rw [if_neg part, if_neg otherPart]

theorem compare_symm (first : a.identity = none → a.Consistent)
    (second : b.identity = none → b.Consistent) (cosine : Option ℚ) (names : List Subject)
    (topic : Bool) :
    compare lexicon order a b cosine names topic =
      compare lexicon order b a cosine names topic := by
  have sameBlocked : blocked a b = blocked b a := by
    by_cases named : a.identity = none ∧ b.identity = none
    · exact blocked_symm (labelsConflict_symm (first named.1) (second named.2))
    · have isNamed : (a.identity.isSome || b.identity.isSome) = true := by
        cases ofA : a.identity <;> cases ofB : b.identity <;> simp_all
      have sameIdentity : (a.identity = b.identity) = (b.identity = a.identity) := propext eq_comm
      have otherNamed : (b.identity.isSome || a.identity.isSome) = true := by
        rw [Bool.or_comm]
        exact isNamed
      rw [blocked, blocked, if_pos isNamed, if_pos otherNamed]
      simp only [sameIdentity]
  rw [compare, compare, sameBlocked, overlap_symm lexicon a b names]
  simp only [spellingVariants_symm order (a.tokens \ b.tokens),
    initialism_symm lexicon order (a.tokens \ b.tokens), Finset.inter_comm a.tokens]

theorem compare_self_iff (isSubject : a.empty = false) (cosine : Option ℚ)
    (names : List Subject) (topic : Bool) :
    compare lexicon order a a cosine names topic = .same ↔ (a.identity = none → a.Consistent) := by
  have bothDiffer_self : ∀ set : Finset String, bothDiffer set set = false := by
    simp [bothDiffer]
  have conflict_self : conflict a a = labelsConflict a a := by
    simp [conflict, bothDiffer_self]
  cases isIdentity : a.identity with
  | some text => simp [compare, blocked, isIdentity]
  | none =>
    have isBlocked : blocked a a = if labelsConflict a a then some .different else none := by
      rw [blocked, conflict_self]
      simp [isIdentity, isSubject]
    rw [compare, isBlocked]
    by_cases conflicts : labelsConflict a a = true
    · rw [if_pos conflicts]
      simpa using labelsConflict_self.mp conflicts
    · rw [if_neg conflicts]
      have consistent : a.Consistent := not_not.mp fun not =>
        conflicts (labelsConflict_self.mpr not)
      simp [overlap, consistent]

/-- Over any subjects, comparing is reflexive and symmetric exactly where in none of them a
word labels two different identifiers. -/
theorem comparison_fair_iff (subjects : Set Subject) :
    ((∀ a ∈ subjects, a.empty = false → ∀ cosine names topic,
        compare lexicon order a a cosine names topic = .same) ∧
      ∀ a ∈ subjects, ∀ b ∈ subjects, ∀ cosine names topic,
        compare lexicon order a b cosine names topic =
          compare lexicon order b a cosine names topic) ↔
      ∀ a ∈ subjects, a.identity = none → a.Consistent := by
  constructor
  · intro fair a member isUnnamed
    by_cases isSubject : a.empty = false
    · have reflexive := fair.1 a member isSubject none [] false
      exact (compare_self_iff lexicon order isSubject none [] false).mp reflexive isUnnamed
    · -- an empty subject labels nothing
      have nothing : a.labelled = [] := by
        simp only [Subject.empty, Bool.and_eq_false_iff, not_or, Bool.not_eq_false,
          List.isEmpty_iff] at isSubject
        exact isSubject.2
      intro word i j _ ofI
      rw [nothing] at ofI
      cases ofI
  · intro consistent
    constructor
    · intro a member isSubject cosine names topic
      exact (compare_self_iff lexicon order isSubject cosine names topic).mpr (consistent a member)
    · intro a ofA b ofB cosine names topic
      exact compare_symm lexicon order (consistent a ofA) (consistent b ofB) cosine names topic

end

def twoAisles : Subject :=
  subjectOf "Aisle 3 Aisle 4"
    [⟨.word, "aisle", "aisle"⟩, ⟨.id, "3", "3"⟩, ⟨.word, "aisle", "aisle"⟩, ⟨.id, "4", "4"⟩]

def oneAisle : Subject :=
  subjectOf "3 Aisle 4" [⟨.id, "3", "3"⟩, ⟨.word, "aisle", "aisle"⟩, ⟨.id, "4", "4"⟩]

/-- Lower-case Latin words, without connectives. -/
def plainLexicon : Lexicon where
  casefold text := text
  isalnum c := c.isAlphanum
  isalpha text := text.toList.all Char.isAlpha
  isupper _ := false
  isStopword _ := false
  letters text := text

def sortedOrder : SetOrder where
  iterate set := set.sort (· ≤ ·)
  nodup set := set.sort_nodup _
  mem set _ := set.mem_sort _

/-- A word that labels two identifiers: the subject is not the same as itself, and compares
differently from the two sides. -/
theorem repeated_label_is_unfair :
    (¬∀ (lexicon : Lexicon) (order : SetOrder) (a : Subject), a.empty = false →
        compare lexicon order a a none [] false = .same) ∧
      ¬∀ (lexicon : Lexicon) (order : SetOrder) (a b : Subject),
        compare lexicon order a b none [] false = compare lexicon order b a none [] false := by
  constructor
  · intro always
    have reflexive := always plainLexicon sortedOrder twoAisles (by decide +kernel)
    revert reflexive
    decide +kernel
  · intro always
    have symmetric := always plainLexicon sortedOrder twoAisles oneAisle
    revert symmetric
    decide +kernel

end MemoryService.Subjects
