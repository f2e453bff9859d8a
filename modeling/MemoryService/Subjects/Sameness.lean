import MemoryService.Subjects.Symmetry

/-!
# What proves two subjects the same

Only what is written proves it: the words and identifiers in their order, or the same identifiers
and the same letters split differently.
-/

namespace MemoryService.Subjects

variable (lexicon : Lexicon) (order : SetOrder)

/-- What two subjects that nothing blocks must share to be the same. -/
def Written (a b : Subject) : Prop :=
  a.sequence = b.sequence ∨ a.ids = b.ids ∧ a.labelled = b.labelled ∧ joined lexicon a b = true

theorem codeAgainstName_ne_same (code name : Subject) :
    codeAgainstName lexicon code name ≠ some .same := by
  rw [codeAgainstName]
  split
  · decide
  · split
    · split <;> decide
    · decide

theorem eitherCode_ne_same (a b : Subject) :
    ((codeAgainstName lexicon a b).orElse fun _ => codeAgainstName lexicon b a) ≠ some .same := by
  cases first : codeAgainstName lexicon a b with
  | none => exact codeAgainstName_ne_same lexicon b a
  | some verdict =>
    rw [Option.orElse_some, ← first]
    exact codeAgainstName_ne_same lexicon a b

theorem overlap_eq_same_iff (a b : Subject) (names : List Subject) :
    overlap lexicon a b names = some .same ↔ Written lexicon a b := by
  rw [Written, overlap]
  by_cases sequences : a.sequence = b.sequence
  · simp [sequences]
  · rw [if_neg sequences]
    by_cases letters : a.ids = b.ids ∧ a.labelled = b.labelled ∧ joined lexicon a b = true
    · rw [if_pos letters]
      exact iff_of_true rfl (.inr letters)
    · rw [if_neg letters]
      -- from here on every verdict is another one
      have notWritten :
          ¬(a.sequence = b.sequence ∨
            a.ids = b.ids ∧ a.labelled = b.labelled ∧ joined lexicon a b = true) :=
        not_or.mpr ⟨sequences, letters⟩
      refine iff_of_false ?_ notWritten
      split
      · decide
      · split
        · rename_i verdict ofCode
          rw [← ofCode]
          exact eitherCode_ne_same lexicon a b
        · split_ifs <;> decide

variable {a b : Subject}

theorem compare_eq_same_of_unblocked (unblocked : blocked a b = none)
    (cosine : Option ℚ) (names : List Subject) (topic : Bool) :
    compare lexicon order a b cosine names topic = .same ↔
      overlap lexicon a b names = some .same := by
  rw [compare, unblocked]
  cases shared : overlap lexicon a b names with
  | some verdict => simp
  | none =>
    refine iff_of_false ?_ (by decide)
    simp only
    split_ifs <;> decide

section

variable (unnamed : a.identity = none)
include unnamed

section

variable (otherUnnamed : b.identity = none)
include otherUnnamed

theorem blocked_ne_same
    : blocked a b ≠ some .same := by
  rw [blocked, unnamed, otherUnnamed]
  split
  · contradiction
  · split
    · decide
    · split <;> decide

theorem compare_eq_same_iff
    (cosine : Option ℚ) (names : List Subject)
    (topic : Bool) :
    compare lexicon order a b cosine names topic = .same ↔
      blocked a b = none ∧ Written lexicon a b := by
  cases isBlocked : blocked a b with
  | none =>
    rw [compare_eq_same_of_unblocked lexicon order isBlocked, overlap_eq_same_iff]
    simp
  | some verdict =>
    have notSame : verdict ≠ .same := fun same =>
      blocked_ne_same unnamed otherUnnamed (same ▸ isBlocked)
    rw [compare, isBlocked]
    simpa using notSame

theorem compare_of_ids_ne
    (numbered : a.ids ≠ []) (otherNumbered : b.ids ≠ [])
    (differ : a.ids ≠ b.ids) (cosine : Option ℚ) (names : List Subject) (topic : Bool) :
    compare lexicon order a b cosine names topic = .different := by
  have conflicts : conflict a b = true := by
    simp [conflict, numbered, otherNumbered, differ]
  have isBlocked : blocked a b = some .different := by
    rw [blocked, unnamed, otherUnnamed, conflicts]
    simp
  rw [compare, isBlocked]

end

end

/-- Meaning alone never proves two subjects the same. -/
theorem only_writing_proves_sameness {a b : Subject} (unnamed : a.identity = none)
    (otherUnnamed : b.identity = none) :
    (∀ cosine names topic,
        compare lexicon order a b cosine names topic = .same ↔
          blocked a b = none ∧ Written lexicon a b) ∧
      (∀ cosine names topic otherCosine otherNames otherTopic,
        compare lexicon order a b cosine names topic = .same ↔
          compare lexicon order a b otherCosine otherNames otherTopic = .same) ∧
      (a.ids ≠ [] → b.ids ≠ [] → a.ids ≠ b.ids → ∀ cosine names topic,
        compare lexicon order a b cosine names topic = .different) := by
  refine ⟨compare_eq_same_iff lexicon order unnamed otherUnnamed, ?_, ?_⟩
  · intro cosine names topic otherCosine otherNames otherTopic
    rw [compare_eq_same_iff lexicon order unnamed otherUnnamed,
      compare_eq_same_iff lexicon order unnamed otherUnnamed]
  · exact compare_of_ids_ne lexicon order unnamed otherUnnamed

def splitName : Subject :=
  subjectOf "wal mart 3" [⟨.word, "wal", "wal"⟩, ⟨.word, "mart", "mart"⟩, ⟨.id, "3", "3"⟩]

def nextName : Subject :=
  subjectOf "wal mart 4" [⟨.word, "wal", "wal"⟩, ⟨.word, "mart", "mart"⟩, ⟨.id, "4", "4"⟩]

theorem only_writing_proves_two_stores :
    splitName.ids ≠ nextName.ids ∧
      ∀ cosine names topic,
        compare plainLexicon sortedOrder splitName nextName cosine names topic = .different := by
  have differ : splitName.ids ≠ nextName.ids := by decide +kernel
  have verdicts :=
    only_writing_proves_sameness plainLexicon sortedOrder (a := splitName) (b := nextName) rfl rfl
  exact ⟨differ, verdicts.2.2 (by decide +kernel) (by decide +kernel) differ⟩

end MemoryService.Subjects
