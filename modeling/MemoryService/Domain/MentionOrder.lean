import MemoryService.Domain.FiscalMentions
import MemoryService.Foundation.StableSort
import MemoryService.Foundation.Table

/-!
# The order of fiscal mentions

Each phrase that is resolved has a place of its own in the text.  The mentions are sorted by where
their text is first found instead, which may be before the place that it was matched at.
-/

namespace MemoryService.Domain

open Foundation Foundation.Regex Foundation.StableSort List

def PhraseKind.rank : PhraseKind → ℕ
  | .relative => 0
  | .short => 1
  | .week => 2
  | .period => 3
  | .quarter => 4
  | .season => 5
  | .year => 6

namespace FiscalPhrase

def start (phrase : FiscalPhrase) : ℕ := phrase.found.start

def stop (phrase : FiscalPhrase) : ℕ := phrase.found.stop

def Earlier (phrase other : FiscalPhrase) : Prop :=
  phrase.kind.rank < other.kind.rank ∨
    phrase.kind.rank = other.kind.rank ∧ phrase.start < other.start

/-- One phrase ends before the other begins. -/
def Apart (phrase other : FiscalPhrase) : Prop :=
  phrase.stop ≤ other.start ∨ other.stop ≤ phrase.start

variable {phrase other : FiscalPhrase}

theorem Earlier.asymm (earlier : phrase.Earlier other) : ¬other.Earlier phrase := by
  unfold Earlier at *
  omega

theorem Apart.symm (apart : phrase.Apart other) : other.Apart phrase := Or.symm apart

theorem apart_of_not_overlaps (passed : ¬phrase.overlaps other = true) : other.Apart phrase := by
  rw [overlaps, Bool.and_eq_true, decide_eq_true_eq, decide_eq_true_eq] at passed
  rw [Apart, start, stop, start, stop]
  omega

end FiscalPhrase

variable {unicode : Unicode} {text : List Char}

theorem mem_phrases {phrase : FiscalPhrase} (member : phrase ∈ phrases unicode text) :
    ∃ pattern, (pattern, phrase.kind) ∈ patterns unicode ∧
      phrase.found ∈ pattern.finditer text := by
  obtain ⟨⟨pattern, kind⟩, isPattern, isMatch⟩ := mem_flatMap.mp member
  obtain ⟨found, isFound, rfl⟩ := mem_map.mp isMatch
  exact ⟨pattern, isPattern, isFound⟩

theorem some_text_of_mem_phrases {phrase : FiscalPhrase} (member : phrase ∈ phrases unicode text) :
    phrase.start < phrase.stop := by
  obtain ⟨pattern, -, isFound⟩ := mem_phrases member
  have nonempty := length_pos_iff.mpr (mem_finditer isFound).1.nonempty
  rw [FiscalPhrase.start, FiscalPhrase.stop, Match.start, Match.stop]
  omega

theorem patterns_ranked (unicode : Unicode) :
    (patterns unicode).Pairwise fun first second => first.2.rank < second.2.rank := by
  have ranks : ((patterns unicode).map fun pattern => pattern.2.rank).Pairwise (· < ·) := by
    change [0, 1, 2, 3, 4, 5, 6].Pairwise (· < ·)
    decide
  exact pairwise_map.mp ranks

theorem phrases_earlier (unicode : Unicode) (text : List Char) :
    (phrases unicode text).Pairwise FiscalPhrase.Earlier := by
  rw [phrases, pairwise_flatMap]
  constructor
  · rintro ⟨pattern, kind⟩ -
    rw [pairwise_map]
    refine (@scan_pairwise _ pattern [] text 0).imp_of_mem ?_
    intro first second isFirst _ behind
    have nonempty := length_pos_iff.mpr (mem_finditer isFirst).1.nonempty
    refine .inr ⟨rfl, ?_⟩
    rw [Match.stop] at behind
    change first.before.length < second.start
    omega
  · refine (patterns_ranked unicode).imp ?_
    intro first second ranked phrase isFirst other isSecond
    obtain ⟨_, -, rfl⟩ := mem_map.mp isFirst
    obtain ⟨_, -, rfl⟩ := mem_map.mp isSecond
    exact .inl ranked

variable {calendar : FiscalCalendar} {now : FiscalPosition}

/-- What is collected is found in order, lies apart, and comes from the phrases. -/
structure Collected (phrases : List FiscalPhrase) (out : List FiscalOccurrence) : Prop where
  ordered : out.Pairwise fun first second => first.phrase.Earlier second.phrase
  apart : out.Pairwise fun first second => first.phrase.Apart second.phrase
  ofPhrases : ∀ occurrence ∈ out, occurrence.phrase ∈ phrases

theorem collect_collected {whole : List FiscalPhrase} :
    ∀ {phrases : List FiscalPhrase} {out final : List FiscalOccurrence},
      phrases ⊆ whole → phrases.Pairwise FiscalPhrase.Earlier → Collected whole out →
      (∀ occurrence ∈ out, ∀ phrase ∈ phrases, occurrence.phrase.Earlier phrase) →
      collect unicode calendar now out phrases = .ok final → Collected whole final
  | [], out, final, _, _, collected, _, isFinal => by
    rw [← Except.ok.inj isFinal]
    exact collected
  | phrase :: rest, out, final, within, ordered, collected, behind, isFinal => by
    have inRest : rest ⊆ whole := fun other member => within (mem_cons_of_mem _ member)
    obtain ⟨isEarlier, restOrdered⟩ := pairwise_cons.mp ordered
    have restBehind : ∀ occurrence ∈ out, ∀ other ∈ rest, occurrence.phrase.Earlier other :=
      fun occurrence isOut other member => behind occurrence isOut other (mem_cons_of_mem _ member)
    rw [collect] at isFinal
    split at isFinal
    case isTrue _ =>
      exact collect_collected inRest restOrdered collected restBehind isFinal
    case isFalse notTaken =>
      cases resolved : Phrase.resolve unicode calendar now phrase.groups phrase.kind with
      | error _ =>
        rw [resolved] at isFinal
        cases isFinal
      | ok answer =>
        rw [resolved] at isFinal
        cases answer with
        | none => exact collect_collected inRest restOrdered collected restBehind isFinal
        | some answer =>
          refine collect_collected inRest restOrdered ⟨?_, ?_, ?_⟩ ?_ isFinal
          · refine pairwise_append.mpr ⟨collected.ordered, pairwise_singleton _ _, ?_⟩
            intro occurrence isOut other member
            rw [mem_singleton.mp member]
            exact behind occurrence isOut phrase mem_cons_self
          · refine pairwise_append.mpr ⟨collected.apart, pairwise_singleton _ _, ?_⟩
            intro occurrence isOut other member
            rw [mem_singleton.mp member]
            refine FiscalPhrase.apart_of_not_overlaps fun overlaps => notTaken ?_
            exact any_eq_true.mpr ⟨occurrence, isOut, overlaps⟩
          · intro occurrence member
            rcases mem_concat.mp member with isOut | rfl
            · exact collected.ofPhrases occurrence isOut
            · exact within mem_cons_self
          · intro occurrence member other isLater
            rcases mem_concat.mp member with isOut | rfl
            · exact restBehind occurrence isOut other isLater
            · exact isEarlier other isLater

theorem collected_of_occurrences {base : ℤ} {out : List FiscalOccurrence}
    (isOut : occurrences unicode text base calendar = .ok out) :
    Collected (phrases unicode text) out := by
  rw [occurrences] at isOut
  cases isNow : Dated.position calendar base with
  | error _ =>
    rw [isNow] at isOut
    cases isOut
  | ok now =>
    rw [isNow] at isOut
    refine collect_collected (List.Subset.refl _) (phrases_earlier unicode text) ?_ ?_ isOut
    · exact ⟨List.Pairwise.nil, List.Pairwise.nil, fun _ member => by cases member⟩
    · intro _ member
      cases member

def sortedByPlace (out : List FiscalOccurrence) : List FiscalOccurrence :=
  out.insertionSort fun first second => (first.phrase.start : ℤ) ≤ (second.phrase.start : ℤ)

/-- The text of one occurrence is first found before that of another, or both at one place and the
first was found by no later pattern. -/
def SearchedBefore (text : List Char) (first second : FiscalOccurrence) : Prop :=
  first.key text < second.key text ∨
    first.key text = second.key text ∧ first.phrase.kind.rank ≤ second.phrase.kind.rank

variable {out : List FiscalOccurrence}

theorem Collected.sortedByPlace (collected : Collected (phrases unicode text) out) :
    (sortedByPlace out).Pairwise fun first second => first.phrase.start < second.phrase.start := by
  have sorted := @pairwise_sorted _ (fun occurrence : FiscalOccurrence =>
    (occurrence.phrase.start : ℤ)) _ _ collected.apart
  refine sorted.imp_of_mem ?_
  intro first second isFirst isSecond rises
  have isOutFirst := (mem_insertionSort _).mp isFirst
  have isOutSecond := (mem_insertionSort _).mp isSecond
  have someFirst := some_text_of_mem_phrases (collected.ofPhrases first isOutFirst)
  have someSecond := some_text_of_mem_phrases (collected.ofPhrases second isOutSecond)
  rw [FiscalPhrase.Apart] at rises
  omega

/-- The mentions are the first by their places, in that order, exactly when the text of each of
the first is searched before that of every occurrence behind it. -/
theorem fiscal_mentions_in_order_iff (unicode : Unicode) (text : List Char) (base : ℤ)
    (calendar : FiscalCalendar) (limit : ℕ) (out : List FiscalOccurrence)
    (isOut : occurrences unicode text base calendar = .ok out) :
    resolveFiscalMentions unicode text base calendar limit =
        .ok (((sortedByKey text out).take limit).map FiscalOccurrence.mention) ∧
      ((sortedByKey text out).take limit).Pairwise
        (fun first second => first.phrase.Apart second.phrase) ∧
      ((sortedByKey text out).take limit = (sortedByPlace out).take limit ↔
        ∀ first ∈ (sortedByPlace out).take limit, ∀ second ∈ out,
          first.phrase.start < second.phrase.start → SearchedBefore text first second) := by
  have collected := collected_of_occurrences isOut
  refine ⟨by rw [resolveFiscalMentions, isOut]; rfl, ?_, ?_⟩
  · have apart := collected.apart.perm (perm_insertionSort
      (fun first second : FiscalOccurrence => first.key text ≤ second.key text) out).symm
      FiscalPhrase.Apart.symm
    exact apart.sublist (take_sublist limit _)
  · have perm : (sortedByKey text out).Perm (sortedByPlace out) :=
      (perm_insertionSort _ out).trans (perm_insertionSort _ out).symm
    rw [take_eq_iff ?_ ?_ perm (pairwise_sorted collected.ordered) collected.sortedByPlace limit]
    · refine forall₂_congr fun first _ => ?_
      constructor
      · intro ordered second isSecond isBehind
        rcases ordered second ((mem_insertionSort _).mpr isSecond) isBehind with less | same
        · exact .inl less
        · refine .inr ⟨same.1, ?_⟩
          have earlier := same.2
          rw [FiscalPhrase.Earlier] at earlier
          omega
      · intro searched second isSecond isBehind
        rcases searched second ((mem_insertionSort _).mp isSecond) isBehind with less | same
        · exact .inl less
        · refine .inr ⟨same.1, ?_⟩
          rw [FiscalPhrase.Earlier]
          omega
    · intro first second isBefore isAfter
      rcases isBefore with less | ⟨same, earlier⟩
      · rcases isAfter with less' | ⟨same', -⟩
        · omega
        · omega
      · rcases isAfter with less' | ⟨-, later⟩
        · omega
        · exact earlier.asymm later
    · intro first second isBefore isAfter
      omega

def inSeptember : ℤ := Gregorian.date 2026 9 1

def mentionTexts (out : List FiscalOccurrence) : List String :=
  out.map fun occurrence => occurrence.mention.text

theorem exists_of_toOption {α β : Type} {found : Except DateError α} {answer : α → β} {expected : β}
    (evaluated : found.toOption.map answer = some expected) :
    ∃ out, found = .ok out ∧ answer out = expected := by
  cases found with
  | error _ => cases evaluated
  | ok out => exact ⟨out, rfl, Option.some.inj evaluated⟩

theorem fiscal_mentions_in_order_lastWeek :
    ∃ out, occurrences latin "LW, Q3".toList inSeptember {} = .ok out ∧
      mentionTexts out = ["LW", "Q3"] ∧
      ((sortedByKey "LW, Q3".toList out).take 6 = (sortedByPlace out).take 6 ↔
        ∀ first ∈ (sortedByPlace out).take 6, ∀ second ∈ out,
          first.phrase.start < second.phrase.start →
            SearchedBefore "LW, Q3".toList first second) := by
  obtain ⟨out, isOut, texts⟩ := exists_of_toOption
    (show (occurrences latin "LW, Q3".toList inSeptember {}).toOption.map mentionTexts =
      some ["LW", "Q3"] by decide +kernel)
  exact ⟨out, isOut, texts,
    (fiscal_mentions_in_order_iff latin "LW, Q3".toList inSeptember {} 6 out isOut).2.2⟩

/-- The quarter stands between two mentions of the week, and comes after both. -/
theorem week_said_twice_comes_first :
    (resolveFiscalMentions latin "LW, Q3, LW".toList inSeptember {} 6).toOption.map
        (List.map FiscalMention.text) = some ["LW", "LW", "Q3"] ∧
      (occurrences latin "LW, Q3, LW".toList inSeptember {}).toOption.map
        (fun out => mentionTexts ((sortedByPlace out).take 6)) = some ["LW", "Q3", "LW"] :=
  ⟨by decide +kernel, by decide +kernel⟩

end MemoryService.Domain
