import MemoryService.Foundation.Fallible
import Mathlib.Algebra.Order.Field.Rat
import Mathlib.Data.List.Basic
import Mathlib.Tactic.Linarith

/-!
# Verdicts on the claims of an answer

A claim is scored against the evidence it cites, or against the closest.
-/

namespace MemoryService.Grounding

open Foundation List Option

structure Evidence where
  itemId : String
  text : String
  kind : String := "chunk"
  citation : String := ""
  deriving DecidableEq

structure Claim where
  text : String
  citations : List String := []

/-- Probabilities of what a premise says of a claim; that of neither is not read. -/
structure NLIScore where
  entailment : ℚ
  contradiction : ℚ

inductive ClaimVerdict where
  | supported
  | unsupported
  | contradicted
  | borderline
  deriving DecidableEq

inductive GroundingMethod where
  | citation
  | nli
  | judge

structure ClaimReport where
  claim : String
  verdict : ClaimVerdict
  support : ℚ := 0
  contradiction : ℚ := 0
  evidenceIds : List String := []
  contradictedBy : List String := []
  citations : List String := []
  method : GroundingMethod := .nli
  notes : List String := []

def sourceRanks : List (String × ℕ) :=
  [("CHUNK", 3), ("TABLE", 3), ("PARAGRAPH", 3), ("SECTION", 3), ("SUBSECTION", 3),
    ("CODE_BLOCK", 3), ("chunk", 3), ("SUMMARY", 2), ("summary", 2), ("ENTITY", 1),
    ("RELATION", 1), ("memory", 1), ("MEMORY", 0), ("fact", 0)]

def Evidence.sourceRank (e : Evidence) : ℕ := (sourceRanks.lookup e.kind).getD 0

/-- The settings and the model, and what Python's texts are asked; `int` is `none` where it
raises. -/
structure GroundingCascade where
  supportedThreshold : ℚ
  borderlineBand : ℚ × ℚ
  premisesPerClaim : ℕ
  representative : Bool
  nli : String → String → NLIScore
  coverage : String → String → ℚ
  sameScript : String → String → Bool
  strip : String → String
  isdigit : String → Bool
  int : String → Option ℕ
  idLike : String → Bool
  round4 : ℚ → ℚ

abbrev Scored := Evidence × NLIScore

def better (score : NLIScore → ℚ) (a b : Scored) : Bool :=
  score a.2 < score b.2 || score a.2 = score b.2 && a.1.sourceRank < b.1.sourceRank

/-- The first of the best. -/
def best (score : NLIScore → ℚ) : List Scored → Option Scored
  | [] => none
  | first :: rest => some (rest.foldl (fun a b => if better score a b then b else a) first)

/-- A claim's premises, whether they are cited, and notes. -/
abbrev Pending := List Evidence × Bool × List String

namespace GroundingCascade

variable (cascade : GroundingCascade) (evidence unused : List Evidence)

def resolveCitation (cite : String) : Option (Option Evidence) :=
  let key := cascade.strip cite
  if cascade.isdigit key then
    (cascade.int key).map fun number => if number = 0 then none else evidence[number - 1]?
  else
    let tail := cascade.strip ((key.splitOn ":").getLast?.getD "")
    some (evidence.find? fun e => key = e.itemId || key = e.citation || tail = e.itemId)

def closest (claim : String) : List Evidence :=
  ((evidence.mergeSort fun a b =>
      cascade.coverage claim b.text ≤ cascade.coverage claim a.text).filter fun e =>
    cascade.strip e.text ≠ "" && (0 < cascade.coverage claim e.text || cascade.representative)).take
    cascade.premisesPerClaim

/-- The loop over the citations of `_premises_for`. -/
def citedPremises (claim : Claim) : List String → List Evidence → List String →
    Option (Except ClaimReport (List Evidence × List String))
  | [], premises, notes => some (.ok (premises, notes))
  | cite :: later, premises, notes =>
    (cascade.resolveCitation evidence cite).bind fun
      | some found =>
        citedPremises claim later (if found ∈ premises then premises else premises ++ [found])
          notes
      | none =>
        if cascade.idLike cite then
          some <| .error
            { claim := claim.text
              verdict := .unsupported
              citations := claim.citations
              method := .citation
              notes := ["citation [" ++ cite ++ "] does not resolve to any evidence item"] }
        else
          citedPremises claim later premises
            (notes ++ ["citation (" ++ cite ++ ") is not an evidence id; treated as uncited"])

def premisesFor (claim : Claim) : Option (Except ClaimReport Pending) :=
  (cascade.citedPremises evidence claim claim.citations [] []).map fun
    | .error report => .error report
    | .ok (premises, notes) =>
      let mismatched := premises.filter fun e =>
        cascade.strip e.text = "" ||
          (!cascade.representative && cascade.coverage claim.text e.text = 0)
      let chosen := if premises = [] then cascade.closest evidence claim.text else premises
      if mismatched ≠ [] then
        .error
          { claim := claim.text
            verdict := .unsupported
            evidenceIds := mismatched.map Evidence.itemId
            citations := claim.citations
            method := .citation
            notes := notes ++ ["cited evidence does not mention the claim"] }
      else if chosen = [] then
        .error
          { claim := claim.text
            verdict := .unsupported
            citations := claim.citations
            notes := notes ++ ["no evidence shares a content term with the claim"] }
      else .ok (chosen, premises ≠ [], notes)

def contradicts (score : NLIScore) : Bool :=
  cascade.borderlineBand.2 ≤ score.contradiction && score.entailment < score.contradiction

/-- `_about`, with `CONTRADICTION_MIN_COVERAGE`. -/
def about (claim passage : String) : Bool :=
  !cascade.sameScript claim passage || 1 / 5 ≤ cascade.coverage claim passage

def supports (score : NLIScore) : Bool :=
  cascade.supportedThreshold ≤ score.entailment && score.contradiction < score.entailment

def refutes (claim : String) (bestE bestC : Scored) : Bool :=
  !cascade.supports bestE.2 && cascade.contradicts bestC.2 &&
    bestE.2.entailment ≤ cascade.borderlineBand.2 && cascade.about claim bestC.1.text

def borderline (support : ℚ) : Bool :=
  cascade.borderlineBand.1 ≤ support && support ≤ cascade.borderlineBand.2

/-- `_decide`; the judge's answer is read in the band. -/
def decide (claim : Claim) (pending : Pending) (scores : List NLIScore)
    (judged : Option (Bool × String)) : Option ClaimReport := do
  let (premises, cited, notes) := pending
  let bestE ← best NLIScore.entailment (premises.zip scores)
  let bestC ← best NLIScore.contradiction (premises.zip scores)
  let report : ClaimReport :=
    { claim := claim.text
      verdict := .unsupported
      support := cascade.round4 bestE.2.entailment
      contradiction := cascade.round4 bestC.2.contradiction
      evidenceIds := [bestE.1.itemId]
      citations := claim.citations
      notes }
  some <|
    if cascade.refutes claim.text bestE bestC then
      { report with verdict := .contradicted, evidenceIds := [bestC.1.itemId] }
    else if cited then
      if cascade.supports bestE.2 then { report with verdict := .supported, method := .citation }
      else
        { report with
          method := .citation
          notes := notes ++ ["cited evidence does not support the claim"] }
    else if cascade.borderline bestE.2.entailment then
      match judged with
      | none =>
        { report with
          verdict := .borderline
          notes := notes ++ ["entailment in the borderline band; no judge decision"] }
      | some (said, reason) =>
        { report with
          verdict := if said then .supported else .unsupported
          method := .judge
          notes := notes ++ ["judge: " ++ reason] }
    else if cascade.supportedThreshold ≤ bestE.2.entailment then
      { report with verdict := .supported }
    else report

/-- The scores are only read where something is against the claim. -/
def scanUnused (claim : Claim) (report : ClaimReport) : ClaimReport :=
  let scored := (cascade.closest unused claim.text).map fun e => (e, cascade.nli e.text claim.text)
  let against := (scored.filter fun (e, score) =>
    cascade.contradicts score && cascade.about claim.text e.text).map (·.1.itemId)
  if against = [] then report
  else
    let noted :=
      { report with
        contradictedBy := against
        notes := report.notes ++ ["contradicted by unused evidence " ++ ", ".intercalate against] }
    if report.verdict = .unsupported ∨ report.verdict = .borderline then
      { noted with
        verdict := .contradicted
        contradiction := cascade.round4
            (((scored.map (·.2.contradiction)).filter (· ≠ 0)).max?.getD 0) }
    else noted

variable (judge : ℕ → Option (Bool × String))

def finished : Except ClaimReport Pending → Option ClaimReport
  | .error report => some report
  | .ok _ => none

/-- `settled` in `verify`; the judge is asked by a claim's index. -/
def settle (claims : List Claim) (prepared : List (Except ClaimReport Pending)) :
    List (Option ClaimReport) :=
  let pending := prepared.zipIdx.filterMap fun (decided, index) =>
    decided.toOption.map fun found => (index, found)
  let scored := pending.map fun (index, found) =>
    found.1.map fun e => cascade.nli e.text (claims[index]?.elim "" Claim.text)
  (pending.zip scored).foldl
    (fun settled ((index, found), scores) => settled.set index
      (claims[index]?.bind fun claim => cascade.decide claim found scores (judge index)))
    (prepared.map finished)

/-- `verify` of the claims of an answer. -/
def verify (claims : List Claim) : Option (List ClaimReport) := do
  let prepared ← claims.mapM (cascade.premisesFor evidence)
  (claims.zip (cascade.settle judge claims prepared)).mapM fun (claim, decided) =>
    decided.map (cascade.scanUnused unused claim)

def count (reports : List ClaimReport) (verdict : ClaimVerdict) : ℕ :=
  reports.countP (·.verdict = verdict)

/-- What is reported of one claim by itself. -/
def report (claim : Claim) (judged : Option (Bool × String)) : Option ClaimReport :=
  (cascade.premisesFor evidence claim).bind fun
    | .error report => some (cascade.scanUnused unused claim report)
    | .ok found =>
      (cascade.decide claim found (found.1.map fun e => cascade.nli e.text claim.text) judged).map
        (cascade.scanUnused unused claim)

variable {cascade evidence unused judge} {premises : List Evidence} {claim : Claim}
  {claims : List Claim} {reports : List ClaimReport}

/-- What is settled by its index takes the place that was left for it. -/
theorem foldl_set (settle : ℕ → Pending → Option ClaimReport)
    (prepared : List (Except ClaimReport Pending)) (before : List (Option ClaimReport)) :
    ((prepared.zipIdx before.length).filterMap fun (decided, index) =>
        decided.toOption.map fun found => (index, found)).foldl
      (fun settled (index, found) => settled.set index (settle index found))
      (before ++ prepared.map finished) =
      before ++ (prepared.zipIdx before.length).map fun (decided, index) =>
        (finished decided).or (decided.toOption.bind (settle index)) := by
  induction prepared generalizing before with
  | nil => rfl
  | cons decided prepared ih =>
    have later (x : Option ClaimReport) := ih (before ++ [x])
    simp only [length_append, length_singleton, append_assoc, singleton_append] at later
    cases decided with
    | error report => simpa [zipIdx_cons, Except.toOption, finished] using later (some report)
    | ok found =>
      simpa [zipIdx_cons, Except.toOption, finished] using later (settle before.length found)

theorem settle_getElem? (claims : List Claim) (prepared : List (Except ClaimReport Pending))
    (i : ℕ) :
    (cascade.settle judge claims prepared)[i]? = prepared[i]?.map fun decided =>
      (finished decided).or (decided.toOption.bind fun found => claims[i]?.bind fun claim =>
        cascade.decide claim found (found.1.map fun e => cascade.nli e.text claim.text)
          (judge i)) := by
  have settled := foldl_set (fun index found => claims[index]?.bind fun claim =>
    cascade.decide claim found
      (found.1.map fun e => cascade.nli e.text (claims[index]?.elim "" Claim.text)) (judge index))
    prepared []
  rw [settle, ← map_prod_left_eq_zip, foldl_map]
  refine (congrArg (·[i]?) settled).trans ?_
  cases isClaim : claims[i]? <;> simp [isClaim, Function.comp_def]

/-- Each claim is reported from the scores of its own premises. -/
theorem verify_eq (returned : cascade.verify evidence unused judge claims = some reports) (i : ℕ) :
    (claims[i]?.map fun claim => cascade.report evidence unused claim (judge i)) =
      reports[i]?.map some := by
  obtain ⟨prepared, isPrepared, later⟩ := bind_eq_some_iff.mp returned
  have isReport := congrArg (·[i]?) (mapM_eq_some later)
  have isDecided := congrArg (·[i]?) (mapM_eq_some isPrepared)
  simp only [getElem?_map] at isReport isDecided
  rw [← isReport, List.zip, getElem?_zipWith, settle_getElem?]
  cases isClaim : claims[i]? with
  | none => rfl
  | some claim =>
    cases isAt : prepared[i]? with
    | none => simp [isClaim, isAt] at isDecided
    | some decided =>
      rw [isClaim, isAt, map_some, map_some, Option.some.injEq] at isDecided
      rw [map_some, report, isDecided]
      cases decided <;> rfl

variable (cascade evidence claim) in
def Cites (e : Evidence) : Prop :=
  ∃ cite ∈ claim.citations, cascade.resolveCitation evidence cite = some (some e)

variable (cascade evidence claim) in
/-- Names like an id what is no evidence. -/
def Marks : Prop :=
  ∃ cite ∈ claim.citations, cascade.idLike cite = true ∧
    cascade.resolveCitation evidence cite = some none

/-- A finished report is of no support, and has a reason. -/
def Prepares {α : Type} (why : Prop) (fine : α → Prop) : Except ClaimReport α → Prop
  | .error report => report.verdict = .unsupported ∧ why
  | .ok found => fine found

theorem citedPremises_spec {cites notes : List String}
    {decided : Except ClaimReport (List Evidence × List String)}
    (isDecided : cascade.citedPremises evidence claim cites premises notes = some decided) :
    Prepares
      (∃ cite ∈ cites, cascade.idLike cite = true ∧
        cascade.resolveCitation evidence cite = some none)
      (fun found =>
        (∀ e, e ∈ found.1 ↔
          e ∈ premises ∨ ∃ cite ∈ cites, cascade.resolveCitation evidence cite = some (some e)) ∧
        ∀ cite ∈ cites, cascade.idLike cite = true →
          cascade.resolveCitation evidence cite ≠ some none)
      decided := by
  induction cites generalizing premises notes with
  | nil =>
    cases isDecided
    exact ⟨by simp, nofun⟩
  | cons cite later ih =>
    obtain ⟨found, isFound, isDecided⟩ := Option.bind_eq_some_iff.mp isDecided
    cases found with
    | some found =>
      have rest := ih isDecided
      cases decided with
      | error report => exact ⟨rest.1, exists_mem_cons_of_exists rest.2⟩
      | ok taken =>
        refine ⟨fun e => ?_, by simpa [isFound] using rest.2⟩
        rw [rest.1, exists_mem_cons_iff, isFound]
        split <;> simp <;> grind
    | none =>
      dsimp only at isDecided
      split at isDecided
      · next marker =>
          cases isDecided
          exact ⟨rfl, cite, mem_cons_self, marker, isFound⟩
      · next notMarker =>
          have rest := ih isDecided
          cases decided with
          | error report => exact ⟨rest.1, exists_mem_cons_of_exists rest.2⟩
          | ok taken =>
            refine ⟨fun e => ?_, by simpa [isFound, notMarker] using rest.2⟩
            rw [rest.1, exists_mem_cons_iff, isFound]
            simp

theorem premisesFor_spec {decided : Except ClaimReport Pending}
    (isDecided : cascade.premisesFor evidence claim = some decided) :
    Prepares
      ((∃ e, cascade.Cites evidence claim e) ∨ cascade.Marks evidence claim ∨
        cascade.closest evidence claim.text = [])
      (fun found => ¬cascade.Marks evidence claim ∧
        if found.2.1 then ∀ e ∈ found.1, cascade.Cites evidence claim e ∧ cascade.strip e.text ≠ ""
        else found.1 = cascade.closest evidence claim.text ∧ ∀ e, ¬cascade.Cites evidence claim e)
      decided := by
  obtain ⟨taken, isTaken, rfl⟩ := Option.map_eq_some_iff.mp isDecided
  have spec := citedPremises_spec isTaken
  cases taken with
  | error report => exact ⟨spec.1, .inr (.inl spec.2)⟩
  | ok taken =>
    obtain ⟨isCited, noMarker⟩ := spec
    have noMarks : ¬cascade.Marks evidence claim := fun ⟨cite, isCite, isMarker, nothing⟩ =>
      noMarker cite isCite isMarker nothing
    have isCited : ∀ e, e ∈ taken.1 ↔ cascade.Cites evidence claim e := fun e =>
      (isCited e).trans (or_iff_right not_mem_nil)
    dsimp only
    split
    · next mismatched =>
        obtain ⟨e, isMismatched⟩ := exists_mem_of_ne_nil _ mismatched
        exact ⟨rfl, .inl ⟨e, (isCited e).mp (mem_filter.mp isMismatched).1⟩⟩
    · next matched =>
        by_cases nothing : taken.1 = []
        · have uncited : ∀ e, ¬cascade.Cites evidence claim e := fun e cites =>
            not_mem_nil (nothing ▸ (isCited e).mpr cites)
          rw [if_pos nothing]
          split
          · next noClosest => exact ⟨rfl, .inr (.inr noClosest)⟩
          · exact ⟨noMarks, by simpa [nothing] using uncited⟩
        · rw [if_neg nothing, if_neg nothing]
          refine ⟨noMarks, (if_pos (decide_eq_true nothing)).mpr fun e member => ?_⟩
          simp only [ne_eq, Decidable.not_not, filter_eq_nil_iff] at matched
          have isMatched := matched e member
          simp only [Bool.or_eq_true, not_or, decide_eq_true_eq] at isMatched
          exact ⟨(isCited e).mp member, isMatched.1⟩

theorem best_mem {score : NLIScore → ℚ} {scored : List Scored} {top : Scored}
    (isBest : best score scored = some top) : top ∈ scored := by
  cases scored with
  | nil => cases isBest
  | cons first rest =>
    cases isBest
    induction rest generalizing first with
    | nil => exact mem_cons_self
    | cons next rest ih =>
      rw [foldl_cons]
      have isTop := ih (if better score first next then next else first)
      rcases mem_cons.mp isTop with same | later
      · rw [same]
        split <;> simp
      · exact mem_cons_of_mem _ (mem_cons_of_mem _ later)

variable (cascade claim) in
def scoredFor (premises : List Evidence) : List Scored :=
  premises.map fun e => (e, cascade.nli e.text claim.text)

variable {judged : Option (Bool × String)}

/-- When a claim is reported supported before the unused evidence is read. -/
theorem decide_supported {found : Pending}
    {report : ClaimReport} (isDecided : cascade.decide claim found
      (found.1.map fun e => cascade.nli e.text claim.text) judged = some report) :
    ∃ e c, best NLIScore.entailment (cascade.scoredFor claim found.1) = some e ∧
      best NLIScore.contradiction (cascade.scoredFor claim found.1) = some c ∧
      (report.verdict = .supported ↔ cascade.refutes claim.text e c = false ∧
        if found.2.1 then cascade.supports e.2 = true
        else if cascade.borderline e.2.entailment then ∃ reason, judged = some (true, reason)
        else cascade.supportedThreshold ≤ e.2.entailment) := by
  rw [decide, ← map_prod_left_eq_zip] at isDecided
  obtain ⟨e, isE, isDecided⟩ := Option.bind_eq_some_iff.mp isDecided
  obtain ⟨c, isC, isDecided⟩ := Option.bind_eq_some_iff.mp isDecided
  refine ⟨e, c, isE, isC, ?_⟩
  rw [← Option.some.inj isDecided]
  split
  · next refuted => simp [refuted]
  · next notRefuted =>
    rw [Bool.not_eq_true] at notRefuted
    simp only [notRefuted, true_and]
    split
    · split <;> simp_all
    · split
      · cases judged with
        | none => simp
        | some answer =>
          obtain ⟨said, reason⟩ := answer
          cases said <;> simp
      · split <;> simp_all

theorem scan_supported (report : ClaimReport) :
    (cascade.scanUnused unused claim report).verdict = .supported ↔
      report.verdict = .supported := by
  rw [scanUnused]
  split
  · rfl
  · split
    · next weak => rcases weak with same | same <;> simp [same]
    · rfl

variable (cascade evidence claim)

def scoredClosest : List Scored := cascade.scoredFor claim (cascade.closest evidence claim.text)

/-- Some evidence that is asked about is scored at or above the threshold and above its own
contradiction. -/
def Supporting : Prop :=
  ∃ e ∈ cascade.closest evidence claim.text, cascade.supports (cascade.nli e.text claim.text) = true

/-- What a supported verdict on a claim is to rest on. -/
structure Rests (judged : Option (Bool × String)) (report : ClaimReport) : Prop where
  cited : report.verdict = .supported → (∃ e, cascade.Cites evidence claim e) →
    ∃ e, cascade.Cites evidence claim e ∧ cascade.strip e.text ≠ "" ∧
      cascade.supports (cascade.nli e.text claim.text) = true
  uncited : report.verdict = .supported → (∀ e, ¬cascade.Cites evidence claim e) →
    cascade.Supporting evidence claim ∨
      ∃ e ∈ best NLIScore.entailment (cascade.scoredClosest evidence claim),
        cascade.borderline e.2.entailment = true ∧ ∃ reason, judged = some (true, reason)
  marked : cascade.Marks evidence claim → report.verdict ≠ .supported

/-- The best of what is closest is above the threshold and the band and not refuted, and nothing
is scored above its own contradiction. -/
def Unbacked : Prop :=
  (∀ e, ¬cascade.Cites evidence claim e) ∧ ¬cascade.Marks evidence claim ∧
    ¬cascade.Supporting evidence claim ∧
    ∃ e ∈ best NLIScore.entailment (cascade.scoredClosest evidence claim),
      ∃ c ∈ best NLIScore.contradiction (cascade.scoredClosest evidence claim),
        cascade.refutes claim.text e c = false ∧ cascade.borderline e.2.entailment = false ∧
          cascade.supportedThreshold ≤ e.2.entailment

variable {cascade evidence claim}

theorem rests_iff {report : ClaimReport}
    (isReport : cascade.report evidence unused claim judged = some report) :
    cascade.Rests evidence claim judged report ↔ ¬cascade.Unbacked evidence claim := by
  obtain ⟨decided, isDecided, isReport⟩ := Option.bind_eq_some_iff.mp isReport
  have spec := premisesFor_spec isDecided
  cases decided with
  | error finished =>
    cases isReport
    obtain ⟨unsupported, why⟩ := spec
    have notSupported : (cascade.scanUnused unused claim finished).verdict ≠ .supported := by
      rw [ne_eq, scan_supported, unsupported]
      exact nofun
    refine iff_of_true ⟨fun isSupported => absurd isSupported notSupported,
      fun isSupported => absurd isSupported notSupported, fun _ => notSupported⟩ ?_
    rintro ⟨uncited, noMarks, -, e, isBest, -⟩
    rcases why with ⟨cited, cites⟩ | marks | noClosest
    · exact uncited cited cites
    · exact noMarks marks
    · rw [scoredClosest, scoredFor, noClosest] at isBest
      cases isBest
  | ok found =>
    obtain ⟨settled, isSettled, rfl⟩ := Option.map_eq_some_iff.mp isReport
    obtain ⟨e, c, isE, isC, supported_iff⟩ := decide_supported isSettled
    rw [← @scan_supported cascade unused claim] at supported_iff
    obtain ⟨noMarks, spec⟩ := spec
    obtain ⟨premise, isPremise, rfl⟩ := mem_map.mp (best_mem isE)
    split at spec
    · next isCited =>
        rw [if_pos isCited] at supported_iff
        obtain ⟨cites, notBlank⟩ := spec premise isPremise
        refine iff_of_true ⟨fun isSupported _ => ?_, fun _ uncited => ?_, fun marks => ?_⟩
          fun unbacked => unbacked.1 premise cites
        · exact ⟨premise, cites, notBlank, (supported_iff.mp isSupported).2⟩
        · exact absurd cites (uncited premise)
        · exact absurd marks noMarks
    · next notCited =>
        obtain ⟨isClosest, uncited⟩ := spec
        rw [isClosest] at isE isC isPremise
        rw [if_neg notCited] at supported_iff
        constructor
        · rintro rests
            ⟨-, -, notSupporting, e, isBest, c, isWorst, notRefuted, notBorderline, above⟩
          cases isE.symm.trans isBest
          cases isC.symm.trans isWorst
          have isSupported := supported_iff.mpr ⟨notRefuted, by rwa [notBorderline]⟩
          rcases rests.uncited isSupported uncited with supporting | ⟨e, isBest, inBand, -⟩
          · exact notSupporting supporting
          · cases isE.symm.trans isBest
            exact absurd inBand (notBorderline ▸ Bool.false_ne_true)
        · intro backed
          refine ⟨fun _ ⟨e, cites⟩ => absurd cites (uncited e), fun isSupported _ => ?_,
            fun marks => absurd marks noMarks⟩
          obtain ⟨notRefuted, isFine⟩ := supported_iff.mp isSupported
          by_cases supporting : cascade.Supporting evidence claim
          · exact .inl supporting
          · cases inBand : cascade.borderline (cascade.nli premise.text claim.text).entailment with
            | true =>
              rw [inBand] at isFine
              exact .inr ⟨_, isE, inBand, isFine⟩
            | false =>
              rw [inBand] at isFine
              exact absurd
                ⟨uncited, noMarks, supporting, _, isE, c, isC, notRefuted, inBand, isFine⟩ backed

/-- The default settings leave nothing unbacked where the scores are probabilities: above a band
that goes beyond one half a premise contradicts less than it entails. -/
theorem not_unbacked_of_distribution (distribution : ∀ passage claim,
      (cascade.nli passage claim).entailment + (cascade.nli passage claim).contradiction ≤ 1)
    (low : cascade.borderlineBand.1 ≤ cascade.supportedThreshold)
    (high : 1 / 2 ≤ cascade.borderlineBand.2) : ¬cascade.Unbacked evidence claim := by
  rintro ⟨-, -, notSupporting, e, isBest, -, -, -, notBorderline, above⟩
  obtain ⟨premise, isPremise, rfl⟩ := mem_map.mp (best_mem isBest)
  have sum := distribution premise.text claim.text
  have aboveBand : cascade.borderlineBand.2 <
      (cascade.nli premise.text claim.text).entailment := by
    by_contra inBand
    rw [borderline, Bool.and_eq_false_iff, decide_eq_false_iff_not, decide_eq_false_iff_not]
      at notBorderline
    exact notBorderline.elim (absurd (low.trans above)) (absurd (not_lt.mp inBand))
  refine notSupporting ⟨premise, isPremise, ?_⟩
  rw [supports, Bool.and_eq_true, decide_eq_true_eq, decide_eq_true_eq]
  exact ⟨above, by linarith⟩

variable (cascade evidence unused judge claims) in
/-- What a supported verdict promises, of all claims and of what unused evidence may change. -/
structure Grounded (reports : List ClaimReport) : Prop where
  own : ∀ i : ℕ, (claims[i]?.map fun claim => cascade.report evidence unused claim (judge i)) =
    reports[i]?.map some
  counts : count reports .supported + count reports .unsupported + count reports .contradicted +
    count reports .borderline = claims.length
  rescanned : ∀ other before, cascade.verify evidence other judge claims = some before →
    ∀ (i : ℕ) (report later : ClaimReport), before[i]? = some report → reports[i]? = some later →
      report.verdict = .supported → later.verdict = .supported
  rests : ∀ (i : ℕ) (claim : Claim) (report : ClaimReport),
    claims[i]? = some claim → reports[i]? = some report →
      cascade.Rests evidence claim (judge i) report

theorem supported_eq {other : List Evidence}
    {report later : ClaimReport}
    (before : cascade.report evidence other claim judged = some report)
    (after : cascade.report evidence unused claim judged = some later) :
    report.verdict = .supported ↔ later.verdict = .supported := by
  obtain ⟨decided, isDecided, before⟩ := bind_eq_some_iff.mp before
  obtain ⟨_, same, after⟩ := bind_eq_some_iff.mp after
  cases isDecided.symm.trans same
  cases decided with
  | error finished =>
    cases before
    cases after
    rw [scan_supported, scan_supported]
  | ok found =>
    obtain ⟨settled, isSettled, rfl⟩ := map_eq_some_iff.mp before
    obtain ⟨_, same, rfl⟩ := map_eq_some_iff.mp after
    cases isSettled.symm.trans same
    rw [scan_supported, scan_supported]

theorem count_verdicts (reports : List ClaimReport) :
    count reports .supported + count reports .unsupported + count reports .contradicted +
      count reports .borderline = reports.length := by
  induction reports with
  | nil => rfl
  | cons report reports ih =>
    simp only [count, countP_cons, length_cons] at ih ⊢
    cases report.verdict <;> simp <;> omega

theorem supported_rests_iff (cascade : GroundingCascade) (evidence unused : List Evidence)
    (judge : ℕ → Option (Bool × String)) (claims : List Claim) (reports : List ClaimReport)
    (returned : cascade.verify evidence unused judge claims = some reports) :
    cascade.Grounded evidence unused judge claims reports ↔
      ∀ claim ∈ claims, ¬cascade.Unbacked evidence claim := by
  have own := verify_eq returned
  have sameLength : reports.length = claims.length := by
    refine le_antisymm ?_ ?_
    · have isOwn := own claims.length
      rw [getElem?_eq_none (le_refl _)] at isOwn
      exact getElem?_eq_none_iff.mp (Option.map_eq_none_iff.mp isOwn.symm)
    · have isOwn := own reports.length
      rw [getElem?_eq_none (l := reports) (le_refl _)] at isOwn
      exact getElem?_eq_none_iff.mp (Option.map_eq_none_iff.mp isOwn)
  constructor
  · intro grounded claim isClaim
    obtain ⟨i, isAt⟩ := mem_iff_getElem?.mp isClaim
    have isOwn := own i
    rw [isAt] at isOwn
    obtain ⟨report, isReport, isOwn⟩ := Option.map_eq_some_iff.mp isOwn.symm
    exact (rests_iff isOwn.symm).mp (grounded.rests i claim report isAt isReport)
  · intro backed
    refine ⟨own, (count_verdicts reports).trans sameLength, ?_, ?_⟩
    · intro other before returnedBefore i report later isReport isLater isSupported
      have isOwn := verify_eq returnedBefore i
      have isNow := own i
      rw [isReport] at isOwn
      rw [isLater] at isNow
      obtain ⟨claim, isClaim, isOwn⟩ := Option.map_eq_some_iff.mp isOwn
      rw [isClaim] at isNow
      exact (supported_eq isOwn (Option.some.inj isNow)).mp isSupported
    · intro i claim report isClaim isReport
      have isOwn := own i
      rw [isClaim, isReport] at isOwn
      exact (rests_iff (Option.some.inj isOwn)).mpr (backed claim (mem_of_getElem? isClaim))

/-- The default settings, and a model that scores one way. -/
def scoring (contradiction : ℚ) : GroundingCascade where
  supportedThreshold := 1 / 2
  borderlineBand := (3 / 10, 7 / 10)
  premisesPerClaim := 5
  representative := true
  nli _ _ := ⟨9 / 10, contradiction⟩
  coverage _ _ := 0
  sameScript _ _ := true
  strip := id
  isdigit _ := false
  int _ := none
  idLike _ := false
  round4 := id

def found : List Evidence := [{ itemId := "chk_1", text := "The pool is full." }]

theorem full_pool_rests : ∃ reports,
    (scoring (1 / 20)).verify found [] (fun _ => none) [{ text := "The pool is full" }] =
        some reports ∧
      (scoring (1 / 20)).Grounded found [] (fun _ => none) [{ text := "The pool is full" }]
        reports := by
  have returned : ((scoring (1 / 20)).verify found [] (fun _ => none)
      [{ text := "The pool is full" }]).isSome = true := by decide +kernel
  obtain ⟨reports, isReports⟩ := Option.isSome_iff_exists.mp returned
  refine ⟨reports, isReports, (supported_rests_iff _ _ _ _ _ _ isReports).mpr ?_⟩
  intro claim _
  exact not_unbacked_of_distribution (fun _ _ => by norm_num [scoring]) (by norm_num [scoring])
    (by norm_num [scoring])

/-- A lower threshold and band, and a model that finds 2 in 5 for a claim and 1 in 2 against it. -/
def lowBand : GroundingCascade :=
  { scoring (1 / 2) with
    supportedThreshold := 3 / 10
    borderlineBand := (1 / 10, 1 / 5)
    nli := fun _ _ => ⟨2 / 5, 1 / 2⟩ }

/-- The best premise rather says the contrary of a claim that is reported supported. -/
theorem supported_against_its_evidence :
    (lowBand.verify found [] (fun _ => none) [{ text := "The pool is dry" }]).map
        (·.map ClaimReport.verdict) = some [.supported] ∧
      ∀ e ∈ found, lowBand.supports (lowBand.nli e.text "The pool is dry") = false := by
  decide +kernel

end GroundingCascade

end MemoryService.Grounding
