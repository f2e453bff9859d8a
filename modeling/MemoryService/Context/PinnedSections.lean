import MemoryService.Context.Window
import Mathlib.Algebra.GroupWithZero.Nat
import Mathlib.Data.List.DropRight
import Mathlib.Data.List.Sort

/-!
# The pinned sections

The profile, the thread's summary, the learned skills and the tool hints take at most half of a
context's budget.
-/

namespace MemoryService.Context.Pinning

open Option List

structure ProfileBlockView where
  block : String
  text : String

structure ThreadSummaryView where
  text : String

structure SkillView where
  id : String
  name : String
  steps : List String := []
  withSkill : Option String := none
  fixes : List String := []
  successRate : Rat := 0
  support : Nat := 0
  /-- its steps that a standing rule forbids, with the rule -/
  forbidden : List (String × String) := []

structure ToolCandidate where
  name : String
  confidence : Rat := 0

structure MissingArgument where
  tool : String
  arg : String
  question : String

/-- The hints of a task; `prefill` has the value found for each `tool.arg`. -/
structure ToolHints (Value : Type) where
  candidates : List ToolCandidate := []
  plan : Option SkillView := none
  next : Option String := none
  prefill : List (String × Value) := []
  missing : List MissingArgument := []
  forbidden : List (String × String) := []

structure Pinned (Value : Type) where
  profile : List ProfileBlockView := []
  threadSummary : Option ThreadSummaryView := none
  procedures : List SkillView := []
  tools : Option (ToolHints Value) := none

structure Formats (Value : Type) where
  percent : Rat → String
  /-- `:.2f` -/
  decimals : Rat → String
  /-- `!r` -/
  repr : Value → String
  isspace : Char → Bool

def toolsShownMax : Nat := 3

def standingBlocks : List String := ["standing_rules", "preferences", "about_user"]

def summaryMinTokens : Nat := 40

def charsPerToken : Nat := 4

variable {cut : ThreadSummaryView} {tokens allowed used : Nat}

section Sections

variable {Value : Type} (formats : Formats Value)

def lines (texts : List String) : String := "\n".intercalate texts

variable (profile : List ProfileBlockView)

def profileSection : Option String :=
  if profile.isEmpty then none
  else some ("## Profile\n" ++ lines (profile.map fun b => "### " ++ b.block ++ "\n" ++ b.text))

variable (summary : Option ThreadSummaryView)

def summarySection : Option String :=
  summary.map fun summary => "## Conversation summary\n" ++ summary.text

/-- `_FORBIDDEN`. -/
def forbiddenNote (tool : String) : String :=
  "a standing rule of the user forbids " ++ tool ++ " here"

variable (hints : ToolHints Value)

def planned : Bool :=
  match hints.plan with
  | none => false
  | some plan =>
    !plan.steps.isEmpty &&
      plan.steps.all fun step => (hints.candidates.map ToolCandidate.name).contains step

def laidOut (tools : Option (ToolHints Value)) : Option String :=
  tools.bind fun hints => if planned hints then hints.plan.map SkillView.id else none

def skillLines (laid : Option String) (skill : SkillView) : List String :=
  let steps :=
    if laid = some skill.id then
      "the first " ++ toString skill.steps.length ++ " tools under Tools, in that order"
    else " -> ".intercalate skill.steps
  let what :=
    match skill.withSkill with
    | some opened => if opened = "" then skill.name else "adds to your skill " ++ opened
    | none => skill.name
  ("- " ++ what ++ ": " ++ steps ++ " (worked " ++ formats.percent skill.successRate ++ " of "
      ++ toString skill.support ++ " runs)") ::
    skill.fixes.map (fun fix => "  - if " ++ fix) ++
      skill.steps.eraseDups.filterMap fun step =>
        (skill.forbidden.lookup step).map fun rule =>
          "  - but " ++ forbiddenNote step ++ ": " ++ rule

def skillsSection (skills : List SkillView) (tools : Option (ToolHints Value)) :
    Option String :=
  if skills.isEmpty then none
  else
    some ("## Learned skills for this task\n" ++
      lines (skills.flatMap (skillLines formats (laidOut tools))))

/-- `removeprefix`, of a text that starts with it. -/
def withoutStart (start text : String) : String :=
  String.ofList (text.toList.drop start.toList.length)

/-- `_tool_line`. -/
def toolLine (candidate : ToolCandidate) : String :=
  let start := candidate.name ++ "."
  let found := (hints.prefill.filter fun entry => start.toList.isPrefixOf entry.1.toList).map
    fun entry => (withoutStart start entry.1, entry.2)
  let absent := hints.missing.filter fun m => m.tool = candidate.name
  let head := "- " ++ candidate.name ++ " (confidence " ++ formats.decimals candidate.confidence
    ++ if hints.next = some candidate.name then ", next step)" else ")"
  let details :=
    (if found.isEmpty then []
      else [", ".intercalate (found.map fun entry => entry.1 ++ " = " ++ formats.repr entry.2)])
      ++ absent.map (fun m => "missing " ++ m.arg ++ ": " ++ m.question)
      ++ ((hints.forbidden.lookup candidate.name).map fun rule =>
          forbiddenNote "this" ++ ": " ++ rule).toList
  head ++ if details.isEmpty then "" else ": " ++ "; ".intercalate details

def toolsShown : List ToolCandidate :=
  let steps := if planned hints then (hints.plan.map SkillView.steps).getD [] else []
  let place (c : ToolCandidate) := if steps.contains c.name then steps.idxOf c.name
    else steps.length
  let ranked := hints.candidates.insertionSort fun first second => place first ≤ place second
  let room := max toolsShownMax steps.length
  (ranked.zipIdx.filter fun c => c.2 < room || hints.next = some c.1.name).map Prod.fst

def toolsSection (tools : Option (ToolHints Value)) : Option String :=
  tools.bind fun hints =>
    if hints.candidates.isEmpty then none
    else some ("## Tools\n" ++ lines ((toolsShown hints).map (toolLine formats hints)))

def pinnedSections (procedures : List SkillView) (tools : Option (ToolHints Value)) : List String :=
  ([profileSection profile, summarySection summary, skillsSection formats procedures tools,
    toolsSection formats tools].filterMap id).filter (· ≠ "")

def sectionTokens (text : Option String) : Nat := (text.map estimateTokens).getD 0

/-- The summary with its last `chars` characters. -/
def cutTo (chars : Nat) (summary : ThreadSummaryView) : ThreadSummaryView :=
  { text := "..." ++ String.ofList ((summary.text.toList.rtake chars).dropWhile formats.isspace) }

/-- The loop of `_truncated`. -/
def shortened (summary : ThreadSummaryView) (tokens chars : Nat) : Option ThreadSummaryView :=
  if 0 < chars then
    let cut := cutTo formats chars summary
    if sectionTokens (summarySection (some cut)) ≤ tokens then some cut
    else shortened summary tokens (chars * 9 / 10)
  else none
termination_by chars
decreasing_by omega

/-- `_truncated`. -/
def truncated (summary : ThreadSummaryView) (tokens : Nat) : Option ThreadSummaryView :=
  if tokens < summaryMinTokens then none
  else shortened formats summary tokens (tokens * charsPerToken)

/-- `_profile_that_fits`. -/
def profileThatFits (allowed : Nat) :
    List ProfileBlockView × Nat :=
  let standing := profile.filter fun b => standingBlocks.contains b.block
  match [profile, standing].find? fun blocks =>
      !blocks.isEmpty && sectionTokens (profileSection blocks) ≤ allowed with
  | some blocks => (blocks, sectionTokens (profileSection blocks))
  | none => ([], 0)

def summaryThatFits (allowed used : Nat) :
    Option ThreadSummaryView × Nat :=
  match summary with
  | none => (none, used)
  | some whole =>
    let cost := sectionTokens (summarySection summary)
    if used + cost ≤ allowed then (some whole, used + cost)
    else
      match truncated formats whole (allowed - used) with
      | some cut => (some cut, used + sectionTokens (summarySection (some cut)))
      | none => (none, used)

variable (pinned : Pinned Value)

def proceduresThatFit (allowed used : Nat) : List SkillView × Nat :=
  match skillsSection formats pinned.procedures pinned.tools with
  | some text =>
    if used + estimateTokens text ≤ allowed then
      (pinned.procedures, used + estimateTokens text)
    else ([], used)
  | none => ([], used)

def ToolHints.stripped (hints : ToolHints Value) : ToolHints Value :=
  { hints with next := none, prefill := [], missing := [] }

@[simp]
theorem ToolHints.stripped_candidates : hints.stripped.candidates = hints.candidates := rfl

def toolsThatFit (allowed used : Nat) :
    Option (ToolHints Value) × Nat :=
  match toolsSection formats pinned.tools with
  | some text =>
    if used + estimateTokens text ≤ allowed then (pinned.tools, used + estimateTokens text)
    else (pinned.tools.map ToolHints.stripped, used)
  | none => (pinned.tools.map ToolHints.stripped, used)

def withinBudget (budget : Nat) : Pinned Value × Nat :=
  -- `int(budget * PINNED_SHARE)`
  let allowed := budget / 2
  let (profile, used) := profileThatFits pinned.profile allowed
  let (threadSummary, used) := summaryThatFits formats pinned.threadSummary allowed used
  let (procedures, used) := proceduresThatFit formats pinned allowed used
  let (tools, used) := toolsThatFit formats pinned allowed used
  ({ profile, threadSummary, procedures, tools }, used)

def Pinned.rendered : List String :=
  pinnedSections formats pinned.profile pinned.threadSummary pinned.procedures pinned.tools

/-- What is charged is the estimate of what is given, and at most half of the budget. -/
def Accounted (budget : Nat) : Prop :=
  let kept := withinBudget formats pinned budget
  ((kept.1.rendered formats).map estimateTokens).sum = kept.2 ∧ 2 * kept.2 ≤ budget

/-- What the sections before the tools take of `allowed`. -/
def takenBeforeTools (allowed : Nat) : Nat :=
  let used := (profileThatFits pinned.profile allowed).2
  let used := (summaryThatFits formats pinned.threadSummary allowed used).2
  (proceduresThatFit formats pinned allowed used).2

/-- The tool hints fit behind what is taken before them. -/
def RoomForTools (budget : Nat) : Prop :=
  ∀ text, toolsSection formats pinned.tools = some text →
    takenBeforeTools formats pinned (budget / 2) + estimateTokens text ≤ budget / 2

variable {formats}

theorem tokens_pos (text : String) : 0 < estimateTokens text := by
  rw [estimateTokens]
  split
  · omega
  · omega

theorem profile_exact (allowed : Nat) :
    sectionTokens (profileSection (profileThatFits profile allowed).1) =
        (profileThatFits profile allowed).2 ∧
      (profileThatFits profile allowed).2 ≤ allowed := by
  rw [profileThatFits]
  split
  case h_1 blocks isFound =>
    have fits := find?_some isFound
    simp only [Bool.and_eq_true, decide_eq_true_eq] at fits
    exact ⟨rfl, fits.2⟩
  case h_2 => exact ⟨rfl, Nat.zero_le _⟩

theorem shortened_fits {summary : ThreadSummaryView} {chars : Nat}
    (isCut : shortened formats summary tokens chars = some cut) :
    sectionTokens (summarySection (some cut)) ≤ tokens := by
  induction chars using Nat.strong_induction_on with
  | h chars ih =>
    rw [shortened] at isCut
    obtain ⟨positive, isCut⟩ := ite_none_right_eq_some.mp isCut
    simp only at isCut
    split at isCut
    case isTrue fits =>
      cases isCut
      exact fits
    case isFalse => exact ih _ (by omega) isCut

theorem truncated_fits {summary : ThreadSummaryView}
    (isCut : truncated formats summary tokens = some cut) :
    sectionTokens (summarySection (some cut)) ≤ tokens := by
  rw [truncated] at isCut
  split at isCut
  · cases isCut
  · exact shortened_fits isCut

variable (formats)

theorem summary_exact (within : used ≤ allowed) :
    (summaryThatFits formats summary allowed used).2 =
        used + sectionTokens (summarySection (summaryThatFits formats summary allowed used).1) ∧
      (summaryThatFits formats summary allowed used).2 ≤ allowed := by
  cases summary with
  | none => exact ⟨rfl, within⟩
  | some whole =>
    simp only [summaryThatFits]
    split
    case isTrue fits => exact ⟨rfl, fits⟩
    case isFalse =>
      split
      case h_1 cut isCut =>
        have fits := truncated_fits isCut
        refine ⟨rfl, ?_⟩
        simp only
        omega
      case h_2 => exact ⟨rfl, within⟩

theorem laidOut_stripped (tools : Option (ToolHints Value)) :
    laidOut (tools.map ToolHints.stripped) = laidOut tools := by
  cases tools <;> rfl

theorem skillsSection_that_fit (allowed used : Nat)
    (procedures : List SkillView) :
    skillsSection formats procedures (toolsThatFit formats pinned allowed used).1 =
      skillsSection formats procedures pinned.tools := by
  have sameLaid : laidOut (toolsThatFit formats pinned allowed used).1 =
      laidOut pinned.tools := by
    rw [toolsThatFit]
    split
    · split
      · rfl
      · exact laidOut_stripped pinned.tools
    · exact laidOut_stripped pinned.tools
  rw [skillsSection, sameLaid, skillsSection]

theorem procedures_exact (within : used ≤ allowed) :
    (proceduresThatFit formats pinned allowed used).2 =
        used + sectionTokens
          (skillsSection formats (proceduresThatFit formats pinned allowed used).1
            pinned.tools) ∧
      (proceduresThatFit formats pinned allowed used).2 ≤ allowed := by
  rw [proceduresThatFit]
  split
  case h_1 text isText =>
    split
    case isTrue fits =>
      simp only [isText]
      exact ⟨rfl, fits⟩
    case isFalse => exact ⟨rfl, within⟩
  case h_2 => exact ⟨rfl, within⟩

theorem stripped_renders_iff (tools : Option (ToolHints Value)) :
    toolsSection formats (tools.map ToolHints.stripped) = none ↔
      toolsSection formats tools = none := by
  cases tools with
  | none => rfl
  | some hints =>
    cases noCandidate : hints.candidates.isEmpty with
    | true => simp [toolsSection, List.isEmpty_iff.mp noCandidate]
    | false =>
      have someCandidate := isEmpty_eq_false_iff.mp noCandidate
      simp [toolsSection, someCandidate]

theorem tools_exact_iff :
    (toolsThatFit formats pinned allowed used).2 =
        used + sectionTokens
          (toolsSection formats (toolsThatFit formats pinned allowed used).1) ↔
      ∀ text, toolsSection formats pinned.tools = some text →
        used + estimateTokens text ≤ allowed := by
  rw [toolsThatFit]
  split
  case h_1 text isText =>
    split
    case isTrue fits =>
      simp [isText, sectionTokens, fits]
    case isFalse tight =>
      cases isShown : toolsSection formats (pinned.tools.map ToolHints.stripped) with
      | none =>
        rw [stripped_renders_iff, isText] at isShown
        cases isShown
      | some shown =>
        have positive := tokens_pos shown
        simp only [isText, sectionTokens, map_some, getD_some]
        constructor
        · intro same
          omega
        · intro fits
          exact absurd (fits text rfl) tight
  case h_2 noText =>
    simp [noText, (stripped_renders_iff formats pinned.tools).mpr noText, sectionTokens]

theorem tools_within (within : used ≤ allowed) :
    (toolsThatFit formats pinned allowed used).2 ≤ allowed := by
  rw [toolsThatFit]
  split
  · split
    case isTrue fits => exact fits
    case isFalse => exact within
  · exact within

theorem section_ne_empty {profile : List ProfileBlockView} {summary : Option ThreadSummaryView}
    {procedures : List SkillView} {tools : Option (ToolHints Value)} {text : String}
    (isSection : text ∈ [profileSection profile, summarySection summary,
      skillsSection formats procedures tools, toolsSection formats tools].filterMap id) :
    text ≠ "" := by
  obtain ⟨made, member, isText⟩ := mem_filterMap.mp isSection
  simp only [id_eq] at isText
  subst isText
  simp only [mem_cons, not_mem_nil, or_false] at member
  rcases member with isProfile | isSummary | isSkills | isTools
  · rw [profileSection] at isProfile
    split at isProfile
    · cases isProfile
    · simp [some.inj isProfile]
  · obtain ⟨summary, -, isText⟩ := map_eq_some_iff.mp isSummary.symm
    simp [← isText]
  · rw [skillsSection] at isSkills
    split at isSkills
    · cases isSkills
    · simp [some.inj isSkills]
  · obtain ⟨hints, -, isText⟩ := bind_eq_some_iff.mp isTools.symm
    split at isText
    · cases isText
    · simp [← some.inj isText]

theorem sum_pinnedSections (procedures : List SkillView)
    (tools : Option (ToolHints Value)) :
    ((pinnedSections formats profile summary procedures tools).map estimateTokens).sum =
      sectionTokens (profileSection profile) + sectionTokens (summarySection summary) +
        sectionTokens (skillsSection formats procedures tools) +
          sectionTokens (toolsSection formats tools) := by
  have counted : ∀ sections : List (Option String),
      ((sections.filterMap id).map estimateTokens).sum = (sections.map sectionTokens).sum := by
    intro sections
    induction sections with
    | nil => rfl
    | cons first rest ih =>
      cases first with
      | none => simpa [sectionTokens] using ih
      | some text => simpa [sectionTokens] using ih
  rw [pinnedSections, filter_eq_self.mpr
    (fun text isSection => decide_eq_true (section_ne_empty formats isSection)), counted]
  simp [Nat.add_assoc]

/-- What is kept is accounted for just when there is no tools section or it fits. -/
theorem accounted_iff_room (pinned : Pinned Value) (budget : Nat) :
    Accounted formats pinned budget ↔ RoomForTools formats pinned budget := by
  have profile := profile_exact pinned.profile (budget / 2)
  have summary := summary_exact formats pinned.threadSummary profile.2
  have procedures := procedures_exact formats pinned summary.2
  have within := tools_within formats pinned procedures.2
  rw [RoomForTools, ← tools_exact_iff, Accounted]
  simp only [withinBudget, Pinned.rendered, sum_pinnedSections, skillsSection_that_fit,
    takenBeforeTools]
  omega

end Sections

def plainFormats : Formats String where
  percent _ := "90%"
  decimals _ := "0.90"
  repr value := "'" ++ value ++ "'"
  isspace := Char.isWhitespace

/-- A tool with an argument that is asked for in forty characters of three bytes. -/
def longQuestion : Pinned String where
  tools := some {
    candidates := [{ name := "erp-create_po", confidence := 9 / 10 }]
    missing := [{ tool := "erp-create_po", arg := "qty",
                  question := String.ofList (replicate 40 '数') }] }

theorem candidates_are_not_paid_for :
    ¬∀ (pinned : Pinned String) (budget : Nat), Accounted plainFormats pinned budget := by
  intro accounted
  have tooMuch : ¬(((withinBudget plainFormats longQuestion 200).1.rendered plainFormats).map
      estimateTokens).sum = (withinBudget plainFormats longQuestion 200).2 := by
    decide +kernel
  exact tooMuch (accounted longQuestion 200).1

end MemoryService.Context.Pinning
