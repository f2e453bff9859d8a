import MemoryService.Authz.Revisions
import MemoryService.Foundation.Span
import MemoryService.Memory.Statements

/-!
# Supersession

Four paths close a memory and point it at the one that replaces it: the pipeline, which also
keeps a late statement as history, the owner's rewrite, and a correction.
-/

namespace MemoryService.Domain

def TemporalState.span (t : TemporalState) : Foundation.Span Instant where
  start := t.validFrom
  stop := t.validTo

end MemoryService.Domain

namespace MemoryService.Memory

open Domain Foundation Statements List

structure Closing where
  before : CanonicalMemory
  closed : CanonicalMemory
  replacement : CanonicalMemory

namespace Pipeline

variable (target replacement : CanonicalMemory)

/-- `supersede`, what it makes of the target. -/
def superseded (now : Instant) : CanonicalMemory :=
  { target with
    temporal :=
      { target.temporal with
        status := .superseded
        supersededBy := some replacement.memoryId
        validTo := some (target.temporal.validTo.getD replacement.temporal.since) }
    updatedAt := now }

/-- `supersede`, what it makes of the replacement: it holds from when it was said, and a
link it already has stays. -/
def superseding : CanonicalMemory :=
  { replacement with
    temporal :=
      { replacement.temporal with
        supersedes := some (replacement.temporal.supersedes.getD target.memoryId)
        validFrom := some replacement.temporal.since } }

def closeAll (twins : List CanonicalMemory)
    (now : Instant) : List Closing :=
  let replacement' := superseding target replacement
  { before := target
    closed := superseded target replacement now
    replacement := replacement' } ::
    twins.map fun twin =>
      { before := twin, closed := superseded twin replacement' now, replacement := replacement' }

/-- `_replace`: of the two, the newer is the one that was said later. -/
def replace (rows : List CanonicalMemory) (tenantId : String)
    (target memory : CanonicalMemory) (now : Instant) : List Closing :=
  if memory.temporal.since < target.temporal.since then
    -- said before the target: stored as its history
    closeAll memory target [] now
  else
    closeAll target memory (twins tenantId target true rows) now

end Pipeline

def statedConfidence : Rat := 8106479329266893 / 9007199254740992

/-- Whose a new version is and what it is about. -/
def authorship (ctx : MemoryExecutionContext) (old : CanonicalMemory) :
    String × MemoryType × Option String × Option String :=
  if ctx.isAgent then
    let aboutAPerson := (old.subject.getD "").startsWith "user:"
    (ctx.principalId, Authz.authoredType old.memoryType true,
      if aboutAPerson then none else old.subject,
      if aboutAPerson then none else old.predicate)
  else (old.ownerPrincipal, old.memoryType, old.subject, old.predicate)

variable {closing : Closing} {now : Instant}

section

variable (normalizedHash : String → Digest)

/-- The new version that `MemoryService.supersede` writes. -/
def restated (ctx : MemoryExecutionContext) (old : CanonicalMemory)
    (memoryId content reason : String) (now : Instant) : CanonicalMemory :=
  let (ownerPrincipal, memoryType, subject, predicate) := authorship ctx old
  { memoryId
    tenantId := old.tenantId
    scopeKey := old.scopeKey
    ownerPrincipal
    memoryType
    content
    normalizedHash := normalizedHash content
    subject
    predicate
    temporal := { observedAt := now }
    evidence := [⟨.statement, memoryId⟩]
    confidence := statedConfidence
    systemMetadata :=
      { category := some "stated"
        expiresAt := some old.systemMetadata.expiresAt.join
        supersedeReason := some reason
        provider := some "statement" }
    updatedAt := now }

variable (rows : List CanonicalMemory)

/-- `MemoryService.supersede`; a memory that is not `CURRENT` is a conflict. -/
def rewrite (ctx : MemoryExecutionContext)
    (old : CanonicalMemory) (memoryId content reason : String) (now : Instant) :
    Option (List Closing) :=
  if old.temporal.status = .current then
    let new := restated normalizedHash ctx old memoryId content reason now
    let twins := twins ctx.tenantId.text old true rows
    some ((Pipeline.closeAll old new twins now).map fun closing =>
      { closing with
        closed :=
          { closing.closed with
            systemMetadata :=
              { closing.closed.systemMetadata with supersedeReason := some reason } } })
  else none

/-- `revisions.supersede`, what it makes of the old revision. -/
def revised (old new : CanonicalMemory) (now : Instant) : CanonicalMemory :=
  { old with
    temporal :=
      { old.temporal with
        status := .superseded
        supersededBy := some new.memoryId
        validTo := some (old.temporal.validTo.getD now) }
    updatedAt := now }

/-- `revisions.supersede`, what it makes of the new one. -/
def revising (old new : CanonicalMemory) : CanonicalMemory :=
  { new with temporal := { new.temporal with supersedes := some old.memoryId } }

variable (memory : CanonicalMemory) (memoryId feedbackId content : String)

/-- The memory that `_correct` writes. -/
def corrected (now : Instant) : CanonicalMemory :=
  { memory with
    memoryId
    content
    normalizedHash := normalizedHash content
    confidence := max memory.confidence statedConfidence
    reinforcementCount := 1
    evidence := memory.evidence ++ [⟨.feedback, feedbackId⟩]
    temporal := { memory.temporal with observedAt := now, validFrom := some now, validTo := none }
    -- a fresh row: no inherited lifetime and no mark of what replaced it
    systemMetadata := { provider := some (memory.systemMetadata.provider.getD "native") }
    updatedAt := now
    revision := 1 }

/-- `_project_memory` on a correction; nothing is closed where the memory is gone or not
`CURRENT`, or where the correction carries no text. -/
def correct (now : Instant) : List Closing :=
  if memory.deletedAt = none ∧ memory.temporal.status = .current ∧ content ≠ "" then
    let new := corrected normalizedHash memory memoryId feedbackId content now
    (memory :: twins memory.tenantId memory true rows).map fun old =>
      { before := old, closed := revised old new now, replacement := revising memory new }
  else []

inductive Supersession where
  | byPipeline (target replacement : CanonicalMemory)
  | byNewValue (tenantId : String) (target memory : CanonicalMemory)
  | byOwner (ctx : MemoryExecutionContext) (old : CanonicalMemory)
      (memoryId content reason : String)
  | byCorrection (memory : CanonicalMemory) (memoryId feedbackId content : String)

def Supersession.closings (now : Instant) :
    Supersession → List Closing
  | .byPipeline target replacement => Pipeline.closeAll target replacement [] now
  | .byNewValue tenantId target memory => Pipeline.replace rows tenantId target memory now
  | .byOwner ctx old memoryId content reason =>
    (rewrite normalizedHash rows ctx old memoryId content reason now).getD []
  | .byCorrection memory memoryId feedbackId content =>
    correct normalizedHash rows memory memoryId feedbackId content now

/-- The old interval is closed, is not inverted, ends by the time the replacement starts to
hold, and the two never hold together. -/
structure Closing.Bounded (closing : Closing) : Prop where
  closedBy : closing.closed.temporal.span.ClosedBy closing.replacement.temporal.since
  apart : ∀ instant,
    ¬(closing.closed.temporal.span.Holds instant ∧ closing.replacement.temporal.span.Holds instant)

def Supersession.Fits (now : Instant) : Supersession → Prop
  | .byPipeline target replacement => target.temporal.span.Fits replacement.temporal.since
  | .byNewValue tenantId target memory =>
    if memory.temporal.since < target.temporal.since then
      memory.temporal.span.Fits target.temporal.since
    else
      ∀ old ∈ target :: twins tenantId target true rows,
        old.temporal.span.Fits memory.temporal.since
  | .byOwner ctx old _ _ _ =>
    old.temporal.status = .current →
      ∀ m ∈ old :: twins ctx.tenantId.text old true rows, m.temporal.span.Fits now
  | .byCorrection memory _ _ content =>
    memory.deletedAt = none ∧ memory.temporal.status = .current ∧ content ≠ "" →
      ∀ m ∈ memory :: twins memory.tenantId memory true rows, m.temporal.span.Fits now

theorem bounded_iff {limit : Instant}
    (closes : closing.closed.temporal.span = closing.before.temporal.span.closeAt limit)
    (starts : closing.replacement.temporal.validFrom = some limit) :
    closing.Bounded ↔ closing.before.temporal.span.Fits limit := by
  have since : closing.replacement.temporal.since = limit := by
    rw [TemporalState.since, starts]
    rfl
  rw [← Span.closeAt_closedBy_iff, ← closes]
  constructor
  · intro bounded
    rw [← since]
    exact bounded.closedBy
  · intro closedBy
    refine ⟨by rw [since]; exact closedBy, fun instant => ?_⟩
    exact closedBy.apart starts

theorem all_bounded_iff {closings : List Closing} {limit : Instant}
    (closes : ∀ closing ∈ closings,
      closing.closed.temporal.span = closing.before.temporal.span.closeAt limit ∧
        closing.replacement.temporal.validFrom = some limit) :
    (∀ closing ∈ closings, closing.Bounded) ↔
      ∀ old ∈ closings.map Closing.before, old.temporal.span.Fits limit := by
  rw [forall_mem_map]
  refine forall₂_congr fun closing member => ?_
  obtain ⟨closed, starts⟩ := closes closing member
  exact bounded_iff closed starts

theorem closeAll_closes {target replacement : CanonicalMemory}
    {twins : List CanonicalMemory}
    (member : closing ∈ Pipeline.closeAll target replacement twins now) :
    closing.closed.temporal.span = closing.before.temporal.span.closeAt replacement.temporal.since ∧
      closing.replacement.temporal.validFrom = some replacement.temporal.since := by
  rw [Pipeline.closeAll] at member
  rcases mem_cons.mp member with isFirst | isTwin
  · rw [isFirst]
    exact ⟨rfl, rfl⟩
  · obtain ⟨twin, -, isClosing⟩ := mem_map.mp isTwin
    rw [← isClosing]
    exact ⟨rfl, rfl⟩

variable (target replacement : CanonicalMemory)

theorem closeAll_before (twins : List CanonicalMemory) (now : Instant) :
    (Pipeline.closeAll target replacement twins now).map Closing.before = target :: twins := by
  rw [Pipeline.closeAll, map_cons, map_map]
  congr 1
  exact map_id twins

theorem Pipeline.closeAll_bounded_iff (twins : List CanonicalMemory) (now : Instant) :
    (∀ closing ∈ closeAll target replacement twins now, closing.Bounded) ↔
      ∀ old ∈ target :: twins, old.temporal.span.Fits replacement.temporal.since := by
  rw [← closeAll_before target replacement twins now]
  exact all_bounded_iff fun closing member => closeAll_closes member

theorem Pipeline.replace_bounded_iff (tenantId : String)
    (target memory : CanonicalMemory) (now : Instant) :
    (∀ closing ∈ replace rows tenantId target memory now, closing.Bounded) ↔
      if memory.temporal.since < target.temporal.since then
        memory.temporal.span.Fits target.temporal.since
      else
        ∀ old ∈ target :: twins tenantId target true rows,
          old.temporal.span.Fits memory.temporal.since := by
  rw [replace]
  split_ifs with late
  · rw [closeAll_bounded_iff, forall_mem_singleton]
  · rw [closeAll_bounded_iff]

theorem rewrite_bounded_iff {rows : List CanonicalMemory} {ctx : MemoryExecutionContext}
    {old : CanonicalMemory} {memoryId content reason : String}
    {closings : List Closing}
    (written : rewrite normalizedHash rows ctx old memoryId content reason now = some closings) :
    (∀ closing ∈ closings, closing.Bounded) ↔
      ∀ m ∈ old :: twins ctx.tenantId.text old true rows, m.temporal.span.Fits now := by
  simp only [rewrite] at written
  obtain ⟨current, written⟩ := Option.ite_none_right_eq_some.mp written
  cases written
  have holdsFromNow :
      (restated normalizedHash ctx old memoryId content reason now).temporal.since = now :=
    rfl
  rw [← closeAll_before old (restated normalizedHash ctx old memoryId content reason now)
    (twins ctx.tenantId.text old true rows) now, @all_bounded_iff _ now]
  · rw [map_map]
    rfl
  · intro closing member
    obtain ⟨plain, isPlain, isClosing⟩ := mem_map.mp member
    rw [← isClosing]
    exact closeAll_closes isPlain

theorem correct_bounded_iff (now : Instant) :
    (∀ closing ∈ correct normalizedHash rows memory memoryId feedbackId content now,
        closing.Bounded) ↔
      (memory.deletedAt = none ∧ memory.temporal.status = .current ∧ content ≠ "" →
        ∀ m ∈ memory :: twins memory.tenantId memory true rows, m.temporal.span.Fits now) := by
  rw [correct]
  split_ifs with applies
  · rw [@all_bounded_iff _ now, map_map]
    · constructor
      · intro fits _ m member
        exact fits m (by simpa using member)
      · intro fits m member
        exact fits applies m (by simpa using member)
    · intro closing member
      obtain ⟨old, -, isClosing⟩ := mem_map.mp member
      rw [← isClosing]
      exact ⟨rfl, rfl⟩
  · simp [applies]

/-- A supersession leaves bounded intervals just where the ones it closes fit. -/
theorem closings_bounded_iff (rows : List CanonicalMemory) (now : Instant)
    (supersession : Supersession) :
    (∀ closing ∈ supersession.closings normalizedHash rows now, closing.Bounded) ↔
      supersession.Fits rows now := by
  cases supersession with
  | byPipeline target replacement =>
    rw [Supersession.closings, Pipeline.closeAll_bounded_iff, forall_mem_singleton]
    rfl
  | byNewValue tenantId target memory =>
    rw [Supersession.closings, Pipeline.replace_bounded_iff]
    rfl
  | byOwner ctx old memoryId content reason =>
    rw [Supersession.closings, Supersession.Fits]
    by_cases current : old.temporal.status = .current
    · obtain ⟨closings, written⟩ : ∃ closings,
          rewrite normalizedHash rows ctx old memoryId content reason now = some closings := by
        rw [rewrite, if_pos current]
        exact ⟨_, rfl⟩
      rw [written, Option.getD_some, rewrite_bounded_iff normalizedHash written]
      simp only [current, forall_const]
    · have refused : rewrite normalizedHash rows ctx old memoryId content reason now = none := by
        rw [rewrite, if_neg current]
      rw [refused]
      simp [current]
  | byCorrection memory memoryId feedbackId content =>
    rw [Supersession.closings, correct_bounded_iff]
    rfl

end

def leased : CanonicalMemory where
  memoryId := "mem_lease"
  tenantId := "initech"
  ownerPrincipal := "user:peter"
  memoryType := .semantic
  content := "The lease is 400 a month"
  normalizedHash := ⟨"0e", rfl⟩
  temporal := { observedAt := ⟨0⟩, validFrom := some ⟨0⟩, validTo := some ⟨10⟩ }
  evidence := [⟨.statement, "mem_lease"⟩]
  updatedAt := ⟨0⟩

/-- Corrected after five of them, it is valid to the end of all ten, beside its correction. -/
theorem correction_overlaps :
    ¬∀ closing ∈
        Supersession.closings (fun _ => leased.normalizedHash) [leased] ⟨5⟩
          (.byCorrection leased "mem_new" "fb_1" "The lease is 450 a month"),
      closing.Bounded := by
  intro bounded
  have fits :=
    (correct_bounded_iff (fun _ => leased.normalizedHash) [leased] leased "mem_new" "fb_1"
      "The lease is 450 a month" ⟨5⟩).mp bounded (by decide) leased (mem_cons_self)
  revert fits
  decide

end MemoryService.Memory
