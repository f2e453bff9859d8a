import MemoryService.Memory.Consolidation

/-!
# One current value for a slot

The pipeline writes what the consolidation decides, the owner rewrites a memory, sweeps archive
and restores bring back, and forgetting a statement reopens what it replaced.
-/

namespace MemoryService.Domain

def ScopeLevel.value : ScopeLevel → String
  | .agent => "AGENT"
  | .agentGroup => "AGENT_GROUP"
  | .thread => "THREAD"
  | .user => "USER"
  | .workspace => "WORKSPACE"
  | .tenant => "TENANT"

def Scope.key (scope : Scope) : String :=
  let named (name : String) (value : Option String) : List String :=
    ((value.filter (· ≠ "")).map fun text => name ++ "=" ++ text).toList
  "/".intercalate
    (["t=" ++ scope.tenantId, "l=" ++ scope.level.value] ++
      named "workspace" scope.workspaceId ++ named "user" scope.userId ++
      named "thread" scope.threadId ++ named "agent" scope.agentId ++
      named "agent_group" scope.agentGroupId)

end MemoryService.Domain

namespace MemoryService.Memory.SlotValues

open Domain Foundation Consolidation Statements

/-- Seven days, in seconds. -/
def shortTermTtl : Nat := 7 * 86400

def expires (candidate : MemoryCandidate) (now : Instant) : Option Instant :=
  let lapses := if candidate.lifetime = .shortTerm then some (now.after shortTermTtl) else none
  match candidate.validTo with
  | none => lapses
  | some validTo =>
    if lapses.all fun instant => validTo < instant then some validTo else lapses

section Pipeline

variable (reader : Reader) (settings : MemoryIntelligenceSettings)
  (candidate : MemoryCandidate) (ctx : MemoryExecutionContext) (memoryId : String)
  (now : Instant)

def scopeKey : String :=
  (Authz.scopeFor candidate.memoryType (candidate.visibility.getD .priv) ctx).key

def buildMemory : CanonicalMemory where
  memoryId
  tenantId := ctx.tenantId.text
  scopeKey := scopeKey candidate ctx
  ownerPrincipal := ctx.principalId
  memoryType := candidate.memoryType
  content := candidate.content
  normalizedHash := reader.normalizedHash candidate.content
  subject := candidate.subject
  predicate := candidate.predicate
  object := candidate.object
  temporal :=
    { validFrom := candidate.validFrom
      validTo := candidate.validTo
      observedAt := candidate.observedAt.getD now }
  evidence := candidate.evidence
  confidence := candidate.confidence
  systemMetadata :=
    { provider := some candidate.provider
      category := candidate.category
      expiresAt := some (expires candidate now) }
  updatedAt := now

/-- The twenty most recent of a kind, the turns and the others apart. -/
def window (rows : List CanonicalMemory) : List CanonicalMemory :=
  let turn (r : CanonicalMemory) : Bool := transcript r.systemMetadata.category
  (newestFirst CanonicalMemory.updatedAt (rows.filter fun r => !turn r)).take
      settings.dedupCandidateK ++
    (newestFirst CanonicalMemory.updatedAt (rows.filter turn)).take settings.dedupCandidateK

/-- `candidates`: the current memories of the scope in the same words or about the same
subject, and the most recent ones. -/
def candidates (rows : List CanonicalMemory) : List CanonicalMemory :=
  let inScope := rows.filter fun r =>
    r.tenantId = ctx.tenantId.text ∧ r.scopeKey = scopeKey candidate ctx ∧
      r.deletedAt = none ∧ r.temporal.status = .current
  let exact := inScope.filter fun r =>
    r.normalizedHash = reader.normalizedHash candidate.content ∨
      reader.spelled candidate.subject r.subject
  (window settings exact ++ window settings inScope).eraseDups

def reinforced (decision : DedupDecision) (target : CanonicalMemory) : CanonicalMemory :=
  let merges := decision = .merge ∧ target.content.length < candidate.content.length
  { target with
    reinforcementCount := target.reinforcementCount + 1
    evidence := target.evidence ++ candidate.evidence.filter (· ∉ target.evidence)
    content := if merges then candidate.content else target.content
    normalizedHash :=
      if merges then reader.normalizedHash candidate.content else target.normalizedHash
    updatedAt := now }

def closeIn (closings : List Closing) (rows : List CanonicalMemory) : List CanonicalMemory :=
  closings.foldl (fun rows closing => Statements.update closing.closed rows) rows

/-- `_replace`. -/
def replace (target memory : CanonicalMemory) (rows : List CanonicalMemory) :
    List CanonicalMemory :=
  if memory.temporal.since < target.temporal.since then
    -- said before the target: stored as its history
    Statements.update (Pipeline.superseding memory target)
      (Statements.add (Pipeline.superseded memory target now) rows)
  else
    closeIn
      (Pipeline.closeAll target memory (twins ctx.tenantId.text target true rows) now)
      (Statements.add (Pipeline.superseding target memory) rows)

/-- `_apply`. -/
def apply (outcome : ConsolidationOutcome) (existing rows : List CanonicalMemory) :
    List CanonicalMemory :=
  let target := existing.find? fun m => some m.memoryId = outcome.targetMemoryId
  let memory := buildMemory reader candidate ctx memoryId now
  match outcome.decision, target with
  | .create, _ => Statements.add memory rows
  | .reinforce, some target =>
    Statements.update (reinforced reader candidate now .reinforce target) rows
  | .merge, some target => Statements.update (reinforced reader candidate now .merge target) rows
  | .supersede, some target => replace ctx now target memory rows
  | .update, some target => replace ctx now target memory rows
  | .contradict, some target =>
    Statements.update { target with updatedAt := now } (Statements.add memory rows)
  | _, _ => rows

/-- One candidate of `_apply_all`; what is ephemeral or not admitted is not stored. -/
def write (admitted : Bool) (rows : List CanonicalMemory) : List CanonicalMemory :=
  if candidate.lifetime = .ephemeral ∨ admitted = false then rows
  else
    let existing := candidates reader settings candidate ctx rows
    apply reader candidate ctx memoryId now
      (consolidate reader settings candidate ctx existing) existing rows

end Pipeline

variable (now : Instant)

/-- `_archive`. -/
def archived (m : CanonicalMemory) : CanonicalMemory :=
  { m with temporal := { m.temporal with status := .archived }, updatedAt := now }

def sweep (ids : List String) (rows : List CanonicalMemory) :
    List CanonicalMemory :=
  updateWhere
    (fun r => r.memoryId ∈ ids ∧ r.deletedAt = none ∧ r.temporal.status = .current)
    (fun r => written (archived now r) r) rows

/-- What `restore` makes of an archived memory. -/
def restored (m : CanonicalMemory) : CanonicalMemory :=
  { m with temporal := { m.temporal with status := .current }, updatedAt := now }

def restore (tenantId memoryId : String) (rows : List CanonicalMemory) :
    List CanonicalMemory :=
  match Statements.get now tenantId memoryId rows with
  | none => rows
  | some memory =>
    if memory.temporal.status = .archived then Statements.update (restored now memory) rows
    else rows

structure State where
  rows : List CanonicalMemory := []

inductive Action where
  /-- a candidate that the pipeline read; the admission gate has its say -/
  | write (candidate : MemoryCandidate) (ctx : MemoryExecutionContext) (memoryId : String)
      (now : Instant) (admitted : Bool)
  | supersede (ctx : MemoryExecutionContext) (oldId newId content reason : String)
      (now : Instant)
  | sweep (ids : List String) (now : Instant)
  | restore (tenantId memoryId : String) (now : Instant)
  | forget (tenantId memoryId : String) (now : Instant)
  /-- a later statement of another conversation replaces an earlier one -/
  | replace (formId unitId : String) (grade : Grade) (now : Instant)
  | reinstate (tenantId : String) (gone : List String) (now : Instant)

section System

variable (reader : Reader) (settings : MemoryIntelligenceSettings)

/-- `MemoryService.supersede` of a memory that is found; a memory that is not current is a
conflict. -/
def supersede (ctx : MemoryExecutionContext) (oldId newId content reason : String)
    (now : Instant) (rows : List CanonicalMemory) : Option (List CanonicalMemory) := do
  let old ← Statements.get now ctx.tenantId.text oldId rows
  let closings ← rewrite reader.normalizedHash rows ctx old newId content reason now
  let new ← closings.head?
  some (closeIn closings (Statements.add new.replacement rows))

def step (state : State) : Action → Option State
  | .write candidate ctx memoryId now admitted =>
    if memoryId ∈ state.rows.map CanonicalMemory.memoryId then none
    else
      some { rows := write reader settings candidate ctx memoryId now admitted state.rows }
  | .supersede ctx oldId newId content reason now =>
    if newId ∈ state.rows.map CanonicalMemory.memoryId then none
    else
      (supersede reader ctx oldId newId content reason now state.rows).map fun rows => { rows }
  | .sweep ids now => some { rows := sweep now ids state.rows }
  | .restore tenantId memoryId now => some { rows := restore now tenantId memoryId state.rows }
  | .forget tenantId memoryId now =>
    (Replacement.forget now tenantId memoryId state.rows).map fun rows => { rows }
  | .replace formId unitId grade now => do
      let form ← row formId state.rows
      let unit ← row unitId state.rows
      if Replacement.comparable form unit then
        some { rows := Statements.update (Replacement.apply form unit grade now) state.rows }
      else none
  | .reinstate tenantId gone now =>
    some { rows := Replacement.reinstate now tenantId gone state.rows }

end System

structure Slot where
  tenantId : String
  ownerPrincipal : String
  scopeKey : String
  memoryType : MemoryType
  subject : String
  predicate : String
  deriving DecidableEq

variable (m : CanonicalMemory)

def value : Option (Slot × String) := do
  let subject ← m.subject
  let predicate ← m.predicate
  let object ← m.object
  if subject ≠ "" ∧ object ≠ "" ∧ isSingleValued (some predicate) then
    some
      ({ tenantId := m.tenantId
         ownerPrincipal := m.ownerPrincipal
         scopeKey := m.scopeKey
         memoryType := m.memoryType
         subject
         predicate }, object)
  else none

def current : Bool := m.deletedAt = none ∧ m.temporal.status = .current

def held : Option (Slot × String) :=
  if current m then value m else none

/-- No two current memories give a slot different values. -/
def OneValue (rows : List CanonicalMemory) : Prop :=
  Set.InjOn Prod.fst {c | c ∈ rows.filterMap held}

end MemoryService.Memory.SlotValues
