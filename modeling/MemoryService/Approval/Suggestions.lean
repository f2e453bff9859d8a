import MemoryService.Approval.Expression
import MemoryService.Feedback.Approvals

/-!
# Approval suggestions

The rules that an agent's decisions support, and accepting one into the catalog as the tool's
`approve_when`.
-/

namespace MemoryService.Approval

open Foundation
open Feedback.Approvals (Decision approvalDecisionsRead countedDecisions)

/-- Decisions on one tool and argument shape before a rule is suggested. -/
def approvalMinSupport : Nat := 5

def autoApproveRate : Rat := Binary64.round (95 / 100)

def alwaysAskRate : Rat := 1 / 2

def approvalMinReviewers : Nat := 2

inductive Suggestion where
  | autoApprove
  | alwaysAsk
  deriving DecidableEq

structure ApprovalCounts where
  agentId : String
  tool : String
  argShape : Text
  approvals : Nat := 0
  rejections : Nat := 0
  edits : Nat := 0

namespace ApprovalCounts

variable (counts : ApprovalCounts)

def support : Nat := counts.approvals + counts.rejections + counts.edits

def approveRate : Rat :=
  if counts.support = 0 then 0 else Binary64.round (counts.approvals / counts.support)

def suggestion : Option Suggestion :=
  if counts.support < approvalMinSupport then none
  else if autoApproveRate ≤ counts.approveRate then some .autoApprove
  else if counts.approveRate ≤ alwaysAskRate then some .alwaysAsk
  else none

end ApprovalCounts

inductive SideEffects where
  | read
  | write
  | irreversible
  deriving DecidableEq

structure ToolAnnotations where
  readOnly : Option Bool := none
  destructive : Option Bool := none

def riskTier (sideEffects : Option SideEffects) (annotations : ToolAnnotations) :
    SideEffects :=
  match sideEffects with
  | some tier => tier
  | none =>
    if annotations.readOnly = some true then .read
    else if annotations.destructive = some true then .irreversible
    else .write

/-- An entry of a tenant's catalog; without a workspace it is the whole tenant's. -/
structure ToolDescriptor where
  workspaceId : Option String := none
  name : String
  sideEffects : Option SideEffects := none
  annotations : ToolAnnotations := {}
  approveWhen : Option Text := none

namespace ToolDescriptor

variable (entry : ToolDescriptor)

def risk : SideEffects := riskTier entry.sideEffects entry.annotations

/-- The expression, where there is one; an empty one is none. -/
def rule : Option Text := entry.approveWhen.filter (· ≠ [])

def key : String × String := (entry.workspaceId.getD "", entry.name)

end ToolDescriptor

variable (catalog : List ToolDescriptor)

def byName (name : String) (workspaceId : Option String) :
    Option ToolDescriptor :=
  (catalog.find? fun entry => entry.key = (workspaceId.getD "", name)).or
    (catalog.find? fun entry => entry.key = ("", name))

def nameMaxChars : Nat := 200

/-- The tenant's entry, which is made where there is none; a name that is blank, too long or
has white space around it makes none. -/
def ensure (name : String) :
    Option (ToolDescriptor × List ToolDescriptor) :=
  match byName catalog name none with
  | some found => some (found, catalog)
  | none =>
    if Rag.strip name.toList = name.toList ∧ name ≠ "" ∧ name.length ≤ nameMaxChars then
      some ({ name }, catalog ++ [{ name }])
    else none

/-- `upsert`, of the one field `approve_when`. -/
def upsert (entry : ToolDescriptor) :
    ToolDescriptor × List ToolDescriptor :=
  match catalog.find? fun row => row.key = entry.key with
  | none => (entry, catalog ++ [entry])
  | some stored =>
    let updated := { stored with approveWhen := entry.approveWhen }
    (updated, updateWhere (fun row => row.key = entry.key) (fun _ => updated) catalog)

/-- What a tool without an expression asks for. -/
def tierText (risk : SideEffects) : Text :=
  if risk = .irreversible then "true".toList else "false".toList

/-- What the tool asks for already: its expression, or its tier. -/
def base (existing : Option Text) (risk : SideEffects) : Text :=
  (existing.filter (· ≠ [])).getD (tierText risk)

/-- `approve_when` with the rule for calls of the shape added. -/
def compose (existing : Option Text) (risk : SideEffects) (suggestion : Suggestion)
    (shape : Text) : Text :=
  match suggestion with
  | .alwaysAsk =>
    if base existing risk = "false".toList then whenShape shape
    else "(".toList ++ base existing risk ++ ") or (".toList ++ whenShape shape ++ ")".toList
  | .autoApprove =>
    if base existing risk = "true".toList then "not (".toList ++ whenShape shape ++ ")".toList
    else
      "(".toList ++ base existing risk ++ ") and not (".toList ++ whenShape shape ++
        ")".toList

def accepted (entry : Option ToolDescriptor) (shape : Text) : Bool :=
  (entry.bind ToolDescriptor.rule).any fun expression => Text.occursIn (whenShape shape) expression

def offered (counts : ApprovalCounts) (entry : Option ToolDescriptor) : Option Suggestion :=
  match counts.suggestion, entry with
  | some .autoApprove, some found =>
    if found.risk = .irreversible then none
    else if found.rule.isSome && !accepted entry counts.argShape then none
    else some .autoApprove
  | suggestion, _ => suggestion

def numberOfWord : List Char → Number
  | '-' :: rest => ((unsigned true rest).map Prod.fst).getD .nan
  | word => ((unsigned false word).map Prod.fst).getD .nan

mutual

def ofJson : Json → Value
  | .null => .null
  | .bool value => .bool value
  | .num number => .num (numberOfWord number.word)
  | .str text => .str text.toList
  | .arr items => .list (ofItems items)
  | .obj members => .obj (ofMembers members)

def ofItems : List Json → List Value
  | [] => []
  | item :: items => ofJson item :: ofItems items

def ofMembers : List (String × Json) → Members
  | [] => []
  | (key, value) :: members => (key.toList, ofJson value) :: ofMembers members

end

structure Store where
  tenantId : String
  catalog : List ToolDescriptor := []
  patterns : List ApprovalCounts := []
  decisions : List Decision := []

def Store.approvalPattern (store : Store) (agentId tool : String) (shape : Text) :
    Option ApprovalCounts :=
  store.patterns.find? fun counts =>
    counts.agentId = agentId && counts.tool = tool && counts.argShape = shape

section

variable (floorLog10 : Rat → Int) (store : Store)

def reviewers (counts : ApprovalCounts) : List String :=
  ((countedDecisions store.decisions store.tenantId counts.agentId counts.tool
    approvalDecisionsRead).filterMap fun d =>
      if d.approves &&
          argShape floorLog10 (ofMembers ((Feedback.Approvals.members d.metadata.args).getD []))
            = some counts.argShape then
        d.reviewer.filter (· ≠ "")
      else none).dedup

def offer (counts : ApprovalCounts) (entry : Option ToolDescriptor) :
    Option Suggestion :=
  match offered counts entry with
  | some .autoApprove =>
    if approvalMinReviewers ≤ (reviewers floorLog10 store counts).length then
      some .autoApprove
    else none
  | suggestion => suggestion

inductive Refusal where
  | notFound
  | unsupported
  | notOffered (tool : String)
  | invalidName
  | invalidExpression

/-- What a refusal says that `accept` raises itself. -/
def Refusal.text : Refusal → Option String
  | .notFound => "no such approval suggestion"
  | .unsupported => "the decisions no longer support this suggestion"
  | .notOffered tool =>
    tool ++ " is irreversible or has an approve_when already, or fewer than " ++
      toString approvalMinReviewers ++
      " reviewers approved it: a learned rule never makes it ask less"
  | .invalidName => none
  | .invalidExpression => none

/-- What is about to be accepted. -/
structure Offer where
  entry : ToolDescriptor
  suggestion : Suggestion
  shape : Text
  store : Store

/-- `by_name(…) or ensure(…)`. -/
def Store.entry (tool : String) (workspaceId : Option String) :
    Option (ToolDescriptor × Store) :=
  match byName store.catalog tool workspaceId with
  | some found => some (found, store)
  | none => (ensure store.catalog tool).map fun (found, catalog) => (found, { store with catalog })

/-- `accept`, up to the suggestion. -/
def suggested (agentId workspaceId : Option String)
    (identified : Option (String × String × Text)) : Except Refusal Offer :=
  match identified with
  | none => .error .notFound
  | some (agent, tool, shape) =>
    if agent ≠ agentId.getD "" then .error .notFound
    else
      match store.approvalPattern agent tool shape with
      | none => .error .unsupported
      | some counts =>
        if counts.suggestion = none then .error .unsupported
        else
          match store.entry tool workspaceId with
          | none => .error .invalidName
          | some (entry, store) =>
            match offer floorLog10 store counts (some entry) with
            | none => .error (.notOffered tool)
            | some suggestion => .ok { entry, suggestion, shape, store }

def Offer.expression (found : Offer) : Text :=
  compose found.entry.approveWhen found.entry.risk found.suggestion found.shape

/-- The rest of `accept`: the rule is written, unless it is there already. -/
def Offer.write (found : Offer) : Except Refusal (ToolDescriptor × Store) :=
  if accepted (some found.entry) found.shape then .ok (found.entry, found.store)
  else if (parse found.expression).isNone then .error .invalidExpression
  else
    let written := upsert found.store.catalog
      { found.entry with approveWhen := some found.expression }
    .ok (written.1, { found.store with catalog := written.2 })

def accept (agentId workspaceId : Option String)
    (identified : Option (String × String × Text)) :
    Except Refusal (ToolDescriptor × Store) :=
  suggested floorLog10 store agentId workspaceId identified >>= Offer.write

end

end MemoryService.Approval
