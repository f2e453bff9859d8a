import MemoryService.Domain.Conversation
import MemoryService.Foundation.Lines
import MemoryService.Idempotency.Service

/-!
# The key of a request to append messages

Without a key of its own a request has one that is derived from its lineage and its messages,
joined by a separator.  Where no text holds the separator the key tells the messages.
-/

namespace MemoryService.Idempotency

open Domain Foundation List

def unitSeparator : Char := '\x1f'

structure ToolCallBody (Args : Type) where
  id : String
  name : String
  arguments : Args

structure MessageIn (Args : Type) where
  role : MessageRole
  kind : MessageKind
  content : String
  occurredAt : Option Instant
  toolCalls : List (ToolCallBody Args)
  toolCallId : Option String

/-- `orjson.dumps` with sorted keys, of the objects that it does not refuse. -/
structure Orjson (Args : Type) where
  dumps : Args → List Char
  /-- All its numbers are finite.  Another number is written as `null`. -/
  Finite : Args → Prop
  /-- No such object's text begins another's. -/
  exact : ∀ {a b : Args} {rest other : List Char}, Finite a → Finite b →
    dumps a ++ rest = dumps b ++ other → a = b ∧ rest = other
  /-- Control characters are escaped. -/
  plain : ∀ a, unitSeparator ∉ dumps a

def Lineage.ids (ctx : Lineage) : List (Option String) :=
  [some ctx.tenantId, ctx.threadId, ctx.sessionId, ctx.turnId, ctx.agentRunId]

/-- A lineage of identifiers that were checked. -/
structure Checked extends Lineage where
  checked : ∀ id ∈ toLineage.ids, id ≠ some "" ∧ unitSeparator ∉ (id.getD "").toList

structure CreateMessages (Args : Type) where
  ctx : Checked
  messages : List (MessageIn Args)

section

variable {Args : Type} (orjson : Orjson Args)

def callText (c : ToolCallBody Args) : List Char :=
  c.id.toList ++ ':' :: (c.name.toList ++ ':' :: orjson.dumps c.arguments)

def callsText (calls : List (ToolCallBody Args)) : List Char :=
  [','].intercalate (calls.map (callText orjson))

/-- `_tool_identity`, cut at its separators. -/
def toolIdentity (m : MessageIn Args) : List (List Char) :=
  if m.toolCalls.isEmpty ∧ m.toolCallId = none then []
  else [(m.toolCallId.getD "").toList, callsText orjson m.toolCalls]

/-- The parts of a message's text in `identity`. -/
def fields (turnId : Option String) (m : MessageIn Args) : List (List Char) :=
  [m.role.value.toList, m.kind.value.toList, m.content.toList,
    if turnId = none then (m.occurredAt.elim "" Instant.isoformat).toList else []] ++
      toolIdentity orjson m

def part (turnId : Option String) (m : MessageIn Args) : List Char :=
  [unitSeparator].intercalate (fields orjson turnId m)

def derivedKey (digests : Digests) (request : CreateMessages Args) : String :=
  defaultIdempotencyKey digests request.ctx.toLineage
    ("messages" :: request.messages.map fun m => .ofList (part orjson request.ctx.turnId m))

end

/-- No text of the message holds what its parts are joined by, and no argument of its calls an
infinite number or what is not a number. -/
structure MessageIn.Plain {Args : Type} (m : MessageIn Args) (orjson : Orjson Args) : Prop where
  content : unitSeparator ∉ m.content.toList
  callId : unitSeparator ∉ (m.toolCallId.getD "").toList
  calls : ∀ c ∈ m.toolCalls, (unitSeparator ∉ c.id.toList ∧ ':' ∉ c.id.toList) ∧
    unitSeparator ∉ c.name.toList ∧ ':' ∉ c.name.toList
  numbers : ∀ c ∈ m.toolCalls, orjson.Finite c.arguments
  answers : m.toolCalls ≠ [] → m.toolCallId ≠ some ""

/-- What the key is to tell of a message. -/
def MessageIn.Same {Args : Type} (m n : MessageIn Args) : Prop :=
  m.role = n.role ∧ m.kind = n.kind ∧ m.content = n.content ∧ m.toolCalls = n.toolCalls ∧
    m.toolCallId = n.toolCallId

variable {Args : Type} {orjson : Orjson Args} {digests : Digests} {turnId : Option String}
  {m n : MessageIn Args}

theorem cut {front other rest later : List Char} {c : Char} (notIn : c ∉ front)
    (notOther : c ∉ other) (same : front ++ c :: rest = other ++ c :: later) :
    front = other ∧ rest = later := by
  induction front generalizing other with
  | nil =>
    cases other with
    | nil => exact ⟨rfl, (List.cons.inj same).2⟩
    | cons b other => exact absurd ((List.cons.inj same).1 ▸ mem_cons_self) notOther
  | cons a front ih =>
    cases other with
    | nil => exact absurd ((List.cons.inj same).1 ▸ mem_cons_self) notIn
    | cons b other =>
      obtain ⟨rfl, isLater⟩ := List.cons.inj same
      exact (ih (mt (mem_cons_of_mem a) notIn) (mt (mem_cons_of_mem a) notOther)
        isLater).imp_left (congrArg (a :: ·))

/-- The text of the call can be cut at its colons, and its arguments are all in it. -/
def Cuts (orjson : Orjson Args) (c : ToolCallBody Args) : Prop :=
  ':' ∉ c.id.toList ∧ ':' ∉ c.name.toList ∧ orjson.Finite c.arguments

theorem callText_inj {c d : ToolCallBody Args} {rest other : List Char}
    (first : Cuts orjson c) (second : Cuts orjson d)
    (same : callText orjson c ++ rest = callText orjson d ++ other) : c = d ∧ rest = other := by
  simp only [callText, append_assoc, cons_append] at same
  obtain ⟨isId, isLater⟩ := cut first.1 second.1 same
  obtain ⟨isName, isRest⟩ := cut first.2.1 second.2.1 isLater
  obtain ⟨isArgs, isEnd⟩ := orjson.exact first.2.2 second.2.2 isRest
  cases c
  cases d
  simp_all [String.toList_inj]

theorem callsText_inj {calls others : List (ToolCallBody Args)}
    (first : ∀ c ∈ calls, Cuts orjson c) (second : ∀ c ∈ others, Cuts orjson c)
    (same : callsText orjson calls = callsText orjson others) : calls = others := by
  have notEmpty (c : ToolCallBody Args) (rest : List Char) : callText orjson c ++ rest ≠ [] := by
    simp [callText]
  have split (c : ToolCallBody Args) (calls : List (ToolCallBody Args)) :
      callsText orjson (c :: calls) =
        callText orjson c ++ if calls = [] then [] else ',' :: callsText orjson calls := by
    cases calls <;> simp [callsText]
  induction calls generalizing others with
  | nil =>
    cases others with
    | nil => rfl
    | cons d others => exact absurd same.symm (split d others ▸ notEmpty d _)
  | cons c calls ih =>
    cases others with
    | nil => exact absurd same (split c calls ▸ notEmpty c _)
    | cons d others =>
      rw [split, split] at same
      obtain ⟨isFirst, isLater⟩ :=
        callText_inj (first c mem_cons_self) (second d mem_cons_self) same
      have later : calls = others := by
        by_cases none_ : calls = [] <;> by_cases none' : others = [] <;>
          simp only [none_, none', if_true, if_false] at isLater
        · rw [none_, none']
        · cases isLater
        · cases isLater
        · exact ih (fun c member => first c (mem_cons_of_mem _ member))
            (fun c member => second c (mem_cons_of_mem _ member)) (List.cons.inj isLater).2
      rw [isFirst, later]

theorem role_value_inj : Function.Injective MessageRole.value := by
  intro first second same
  cases first <;> cases second <;> first | rfl | exact absurd same (by decide)

theorem kind_value_inj : Function.Injective MessageKind.value := by
  intro first second same
  cases first <;> cases second <;> first | rfl | exact absurd same (by decide)

theorem kind_ne_callsText (kind : MessageKind) (calls : List (ToolCallBody Args)) :
    kind.value.toList ≠ callsText orjson calls := by
  have noColon : kind.value.toList ≠ [] ∧ ':' ∉ kind.value.toList := by
    cases kind <;> decide
  cases calls with
  | nil => exact noColon.1
  | cons c calls =>
    intro same
    refine noColon.2 (same ▸ ?_)
    cases calls <;> simp [callsText, callText]

theorem toolIdentity_inj (first : m.Plain orjson) (second : n.Plain orjson)
    (same : toolIdentity orjson m = toolIdentity orjson n) :
    m.toolCalls = n.toolCalls ∧ m.toolCallId = n.toolCallId := by
  have names {m : MessageIn Args} (plain : m.Plain orjson) :
      ∀ c ∈ m.toolCalls, Cuts orjson c := fun c member =>
    ⟨(plain.calls c member).1.2, (plain.calls c member).2.2, plain.numbers c member⟩
  rw [toolIdentity, toolIdentity] at same
  split at same <;> split at same
  · next isM isN => simp_all
  · cases same
  · cases same
  · next isM isN =>
      obtain ⟨isId, isRest⟩ := List.cons.inj same
      have isCalls := callsText_inj (names first) (names second) (List.cons.inj isRest).1
      refine ⟨isCalls, ?_⟩
      have answers := first.answers
      have answers' := second.answers
      rw [String.toList_inj] at isId
      cases isCall : m.toolCallId <;> cases isCall' : n.toolCallId <;> simp_all

theorem same_of_fields {messages others : List (MessageIn Args)}
    (first : ∀ m ∈ messages, m.Plain orjson) (second : ∀ m ∈ others, m.Plain orjson)
    (same : messages.flatMap (fields orjson turnId) = others.flatMap (fields orjson turnId)) :
    List.Forall₂ MessageIn.Same messages others := by
  have tools (m : MessageIn Args) : toolIdentity orjson m = [] ∨
      toolIdentity orjson m = [(m.toolCallId.getD "").toList, callsText orjson m.toolCalls] := by
    rw [toolIdentity]
    split
    · exact .inl rfl
    · exact .inr rfl
  -- Two parts that a message has behind its four cannot be the first two of another message.
  have notBehind (m : MessageIn Args) (later : List (MessageIn Args)) (rest : List (List Char)) :
      later.flatMap (fields orjson turnId) ≠
        [(m.toolCallId.getD "").toList, callsText orjson m.toolCalls] ++ rest := by
    cases later with
    | nil => exact nofun
    | cons n later =>
      intro isNext
      rw [flatMap_cons, fields] at isNext
      exact kind_ne_callsText n.kind m.toolCalls (List.cons.inj (List.cons.inj isNext).2).1
  induction messages generalizing others with
  | nil =>
    cases others with
    | nil => exact .nil
    | cons n others => cases same
  | cons m messages ih =>
    cases others with
    | nil => cases same
    | cons n others =>
      obtain ⟨isM, first⟩ := forall_mem_cons.mp first
      obtain ⟨isN, second⟩ := forall_mem_cons.mp second
      simp only [flatMap_cons, fields, cons_append, nil_append,
        List.cons.injEq, String.toList_inj] at same
      obtain ⟨isRole, isKind, isContent, -, behind⟩ := same
      have isTool : toolIdentity orjson m = toolIdentity orjson n := by
        rcases tools m with isTool | isTool <;> rcases tools n with isOther | isOther <;>
          rw [isTool, isOther] at behind ⊢
        · exact absurd behind (notBehind n _ _)
        · exact absurd behind.symm (notBehind m _ _)
        · exact congrArg (List.take 2) behind
      rw [isTool] at behind
      have isCall := toolIdentity_inj isM isN isTool
      exact .cons ⟨role_value_inj isRole, kind_value_inj isKind, isContent, isCall⟩
        (ih first second (append_cancel_left behind))

theorem padded_free (width n : ℕ) : unitSeparator ∉ Instant.padded width n := by
  intro member
  rcases mem_append.mp member with isZero | isDigit
  · exact absurd (eq_of_mem_replicate isZero) (by decide)
  · exact absurd (Nat.isDigit_of_mem_toDigits (by decide) (by decide) isDigit) (by decide)

theorem isoformat_free (instant : Instant) : unitSeparator ∉ instant.isoformat.toList := by
  have isFraction (n : ℕ) : unitSeparator ∉ if n = 0 then [] else '.' :: Instant.padded 6 n := by
    split
    · exact not_mem_nil
    · simpa [padded_free] using (by decide : unitSeparator ≠ '.')
  have others : unitSeparator ∉ "-T:+00:00".toList := by decide
  simp only [Instant.isoformat, Instant.dateIsoformat, String.toList_ofList, mem_append,
    mem_cons, padded_free, isFraction, not_or]
  simpa [and_assoc] using others

theorem callsText_free (plain : m.Plain orjson) : unitSeparator ∉ callsText orjson m.toolCalls := by
  intro member
  rcases mem_intercalate member with isComma | ⟨text, isText, inText⟩
  · exact absurd (mem_singleton.mp isComma) (by decide)
  · obtain ⟨c, isCall, rfl⟩ := mem_map.mp isText
    have isPlain := plain.calls c isCall
    have isArgs := orjson.plain c.arguments
    have isColon : unitSeparator ≠ ':' := by decide
    simp [callText, isPlain.1.1, isPlain.2.1, isArgs, isColon] at inText

theorem fields_free (plain : m.Plain orjson) :
    ∀ text ∈ fields orjson turnId m, unitSeparator ∉ text := by
  have isRole : unitSeparator ∉ m.role.value.toList := by cases m.role <;> decide
  have isKind : unitSeparator ∉ m.kind.value.toList := by cases m.kind <;> decide
  have isTime : unitSeparator ∉
      if turnId = none then (m.occurredAt.elim "" Instant.isoformat).toList else [] := by
    split
    · cases m.occurredAt with
      | none => exact not_mem_nil
      | some instant => exact isoformat_free instant
    · exact not_mem_nil
  intro text member
  rcases mem_append.mp member with isOwn | isTool
  · simp only [mem_cons, not_mem_nil, or_false] at isOwn
    rcases isOwn with rfl | rfl | rfl | rfl
    exacts [isRole, isKind, plain.content, isTime]
  · rw [toolIdentity] at isTool
    split at isTool
    · cases isTool
    · simp only [mem_cons, not_mem_nil, or_false] at isTool
      rcases isTool with rfl | rfl
      exacts [plain.callId, callsText_free plain]

def header (ctx : Checked) : List (List Char) :=
  ctx.ids.map (fun id => (id.getD "").toList) ++ ["messages".toList]

theorem header_inj {ctx other : Checked} (same : header ctx = header other) :
    ctx.toLineage = other.toLineage := by
  have isIds := append_cancel_right same
  have isId {id second : Option String} (isOwn : id ∈ ctx.ids) (isOther : second ∈ other.ids)
      (same : (id.getD "").toList = (second.getD "").toList) : id = second := by
    have notEmpty := (ctx.checked id isOwn).1
    have notEmpty' := (other.checked second isOther).1
    rw [String.toList_inj] at same
    cases id <;> cases second <;> simp_all
  simp only [Lineage.ids, map_cons, map_nil, List.cons.injEq, and_true] at isIds isId
  obtain ⟨isTenant, isThread, isSession, isTurn, isRun⟩ := isIds
  have tenant := isId (by simp) (by simp) isTenant
  have thread := isId (by simp) (by simp) isThread
  have session := isId (by simp) (by simp) isSession
  have turn := isId (by simp) (by simp) isTurn
  have run := isId (by simp) (by simp) isRun
  cases hctx : ctx.toLineage
  cases hother : other.toLineage
  simp_all

/-- All that is joined, cut as far as it goes. -/
def texts (orjson : Orjson Args) (request : CreateMessages Args) : List (List Char) :=
  header request.ctx ++ request.messages.flatMap (fields orjson request.ctx.turnId)

theorem intercalate_intercalate {groups : List (List (List Char))} {separator : List Char}
    (isGroup : ∀ group ∈ groups, group ≠ []) :
    separator.intercalate (groups.map separator.intercalate) =
      separator.intercalate groups.flatten := by
  induction groups with
  | nil => rfl
  | cons group groups ih =>
    obtain ⟨isFirst, isLater⟩ := forall_mem_cons.mp isGroup
    cases groups with
    | nil => simp
    | cons next groups =>
      have notEmpty : (next :: groups).flatten ≠ [] := by
        simp [(forall_mem_cons.mp isLater).1]
      rw [map_cons, intercalate_cons_of_ne_nil (by simp), ih isLater,
        @List.flatten_cons _ group, intercalate_append isFirst notEmpty]

theorem derivedKey_eq (request : CreateMessages Args) :
    derivedKey orjson digests request =
      "auto-" ++ digests.blake2b
        (.ofList ([unitSeparator].intercalate (texts orjson request))) := by
  have isGroup : ∀ group ∈ (header request.ctx).map (fun text => [text]) ++
      request.messages.map (fields orjson request.ctx.turnId), group ≠ [] := by
    intro group member
    rcases mem_append.mp member with isHead | isMessage
    · obtain ⟨text, -, rfl⟩ := mem_map.mp isHead
      exact cons_ne_nil _ _
    · obtain ⟨m, -, rfl⟩ := mem_map.mp isMessage
      exact cons_ne_nil _ _
  have isJoined := @intercalate_intercalate _ [unitSeparator] isGroup
  have isHeader : ((header request.ctx).map fun text => [text]).flatten = header request.ctx := by
    rw [← flatMap_def, flatMap_singleton']
  rw [flatten_append, isHeader, ← flatMap_def] at isJoined
  rw [texts, ← isJoined, derivedKey, defaultIdempotencyKey, stableKey]
  congr 2
  rw [← String.toList_inj, String.toList_intercalate, String.toList_ofList]
  simp only [header, Lineage.ids, map_cons, map_nil, map_map,
    cons_append, nil_append, Function.comp_def, String.toList_ofList,
    intercalate_singleton, Option.getD_some]
  rfl

theorem texts_free {request : CreateMessages Args}
    (plain : ∀ m ∈ request.messages, m.Plain orjson) :
    ∀ text ∈ texts orjson request, unitSeparator ∉ text := by
  intro text member
  rcases mem_append.mp member with isHeader | isMessage
  · rcases mem_concat.mp isHeader with isShown | rfl
    · obtain ⟨id, isId, rfl⟩ := mem_map.mp isShown
      exact (request.ctx.checked id isId).2
    · decide
  · obtain ⟨m, isMessage, isField⟩ := mem_flatMap.mp isMessage
    exact fields_free (plain m isMessage) text isField

/-- Where no text holds a separator and no argument a number that is not finite, the same key is of
the same lineage and the same messages. -/
theorem derived_key_tells (injective : Function.Injective digests.blake2b)
    {first second : CreateMessages Args} (isFirst : ∀ m ∈ first.messages, m.Plain orjson)
    (isSecond : ∀ m ∈ second.messages, m.Plain orjson)
    (same : derivedKey orjson digests first = derivedKey orjson digests second) :
    first.ctx.toLineage = second.ctx.toLineage ∧
      List.Forall₂ MessageIn.Same first.messages second.messages := by
  rw [derivedKey_eq, derivedKey_eq, String.append_right_inj] at same
  have isJoined := String.ofList_injective (injective same)
  have isTexts : texts orjson first = texts orjson second := by
    have cut := congrArg (List.splitOn unitSeparator) isJoined
    rwa [splitOn_intercalate _ (texts_free isFirst) (by simp [texts, header]),
      splitOn_intercalate _ (texts_free isSecond) (by simp [texts, header])] at cut
  obtain ⟨isHeader, isMessages⟩ := append_inj isTexts rfl
  have isLineage := header_inj isHeader
  rw [← isLineage] at isMessages
  exact ⟨isLineage, same_of_fields isFirst isSecond isMessages⟩

/-- Objects with one flag, such as `{"all":true}`. -/
def oneFlag : Orjson Bool where
  dumps flag := (if flag then "\x7b\"all\":true\x7d" else "\x7b\"all\":false\x7d").toList
  Finite _ := True
  exact {a b _ _} _ _ same := by
    cases a <;> cases b <;> simp at same <;> exact ⟨rfl, same⟩
  plain flag := by
    cases flag <;> decide

def inTurn : Checked where
  tenantId := "acme"
  threadId := some "thr_7"
  turnId := some "turn_1"
  checked := by decide

/-- A call of a tool, sent in its turn at an instant. -/
def asked (seconds : ℕ) : CreateMessages Bool where
  ctx := inTurn
  messages :=
    [{ role := .assistant, kind := .visible, content := "I look it up.",
       occurredAt := some ⟨seconds⟩, toolCalls := [⟨"call_1", "lookup", true⟩],
       toolCallId := none }]

/-- The same call is sent again a minute later. -/
theorem key_of_the_same_call :
    List.Forall₂ MessageIn.Same (asked 0).messages (asked 60).messages := by
  have plain : ∀ seconds, ∀ m ∈ (asked seconds).messages, m.Plain oneFlag := by
    intro seconds m member
    rw [mem_singleton.mp member]
    have isCall : ∀ c ∈ [(⟨"call_1", "lookup", true⟩ : ToolCallBody Bool)],
        (unitSeparator ∉ c.id.toList ∧ ':' ∉ c.id.toList) ∧
          unitSeparator ∉ c.name.toList ∧ ':' ∉ c.name.toList := by decide
    exact ⟨(by decide : unitSeparator ∉ "I look it up.".toList), not_mem_nil, isCall,
      fun _ _ => trivial, fun _ => nofun⟩
  exact (@derived_key_tells _ oneFlag ⟨id, fun _ => ""⟩ Function.injective_id (asked 0)
    (asked 60) (plain 0) (plain 60) (by decide +kernel)).2

def sent (contents : List String) : CreateMessages Bool where
  ctx := inTurn
  messages := contents.map fun content => ⟨.user, .visible, content, none, [], none⟩

/-- Two messages, and one whose text is what the two are joined to. -/
theorem two_messages_read_as_one :
    ¬∀ (Args : Type) (orjson : Orjson Args) (digests : Digests)
      (first second : CreateMessages Args), Function.Injective digests.blake2b →
      derivedKey orjson digests first = derivedKey orjson digests second →
      first.ctx.toLineage = second.ctx.toLineage ∧
        List.Forall₂ MessageIn.Same first.messages second.messages := by
  intro always
  have same := always Bool oneFlag ⟨id, fun _ => ""⟩ (sent ["yes", "no"])
    (sent ["yes\x1f\x1fUSER\x1fVISIBLE\x1fno"]) Function.injective_id (by decide +kernel)
  exact absurd same.2.length_eq (by decide)

end MemoryService.Idempotency
