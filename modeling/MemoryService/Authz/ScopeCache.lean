import MemoryService.Authz.Visibility
import MemoryService.Foundation.Table
import Std.Data.String.ToNat

/-!
# The key of a cached scope

A cached scope has the names of its context for a key, and a fingerprint of the MEMBERSHIP
counters.
-/

namespace MemoryService.Authz

open Domain Foundation List

def membershipKey (identifier : String) : String := "membership:" ++ identifier

variable (ctx : MemoryExecutionContext)

/-- The counters that a scope depends on. -/
def membershipKeys : List String :=
  [membershipKey "", membershipKey ((ctx.userId.map Id.text).getD "")] ++
    ctx.agentId.toList.map fun agent => membershipKey agent.text

variable (revisions : String → Nat)

def counted (key : String) : String := key ++ "=" ++ (revisions key).repr

/-- `revision_fingerprint`. -/
def revisionFingerprint : String :=
  ",".intercalate (((membershipKeys ctx).insertionSort (· ≤ ·)).map (counted revisions))

/-- What `scope` makes of the dictionary that `get_many` returns. -/
def readFingerprint : String :=
  ",".intercalate (((membershipKeys ctx).eraseDups.insertionSort (· ≤ ·)).map (counted revisions))

/-- `authz:scope:…`, with the digest of the context's names as the names. -/
structure ScopeKey where
  tenantId : String
  scopeFingerprint : List String
  revisionFingerprint : String
  deriving DecidableEq

def scopeFingerprint : List String :=
  let orEmpty (name : Option Id) := (name.map Id.text).getD ""
  [ctx.tenantId.text, orEmpty ctx.workspaceId, orEmpty ctx.userId, orEmpty ctx.agentId,
    orEmpty ctx.agentGroupId, orEmpty ctx.agentRunId, orEmpty ctx.parentAgentRunId]

def scopeCacheKey (fingerprint : String) : ScopeKey where
  tenantId := ctx.tenantId.text
  scopeFingerprint := scopeFingerprint ctx
  revisionFingerprint := fingerprint

variable {ctx other : MemoryExecutionContext} {fingerprint otherFingerprint key : String} {n : Nat}

section

variable (same : scopeCacheKey ctx fingerprint = scopeCacheKey other otherFingerprint)
include same

theorem same_of_key :
    other = { ctx with threadId := other.threadId } := by
  have names := congrArg ScopeKey.scopeFingerprint same
  simp only [scopeCacheKey, scopeFingerprint, List.cons.injEq, and_true] at names
  obtain ⟨tenant, workspace, user, agent, group, run, parent⟩ := names
  cases ctx
  cases other
  simp only [MemoryExecutionContext.mk.injEq]
  exact ⟨(Id.text_injective tenant).symm, (Id.orEmpty_injective workspace).symm,
    (Id.orEmpty_injective user).symm, trivial, (Id.orEmpty_injective agent).symm,
    (Id.orEmpty_injective group).symm, (Id.orEmpty_injective run).symm,
    (Id.orEmpty_injective parent).symm⟩

theorem resolve_of_key (provider : Provider) : resolve provider other = resolve provider ctx := by
  rw [same_of_key same]
  rfl

theorem subjects_of_key : subjects other = subjects ctx := by
  rw [same_of_key same]
  rfl

end

theorem intercalate_injective {texts others : List String}
    (free : ∀ text ∈ texts, ',' ∉ text.toList) (otherFree : ∀ text ∈ others, ',' ∉ text.toList)
    (some_ : texts ≠ []) (otherSome : others ≠ [])
    (same : ",".intercalate texts = ",".intercalate others) : texts = others := by
  have comma : ",".toList = [','] := by decide
  have sameLists := congrArg String.toList same
  rw [String.toList_intercalate, String.toList_intercalate, comma] at sameLists
  have split : ∀ {texts : List String}, (∀ text ∈ texts, ',' ∉ text.toList) → texts ≠ [] →
      ([','].intercalate (texts.map String.toList)).splitOn ',' = texts.map String.toList := by
    intro texts free some_
    refine splitOn_intercalate ',' (fun chars member => ?_) (by simpa using some_)
    obtain ⟨text, isText, rfl⟩ := mem_map.mp member
    exact free text isText
  have parts := congrArg (List.splitOn ',') sameLists
  rw [split free some_, split otherFree otherSome] at parts
  exact map_injective_iff.mpr (fun _ _ => String.toList_inj.mp) parts

section

variable (isKey : key ∈ membershipKeys ctx)
include isKey

theorem mem_membershipKeys :
    key = membershipKey "" ∨ ∃ ident : Id, key = membershipKey ident.text := by
  simp only [membershipKeys, cons_append, nil_append, mem_cons, mem_map, Option.mem_toList] at isKey
  rcases isKey with rfl | rfl | ⟨agent, -, rfl⟩
  · exact .inl rfl
  · cases ctx.userId with
    | none => exact .inl rfl
    | some user => exact .inr ⟨user, rfl⟩
  · exact .inr ⟨agent, rfl⟩

theorem counted_comma_free (revisions : String → Nat) :
    ',' ∉ (counted revisions key).toList := by
  have digits : ',' ∉ (revisions key).repr.toList := by
    rw [Nat.toList_repr]
    intro member
    exact absurd (Nat.isDigit_of_mem_toDigits (by decide) (by decide) member) (by decide)
  have named : ',' ∉ key.toList := by
    rcases mem_membershipKeys isKey with rfl | ⟨ident, rfl⟩
    · decide
    · rw [membershipKey, String.toList_append, mem_append, not_or]
      exact ⟨by decide, ident.comma_free⟩
  rw [counted, String.toList_append, String.toList_append, mem_append, mem_append, not_or, not_or]
  exact ⟨⟨named, by decide⟩, digits⟩

theorem key_equals_free : '=' ∉ key.toList := by
  rcases mem_membershipKeys isKey with rfl | ⟨ident, rfl⟩
  · decide
  · rw [membershipKey, String.toList_append, mem_append, not_or]
    exact ⟨by decide, ident.equals_free⟩

end

theorem membershipKey_injective {first second : String}
    (same : membershipKey first = membershipKey second) : first = second :=
  String.append_right_inj _ |>.mp same

theorem membershipKeys_nodup_iff :
    (membershipKeys ctx).Nodup ↔ ctx.userId.isSome ∧ ctx.agentId ≠ ctx.userId := by
  have apart : ∀ {first second : String}, first ≠ second →
      membershipKey first ≠ membershipKey second := fun notSame same =>
    notSame (membershipKey_injective same)
  cases isUser : ctx.userId with
  | none => simp [membershipKeys, isUser]
  | some user =>
    cases isAgent : ctx.agentId with
    | none => simp [membershipKeys, isUser, isAgent, apart user.text_ne_empty.symm]
    | some agent =>
      have sameText : membershipKey user.text = membershipKey agent.text ↔ agent = user :=
        ⟨fun same => (Id.text_injective (membershipKey_injective same)).symm,
          fun same => by rw [same]⟩
      simp [membershipKeys, isUser, isAgent, apart user.text_ne_empty.symm,
        apart agent.text_ne_empty.symm, sameText]

section

variable {ctx : MemoryExecutionContext} {revisions : String → Nat} {keys : List String}

def countedKeys (revisions : String → Nat) (keys : List String) : List String :=
  (keys.insertionSort (· ≤ ·)).map (counted revisions)

theorem mem_countedKeys {text : String} :
    text ∈ countedKeys revisions keys ↔ ∃ key ∈ keys, counted revisions key = text := by
  rw [countedKeys, mem_map]
  refine exists_congr fun key => and_congr_left fun _ => ?_
  exact (perm_insertionSort _ _).mem_iff

theorem countedKeys_comma_free (areKeys : ∀ key ∈ keys, key ∈ membershipKeys ctx) :
    ∀ text ∈ countedKeys revisions keys, ',' ∉ text.toList := by
  intro text isText
  obtain ⟨key, isKey, rfl⟩ := mem_countedKeys.mp isText
  exact counted_comma_free (areKeys key isKey) revisions

theorem countedKeys_ne_nil (isKey : membershipKey "" ∈ keys) : countedKeys revisions keys ≠ [] :=
  ne_nil_of_mem (mem_countedKeys.mpr ⟨_, isKey, rfl⟩)

theorem fingerprints_agree_iff (ctx : MemoryExecutionContext) (revisions : String → Nat) :
    revisionFingerprint ctx revisions = readFingerprint ctx revisions ↔
      ctx.userId.isSome ∧ ctx.agentId ≠ ctx.userId := by
  rw [← membershipKeys_nodup_iff, ← length_eraseDups_eq_iff]
  have first : membershipKey "" ∈ membershipKeys ctx := mem_cons_self
  constructor
  · intro same
    have texts := intercalate_injective (countedKeys_comma_free fun _ isKey => isKey)
      (countedKeys_comma_free fun _ isKey => mem_eraseDups.mp isKey)
      (countedKeys_ne_nil first) (countedKeys_ne_nil (mem_eraseDups.mpr first)) same
    have lengths := congrArg List.length texts
    simp only [countedKeys, length_map, length_insertionSort] at lengths
    exact lengths.symm
  · intro lengths
    rw [revisionFingerprint, readFingerprint, (eraseDups_sublist _).eq_of_length lengths]

end

/-- The fingerprint was made when the tenant's own counter was at `n`. -/
def Counts (fingerprint : String) (n : Nat) : Prop :=
  ∃ ctx revisions, revisions (membershipKey "") = n ∧
    (fingerprint = revisionFingerprint ctx revisions ∨ fingerprint = readFingerprint ctx revisions)

theorem Counts.texts (counts : Counts fingerprint n) :
    ∃ texts, ",".intercalate texts = fingerprint ∧ texts ≠ [] ∧
      (∀ text ∈ texts, ',' ∉ text.toList) ∧
      (∀ text ∈ texts, ∃ key m, text = key ++ "=" ++ m.repr ∧ '=' ∉ key.toList ∧
        (key = membershipKey "" → m = n)) ∧
      membershipKey "" ++ "=" ++ n.repr ∈ texts := by
  obtain ⟨ctx, revisions, rfl, isFingerprint⟩ := counts
  have made : ∀ keys, membershipKey "" ∈ keys → (∀ key ∈ keys, key ∈ membershipKeys ctx) →
      ",".intercalate (countedKeys revisions keys) = fingerprint → ∃ texts,
        ",".intercalate texts = fingerprint ∧ texts ≠ [] ∧
          (∀ text ∈ texts, ',' ∉ text.toList) ∧
          (∀ text ∈ texts, ∃ key m, text = key ++ "=" ++ m.repr ∧ '=' ∉ key.toList ∧
            (key = membershipKey "" → m = revisions (membershipKey ""))) ∧
          membershipKey "" ++ "=" ++ (revisions (membershipKey "")).repr ∈ texts := by
    intro keys first areKeys isWhole
    refine ⟨_, isWhole, countedKeys_ne_nil first, countedKeys_comma_free areKeys, ?_,
      mem_countedKeys.mpr ⟨_, first, rfl⟩⟩
    intro text isText
    obtain ⟨key, isKey, rfl⟩ := mem_countedKeys.mp isText
    exact ⟨key, revisions key, rfl, key_equals_free (areKeys key isKey), fun same => by rw [same]⟩
  rcases isFingerprint with rfl | rfl
  · exact made _ mem_cons_self (fun _ isKey => isKey) rfl
  · exact made _ (mem_eraseDups.mpr mem_cons_self) (fun _ isKey => mem_eraseDups.mp isKey) rfl

theorem Counts.unique {m : Nat} (first : Counts fingerprint m)
    (second : Counts fingerprint n) : m = n := by
  obtain ⟨texts, isWhole, some_, free, -, isText⟩ := first.texts
  obtain ⟨others, sameWhole, otherSome, otherFree, areCounted, -⟩ := second.texts
  have same := intercalate_injective free otherFree some_ otherSome (isWhole.trans sameWhole.symm)
  rw [same] at isText
  obtain ⟨key, k, isCounted, equalsFree, counts⟩ := areCounted _ isText
  have parts := congrArg (partition '=') isCounted
  have equals : "=" = String.singleton '=' := by decide
  rw [equals, String.append_assoc, String.append_assoc, partition_append (by decide),
    partition_append equalsFree, Prod.mk.injEq, Prod.mk.injEq] at parts
  obtain ⟨sameKey, -, sameCount⟩ := parts
  rw [Nat.repr_injective sameCount]
  exact counts sameKey.symm

theorem not_counts_zero (n : Nat) : ¬Counts "0" n := by
  intro counts
  obtain ⟨texts, isWhole, some_, free, -, isText⟩ := counts.texts
  have same : texts = ["0"] := intercalate_injective free (by decide) some_ (by decide) isWhole
  rw [same, mem_singleton] at isText
  have member : '=' ∈ (membershipKey "" ++ "=" ++ n.repr).toList := by
    simp [String.toList_append]
  rw [isText] at member
  exact absurd member (by decide)

end MemoryService.Authz
