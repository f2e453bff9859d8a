import MemoryService.Authz.ScopeCalls
import MemoryService.Authz.Isolation

/-!
# No scope is older than a revocation

The MEMBERSHIP counter of a tenant counts the memberships that have committed.
-/

namespace MemoryService.Authz.Scopes

open Domain Foundation List Option

variable {one : Written} {tenantId otherFingerprint : String} {first own : List (Nat × Written)}
  {question : Question} {objects : List String} {scope : AuthorizedScope}
  {other : MemoryExecutionContext} {n unit : Nat} {entry : Entry} {call : Call}

section

variable {deployment : Deployment} {state next : State} {ctx : MemoryExecutionContext}
  {written more : List Written} {fingerprint : String} {known m : Nat}

theorem asOf_succ (isAt : written[m]? = some one) :
    asOf deployment written (m + 1) = one.made.apply (asOf deployment written m) := by
  rw [asOf, asOf, take_add_one, isAt, foldl_append]
  rfl

theorem asOf_append (within : m ≤ written.length) :
    asOf deployment (written ++ more) m = asOf deployment written m := by
  rw [asOf, asOf, take_append_of_le_length within]

theorem again_of_deleted {index : Nat} {tuple : RelationTuple}
    (isAt : written[index]? = some one) (isDeleted : tuple ∈ one.made.deleted)
    (before : index < m) (within : m ≤ written.length)
    (present : tuple ∈ asOf deployment written m) :
    ∃ later again, index ≤ later ∧ later < m ∧ written[later]? = some again ∧
      tuple ∈ again.made.added := by
  induction m with
  | zero => cases before
  | succ m ih =>
    have isLast : written[m]? = some written[m] := getElem?_eq_getElem within
    rw [asOf_succ isLast, TupleWrite.mem_apply] at present
    rcases present with isAdded | ⟨isOld, notDeleted⟩
    · exact ⟨m, _, Nat.le_of_lt_succ before, Nat.lt_succ_self m, isLast, isAdded⟩
    · rcases Nat.lt_or_eq_of_le (Nat.le_of_lt_succ before) with earlier | rfl
      · obtain ⟨later, again, from_, until_, rest⟩ := ih earlier (Nat.le_of_lt within) isOld
        exact ⟨later, again, from_, Nat.lt_succ_of_lt until_, rest⟩
      · rw [isLast] at isAt
        cases isAt
        exact absurd isDeleted notDeleted

def Grows (state next : State) : Prop :=
  state.written <+: next.written ∧ state.committed <+: next.committed

section

variable (grows : Grows state next)
include grows

theorem Grows.committedOf (tenantId : String) :
    state.committedOf tenantId <+: next.committedOf tenantId :=
  grows.2.filter _

theorem Grows.length (tenantId : String) :
    (state.committedOf tenantId).length ≤ (next.committedOf tenantId).length :=
  (grows.committedOf tenantId).length_le

theorem Grows.take (counted : known ≤ (state.committedOf tenantId).length) :
    (next.committedOf tenantId).take known = (state.committedOf tenantId).take known := by
  obtain ⟨more, isNext⟩ := grows.committedOf tenantId
  rw [← isNext, take_append_of_le_length counted]

theorem Listed.mono (listed : Listed deployment state first question objects) :
    Listed deployment next first question objects := by
  obtain ⟨m, within, areObjects, after⟩ := listed
  obtain ⟨⟨more, isNext⟩, -⟩ := grows
  refine ⟨m, ?_, ?_, fun index one isFirst => ⟨(after index one isFirst).1, ?_⟩⟩
  · rw [← isNext, length_append]
    exact Nat.le_add_right_of_le within
  · rw [← isNext, asOf_append within]
    exact areObjects
  · intro tuple isDeleted present
    rw [← isNext, asOf_append within] at present
    obtain ⟨later, again, from_, until_, isAt, isAdded⟩ :=
      (after index one isFirst).2 tuple isDeleted present
    refine ⟨later, again, from_, until_, ?_, isAdded⟩
    rw [← isNext, getElem?_append_left (Nat.lt_of_lt_of_le until_ within)]
    exact isAt

end

theorem Listed.of_subset {fewer : List (Nat × Written)} (subset : fewer ⊆ first)
    (listed : Listed deployment state first question objects) :
    Listed deployment state fewer question objects := by
  obtain ⟨m, within, areObjects, after⟩ := listed
  exact ⟨m, within, areObjects, fun index one isFirst => after index one (subset isFirst)⟩

theorem ResolvedAfter.mono (grows : Grows state next)
    (counted : known ≤ (state.committedOf ctx.tenantId.text).length)
    (resolvedAfter : ResolvedAfter deployment state ctx known scope) :
    ResolvedAfter deployment next ctx known scope := by
  obtain ⟨provider, isResolved, listed⟩ := resolvedAfter
  refine ⟨provider, isResolved, fun question isQuestion => ?_⟩
  rw [grows.take counted]
  exact (listed question isQuestion).mono grows

theorem ResolvedAfter.of_le {began : Nat} (notLess : began ≤ known)
    (resolvedAfter : ResolvedAfter deployment state ctx known scope) :
    ResolvedAfter deployment state ctx began scope := by
  obtain ⟨provider, isResolved, listed⟩ := resolvedAfter
  exact ⟨provider, isResolved, fun question isQuestion =>
    (listed question isQuestion).of_subset (take_subset_take_left _ notLess)⟩

section

variable (same : scopeCacheKey ctx fingerprint = scopeCacheKey other otherFingerprint)
include same

theorem questions_of_key :
    questions other = questions ctx := by
  rw [questions, questions, subjects_of_key same]

theorem ResolvedAfter.of_key (resolvedAfter : ResolvedAfter deployment state ctx known scope) :
    ResolvedAfter deployment state other known scope := by
  obtain ⟨provider, isResolved, listed⟩ := resolvedAfter
  refine ⟨provider, (resolve_of_key same provider).trans isResolved, ?_⟩
  have sameTenant : ctx.tenantId.text = other.tenantId.text := congrArg ScopeKey.tenantId same
  rw [questions_of_key same, ← sameTenant]
  exact listed

end

/-- The fingerprint counts no more than `n`. -/
def AtMost (fingerprint : String) (n : Nat) : Prop := ∀ k, Counts fingerprint k → k ≤ n

def Entry.Told (deployment : Deployment) (state : State) (entry : Entry) : Prop :=
  ∃ ctx fingerprint, entry.key = scopeCacheKey ctx fingerprint ∧
    AtMost fingerprint entry.known ∧
    entry.known ≤ (state.committedOf ctx.tenantId.text).length ∧
    ResolvedAfter deployment state ctx entry.known entry.scope

def Call.Told (deployment : Deployment) (state : State) (call : Call) : Prop :=
  let committed := state.committedOf call.ctx.tenantId.text
  match call.phase with
  | .waiting => True
  | .counted fingerprint => AtMost fingerprint committed.length
  | .fetched fingerprint cachedScope =>
    AtMost fingerprint committed.length ∧ ∀ entry ∈ cachedScope,
      entry.Told deployment state ∧ entry.key = scopeCacheKey call.ctx fingerprint
  | .entered => call.began ≤ committed.length
  | .looking fingerprint =>
    call.began ≤ committed.length ∧ AtMost fingerprint committed.length ∧
      (call.way = .revisions → ∃ n, call.began ≤ n ∧ Counts fingerprint n)
  | .listing fingerprint known answers =>
    call.began ≤ known ∧ known ≤ committed.length ∧ AtMost fingerprint known ∧
      ∀ answer ∈ answers, Listed deployment state (committed.take known) answer.1 answer.2
  | .resolved fingerprint known scope =>
    call.began ≤ known ∧ known ≤ committed.length ∧ AtMost fingerprint known ∧
      ResolvedAfter deployment state call.ctx known scope
  | .returned scope =>
    call.began ≤ committed.length ∧ ResolvedAfter deployment state call.ctx call.began scope
  | .raised => True

structure Sound (deployment : Deployment) (state : State) : Prop where
  units : ∀ unit ∈ state.units, ∀ one ∈ unit, state.written[one.1]? = some one.2
  committed : ∀ one ∈ state.committed, state.written[one.1]? = some one.2
  counted : ∀ tenantId,
    state.revisions tenantId (membershipKey "") = (state.committedOf tenantId).length
  entries : ∀ entry ∈ state.cache, entry.Told deployment state
  calls : ∀ call ∈ state.calls, call.Told deployment state

theorem AtMost.mono (atMost : AtMost fingerprint m) (notMore : m ≤ n) :
    AtMost fingerprint n := fun k counts => Nat.le_trans (atMost k counts) notMore

theorem Entry.Told.mono (grows : Grows state next)
    (told : entry.Told deployment state) : entry.Told deployment next := by
  obtain ⟨ctx, fingerprint, isKey, atMost, known, resolvedAfter⟩ := told
  exact ⟨ctx, fingerprint, isKey, atMost, Nat.le_trans known (grows.length _),
    resolvedAfter.mono grows known⟩

theorem Call.Told.mono (grows : Grows state next)
    (told : call.Told deployment state) : call.Told deployment next := by
  have notMore := grows.length call.ctx.tenantId.text
  unfold Call.Told at told ⊢
  cases inPhase : call.phase with
  | waiting => trivial
  | counted fingerprint =>
    rw [inPhase] at told
    exact AtMost.mono told notMore
  | fetched fingerprint cachedScope =>
    rw [inPhase] at told
    exact ⟨told.1.mono notMore, fun entry isEntry =>
      ⟨(told.2 entry isEntry).1.mono grows, (told.2 entry isEntry).2⟩⟩
  | entered =>
    rw [inPhase] at told
    exact Nat.le_trans told notMore
  | looking fingerprint =>
    rw [inPhase] at told
    exact ⟨Nat.le_trans told.1 notMore, told.2.1.mono notMore, told.2.2⟩
  | listing fingerprint known answers =>
    rw [inPhase] at told
    obtain ⟨since, known_, atMost, listed⟩ := told
    refine ⟨since, Nat.le_trans known_ notMore, atMost, fun answer isAnswer => ?_⟩
    rw [grows.take known_]
    exact (listed answer isAnswer).mono grows
  | resolved fingerprint known scope =>
    rw [inPhase] at told
    obtain ⟨since, known_, atMost, resolvedAfter⟩ := told
    exact ⟨since, Nat.le_trans known_ notMore, atMost, resolvedAfter.mono grows known_⟩
  | returned scope =>
    rw [inPhase] at told
    exact ⟨Nat.le_trans told.1 notMore, told.2.mono grows told.1⟩
  | raised => trivial

theorem atMost_of_counts (counts : Counts fingerprint n) : AtMost fingerprint n :=
  fun _ others => Nat.le_of_eq (others.unique counts)

theorem told_of_found {found : Option Entry}
    (began : call.began ≤ (state.committedOf call.ctx.tenantId.text).length)
    (atMost : AtMost fingerprint (state.committedOf call.ctx.tenantId.text).length)
    (fresh : ∀ entry ∈ found, entry.Told deployment state ∧
      entry.key = scopeCacheKey call.ctx fingerprint ∧ call.began ≤ entry.known) :
    (call.found fingerprint (state.committedOf call.ctx.tenantId.text).length found).Told
      deployment state := by
  cases found with
  | none => exact ⟨began, Nat.le_refl _, atMost, fun _ none_ => nomatch none_⟩
  | some entry =>
    obtain ⟨⟨ctx, other, isKey, -, -, resolvedAfter⟩, isOwn, notBefore⟩ := fresh entry rfl
    exact ⟨began, (resolvedAfter.of_key (isKey.symm.trans isOwn)).of_le notBefore⟩

theorem entry_of_found {key : ScopeKey} (isFound : state.entry key = some entry) :
    entry ∈ state.cache ∧ entry.key = key := by
  refine ⟨mem_of_find?_eq_some isFound, ?_⟩
  have found := List.find?_some isFound
  exact (of_decide_eq_true found).1

theorem listed_now (sound : Sound deployment state) (tenantId : String) (question : Question) :
    Listed deployment state ((state.committedOf tenantId).take known) question
      (deployment.listObjects (asOf deployment state.written state.written.length) question.1
        question.2.1 question.2.2) := by
  refine ⟨state.written.length, Nat.le_refl _, rfl, fun index one isFirst => ?_⟩
  have isCommitted : (index, one) ∈ state.committed :=
    (List.mem_filter.mp (List.mem_of_mem_take isFirst)).1
  have isAt := sound.committed _ isCommitted
  have before := (List.getElem?_eq_some_iff.mp isAt).1
  exact ⟨before, fun tuple isDeleted present =>
    again_of_deleted isAt isDeleted before (Nat.le_refl _) present⟩

variable {answers : List (Question × List String)}

theorem find?_answer (deployment : Deployment)
    (isAnswered : question ∈ answers.map Prod.fst) :
    (question, (answered deployment answers).listObjects question.1 question.2.1 question.2.2) ∈
      answers := by
  obtain ⟨answer, isAnswer, isQuestion⟩ := mem_map.mp isAnswered
  have isSome : (answers.find? fun other => other.1 = question).isSome :=
    find?_isSome.mpr ⟨answer, isAnswer, decide_eq_true isQuestion⟩
  obtain ⟨found, isFound⟩ := isSome_iff_exists.mp isSome
  have isOwn : found.1 = question := by simpa using find?_some isFound
  have given : (answered deployment answers).listObjects question.1 question.2.1 question.2.2 =
      found.2 := by
    dsimp only [answered]
    rw [isFound, map_some, getD_some]
  rw [given, ← isOwn]
  exact mem_of_find?_eq_some isFound

def Phase.lookedUp : Phase → Option String
  | .looking fingerprint => some fingerprint
  | _ => none

def Phase.passedOn : Phase → Option Entry
  | .fetched _ cachedScope => cachedScope
  | _ => none

/-- What a call finds in the cache, or is passed, is no older than the call. -/
def Admitted (state : State) : Action → Prop
  | .move position (.lookup true) =>
    ∀ call ∈ state.calls[position]?, call.way ≠ .revisions →
      ∀ fingerprint ∈ call.phase.lookedUp,
        ∀ entry ∈ state.entry (scopeCacheKey call.ctx fingerprint), call.began ≤ entry.known
  | .move position .begin_ =>
    ∀ call ∈ state.calls[position]?, ∀ entry ∈ call.phase.passedOn,
      (state.committedOf call.ctx.tenantId.text).length ≤ entry.known
  | _ => True

instance (state : State) (action : Action) : Decidable (Admitted state action) := by
  unfold Admitted
  split <;> infer_instance

variable {ctx : MemoryExecutionContext} {way : Way} {began : Nat}

/-- What a call finds under its fingerprint was asked of the provider after the call began. -/
theorem fresh_of_looked (sound : Sound deployment state)
    (told : Call.Told deployment state ⟨ctx, way, began, .looking fingerprint⟩)
    (isEntry : state.entry (scopeCacheKey ctx fingerprint) = some entry)
    (looked : way ≠ .revisions → began ≤ entry.known) :
    entry.Told deployment state ∧ entry.key = scopeCacheKey ctx fingerprint ∧
      began ≤ entry.known := by
  obtain ⟨-, -, ifCounted⟩ := told
  obtain ⟨isCached, isOwn⟩ := entry_of_found isEntry
  have entryTold := sound.entries entry isCached
  refine ⟨entryTold, isOwn, ?_⟩
  by_cases isWay : way = .revisions
  · -- the counters were read after the call began
    obtain ⟨n, notLess, isCount⟩ := ifCounted isWay
    obtain ⟨other, otherFingerprint, isKey, atMostKnown, -⟩ := entryTold
    have sameFingerprint : otherFingerprint = fingerprint :=
      congrArg ScopeKey.revisionFingerprint (isKey.symm.trans isOwn)
    exact Nat.le_trans notLess (atMostKnown n (sameFingerprint ▸ isCount))
  · exact looked isWay

theorem told_of_listed {known : Nat}
    (told : Call.Told deployment state ⟨ctx, way, began, .listing fingerprint known answers⟩)
    (allAnswered : ∀ question ∈ questions ctx, question ∈ answers.map Prod.fst) :
    Call.Told deployment state ⟨ctx, way, began, (resolve (answered deployment answers) ctx).elim
      .raised (.resolved fingerprint known)⟩ := by
  obtain ⟨since, known_, atMost, listed⟩ := told
  cases isResolved : resolve (answered deployment answers) ctx with
  | none => trivial
  | some scope =>
    refine ⟨since, known_, atMost, _, isResolved, fun question isQuestion => ?_⟩
    exact listed _ (find?_answer deployment (allAnswered question isQuestion))

theorem told_of_act {after : Call} {move : Move} {cache : List Entry}
    (acted : act deployment state call move = some (cache, after))
    (sound : Sound deployment state) (told : call.Told deployment state)
    (looked : move = .lookup true → call.way ≠ .revisions →
      ∀ fingerprint ∈ call.phase.lookedUp,
        ∀ entry ∈ state.entry (scopeCacheKey call.ctx fingerprint), call.began ≤ entry.known)
    (passed : move = .begin_ → ∀ entry ∈ call.phase.passedOn,
      (state.committedOf call.ctx.tenantId.text).length ≤ entry.known) :
    after.Told deployment state ∧ ∀ entry ∈ cache, entry.Told deployment state := by
  obtain ⟨ctx, way, began, phase⟩ := call
  have counts : ∀ {fingerprint : String},
      fingerprint = revisionFingerprint ctx (state.revisions ctx.tenantId.text) ∨
        fingerprint = readFingerprint ctx (state.revisions ctx.tenantId.text) →
      Counts fingerprint (state.committedOf ctx.tenantId.text).length := fun isFingerprint =>
    ⟨ctx, _, sound.counted _, isFingerprint⟩
  rw [act.eq_def] at acted
  simp only at acted
  split at acted
  case h_1 =>
    obtain ⟨-, ⟨⟩⟩ := ite_none_right_eq_some.mp acted
    exact ⟨atMost_of_counts (counts (.inl rfl)), sound.entries⟩
  case h_2 fingerprint available =>
    cases acted
    refine ⟨⟨told, fun entry isEntry => ?_⟩, sound.entries⟩
    obtain ⟨-, isEntry⟩ := ite_none_right_eq_some.mp isEntry
    obtain ⟨isCached, isOwn⟩ := entry_of_found isEntry
    exact ⟨sound.entries entry isCached, isOwn⟩
  case h_3 fingerprint cachedScope =>
    cases acted
    refine ⟨told_of_found (Nat.le_refl _) told.1 fun entry isEntry => ?_, sound.entries⟩
    obtain ⟨-, isEntry⟩ := ite_none_right_eq_some.mp isEntry
    exact ⟨(told.2 entry isEntry).1, (told.2 entry isEntry).2, passed rfl entry isEntry⟩
  case h_4 =>
    obtain ⟨-, ⟨⟩⟩ := ite_none_left_eq_some.mp acted
    exact ⟨Nat.le_refl _, sound.entries⟩
  case h_5 =>
    cases acted
    refine ⟨⟨told, ?_, fun isWay => ?_⟩, sound.entries⟩
    · split
      case isTrue => exact atMost_of_counts (counts (.inr rfl))
      case isFalse => exact fun k counts => absurd counts (not_counts_zero k)
    · have isWay : way = .revisions := isWay
      rw [if_pos isWay]
      exact ⟨_, told, counts (.inr rfl)⟩
  case h_6 fingerprint available =>
    cases acted
    refine ⟨told_of_found told.1 told.2.1 fun entry isEntry => ?_, sound.entries⟩
    obtain ⟨available, isEntry⟩ := ite_none_right_eq_some.mp isEntry
    exact fresh_of_looked sound told isEntry fun isWay =>
      looked (by rw [available.2]) isWay fingerprint rfl entry isEntry
  case h_7 fingerprint known answers user relation objectType =>
    obtain ⟨isQuestion, ⟨⟩⟩ := ite_none_right_eq_some.mp acted
    obtain ⟨since, known_, atMost, listed⟩ := told
    refine ⟨⟨since, known_, atMost, fun answer isAnswer => ?_⟩, sound.entries⟩
    rcases mem_concat.mp isAnswer with before | rfl
    · exact listed answer before
    · exact listed_now sound _ _
  case h_8 fingerprint known answers =>
    obtain ⟨allAnswered, ⟨⟩⟩ := ite_none_right_eq_some.mp acted
    exact ⟨told_of_listed told allAnswered, sound.entries⟩
  case h_9 =>
    cases acted
    exact ⟨trivial, sound.entries⟩
  case h_10 fingerprint known scope available =>
    cases acted
    obtain ⟨since, known_, atMost, resolvedAfter⟩ := told
    refine ⟨⟨Nat.le_trans since known_, resolvedAfter.of_le since⟩, fun entry isEntry => ?_⟩
    split at isEntry
    case isFalse => exact sound.entries entry isEntry
    case isTrue =>
      rcases mem_insertOrUpdate _ isEntry with rfl | before
      · exact ⟨ctx, fingerprint, rfl, atMost, known_, resolvedAfter⟩
      · exact sound.entries entry before
  case h_11 => cases acted

theorem committedOf_append :
    { state with committed := state.committed ++ own }.committedOf tenantId =
      state.committedOf tenantId ++ own.filter fun one => one.2.tenantId = tenantId := by
  rw [State.committedOf, State.committedOf, filter_append]

theorem bumped :
    ∀ (own : List (Nat × Written)) (revisions : String → String → Nat),
      own.foldl (fun revisions one => bumpMembership revisions one.2) revisions tenantId
          (membershipKey "") =
        revisions tenantId (membershipKey "") +
          (own.filter fun one => one.2.tenantId = tenantId).length
  | [], _ => rfl
  | one :: own, revisions => by
    rw [foldl_cons, bumped own, bumpMembership, filter_cons]
    by_cases isOf : one.2.tenantId = tenantId
    · rw [if_pos ⟨isOf.symm, .inl rfl⟩, if_pos (decide_eq_true isOf), length_cons]
      omega
    · rw [if_neg fun moved => isOf moved.1.symm, if_neg (by simpa using isOf)]

theorem sound_of_write (sound : Sound deployment state) (isUnit : state.units[unit]? = some own) :
    Sound deployment { state with
      written := state.written ++ [one]
      units := state.units.set unit (own ++ [(state.written.length, one)]) } := by
  have grows : Grows state { state with
      written := state.written ++ [one]
      units := state.units.set unit (own ++ [(state.written.length, one)]) } :=
    ⟨prefix_append _ _, prefix_rfl⟩
  have still : ∀ {two : Nat × Written}, state.written[two.1]? = some two.2 →
      (state.written ++ [one])[two.1]? = some two.2 := fun isAt => by
    rw [List.getElem?_append_left (List.getElem?_eq_some_iff.mp isAt).1]
    exact isAt
  refine ⟨forall_mem_set ?_ ?_, fun two isCommitted => still (sound.committed two isCommitted),
    sound.counted, fun entry isEntry => (sound.entries entry isEntry).mono grows,
    fun call isCall => (sound.calls call isCall).mono grows⟩
  · exact fun other isOther two isTwo => still (sound.units other isOther two isTwo)
  · intro two isTwo
    rcases mem_concat.mp isTwo with before | rfl
    · exact still (sound.units own (mem_of_getElem? isUnit) two before)
    · exact getElem?_concat_length

theorem sound_of_commit (sound : Sound deployment state) (isUnit : state.units[unit]? = some own)
    (committed : next = { state with
      units := state.units.eraseIdx unit
      committed := state.committed ++ own
      revisions := own.foldl (fun revisions one => bumpMembership revisions one.2)
        state.revisions }) : Sound deployment next := by
  have grows : Grows state next := by
    rw [committed]
    exact ⟨prefix_rfl, prefix_append _ _⟩
  subst committed
  constructor
  case units =>
    exact fun other isOther => sound.units other (mem_of_mem_eraseIdx isOther)
  case committed =>
    intro one isOne
    rcases mem_append.mp isOne with before | isNew
    · exact sound.committed one before
    · exact sound.units own (mem_of_getElem? isUnit) one isNew
  case counted =>
    intro tenantId
    refine (bumped own state.revisions).trans ?_
    rw [sound.counted, ← length_append]
    exact congrArg List.length committedOf_append.symm
  case entries => exact fun entry isEntry => (sound.entries entry isEntry).mono grows
  case calls => exact fun call isCall => (sound.calls call isCall).mono grows

theorem sound_step {action : Action} (stepped : step deployment state action = some next)
    (admitted : Admitted state action) (sound : Sound deployment state) :
    Sound deployment next := by
  cases action with
  | start =>
    cases stepped
    refine { sound with units := fun unit isUnit => ?_ }
    rcases mem_concat.mp isUnit with before | rfl
    · exact sound.units unit before
    · exact fun _ none_ => nomatch none_
  | write unit membership =>
    obtain ⟨own, isUnit, written⟩ := bind_eq_some_iff.mp stepped
    obtain ⟨one, -, rfl⟩ := map_eq_some_iff.mp written
    exact sound_of_write sound isUnit
  | commit unit =>
    obtain ⟨own, isUnit, rfl⟩ := map_eq_some_iff.mp stepped
    exact sound_of_commit sound isUnit rfl
  | abandon unit =>
    rw [step] at stepped
    obtain ⟨-, ⟨⟩⟩ := ite_none_right_eq_some.mp stepped
    exact { sound with
      units := fun other isOther => sound.units other (mem_of_mem_eraseIdx isOther) }
  | tick passed =>
    cases stepped
    exact { sound with }
  | call ctx way =>
    cases stepped
    refine { sound with calls := fun call isCall => ?_ }
    rcases mem_concat.mp isCall with before | rfl
    · exact sound.calls call before
    · trivial
  | move position move =>
    obtain ⟨call, isCall, moved⟩ := bind_eq_some_iff.mp stepped
    obtain ⟨⟨cache, after⟩, acted, rfl⟩ := map_eq_some_iff.mp moved
    have told := sound.calls call (mem_of_getElem? isCall)
    have toldAfter := told_of_act acted sound told
      (by rintro rfl; exact admitted call isCall)
      (by rintro rfl; exact admitted call isCall)
    exact { sound with
      entries := toldAfter.2
      calls := forall_mem_set sound.calls toldAfter.1 }

theorem sound_start : Sound deployment {} where
  units _ none_ := nomatch none_
  committed _ none_ := nomatch none_
  counted _ := rfl
  entries _ none_ := nomatch none_
  calls _ none_ := nomatch none_

theorem current_of_sound (sound : Sound deployment state) : Current deployment state := by
  intro call isCall scope isReturned
  have told := sound.calls call isCall
  rw [Call.Told, isReturned] at told
  exact told.2

end

def Phase.workspaces : Phase → Option (List String)
  | .returned scope => some scope.workspaceIds
  | _ => none

def roles (tuples : List RelationTuple) (user _relation objectType : String) : List String :=
  if objectType = "workspace" then
    (tuples.filter fun tuple => tuple.user = user).map RelationTuple.object
  else []

def lab : Deployment := { listObjects := roles }

def rosa : MemoryExecutionContext where
  tenantId := ⟨"kepler", by decide⟩
  userId := some ⟨"rosa", by decide⟩
  runHasAgent := MemoryExecutionContext.no_run

def resolves (position : Nat) : List Action :=
  (questions rosa).map (fun question => .move position (.list question)) ++
    [.move position .resolve, .move position (.store true)]

def granted : List Action :=
  [.start, .write 0 (.set "kepler" "lab" "user:rosa" .member none), .commit 0]

def revoked : List Action := [.start, .write 0 (.revoke "kepler" "lab" "user:rosa"), .commit 0]

/-- Tool hints are asked for, the user is removed, and tool hints are asked for again. -/
def withoutRevisions : List Action :=
  granted ++
    [.call rosa .neither, .move 0 .begin_, .move 0 .read, .move 0 (.lookup true)] ++
    resolves 0 ++ revoked ++
    [.call rosa .neither, .move 1 .begin_, .move 1 .read, .move 1 (.lookup true)]

/-- A context is built, and the user is removed between the reads of the next one and its call
of `scope`. -/
def readBefore : List Action :=
  granted ++
    [.call rosa .passed, .move 0 .count, .move 0 (.fetch true), .move 0 .begin_] ++
    resolves 0 ++ [.call rosa .passed, .move 1 .count, .move 1 (.fetch true)] ++ revoked ++
    [.move 1 .begin_]

def given (state : State) : Option (Option (List String) × Bool × List RelationTuple × Nat) :=
  state.calls[1]?.map fun call =>
    (call.phase.workspaces,
      ((state.committedOf call.ctx.tenantId.text).take call.began).any fun one => one.1 = 1,
      asOf lab state.written 2, state.written.length)

theorem withoutRevisions_ends :
    (run (step lab) {} withoutRevisions).bind given = some (some ["lab"], true, [], 2) := by
  decide +kernel

theorem readBefore_ends :
    (run (step lab) {} readBefore).bind given = some (some ["lab"], true, [], 2) := by
  decide +kernel

theorem not_current_of_given {state : State}
    (isGiven : given state = some (some ["lab"], true, [], 2)) : ¬Current lab state := by
  intro current
  obtain ⟨call, isCall, isWhole⟩ := Option.map_eq_some_iff.mp isGiven
  simp only [Prod.mk.injEq] at isWhole
  obtain ⟨returned, hadCommitted, noTuples, twoWrites⟩ := isWhole
  cases inPhase : call.phase with
  | returned scope =>
    rw [inPhase] at returned
    obtain ⟨provider, isResolved, listed⟩ := current call (mem_of_getElem? isCall) scope inPhase
    obtain ⟨one, isFirst, isSecond⟩ := any_eq_true.mp hadCommitted
    have isLab : "lab" ∈ scope.workspaceIds := by
      rw [Option.some.inj returned]
      exact mem_singleton.mpr rfl
    obtain ⟨subject, isSubject, object, isObject, -⟩ :=
      ((resolve_scope isResolved).workspaces "lab").mp isLab
    have isQuestion : (subject, "viewer", "workspace") ∈ questions call.ctx :=
      mem_flatMap.mpr ⟨subject, isSubject, by simp⟩
    obtain ⟨m, within, areObjects, after⟩ := listed _ isQuestion
    have afterSecond := (after one.1 one.2 isFirst).1
    have isTwo : m = 2 := by
      have isSecond : one.1 = 1 := of_decide_eq_true isSecond
      omega
    rw [isTwo, noTuples] at areObjects
    have isListed := mem_of_mem_take isObject
    rw [areObjects] at isListed
    cases isListed
  | _ =>
    rw [inPhase] at returned
    cases returned

/-- Whoever asks without revisions, or has read before, reads a workspace that was taken from
them; and without a user the two fingerprints differ. -/
theorem scope_outlives_revocation :
    (∃ state, run (step lab) {} withoutRevisions = some state ∧ ¬Current lab state) ∧
      (∃ state, run (step lab) {} readBefore = some state ∧ ¬Current lab state) ∧
      revisionFingerprint { tenantId := ⟨"kepler", by decide⟩ } (fun _ => 1) ≠
        readFingerprint { tenantId := ⟨"kepler", by decide⟩ } (fun _ => 1) := by
  refine ⟨?_, ?_, by decide +kernel⟩
  · obtain ⟨state, reached, isGiven⟩ := Option.bind_eq_some_iff.mp withoutRevisions_ends
    exact ⟨state, reached, not_current_of_given isGiven⟩
  · obtain ⟨state, reached, isGiven⟩ := Option.bind_eq_some_iff.mp readBefore_ends
    exact ⟨state, reached, not_current_of_given isGiven⟩

/-- In every run in which a call finds, or is passed, nothing older than itself, every scope is
resolved from listings that have all memberships that had committed when it was asked for;
contexts with one key have one scope; and the two fingerprints are one just where the context has
a user, and an agent of another name if any. -/
theorem scopes_current (deployment : Deployment) :
    (∀ actions state, run (step deployment) {} actions = some state →
      Meets (step deployment) Admitted {} actions → Current deployment state) ∧
    (∀ (ctx other : MemoryExecutionContext) (fingerprint otherFingerprint : String),
      scopeCacheKey ctx fingerprint = scopeCacheKey other otherFingerprint →
        ∀ provider, Authz.resolve provider other = Authz.resolve provider ctx) ∧
    ∀ (ctx : MemoryExecutionContext) (revisions : String → Nat),
      revisionFingerprint ctx revisions = readFingerprint ctx revisions ↔
        ctx.userId.isSome ∧ ctx.agentId ≠ ctx.userId :=
  ⟨fun _ _ reached meets =>
      current_of_sound (run_invariant_of_meets sound_step reached meets sound_start),
    fun _ _ _ _ same provider => resolve_of_key same provider, fingerprints_agree_iff⟩

def withRevisions : List Action :=
  granted ++
    [.call rosa .revisions, .move 0 .begin_, .move 0 .read, .move 0 (.lookup true)] ++
    resolves 0 ++ revoked ++
    [.call rosa .revisions, .move 1 .begin_, .move 1 .read, .move 1 (.lookup true)] ++ resolves 1

theorem scopes_current_withRevisions :
    ∃ state, run (step lab) {} withRevisions = some state ∧
      given state = some (some [], true, [], 2) ∧
      Meets (step lab) Admitted {} withRevisions ∧ Current lab state := by
  have ends : (run (step lab) {} withRevisions).bind given = some (some [], true, [], 2) := by
    decide +kernel
  have meets : Meets (step lab) Admitted {} withRevisions := by decide +kernel
  obtain ⟨state, reached, isGiven⟩ := Option.bind_eq_some_iff.mp ends
  exact ⟨state, reached, isGiven, meets, (scopes_current lab).1 withRevisions state reached meets⟩

end MemoryService.Authz.Scopes
