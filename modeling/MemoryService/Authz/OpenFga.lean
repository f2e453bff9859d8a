import Mathlib.Data.Finset.Lattice.Lemmas
import Mathlib.Data.Finset.SDiff
import MemoryService.Authz.MemoryProvider

/-!
# Asserting relations

A write is tried again when it times out, whether it landed or not, and tuple by tuple when it is
refused because of a tuple that is already as it should be.
-/

namespace MemoryService.Authz.OpenFga

open Reference List

def noChangeCode : String := "write_failed_due_to_invalid_input"

def noChangeText : List String := ["already exist", "did not exist", "does not exist"]

inductive Reply where
  | written
  | refused (code message : String)
  | timedOut
  | failed

/-- What becomes of a request that is sent. -/
inductive Attempt where
  | answered
  | timedOut (landed : Bool)
  | failed

/-- `_already_satisfied`. -/
def Reply.alreadySatisfied : Reply → Bool
  | .refused code message =>
    code = noChangeCode && noChangeText.any fun fragment => fragment.toList <:+: message.toList
  | _ => false

/-- The tuples, and what becomes of the requests to come; one past them is answered. -/
structure State where
  tuples : Finset RelationTuple
  attempts : List Attempt

structure ClientWriteRequest where
  writes : List RelationTuple := []
  deletes : List RelationTuple := []

namespace ClientWriteRequest

variable (request : ClientWriteRequest) (tuples : Finset RelationTuple)

def applied : Finset RelationTuple := (tuples \ request.deletes.toFinset) ∪ request.writes.toFinset

/-- The store writes all or nothing. -/
def stored : Finset RelationTuple × Reply :=
  if request.writes.any (· ∈ tuples) then
    (tuples, .refused noChangeCode "cannot write a tuple which already exists")
  else if request.deletes.any (· ∉ tuples) then
    (tuples, .refused noChangeCode "cannot delete a tuple which does not exist")
  else (request.applied tuples, .written)

def sent : Attempt → Finset RelationTuple × Reply
  | .answered => request.stored tuples
  | .timedOut landed => (if landed then (request.stored tuples).1 else tuples, .timedOut)
  | .failed => (tuples, .failed)

/-- `client.write(request)`. -/
def tried (s : State) : State × Reply :=
  let (tuples, reply) := request.sent s.tuples (s.attempts.head?.getD .answered)
  (⟨tuples, s.attempts.tail⟩, reply)

/-- `_apply`: the request, tried again after a timeout. -/
def transient : ℕ → State → State × Reply
  | 0, s => request.tried s
  | retries + 1, s =>
    match request.tried s with
    | (s, .timedOut) => transient retries s
    | answer => answer

end ClientWriteRequest

section

variable (retries : ℕ)

/-- `_apply_one`, and whether it returned. -/
def applyOne (request : ClientWriteRequest) (s : State) : State × Bool :=
  match request.transient retries s with
  | (s, .written) => (s, true)
  | (s, reply) => (s, reply.alreadySatisfied)

def applyEach : List ClientWriteRequest → State → State × Bool
  | [], s => (s, true)
  | request :: later, s =>
    match applyOne retries request s with
    | (s, true) => applyEach later s
    | (s, false) => (s, false)

def singles (added deleted : List RelationTuple) : List ClientWriteRequest :=
  added.map (fun relation => { writes := [relation] }) ++
    deleted.map fun relation => { deletes := [relation] }

def write (added deleted : List RelationTuple) (s : State) : State × Bool :=
  match (ClientWriteRequest.mk added deleted).transient retries s with
  | (s, .written) => (s, true)
  | (s, reply) =>
    if reply.alreadySatisfied then applyEach retries (singles added deleted) s else (s, false)

end

variable {request : ClientWriteRequest} {tuples next : Finset RelationTuple} {reply : Reply}
  {retries : ℕ} {s : State} {t : RelationTuple} {added deleted : List RelationTuple}

def Conflict (request : ClientWriteRequest) (tuples : Finset RelationTuple) : Prop :=
  (∃ t ∈ request.writes, t ∈ tuples) ∨ ∃ t ∈ request.deletes, t ∉ tuples

/-- What a request, however often it is tried, makes of the tuples. -/
structure Answers (request : ClientWriteRequest) (tuples next : Finset RelationTuple)
    (reply : Reply) : Prop where
  within : next = tuples ∨ next = request.applied tuples
  written : reply = .written → next = request.applied tuples
  satisfied : reply.alreadySatisfied = true → Conflict request next

theorem answers_stored (request : ClientWriteRequest) (tuples : Finset RelationTuple) :
    Answers request tuples (request.stored tuples).1 (request.stored tuples).2 := by
  rw [ClientWriteRequest.stored]
  split
  · next isHeld =>
      refine ⟨.inl rfl, nofun, fun _ => .inl ?_⟩
      simpa using isHeld
  · split
    · next _ isMissing =>
        refine ⟨.inl rfl, nofun, fun _ => .inr ?_⟩
        simpa using isMissing
    · exact ⟨.inr rfl, fun _ => rfl, nofun⟩

theorem answers_tried (request : ClientWriteRequest) (s : State) :
    Answers request s.tuples (request.tried s).1.tuples (request.tried s).2 := by
  rw [ClientWriteRequest.tried]
  cases s.attempts.head?.getD .answered with
  | answered => exact answers_stored request s.tuples
  | timedOut landed =>
    refine ⟨?_, nofun, nofun⟩
    cases landed with
    | true => exact (answers_stored request s.tuples).within
    | false => exact .inl rfl
  | failed => exact ⟨.inl rfl, nofun, nofun⟩

theorem mem_applied :
    t ∈ request.applied tuples ↔ t ∈ tuples ∧ t ∉ request.deletes ∨ t ∈ request.writes := by
  simp [ClientWriteRequest.applied]

/-- What has landed may land again. -/
theorem applied_applied (request : ClientWriteRequest) (tuples : Finset RelationTuple) :
    request.applied (request.applied tuples) = request.applied tuples := by
  ext t
  rw [mem_applied, mem_applied]
  tauto

theorem answers_transient (request : ClientWriteRequest) (retries : ℕ) (s : State) :
    Answers request s.tuples (request.transient retries s).1.tuples
      (request.transient retries s).2 := by
  induction retries generalizing s with
  | zero => exact answers_tried request s
  | succ retries ih =>
    have first := answers_tried request s
    rw [ClientWriteRequest.transient]
    split
    · next next isTried =>
        rw [isTried] at first
        have later := ih next
        rcases first.within with same | same
        · rwa [same] at later
        · rw [same] at later
          refine ⟨.inr ?_, fun isWritten => ?_, later.satisfied⟩
          · exact later.within.elim id fun isAgain =>
              isAgain.trans (applied_applied request s.tuples)
          · exact (later.written isWritten).trans (applied_applied request s.tuples)
    · exact first

def IsSingle (request : ClientWriteRequest) : Prop :=
  ∃ t, request = { writes := [t] } ∨ request = { deletes := [t] }

theorem applied_of_conflict (single : IsSingle request) (conflict : Conflict request tuples) :
    request.applied tuples = tuples := by
  obtain ⟨t, rfl | rfl⟩ := single
  · have isHeld : t ∈ tuples := by simpa [Conflict] using conflict
    ext other
    simpa [mem_applied] using fun same => same ▸ isHeld
  · have isMissing : t ∉ tuples := by simpa [Conflict] using conflict
    ext other
    suffices other ∈ tuples → other ≠ t by simpa [mem_applied]
    rintro isOther rfl
    exact isMissing isOther

theorem applyOne_spec (single : IsSingle request) (retries : ℕ) (s : State) :
    ((applyOne retries request s).1.tuples = s.tuples ∨
        (applyOne retries request s).1.tuples = request.applied s.tuples) ∧
      ((applyOne retries request s).2 = true →
        (applyOne retries request s).1.tuples = request.applied s.tuples) := by
  have answers := answers_transient request retries s
  rw [applyOne]
  split
  · next next isWritten =>
      rw [isWritten] at answers
      exact ⟨answers.within, fun _ => answers.written rfl⟩
  · next next reply _ isReply =>
      rw [isReply] at answers
      refine ⟨answers.within, fun isSatisfied => ?_⟩
      have conflict := applied_of_conflict single (answers.satisfied isSatisfied)
      rcases answers.within with same | same
      · rw [same] at conflict
        exact same.trans conflict.symm
      · exact same

/-- All tuples but those of the requests. -/
def Untouched (requests : List ClientWriteRequest) (tuples next : Finset RelationTuple) : Prop :=
  ∀ t, (∀ request ∈ requests, t ∉ request.writes ∧ t ∉ request.deletes) → (t ∈ next ↔ t ∈ tuples)

variable {requests : List ClientWriteRequest}

theorem untouched_of_within (isOne : request ∈ requests)
    (within : next = tuples ∨ next = request.applied tuples) : Untouched requests tuples next := by
  intro t isOther
  rcases within with rfl | rfl
  · rfl
  · simp [mem_applied, isOther request isOne]

theorem applyEach_spec (single : ∀ request ∈ requests, IsSingle request) (s : State) :
    Untouched requests s.tuples (applyEach retries requests s).1.tuples ∧
      ((applyEach retries requests s).2 = true →
        (applyEach retries requests s).1.tuples =
          requests.foldl (fun tuples request => request.applied tuples) s.tuples) := by
  induction requests generalizing s with
  | nil => exact ⟨fun _ _ => Iff.rfl, fun _ => rfl⟩
  | cons request later ih =>
    obtain ⟨isSingle, single⟩ := forall_mem_cons.mp single
    obtain ⟨within, isApplied⟩ := applyOne_spec isSingle retries s
    have first : Untouched (request :: later) _ _ := untouched_of_within mem_cons_self within
    rw [applyEach]
    split
    · next next isDone =>
        rw [isDone] at first isApplied
        obtain ⟨untouched, isRest⟩ := ih single next
        refine ⟨fun t isOther => ?_, fun returned => ?_⟩
        · exact (untouched t fun request member =>
            isOther request (mem_cons_of_mem _ member)).trans (first t isOther)
        · rw [isRest returned, isApplied rfl, foldl_cons]
    · next next isDone =>
        rw [isDone] at first
        exact ⟨first, nofun⟩

theorem mem_foldl_singles (added deleted : List RelationTuple) (tuples : Finset RelationTuple) :
    t ∈ (singles added deleted).foldl (fun tuples request => request.applied tuples) tuples ↔
      (t ∈ tuples ∨ t ∈ added) ∧ t ∉ deleted := by
  have deletions : ∀ tuples : Finset RelationTuple,
      t ∈ (singles [] deleted).foldl (fun tuples request => request.applied tuples) tuples ↔
        t ∈ tuples ∧ t ∉ deleted := by
    induction deleted with
    | nil => exact fun tuples => by simp [singles]
    | cons first deleted ih =>
      intro tuples
      refine (ih _).trans ?_
      simp [mem_applied, and_assoc]
  induction added generalizing tuples with
  | nil => simpa using deletions tuples
  | cons first added ih =>
    refine (ih _).trans ?_
    simp [mem_applied, or_assoc]

theorem isSingle_of_mem (isOne : request ∈ singles added deleted) : IsSingle request := by
  rcases mem_append.mp isOne with isWrite | isDelete
  · obtain ⟨t, -, rfl⟩ := mem_map.mp isWrite
    exact ⟨t, .inl rfl⟩
  · obtain ⟨t, -, rfl⟩ := mem_map.mp isDelete
    exact ⟨t, .inr rfl⟩

theorem write_spec (apart : ∀ t ∈ added, t ∉ deleted) (retries : ℕ) (s : State) :
    ((write retries added deleted s).2 = true →
        (write retries added deleted s).1.tuples =
          (ClientWriteRequest.mk added deleted).applied s.tuples) ∧
      ∀ t, t ∉ added → t ∉ deleted →
        (t ∈ (write retries added deleted s).1.tuples ↔ t ∈ s.tuples) := by
  have answers := answers_transient ⟨added, deleted⟩ retries s
  have whole : ∀ next,
      next = s.tuples ∨ next = (ClientWriteRequest.mk added deleted).applied s.tuples →
      ∀ t, t ∉ added → t ∉ deleted → (t ∈ next ↔ t ∈ s.tuples) := by
    intro next within t notAdded notDeleted
    exact untouched_of_within (mem_singleton_self _) within t (by simp [notAdded, notDeleted])
  rw [write]
  split
  · next next isWritten =>
    rw [isWritten] at answers
    exact ⟨fun _ => answers.written rfl, whole _ answers.within⟩
  · next next reply _ isReply =>
    rw [isReply] at answers
    split
    · obtain ⟨untouched, isEach⟩ := @applyEach_spec retries _ (fun _ => isSingle_of_mem) next
      refine ⟨fun returned => ?_, fun t notAdded notDeleted => ?_⟩
      · ext t
        rw [isEach returned, mem_foldl_singles]
        have isApart := apart t
        have within : next.tuples = s.tuples ∨ next.tuples = _ := answers.within
        rcases within with same | same <;> rw [same] <;> simp only [mem_applied] <;> tauto
      · have kept := whole _ answers.within t notAdded notDeleted
        refine (untouched t fun request isOne => ?_).trans kept
        rcases mem_append.mp isOne with isWrite | isDelete
        · obtain ⟨other, isOther, rfl⟩ := mem_map.mp isWrite
          suffices t ≠ other by simpa
          rintro rfl
          exact notAdded isOther
        · obtain ⟨other, isOther, rfl⟩ := mem_map.mp isDelete
          suffices t ≠ other by simpa
          rintro rfl
          exact notDeleted isOther
    · exact ⟨nofun, whole _ answers.within⟩

/-- The provider has these tuples. -/
def Holds (p : MemoryAuthorizationProvider) (tuples : Finset RelationTuple) : Prop :=
  ∀ t, t.user ∈ p.users t.object t.relation ↔ t ∈ tuples

theorem same_iff {t other : RelationTuple} : other = t ↔
    other.user = t.user ∧ other.object = t.object ∧ other.relation = t.relation := by
  cases other
  cases t
  simp only [RelationTuple.mk.injEq]
  tauto

variable {p : MemoryAuthorizationProvider}

section

variable (holds : Holds p tuples)
include holds

theorem holds_discard (t : RelationTuple) :
    Holds (p.discard t) (tuples \ {t}) := by
  intro other
  have isHeld := holds other
  rw [MemoryAuthorizationProvider.discard, users_withUsers, Finset.mem_sdiff,
    Finset.mem_singleton, same_iff]
  split
  · next same =>
    rw [← same.1, ← same.2, mem_filter, isHeld, decide_eq_true_iff]
    tauto
  · rw [isHeld]
    tauto

theorem holds_add (t : RelationTuple) :
    Holds (p.add t) (tuples ∪ {t}) := by
  intro other
  have isHeld := holds other
  change other.user ∈ (p.withUsers t.object t.relation _).users _ _ ↔ _
  rw [users_withUsers, Finset.mem_union, Finset.mem_singleton, same_iff]
  split
  · next same =>
    rw [← same.1, ← same.2, mem_inserted, isHeld]
    tauto
  · rw [isHeld]
    tauto

theorem holds_addAll (returned : (p.addAll added).2 = none) :
    Holds (p.addAll added).1 (tuples ∪ added.toFinset) := by
  induction added generalizing p tuples with
  | nil => simpa [MemoryAuthorizationProvider.addAll] using holds
  | cons t added ih =>
    rw [MemoryAuthorizationProvider.addAll] at returned ⊢
    cases isValid : p.validate t with
    | some invalid =>
      rw [isValid] at returned
      cases returned
    | none =>
      rw [isValid] at returned
      have later := ih (holds_add holds t) returned
      rwa [Finset.union_assoc, ← Finset.insert_eq, ← toFinset_cons] at later

theorem holds_write (returned : (p.write added deleted).2 = none) :
    Holds (p.write added deleted).1 ((ClientWriteRequest.mk added deleted).applied tuples) := by
  refine holds_addAll ?_ returned
  clear returned
  induction deleted generalizing p tuples with
  | nil => simpa using holds
  | cons t deleted ih =>
    have same : (tuples \ {t}) \ deleted.toFinset = tuples \ (t :: deleted).toFinset := by
      ext other
      simp [and_assoc]
    exact same ▸ ih (holds_discard holds t)

end

/-- Whenever a write returns, the tuples are what the reference makes of them; whenever it raises,
no tuple but those named has changed. -/
theorem write_agrees (retries : ℕ) (added deleted : List RelationTuple)
    (distinct : (added ++ deleted).Nodup) (s : State) :
    ((write retries added deleted s).2 = true →
        (write retries added deleted s).1.tuples = (s.tuples \ deleted.toFinset) ∪ added.toFinset ∧
          ∀ p, Holds p s.tuples → (p.write added deleted).2 = none →
            Holds (p.write added deleted).1 (write retries added deleted s).1.tuples) ∧
      ((write retries added deleted s).2 = false → ∀ t, t ∉ added ++ deleted →
        (t ∈ (write retries added deleted s).1.tuples ↔ t ∈ s.tuples)) := by
  have apart : ∀ t ∈ added, t ∉ deleted := fun t isAdded isDeleted =>
    (List.nodup_append.mp distinct).2.2 t isAdded t isDeleted rfl
  obtain ⟨returns, untouched⟩ := write_spec apart retries s
  refine ⟨fun returned => ⟨returns returned, fun p holds isValid => ?_⟩, fun _ t isOther => ?_⟩
  · rw [returns returned]
    exact holds_write holds isValid
  · rw [List.mem_append, not_or] at isOther
    exact untouched t isOther.1 isOther.2

def ownerOf (user : String) : RelationTuple := ⟨user, "owner", "thread:t1"⟩

/-- A tuple that is there, and one whose first write landed though it timed out. -/
theorem write_agrees_landed : ((write 1 [ownerOf "user:ann"] [ownerOf "user:ben"]
        ⟨{ownerOf "user:ben"}, [.timedOut true]⟩).1.tuples = {ownerOf "user:ann"}) := by
  have agrees := write_agrees 1 [ownerOf "user:ann"] [ownerOf "user:ben"] (by decide)
    ⟨{ownerOf "user:ben"}, [.timedOut true]⟩
  rw [(agrees.1 (by decide +kernel)).1]
  decide

end MemoryService.Authz.OpenFga
