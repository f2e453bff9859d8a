import MemoryService.Sdk.Breaker

/-!
# One probe at a time

One flag and one count are shared by the probe and by the calls that began before the circuit
opened.
-/

namespace MemoryService.Sdk

open Foundation List Option

def Client.BegunSince (client : Client) (position : Nat) : Prop :=
  client.opened ≤ position ∧ ∃ call, client.calls[position]? = some call ∧ call.inFlight

def StartsPeriod (action : Action) (next : Client) : Prop :=
  ∃ position outcome now, action = .finish position outcome now ∧ outcome.verdict = some false ∧
    next.breaker.isClosed = false

/-- What a step may do to the circuit. -/
structure ProbeLaw (client : Client) (action : Action) (next : Client) : Prop where
  opens : client.breaker.isClosed → next.breaker.isClosed = false →
    ∃ earlier, next.verdicts = List.replicate next.breaker.threshold false ++ earlier
  alone : next.breaker.isClosed = false →
    ∀ first second, next.BegunSince first → next.BegunSince second → first = second
  decides : client.breaker.isClosed = false → next.breaker.isClosed ∨ StartsPeriod action next →
    ∃ position outcome now, action = .finish position outcome now ∧ client.BegunSince position
  spares : ∀ position outcome now, action = .finish position outcome now →
    outcome.verdict = none →
      next.breaker.isClosed = client.breaker.isClosed ∧
        next.breaker.openUntil = client.breaker.openUntil
  again : next.breaker.isClosed = false → (∀ position, ¬ next.BegunSince position) →
    ∀ now later, next.breaker.openUntil ≤ now →
      ∃ breaker, next.breaker.acquire now later = .ok (true, breaker)

/-- A call that began before the circuit opened gives no verdict while it is open. -/
def Admitted (client : Client) : Action → Prop
  | .begin _ _ => True
  | .finish position outcome _ =>
    client.breaker.isClosed ∨ outcome.verdict = none ∨ client.opened ≤ position

instance (client : Client) (action : Action) : Decidable (Admitted client action) := by
  cases action <;> unfold Admitted <;> infer_instance

variable {now later : ℚ} {outcome : Outcome} {verdict : Bool} {position other : Nat} {ended : Call}
  {action : Action} {actions : List Action} {client : Client}

section

variable {breaker : CircuitBreaker}

theorem state_closed_iff (now : ℚ) : breaker.state now = .closed ↔ breaker.isClosed = true := by
  rw [CircuitBreaker.state, CircuitBreaker.isClosed, Bool.or_eq_true, decide_eq_true_eq,
    decide_eq_true_eq]
  split
  case isTrue closed => exact iff_of_true rfl closed
  case isFalse notClosed =>
      refine iff_of_false ?_ notClosed
      split <;> exact nofun

theorem acquire_closed (closed : breaker.isClosed = true) (now later : ℚ) :
    breaker.acquire now later = .ok (false, breaker) :=
  if_pos ((state_closed_iff now).mpr closed)

theorem acquire_cases (isOpen : breaker.isClosed = false) (now later : ℚ) :
    (∃ error, breaker.acquire now later = .error error) ∨
      breaker.probing = false ∧
        breaker.acquire now later = .ok (true, { breaker with probing := true }) := by
  have notClosed : breaker.state now ≠ .closed := by
    rw [Ne, state_closed_iff, isOpen]
    decide
  rw [CircuitBreaker.acquire, if_neg notClosed]
  split
  case isTrue => exact .inl ⟨_, rfl⟩
  case isFalse letThrough =>
      exact .inr ⟨Bool.eq_false_iff.mpr fun probing => letThrough (.inr probing), rfl⟩

theorem acquire_probe (isOpen : breaker.isClosed = false) (notProbing : breaker.probing = false)
    (later : ℚ) (isTime : breaker.openUntil ≤ now) :
    breaker.acquire now later = .ok (true, { breaker with probing := true }) := by
  have isClosed : ¬ (breaker.threshold = 0 ∨ breaker.consecutiveFailures < breaker.threshold) := by
    rw [CircuitBreaker.isClosed] at isOpen
    simpa using isOpen
  have isState : breaker.state now = .halfOpen := by
    rw [CircuitBreaker.state, if_neg isClosed, if_neg (not_lt.mpr isTime)]
  rw [CircuitBreaker.acquire, isState, notProbing]
  rfl

theorem recordFailure_eq (positive : 0 < breaker.threshold) (now : ℚ) :
    breaker.recordFailure now =
      { breaker with
        probing := false
        consecutiveFailures := breaker.consecutiveFailures + 1
        openUntil := if breaker.threshold ≤ breaker.consecutiveFailures + 1 then
          now + breaker.openSeconds else breaker.openUntil } := by
  simp only [CircuitBreaker.recordFailure, Nat.ne_of_gt positive, if_false]
  split <;> rfl

theorem performEnd_none (noVerdict : outcome.verdict = none) (probe : Bool) (now : ℚ) :
    performEnd breaker probe outcome now =
      { breaker with probing := if probe then false else breaker.probing } := by
  rw [performEnd, noVerdict]
  cases probe <;> rfl

theorem performEnd_some
    (isVerdict : outcome.verdict = some verdict) (positive : 0 < breaker.threshold)
    (probe : Bool) (now : ℚ) :
    (performEnd breaker probe outcome now).probing = false ∧
      (performEnd breaker probe outcome now).threshold = breaker.threshold ∧
      (performEnd breaker probe outcome now).consecutiveFailures =
        if verdict then 0 else breaker.consecutiveFailures + 1 := by
  rw [performEnd, isVerdict]
  cases verdict with
  | true => cases probe <;> exact ⟨rfl, rfl, rfl⟩
  | false =>
    simp only [recordFailure_eq positive]
    cases probe <;> exact ⟨rfl, rfl, rfl⟩

end

def Client.Probing (client : Client) (position : Nat) : Prop :=
  ∃ call, client.calls[position]? = some call ∧ call.inFlight ∧ call.probe

structure Sound (client : Client) : Prop where
  positive : 0 < client.breaker.threshold
  failed : ∃ earlier, client.verdicts =
    List.replicate client.breaker.consecutiveFailures false ++ earlier
  passed : client.opened ≤ client.calls.length
  closed : client.breaker.isClosed → client.breaker.probing = false
  held : client.breaker.probing → ∃ position, client.Probing position
  probes : ∀ position, client.Probing position → client.breaker.probing ∧ client.opened ≤ position
  one : ∀ first second, client.Probing first → client.Probing second → first = second
  since : client.breaker.isClosed = false → ∀ position call, client.opened ≤ position →
    client.calls[position]? = some call → call.probe

section

variable {client next : Client}

theorem no_probe_of_closed (sound : Sound client) (closed : client.breaker.isClosed)
    (position : Nat) : ¬ client.Probing position := by
  intro probing
  have isUp := (sound.probes position probing).1
  rw [sound.closed closed] at isUp
  cases isUp

theorem probing_of_begunSince (sound : Sound client) (isOpen : client.breaker.isClosed = false)
    (begun : client.BegunSince position) : client.Probing position := by
  obtain ⟨late, call, isCall, inFlight⟩ := begun
  exact ⟨call, isCall, inFlight, sound.since isOpen position call late isCall⟩

theorem begunSince_of_probing (sound : Sound client)
    (probing : client.Probing position) : client.BegunSince position := by
  have late := (sound.probes position probing).2
  obtain ⟨call, isCall, inFlight, -⟩ := probing
  exact ⟨late, call, isCall, inFlight⟩

theorem probing_append {probe : Bool} {breaker : CircuitBreaker} :
    Client.Probing { client with breaker, calls := client.calls ++ [{ probe }] } position ↔
      client.Probing position ∨ (position = client.calls.length ∧ probe = true) := by
  unfold Client.Probing
  rcases Nat.lt_trichotomy position client.calls.length with isOld | isNew | isLater
  · simp [List.getElem?_append_left isOld, Nat.ne_of_lt isOld]
  · subst isNew
    simp
  · simp [List.getElem?_append_right (Nat.le_of_lt isLater), Nat.ne_of_gt isLater,
      List.getElem?_eq_none (Nat.le_of_lt isLater), Nat.sub_ne_zero_of_lt isLater]

theorem sound_of_begin (sound : Sound client)
    (stepped : step client (.begin now later) = some next) : Sound next := by
  rw [step] at stepped
  cases isClosed : client.breaker.isClosed with
  | true =>
    rw [acquire_closed isClosed] at stepped
    cases stepped
    refine ⟨sound.positive, sound.failed, ?_, sound.closed, ?_, ?_, ?_, ?_⟩
    · rw [List.length_append]
      exact Nat.le_add_right_of_le sound.passed
    · intro isUp
      rw [sound.closed isClosed] at isUp
      cases isUp
    · intro position probing
      rcases probing_append.mp probing with old | ⟨-, isProbe⟩
      · exact absurd old (no_probe_of_closed sound isClosed position)
      · cases isProbe
    · intro first second probing
      rcases probing_append.mp probing with old | ⟨-, isProbe⟩
      · exact absurd old (no_probe_of_closed sound isClosed first)
      · cases isProbe
    · intro isOpen
      rw [isClosed] at isOpen
      cases isOpen
  | false =>
    rcases acquire_cases isClosed now later with ⟨error, refused⟩ | ⟨notProbing, letThrough⟩
    · rw [refused] at stepped
      cases stepped
      exact sound
    · rw [letThrough] at stepped
      cases stepped
      have noProbe : ∀ position, ¬ client.Probing position := by
        intro position probing
        rw [(sound.probes position probing).1] at notProbing
        cases notProbing
      have onlyNew : ∀ position, Client.Probing
          { client with
            breaker := { client.breaker with probing := true }
            calls := client.calls ++ [{ probe := true }] } position →
            position = client.calls.length := by
        intro position probing
        rcases probing_append.mp probing with old | ⟨isNew, -⟩
        · exact absurd old (noProbe position)
        · exact isNew
      refine ⟨sound.positive, sound.failed, ?_, ?_, ?_, ?_, ?_, ?_⟩
      · rw [List.length_append]
        exact Nat.le_add_right_of_le sound.passed
      · intro closed
        exact absurd (isClosed.symm.trans closed) (by decide)
      · exact fun _ => ⟨client.calls.length, probing_append.mpr (.inr ⟨rfl, rfl⟩)⟩
      · intro position probing
        rw [onlyNew position probing]
        exact ⟨rfl, sound.passed⟩
      · intro first second isFirst isSecond
        rw [onlyNew first isFirst, onlyNew second isSecond]
      · intro _ position call late isCall
        rcases Nat.lt_or_ge position client.calls.length with isOld | isNew
        · rw [List.getElem?_append_left isOld] at isCall
          exact sound.since isClosed position call late isCall
        · rw [List.getElem?_append_right isNew] at isCall
          obtain ⟨-, rfl⟩ := List.getElem?_eq_some_iff.mp isCall
          simp

variable {position : Nat} {call : Call} {outcome : Outcome} {now : ℚ}

theorem step_finish (stepped : step client (.finish position outcome now) = some next) :
    ∃ call, client.calls[position]? = some call ∧ call.inFlight ∧
      next = client.finish position call outcome now := by
  obtain ⟨call, isCall, ended⟩ := bind_eq_some_iff.mp stepped
  split at ended
  case isTrue inFlight =>
      cases ended
      exact ⟨call, isCall, inFlight, rfl⟩
  case isFalse => cases ended

theorem call_of_finish (isCall : client.calls[position]? = some call)
    (isEnded : (client.finish position call outcome now).calls[other]? = some ended) :
    ∃ before, client.calls[other]? = some before ∧ ended.probe = before.probe ∧
      (ended.inFlight → before.inFlight ∧ other ≠ position) := by
  change (client.calls.set position { call with inFlight := false })[other]? = some ended
    at isEnded
  by_cases same : other = position
  · subst same
    rw [List.getElem?_set_self (List.getElem?_eq_some_iff.mp isCall).1] at isEnded
    cases isEnded
    exact ⟨call, isCall, rfl, fun inFlight => by cases inFlight⟩
  · rw [List.getElem?_set_ne (Ne.symm same)] at isEnded
    exact ⟨ended, isEnded, rfl, fun inFlight => ⟨inFlight, same⟩⟩

theorem probing_of_finish (isCall : client.calls[position]? = some call)
    (probing : (client.finish position call outcome now).Probing other) :
    client.Probing other ∧ other ≠ position := by
  obtain ⟨ended, isEnded, inFlight, isProbe⟩ := probing
  obtain ⟨before, isBefore, same, stays⟩ := call_of_finish isCall isEnded
  exact ⟨⟨before, isBefore, (stays inFlight).1, same ▸ isProbe⟩, (stays inFlight).2⟩

theorem probing_finish_of_ne (probing : client.Probing other) (apart : other ≠ position) :
    (client.finish position call outcome now).Probing other := by
  obtain ⟨same, isSame, inFlight, isProbe⟩ := probing
  refine ⟨same, ?_, inFlight, isProbe⟩
  change (client.calls.set position _)[other]? = some same
  rw [List.getElem?_set_ne (Ne.symm apart)]
  exact isSame

theorem since_of_finish (sound : Sound client) (isCall : client.calls[position]? = some call)
    (isOpen : client.breaker.isClosed = false)
    (late : client.opened ≤ other)
    (isEnded : (client.finish position call outcome now).calls[other]? = some ended) :
    ended.probe := by
  obtain ⟨before, isBefore, same, -⟩ := call_of_finish isCall isEnded
  rw [same]
  exact sound.since isOpen other before late isBefore

theorem finish_none (client : Client) (position : Nat) (call : Call) (now : ℚ)
    (noVerdict : outcome.verdict = none) :
    (client.finish position call outcome now).breaker.isClosed = client.breaker.isClosed ∧
      (client.finish position call outcome now).breaker.openUntil = client.breaker.openUntil ∧
      (client.finish position call outcome now).opened = client.opened ∧
      (client.finish position call outcome now).verdicts = client.verdicts := by
  have same : (client.finish position call outcome now).breaker.isClosed =
      client.breaker.isClosed := by
    rw [Client.finish, performEnd_none noVerdict]
    rfl
  have isBreaker : (client.finish position call outcome now).breaker.openUntil =
      client.breaker.openUntil := by
    rw [Client.finish, performEnd_none noVerdict]
  have isOpened : (client.finish position call outcome now).opened = client.opened :=
    if_neg fun opens => opens.2 (same.trans opens.1)
  refine ⟨same, isBreaker, isOpened, ?_⟩
  rw [Client.finish, noVerdict]
  rfl

theorem sound_of_silent (sound : Sound client) (isCall : client.calls[position]? = some call)
    (inFlight : call.inFlight) (noVerdict : outcome.verdict = none) :
    Sound (client.finish position call outcome now) := by
  obtain ⟨isClosed, -, isOpened, isVerdicts⟩ := finish_none client position call now noVerdict
  have isBreaker : (client.finish position call outcome now).breaker =
      { client.breaker with
        probing := if call.probe then false else client.breaker.probing } := by
    rw [Client.finish, performEnd_none noVerdict]
  have isPassed : client.opened ≤ (client.finish position call outcome now).calls.length := by
    rw [Client.finish, List.length_set]
    exact sound.passed
  have isOne : ∀ first second, (client.finish position call outcome now).Probing first →
      (client.finish position call outcome now).Probing second → first = second :=
    fun first second isFirst isSecond => sound.one first second
      (probing_of_finish isCall isFirst).1 (probing_of_finish isCall isSecond).1
  refine ⟨?_, ?_, ?_, ?_, ?_, ?_, isOne, ?_⟩
  · rw [isBreaker]
    exact sound.positive
  · rw [isBreaker, isVerdicts]
    exact sound.failed
  · rw [isOpened]
    exact isPassed
  · intro closed
    rw [isClosed] at closed
    rw [isBreaker, sound.closed closed]
    exact ite_self _
  · intro isUp
    cases isProbe : call.probe with
    | true =>
      rw [isBreaker, isProbe] at isUp
      cases isUp
    | false =>
      rw [isBreaker, isProbe] at isUp
      obtain ⟨other, probing⟩ := sound.held isUp
      refine ⟨other, probing_finish_of_ne probing ?_⟩
      rintro rfl
      obtain ⟨same, isSame, -, probes⟩ := probing
      rw [isCall] at isSame
      cases isSame
      rw [isProbe] at probes
      cases probes
  · intro other probing
    obtain ⟨before, apart⟩ := probing_of_finish isCall probing
    obtain ⟨isUp, late⟩ := sound.probes other before
    refine ⟨?_, isOpened ▸ late⟩
    cases isProbe : call.probe with
    | true => exact absurd (sound.one other position before ⟨call, isCall, inFlight, isProbe⟩) apart
    | false =>
      rw [isBreaker, isProbe]
      exact isUp
  · intro isOpen other ended late isEnded
    rw [isClosed] at isOpen
    rw [isOpened] at late
    exact since_of_finish sound isCall isOpen late isEnded

theorem sound_of_verdict (sound : Sound client)
    (isCall : client.calls[position]? = some call) (inFlight : call.inFlight)
    (isVerdict : outcome.verdict = some verdict)
    (admitted : client.breaker.isClosed ∨ client.opened ≤ position) :
    Sound (client.finish position call outcome now) := by
  obtain ⟨notProbing, isThreshold, isCount⟩ :=
    performEnd_some isVerdict sound.positive call.probe now
  -- the call that ends is the probe, if there is one
  have noProbe : ∀ other, ¬ (client.finish position call outcome now).Probing other := by
    intro other probing
    obtain ⟨before, apart⟩ := probing_of_finish isCall probing
    cases isClosed : client.breaker.isClosed with
    | true => exact no_probe_of_closed sound isClosed other before
    | false =>
      have late := admitted.resolve_left (by rw [isClosed]; decide)
      have isProbe := sound.since isClosed position call late isCall
      exact apart (sound.one other position before ⟨call, isCall, inFlight, isProbe⟩)
  refine ⟨?_, ?_, ?_, fun _ => notProbing, ?_, ?_, ?_, ?_⟩
  · change 0 < (performEnd client.breaker call.probe outcome now).threshold
    rw [isThreshold]
    exact sound.positive
  · obtain ⟨earlier, isEarlier⟩ := sound.failed
    change ∃ earlier, outcome.verdict.toList ++ client.verdicts =
      List.replicate (performEnd client.breaker call.probe outcome now).consecutiveFailures
        false ++ earlier
    rw [isVerdict, isCount]
    cases verdict with
    | true => exact ⟨_, rfl⟩
    | false => exact ⟨earlier, by rw [isEarlier, toList_some]; rfl⟩
  · change (if _ then _ else _) ≤ (client.calls.set position _).length
    rw [List.length_set]
    split
    · exact Nat.le_refl _
    · exact sound.passed
  · intro isUp
    exact absurd (notProbing.symm.trans isUp) (by decide)
  · exact fun other probing => absurd probing (noProbe other)
  · exact fun first _ isFirst => absurd isFirst (noProbe first)
  · intro isOpen other ended late isEnded
    cases isClosed : client.breaker.isClosed with
    | true =>
      have justOpened : (client.finish position call outcome now).opened =
          client.calls.length := if_pos ⟨isClosed, Bool.eq_false_iff.mp isOpen⟩
      obtain ⟨before, isBefore, -⟩ := call_of_finish isCall isEnded
      have early := (List.getElem?_eq_some_iff.mp isBefore).1
      rw [justOpened] at late
      omega
    | false =>
      have stillOpen : (client.finish position call outcome now).opened = client.opened :=
        if_neg fun opens => by rw [isClosed] at opens; cases opens.1
      rw [stillOpen] at late
      exact since_of_finish sound isCall isClosed late isEnded

theorem sound_step (stepped : step client action = some next)
    (admitted : Admitted client action) (sound : Sound client) : Sound next := by
  cases action with
  | begin now later => exact sound_of_begin sound stepped
  | finish position outcome now =>
    obtain ⟨call, isCall, inFlight, rfl⟩ := step_finish stepped
    cases isVerdict : outcome.verdict with
    | none => exact sound_of_silent sound isCall inFlight isVerdict
    | some verdict =>
      refine sound_of_verdict sound isCall inFlight isVerdict (admitted.imp_right fun rest => ?_)
      exact rest.resolve_left (by rw [isVerdict]; exact nofun)

theorem isClosed_of_begin (stepped : step client (.begin now later) = some next) :
    next.breaker.isClosed = client.breaker.isClosed := by
  rw [step] at stepped
  cases isClosed : client.breaker.isClosed with
  | true =>
    rw [acquire_closed isClosed] at stepped
    cases stepped
    exact isClosed
  | false =>
    rcases acquire_cases isClosed now later with ⟨error, refused⟩ | ⟨-, letThrough⟩
    · rw [refused] at stepped
      cases stepped
      exact isClosed
    · rw [letThrough] at stepped
      cases stepped
      exact isClosed

theorem failed_of_open (sound : Sound client) (isOpen : client.breaker.isClosed = false) :
    ∃ earlier, client.verdicts = List.replicate client.breaker.threshold false ++ earlier := by
  obtain ⟨earlier, isEarlier⟩ := sound.failed
  have enough : client.breaker.threshold ≤ client.breaker.consecutiveFailures := by
    rw [CircuitBreaker.isClosed, Bool.or_eq_false_iff, decide_eq_false_iff_not] at isOpen
    exact Nat.not_lt.mp (of_decide_eq_false isOpen.2)
  obtain ⟨more, isMore⟩ := Nat.le.dest enough
  exact ⟨_, by rw [isEarlier, ← isMore, replicate_add, append_assoc]⟩

theorem law_of_sound (nextSound : Sound next)
    (stepped : step client action = some next) (admitted : Admitted client action) :
    ProbeLaw client action next := by
  refine ⟨fun _ isOpen => failed_of_open nextSound isOpen, ?_, ?_, ?_, ?_⟩
  · intro isOpen first second isFirst isSecond
    exact nextSound.one first second (probing_of_begunSince nextSound isOpen isFirst)
      (probing_of_begunSince nextSound isOpen isSecond)
  · intro isOpen changed
    cases action with
    | begin now later =>
      rcases changed with closes | ⟨_, _, _, isFinish, -⟩
      · rw [isClosed_of_begin stepped, isOpen] at closes
        cases closes
      · cases isFinish
    | finish position outcome now =>
      obtain ⟨call, isCall, inFlight, rfl⟩ := step_finish stepped
      have isVerdict : outcome.verdict ≠ none := by
        intro noVerdict
        rcases changed with closes | ⟨_, _, _, isFinish, isFailure, -⟩
        · rw [(finish_none client position call now noVerdict).1, isOpen] at closes
          cases closes
        · cases isFinish
          rw [noVerdict] at isFailure
          cases isFailure
      have late := (admitted.resolve_left (by rw [isOpen]; decide)).resolve_left isVerdict
      exact ⟨position, outcome, now, rfl, late, call, isCall, inFlight⟩
  · rintro position outcome now rfl noVerdict
    obtain ⟨call, isCall, inFlight, rfl⟩ := step_finish stepped
    obtain ⟨isClosed, isUntil, -⟩ := finish_none client position call now noVerdict
    exact ⟨isClosed, isUntil⟩
  · intro isOpen nobody now later isTime
    have notProbing : next.breaker.probing = false := by
      cases isUp : next.breaker.probing with
      | false => rfl
      | true =>
        obtain ⟨position, probing⟩ := nextSound.held isUp
        exact absurd (begunSince_of_probing nextSound probing) (nobody position)
    exact ⟨_, acquire_probe isOpen notProbing later isTime⟩

theorem admitted_of_law (positive : 0 < client.breaker.threshold)
    (stepped : step client action = some next) (law : ProbeLaw client action next) :
    Admitted client action := by
  cases action with
  | begin now later => trivial
  | finish position outcome now =>
    obtain ⟨call, isCall, inFlight, rfl⟩ := step_finish stepped
    cases isClosed : client.breaker.isClosed with
    | true => exact .inl isClosed
    | false =>
      cases isVerdict : outcome.verdict with
      | none => exact .inr (.inl isVerdict)
      | some verdict =>
        have changed : (client.finish position call outcome now).breaker.isClosed ∨
            StartsPeriod (.finish position outcome now)
              (client.finish position call outcome now) := by
          cases ends : (client.finish position call outcome now).breaker.isClosed with
          | true => exact .inl rfl
          | false =>
            obtain ⟨-, isThreshold, isCount⟩ := performEnd_some isVerdict positive call.probe now
            cases verdict with
            | false => exact .inr ⟨position, outcome, now, rfl, isVerdict, ends⟩
            | true =>
              change (performEnd client.breaker call.probe outcome now).isClosed = false at ends
              rw [CircuitBreaker.isClosed, isThreshold, isCount, if_pos rfl,
                decide_eq_true positive, Bool.or_true] at ends
              cases ends
        obtain ⟨_, _, _, isFinish, late, -⟩ := law.decides isClosed changed
        cases isFinish
        exact .inr (.inr late)

end

def start (threshold : Nat) (openSeconds : ℚ) : Client := { breaker := { threshold, openSeconds } }

theorem sound_start {threshold : Nat} (positive : 0 < threshold) (openSeconds : ℚ) :
    Sound (start threshold openSeconds) := by
  have noProbe : ∀ position, ¬ (start threshold openSeconds).Probing position := by
    rintro position ⟨call, isCall, -⟩
    cases isCall
  refine ⟨positive, ⟨[], rfl⟩, Nat.le_refl _, fun _ => rfl, nofun, ?_, ?_, ?_⟩
  · exact fun position probing => absurd probing (noProbe position)
  · exact fun first _ isFirst => absurd isFirst (noProbe first)
  · intro _ position call _ isCall
    cases isCall

def KeepsLaw (client : Client) (action : Action) : Prop :=
  ∀ next, step client action = some next → ProbeLaw client action next

theorem keeps_law_of_sound (sound : Sound client)
    (meets : Meets step Admitted client actions) : Meets step KeepsLaw client actions := by
  induction actions generalizing client with
  | nil => trivial
  | cons action later ih =>
    obtain ⟨admitted, rest⟩ := meets
    refine ⟨fun next stepped => ?_, ?_⟩
    · exact law_of_sound (sound_step stepped admitted sound) stepped admitted
    · cases stepped : step client action with
      | none => trivial
      | some next =>
        rw [stepped] at rest
        exact ih (sound_step stepped admitted sound) rest

theorem admitted_of_keeps_law {last : Client} (sound : Sound client)
    (reached : run step client actions = some last) (keeps : Meets step KeepsLaw client actions) :
    Meets step Admitted client actions := by
  induction actions generalizing client with
  | nil => trivial
  | cons action later ih =>
    obtain ⟨next, stepped, rest⟩ := run_cons_eq_some reached
    obtain ⟨law, laterKeeps⟩ := keeps
    have admitted := admitted_of_law sound.positive stepped (law next stepped)
    rw [stepped] at laterKeeps
    refine ⟨admitted, ?_⟩
    rw [stepped]
    exact ih (sound_step stepped admitted sound) rest laterKeeps

/-- A run keeps the law of the probe just where no call that began before the circuit opened ends
with a verdict while it is open. -/
theorem single_probe_iff {threshold : Nat} (positive : 0 < threshold) (openSeconds : ℚ)
    {actions : List Action} {last : Client}
    (reached : run step (start threshold openSeconds) actions = some last) :
    Meets step KeepsLaw (start threshold openSeconds) actions ↔
      Meets step Admitted (start threshold openSeconds) actions :=
  ⟨admitted_of_keeps_law (sound_start positive openSeconds) reached,
    keeps_law_of_sound (sound_start positive openSeconds)⟩

/-- Two calls begin; one fails and opens the circuit; the period passes and the probe begins; the
other call fails too; that period passes as well. -/
def outlived : List Action :=
  [.begin 0 0, .begin 0 0, .finish 0 (.error 503) 1, .begin 12 12, .finish 1 (.error 0) 13]

/-- The next call is let through while the probe is in flight. -/
theorem second_probe_is_let_through :
    ¬ ∀ actions client action next, run step (start 1 10) actions = some client →
      step client action = some next → ProbeLaw client action next := by
  intro always
  have isRun : (run step (start 1 10) outlived).bind (fun client =>
      (step client (.begin 24 24)).map fun next => (next.breaker.isClosed, next.opened,
        next.calls.map Call.inFlight)) = some (false, 2, [false, false, true, true]) := by
    decide +kernel
  obtain ⟨client, reached, isStep⟩ := bind_eq_some_iff.mp isRun
  obtain ⟨next, stepped, isNext⟩ := map_eq_some_iff.mp isStep
  obtain ⟨isOpen, rest⟩ := Prod.mk.inj isNext
  obtain ⟨isOpened, isCalls⟩ := Prod.mk.inj rest
  have inFlight : ∀ position, 2 ≤ position →
      (next.calls.map Call.inFlight)[position]? = some true → next.BegunSince position := by
    intro position late isFlying
    rw [List.getElem?_map, map_eq_some_iff] at isFlying
    exact ⟨isOpened ▸ late, isFlying⟩
  have law := always outlived client (.begin 24 24) next reached stepped
  have same := law.alone isOpen 2 3 (inFlight 2 (by decide) (by rw [isCalls]; rfl))
    (inFlight 3 (by decide) (by rw [isCalls]; rfl))
  exact absurd same (by decide)

def probed : List Action :=
  [.begin 0 0, .finish 0 (.error 503) 1, .begin 12 12, .finish 1 .cancelled 13, .begin 14 14,
    .finish 2 .response 15]

theorem single_probe_probed :
    ∃ last, run step (start 1 10) probed = some last ∧ Meets step KeepsLaw (start 1 10) probed :=
  exists_run (by decide +kernel) fun _ reached =>
    (single_probe_iff (by decide) 10 reached).mpr (by decide +kernel)

end MemoryService.Sdk
