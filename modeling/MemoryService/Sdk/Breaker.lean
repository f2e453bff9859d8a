import Mathlib.Data.Rat.Floor
import MemoryService.Foundation.Transition

/-!
# The client's circuit breaker

Consecutive failed calls open the circuit; when the open period has passed one call goes through
as the probe. Calls begin and end in any order.
-/

namespace MemoryService.Sdk

inductive CircuitState where
  | closed
  | «open»
  | halfOpen
  deriving DecidableEq

structure CircuitOpenError where
  message : String
  code : String := "CIRCUIT_OPEN"
  status : Nat := 0
  retryable : Bool := true
  retryAfter : ℚ
  /-- details -/
  failures : Nat
  state : CircuitState

structure CircuitBreaker where
  threshold : Nat
  openSeconds : ℚ
  consecutiveFailures : Nat := 0
  openUntil : ℚ := 0
  probing : Bool := false

/-- `round(x, 1)`: to one decimal, a half to the even one. -/
def roundTenths (x : ℚ) : ℚ :=
  let down := ⌊x * 10⌋
  let beyond := x * 10 - down
  let tenths := if beyond < 1 / 2 then down else if 1 / 2 < beyond then down + 1
    else if down % 2 = 0 then down else down + 1
  tenths / 10

namespace CircuitBreaker

variable (breaker : CircuitBreaker)

def state (now : ℚ) : CircuitState :=
  if breaker.threshold = 0 ∨ breaker.consecutiveFailures < breaker.threshold then .closed
  else if now < breaker.openUntil then .open else .halfOpen

/-- Whether the call is let through, and as the probe; the clock is read once more for the
refusal. -/
def acquire (now later : ℚ) :
    Except CircuitOpenError (Bool × CircuitBreaker) :=
  let state := breaker.state now
  if state = .closed then .ok (false, breaker)
  else if state = .open ∨ breaker.probing then
    let remaining := max 0 (breaker.openUntil - later)
    .error
      { message := "memory service circuit open after " ++
          toString breaker.consecutiveFailures ++ " failed calls"
        retryAfter := roundTenths remaining
        failures := breaker.consecutiveFailures
        state }
  else .ok (true, { breaker with probing := true })

def recordSuccess : CircuitBreaker := { breaker with consecutiveFailures := 0, probing := false }

def recordFailure (now : ℚ) : CircuitBreaker :=
  let ended := { breaker with probing := false }
  if ended.threshold = 0 then ended
  else
    let counted := { ended with consecutiveFailures := ended.consecutiveFailures + 1 }
    if counted.threshold ≤ counted.consecutiveFailures then
      { counted with openUntil := now + counted.openSeconds }
    else counted

def release : CircuitBreaker := { breaker with probing := false }

/-- Not open, whatever the clock says. -/
def isClosed : Bool := breaker.threshold = 0 || breaker.consecutiveFailures < breaker.threshold

end CircuitBreaker

/-- How the attempts of a call end. -/
inductive Outcome where
  | response
  | error (status : Nat)
  /-- anything else that is raised: the call is cancelled -/
  | cancelled

/-- Whether the service answered, where the outcome says so. -/
def Outcome.verdict : Outcome → Option Bool
  | .response => some true
  | .error status =>
    if status = 0 ∨ 500 ≤ status then some false
    else if status ≠ 429 then some true else none
  | .cancelled => none

def performEnd (breaker : CircuitBreaker) (probe : Bool) (outcome : Outcome) (now : ℚ) :
    CircuitBreaker :=
  let recorded :=
    match outcome.verdict with
    | some true => breaker.recordSuccess
    | some false => breaker.recordFailure now
    | none => breaker
  if probe then recorded.release else recorded

structure Call where
  probe : Bool
  inFlight : Bool := true

structure Client where
  breaker : CircuitBreaker
  calls : List Call := []
  verdicts : List Bool := []
  opened : Nat := 0

inductive Action where
  | begin (now later : ℚ)
  | finish (position : Nat) (outcome : Outcome) (now : ℚ)

def Client.finish (client : Client) (position : Nat) (call : Call) (outcome : Outcome)
    (now : ℚ) : Client :=
  let breaker := performEnd client.breaker call.probe outcome now
  { breaker
    calls := client.calls.set position { call with inFlight := false }
    verdicts := outcome.verdict.toList ++ client.verdicts
    opened := if client.breaker.isClosed ∧ ¬ breaker.isClosed then client.calls.length
      else client.opened }

def step (client : Client) : Action → Option Client
  | .begin now later =>
    match client.breaker.acquire now later with
    | .ok (probe, breaker) => some { client with breaker, calls := client.calls ++ [{ probe }] }
    | .error _ => some client
  | .finish position outcome now =>
    (client.calls[position]?).bind fun call =>
      if call.inFlight then some (client.finish position call outcome now) else none

end MemoryService.Sdk
