import Mathlib.Tactic.Common

/-!
# Reconnecting

`ReconnectState` counts the failed attempts and computes the delay before the next one.
A delay is a number of nanoseconds.  The next delay goes through `f64`, so the product
with `backoff_multiplier` is a function of the configuration here.
-/

namespace IronSbe.Client

/-- `ReconnectConfig` with its defaults; delays are nanoseconds. -/
structure ReconnectConfig where
  enabled : Bool := true
  initialDelay : Nat := 100000000
  maxDelay : Nat := 30000000000
  /-- `Duration::from_secs_f64(delay.as_secs_f64() * backoff_multiplier)`. -/
  backoff : Nat → Nat := fun delay => 2 * delay
  /-- Zero stands for no limit. -/
  maxAttempts : Nat := 10

/-- The attempts since the last success, and the delay of the next one. -/
structure ReconnectState where
  config : ReconnectConfig
  attempts : Nat
  currentDelay : Nat

namespace ReconnectState

/-- No attempts, and the initial delay. -/
def new (config : ReconnectConfig) : ReconnectState := ⟨config, 0, config.initialDelay⟩

/-- `on_failure`: the delay before the next attempt, if there is to be one. -/
def onFailure (s : ReconnectState) : Option Nat × ReconnectState :=
  if !s.config.enabled then (none, s)
  else
    let s := { s with attempts := s.attempts + 1 }
    if 0 < s.config.maxAttempts ∧ s.config.maxAttempts ≤ s.attempts then (none, s)
    else
      (some s.currentDelay,
        { s with currentDelay := min (s.config.backoff s.currentDelay) s.config.maxDelay })

/-- `on_success` starts over. -/
def onSuccess (s : ReconnectState) : ReconnectState :=
  { s with attempts := 0, currentDelay := s.config.initialDelay }

/-- `can_retry`; no limit of attempts is the limit 0. -/
def canRetry (s : ReconnectState) : Bool :=
  s.config.enabled && (s.config.maxAttempts == 0 || decide (s.attempts < s.config.maxAttempts))

end ReconnectState

end IronSbe.Client
