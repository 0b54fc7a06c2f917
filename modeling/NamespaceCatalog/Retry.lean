import NamespaceCatalog.Error

/-!
# Retry policies

A policy says after each failed attempt whether to make another one, and how long to wait first.
Spans of time are numbers of nanoseconds; the longest is `longestDelay`.

The fixed policy has one delay.  The growing policy is the exponential backoff; it draws its delays
from the upper half of an interval, so that writers that collide do not come back together; the draw
is a parameter of `RetryPolicy.delay?`.
-/

namespace NamespaceCatalog

/-- The longest span of time, in nanoseconds. -/
def longestDelay : Nat := (UInt64.size - 1) * 1000000000 + 999999999

/-- Retries after a fixed delay, up to a number of attempts. -/
structure FixedRetry where
  /-- The number of attempts, with the first. -/
  attempts : Nat
  delay : Nat
  deriving DecidableEq, Repr

namespace FixedRetry

/-- Twenty attempts, a tenth of a second apart. -/
def standard : FixedRetry := ⟨20, 100000000⟩

/-- One attempt. -/
def once : FixedRetry := ⟨1, 0⟩

/-- The policy as diagnostics show it. -/
def describe (p : FixedRetry) : String :=
  "RetryConfig \x7b max_attempts: " ++ toString p.attempts ++ ", delay: " ++
    Text.duration p.delay ++ " \x7d"

end FixedRetry

/-- Retries after delays that double up to a bound, up to a number of attempts. -/
structure GrowingRetry where
  /-- The number of attempts, with the first. -/
  attempts : Nat
  /-- The longest delay after the first attempt. -/
  base : Nat
  /-- The longest delay of all. -/
  max : Nat
  deriving DecidableEq, Repr

namespace GrowingRetry

/-- Ten attempts, up to ten milliseconds apart at first and up to a second later. -/
def standard : GrowingRetry := ⟨10, 10000000, 1000000000⟩

/-- How often a delay is doubled at most. -/
def mostDoublings : Nat := 31

/-- The longest delay after attempt number `attempt`. -/
def ceiling (p : GrowingRetry) (attempt : Nat) : Nat :=
  min (min (p.base <<< min (attempt - 1) mostDoublings) longestDelay) p.max

theorem ceiling_le_max (p : GrowingRetry) (attempt : Nat) : p.ceiling attempt ≤ p.max :=
  Nat.min_le_right _ _

/-- The delay after attempt number `attempt`, which `draw` picks from the upper half below the
ceiling.  Delays are picked in 64 bits. -/
def pick (p : GrowingRetry) (draw attempt : Nat) : Nat :=
  let n := min (p.ceiling attempt) (UInt64.size - 1)
  n / 2 + draw % (n - n / 2 + 1)

theorem pick_le_ceiling (p : GrowingRetry) (draw attempt : Nat) :
    p.pick draw attempt ≤ p.ceiling attempt := by
  simp only [pick]
  generalize hn : min (p.ceiling attempt) (UInt64.size - 1) = n
  have hle : n ≤ p.ceiling attempt := hn ▸ Nat.min_le_left _ _
  have h := Nat.mod_lt draw (Nat.succ_pos (n - n / 2))
  simp only [Nat.succ_eq_add_one] at h
  omega

/-- The policy as diagnostics show it. -/
def describe (p : GrowingRetry) : String :=
  "ExponentialBackoff \x7b max_attempts: " ++ toString p.attempts ++ ", base: " ++
    Text.duration p.base ++ ", max: " ++ Text.duration p.max ++ " \x7d"

end GrowingRetry

/-- The policies for failed attempts. -/
inductive RetryPolicy
  | never
  | fixed (p : FixedRetry)
  | growing (p : GrowingRetry)
  deriving DecidableEq, Repr

namespace RetryPolicy

/-- The delay before another attempt after attempt number `attempt` failed; `none` to give up.  Only
conflicts are worth another attempt. -/
def delay? (policy : RetryPolicy) (draw : Nat) (failure : Error) (attempt : Nat) : Option Nat :=
  match policy with
  | never => none
  | fixed p => if failure.isConflict && attempt < p.attempts then some p.delay else none
  | growing p =>
    if failure.isConflict && attempt < p.attempts then some (p.pick draw attempt) else none

/-- The policy as diagnostics show it. -/
def describe : RetryPolicy → String
  | never => "NoRetry"
  | fixed p => p.describe
  | growing p => p.describe

end RetryPolicy

end NamespaceCatalog
