import Mathlib.Algebra.Group.Nat.Defs
import NamespaceCatalog.Retry

/-!
# The delays of the growing policy

The delay after attempt number `k` is meant to lie between the half and the whole of a span that
doubles with every attempt, up to a bound: `span` is the least of `base * 2 ^ (k - 1)` and `max`.
What the policy can give are the delays between the half and the whole of `reach`, each of them for
some draw, and no others (`exists_pick_iff`).

The reach is never more than the span, but it may be less: the doubling stops after 31 times, and
delays are picked in 64 bits.  `Spans` says when neither is felt, and then all delays lie where they
are meant to (`delays_of_conflicts`).
-/

namespace NamespaceCatalog

namespace GrowingRetry

variable {p : GrowingRetry} {k delay : Nat}

/-- The longest delay after attempt number `k`, if every attempt doubles it. -/
def span (p : GrowingRetry) (k : Nat) : Nat := min (p.base * 2 ^ (k - 1)) p.max

/-- The longest delay that is picked after attempt number `k`. -/
def reach (p : GrowingRetry) (k : Nat) : Nat := min (p.ceiling k) (UInt64.size - 1)

/-- Is the span after attempt number `k` within reach?  It has to fit in 64 bits, and not to have
grown further than 31 doublings go; a nanosecond more makes no difference to its half. -/
def Spans (p : GrowingRetry) (k : Nat) : Prop :=
  p.span k < UInt64.size ∧
    (k ≤ mostDoublings + 1 ∨ p.base = 0 ∨ p.max ≤ p.base * 2 ^ mostDoublings + 1)

/-! ## What is picked -/

/-- Every delay of the upper half is picked for some draw, and no other is. -/
theorem exists_pick_iff :
    (∃ draw, p.pick draw k = delay) ↔ p.reach k / 2 ≤ delay ∧ delay ≤ p.reach k := by
  have hpick : ∀ draw, p.pick draw k =
      p.reach k / 2 + draw % (p.reach k - p.reach k / 2 + 1) := fun _ => rfl
  generalize p.reach k = n at *
  constructor
  · rintro ⟨draw, rfl⟩
    have hmod : draw % (n - n / 2 + 1) < n - n / 2 + 1 := Nat.mod_lt _ (Nat.succ_pos _)
    rw [hpick]
    omega
  · rintro ⟨hlow, hhigh⟩
    refine ⟨delay - n / 2, ?_⟩
    rw [hpick, Nat.mod_eq_of_lt (by omega)]
    omega

/-! ## Reach and span -/

/-- The longest span of time is no bound of its own: what is picked in 64 bits is far below it. -/
theorem reach_eq (p : GrowingRetry) (k : Nat) :
    p.reach k = min (min (p.base * 2 ^ min (k - 1) mostDoublings) p.max) (UInt64.size - 1) := by
  have hlongest : UInt64.size - 1 ≤ longestDelay := by decide
  rw [reach, ceiling, Nat.shiftLeft_eq]
  omega

/-- Past the last doubling the span is at least twice what the reach has grown to. -/
theorem two_mul_le_of_lt (b : Nat) (hk : mostDoublings + 1 < k) :
    2 * (b * 2 ^ mostDoublings) ≤ b * 2 ^ (k - 1) := by
  have hpow : 2 ^ (mostDoublings + 1) ≤ 2 ^ (k - 1) := by
    apply Nat.pow_le_pow_right (by decide)
    omega
  calc 2 * (b * 2 ^ mostDoublings) = b * 2 ^ (mostDoublings + 1) := by
        rw [Nat.pow_succ', Nat.mul_left_comm]
    _ ≤ b * 2 ^ (k - 1) := Nat.mul_le_mul_left b hpow

theorem reach_le_span (p : GrowingRetry) (k : Nat) : p.reach k ≤ p.span k := by
  have hpow : p.base * 2 ^ min (k - 1) mostDoublings ≤ p.base * 2 ^ (k - 1) := by
    apply Nat.mul_le_mul_left
    apply Nat.pow_le_pow_right (by decide)
    exact Nat.min_le_left _ _
  rw [reach_eq, span]
  omega

/-- An even bound `a` in place of one twice as large keeps the half of a minimum exactly if at most
one is cut off. -/
theorem half_min_eq_iff {a b c m n max : Nat} (ha : a = 2 * c) (hpos : 0 < a) (hb : 2 * a ≤ b)
    (hn : n = 2 * m) (hm : 0 < m) :
    min (min a max) (n - 1) / 2 = min b max / 2 ↔ min b max < n ∧ max ≤ a + 1 := by
  omega

/-- The halves of reach and span are the same exactly if the span is within reach. -/
theorem half_reach_eq_iff : p.reach k / 2 = p.span k / 2 ↔ p.Spans k := by
  obtain ⟨m, hm, hsize⟩ : ∃ m, 0 < m ∧ UInt64.size = 2 * m := ⟨2 ^ 63, by decide, rfl⟩
  rw [Spans, reach_eq, span]
  by_cases hk : k ≤ mostDoublings + 1
  · -- as many doublings as are wanted
    have hmin : min (k - 1) mostDoublings = k - 1 := by omega
    rw [hmin]
    omega
  by_cases hbase : p.base = 0
  · simp only [hbase, Nat.zero_mul, Nat.zero_min, true_or, or_true, and_true]
    exact iff_of_true trivial (by decide)
  · have hmin : min (k - 1) mostDoublings = mostDoublings := by omega
    have hpos : 0 < p.base * 2 ^ mostDoublings :=
      Nat.mul_pos (Nat.pos_of_ne_zero hbase) (Nat.two_pow_pos _)
    have heven : p.base * 2 ^ mostDoublings = 2 * (p.base * 2 ^ 30) :=
      Nat.mul_left_comm p.base 2 (2 ^ 30)
    have hgrown := two_mul_le_of_lt p.base (Nat.lt_of_not_le hk)
    rw [hmin, half_min_eq_iff heven hpos hgrown hsize hm]
    simp only [hk, hbase, false_or]

/-! ## The policy -/

/-- There is no delay but after a conflict that leaves an attempt.  Then the delays are those
between the half and the whole of the reach, which lie within the span; and all of them lie in its
upper half exactly if the span is within reach. -/
theorem delays_of_conflicts (p : GrowingRetry) (e : Error) (k : Nat) :
    (∀ draw, (RetryPolicy.growing p).delay? draw e k = none ↔
      ¬ (e.isConflict = true ∧ k < p.attempts)) ∧
    (e.isConflict = true → k < p.attempts →
      (∀ delay, (∃ draw, (RetryPolicy.growing p).delay? draw e k = some delay) ↔
        p.reach k / 2 ≤ delay ∧ delay ≤ p.reach k) ∧
      p.reach k ≤ p.span k ∧
      ((∀ draw delay, (RetryPolicy.growing p).delay? draw e k = some delay →
        p.span k / 2 ≤ delay ∧ delay ≤ p.span k) ↔ p.Spans k)) := by
  constructor
  · intro draw
    simp [RetryPolicy.delay?]
  · intro he hk
    have hdelay : ∀ draw, (RetryPolicy.growing p).delay? draw e k = some (p.pick draw k) := by
      intro draw
      simp [RetryPolicy.delay?, he, hk]
    simp only [hdelay, Option.some.injEq]
    have hle := reach_le_span p k
    refine ⟨fun delay => exists_pick_iff, hle, ?_⟩
    rw [← half_reach_eq_iff]
    constructor
    · intro h
      -- the shortest delay decides
      obtain ⟨draw, hdraw⟩ := (exists_pick_iff (p := p) (k := k)).2
        ⟨Nat.le_refl _, Nat.div_le_self _ 2⟩
      have hhalf := (h draw _ hdraw).1
      omega
    · rintro h draw delay hdelay
      have hbounds := exists_pick_iff.1 ⟨draw, hdelay⟩
      omega

/-- From one nanosecond up to a thousand seconds, the span after attempt 41 is the whole bound, and
no delay comes near its half. -/
theorem delays_of_conflicts_past_doubling :
    ∃ (p : GrowingRetry) (k : Nat) (e : Error), e.isConflict = true ∧ k < p.attempts ∧
      p.span k = 1000000000000 ∧
      ∀ draw delay, (RetryPolicy.growing p).delay? draw e k = some delay →
        2 ^ 30 ≤ delay ∧ delay ≤ 2 ^ 31 ∧ delay < p.span k / 2 := by
  have h := delays_of_conflicts ⟨100, 1, 1000000000000⟩ (.conflict 1 1) 41
  have hreach : reach ⟨100, 1, 1000000000000⟩ 41 = 2 ^ 31 := by decide
  have hspan : span ⟨100, 1, 1000000000000⟩ 41 = 1000000000000 := by decide
  refine ⟨_, 41, .conflict 1 1, rfl, by decide, hspan, fun draw delay hdelay => ?_⟩
  have hbounds := ((h.2 rfl (by decide)).1 delay).1 ⟨draw, hdelay⟩
  rw [hreach] at hbounds
  rw [hspan]
  omega

end GrowingRetry

end NamespaceCatalog
