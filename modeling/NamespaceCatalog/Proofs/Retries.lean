import NamespaceCatalog.Executor
import NamespaceCatalog.Proofs.Sleeps
import NamespaceCatalog.Retry

/-!
# Attempts and sleeps of a call

A call of an executor makes attempts, asks the policy after each one that fails, and sleeps, until
an attempt commits, the policy gives up, or a signal ends a sleep (`Executor.retries_of_policy`).
`Interference` is what is done to the signal meanwhile, raises and lowerings, which may depend on
all that happens.  A call that goes by the signal of the world heeds any raise since it began; a
token stops a call if no lowering came after its last raise.

`Interference.Retried` says what happens up to some attempt, and `Interference.Ends` how a call ends
with it.  Both follow the clock: between two attempts it is put forward once by the delay, and a
sleep that is cut short ends with the stir that did so.
-/

namespace NamespaceCatalog

/-! ## Raises and lowerings -/

namespace Signal

/-- What may be done to a signal. -/
inductive Act
  | raise
  | lower
  deriving DecidableEq, Repr

/-- The signal after an act. -/
def act (s : Signal) : Act → Signal
  | .raise => s.raise
  | .lower => s.lower

/-- The signal after acts, one after the other. -/
def after (s : Signal) (acts : List Act) : Signal := acts.foldl act s

/-- Is there a raise, and no lowering after it? -/
def LeftUp (acts : List Act) : Prop := ∃ front back, acts = front ++ .raise :: back ∧ .lower ∉ back

theorem after_append (s : Signal) (acts later : List Act) :
    s.after (acts ++ later) = (s.after acts).after later :=
  List.foldl_append

theorem raises_after (s : Signal) (acts : List Act) :
    (s.after acts).raises = s.raises + acts.count .raise := by
  induction acts generalizing s with
  | nil => rfl
  | cons a acts ih =>
    rw [after, List.foldl_cons, ← after, ih]
    cases a with
    | raise => simp only [act, raise, List.count_cons_self]; omega
    | lower => simp [act, lower]

/-- A watch finds every raise since it began, whatever was lowered. -/
theorem raisedSince_after_iff (s : Signal) (acts : List Act) :
    (s.after acts).raisedSince s.watch ↔ .raise ∈ acts := by
  rw [raisedSince, watch, raises_after, decide_eq_true_iff, ← List.count_pos_iff]
  omega

theorem leftUp_cons_iff {a : Act} {acts : List Act} :
    LeftUp (a :: acts) ↔ LeftUp acts ∨ (a = .raise ∧ .lower ∉ acts) := by
  constructor
  · rintro ⟨_ | ⟨b, front⟩, back, e, hback⟩
    · obtain ⟨rfl, rfl⟩ := List.cons.inj e
      exact .inr ⟨rfl, hback⟩
    · obtain ⟨rfl, rfl⟩ := List.cons.inj e
      exact .inl ⟨front, back, rfl, hback⟩
  · rintro (⟨front, back, rfl, hback⟩ | ⟨rfl, hacts⟩)
    · exact ⟨a :: front, back, rfl, hback⟩
    · exact ⟨[], acts, rfl, hacts⟩

theorem isUp_after_iff_of_le {s : Signal} (hs : s.lowered ≤ s.raises) (acts : List Act) :
    (s.after acts).isUp ↔ LeftUp acts ∨ (s.isUp ∧ .lower ∉ acts) := by
  induction acts generalizing s with
  | nil => simp [after, LeftUp]
  | cons a acts ih =>
    rw [after, List.foldl_cons, ← after, leftUp_cons_iff]
    cases a with
    | raise =>
      have hup : s.raise.isUp := decide_eq_true (Nat.lt_succ_of_le hs)
      rw [act, ih (Nat.le_succ_of_le hs)]
      simp only [hup, true_and]
      grind
    | lower =>
      rw [act, ih (Nat.le_refl _)]
      simp

/-- A token is up if it was raised, and not lowered since. -/
theorem isUp_after_iff (acts : List Act) : (new.after acts).isUp ↔ LeftUp acts := by
  rw [isUp_after_iff_of_le (Nat.le_refl 0)]
  simp [isUp, new]

theorem of_wake_error {up : Bool} {e : Error} (h : wake up = .error e) :
    up = true ∧ e = .interrupted := by
  cases up with
  | true => exact ⟨rfl, (Except.error.inj h).symm⟩
  | false => cases h

theorem of_wake_ok {up : Bool} (h : wake up = .ok ()) : up = false := by
  cases up with
  | true => cases h
  | false => rfl

end Signal

/-! ## Policies -/

namespace RetryPolicy

/-- The number of attempts that the policy allows. -/
def attempts : RetryPolicy → Nat
  | never => 1
  | fixed p => p.attempts
  | growing p => p.attempts

/-- There is another attempt exactly after a conflict, and while the policy allows more. -/
theorem isSome_delay?_iff (policy : RetryPolicy) (draw : Nat) (e : Error) {n : Nat} (hn : 0 < n) :
    (policy.delay? draw e n).isSome ↔ e.isConflict ∧ n < policy.attempts := by
  cases policy with
  | never => simp only [delay?, attempts, Option.isSome_none]; grind
  | fixed p => simp only [delay?, attempts]; split <;> simp_all
  | growing p => simp only [delay?, attempts]; split <;> simp_all

end RetryPolicy

/-! ## Attempts and sleeps -/

namespace Executor

variable {ρ π α : Type} {x : Executor ρ π} {policy : RetryPolicy}

/-- Does the executor ask this policy?  Draws may depend on anything. -/
def Follows (x : Executor ρ π) (policy : RetryPolicy) : Prop :=
  ∀ e n w, ∃ draw, (x.policy e n w).1 = policy.delay? draw e n

theorem Follows.conflict_of_some (hx : x.Follows policy) {e : Error} {n delay : Nat}
    {w v : World ρ} (hn : 0 < n) (hp : x.policy e n w = (some delay, v)) :
    e.isConflict ∧ n < policy.attempts := by
  obtain ⟨draw, hdraw⟩ := hx e n w
  rw [← policy.isSome_delay?_iff draw e hn, ← hdraw, hp]
  rfl

theorem Follows.attempts_le_of_none (hx : x.Follows policy) {e : Error} {n : Nat} {w v : World ρ}
    (hn : 0 < n) (hp : x.policy e n w = (none, v)) (he : e.isConflict) : policy.attempts ≤ n := by
  obtain ⟨draw, hdraw⟩ := hx e n w
  refine Nat.le_of_not_lt fun hlt => ?_
  have hsome := (policy.isSome_delay?_iff draw e hn).2 ⟨he, hlt⟩
  rw [← hdraw, hp] at hsome
  cases hsome

variable [Participant ρ π] {body : Body ρ π α} {signal : Signal × ρ → Signal}

/-- What is done to a signal in each attempt, when the policy is asked, and at each stir of a sleep.
-/
structure Interference (x : Executor ρ π) (body : Body ρ π α) (signal : Signal × ρ → Signal) where
  attempt : World ρ → List Signal.Act
  question : Error → Nat → World ρ → List Signal.Act
  stir : Stir ρ → Signal × ρ → List Signal.Act
  of_attempt : ∀ {w r v}, x.attempt body w = (r, v) →
    signal v.signals = (signal w.signals).after (attempt w)
  of_question : ∀ {e n w r v}, x.policy e n w = (r, v) →
    signal v.signals = (signal w.signals).after (question e n w)
  of_stir : ∀ {w s}, s ∈ x.meanwhile.stirs w → ∀ p,
    signal (s.act p) = (signal p).after (stir s p)

namespace Interference

/-- What is done at the stirs of a sleep, one after the other. -/
def stirred (h : x.Interference body signal) : List (Stir ρ) → Signal × ρ → List Signal.Act
  | [], _ => []
  | s :: stirs, p => h.stir s p ++ h.stirred stirs (s.act p)

/-- What is done from an attempt to the sleep after it. -/
def awake (h : x.Interference body signal) (n : Nat) (e : Error) (v u : World ρ) :
    List Signal.Act :=
  h.attempt v ++ h.question e n u

variable (h : x.Interference body signal) (stops : List Signal.Act → Prop)

/-- Attempts `1` to `k` failed with conflicts, each in the world that the one before it left.  After
each the policy was asked once, with the number of the attempt, and there was one sleep, of which
all the time passed, and at no moment of which the acts until then would have stopped it.  Attempt
`k + 1` comes next, in `v`, and `acts` is what was done since `w`. -/
inductive Retried (w : World ρ) : (k : Nat) → (acts : List Signal.Act) → (v : World ρ) → Prop
  | start : Retried w 0 [] w
  | again {k : Nat} {acts : List Signal.Act} {v u z v' : World ρ} {e : Error} {delay : Nat}
    {done : List (Stir ρ)} :
    Retried w k acts v → x.attempt body v = (.error e, u) → e.isConflict →
    x.policy e (k + 1) u = (some delay, z) → x.meanwhile.Passed delay z done v' →
    (∀ front, front <+: done →
      ¬stops (acts ++ h.awake (k + 1) e v u ++ h.stirred front z.signals)) →
    Retried w (k + 1) (acts ++ h.awake (k + 1) e v u ++ h.stirred done z.signals) v'

/-- How a call ends with attempt `k + 1`: with what the attempt gave, or with its failure unchanged
if the policy, asked once more, gives up; or because the acts until some moment of the sleep after
it stop that; or not at all, if the end of that sleep cannot be told and nothing stops it. -/
inductive Ends (most k : Nat) (acts : List Signal.Act) (v : World ρ) :
    Option (Except Error α) × World ρ → Prop
  | committed {a : α} {u : World ρ} :
    x.attempt body v = (.ok a, u) → Ends most k acts v (some (.ok a), u)
  | givenUp {u z : World ρ} {e : Error} :
    x.attempt body v = (.error e, u) → x.policy e (k + 1) u = (none, z) →
    (e.isConflict → k + 1 = most) → Ends most k acts v (some (.error e), z)
  | interrupted {u z v' : World ρ} {e : Error} {delay : Nat} {done : List (Stir ρ)} :
    x.attempt body v = (.error e, u) → e.isConflict → x.policy e (k + 1) u = (some delay, z) →
    x.meanwhile.Cut delay z done v' →
    stops (acts ++ h.awake (k + 1) e v u ++ h.stirred done z.signals) →
    (∀ front, front <+: done → front ≠ done →
      ¬stops (acts ++ h.awake (k + 1) e v u ++ h.stirred front z.signals)) →
    Ends most k acts v (some (.error .interrupted), v')
  | asleep {u z v' : World ρ} {e : Error} {delay : Nat} :
    x.attempt body v = (.error e, u) → e.isConflict → x.policy e (k + 1) u = (some delay, z) →
    x.meanwhile.Endless delay z v' →
    (∀ front, front <+: x.meanwhile.stirs z →
      ¬stops (acts ++ h.awake (k + 1) e v u ++ h.stirred front z.signals)) →
    Ends most k acts v (none, v')

variable {h stops} {w : World ρ}

theorem signal_disturb {z : World ρ} {stirs : List (Stir ρ)}
    (hs : ∀ s ∈ stirs, s ∈ x.meanwhile.stirs z) (p : Signal × ρ) :
    signal (Stir.disturb stirs p) = (signal p).after (h.stirred stirs p) := by
  induction stirs generalizing p with
  | nil => rfl
  | cons s stirs ih =>
    obtain ⟨hs, hrest⟩ := List.forall_mem_cons.1 hs
    rw [Stir.disturb_cons, ih hrest, h.of_stir hs, stirred, Signal.after_append]

theorem signal_awake {v u z : World ρ} {r : Except Error α} {e : Error} {n : Nat}
    {delay : Option Nat} (ha : x.attempt body v = (r, u)) (hp : x.policy e n u = (delay, z)) :
    signal z.signals = (signal v.signals).after (h.awake n e v u) := by
  rw [awake, Signal.after_append, ← h.of_attempt ha, ← h.of_question hp]

theorem Retried.signal_eq {k : Nat} {acts : List Signal.Act} {v : World ρ}
    (hr : h.Retried stops w k acts v) : signal v.signals = (signal w.signals).after acts := by
  induction hr with
  | start => rfl
  | again _ ha _ hp hpassed _ ih =>
    rw [hpassed.passes.signals, h.signal_disturb fun s hs => hpassed.pre.subset hs,
      h.signal_awake ha hp, ih, Signal.after_append, Signal.after_append]

/-- At each moment of a sleep the signal is what all acts until then have made of it. -/
theorem Retried.signal_stirred {k n : Nat} {acts : List Signal.Act} {v u z : World ρ}
    {r : Except Error α} {e : Error} {delay : Option Nat} (hr : h.Retried stops w k acts v)
    (ha : x.attempt body v = (r, u)) (hp : x.policy e n u = (delay, z)) {front : List (Stir ρ)}
    (hfront : front <+: x.meanwhile.stirs z) :
    signal (Stir.disturb front z.signals) =
      (signal w.signals).after (acts ++ h.awake n e v u ++ h.stirred front z.signals) := by
  rw [h.signal_disturb fun s hs => hfront.subset hs, h.signal_awake ha hp, hr.signal_eq,
    Signal.after_append, Signal.after_append]

/-- From any attempt on, a call goes on to its end, if `stop` tells whether what was done so far
stops it. -/
theorem Retried.exists_ends (hx : x.Follows policy) {stop : Signal × ρ → Bool}
    (hstop : ∀ acts p, signal p = (signal w.signals).after acts → (stop p ↔ stops acts))
    {more n k : Nat} {acts : List Signal.Act} {v : World ρ} (hr : h.Retried stops w k acts v)
    (hn : n = k + 1) (hk : k + 1 ≤ max 1 policy.attempts) (hmore : policy.attempts ≤ n + more) :
    ∃ k acts u, k + 1 ≤ max 1 policy.attempts ∧ h.Retried stops w k acts u ∧
      h.Ends stops (max 1 policy.attempts) k acts u (x.retry stop body more n v) := by
  fun_induction Executor.retry x stop body more n v generalizing k acts with
  | case1 more n v a u ha => exact ⟨k, acts, v, hk, hr, .committed ha⟩
  | case2 more n v e u ha z hp =>
    subst hn
    refine ⟨k, acts, v, hk, hr, .givenUp ha hp fun he => ?_⟩
    have hle := hx.attempts_le_of_none (Nat.succ_pos k) hp he
    omega
  | case3 more n v e u ha delay z hp v' hv =>
    subst hn
    obtain ⟨hendless, hignored⟩ := Meanwhile.of_sleep_none hv
    have he := (hx.conflict_of_some (Nat.succ_pos k) hp).1
    refine ⟨k, acts, v, hk, hr, .asleep ha he hp hendless fun front hfront => ?_⟩
    exact mt (hstop _ _ (hr.signal_stirred ha hp hfront)).2 (hignored front hfront)
  | case4 more n v e u ha delay z hp up v' hv e' hwake =>
    subst hn
    obtain ⟨rfl, rfl⟩ := Signal.of_wake_error hwake
    obtain ⟨done, hcut, hheeded, hignored⟩ := Meanwhile.of_sleep_true hv
    have he := (hx.conflict_of_some (Nat.succ_pos k) hp).1
    have hstops := (hstop _ _ (hr.signal_stirred ha hp hcut.pre)).1 hheeded
    refine ⟨k, acts, v, hk, hr, .interrupted ha he hp hcut hstops fun front hfront hne => ?_⟩
    exact mt (hstop _ _ (hr.signal_stirred ha hp (hfront.trans hcut.pre))).2
      (hignored front hfront hne)
  | case5 n v e u ha delay z hp =>
    -- the policy would have given up
    subst hn
    exact absurd (hx.conflict_of_some (Nat.succ_pos k) hp).2 (Nat.not_lt.2 hmore)
  | case6 n v e u ha delay z hp up v' hv more hwake ih =>
    subst hn
    obtain ⟨he, hlt⟩ := hx.conflict_of_some (Nat.succ_pos k) hp
    obtain rfl := Signal.of_wake_ok hwake
    obtain ⟨done, hpassed, hignored⟩ := Meanwhile.of_sleep_false hv
    refine ih (hr.again ha he hp hpassed fun front hfront => ?_) rfl (by omega) (by omega)
    exact mt (hstop _ _ (hr.signal_stirred ha hp (hfront.trans hpassed.pre))).2
      (hignored front hfront)

/-- A whole call. -/
theorem exists_ends (h : x.Interference body signal) (hx : x.Follows policy)
    (hattempts : policy.attempts < UInt32.size) {stop : Signal × ρ → Bool} {w : World ρ}
    (hstop : ∀ acts p, signal p = (signal w.signals).after acts → (stop p ↔ stops acts)) :
    ∃ k acts v, k + 1 ≤ max 1 policy.attempts ∧ k + 1 < UInt32.size ∧
      h.Retried stops w k acts v ∧
      h.Ends stops (max 1 policy.attempts) k acts v
        (x.retry stop body (mostAttempts - 1) 1 w) := by
  have hmore : policy.attempts ≤ 1 + (mostAttempts - 1) := by
    have : mostAttempts = UInt32.size - 1 := rfl
    omega
  have hlt : max 1 policy.attempts < UInt32.size := Nat.max_lt.2 ⟨by decide, hattempts⟩
  have hstart : h.Retried stops w 0 [] w := .start
  obtain ⟨k, acts, v, hk, hr, hends⟩ :=
    hstart.exists_ends hx hstop rfl (Nat.le_max_left ..) hmore
  exact ⟨k, acts, v, hk, Nat.lt_of_le_of_lt hk hlt, hr, hends⟩

end Interference

/-- A call makes attempts `1` to `k + 1`, with `k + 1` at most what the policy allows, or one; the
number fits in 32 bits.  Each but the last fails with a conflict, and is followed by one question to
the policy, with its number, and one sleep, which puts the clock forward by what the policy said.
The call gives what the last attempt gives, or is interrupted in the sleep that follows it; a sleep
that reaches beyond the last instant of the clock ends only so.  With the signal of the world a
sleep is interrupted as soon as there is a raise since the call began, and with a token as soon as
there is a raise in all its history with no lowering after it; and not otherwise. -/
theorem retries_of_policy (hx : x.Follows policy) (hattempts : policy.attempts < UInt32.size)
    (body : Body ρ π α) (w : World ρ) :
    (∀ h : x.Interference body Prod.fst, ∃ k acts v,
      k + 1 ≤ max 1 policy.attempts ∧ k + 1 < UInt32.size ∧
      h.Retried (.raise ∈ ·) w k acts v ∧
      h.Ends (.raise ∈ ·) (max 1 policy.attempts) k acts v (x.execute body w)) ∧
    ∀ (token : ρ → Signal) (h : x.Interference body fun s => token s.2)
      (earlier : List Signal.Act), token w.extra = Signal.new.after earlier → ∃ k acts v,
      k + 1 ≤ max 1 policy.attempts ∧ k + 1 < UInt32.size ∧
      h.Retried (fun acts => Signal.LeftUp (earlier ++ acts)) w k acts v ∧
      h.Ends (fun acts => Signal.LeftUp (earlier ++ acts)) (max 1 policy.attempts) k acts v
        (x.executeWith token body w) := by
  constructor
  · intro h
    refine h.exists_ends hx hattempts fun acts p (hp : p.1 = w.signal.after acts) => ?_
    rw [hp, Signal.raisedSince_after_iff]
  · intro token h earlier hw
    refine h.exists_ends hx hattempts
      fun acts p (hp : token p.2 = (token w.extra).after acts) => ?_
    rw [hp, hw, ← Signal.after_append, Signal.isUp_after_iff]

/-! ## Calls that conflict and are disturbed -/

/-- What a caller shares with an executor: a count of attempts, and a token. -/
structure Tally where
  count : Nat
  token : Signal

/-- The same acts on the signal of the world and on the token. -/
def Tally.act (acts : List Signal.Act) (s : Signal × Tally) : Signal × Tally :=
  (s.1.after acts, { s.2 with token := s.2.token.after acts })

/-- Makes attempts that enlist nothing, and counts them.  In the sleep after attempt number `n` the
signals are raised at the times `raises n`, each reckoned from the one before. -/
def counting (policy : RetryPolicy) (raises : Nat → List Nat) : Executor Tally Overlay where
  bind w := (.ok [], { w with extra := { w.extra with count := w.extra.count + 1 } })
  policy e n w := (policy.delay? 0 e n, w)
  meanwhile :=
    ⟨fun w => (raises w.extra.count).map fun time => ⟨time, Tally.act [.raise]⟩,
      Meanwhile.lastInstant63⟩

theorem follows_counting (policy : RetryPolicy) (raises : Nat → List Nat) :
    (counting policy raises).Follows policy :=
  fun _ _ _ => ⟨0, rfl⟩

/-- A body that finds a conflict in every attempt; `script` says what is done to the signals
meanwhile. -/
def clash (script : Nat → List Signal.Act) : Body Tally Overlay Unit := fun ps w =>
  (.error (.conflict 1 1), ps, { w with
    signal := (Tally.act (script w.extra.count) w.signals).1
    extra := (Tally.act (script w.extra.count) w.signals).2 })

theorem signal_attempt_clash (policy : RetryPolicy) (raises : Nat → List Nat)
    (script : Nat → List Signal.Act) (w : World Tally) :
    ((counting policy raises).attempt (clash script) w).2.signal =
      w.signal.after (script (w.extra.count + 1)) := by
  simp only [attempt, counting, steps, actUntil, clash, fail, actAll, List.all_nil, if_true]
  split <;> rfl

/-- What is done to the signal meanwhile. -/
def clashInterference (policy : RetryPolicy) (raises : Nat → List Nat)
    (script : Nat → List Signal.Act) :
    (counting policy raises).Interference (clash script) Prod.fst where
  attempt w := script (w.extra.count + 1)
  question _ _ _ := []
  stir _ _ := [.raise]
  of_attempt {w r v} h := by
    show v.signal = w.signal.after _
    rw [← signal_attempt_clash policy raises, h]
  of_question {e n w r v} h := by
    obtain rfl : w = v := congrArg Prod.snd h
    rfl
  of_stir {w s} hs p := by
    obtain ⟨time, -, rfl⟩ := List.mem_map.1 hs
    rfl

/-- A world in which signal and token were raised once, and lowered again. -/
def lowered : World Tally :=
  { World.new Site.empty ⟨0, Signal.new.after [.raise, .lower]⟩ with
    signal := Signal.new.after [.raise, .lower] }

/-- What a call gives, after how many attempts and at what time. -/
def seen (r : Option (Except Error Unit) × World Tally) :
    Option (Except Error Unit) × Nat × Nat :=
  (r.1, r.2.extra.count, r.2.clock)

/-- Raises the signals in the second sleep, three nanoseconds after it began. -/
def inSecond (n : Nat) : List Nat := if n = 2 then [3] else []

/-- A raise in the second sleep cuts that short.  A raise before the call does not end it, and one
in the second attempt does, though the signal was lowered after each; a token goes by the lowering.
The longest sleep of all ends with a raise, or not at all. -/
theorem retries_of_policy_of_clash :
    (∃ k acts v, k + 1 ≤ 5 ∧
      (clashInterference (.fixed ⟨5, 7⟩) inSecond fun _ => []).Retried (.raise ∈ ·) lowered
        k acts v ∧
      (clashInterference (.fixed ⟨5, 7⟩) inSecond fun _ => []).Ends (.raise ∈ ·) 5 k acts v
        ((counting (.fixed ⟨5, 7⟩) inSecond).execute (clash fun _ => []) lowered)) ∧
    seen ((counting (.fixed ⟨5, 7⟩) inSecond).execute (clash fun _ => []) lowered) =
      (some (.error .interrupted), 2, 10) ∧
    (let x := counting (.fixed ⟨5, 7⟩) fun _ => []
      let body := clash fun n => if n = 2 then [.raise, .lower] else []
      seen (x.execute body lowered) = (some (.error .interrupted), 2, 7) ∧
        seen (x.executeWith Tally.token body lowered) = (some (.error (.conflict 1 1)), 5, 28)) ∧
    seen ((counting (.fixed ⟨5, longestDelay⟩) fun _ => [5]).execute
      (clash fun _ => []) lowered) = (some (.error .interrupted), 1, 5) ∧
    seen ((counting (.fixed ⟨5, longestDelay⟩) fun _ => []).execute
      (clash fun _ => []) lowered) = (none, 1, 0) := by
  refine ⟨?_, by decide +kernel, ⟨by decide +kernel, by decide +kernel⟩, by decide +kernel,
    by decide +kernel⟩
  obtain ⟨h, -⟩ := retries_of_policy (follows_counting (.fixed ⟨5, 7⟩) inSecond) (by decide)
    (clash fun _ => []) lowered
  obtain ⟨k, acts, v, hk, -, hr, hends⟩ := h (clashInterference ..)
  exact ⟨k, acts, v, hk, hr, hends⟩

end Executor

end NamespaceCatalog
