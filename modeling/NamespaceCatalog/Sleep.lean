import NamespaceCatalog.World

/-!
# Sleeps

Whoever sleeps is woken when the time is over, or earlier, when a signal is up.  Meanwhile others
raise and lower signals, and after each such `Stir` the sleeper looks whether it is to stop.  A
sleep whose end lies beyond the last instant of the clock has no end of its own: only a signal ends
it.
-/

namespace NamespaceCatalog

variable {ρ : Type}

/-- What is done to signals at one moment of a sleep. -/
structure Stir (ρ : Type) where
  /-- The time since the stir before, or since the sleep began. -/
  after : Nat
  act : Signal × ρ → Signal × ρ

namespace World

/-- What a stir acts on: the signal of the world, and whatever else there is. -/
def signals (w : World ρ) : Signal × ρ := (w.signal, w.extra)

/-- Lets time pass up to a stir. -/
def stir (w : World ρ) (s : Stir ρ) : World ρ :=
  { w with
    signal := (s.act w.signals).1
    extra := (s.act w.signals).2
    clock := w.clock + s.after }

/-- Sleeps for the time that is left; if none is given, the sleep has no end of its own.  The
sleeper looks whether it is to stop when it falls asleep and after each stir.  It wakes up knowing
whether it is, or it never does. -/
def sleep (stop : Signal × ρ → Bool) : (left : Option Nat) → List (Stir ρ) → World ρ →
    Option Bool × World ρ
  | left, [], w =>
    if stop w.signals then (some true, w)
    else
      match left with
      | none => (none, w)
      | some d => (some false, w.wait d)
  | left, s :: stirs, w =>
    if stop w.signals then (some true, w)
    else
      match left with
      | none => sleep stop none stirs (w.stir s)
      | some d =>
        if s.after ≤ d then sleep stop (some (d - s.after)) stirs (w.stir s)
        else (some false, w.wait d)

/-- A sleep touches nothing but signals. -/
theorem sleep_eq (stop : Signal × ρ → Bool) (left : Option Nat) (stirs : List (Stir ρ))
    (w : World ρ) :
    (w.sleep stop left stirs).2.coordinator = w.coordinator ∧
      (w.sleep stop left stirs).2.site = w.site := by
  fun_induction sleep stop left stirs w with
  | case1 | case2 | case3 | case4 | case7 => exact ⟨rfl, rfl⟩
  | case5 s stirs w _ ih => exact ih
  | case6 s stirs w _ d _ ih => exact ih

end World

/-- What goes on while somebody sleeps. -/
structure Meanwhile (ρ : Type) where
  /-- What is done from now on, for as long as a sleep lasts. -/
  stirs : World ρ → List (Stir ρ)
  /-- The last instant that the clock can tell. -/
  lastInstant : Nat

namespace Meanwhile

/-- The last instant of a clock that counts seconds in 63 bits. -/
def lastInstant63 : Nat := 0x7fffffffffffffff * 1000000000 + 999999999

/-- Nobody does anything. -/
def quiet : Meanwhile ρ := ⟨fun _ => [], lastInstant63⟩

/-- The time after which a sleep is over; none if the clock cannot tell it. -/
def left (m : Meanwhile ρ) (delay : Nat) (w : World ρ) : Option Nat :=
  if w.clock + delay ≤ m.lastInstant then some delay else none

/-- Sleeps for `delay`, unless it is to stop. -/
def sleep (m : Meanwhile ρ) (stop : Signal × ρ → Bool) (delay : Nat) (w : World ρ) :
    Option Bool × World ρ :=
  w.sleep stop (m.left delay w) (m.stirs w)

variable {m : Meanwhile ρ} {stop : Signal × ρ → Bool} {delay : Nat} {w v : World ρ}
  {r : Option Bool}

theorem coordinator_eq (h : m.sleep stop delay w = (r, v)) : v.coordinator = w.coordinator := by
  have := (World.sleep_eq stop (m.left delay w) (m.stirs w) w).1
  rwa [show w.sleep stop (m.left delay w) (m.stirs w) = (r, v) from h] at this

theorem site_eq (h : m.sleep stop delay w = (r, v)) : v.site = w.site := by
  have := (World.sleep_eq stop (m.left delay w) (m.stirs w) w).2
  rwa [show w.sleep stop (m.left delay w) (m.stirs w) = (r, v) from h] at this

theorem sleep_quiet (h : w.clock + delay ≤ lastInstant63) (hs : stop w.signals = false) :
    quiet.sleep stop delay w = (some false, w.wait delay) := by
  simp [sleep, left, quiet, h, World.sleep, hs]

end Meanwhile

end NamespaceCatalog
