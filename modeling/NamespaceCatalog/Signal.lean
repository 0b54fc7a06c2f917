import NamespaceCatalog.Error

/-!
# Signals

A signal is an interrupt: it cuts sleeps short.  It counts how often it was raised; lowering it
remembers the count.  A token owned by one caller is up if it was raised since it was last lowered
(`isUp`).  A watch on a shared signal is the count at some moment, and only raises after that moment
concern it (`raisedSince`), so that a raise ends what is running then and nothing that starts later.
-/

namespace NamespaceCatalog

/-- A signal. -/
structure Signal where
  /-- How often the signal was raised. -/
  raises : Nat
  /-- How often it had been raised when it was last lowered. -/
  lowered : Nat
  deriving DecidableEq, Repr

namespace Signal

/-- A signal that was never raised. -/
def new : Signal := ⟨0, 0⟩

/-- The signal after a raise. -/
def raise (s : Signal) : Signal := { s with raises := s.raises + 1 }

/-- The signal after it is lowered. -/
def lower (s : Signal) : Signal := { s with lowered := s.raises }

/-- Was the signal raised since it was last lowered? -/
def isUp (s : Signal) : Bool := s.lowered < s.raises

/-- A watch on the signal from this moment on. -/
def watch (s : Signal) : Nat := s.raises

/-- Was the signal raised since the watch began? -/
def raisedSince (s : Signal) (watch : Nat) : Bool := watch < s.raises

@[simp] theorem isUp_lower (s : Signal) : s.lower.isUp = false := by
  simp [lower, isUp]

@[simp] theorem raisedSince_watch (s : Signal) : s.raisedSince s.watch = false := by
  simp [raisedSince, watch]

@[simp] theorem raisedSince_raise_watch (s : Signal) : s.raise.raisedSince s.watch = true := by
  simp [raisedSince, watch, raise]

@[simp] theorem watch_lower (s : Signal) : s.lower.watch = s.watch := rfl

/-- The outcome of a sleep at whose end the sleeper finds the signal up or not. -/
def wake (up : Bool) : Except Error Unit := if up then .error .interrupted else .ok ()

end Signal

end NamespaceCatalog
