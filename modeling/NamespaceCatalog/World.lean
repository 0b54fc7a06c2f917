import NamespaceCatalog.Signal
import NamespaceCatalog.Site

/-!
# The world of a transaction

What transactions act on: a coordinator, a site with tables, the signal that cuts their sleeps
short, and the time.  `extra` is whatever else the parts of a program share.

A `Participant` is what a transaction enlists, and is aware of it.  It is started, says what it
changed, commits, and learns that the transaction committed; or it is rolled back.  Afterwards it is
told which versions are no longer needed.  An `Overlay` is a participant for its table.
-/

namespace NamespaceCatalog

/-- What transactions act on. -/
structure World (ρ : Type) where
  coordinator : Coordinator
  site : Site
  signal : Signal
  /-- The time, in nanoseconds. -/
  clock : Nat
  extra : ρ

namespace World

variable {ρ : Type}

/-- A world before its first transaction. -/
def new (site : Site) (extra : ρ) : World ρ := ⟨Coordinator.new, site, Signal.new, 0, extra⟩

/-- Lets time pass. -/
def wait (w : World ρ) (delay : Nat) : World ρ := { w with clock := w.clock + delay }

/-- The table with the given number. -/
def table (w : World ρ) (id : TableId) : Table := w.site.table id

/-- Puts a table back. -/
def putTable (w : World ρ) (id : TableId) (t : Table) : World ρ :=
  { w with site := w.site.putTable id t }

end World

/-- What a transaction enlists. -/
class Participant (ρ π : Type) where
  /-- Serves the transaction from now on. -/
  start : Transaction → π → World ρ → Except Error Unit × π × World ρ
  /-- The rows changed so far. -/
  changes : π → World ρ → List Bytes × π × World ρ
  /-- Installs what was written. -/
  commit : π → World ρ → Except Error Unit × π × World ρ
  /-- The transaction committed. -/
  post : π → World ρ → π × World ρ
  /-- Undoes what was written.  After a failure some of it may still be there. -/
  rollback : π → World ρ → Except Error Unit × π × World ρ
  /-- Drops what is no longer needed. -/
  reclaim : Horizon → π → World ρ → π × World ρ

instance {ρ : Type} : Participant ρ Overlay where
  start tx x w :=
    match x.start (w.table x.table) tx with
    | .ok x => (.ok (), x, w)
    | .error e => (.error e, x, w)
  changes x w := (x.changes (w.table x.table), x, w)
  commit x w :=
    let (r, y, t) := x.commit (w.table x.table)
    (r, y, w.putTable x.table t)
  post x w := (x.release, w)
  rollback x w :=
    let (y, t) := x.rollback (w.table x.table)
    (.ok (), y, w.putTable x.table t)
  reclaim h x w := (x, w.putTable x.table ((w.table x.table).prune h).2)

namespace Participant

variable {ρ : Type} {x y : Overlay} {w w' : World ρ} {r : Except Error Unit}

/-- An overlay commits at its table. -/
theorem of_commit (h : commit x w = (r, y, w')) :
    ∃ t, x.commit (w.table x.table) = (r, y, t) ∧ w' = w.putTable x.table t := by
  cases h
  exact ⟨_, rfl, rfl⟩

/-- An overlay rolls back at its table, and that does not fail. -/
theorem of_rollback (h : rollback x w = (r, y, w')) :
    ∃ t, r = .ok () ∧ x.rollback (w.table x.table) = (y, t) ∧ w' = w.putTable x.table t := by
  cases h
  exact ⟨_, rfl, rfl, rfl⟩

end Participant

end NamespaceCatalog
