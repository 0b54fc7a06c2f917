import NamespaceCatalog.Table.Basic

/-!
# A remembered table

A table cache: who uses one table over and over remembers it, and asks for it again after some time.
A failure to get it is reported and not remembered.
-/

namespace NamespaceCatalog

/-- A table that is remembered for some time. -/
structure Cached where
  /-- The name of the table. -/
  name : String
  /-- How long the table is remembered, in nanoseconds. -/
  ttl : Nat
  /-- The table, and when it was asked for. -/
  slot : Option (TableId × Nat)
  deriving DecidableEq, Repr

namespace Cached

/-- Nothing is remembered. -/
def empty (name : String) (ttl : Nat) : Cached := ⟨name, ttl, none⟩

/-- The table, if it is remembered at the time `now`. -/
def fresh? (c : Cached) (now : Nat) : Option TableId :=
  match c.slot with
  | some (id, time) => if now - time < c.ttl then some id else none
  | none => none

/-- Forgets the table. -/
def invalidate (c : Cached) : Cached := { c with slot := none }

/-- The table at the time `now`, which `fetch` asks for if it is not remembered. -/
def get {σ : Type} (c : Cached) (now : Nat) (fetch : σ → Except Error TableId × σ) (s : σ) :
    Except Error TableId × Cached × σ :=
  match c.fresh? now with
  | some id => (.ok id, c, s)
  | none =>
    match fetch s with
    | (.error e, s) => (.error (.initialization c.name e), c, s)
    | (.ok id, s) => (.ok id, { c with slot := some (id, now) }, s)

@[simp] theorem fresh?_invalidate (c : Cached) (now : Nat) : c.invalidate.fresh? now = none := rfl

theorem get_of_fresh {σ : Type} {c : Cached} {now : Nat} {id : TableId} (h : c.fresh? now = some id)
    (fetch : σ → Except Error TableId × σ) (s : σ) : c.get now fetch s = (.ok id, c, s) := by
  simp [get, h]

/-- The remembered table as diagnostics show it. -/
def describe (c : Cached) : String :=
  "TableCache \x7b name: " ++ Text.quoted c.name ++ ", ttl: " ++ Text.duration c.ttl ++
    ", cached: " ++ Text.word c.slot.isSome ++ " \x7d"

end Cached

end NamespaceCatalog
