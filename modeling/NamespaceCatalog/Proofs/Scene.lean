import Mathlib.Logic.Relation
import NamespaceCatalog.Proofs.Chronicle
import NamespaceCatalog.Proofs.Versions

/-!
# Scenes

A scene is a coordinator and the tables that its transactions work on.  An actor is a transaction
with an overlay for each table.  `Step` says what can happen next: any actor takes its next step, in
the order in which an executor lets it take them, or a table is pruned with a horizon taken before,
or invalidated transactions are forgotten of which no table holds versions.  A table may fail to
install what an actor wrote, whenever its journal fails.

`Scene.rowsBefore n` are the rows that the commits with numbers below `n` leave, one after the other
on the rows the tables were opened with.  `Inv` is what holds after every run.
-/

namespace NamespaceCatalog

/-! ## Actors -/

/-- How far an actor has come. -/
inductive Progress
  /-- The body of the transaction runs. -/
  | working
  /-- Its rows are reserved, and it installs them. -/
  | reserved
  /-- Something failed, and it is rolled back. -/
  | failing
  /-- It is committed, aborted or invalidated. -/
  | over
  deriving DecidableEq, Repr

/-- A transaction and its overlays. -/
structure Actor where
  tx : Transaction
  progress : Progress
  /-- The tables it enlisted, the last one first. -/
  started : List TableId
  overlays : TableId → Overlay

namespace Actor

/-- A transaction that has done nothing yet. -/
def ofTransaction (tx : Transaction) : Actor := ⟨tx, .working, [], Overlay.ofTable⟩

/-- The actor with another overlay for a table. -/
def put (a : Actor) (t : TableId) (x : Overlay) : Actor :=
  { a with overlays := Function.update a.overlays t x }

/-- The rows that the actor changes. -/
def changes (a : Actor) (tables : TableId → Table) : ChangeSet :=
  .ofList (a.started.flatMap fun t => (a.overlays t).changes (tables t))

/-- The version of a row that the actor has installed, if it has. -/
def own (a : Actor) (t : TableId) (key : Bytes) : List Version :=
  if (a.overlays t).installed then
    ((a.overlays t).buffer[key]?.map fun v => ⟨a.tx.id, v⟩).toList
  else []

end Actor

/-! ## Scenes -/

/-- A coordinator, the tables, and who works on them. -/
structure Scene where
  chronicle : Chronicle
  tables : TableId → Table
  actors : TxId → Option Actor
  /-- The horizons taken so far. -/
  horizons : List Horizon
  /-- The rows that each committed transaction wrote to a table. -/
  written : TxId → TableId → List RowWrite
  /-- The rows that the tables were opened with. -/
  base : TableId → Std.ExtTreeMap Bytes Bytes

namespace Scene

/-- The scene before the first transaction.  The tables hold the rows `base`, and write to the
journals `logs`. -/
def opened (names : TableId → String) (base : TableId → Std.ExtTreeMap Bytes Bytes)
    (logs : TableId → Option LogWriter) : Scene where
  chronicle := .new
  tables t := ⟨names t, Table.baseRows (base t), ∅, logs t⟩
  actors _ := none
  horizons := []
  written _ _ := []
  base := base

/-- The coordinator. -/
def coordinator (s : Scene) : Coordinator := s.chronicle.coordinator

/-- Lets the coordinator answer a request. -/
def ask (s : Scene) (r : Request) : Scene := { s with chronicle := s.chronicle.serve r }

/-- The scene with another state of an actor. -/
def put (s : Scene) (i : TxId) (a : Actor) : Scene :=
  { s with actors := Function.update s.actors i (some a) }

/-- The scene with another state of a table. -/
def putTable (s : Scene) (t : TableId) (table : Table) : Scene :=
  { s with tables := Function.update s.tables t table }

theorem actors_put_self (s : Scene) (i : TxId) (a : Actor) : (s.put i a).actors i = some a :=
  Function.update_self ..

theorem actors_put_of_ne (s : Scene) {i j : TxId} (h : j ≠ i) (a : Actor) :
    (s.put i a).actors j = s.actors j :=
  Function.update_of_ne h ..

theorem actors_put_cases {s : Scene} {i j : TxId} {a b : Actor}
    (h : (s.put j b).actors i = some a) : i = j ∧ a = b ∨ i ≠ j ∧ s.actors i = some a := by
  by_cases e : i = j
  · subst e
    rw [actors_put_self, Option.some.injEq] at h
    exact .inl ⟨rfl, h.symm⟩
  · rw [actors_put_of_ne s e] at h
    exact .inr ⟨e, h⟩

/-- The rows that the commits with numbers below `n` leave. -/
def rowsBefore (s : Scene) (n : Nat) (t : TableId) : Std.ExtTreeMap Bytes Bytes :=
  ((s.chronicle.commits.filter (·.pointer < n)).flatMap fun k => s.written k.id t).foldl
    Table.applyWrite (s.base t)

/-- What happens in a scene: which actor takes which step, at which table. -/
inductive Event
  | begin
  | start (i : TxId) (t : TableId)
  | perform (i : TxId) (t : TableId) (op : TableOperation) (answer : TableAnswer)
  | reserve (i : TxId)
  | refuse (i : TxId)
  | install (i : TxId) (t : TableId)
  | failInstall (i : TxId) (t : TableId)
  | commit (i : TxId)
  | post (i : TxId) (t : TableId)
  | fail (i : TxId)
  | rollback (i : TxId) (t : TableId)
  | abort (i : TxId)
  | invalidate (i : TxId)
  | takeHorizon
  | prune (t : TableId)
  | forget

/-- What can happen next. -/
inductive Step : Scene → Event → Scene → Prop
  | begin (s : Scene) :
    Step s .begin ((s.ask .begin).put s.coordinator.next (.ofTransaction s.coordinator.begin.1))
  /-- An overlay starts to serve the transaction. -/
  | start {s : Scene} {i : TxId} {a : Actor} {t : TableId} {x : Overlay}
    (ha : s.actors i = some a) (hp : a.progress = .working)
    (hx : (a.overlays t).start (s.tables t) a.tx = .ok x) :
    Step s (.start i t) (s.put i { a.put t x with started := t :: a.started })
  | perform {s : Scene} {i : TxId} {a : Actor} {t : TableId} {op : TableOperation}
    {answer : TableAnswer} {x : Overlay}
    (ha : s.actors i = some a) (hp : a.progress = .working)
    (hx : (a.overlays t).perform op (s.tables t) = .ok (answer, x)) :
    Step s (.perform i t op answer) (s.put i (a.put t x))
  | reserve {s : Scene} {i : TxId} {a : Actor}
    (ha : s.actors i = some a) (hp : a.progress = .working)
    (hr : (s.coordinator.reserve a.tx (a.changes s.tables)).1 = .ok ()) :
    Step s (.reserve i)
      ((s.ask (.reserve a.tx (a.changes s.tables))).put i { a with progress := .reserved })
  | refuse {s : Scene} {i : TxId} {a : Actor} {e : Error}
    (ha : s.actors i = some a) (hp : a.progress = .working)
    (hr : (s.coordinator.reserve a.tx (a.changes s.tables)).1 = .error e) :
    Step s (.refuse i)
      ((s.ask (.reserve a.tx (a.changes s.tables))).put i { a with progress := .failing })
  /-- A table installs what the actor wrote to it. -/
  | install {s : Scene} {i : TxId} {a : Actor} {t : TableId} {x : Overlay} {table : Table}
    (ha : s.actors i = some a) (hp : a.progress = .reserved)
    (hn : (a.overlays t).installed = false)
    (hx : (a.overlays t).commit (s.tables t) = (.ok (), x, table)) :
    Step s (.install i t) ((s.putTable t table).put i (a.put t x))
  | failInstall {s : Scene} {i : TxId} {a : Actor} {t : TableId} {e : Error} {x : Overlay}
    {table : Table}
    (ha : s.actors i = some a) (hp : a.progress = .reserved)
    (hn : (a.overlays t).installed = false)
    (hx : (a.overlays t).commit (s.tables t) = (.error e, x, table)) :
    Step s (.failInstall i t) ((s.putTable t table).put i { a.put t x with progress := .failing })
  | commit {s : Scene} {i : TxId} {a : Actor} {pointer : Nat} {tx : Transaction} {c : Coordinator}
    (ha : s.actors i = some a) (hp : a.progress = .reserved)
    (hall : ∀ t, (a.overlays t).buffer = ∅ ∨ (a.overlays t).installed = true)
    (hc : s.coordinator.commit a.tx = .ok (pointer, tx, c)) :
    Step s (.commit i) { (s.ask (.commit a.tx)).put i { a with tx, progress := .over } with
      written := Function.update s.written i fun t => (a.overlays t).buffer.toList }
  /-- A table learns that the transaction is over. -/
  | post {s : Scene} {i : TxId} {a : Actor} {t : TableId}
    (ha : s.actors i = some a) (hp : a.progress = .over) :
    Step s (.post i t) (s.put i (a.put t (a.overlays t).release))
  /-- The body fails, or whatever else may fail. -/
  | fail {s : Scene} {i : TxId} {a : Actor}
    (ha : s.actors i = some a) (hp : a.progress = .working ∨ a.progress = .reserved) :
    Step s (.fail i) (s.put i { a with progress := .failing })
  | rollback {s : Scene} {i : TxId} {a : Actor} {t : TableId} {x : Overlay} {table : Table}
    (ha : s.actors i = some a) (hp : a.progress = .failing)
    (hx : (a.overlays t).rollback (s.tables t) = (x, table)) :
    Step s (.rollback i t) ((s.putTable t table).put i (a.put t x))
  | abort {s : Scene} {i : TxId} {a : Actor} {tx : Transaction} {c : Coordinator}
    (ha : s.actors i = some a) (hp : a.progress = .failing)
    (hall : ∀ t, (a.overlays t).installed = false)
    (hc : s.coordinator.abort a.tx = .ok (tx, c)) :
    Step s (.abort i) ((s.ask (.abort a.tx)).put i { a with tx, progress := .over })
  /-- The actor gives up, with what it installed still in place. -/
  | invalidate {s : Scene} {i : TxId} {a : Actor}
    (ha : s.actors i = some a) (hp : a.progress = .failing) :
    Step s (.invalidate i) ((s.ask (.invalidate a.tx)).put i
      { a with tx := (s.coordinator.invalidate a.tx).1, progress := .over })
  | takeHorizon (s : Scene) :
    Step s .takeHorizon { s with horizons := s.coordinator.horizon :: s.horizons }
  | prune {s : Scene} {h : Horizon} (hh : h ∈ s.horizons) (t : TableId) :
    Step s (.prune t) (s.putTable t ((s.tables t).prune h).2)
  | forget {s : Scene} {ids : List TxId}
    (hids : ∀ id ∈ ids, ∀ t key, ∀ v ∈ (s.tables t).versions key, v.writer ≠ id) :
    Step s .forget (s.ask (.forgetInvalid ids))

/-- One scene after another, with any number of steps between. -/
def Steps : Scene → Scene → Prop := Relation.ReflTransGen fun s d => ∃ e, Step s e d

/-- What happened so far, the latest first, each with the scene before it. -/
abbrev Trace := List (Scene × Event)

/-- A run of steps from a scene. -/
inductive Run (s : Scene) : Trace → Scene → Prop
  | refl : Run s [] s
  | tail {tr : Trace} {d d' : Scene} {e : Event} (h : Run s tr d) (hd : Step d e d') :
    Run s ((d, e) :: tr) d'

theorem Run.trans {s d d' : Scene} {tr tr' : Trace} (h : Run s tr d) (h' : Run d tr' d') :
    Run s (tr' ++ tr) d' := by
  induction h' with
  | refl => exact h
  | tail _ hd ih => exact ih.tail hd

theorem Run.steps {s d : Scene} {tr : Trace} (h : Run s tr d) : Steps s d := by
  induction h with
  | refl => exact .refl
  | tail _ hd ih => exact ih.tail ⟨_, hd⟩

end Scene

/-! ## Actors that may still commit -/

/-- May the actor still commit? -/
def Actor.MayCommit (a : Actor) : Prop := a.progress = .working ∨ a.progress = .reserved

theorem Actor.MayCommit.progress_ne {a : Actor} (h : a.MayCommit) : a.progress ≠ .over := by
  rintro e
  simp [MayCommit, e] at h

/-! ## The invariant -/

/-- Is `w` a writer whose versions a table may hold? -/
def Chronicle.Knows (c : Chronicle) (w : Nat) : Prop :=
  w = TxId.base ∨ (∃ k ∈ c.commits, k.id = w) ∨ w ∈ c.coordinator.inProgress ∨
    w ∈ c.coordinator.invalid

/-- What holds of a running transaction with the number `i`. -/
structure Actor.Fits (a : Actor) (c : Chronicle) (tables : TableId → Table) (i : Nat) : Prop where
  id : a.tx.id = i
  readPointer : a.tx.readPointer < i
  attached : ∀ t, (a.overlays t).tx = some a.tx ∧ t ∈ a.started ∨
    (a.overlays t).tx = none ∧ (a.overlays t).buffer = ∅ ∧ (a.overlays t).installed = false
  working : a.progress = .working → ∀ t, (a.overlays t).installed = false
  held : ∀ t, a.progress = .reserved ∨ (a.overlays t).installed = true →
    ∀ key ∈ (a.overlays t).buffer, Overlay.rowId (tables t).name key ∈ c.held i
  own : ∀ t key, ∃ others, (tables t).versions key = a.own t key ++ others ∧
    ∀ v ∈ others, v.writer ≠ i
  sees : ∀ w, c.Knows w → w ≠ i → a.tx.sees w = c.isBefore i w

/-- What holds of a horizon after it was taken. -/
structure Horizon.Past (h : Horizon) (c : Chronicle) : Prop where
  settled : ∀ w : Nat, h.isSettled w → w = TxId.base ∨
    w ∉ c.coordinator.inProgress ∧ w ∉ c.coordinator.invalid ∧ w < c.coordinator.next ∧
      ∀ k ∈ c.commits, k.id = w → ∀ i : Nat, i ∈ c.coordinator.inProgress → k.pointer < i
  dead : ∀ w : Nat, h.isDead w →
    0 < w ∧ w < c.coordinator.next ∧ w ∉ c.coordinator.inProgress ∧ ∀ k ∈ c.commits, k.id ≠ w

namespace Scene

/-- What holds after every run. -/
structure Inv (s : Scene) : Prop where
  chronicle : s.chronicle.Inv
  invalid : ∀ w : Nat, w ∈ s.coordinator.invalid → 0 < w ∧ w < s.coordinator.next ∧
    w ∉ s.coordinator.inProgress ∧ ∀ k ∈ s.chronicle.commits, k.id ≠ w
  running : ∀ i : Nat, i ∈ s.coordinator.inProgress ↔
    ∃ a, s.actors i = some a ∧ a.progress ≠ .over
  fits : ∀ i a, s.actors i = some a → a.progress ≠ .over → a.Fits s.chronicle s.tables i
  writers : ∀ t key, ∀ v ∈ (s.tables t).versions key, s.chronicle.Knows v.writer
  horizons : ∀ h ∈ s.horizons, h.Past s.chronicle
  values : ∀ n : Nat, n ∈ s.coordinator.inProgress ∨ n = s.coordinator.next → ∀ t key,
    Version.newest (s.chronicle.isBefore n) ((s.tables t).versions key) = (s.rowsBefore n t)[key]?
  written : ∀ k ∈ s.chronicle.commits, ∀ t, ∀ w ∈ s.written k.id t,
    Overlay.rowId (s.tables t).name w.1 ∈ k.changes

end Scene

end NamespaceCatalog
