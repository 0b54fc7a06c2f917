import NamespaceCatalog.Catalog.Operation
import NamespaceCatalog.Config
import NamespaceCatalog.Executor
import NamespaceCatalog.Record.Rows
import NamespaceCatalog.Table.Cached

/-!
# Catalogs

A catalog is a namespace store.  It keeps the records of namespaces in a table, and runs each
operation as a transaction.  The names an operation mentions are checked before a transaction
starts.

The table is asked for by its name, and remembered; where it comes from is up to `Catalog.fetch`.
Records are stored in the format of the settings, by the library for it.  An operation gives nothing
if it falls asleep between two attempts and never wakes up.
-/

namespace NamespaceCatalog

/-- What a catalog keeps in the world: its table, as it remembers it. -/
structure Backing (ρ : Type) where
  cached : Cached
  rest : ρ

/-- A catalog. -/
structure Catalog (ρ : Type) where
  config : Config
  /-- The library for each data format. -/
  libraries : Format → DataFormat
  /-- Gets the table with the given name. -/
  fetch : String → World (Backing ρ) → Except Error TableId × World (Backing ρ)
  /-- Says after a failed attempt how long to sleep before the next one. -/
  policy : Error → Nat → World (Backing ρ) → Option Nat × World (Backing ρ)
  /-- What others do while an operation sleeps. -/
  meanwhile : Meanwhile (Backing ρ)

namespace Catalog

variable {ρ α : Type}

/-- The stored form of records. -/
def codec (c : Catalog ρ) : Codec := c.config.format.codec c.libraries

/-- Nothing is remembered. -/
def backing (c : Config) (rest : ρ) : Backing ρ := ⟨Cached.empty c.tableName c.ttl, rest⟩

/-- The table, remembered or asked for. -/
def table (c : Catalog ρ) (w : World (Backing ρ)) : Except Error TableId × World (Backing ρ) :=
  let cached := w.extra.cached
  let (r, cached, w) := cached.get w.clock (c.fetch cached.name) w
  (r, { w with extra := { w.extra with cached } })

/-- Each attempt works with an overlay over the table. -/
def executor (c : Catalog ρ) : Executor (Backing ρ) Overlay where
  bind w :=
    let (r, w) := c.table w
    (r.map fun id => [Overlay.ofTable id], w)
  policy := c.policy
  meanwhile := c.meanwhile

/-- Runs a transaction on the table. -/
def run (c : Catalog ρ) (f : Overlay → Table → Except Error (α × Overlay))
    (w : World (Backing ρ)) : Option (Except Error α) × World (Backing ρ) :=
  c.executor.execute (Overlay.body f) w

/-! ## Operations inside a transaction -/

/-- Writes the record unless there is one, which is then given. -/
def createRow (c : Codec) (id : Id) (r : Record) (x : Overlay) (t : Table) :
    Except Error (Option Record × Overlay) :=
  match Rows.get c id x t with
  | .error e => .error e
  | .ok (some old) => .ok (some old, x)
  | .ok none => (Rows.create c r x).map (none, ·)

/-- Writes the record if there is one. -/
def updateRow (c : Codec) (id : Id) (r : Record) (x : Overlay) (t : Table) :
    Except Error (Bool × Overlay) :=
  match Rows.exists? c id x t with
  | .error e => .error e
  | .ok false => .ok (false, x)
  | .ok true => (Rows.create c r x).map (true, ·)

/-- Removes the record if there is one, which is then given. -/
def deleteRow (c : Codec) (id : Id) (x : Overlay) (t : Table) :
    Except Error (Option Record × Overlay) :=
  match Rows.get c id x t with
  | .error e => .error e
  | .ok none => .ok (none, x)
  | .ok (some old) => (Rows.delete id x t).map (some old, ·)

/-! ## Operations -/

/-- Adds a record unless there is one of that name, which is then given. -/
def create (c : Catalog ρ) (r : Record) (w : World (Backing ρ)) :
    Option (Except Error (Option Record)) × World (Backing ρ) :=
  match r.id with
  | .error fault => (some (.error (.validation fault)), w)
  | .ok id => c.run (createRow c.codec id r) w

/-- Replaces the record of that name, if there is one. -/
def update (c : Catalog ρ) (r : Record) (w : World (Backing ρ)) :
    Option (Except Error Bool) × World (Backing ρ) :=
  match r.id with
  | .error fault => (some (.error (.validation fault)), w)
  | .ok id => c.run (updateRow c.codec id r) w

/-- The record of a namespace. -/
def get (c : Catalog ρ) (id : Id) (w : World (Backing ρ)) :
    Option (Except Error (Option Record)) × World (Backing ρ) :=
  c.run (fun x t => (Rows.get c.codec id x t).map (·, x)) w

/-- Removes the record of a namespace, and gives it. -/
def delete (c : Catalog ρ) (id : Id) (w : World (Backing ρ)) :
    Option (Except Error (Option Record)) × World (Backing ρ) :=
  c.run (deleteRow c.codec id) w

/-- All records, in the order of their names. -/
def list (c : Catalog ρ) (w : World (Backing ρ)) :
    Option (Except Error (List Record)) × World (Backing ρ) :=
  c.run (fun x t => (Rows.list c.codec x t).map (·, x)) w

/-- Answers an operation. -/
def serve (c : Catalog ρ) (op : Operation) (w : World (Backing ρ)) :
    Option (Except Error Outcome) × World (Backing ρ) :=
  match op with
  | .create r =>
    let (a, w) := c.create r w
    (a.map (·.map .record), w)
  | .update r =>
    let (a, w) := c.update r w
    (a.map (·.map fun _ => .done), w)
  | .get name =>
    match Id.ofName name with
    | .error fault => (some (.error (.validation fault)), w)
    | .ok id =>
      let (a, w) := c.get id w
      (a.map (·.map .record), w)
  | .delete name =>
    match Id.ofName name with
    | .error fault => (some (.error (.validation fault)), w)
    | .ok id =>
      let (a, w) := c.delete id w
      (a.map (·.map .record), w)
  | .list =>
    let (a, w) := c.list w
    (a.map (·.map .records), w)

/-- A catalog as diagnostics show it. -/
def describe (c : Config) (coordinator : Coordinator) : String :=
  "DefaultNamespaceStore \x7b table: " ++ Text.quoted c.tableName ++ ", retry: " ++
    c.retry.describe ++ ", manager: " ++ coordinator.describe ++ ", .. \x7d"

end Catalog

end NamespaceCatalog
