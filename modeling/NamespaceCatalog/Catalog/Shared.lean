import NamespaceCatalog.Catalog.Basic
import NamespaceCatalog.Record.Sample
import NamespaceCatalog.Table.Supplier

/-!
# Catalogs that share

Several catalogs may share a site, and each uses one of several coordinators and one of several
suppliers of tables.  `Tenant.serve` runs an operation of such a catalog.  Catalogs with the same
coordinator and the same table act on the same records.
-/

namespace NamespaceCatalog

/-- What catalogs share. -/
structure Commons where
  site : Site
  clock : Nat
  coordinators : Array Coordinator
  suppliers : Array Supplier

namespace Commons

/-- Nothing to share yet. -/
def empty : Commons := ⟨Site.empty, 0, #[], #[]⟩

/-- Adds a coordinator, and gives its number. -/
def addCoordinator (c : Commons) : Nat × Commons :=
  (c.coordinators.size, { c with coordinators := c.coordinators.push Coordinator.new })

/-- Adds a supplier, and gives its number. -/
def addSupplier (c : Commons) (p : Supplier) : Nat × Commons :=
  (c.suppliers.size, { c with suppliers := c.suppliers.push p })

/-- The coordinator number `k`; one that was never added is new. -/
def coordinator (c : Commons) (k : Nat) : Coordinator := c.coordinators.getD k Coordinator.new

/-- Puts a coordinator back. -/
def putCoordinator (c : Commons) (k : Nat) (x : Coordinator) : Commons :=
  { c with coordinators := c.coordinators.setIfInBounds k x }

/-- Asks the supplier number `k` for a table. -/
def getTable (c : Commons) (k : Nat) (name : String) : Except Error TableId × Commons :=
  match c.suppliers[k]? with
  | none => (.error .storeLocked, c)
  | some p =>
    let (r, p, site) := p.get c.site name
    (r, { c with site, suppliers := c.suppliers.setIfInBounds k p })

/-- Closes the supplier number `k`. -/
def closeSupplier (c : Commons) (k : Nat) : Commons :=
  match c.suppliers[k]? with
  | none => c
  | some p =>
    let (p, site) := p.close c.site
    { c with site, suppliers := c.suppliers.setIfInBounds k p }

/-- Closes the suppliers that nobody uses. -/
def closeUnused (c : Commons) (used : List Nat) : Commons :=
  ((List.range c.suppliers.size).filter fun k => !used.contains k).foldl closeSupplier c

end Commons

/-- A catalog among others. -/
structure Tenant where
  config : Config
  cached : Cached
  signal : Signal
  supplier : Nat
  coordinator : Nat

namespace Tenant

/-- A catalog that uses the given supplier and coordinator. -/
def new (config : Config) (supplier coordinator : Nat) : Tenant :=
  ⟨config, Cached.empty config.tableName config.ttl, Signal.new, supplier, coordinator⟩

/-- The catalog after its signal was raised. -/
def interrupt (k : Tenant) : Tenant := { k with signal := k.signal.raise }

section Serve

variable {ρ : Type}

/-- The world of the catalog; its own parts of what is shared are taken out. -/
abbrev Surroundings (ρ : Type) := World (Backing (Commons × ρ))

/-- What is shared, with the catalog's own parts put back. -/
def commons (k : Tenant) (w : Surroundings ρ) : Commons :=
  { w.extra.rest.1.putCoordinator k.coordinator w.coordinator with
    site := w.site
    clock := w.clock }

/-- Lets a step act on all that is shared. -/
def share {α : Type} (k : Tenant) (f : Commons × ρ → α × Commons × ρ) (w : Surroundings ρ) :
    α × Surroundings ρ :=
  let (a, c, r) := f (k.commons w, w.extra.rest.2)
  (a,
    { w with
      site := c.site
      clock := c.clock
      coordinator := c.coordinator k.coordinator
      extra := { w.extra with rest := (c, r) } })

/-- A catalog that gets its table from the supplier. -/
def catalog (k : Tenant) (policy : Error → Nat → Commons × ρ → Option Nat × Commons × ρ) :
    Catalog (Commons × ρ) where
  config := k.config
  libraries := Sample.libraries
  fetch name :=
    k.share fun (c, r) =>
      let (a, c) := c.getTable k.supplier name
      (a, c, r)
  policy e attempt := k.share (policy e attempt)
  meanwhile := .quiet

/-- The world of the catalog among what is shared. -/
def world (k : Tenant) (c : Commons) (r : ρ) : Surroundings ρ :=
  ⟨c.coordinator k.coordinator, c.site, k.signal, c.clock, ⟨k.cached, c, r⟩⟩

/-- Answers an operation. -/
def serve (k : Tenant) (policy : Error → Nat → Commons × ρ → Option Nat × Commons × ρ)
    (op : Operation) (c : Commons) (r : ρ) : Except Error Outcome × Tenant × Commons × ρ :=
  let (a, w) := Executor.settle ((k.catalog policy).serve op (k.world c r))
  (a, { k with cached := w.extra.cached, signal := w.signal }, k.commons w, w.extra.rest.2)

end Serve

end Tenant

end NamespaceCatalog
