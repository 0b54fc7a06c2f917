import NamespaceCatalog.Catalog.Home
import NamespaceCatalog.Record.Sample
import NamespaceCatalog.Workload

/-!
# Catalogs and tables to try things with
-/

namespace NamespaceCatalog

/-- Answers an operation. -/
def Home.serve (c : Config) (op : Operation) (h : Home) : Except Error Outcome × Home :=
  Executor.settle ((Home.catalog Sample.libraries c).serve op h)

namespace Sample

/-- Settings without long waits. -/
def config : Config :=
  { Config.standard with retry := { FixedRetry.standard with delay := 1000000 }, sync := false }

/-- The record number `i` of a populated catalog. -/
def record (i : Nat) : Record :=
  (Record.ofName ("ns_" ++ Workload.padded 4 i)).describe ("namespace " ++ toString i)

/-- The home of a catalog in memory with `count` records. -/
def populated (count : Nat) : Home :=
  ((List.range count).map fun i => Operation.create (record i)).foldl
    (fun h op => (Home.serve config op h).2) (Home.inMemory config)

/-- The directory of a catalog on an otherwise empty disk. -/
def directory : Path := ["store"]

/-! ## A single table -/

/-- A table whose journal is in memory. -/
structure Bench where
  table : TableId
  journal : StreamId

/-- Loads the table from its journal into a world without history. -/
def Bench.load (name : String) (journal : StreamId) (site : Site) : World Bench :=
  match site.openTable name journal false with
  | (.ok table, site) => World.new site ⟨table, journal⟩
  | (.error _, site) => World.new site ⟨0, journal⟩

/-- An empty table with the given name. -/
def Bench.new (name : String) : World Bench :=
  let (journal, site) := Site.empty.newStream [] true
  Bench.load name journal site

/-- The table. -/
def Bench.tableOf (w : World Bench) : Table := w.table w.extra.table

/-- The bytes of the table's journal. -/
def Bench.log (w : World Bench) : Bytes := (w.site.stream w.extra.journal).bytes

/-- Loads the table again from its journal. -/
def Bench.reopen (w : World Bench) : World Bench :=
  Bench.load (Bench.tableOf w).name w.extra.journal w.site

/-- One attempt for each transaction on the table. -/
def Bench.executor : Executor Bench Overlay where
  bind w := (.ok [Overlay.ofTable w.extra.table], w)
  policy _ _ w := (none, w)
  meanwhile := .quiet

/-- Runs a transaction on the table. -/
def Bench.execute {α : Type} (f : Overlay → Table → Except Error (α × Overlay)) (w : World Bench) :
    Except Error α × World Bench :=
  Executor.settle (Bench.executor.execute (Overlay.body f) w)

end Sample

end NamespaceCatalog
