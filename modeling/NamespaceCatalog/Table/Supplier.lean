import NamespaceCatalog.Table.Source

/-!
# Suppliers of tables

Whoever needs a table asks a supplier for it by name.  A supplier is a source of tables; or it has
one table, which it hands out whatever the name; or it is a source that fails as a script says.
-/

namespace NamespaceCatalog

/-- Who hands out tables. -/
inductive Supplier
  | source (s : Source)
  /-- One table, whatever the name. -/
  | single (table : TableId)
  /-- A source of which each call fails as the next line of the script says.  So many calls were
  made. -/
  | scripted (script : List (Option Error)) (calls : Nat) (s : Source)

namespace Supplier

/-- The table with the given name. -/
def get (p : Supplier) (site : Site) (name : String) : Except Error TableId × Supplier × Site :=
  match p with
  | single id => (.ok id, p, site)
  | source s =>
    let (r, s, site) := s.get site name
    (r, source s, site)
  | scripted script calls s =>
    match (script[calls]?).join with
    | some e => (.error e, scripted script (calls + 1) s, site)
    | none =>
      let (r, s, site) := s.get site name
      (r, scripted script (calls + 1) s, site)

/-- The directory of the tables, if they are in one. -/
def directory : Supplier → Option TableDirectory
  | source s => s.directory
  | _ => none

/-- Releases the directory of a supplier that is no longer used. -/
def close (p : Supplier) (site : Site) : Supplier × Site :=
  match p with
  | source s => (source { s with directory := none }, s.close site)
  | _ => (p, site)

end Supplier

end NamespaceCatalog
