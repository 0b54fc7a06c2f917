import Std.Data.ExtTreeMap
import NamespaceCatalog.Error
import NamespaceCatalog.Catalog.Operation

/-!
# Rosters

A roster is a namespace store in memory, the plain map from names to records.  It says what the
operations of a catalog mean; for instance, a record that is there already is not replaced by
another `create` (`getElem?_create`).
-/

namespace NamespaceCatalog

/-- A map from names to records. -/
abbrev Roster := Std.ExtTreeMap String Record

namespace Roster

/-- Adds a record unless there is one of that name, which is then given. -/
def create (m : Roster) (r : Record) : Option Record × Roster :=
  match m[r.name]? with
  | some old => (some old, m)
  | none => (none, m.insert r.name r)

theorem getElem?_create (m : Roster) (r : Record) (name : String) :
    (m.create r).2[name]? = if name = r.name then some (m[r.name]?.getD r) else m[name]? := by
  unfold create
  by_cases e : name = r.name
  · subst e
    split <;> simp [*]
  · have hc : compare r.name name ≠ .eq := by simpa using fun e' => e e'.symm
    split <;> simp [Std.ExtTreeMap.getElem?_insert, e, hc]

/-- Replaces the record of that name, if there is one. -/
def update (m : Roster) (r : Record) : Roster :=
  if m.contains r.name then m.insert r.name r else m

/-- Removes the record of a namespace, and gives it. -/
def delete (m : Roster) (id : Id) : Option Record × Roster := (m[id.name]?, m.erase id.name)

/-- All records, in the order of their names. -/
def list (m : Roster) : List Record := m.values

/-- Answers an operation. -/
def serve (op : Operation) (m : Roster) : Except Error Outcome × Roster :=
  match op with
  | .create r =>
    match r.id with
    | .error fault => (.error (.validation fault), m)
    | .ok _ =>
      let (old, m) := m.create r
      (.ok (.record old), m)
  | .update r =>
    match r.id with
    | .error fault => (.error (.validation fault), m)
    | .ok _ => (.ok .done, m.update r)
  | .get name =>
    match Id.ofName name with
    | .error fault => (.error (.validation fault), m)
    | .ok id => (.ok (.record m[id.name]?), m)
  | .delete name =>
    match Id.ofName name with
    | .error fault => (.error (.validation fault), m)
    | .ok id =>
      let (old, m) := m.delete id
      (.ok (.record old), m)
  | .list => (.ok (.records m.list), m)

end Roster

end NamespaceCatalog
