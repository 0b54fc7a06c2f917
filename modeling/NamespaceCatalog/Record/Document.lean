import NamespaceCatalog.Document
import NamespaceCatalog.Record.Basic

/-!
# Records as documents

A record is the map of its fields, and its overrides are the map of the settings that are
overridden; a setting that is not is left out, so that it is told apart from an empty text.

The fields of a stored record may come in any order, each at most once, and all but the name may be
missing.  A draft holds the fields read so far.
-/

namespace NamespaceCatalog

/-! ## Overrides -/

/-- The settings read so far, the last one first. -/
abbrev SettingsDraft := List (Setting × Option String)

namespace SettingsDraft

/-- Is the setting read? -/
def has (d : SettingsDraft) (s : Setting) : Bool := d.any (·.1 = s)

/-- Reads a setting. -/
def put (d : SettingsDraft) (s : Setting) (v : Document) : Except DocumentFault SettingsDraft :=
  (v.optional? s.name).map fun v => (s, v) :: d

/-- The overrides; a setting that was not read is not overridden. -/
def finish (d : SettingsDraft) : Overrides :=
  d.foldr (fun (s, v) o => o.set v s) Overrides.none

/-- How overrides are read. -/
def fields : Fields Setting SettingsDraft where
  all := Setting.all
  label := Setting.name
  shapeOf _ := .text
  has := has
  put := put
  find_label s := by cases s <;> decide
  has_put {d d' s v} h t := by
    obtain ⟨v', -, rfl⟩ := map_eq_ok_iff.1 h
    rw [has, List.any_cons, Bool.or_comm]
    rfl

end SettingsDraft

namespace Overrides

/-- The overrides as a document. -/
def toDocument (o : Overrides) : Document := .map (o.toList.map fun (s, v) => (s.name, .text v))

/-- The overrides in a document, which belongs to the given field. -/
def ofDocument (field : String) (d : Document) : Except DocumentFault Overrides :=
  (SettingsDraft.fields.read field [] d).map SettingsDraft.finish

end Overrides

/-! ## Records -/

/-- The fields of a stored record. -/
inductive Field
  | name
  | description
  | overrides
  deriving DecidableEq, Repr

/-- The name of a field in stored records. -/
def Field.label : Field → String
  | .name => "name"
  | .description => "description"
  | .overrides => "config"

/-- The fields, in the order records list them. -/
def Field.all : List Field := [.name, .description, .overrides]

/-- The fields of a record read so far. -/
structure Draft where
  name : Option String
  description : Option String
  overrides : Option Overrides

namespace Draft

/-- Nothing is read. -/
def empty : Draft := ⟨none, none, none⟩

/-- Is the field read? -/
def has (d : Draft) : Field → Bool
  | .name => d.name.isSome
  | .description => d.description.isSome
  | .overrides => d.overrides.isSome

/-- Reads a field. -/
def put (d : Draft) (f : Field) (v : Document) : Except DocumentFault Draft :=
  match f with
  | .name => (v.text? f.label).map fun s => { d with name := some s }
  | .description => (v.text? f.label).map fun s => { d with description := some s }
  | .overrides => (Overrides.ofDocument f.label v).map fun o => { d with overrides := some o }

/-- How records are read. -/
def fields : Fields Field Draft where
  all := Field.all
  label := Field.label
  shapeOf
    | .name => .text
    | .description => .text
    | .overrides => SettingsDraft.fields.shape
  has := has
  put := put
  find_label f := by cases f <;> decide
  has_put {d d' f v} h g := by
    cases f with
    | name | description | overrides =>
      obtain ⟨_, -, rfl⟩ := map_eq_ok_iff.1 h
      cases g <;> simp [has]

/-- The record, if the name was read. -/
def finish (d : Draft) : Except DocumentFault Record :=
  match d.name with
  | none => .error (.missing Field.name.label)
  | some name => .ok ⟨name, d.description.getD "", d.overrides.getD Overrides.none⟩

end Draft

namespace Record

/-- The shape of the documents of records. -/
def shape : Shape := Draft.fields.shape

/-- A record as a document. -/
def toDocument (r : Record) : Document :=
  .map
    [(Field.name.label, .text r.name), (Field.description.label, .text r.description),
      (Field.overrides.label, r.overrides.toDocument)]

/-- The record in a document. -/
def ofDocument (d : Document) : Except DocumentFault Record :=
  match Draft.fields.read "record" Draft.empty d with
  | .error fault => .error fault
  | .ok draft => draft.finish

end Record

end NamespaceCatalog
