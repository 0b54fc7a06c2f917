import NamespaceCatalog.Key.Reader
import NamespaceCatalog.Record.Format
import NamespaceCatalog.Table.Overlay

/-!
# Records in a table

The metadata store of namespaces inside one transaction.  The record of a namespace is kept in a row
whose key is the word "namespace" and the name, and whose value is the record as a codec stores it.
The functions of this file act through the overlay that serves the transaction.
-/

namespace NamespaceCatalog.Rows

/-- The first segment of the key of every record. -/
def tag : String := "namespace"

/-- The key of the record with the given name. -/
def key (name : String) : Bytes := Key.ofSegments [.text tag, .text name]

/-- Writes a record, in place of one with the same name. -/
def create (c : Codec) (r : Record) (x : Overlay) : Except Error Overlay :=
  match c.encode r with
  | .error e => .error e
  | .ok value => x.write (key r.name) value

/-- The record of a namespace. -/
def get (c : Codec) (id : Id) (x : Overlay) (t : Table) : Except Error (Option Record) :=
  match x.read t (key id.name) with
  | .error e => .error e
  | .ok none => .ok none
  | .ok (some value) => (c.decode value).map some

/-- Is there a record of the namespace? -/
def exists? (c : Codec) (id : Id) (x : Overlay) (t : Table) : Except Error Bool :=
  (get c id x t).map Option.isSome

/-- Removes the record of a namespace. -/
def delete (id : Id) (x : Overlay) (t : Table) : Except Error Overlay := x.deleteAll t (key id.name)

/-- The name in the key of a record. -/
def nameOfKey (key : Bytes) : Except CodecFault String :=
  match (Key.Reader.start key).skip with
  | (.error fault, _) => .error fault
  | (.ok (), r) =>
    match r.text? with
    | (.error fault, _) => .error fault
    | (.ok name, r) => if r.isEmpty then .ok name else .error (.strayRow (Key.render key))

/-- The record in a row. -/
def ofRow (c : Codec) (row : Bytes × Bytes) : Except Error Record :=
  match nameOfKey row.1 with
  | .error fault => .error (.codec fault)
  | .ok name =>
    match c.decode row.2 with
    | .error e => .error e
    | .ok r =>
      if r.name = name then .ok r
      else .error (.codec (.misplacedRecord (Key.render row.1) r.name))

/-- The records in rows, up to the first that is none. -/
def ofRows (c : Codec) : List (Bytes × Bytes) → Except Error (List Record)
  | [] => .ok []
  | row :: rows =>
    match ofRow c row with
    | .error e => .error e
    | .ok r => (ofRows c rows).map (r :: ·)

/-- All records, in the order of their names. -/
def list (c : Codec) (x : Overlay) (t : Table) : Except Error (List Record) :=
  match x.scan t (Key.ofTag tag) with
  | .error e => .error e
  | .ok rows => ofRows c rows

/-- The rows as diagnostics show them, by the format of the values. -/
def describe : Format → String
  | .json => "NamespaceMetadataStore \x7b codec: JsonCodec, .. \x7d"
  | .cbor => "NamespaceMetadataStore \x7b codec: CborCodec, .. \x7d"

end NamespaceCatalog.Rows
