import NamespaceCatalog.Table.Basic

/-!
# Overlays

An overlay is the handle by which one transaction works with a table.  It holds what was written and
is not installed yet.  Reads through it show the transaction's snapshot of the table with these
writes laid over it.  `commit` installs the writes, `rollback` drops them, and withdraws them if
they were installed.  A transaction reads what it wrote itself (`read_write`).
-/

namespace NamespaceCatalog

/-- What a transaction does to a table. -/
structure Overlay where
  table : TableId
  tx : Option Transaction
  /-- The rows written and their new values, none for a deleted row. -/
  buffer : Std.ExtTreeMap Bytes (Option Bytes)
  /-- Are the writes in the table? -/
  installed : Bool
  /-- Are the writes in the table's journal? -/
  logged : Bool

namespace Overlay

/-- An overlay that serves no transaction. -/
def ofTable (table : TableId) : Overlay := ⟨table, none, ∅, false, false⟩

/-- The transaction that the overlay serves. -/
def active (x : Overlay) : Except Error Transaction :=
  match x.tx with
  | some tx => .ok tx
  | none => .error (.invalidOperation .noTransaction)

/-- The number of rows written. -/
def pending (x : Overlay) : Nat := x.buffer.size

/-! ## Reading and writing -/

/-- Writes a row. -/
def write (x : Overlay) (key value : Bytes) : Except Error Overlay :=
  match x.active with
  | .error e => .error e
  | .ok _ => .ok { x with buffer := x.buffer.insert key (some value) }

/-- The value of a row. -/
def read (x : Overlay) (t : Table) (key : Bytes) : Except Error (Option Bytes) :=
  match x.active with
  | .error e => .error e
  | .ok tx =>
    match x.buffer[key]? with
    | some written => .ok written
    | none => .ok (t.get tx key)

theorem read_write {x y : Overlay} {key value : Bytes} (h : x.write key value = .ok y) (t : Table)
    (other : Bytes) :
    y.read t other = if other = key then .ok (some value) else x.read t other := by
  unfold write at h
  split at h
  · cases h
  · next tx hx =>
    cases h
    have hy : Overlay.active { x with buffer := x.buffer.insert key (some value) } = .ok tx := hx
    simp only [read, hy, hx, Std.ExtTreeMap.getElem?_insert]
    by_cases e : other = key
    · simp [e]
    · have hc : compare key other ≠ .eq := by simpa using fun e' => e e'.symm
      simp [e, hc]

/-- The rows written under `start`, in order. -/
def written (x : Overlay) (start : Bytes) : List RowWrite :=
  x.buffer.toList.filter (start.isPrefixOf ·.1)

/-- The rows under `start` and their values, in order. -/
def scan (x : Overlay) (t : Table) (start : Bytes) : Except Error (List (Bytes × Bytes)) :=
  match x.active with
  | .error e => .error e
  | .ok tx =>
    let rows := Std.ExtTreeMap.ofList (t.scan tx start)
    .ok ((x.written start).foldl Table.applyWrite rows).toList

/-- Deletes the rows under `start`. -/
def deleteAll (x : Overlay) (t : Table) (start : Bytes) : Except Error Overlay :=
  match x.active with
  | .error e => .error e
  | .ok tx =>
    let keys := (t.scan tx start).map (·.1) ++ (x.written start).map (·.1)
    .ok { x with buffer := keys.foldl (fun b key => b.insert key none) x.buffer }

/-! ## The course of a transaction -/

/-- Serves a transaction from now on. -/
def start (x : Overlay) (t : Table) (tx : Transaction) : Except Error Overlay :=
  match x.tx with
  | some current => .error (.invalidOperation (.alreadyAttached t.name current.id))
  | none => .ok { ofTable x.table with tx := some tx }

/-- The identity of a row among the rows of all tables. -/
def rowId (table : String) (key : Bytes) : Bytes := Utf8.encode table ++ 0 :: key

/-- The rows written, as the coordinator knows them. -/
def changes (x : Overlay) (t : Table) : List Bytes := x.buffer.keys.map (rowId t.name)

/-- Installs the writes. -/
def commit (x : Overlay) (t : Table) : Except Error Unit × Overlay × Table :=
  match x.active with
  | .error e => (.error e, x, t)
  | .ok tx =>
    match t.install tx.id x.buffer.toList with
    | (.error e, t) => (.error e, x, t)
    | (.ok logged, t) => (.ok (), { x with installed := !x.buffer.isEmpty, logged }, t)

/-- Serves no transaction any more; what was written stays. -/
def release (x : Overlay) : Overlay := ofTable x.table

/-- Drops the writes and serves no transaction any more. -/
def rollback (x : Overlay) (t : Table) : Overlay × Table :=
  match x.tx, x.installed with
  | some tx, true => (x.release, t.revert tx.id x.logged)
  | _, _ => (x.release, t)

/-- A transaction's number as an overlay shows it. -/
def describeTx : Option Transaction → String
  | some tx => "Some(TransactionId(" ++ toString tx.id ++ "))"
  | none => "None"

/-- The overlay as diagnostics show it. -/
def describe (x : Overlay) (t : Table) : String :=
  "TxTable \x7b table: " ++ Text.quoted t.name ++ ", tx: " ++ describeTx x.tx ++ ", pending: " ++
    toString x.pending ++ " \x7d"

end Overlay

end NamespaceCatalog
