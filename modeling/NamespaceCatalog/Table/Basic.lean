import NamespaceCatalog.Journal.Basic
import NamespaceCatalog.Table.Version

/-!
# Tables

A table is versioned: it holds the versions of its rows.  A table with a journal writes each
transaction's rows there before they can be read, and a rollback when they are withdrawn.  A
rollback that cannot be written waits, and is written before anything else is.

Opening a table reads its journal; the rows it holds then have one version each, of the writer
`TxId.base`, which every transaction sees.
-/

namespace NamespaceCatalog

/-- The number of a table. -/
abbrev TableId := Nat

/-- A journal and the rollbacks it still has to take, oldest first. -/
structure LogWriter where
  journal : Journal
  unwritten : List TxId

namespace LogWriter

/-- Writes the given rollbacks, up to the first failure. -/
def writeRollbacks (j : Journal) : List TxId → Except Error Unit × LogWriter
  | [] => (.ok (), ⟨j, []⟩)
  | tx :: later =>
    match j.append (.rollback tx) with
    | (.error e, j) => (.error e, ⟨j, tx :: later⟩)
    | (.ok _, j) => writeRollbacks j later

/-- Appends an entry after the rollbacks that wait. -/
def append (w : LogWriter) (e : Entry) : Except Error Unit × LogWriter :=
  match writeRollbacks w.journal w.unwritten with
  | (.error e, w) => (.error e, w)
  | (.ok (), w) =>
    match w.journal.append e with
    | (.error e, j) => (.error e, { w with journal := j })
    | (.ok _, j) => (.ok (), { w with journal := j })

/-- Adds a rollback, and writes as many as can be written. -/
def rollback (w : LogWriter) (tx : TxId) : LogWriter :=
  (writeRollbacks w.journal (w.unwritten ++ [tx])).2

end LogWriter

/-- A table. -/
structure Table where
  name : String
  rows : Std.ExtTreeMap Bytes (List Version)
  /-- The rows of which a prune may drop versions. -/
  dirty : Std.ExtTreeSet Bytes
  log : Option LogWriter

namespace Table

/-- May the character stand in the name of a table? -/
def isNameCharacter (c : Char) : Bool := c.isAlphanum || c = '_' || c = '.' || c = '-'

/-- Can a table have this name?  It can then be the name of a file. -/
def isName (name : String) : Bool :=
  name ≠ "" && name.toList.all isNameCharacter && name ≠ "." && name ≠ ".."

/-! ## Opening -/

/-- An empty table without a journal. -/
def inMemory (name : String) : Table := ⟨name, ∅, ∅, none⟩

/-- The rows after a write. -/
def applyWrite (rows : Std.ExtTreeMap Bytes Bytes) (w : RowWrite) : Std.ExtTreeMap Bytes Bytes :=
  match w.2 with
  | some value => rows.insert w.1 value
  | none => rows.erase w.1

/-- The rows that a series of commits leaves. -/
def rowsOf (commits : List (List RowWrite)) : Std.ExtTreeMap Bytes Bytes :=
  commits.flatten.foldl applyWrite ∅

/-- Rows as every transaction sees them. -/
def baseRows (rows : Std.ExtTreeMap Bytes Bytes) : Std.ExtTreeMap Bytes (List Version) :=
  rows.map fun _ value => [⟨TxId.base, some value⟩]

/-- The table whose journal is in the stream. -/
def load (name : String) (s : Stream) (sync : Bool) : Except Error Table × Stream :=
  match (Journal.ofStream s sync).replay with
  | (.error e, j) => (.error e, j.stream)
  | (.ok commits, j) => (.ok ⟨name, baseRows (rowsOf commits), ∅, some ⟨j, []⟩⟩, j.stream)

/-- The stream of a table that has a journal. -/
def stream (t : Table) : Option Stream := t.log.map (·.journal.stream)

/-- The table over a stream that may have changed. -/
def withStream (t : Table) (s : Stream) : Table :=
  { t with log := t.log.map fun w => { w with journal := { w.journal with stream := s } } }

/-! ## Reading -/

/-- Does the table have a journal? -/
def isPersistent (t : Table) : Bool := t.log.isSome

/-- The value of a row as `tx` sees it. -/
def get (t : Table) (tx : Transaction) (key : Bytes) : Option Bytes :=
  t.rows[key]?.bind (Version.visible tx)

/-- The rows under `start` as `tx` sees them, in order. -/
def scan (t : Table) (tx : Transaction) (start : Bytes) : List (Bytes × Bytes) :=
  t.rows.toList.filterMap fun (key, vs) =>
    if start.isPrefixOf key then (Version.visible tx vs).map (key, ·) else none

@[simp] theorem get_inMemory (name : String) (tx : Transaction) (key : Bytes) :
    (inMemory name).get tx key = none := by
  simp [get, inMemory]

/-- The number of rows with versions. -/
def keyCount (t : Table) : Nat := t.rows.size

/-- The number of versions of all rows. -/
def versionCount (t : Table) : Nat := t.rows.values.flatten.length

/-- The number of frames in the journal. -/
def frames (t : Table) : Nat := t.log.elim 0 (·.journal.frames)

/-- The number of rollbacks that wait. -/
def unwritten (t : Table) : Nat := t.log.elim 0 (·.unwritten.length)

/-- One commit of all rows as they were read from the journal. -/
def baseEntry (t : Table) : Entry :=
  .commit TxId.base (t.rows.toList.filterMap fun (key, vs) =>
    ((vs.find? (·.writer = TxId.base)).bind (·.value)).map fun value => (key, some value))

/-! ## Writing -/

/-- Adds a version of a row. -/
def addVersion (tx : TxId) (t : Table) (w : RowWrite) : Table :=
  { t with
    rows := t.rows.insert w.1 (⟨tx, w.2⟩ :: t.rows.getD w.1 [])
    dirty := t.dirty.insert w.1 }

/-- Adds versions of rows. -/
def addVersions (t : Table) (tx : TxId) (writes : List RowWrite) : Table :=
  writes.foldl (addVersion tx) t

/-- Logs and adds what a transaction wrote.  Gives whether it was logged. -/
def install (t : Table) (tx : TxId) (writes : List RowWrite) : Except Error Bool × Table :=
  if writes.isEmpty then (.ok false, t)
  else
    match t.log with
    | none => (.ok false, t.addVersions tx writes)
    | some w =>
      match w.append (.commit tx writes) with
      | (.error e, w) => (.error e, { t with log := some w })
      | (.ok (), w) => (.ok true, { t.addVersions tx writes with log := some w })

/-- The versions of other writers. -/
def withdraw (t : Table) (tx : TxId) : Table :=
  { t with
    rows := t.rows.filterMap fun _ vs =>
      let vs := vs.filter (·.writer ≠ tx)
      if vs.isEmpty then none else some vs }

/-- Withdraws what a transaction wrote, from the journal too if it was logged. -/
def revert (t : Table) (tx : TxId) (logged : Bool) : Table :=
  let t := t.withdraw tx
  if logged then { t with log := t.log.map (·.rollback tx) } else t

/-- Drops versions of one row, and counts them. -/
def pruneRow (h : Horizon) (acc : Nat × Table) (key : Bytes) : Nat × Table :=
  let (n, t) := acc
  match t.rows[key]? with
  | none => (n, { t with dirty := t.dirty.erase key })
  | some vs =>
    let kept := Version.prune h vs
    (n + (vs.length - kept.length),
      { t with
        rows := if kept.isEmpty then t.rows.erase key else t.rows.insert key kept
        dirty := if Version.isUnsettled h kept then t.dirty else t.dirty.erase key })

/-- Drops versions that no snapshot can read any more, and gives their number. -/
def prune (t : Table) (h : Horizon) : Nat × Table := t.dirty.toList.foldl (pruneRow h) (0, t)

/-- The table as diagnostics show it. -/
def describe (t : Table) : String :=
  "VersionedTable \x7b name: " ++ Text.quoted t.name ++ ", keys: " ++ toString t.keyCount ++
    ", persistent: " ++ Text.word t.isPersistent ++ " \x7d"

end Table

end NamespaceCatalog
