import NamespaceCatalog.Site

/-!
# Where tables come from

A source is a table provider: it hands out tables by name, and the same table to all who ask for the
same name.  A source in memory makes empty tables.  A source in a directory keeps the journal of
each table in a file there, and locks the directory for as long as it is open.

The journal of a table that is opened is compacted if it is long and has more than two frames for
each row: a journal with one commit of all rows is written beside it, brought to the disk, and put
in its place.  The steps of this on the disk (`removeStale`, `writeFresh`, `replace`) are functions
of their own, as the process may stop between any two of them.
-/

namespace NamespaceCatalog

/-- A directory with the journals of tables. -/
structure TableDirectory where
  path : Path
  /-- The file whose lock keeps other sources away. -/
  lock : FileId
  /-- Is every commit brought to the disk at once? -/
  sync : Bool

namespace TableDirectory

/-- The name of the file that is locked. -/
def lockName : String := "LOCK"

/-- The name of the file with a table's journal. -/
def journalName (table : String) : String := table ++ ".tbl"

/-- The name of the file where a table's compacted journal is written. -/
def freshName (table : String) : String := journalName table ++ ".compact"

/-- The path of a table's journal. -/
def journalPath (d : TableDirectory) (table : String) : Path := d.path ++ [journalName table]

/-- The path where a table's compacted journal is written. -/
def freshPath (d : TableDirectory) (table : String) : Path := d.path ++ [freshName table]

/-- Makes the directory if it is missing, and locks it. -/
def acquire (disk : Disk) (path : Path) (sync : Bool) : Except Error TableDirectory × Disk :=
  match disk.createDirs path with
  | (.error fault, disk) => (.error (.io (.file fault)), disk)
  | (.ok (), disk) =>
    match disk.openFile (path ++ [lockName]) with
    | .error fault => (.error (.io (.file fault)), disk)
    | .ok (lock, disk) =>
      match disk.lock? lock with
      | none => (.error .storeLocked, disk)
      | some disk => (.ok ⟨path, lock, sync⟩, disk)

end TableDirectory

/-! ## Compaction -/

namespace Compaction

/-- Journals with fewer frames are left as they are. -/
def leastFrames : Nat := 64

/-- Is the journal of the table worth compacting? -/
def isDue (t : Table) : Bool := leastFrames ≤ t.frames && 2 * t.keyCount < t.frames

/-- Removes what an earlier compaction may have left. -/
def removeStale (disk : Disk) (fresh : Path) : Except Error Disk :=
  match disk.remove fresh with
  | .ok disk => .ok disk
  | .error .notFound => .ok disk
  | .error fault => .error (.io (.file fault))

/-- Writes the compacted journal. -/
def writeFresh (disk : Disk) (fresh : Path) (rows : Entry) : Except Error Unit × Disk :=
  match disk.openFile fresh with
  | .error fault => (.error (.storage (.io (.file fault))), disk)
  | .ok (file, disk) =>
    let (r, j) := (Journal.ofStream (Stream.ofBytes (disk.read file)) true).append rows
    (r.map fun _ => (), disk.write file j.stream.bytes)

/-- Puts the compacted journal in the place of the journal. -/
def replace (disk : Disk) (fresh path : Path) : Except Error Disk :=
  (disk.rename fresh path).mapError fun fault => .io (.file fault)

/-- Compacts the journal of a table to one entry. -/
def run (disk : Disk) (d : TableDirectory) (table : String) (rows : Entry) :
    Except Error Unit × Disk :=
  match removeStale disk (d.freshPath table) with
  | .error e => (.error e, disk)
  | .ok disk =>
    match writeFresh disk (d.freshPath table) rows with
    | (.error e, disk) => (.error e, disk)
    | (.ok (), disk) =>
      match replace disk (d.freshPath table) (d.journalPath table) with
      | .error e => (.error e, disk)
      | .ok disk => (.ok (), disk)

end Compaction

/-! ## Sources -/

/-- A source of tables. -/
structure Source where
  /-- Where the journals are; none if the tables are in memory only. -/
  directory : Option TableDirectory
  /-- The tables handed out so far. -/
  tables : Std.ExtTreeMap String TableId
  /-- How many tables were made or opened. -/
  creations : Nat

namespace Source

/-- A source of tables in memory. -/
def inMemory : Source := ⟨none, ∅, 0⟩

/-- A source of tables in a directory. -/
def inDirectory (site : Site) (path : Path) (sync : Bool) : Except Error Source × Site :=
  match TableDirectory.acquire site.disk path sync with
  | (.error e, disk) => (.error e, { site with disk })
  | (.ok d, disk) => (.ok ⟨some d, ∅, 0⟩, { site with disk })

/-- Releases the lock of a source that is no longer used. -/
def close (s : Source) (site : Site) : Site :=
  match s.directory with
  | some d => { site with disk := site.disk.unlock d.lock }
  | none => site

/-- Reads the table whose journal is in the file at `path`. -/
def load (site : Site) (path : Path) (name : String) (sync : Bool) :
    Except Error (Table × StreamId) × Site :=
  match site.disk.openFile path with
  | .error fault => (.error (.storage (.io (.file fault))), site)
  | .ok (file, disk) =>
    let (id, site) := { site with disk }.openStream file false
    let (r, site) := site.loadTable name id sync
    (r.map (·, id), site)

/-- Reads a table in a directory, and compacts its journal if that is due. -/
def loadCompact (site : Site) (d : TableDirectory) (name : String) :
    Except Error (Table × StreamId) × Site :=
  match load site (d.journalPath name) name d.sync with
  | (.error e, site) => (.error e, site)
  | (.ok (t, id), site) =>
    if Compaction.isDue t then
      match Compaction.run site.disk d name t.baseEntry with
      | (.error e, disk) => (.error e, { site with disk })
      | (.ok (), disk) => load { site with disk } (d.journalPath name) name d.sync
    else (.ok (t, id), site)

/-- Makes or opens a table that was not handed out yet. -/
def create (s : Source) (site : Site) (name : String) : Except Error TableId × Site :=
  match s.directory with
  | none =>
    let (id, site) := site.addTable (Table.inMemory name) none
    (.ok id, site)
  | some d =>
    match loadCompact site d name with
    | (.error e, site) => (.error e, site)
    | (.ok (t, stream), site) =>
      let (id, site) := site.addTable t (some stream)
      (.ok id, site)

/-- The table with the given name. -/
def get (s : Source) (site : Site) (name : String) : Except Error TableId × Source × Site :=
  if !Table.isName name then (.error (.validation (.badTableName name)), s, site)
  else
    match s.tables[name]? with
    | some id => (.ok id, s, site)
    | none =>
      match s.create site name with
      | (.error e, site) => (.error e, s, site)
      | (.ok id, site) =>
        (.ok id, { s with tables := s.tables.insert name id, creations := s.creations + 1 }, site)

end Source

end NamespaceCatalog
