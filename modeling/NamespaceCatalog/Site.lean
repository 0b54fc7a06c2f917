import NamespaceCatalog.Storage.Disk
import NamespaceCatalog.Table.Overlay

/-!
# A site

A site is a disk with the streams and tables that are open on it.  Several streams may be over one
file, and several tables over one stream: the disk keeps the bytes, and who works with a stream or a
table takes it with the bytes of that moment (`Site.stream`, `Site.table`) and puts it back
afterwards; what was put back is what is taken next (`bytes_stream_putStream`, `stream_putStream`).

A stream over a file on the disk knows the size that its own operations gave it.  A stream over a
piece of memory has no size but that of the bytes, whoever changed them.
-/

namespace NamespaceCatalog

/-- The number of an open stream. -/
abbrev StreamId := Nat

/-- An open stream.  Its bytes are those of the file. -/
structure OpenStream where
  file : FileId
  /-- Is the file a piece of memory? -/
  inMemory : Bool
  stream : Stream

/-- An open table, and the stream that has its journal, if it has one. -/
structure OpenTable where
  table : Table
  journal : Option StreamId

/-- A disk with the streams and tables that are open on it. -/
structure Site where
  disk : Disk
  streams : Array OpenStream
  tables : Array OpenTable

namespace Site

/-- A site where nothing is stored and nothing is open. -/
def empty : Site := ⟨Disk.empty, #[], #[]⟩

/-! ## Streams -/

/-- The stream, with the bytes that its file holds now. -/
def stream (site : Site) (id : StreamId) : Stream :=
  match site.streams[id]? with
  | some o =>
    let bytes := site.disk.read o.file
    { o.stream with bytes, size := if o.inMemory then bytes.length else o.stream.size }
  | none => Stream.ofBytes []

/-- Puts a stream back. -/
def putStream (site : Site) (id : StreamId) (s : Stream) : Site :=
  match site.streams[id]? with
  | some o =>
    { site with
      disk := site.disk.write o.file s.bytes
      streams := site.streams.set! id { o with stream := s } }
  | none => site

theorem bytes_stream_putStream {site : Site} {id : StreamId} (h : id < site.streams.size)
    (s : Stream) : ((site.putStream id s).stream id).bytes = s.bytes := by
  simp [putStream, stream, h, Disk.read_write]

theorem stream_putStream {site : Site} {id : StreamId} (h : id < site.streams.size) {s : Stream}
    (hs : s.size = s.bytes.length) : (site.putStream id s).stream id = s := by
  simp [putStream, stream, h, Disk.read_write, ← hs]

/-- Opens a stream over a file. -/
def openStream (site : Site) (file : FileId) (inMemory : Bool) : StreamId × Site :=
  let stream := Stream.ofBytes (site.disk.read file)
  (site.streams.size, { site with streams := site.streams.push ⟨file, inMemory, stream⟩ })

/-- Opens a stream over a new file, or over a new piece of memory. -/
def newStream (site : Site) (bs : Bytes) (inMemory : Bool) : StreamId × Site :=
  let (file, disk) := site.disk.newFile bs
  { site with disk }.openStream file inMemory

/-- Opens another stream over the file of a stream. -/
def reopen (site : Site) (id : StreamId) : StreamId × Site :=
  match site.streams[id]? with
  | some o => site.openStream o.file o.inMemory
  | none => site.newStream [] true

/-! ## Tables -/

/-- The table with the given number, if there is one. -/
def table? (site : Site) (id : TableId) : Option Table :=
  site.tables[id]?.map fun o =>
    match o.journal with
    | some s => o.table.withStream (site.stream s)
    | none => o.table

/-- The table with the given number; one that was never opened is empty. -/
def table (site : Site) (id : TableId) : Table := (site.table? id).getD (Table.inMemory "")

/-- Puts a table back, and its stream. -/
def putTable (site : Site) (id : TableId) (t : Table) : Site :=
  match site.tables[id]? with
  | none => site
  | some o =>
    let site := { site with tables := site.tables.set! id { o with table := t } }
    match o.journal, t.stream with
    | some s, some stream => site.putStream s stream
    | _, _ => site

/-- Gives a number to a table. -/
def addTable (site : Site) (t : Table) (journal : Option StreamId) : TableId × Site :=
  (site.tables.size, { site with tables := site.tables.push ⟨t, journal⟩ })

/-- Reads the table whose journal is in a stream. -/
def loadTable (site : Site) (name : String) (s : StreamId) (sync : Bool) :
    Except Error Table × Site :=
  let (r, stream) := Table.load name (site.stream s) sync
  (r, site.putStream s stream)

/-- Opens the table whose journal is in a stream. -/
def openTable (site : Site) (name : String) (s : StreamId) (sync : Bool) :
    Except Error TableId × Site :=
  match site.loadTable name s sync with
  | (.error e, site) => (.error e, site)
  | (.ok t, site) =>
    let (id, site) := site.addTable t (some s)
    (.ok id, site)

end Site

end NamespaceCatalog
