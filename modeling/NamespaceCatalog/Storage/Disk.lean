import Std.Data.ExtTreeMap
import Std.Data.ExtTreeSet
import NamespaceCatalog.Error

/-!
# A disk

A disk holds directories and files.  The place of one is the list of names that lead to it from the
root (`Place`), and a path is how a place is written.  `Disk.walk` follows a path part by part
(`walk_append`): each part starts from a directory that is there, an empty part and `.` lead nowhere
else, and `..` leads to the directory above.

A file has a number (`FileId`): who has opened a file keeps it by number, and still has it when
another file is put at its place.  A file without a place serves as a piece of memory.

A lock on a file is advisory: it keeps others from locking the file, and nothing else.
-/

namespace NamespaceCatalog

/-- A written path: the parts between its slashes. -/
abbrev Path := List String

/-- The names on the way from the root to a file or directory. -/
abbrev Place := List String

/-- The number of a file. -/
abbrev FileId := Nat

/-- What is at a place. -/
inductive Node
  | directory
  | file (id : FileId)
  deriving DecidableEq, Repr

/-- The files and directories of a disk.  The root is a directory and not listed. -/
structure Disk where
  nodes : Std.ExtTreeMap Place Node
  contents : Std.ExtTreeMap FileId Bytes
  nextFile : FileId
  locks : Std.ExtTreeSet FileId

namespace Disk

/-- A disk without files. -/
def empty : Disk := ⟨∅, ∅, 0, ∅⟩

/-! ## Paths -/

/-- The length of the longest name, in bytes. -/
def longestName : Nat := 255

/-- The length of the longest path that an operating system takes, in bytes with the slashes, but
without the zero that ends it. -/
def longestSystemPath : Nat := 4095

/-- The length of the path to the root of a disk, with a slash at its end: the root is a directory
of the operating system, and this is how far down it stands. -/
def rootLength : Nat := 16

/-- The length of the longest path from the root, in bytes with the slashes. -/
def longestPath : Nat := longestSystemPath - rootLength

/-- Refuses a path that cannot lead anywhere on any disk. -/
def checkPath (path : Path) : Except FileFault Unit :=
  if path.any (·.toList.contains '\x00') then .error .invalidName
  else if longestPath < ("/".intercalate path).utf8ByteSize then .error .nameTooLong
  else .ok ()

/-- The path without the empty parts at its end. -/
def trimmed (path : Path) : Path := (path.reverse.dropWhile (· = "")).reverse

/-- The paths to the directories on the way to the last part that is a name. -/
def ancestors (path : Path) : List Path :=
  let parts := path.reverse.dropWhile fun part => part = "" ∨ part = "."
  (List.range parts.length).map path.take

/-- What is at the place, if anything. -/
def at? (d : Disk) (place : Place) : Option Node :=
  if place.isEmpty then some .directory else d.nodes[place]?

/-- The place that a part of a path leads to from a directory. -/
def step (place : Place) (part : String) : Except FileFault Place :=
  if part = "" ∨ part = "." then .ok place
  else if part = ".." then .ok place.dropLast
  else if longestName < part.utf8ByteSize then .error .nameTooLong
  else .ok (place ++ [part])

/-- The place that a path leads to from another place. -/
def walk (d : Disk) (place : Place) : Path → Except FileFault Place
  | [] => .ok place
  | part :: parts =>
    match d.at? place with
    | none => .error .notFound
    | some (.file _) => .error .notADirectory
    | some .directory =>
      match step place part with
      | .error fault => .error fault
      | .ok place => d.walk place parts

/-- The place that a path leads to from the root.  There may be nothing yet. -/
def locate (d : Disk) (path : Path) : Except FileFault Place :=
  match checkPath path with
  | .error fault => .error fault
  | .ok () => d.walk [] path

/-- What the path leads to, if anything. -/
def node? (d : Disk) (path : Path) : Option Node :=
  match d.locate path with
  | .ok place => d.at? place
  | .error _ => none

theorem walk_append (d : Disk) (place : Place) (front back : Path) :
    d.walk place (front ++ back) =
      match d.walk place front with
      | .ok place => d.walk place back
      | .error fault => .error fault := by
  induction front generalizing place with
  | nil => rfl
  | cons part parts ih =>
    simp only [List.cons_append, walk]
    cases d.at? place with
    | none => rfl
    | some node =>
      cases node with
      | file id => rfl
      | directory =>
        cases step place part with
        | error fault => rfl
        | ok place => exact ih place

/-! ## Files by number -/

/-- The bytes of a file. -/
def read (d : Disk) (id : FileId) : Bytes := d.contents.getD id []

/-- The disk with other bytes in a file. -/
def write (d : Disk) (id : FileId) (bs : Bytes) : Disk :=
  { d with contents := d.contents.insert id bs }

/-- A new file that holds `bs` and has no path. -/
def newFile (d : Disk) (bs : Bytes) : FileId × Disk :=
  (d.nextFile, { d.write d.nextFile bs with nextFile := d.nextFile + 1 })

/-- Locks a file, unless it is locked already. -/
def lock? (d : Disk) (id : FileId) : Option Disk :=
  if d.locks.contains id then none else some { d with locks := d.locks.insert id }

/-- Releases the lock on a file. -/
def unlock (d : Disk) (id : FileId) : Disk := { d with locks := d.locks.erase id }

/-! ## Files by path -/

/-- Makes a directory, if there is none at the path. -/
def createDir (d : Disk) (path : Path) : Except FileFault Disk :=
  match d.locate (trimmed path) with
  | .error fault => .error fault
  | .ok place =>
    match d.at? place with
    | some .directory => .ok d
    | some (.file _) => .error .alreadyExists
    | none => .ok { d with nodes := d.nodes.insert place .directory }

/-- Makes a directory at each of the paths, up to the first failure. -/
def createEach (d : Disk) : List Path → Except FileFault Unit × Disk
  | [] => (.ok (), d)
  | path :: paths =>
    match d.createDir path with
    | .error fault => (.error fault, d)
    | .ok d => d.createEach paths

/-- Makes the directory at the path and those it lies in.  Those made before a failure stay. -/
def createDirs (d : Disk) (path : Path) : Except FileFault Unit × Disk :=
  match checkPath path with
  | .error fault => (.error fault, d)
  | .ok () => d.createEach (ancestors path ++ [path])

/-- Opens the file at the path, a new one if there is none. -/
def openFile (d : Disk) (path : Path) : Except FileFault (FileId × Disk) :=
  match d.locate path with
  | .error fault => .error fault
  | .ok place =>
    match d.at? place with
    | some .directory => .error .isADirectory
    | some (.file id) => .ok (id, d)
    | none =>
      let (id, d) := d.newFile []
      .ok (id, { d with nodes := d.nodes.insert place (.file id) })

/-- Takes the file at the path away.  Who has it open keeps it. -/
def remove (d : Disk) (path : Path) : Except FileFault Disk :=
  match d.locate path with
  | .error fault => .error fault
  | .ok place =>
    match d.at? place with
    | some (.file _) => .ok { d with nodes := d.nodes.erase place }
    | some .directory => .error .isADirectory
    | none => .error .notFound

/-- Puts the file at one path in the place of the file at another. -/
def rename (d : Disk) (source target : Path) : Except FileFault Disk :=
  match d.locate source, d.locate target with
  | .error fault, _ => .error fault
  | _, .error fault => .error fault
  | .ok source, .ok target =>
    match d.at? source, d.at? target with
    | some (.file _), some .directory => .error .isADirectory
    | some (.file id), _ =>
      .ok { d with nodes := (d.nodes.erase source).insert target (.file id) }
    | some .directory, _ => .error .isADirectory
    | none, _ => .error .notFound

/-- The names in the directory that the path leads to and what they lead to, in order. -/
def list (d : Disk) (path : Path) : List (String × Node) :=
  match d.locate path with
  | .error _ => []
  | .ok dir => d.nodes.toList.filterMap fun (place, node) =>
    if place.dropLast = dir then place.getLast?.map (·, node) else none

theorem read_write (d : Disk) (id other : FileId) (bs : Bytes) :
    (d.write id bs).read other = if other = id then bs else d.read other := by
  simp only [read, write, Std.ExtTreeMap.getD_insert]
  by_cases h : other = id
  · simp [h]
  · have : compare id other ≠ .eq := by simpa using fun e => h e.symm
    simp [h, this]

theorem read_newFile (d : Disk) (bs : Bytes) : (d.newFile bs).2.read (d.newFile bs).1 = bs := by
  have h := d.read_write d.nextFile d.nextFile bs
  rw [if_pos rfl] at h
  exact h

end Disk

end NamespaceCatalog
