import NamespaceCatalog.Journal.Entry

/-!
# Reading a whole log

`Scan.ofBytes` reads the entries of a log and says how it ends: at the end of the last frame, in a
frame that was not written to its end, or at damage.  `survivors` gives the writes that count: an
undone commit is the latest one of its transaction that is not undone yet.  A commit at the end adds
its writes to those that count (`survivors_append_commit`).
-/

namespace NamespaceCatalog

/-- How the readable part of a log ends. -/
inductive Ending
  | complete
  | torn
  | damaged (fault : LogFault)
  deriving DecidableEq, Repr

/-- The readable part of a log. -/
structure Scan where
  entries : List Entry
  /-- The number of bytes before what is not readable. -/
  length : Nat
  ending : Ending
  deriving DecidableEq, Repr

namespace Scan

/-- Reads the rest of a log of which `offset` bytes are read.  The measure `fuel` bounds the number
of entries. -/
def readFrom : (fuel offset : Nat) → Bytes → Scan
  | 0, offset, _ => ⟨[], offset, .complete⟩
  | fuel + 1, offset, bs =>
    if bs.isEmpty then ⟨[], offset, .complete⟩
    else
      match Entry.parse offset bs with
      | .error fault => ⟨[], offset, .damaged fault⟩
      | .ok .torn => ⟨[], offset, .torn⟩
      | .ok (.entry e length rest) =>
        let later := readFrom fuel (offset + length) rest
        { later with entries := e :: later.entries }

/-- Reads a log.  Every entry takes at least one byte. -/
def ofBytes (bs : Bytes) : Scan := readFrom bs.length 0 bs

end Scan

/-- The commits that are not undone, the latest first, after one more entry. -/
def replayEntry (commits : List (TxId × List RowWrite)) : Entry → List (TxId × List RowWrite)
  | .commit tx writes => (tx, writes) :: commits
  | .rollback tx => commits.eraseP (·.1 = tx)

/-- The writes of the commits that are not undone, in order. -/
def survivors (entries : List Entry) : List (List RowWrite) :=
  ((entries.foldl replayEntry []).reverse).map (·.2)

@[simp] theorem survivors_nil : survivors [] = [] := rfl

theorem survivors_append_commit (es : List Entry) (tx : TxId) (writes : List RowWrite) :
    survivors (es ++ [.commit tx writes]) = survivors es ++ [writes] := by
  simp [survivors, replayEntry]

end NamespaceCatalog
