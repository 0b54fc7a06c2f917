import NamespaceCatalog.Storage.Stream
import NamespaceCatalog.Journal.Replay

/-!
# Journals

A journal is the log of a table, in a stream of its own.  `append` adds an entry; `replay` reads the
log again and cuts off a frame at its end that was not written to its end.  The number of frames
counts what was replayed last, and appended with success since.

`bytes_append_of_ok` says that an append that succeeds leaves the log with the entry's frame at its
end, and nothing else.
-/

namespace NamespaceCatalog

/-- A stream that holds a log. -/
structure Journal where
  stream : Stream
  /-- Is every entry brought to the disk at once? -/
  sync : Bool
  frames : Nat

namespace Journal

/-- The journal over a stream, before its log is read. -/
def ofStream (s : Stream) (sync : Bool) : Journal := ⟨s, sync, 0⟩

/-- Appends an entry, and gives the offset of its frame. -/
def append (j : Journal) (e : Entry) : Except Error Nat × Journal :=
  match e.encode with
  | .error e => (.error e, j)
  | .ok frame =>
    match j.stream.append frame with
    | (.error e, s) => (.error (.storage e), { j with stream := s })
    | (.ok offset, s) =>
      if j.sync then
        match s.flush with
        | (.error e, s) => (.error (.storage e), { j with stream := s })
        | (.ok (), s) => (.ok offset, { j with stream := s, frames := j.frames + 1 })
      else (.ok offset, { j with stream := s, frames := j.frames + 1 })

/-- Reads the log, and gives the writes of the commits that are not undone. -/
def replay (j : Journal) : Except Error (List (List RowWrite)) × Journal :=
  match j.stream.read with
  | (.error e, s) => (.error (.storage e), { j with stream := s })
  | (.ok bs, s) =>
    let scan := Scan.ofBytes bs
    let j := { j with frames := scan.entries.length }
    match scan.ending with
    | .complete => (.ok (survivors scan.entries), { j with stream := s })
    | .damaged fault => (.error (.logCorruption fault), { j with stream := s })
    | .torn =>
      match s.truncate scan.length with
      | (.error e, s) => (.error (.storage e), { j with stream := s })
      | (.ok (), s) => (.ok (survivors scan.entries), { j with stream := s })

theorem bytes_append_of_ok {j : Journal} {e : Entry} {offset : Nat} {j' : Journal}
    (h : j.append e = (.ok offset, j')) :
    ∃ frame, e.encode = .ok frame ∧ j'.stream.bytes = j.stream.bytes ++ frame := by
  unfold append at h
  split at h
  · cases h
  · next frame hf =>
    refine ⟨frame, hf, ?_⟩
    cases hn : j.stream.now.append with
    | some n => simp [Stream.append, hn] at h
    | none =>
      rw [Stream.append_of_now hn] at h
      have hb := Stream.bytes_flush (j.stream.extend frame).tick
      dsimp only at h
      split at h
      · split at h
        · cases h
        · next s hs =>
          cases h
          simpa [hs] using hb
      · cases h
        rfl

/-- The journal as diagnostics show it. -/
def describe (j : Journal) : String :=
  "TableLog \x7b size: Some(" ++ toString j.stream.size ++ "), sync_on_commit: " ++
    Text.word j.sync ++ ", frames: " ++ toString j.frames ++ " \x7d"

end Journal

end NamespaceCatalog
