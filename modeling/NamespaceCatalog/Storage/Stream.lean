import NamespaceCatalog.Error

/-!
# Byte streams

A stream is the storage behind a journal, a file or a piece of memory that grows at its end, as one
of its owners sees it.  The owner knows the size by its own operations only; if others change the
bytes as well, `size` and the length of `bytes` may differ.

A stream can fail.  `faults n` says what goes wrong at the use number `n`; the operations `read`,
`append`, `flush` and `truncate` are uses, and `readAt`, `extend` and `cut` are what they do to the
bytes when nothing goes wrong.
-/

namespace NamespaceCatalog

/-- What goes wrong at one use of a stream. -/
structure Faults where
  /-- An append fails, with so many of its bytes written. -/
  append : Option Nat
  flush : Bool
  read : Bool
  truncate : Bool
  deriving DecidableEq, Repr

/-- Nothing goes wrong. -/
def Faults.none : Faults := ⟨Option.none, false, false, false⟩

/-- A stream as its owner sees it. -/
structure Stream where
  bytes : Bytes
  /-- The number of bytes the owner knows of. -/
  size : Nat
  /-- How often the stream was used. -/
  uses : Nat
  faults : Nat → Faults

namespace Stream

/-- A stream that holds the given bytes, and never fails. -/
def ofBytes (bs : Bytes) : Stream := ⟨bs, bs.length, 0, fun _ => Faults.none⟩

/-- The faults of the next use. -/
def now (s : Stream) : Faults := s.faults s.uses

/-- The stream after a use. -/
def tick (s : Stream) : Stream := { s with uses := s.uses + 1 }

/-- The stream with the same faults at every use. -/
def withFaults (s : Stream) (f : Faults) : Stream := { s with faults := fun _ => f }

/-- The failure of an operation on the stream. -/
def failure (reason : String) : StorageError := .io (.stated reason)

/-! ## What the operations do to the bytes -/

/-- The `length` bytes from `offset` on. -/
def readAt (s : Stream) (offset length : Nat) : Except StorageError Bytes :=
  if s.size < offset + length then .error (.readPastEnd offset length s.size)
  else if length = 0 then .ok []
  else
    match Bytes.split? length (s.bytes.drop offset) with
    | some (front, _) => .ok front
    | none => .error (.io (.file .unexpectedEnd))

/-- The stream with `data` after its last byte. -/
def extend (s : Stream) (data : Bytes) : Stream :=
  { s with bytes := s.bytes ++ data, size := s.size + data.length }

/-- The stream cut down to its first `size` bytes.  Bytes that others removed are zeros. -/
def cut (s : Stream) (size : Nat) : Except StorageError Stream :=
  if s.size < size then .error (.truncateBeyondEnd size s.size)
  else
    .ok { s with
      bytes := s.bytes.take size ++ List.replicate (size - s.bytes.length) 0
      size }

/-! ## Uses -/

/-- Reads the whole stream. -/
def read (s : Stream) : Except StorageError Bytes × Stream :=
  if s.now.read then (.error (failure "read failed"), s.tick) else (s.readAt 0 s.size, s.tick)

/-- Appends `data`, and gives the offset of its first byte. -/
def append (s : Stream) (data : Bytes) : Except StorageError Nat × Stream :=
  match s.now.append with
  | none => (.ok s.size, (s.extend data).tick)
  | some n => (.error (failure "append failed"), (s.extend (data.take n)).tick)

/-- Brings the bytes to the disk. -/
def flush (s : Stream) : Except StorageError Unit × Stream :=
  if s.now.flush then (.error (failure "flush failed"), s.tick) else (.ok (), s.tick)

/-- Cuts the stream down to its first `size` bytes. -/
def truncate (s : Stream) (size : Nat) : Except StorageError Unit × Stream :=
  if s.now.truncate then (.error (failure "truncate failed"), s.tick)
  else
    match s.cut size with
    | .ok s => (.ok (), s.tick)
    | .error e => (.error e, s.tick)

@[simp] theorem bytes_extend (s : Stream) (data : Bytes) :
    (s.extend data).bytes = s.bytes ++ data := rfl

@[simp] theorem bytes_tick (s : Stream) : s.tick.bytes = s.bytes := rfl

@[simp] theorem bytes_flush (s : Stream) : s.flush.2.bytes = s.bytes := by
  unfold flush; split <;> rfl

@[simp] theorem bytes_read (s : Stream) : s.read.2.bytes = s.bytes := by
  unfold read; split <;> rfl

theorem append_of_now {s : Stream} (h : s.now.append = none) (data : Bytes) :
    s.append data = (.ok s.size, (s.extend data).tick) := by
  simp [append, h]

theorem append_of_failing {s : Stream} {n : Nat} (h : s.now.append = some n) (data : Bytes) :
    (s.append data).2.bytes = s.bytes ++ data.take n := by
  simp [append, h]

end Stream

end NamespaceCatalog
