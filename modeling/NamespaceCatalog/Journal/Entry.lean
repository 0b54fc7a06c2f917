import NamespaceCatalog.Error
import NamespaceCatalog.Journal.Checksum

/-!
# Entries of a log

A log is a row of frames.  A frame holds one entry: the writes of a transaction that committed, or
the notice that such writes are undone.  It starts with a fixed word, the version of the format, the
type of the entry and the length of the payload, and ends with the checksum of all that.

`Entry.encode` gives the frame of an entry, and fails if a number does not fit its field.  `parse`
reads a frame; a frame at the end of the log that is cut short, or whose checksum does not match,
was not written to its end and is told apart (`Parsed.torn`) from damage.
-/

namespace NamespaceCatalog

/-- A row and its new value; none if the row is deleted. -/
abbrev RowWrite := Bytes × Option Bytes

/-- An entry of a log. -/
inductive Entry
  /-- The writes of a transaction. -/
  | commit (tx : TxId) (writes : List RowWrite)
  /-- The latest writes of a transaction are undone. -/
  | rollback (tx : TxId)
  deriving DecidableEq, Repr

namespace Entry

/-- What every frame starts with. -/
def magic : Bytes := [0x4E, 0x53, 0x54, 0x42]

/-- The version of the format. -/
def version : Nat := 1

/-- The type of a commit. -/
def commitType : UInt8 := 1

/-- The type of a rollback. -/
def rollbackType : UInt8 := 2

/-- The type of an entry. -/
def type : Entry → UInt8
  | commit _ _ => commitType
  | rollback _ => rollbackType

/-! ## Writing -/

/-- The number `n` in `w` bytes, if it fits. -/
def field (w n : Nat) : Except Error Bytes :=
  if n < Bytes.bound w then .ok (Bytes.littleEndian w n)
  else .error (.invalidOperation .entryTooLarge)

theorem field_eq_ok_iff {w n : Nat} {bs : Bytes} :
    field w n = .ok bs ↔ n < Bytes.bound w ∧ Bytes.littleEndian w n = bs := by
  unfold field
  split <;> simp [*]

/-- A byte string after its length. -/
def block (bs : Bytes) : Except Error Bytes := (field 4 bs.length).map (· ++ bs)

/-- A row and its new value. -/
def encodeWrite (w : RowWrite) : Except Error Bytes :=
  match block w.1, w.2 with
  | .error e, _ => .error e
  | .ok key, none => .ok (key ++ [0])
  | .ok key, some value => (block value).map (key ++ 1 :: ·)

/-- Rows and their new values. -/
def encodeWrites : List RowWrite → Except Error Bytes
  | [] => .ok []
  | w :: ws =>
    match encodeWrite w with
    | .error e => .error e
    | .ok row => (encodeWrites ws).map (row ++ ·)

/-- What the frame of an entry holds. -/
def payload : Entry → Except Error Bytes
  | commit tx writes =>
    match field 8 tx, field 4 writes.length with
    | .ok id, .ok count => (encodeWrites writes).map (id ++ count ++ ·)
    | .error e, _ | _, .error e => .error e
  | rollback tx => field 8 tx

/-- The frame that holds `payload`, but for its checksum. -/
def frameBody (type : UInt8) (length payload : Bytes) : Bytes :=
  magic ++ Bytes.littleEndian 2 version ++ type :: length ++ payload

/-- The end of a frame: the checksum of what is before it. -/
def trailer (body : Bytes) : Bytes := Bytes.littleEndian 4 (Checksum.crc32 body).toNat

/-- The frame of an entry. -/
def encode (e : Entry) : Except Error Bytes :=
  match e.payload with
  | .error e => .error e
  | .ok payload =>
    match field 4 payload.length with
    | .error e => .error e
    | .ok length =>
      let body := frameBody e.type length payload
      .ok (body ++ trailer body)

/-! ## Reading -/

/-- Reads `n` bytes of a payload. -/
def readBytes (n : Nat) (bs : Bytes) : Except LogFault (Bytes × Bytes) :=
  match Bytes.split? n bs with
  | some r => .ok r
  | none => .error .payloadEnded

/-- Reads a number of `w` bytes. -/
def readNumber (w : Nat) (bs : Bytes) : Except LogFault (Nat × Bytes) :=
  (readBytes w bs).map fun (field, rest) => (Bytes.ofLittleEndian field, rest)

/-- Reads a byte string after its length. -/
def readBlock (bs : Bytes) : Except LogFault (Bytes × Bytes) :=
  match readNumber 4 bs with
  | .error fault => .error fault
  | .ok (n, rest) => readBytes n rest

/-- Reads a row and its new value. -/
def readWrite (bs : Bytes) : Except LogFault (RowWrite × Bytes) :=
  match readBlock bs with
  | .error fault => .error fault
  | .ok (_, []) => .error .payloadEnded
  | .ok (key, flag :: rest) =>
    if flag = 0 then .ok ((key, none), rest)
    else if flag = 1 then (readBlock rest).map fun (value, rest) => ((key, some value), rest)
    else .error (.badFlag flag)

/-- Reads `n` rows and their new values. -/
def readWrites : (n : Nat) → Bytes → Except LogFault (List RowWrite × Bytes)
  | 0, bs => .ok ([], bs)
  | n + 1, bs =>
    match readWrite bs with
    | .error fault => .error fault
    | .ok (w, rest) => (readWrites n rest).map fun (ws, rest) => (w :: ws, rest)

/-- Reads an entry of the given type from the front of a payload. -/
def readEntry (type : UInt8) (bs : Bytes) : Except LogFault (Entry × Bytes) :=
  match readNumber 8 bs with
  | .error fault => .error fault
  | .ok (tx, rest) =>
    if type = rollbackType then .ok (rollback tx, rest)
    else
      match readNumber 4 rest with
      | .error fault => .error fault
      | .ok (n, rest) => (readWrites n rest).map fun (ws, rest) => (commit tx ws, rest)

/-- Reads a payload of the given type, which has to hold an entry and nothing else. -/
def ofPayload (type : UInt8) (payload : Bytes) : Except LogFault Entry :=
  match readEntry type payload with
  | .error fault => .error fault
  | .ok (e, []) => .ok e
  | .ok (_, rest) => .error (.trailingBytes (payload.length - rest.length) payload.length)

/-- What a byte string starts with. -/
inductive Parsed
  /-- An entry whose frame has `length` bytes, and the bytes after it. -/
  | entry (e : Entry) (length : Nat) (rest : Bytes)
  /-- A frame that was not written to its end. -/
  | torn
  deriving DecidableEq, Repr

/-- The number of bytes before the payload. -/
def headerLength : Nat := 11

/-- The number of bytes after the payload. -/
def trailerLength : Nat := 4

/-- Reads the payload of a frame and what follows it.  The header starts at byte `offset` of the log
and is read. -/
def parseBody (offset : Nat) (header rest : Bytes) : Except LogFault Parsed :=
  let n := Bytes.ofLittleEndian (header.drop 7)
  match Bytes.split? n rest with
  | none => .ok .torn
  | some (payload, rest) =>
    match Bytes.split? trailerLength rest with
    | none => .ok .torn
    | some (stored, rest) =>
      let type := header.getD 6 0
      if trailer (header ++ payload) ≠ stored then
        if rest.isEmpty then .ok .torn else .error (.badChecksum offset)
      else if type ≠ commitType ∧ type ≠ rollbackType then .error (.unknownType type offset)
      else (ofPayload type payload).map (.entry · (headerLength + n + trailerLength) rest)

/-- Reads the frame that a byte string starts with, at byte `offset` of the log. -/
def parse (offset : Nat) (bs : Bytes) : Except LogFault Parsed :=
  match Bytes.split? headerLength bs with
  | none => .ok .torn
  | some (header, rest) =>
    let v := Bytes.ofLittleEndian ((header.drop 4).take 2)
    if header.take 4 ≠ magic then .error (.badMagic offset)
    else if v ≠ version then .error (.badVersion v offset)
    else parseBody offset header rest

end Entry

end NamespaceCatalog
