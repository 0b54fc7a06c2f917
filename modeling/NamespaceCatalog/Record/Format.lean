import NamespaceCatalog.Record.Document

/-!
# Stored records

A codec turns records into bytes and back.  A catalog has the codec of one of two value formats,
JSON and CBOR.  Each leaves the bytes to the library for its data format, which is a parameter
(`Format.codec`).
-/

namespace NamespaceCatalog

/-- A stored form of records. -/
structure Codec where
  encode : Record → Except Error Bytes
  decode : Bytes → Except Error Record

namespace Codec

/-- The stored form of a record; no bytes if it has none. -/
def stored (c : Codec) (r : Record) : Bytes := (c.encode r).toOption.getD []

/-- Does the record come back as it was stored? -/
def RoundTrips (c : Codec) (r : Record) : Prop := ∃ bs, c.encode r = .ok bs ∧ c.decode bs = .ok r

variable {c : Codec} {r : Record}

theorem stored_of_encode {bs : Bytes} (h : c.encode r = .ok bs) : c.stored r = bs := by
  rw [stored, h]
  rfl

theorem roundTrips_iff : c.RoundTrips r ↔ (c.encode r).bind c.decode = .ok r := by
  unfold RoundTrips
  cases c.encode r with
  | error e => simp [Except.bind]
  | ok bs => simp [Except.bind]

instance : Decidable (c.RoundTrips r) := decidable_of_iff _ roundTrips_iff.symm

theorem RoundTrips.encode_eq (h : c.RoundTrips r) : c.encode r = .ok (c.stored r) := by
  obtain ⟨bs, h, -⟩ := h
  rw [stored_of_encode h, h]

theorem RoundTrips.decode_eq (h : c.RoundTrips r) : c.decode (c.stored r) = .ok r := by
  obtain ⟨bs, h, hd⟩ := h
  rwa [stored_of_encode h]

end Codec

/-- The codec of a data format.  What fails in the library is reported in its words, after `writing`
or `reading`. -/
def DataFormat.codec (lib : DataFormat) (writing reading : String) : Codec where
  encode r :=
    match lib.write r.toDocument with
    | .ok bs => .ok bs
    | .error reason => .error (.codec (.unwritable (writing ++ reason)))
  decode bs :=
    match lib.read Record.shape bs with
    | .error reason => .error (.codec (.unreadable (reading ++ reason)))
    | .ok d =>
      match Record.ofDocument d with
      | .error fault => .error (.codec (.unreadable (reading ++ lib.refuse fault)))
      | .ok r => .ok r

/-- The format of stored records. -/
inductive Format
  | json
  | cbor
  deriving DecidableEq, Repr

namespace Format

/-- The name of the format. -/
def label : Format → String
  | json => "Json"
  | cbor => "Cbor"

/-- The codec of a format, with the library for each data format. -/
def codec (libs : Format → DataFormat) : Format → Codec
  | json => (libs json).codec "" ""
  | cbor => (libs cbor).codec "cbor encode: " "cbor decode: "

end Format

end NamespaceCatalog
