import NamespaceCatalog.Bytes

/-!
# Text as bytes

Texts are stored as UTF-8.  `encode` gives the bytes of a text, `decode` the text of a byte string
or the first fault in it.  `decode_encode` and `encode_of_decode` say that the two undo each other,
so a byte string is accepted exactly if it is the stored form of some text.

A fault is found by the table of well-formed sequences: it counts the bytes that may stand
together at the start of a character, and a byte string that ends inside a character which could
still have been completed is told apart from one that can never be completed.
-/

namespace NamespaceCatalog.Utf8

/-- Why a byte string is not UTF-8. -/
inductive Fault
  /-- The `length` bytes from `index` on start no character. -/
  | invalid (length index : Nat)
  /-- The bytes from `index` to the end start a character and do not finish it. -/
  | incomplete (index : Nat)
  deriving DecidableEq, Repr

/-- The fault as a sentence. -/
def Fault.message : Fault → String
  | .invalid n i =>
    "invalid utf-8 sequence of " ++ toString n ++ " bytes from index " ++ toString i
  | .incomplete i => "incomplete utf-8 byte sequence from index " ++ toString i

/-- The stored form of a text. -/
def encode (s : String) : Bytes := s.toByteArray.data.toList

/-- The second byte that may follow the first byte `a` of a character: the least and the greatest,
and how many bytes follow `a` in all.  No character starts with another byte above `0x7F`. -/
def follow (a : UInt8) : Option (UInt8 × UInt8 × Nat) :=
  if 0xC2 ≤ a ∧ a ≤ 0xDF then some (0x80, 0xBF, 1)
  else if a = 0xE0 then some (0xA0, 0xBF, 2)
  else if a = 0xED then some (0x80, 0x9F, 2)
  else if 0xE1 ≤ a ∧ a ≤ 0xEF then some (0x80, 0xBF, 2)
  else if a = 0xF0 then some (0x90, 0xBF, 3)
  else if 0xF1 ≤ a ∧ a ≤ 0xF3 then some (0x80, 0xBF, 3)
  else if a = 0xF4 then some (0x80, 0x8F, 3)
  else none

/-- Reads the rest of a character that started at `index`, of which `seen` bytes are read: the next
byte lies between `low` and `high`, and `more` bytes after it are tails.  Gives the bytes after the
character. -/
def tails (index : Nat) : (seen more : Nat) → (low high : UInt8) → Bytes → Except Fault Bytes
  | _, _, _, _, [] => .error (.incomplete index)
  | seen, more, low, high, b :: bs =>
    if low ≤ b ∧ b ≤ high then
      match more with
      | 0 => .ok bs
      | more + 1 => tails index (seen + 1) more 0x80 0xBF bs
    else .error (.invalid seen index)

/-- The first fault of a byte string whose characters so far take `index` bytes.  The measure `fuel`
bounds the number of characters. -/
def faultFrom : (fuel index : Nat) → Bytes → Option Fault
  | 0, _, _ => none
  | _ + 1, _, [] => none
  | fuel + 1, index, a :: bs =>
    if a < 0x80 then faultFrom fuel (index + 1) bs
    else
      match follow a with
      | none => some (.invalid 1 index)
      | some (low, high, n) =>
        match tails index 1 (n - 1) low high bs with
        | .ok rest => faultFrom fuel (index + 1 + n) rest
        | .error fault => some fault

/-- The first fault of a byte string that is not UTF-8. -/
def firstFault (bs : Bytes) : Fault := (faultFrom bs.length 0 bs).getD (.incomplete bs.length)

/-- The text of a byte string, or its first fault. -/
def decode (bs : Bytes) : Except Fault String :=
  match String.fromUTF8? ⟨bs.toArray⟩ with
  | some s => .ok s
  | none => .error (firstFault bs)

theorem decode_encode (s : String) : decode (encode s) = .ok s := by
  have h : (⟨(encode s).toArray⟩ : ByteArray) = s.toByteArray := by simp [encode]
  have hv : (⟨(encode s).toArray⟩ : ByteArray).IsValidUTF8 := h ▸ s.isValidUTF8
  simp only [decode, String.fromUTF8?, hv, dif_pos, Except.ok.injEq]
  exact String.toByteArray_inj.mp h

theorem encode_of_decode {bs : Bytes} {s : String} (h : decode bs = .ok s) : encode s = bs := by
  unfold decode at h
  split at h
  next t ht =>
    simp only [String.fromUTF8?] at ht
    split at ht
    · cases h
      cases ht
      simp [encode, String.fromUTF8]
    · cases ht
  next => cases h

theorem encode_injective {s t : String} (h : encode s = encode t) : s = t := by
  have := decode_encode t
  rw [← h, decode_encode] at this
  exact Except.ok.inj this

end NamespaceCatalog.Utf8
