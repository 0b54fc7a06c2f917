import NamespaceCatalog.Bytes
import NamespaceCatalog.Text.Utf8

/-!
# Row keys

The key of a row is a composite of segments, texts and integers, written one after the other.  A
text is its tag, its bytes with each zero byte followed by `0xFF`, and a zero byte; an integer is
its tag and eight bytes, shifted so that the least integer is all zeros.  The layout is chosen so
that keys compare byte by byte as their segment lists do, and so that a key is a byte prefix of
every key that goes on from its segments.
-/

namespace NamespaceCatalog.Key

/-- One component of a key. -/
inductive Segment
  | text (s : String)
  | integer (n : Int64)
  deriving DecidableEq

/-- The first byte of a text segment. -/
def textTag : UInt8 := 0x02

/-- The first byte of an integer segment. -/
def integerTag : UInt8 := 0x03

/-- The last byte of a text segment. -/
def terminator : UInt8 := 0x00

/-- The byte after a zero byte that does not end the text. -/
def escape : UInt8 := 0xFF

/-- The bytes of a text with each zero byte marked, and the end. -/
def escaped : Bytes → Bytes
  | [] => [terminator]
  | b :: bs => if b = terminator then b :: escape :: escaped bs else b :: escaped bs

/-- The number by which an integer is shifted to make it natural. -/
def bias : Nat := 9223372036854775808

/-- The bytes of one segment. -/
def Segment.encode : Segment → Bytes
  | text s => textTag :: escaped (Utf8.encode s)
  | integer n => integerTag :: Bytes.bigEndian 8 (n.toInt + bias).toNat

/-- The key made of the given segments. -/
def ofSegments (segments : List Segment) : Bytes := segments.flatMap Segment.encode

/-- What every key of the given tag starts with. -/
def ofTag (tag : String) : Bytes := ofSegments [.text tag]

@[simp] theorem ofSegments_nil : ofSegments [] = [] := rfl

@[simp] theorem ofSegments_cons (s : Segment) (ss : List Segment) :
    ofSegments (s :: ss) = s.encode ++ ofSegments ss := rfl

@[simp] theorem ofSegments_append (ss ts : List Segment) :
    ofSegments (ss ++ ts) = ofSegments ss ++ ofSegments ts := by
  simp [ofSegments]

end NamespaceCatalog.Key
