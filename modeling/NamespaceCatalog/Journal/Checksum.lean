import NamespaceCatalog.Bytes

/-!
# The checksum of a log

The checksum is the cyclic redundancy check CRC-32.  It is computed a byte at a time with a table
of the remainders of all bytes.
-/

namespace NamespaceCatalog.Checksum

/-- The polynomial that is divided by, the coefficient of the highest power in the lowest bit. -/
def polynomial : UInt32 := 0xEDB88320

/-- Divides by one bit. -/
def shiftBit (crc : UInt32) : UInt32 :=
  if crc &&& 1 = 1 then (crc >>> 1) ^^^ polynomial else crc >>> 1

/-- Divides by the eight bits of a byte. -/
def shiftByte (crc : UInt32) : UInt32 := Nat.repeat shiftBit 8 crc

/-- The remainders of all bytes. -/
def table : Vector UInt32 256 := Vector.ofFn fun i => shiftByte (UInt32.ofNat i)

/-- The remainder after one more byte. -/
def update (crc : UInt32) (b : UInt8) : UInt32 :=
  let low := crc.toUInt8 ^^^ b
  have h := low.toNat_lt
  (crc >>> 8) ^^^ table[low.toNat]

/-- The checksum of a byte string. -/
def crc32 (bs : Bytes) : UInt32 := ~~~ bs.foldl update 0xFFFFFFFF

end NamespaceCatalog.Checksum
