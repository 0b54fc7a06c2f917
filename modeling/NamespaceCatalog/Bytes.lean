/-!
# Byte strings

Keys, values and logs are lists of bytes, compared byte by byte.  This file fixes the layouts of
numbers in them: `littleEndian w n` for the fields of a log, `bigEndian w n` where the order of
the bytes has to be the order of the numbers.  `ofLittleEndian_littleEndian` and
`littleEndian_ofLittleEndian` say that a field of `w` bytes holds exactly the numbers below
`bound w`.  `split? n` cuts off the first `n` bytes.
-/

namespace NamespaceCatalog

/-- A byte string. -/
abbrev Bytes := List UInt8

namespace Bytes

/-- The number `n` in `w` bytes, least significant byte first. -/
def littleEndian : (w n : Nat) → Bytes
  | 0, _ => []
  | w + 1, n => UInt8.ofNat n :: littleEndian w (n / 256)

/-- The number that a field holds, least significant byte first. -/
def ofLittleEndian : Bytes → Nat
  | [] => 0
  | b :: bs => b.toNat + 256 * ofLittleEndian bs

/-- The number `n` in `w` bytes, most significant byte first. -/
def bigEndian (w n : Nat) : Bytes := (littleEndian w n).reverse

/-- The number that a field holds, most significant byte first. -/
def ofBigEndian (bs : Bytes) : Nat := ofLittleEndian bs.reverse

/-- The number of values of a field of `w` bytes. -/
def bound (w : Nat) : Nat := 1 <<< (8 * w)

/-- The first `n` bytes and the rest, if there are so many. -/
def split? : (n : Nat) → Bytes → Option (Bytes × Bytes)
  | 0, bs => some ([], bs)
  | _ + 1, [] => none
  | n + 1, b :: bs =>
    match split? n bs with
    | some (front, rest) => some (b :: front, rest)
    | none => none

@[simp] theorem length_littleEndian (w n : Nat) : (littleEndian w n).length = w := by
  induction w generalizing n with
  | zero => rfl
  | succ w ih => simp [littleEndian, ih]

@[simp] theorem length_bigEndian (w n : Nat) : (bigEndian w n).length = w := by
  simp [bigEndian]

@[simp] theorem bound_zero : bound 0 = 1 := rfl

theorem bound_succ (w : Nat) : bound (w + 1) = 256 * bound w := by
  rw [bound, bound, Nat.mul_add, Nat.shiftLeft_add, Nat.shiftLeft_eq _ (8 * 1), Nat.mul_comm]

theorem ofLittleEndian_lt (bs : Bytes) : ofLittleEndian bs < bound bs.length := by
  induction bs with
  | nil => simp [ofLittleEndian]
  | cons b bs ih =>
    have hb := b.toNat_lt
    simp only [ofLittleEndian, List.length_cons, bound_succ]
    omega

theorem ofLittleEndian_littleEndian {w n : Nat} (h : n < bound w) :
    ofLittleEndian (littleEndian w n) = n := by
  induction w generalizing n with
  | zero =>
    rw [bound_zero] at h
    exact (Nat.lt_one_iff.mp h).symm
  | succ w ih =>
    rw [bound_succ] at h
    have hd : n / 256 < bound w := Nat.div_lt_of_lt_mul h
    simp only [littleEndian, ofLittleEndian, ih hd, UInt8.toNat_ofNat']
    omega

theorem littleEndian_ofLittleEndian (bs : Bytes) :
    littleEndian bs.length (ofLittleEndian bs) = bs := by
  induction bs with
  | nil => rfl
  | cons b bs ih =>
    have hb := b.toNat_lt
    have hq : (b.toNat + 256 * ofLittleEndian bs) / 256 = ofLittleEndian bs := by omega
    simp only [ofLittleEndian, List.length_cons, littleEndian, hq, ih, List.cons.injEq, and_true]
    apply UInt8.toNat_inj.mp
    rw [UInt8.toNat_ofNat']
    omega

theorem ofBigEndian_bigEndian {w n : Nat} (h : n < bound w) : ofBigEndian (bigEndian w n) = n := by
  simp [ofBigEndian, bigEndian, ofLittleEndian_littleEndian h]

theorem split?_append (front rest : Bytes) :
    split? front.length (front ++ rest) = some (front, rest) := by
  induction front with
  | nil => simp [split?]
  | cons b bs ih => simp [split?, ih]

theorem split?_eq_some {n : Nat} {bs front rest : Bytes} (h : split? n bs = some (front, rest)) :
    bs = front ++ rest ∧ front.length = n := by
  induction n generalizing bs front with
  | zero => cases h; simp
  | succ n ih =>
    cases bs with
    | nil => cases h
    | cons b bs =>
      simp only [split?] at h
      split at h
      · next f r hr =>
        cases h
        obtain ⟨rfl, rfl⟩ := ih hr
        simp
      · cases h

theorem split?_eq_none_iff {n : Nat} {bs : Bytes} : split? n bs = none ↔ bs.length < n := by
  induction n generalizing bs with
  | zero => simp [split?]
  | succ n ih =>
    cases bs with
    | nil => simp [split?]
    | cons b bs =>
      have := @ih bs
      simp only [split?, List.length_cons, Nat.add_lt_add_iff_right]
      rw [← this]
      split <;> simp_all

end Bytes

end NamespaceCatalog
