import NamespaceCatalog.Key.Basic

/-!
# The order of keys

Segments are ordered by their values: texts by their bytes, integers as numbers, and every text
before every integer.  Keys compare byte by byte as their lists of segments do
(`compare_ofSegments`), so a shorter list comes before every list that goes on after it.

Each part of a segment is read here with whatever follows it: `compare_escaped_append` for the bytes
of a text, `compare_bigEndian_append` for those of an integer.  What ends a text is the least byte,
and so is what an escaped zero starts with.  The byte after it decides: no segment starts with
`escape` (`StartsBelowEscape`), and it is greater than all that a segment can start with.
-/

namespace NamespaceCatalog

namespace Bytes

/-! ## Numbers -/

theorem bigEndian_succ (w n : Nat) :
    bigEndian (w + 1) n = bigEndian w (n / 256) ++ [UInt8.ofNat n] := by
  simp [bigEndian, littleEndian]

/-- Numbers compare by the last digit if all before it are the same. -/
theorem compare_div_then (m n : Nat) :
    (compare (m / 256) (n / 256)).then (compare (UInt8.ofNat m) (UInt8.ofNat n)) =
      compare m n := by
  have hlast : compare (UInt8.ofNat m) (UInt8.ofNat n) = compare (m % 256) (n % 256) := by
    simp only [compare, compareOfLessAndEq, UInt8.lt_iff_toNat_lt, ← UInt8.toNat_inj,
      UInt8.toNat_ofNat']
  rw [hlast]
  rcases Nat.lt_trichotomy (m / 256) (n / 256) with h | h | h
  · have hmn : m < n := by omega
    rw [Nat.compare_eq_lt.2 h, Nat.compare_eq_lt.2 hmn]
    rfl
  · have hlt : m % 256 < n % 256 ↔ m < n := by omega
    have hgt : n % 256 < m % 256 ↔ n < m := by omega
    rw [Nat.compare_eq_eq.2 h, Ordering.eq_then]
    simp only [Nat.compare_eq_ite_lt, hlt, hgt]
  · have hmn : n < m := by omega
    rw [Nat.compare_eq_gt.2 h, Nat.compare_eq_gt.2 hmn]
    rfl

/-- Fields of one width compare as the numbers in them. -/
theorem compare_bigEndian_append {w m n : Nat} (hm : m < bound w) (hn : n < bound w)
    (us vs : Bytes) :
    compare (bigEndian w m ++ us) (bigEndian w n ++ vs) = (compare m n).then (compare us vs) := by
  induction w generalizing m n us vs with
  | zero =>
    rw [bound_zero] at hm hn
    obtain rfl : m = 0 := by omega
    obtain rfl : n = 0 := by omega
    rfl
  | succ w ih =>
    rw [bound_succ] at hm hn
    rw [bigEndian_succ, bigEndian_succ, List.append_assoc, List.append_assoc,
      ih (Nat.div_lt_of_lt_mul hm) (Nat.div_lt_of_lt_mul hn), List.singleton_append,
      List.singleton_append, List.compare_cons_cons, ← Ordering.then_assoc, compare_div_then]

end Bytes

namespace Key

/-! ## The order of segments -/

/-- Texts by their bytes, integers by value, every text before every integer. -/
def Segment.compare : Segment → Segment → Ordering
  | text s, text t => Ord.compare (Utf8.encode s) (Utf8.encode t)
  | text _, integer _ => .lt
  | integer _, text _ => .gt
  | integer m, integer n => Ord.compare m.toInt n.toInt

instance : Ord Segment := ⟨Segment.compare⟩

/-- Whatever the bytes start with, it is less than the mark of a zero. -/
def StartsBelowEscape (bs : Bytes) : Prop := ∀ b ∈ bs.head?, b < escape

theorem exists_encode_eq_cons (s : Segment) : ∃ b bs, s.encode = b :: bs := by
  cases s <;> exact ⟨_, _, rfl⟩

theorem startsBelowEscape_encode_append (s : Segment) (bs : Bytes) :
    StartsBelowEscape (s.encode ++ bs) := by
  intro b hb
  cases s <;> obtain rfl := Option.some.inj hb <;> decide

theorem startsBelowEscape_ofSegments (ss : List Segment) : StartsBelowEscape (ofSegments ss) := by
  cases ss with
  | nil => exact nofun
  | cons s ss => exact startsBelowEscape_encode_append s (ofSegments ss)

theorem compare_cons_escape {us : Bytes} (hu : StartsBelowEscape us) (vs : Bytes) :
    compare us (escape :: vs) = .lt := by
  cases us with
  | nil => rfl
  | cons u us =>
    have hlt : u < escape := hu u rfl
    rw [List.compare_cons_cons, Std.compare_eq_lt.2 hlt]
    rfl

/-! ## Keys -/

/-- A text that goes on with a zero is greater than one that ends there, whatever follows. -/
theorem compare_escaped_nil {us : Bytes} (hu : StartsBelowEscape us) (y : UInt8) (ys vs : Bytes) :
    compare (escaped [] ++ us) (escaped (y :: ys) ++ vs) = .lt := by
  by_cases hy : y = terminator
  · subst hy
    show compare (terminator :: us) (terminator :: escape :: (escaped ys ++ vs)) = .lt
    rw [List.compare_cons_cons, Std.ReflOrd.compare_self]
    exact compare_cons_escape hu _
  · have hlt : terminator < y := by
      rw [UInt8.lt_iff_toNat_lt]
      have : y.toNat ≠ 0 := fun e => hy (UInt8.toNat_inj.1 e)
      exact Nat.pos_of_ne_zero this
    simp [escaped, hy, Std.compare_eq_lt.2 hlt]

theorem exists_escaped_cons (b : UInt8) (bs : Bytes) : ∃ rest, escaped (b :: bs) = b :: rest := by
  rw [escaped]
  split
  · exact ⟨_, rfl⟩
  · exact ⟨_, rfl⟩

/-- Texts with their ends compare as their bytes do. -/
theorem compare_escaped_append {us vs : Bytes} (hu : StartsBelowEscape us)
    (hv : StartsBelowEscape vs) (xs ys : Bytes) :
    compare (escaped xs ++ us) (escaped ys ++ vs) = (compare xs ys).then (compare us vs) := by
  induction xs generalizing ys with
  | nil =>
    cases ys with
    | nil => simp [escaped]
    | cons y ys => rw [compare_escaped_nil hu y ys vs]; rfl
  | cons x xs ih =>
    cases ys with
    | nil =>
      rw [Std.OrientedOrd.eq_swap (a := escaped (x :: xs) ++ us), compare_escaped_nil hv x xs us]
      rfl
    | cons y ys =>
      rw [List.compare_cons_cons, Ordering.then_assoc, ← ih]
      by_cases hxy : x = y
      · subst hxy
        rw [Std.ReflOrd.compare_self, Ordering.eq_then, escaped, escaped]
        split <;> simp
      · have hne : compare x y ≠ .eq := by simpa using hxy
        obtain ⟨xs', hx⟩ := exists_escaped_cons x xs
        obtain ⟨ys', hy⟩ := exists_escaped_cons y ys
        rw [hx, hy, List.cons_append, List.cons_append, List.compare_cons_cons]
        cases hc : compare x y with
        | lt => rfl
        | eq => exact absurd hc hne
        | gt => rfl

/-- The shifted form of an integer is a number of eight bytes. -/
theorem shifted_lt_bound (n : Int64) : (n.toInt + bias).toNat < Bytes.bound 8 := by
  have hlow := n.le_toInt
  have hhigh := n.toInt_lt
  have : Bytes.bound 8 = 2 ^ 64 := by decide
  unfold bias
  omega

theorem compare_shifted (m n : Int64) :
    compare (m.toInt + bias).toNat (n.toInt + bias).toNat = compare m.toInt n.toInt := by
  have hm := m.le_toInt
  have hn := n.le_toInt
  have hlt : (m.toInt + bias).toNat < (n.toInt + bias).toNat ↔ m.toInt < n.toInt := by
    unfold bias
    omega
  have heq : (m.toInt + bias).toNat = (n.toInt + bias).toNat ↔ m.toInt = n.toInt := by
    unfold bias
    omega
  simp only [compare, compareOfLessAndEq, hlt, heq]

/-- Segments compare by value whatever follows them; what follows decides if they are equal. -/
theorem compare_encode_append {us vs : Bytes} (hu : StartsBelowEscape us)
    (hv : StartsBelowEscape vs) (s t : Segment) :
    compare (s.encode ++ us) (t.encode ++ vs) = (compare s t).then (compare us vs) := by
  cases s with
  | text s =>
    cases t with
    | text t =>
      rw [Segment.encode, Segment.encode, List.cons_append, List.cons_append,
        List.compare_cons_cons, Std.ReflOrd.compare_self, Ordering.eq_then,
        compare_escaped_append hu hv]
      rfl
    | integer n => rfl
  | integer m =>
    cases t with
    | text t => rfl
    | integer n =>
      rw [Segment.encode, Segment.encode, List.cons_append, List.cons_append,
        List.compare_cons_cons, Std.ReflOrd.compare_self, Ordering.eq_then,
        Bytes.compare_bigEndian_append (shifted_lt_bound m) (shifted_lt_bound n), compare_shifted]
      rfl

/-- Keys compare byte by byte as their lists of segments do. -/
theorem compare_ofSegments (a b : List Segment) :
    compare (ofSegments a) (ofSegments b) = compare a b := by
  induction a generalizing b with
  | nil =>
    cases b with
    | nil => rfl
    | cons t b =>
      obtain ⟨y, ys, h⟩ := exists_encode_eq_cons t
      rw [ofSegments_cons, h]
      rfl
  | cons s a ih =>
    cases b with
    | nil =>
      obtain ⟨x, xs, h⟩ := exists_encode_eq_cons s
      rw [ofSegments_cons, h]
      rfl
    | cons t b =>
      rw [ofSegments_cons, ofSegments_cons,
        compare_encode_append (startsBelowEscape_ofSegments a) (startsBelowEscape_ofSegments b), ih,
        List.compare_cons_cons]

/-- A text that ends comes before one that goes on with a zero, whatever segment follows it. -/
example : compare (ofSegments [.text "a", .integer (-1)]) (ofSegments [.text "a\x00"]) = .lt := by
  decide +kernel

end Key

end NamespaceCatalog
