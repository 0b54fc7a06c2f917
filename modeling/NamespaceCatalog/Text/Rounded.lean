/-!
# Whole numbers next to floating point numbers

`nearest` rounds a floating point number that is not negative to the nearest whole number; a half
goes to the even one.  It reads the number as `m * 2 ^ e` from its bits.  `nearestQuotient_le` and
`le_nearestQuotient` say that a rounded quotient is at most half a unit away.
-/

namespace NamespaceCatalog.Text

/-- The fraction `m` and the exponent `e` of the number `m * 2 ^ (e - 1075)` with the given bits. -/
def parts (bits : Nat) : Nat × Nat :=
  let fraction := bits % (1 <<< 52)
  let exponent := (bits >>> 52) % (1 <<< 11)
  if exponent = 0 then (fraction, 1) else (fraction + 1 <<< 52, exponent)

/-- The whole number nearest to `n / d`, a half going to the even one. -/
def nearestQuotient (n d : Nat) : Nat :=
  let q := n / d
  let twice := 2 * (n % d)
  if d < twice ∨ (twice = d ∧ q % 2 = 1) then q + 1 else q

theorem nearestQuotient_le (n d : Nat) : 2 * (d * nearestQuotient n d) ≤ 2 * n + d := by
  have h := Nat.div_add_mod n d
  simp only [nearestQuotient]
  split
  · rw [Nat.mul_add, Nat.mul_one]
    omega
  · omega

theorem le_nearestQuotient {n d : Nat} (hd : 0 < d) :
    2 * n ≤ 2 * (d * nearestQuotient n d) + d := by
  have h := Nat.div_add_mod n d
  have hm := Nat.mod_lt n hd
  simp only [nearestQuotient]
  split
  · rw [Nat.mul_add, Nat.mul_one]
    omega
  · omega

/-- The whole number nearest to a number that is not negative. -/
def nearest (x : Float) : Nat :=
  let (m, e) := parts x.toBits.toNat
  if 1075 ≤ e then m <<< (e - 1075) else nearestQuotient m (1 <<< (1075 - e))

end NamespaceCatalog.Text
