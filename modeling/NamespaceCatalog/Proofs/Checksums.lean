import Mathlib.Data.List.Induction
import Mathlib.Data.List.OfFn
import Mathlib.Logic.Function.Basic
import NamespaceCatalog.Journal.Checksum

/-!
# Checksums tell damage

Dividing by a bit is linear in exclusive or (`shiftBit_xor`), and it loses nothing, as the lowest
bit comes out at the top (`shiftBit_injective`).  So a step with the table is eight steps after the
byte was put in (`update_eq`).

`remainder` is the checksum without a table: it takes the bits of a message one by one.  As many
bits as fit into the remainder may be put in at once (`foldl_takeBit`).  For eight of them this is a
step with the table, so that both ways give the same checksum (`crc32_eq_remainder`).  For a burst
of 32 bits it says that the burst can be told from what it makes of the remainder
(`remainder_ne`): messages that differ in nothing but such a burst have different checksums.
-/

namespace NamespaceCatalog.Checksum

/-! ## One bit -/

theorem lowest_eq_one_iff (x : UInt32) : x &&& 1 = 1 ↔ x.toBitVec.getLsbD 0 = true := by
  have h : (x &&& 1).toBitVec = BitVec.setWidth 32 (BitVec.ofBool (x.toBitVec.getLsbD 0)) := by
    rw [UInt32.toBitVec_and]
    exact BitVec.and_one_eq_setWidth_ofBool_getLsbD
  rw [← UInt32.toBitVec_inj, h]
  cases x.toBitVec.getLsbD 0 <;> decide

/-- What is put in for the bit that falls out. -/
def feedback (x : UInt32) : UInt32 := if x.toBitVec.getLsbD 0 then polynomial else 0

theorem shiftBit_eq (x : UInt32) : shiftBit x = (x >>> 1) ^^^ feedback x := by
  unfold shiftBit feedback
  simp only [lowest_eq_one_iff]
  split
  · rfl
  · rw [UInt32.xor_zero]

theorem feedback_xor (x y : UInt32) : feedback (x ^^^ y) = feedback x ^^^ feedback y := by
  unfold feedback
  rw [UInt32.toBitVec_xor, BitVec.getLsbD_xor]
  cases x.toBitVec.getLsbD 0 <;> cases y.toBitVec.getLsbD 0 <;> decide

theorem shiftBit_xor (x y : UInt32) : shiftBit (x ^^^ y) = shiftBit x ^^^ shiftBit y := by
  rw [shiftBit_eq, shiftBit_eq, shiftBit_eq, feedback_xor, UInt32.shiftRight_xor]
  ac_rfl

theorem toBitVec_shiftBit (x : UInt32) :
    (shiftBit x).toBitVec = (x.toBitVec >>> 1) ^^^ (feedback x).toBitVec := by
  rw [shiftBit_eq, UInt32.toBitVec_xor, UInt32.toBitVec_shiftRight]
  rfl

/-- The highest bit of the result is the lowest bit before. -/
theorem getLsbD_shiftBit (x : UInt32) :
    (shiftBit x).toBitVec.getLsbD 31 = x.toBitVec.getLsbD 0 := by
  have hfeedback : (feedback x).toBitVec.getLsbD 31 = x.toBitVec.getLsbD 0 := by
    unfold feedback
    cases x.toBitVec.getLsbD 0 <;> decide
  rw [toBitVec_shiftBit, BitVec.getLsbD_xor, hfeedback, BitVec.getLsbD_ushiftRight,
    BitVec.getLsbD_of_ge _ _ (Nat.le_refl 32), Bool.false_xor]

theorem feedback_of_even {x : UInt32} (h : x.toBitVec.getLsbD 0 = false) : feedback x = 0 := by
  rw [feedback, h]
  rfl

theorem eq_zero_of_shiftBit {x : UInt32} (h : shiftBit x = 0) : x = 0 := by
  have hlow : x.toBitVec.getLsbD 0 = false := by
    rw [← getLsbD_shiftBit, h]
    rfl
  have hhigh : x.toBitVec >>> 1 = 0#32 := by
    have := toBitVec_shiftBit x
    rw [h, feedback_of_even hlow, UInt32.toBitVec_zero, BitVec.xor_zero] at this
    exact this.symm
  refine UInt32.toBitVec_inj.1 (BitVec.eq_of_getLsbD_eq fun i _ => ?_)
  rw [UInt32.toBitVec_zero, BitVec.getLsbD_zero]
  cases i with
  | zero => exact hlow
  | succ i =>
    rw [Nat.add_comm, ← BitVec.getLsbD_ushiftRight, hhigh, BitVec.getLsbD_zero]

theorem shiftBit_injective : Function.Injective shiftBit := by
  intro x y h
  refine UInt32.xor_eq_zero_iff.1 (eq_zero_of_shiftBit ?_)
  rw [shiftBit_xor, h, UInt32.xor_self]

/-! ## Several bits -/

theorem repeat_shiftBit_xor (n : Nat) (x y : UInt32) :
    Nat.repeat shiftBit n (x ^^^ y) = Nat.repeat shiftBit n x ^^^ Nat.repeat shiftBit n y := by
  induction n with
  | zero => rfl
  | succ n ih =>
    rw [Nat.repeat, ih, shiftBit_xor]
    rfl

theorem repeat_shiftBit_injective (n : Nat) : Function.Injective (Nat.repeat shiftBit n) := by
  induction n with
  | zero => exact fun _ _ h => h
  | succ n ih => exact shiftBit_injective.comp ih

/-- Zeros at the bottom fall out without feedback. -/
theorem toBitVec_repeat_shiftBit {x : UInt32} {n : Nat}
    (h : ∀ i < n, x.toBitVec.getLsbD i = false) :
    (Nat.repeat shiftBit n x).toBitVec = x.toBitVec >>> n := by
  induction n with
  | zero => exact (BitVec.ushiftRight_zero _).symm
  | succ n ih =>
    have ih := ih fun i hi => h i (Nat.lt_succ_of_lt hi)
    have hlow : (Nat.repeat shiftBit n x).toBitVec.getLsbD 0 = false := by
      rw [ih, BitVec.getLsbD_ushiftRight]
      exact h n (Nat.lt_succ_self n)
    rw [Nat.repeat, toBitVec_shiftBit, feedback_of_even hlow, ih, ← BitVec.shiftRight_add,
      UInt32.toBitVec_zero, BitVec.xor_zero]

/-! ## One byte -/

theorem shiftByte_xor (x y : UInt32) : shiftByte (x ^^^ y) = shiftByte x ^^^ shiftByte y :=
  repeat_shiftBit_xor 8 x y

/-- The bits of a remainder above its lowest byte. -/
def high (x : UInt32) : UInt32 := x &&& 0xFFFFFF00

theorem getLsbD_high (x : UInt32) (i : Nat) :
    (high x).toBitVec.getLsbD i = (x.toBitVec.getLsbD i && decide (8 ≤ i)) := by
  have hmask : ∀ i < 32, (0xFFFFFF00 : UInt32).toBitVec.getLsbD i = decide (8 ≤ i) := by decide
  rw [high, UInt32.toBitVec_and, BitVec.getLsbD_and]
  by_cases hi : i < 32
  · rw [hmask i hi]
  · rw [BitVec.getLsbD_of_ge _ _ (Nat.le_of_not_lt hi), Bool.false_and, Bool.false_and]

theorem eq_low_xor_high (x : UInt32) : x = x.toUInt8.toUInt32 ^^^ high x := by
  refine UInt32.toBitVec_inj.1 (BitVec.eq_of_getLsbD_eq fun i hi => ?_)
  rw [UInt32.toBitVec_xor, BitVec.getLsbD_xor, getLsbD_high, UInt8.toBitVec_toUInt32,
    UInt32.toBitVec_toUInt8, BitVec.getLsbD_setWidth, BitVec.getLsbD_setWidth]
  by_cases h : i < 8
  · simp [h, hi, Nat.not_le.2 h]
  · simp [h, Nat.le_of_not_lt h]

theorem shiftByte_high (x : UInt32) : shiftByte (high x) = x >>> 8 := by
  refine UInt32.toBitVec_inj.1 ?_
  rw [shiftByte, toBitVec_repeat_shiftBit, UInt32.toBitVec_shiftRight]
  · refine BitVec.eq_of_getLsbD_eq fun i _ => ?_
    show ((high x).toBitVec >>> 8).getLsbD i = (x.toBitVec >>> 8).getLsbD i
    rw [BitVec.getLsbD_ushiftRight, BitVec.getLsbD_ushiftRight, getLsbD_high,
      decide_eq_true (Nat.le_add_right 8 i), Bool.and_true]
  · intro i hi
    rw [getLsbD_high, decide_eq_false (Nat.not_le.2 hi), Bool.and_false]

/-- A step puts the byte in and divides by its eight bits. -/
theorem update_eq (crc : UInt32) (b : UInt8) : update crc b = shiftByte (crc ^^^ b.toUInt32) := by
  have hsplit : crc ^^^ b.toUInt32 = (crc.toUInt8 ^^^ b).toUInt32 ^^^ high crc := by
    calc crc ^^^ b.toUInt32
        = crc.toUInt8.toUInt32 ^^^ high crc ^^^ b.toUInt32 := by rw [← eq_low_xor_high]
      _ = (crc.toUInt8 ^^^ b).toUInt32 ^^^ high crc := by
        rw [UInt8.toUInt32_xor]
        ac_rfl
  have htable : update crc b = (crc >>> 8) ^^^ shiftByte (crc.toUInt8 ^^^ b).toUInt32 := by
    rw [update, table]
    simp only [Vector.getElem_ofFn, UInt32.ofNat_uInt8ToNat]
  rw [htable, hsplit, shiftByte_xor, shiftByte_high, UInt32.xor_comm]

/-! ## The bits of a byte string -/

/-- The bits of a byte, the lowest first. -/
def bitsOfByte (b : UInt8) : List Bool := List.ofFn fun i : Fin 8 => b.toBitVec.getLsbD i

/-- The bits of a byte string, in the order in which they are taken. -/
def bits (bs : Bytes) : List Bool := bs.flatMap bitsOfByte

theorem bits_cons (b : UInt8) (bs : Bytes) : bits (b :: bs) = bitsOfByte b ++ bits bs := rfl

theorem bits_append (bs ds : Bytes) : bits (bs ++ ds) = bits bs ++ bits ds := List.flatMap_append

@[simp] theorem length_bitsOfByte (b : UInt8) : (bitsOfByte b).length = 8 := List.length_ofFn

@[simp] theorem length_bits (bs : Bytes) : (bits bs).length = 8 * bs.length := by
  induction bs with
  | nil => rfl
  | cons b bs ih =>
    rw [bits_cons, List.length_append, ih, length_bitsOfByte, List.length_cons]
    omega

theorem bitsOfByte_injective : Function.Injective bitsOfByte := by
  intro b d h
  refine UInt8.toBitVec_inj.1 (BitVec.eq_of_getLsbD_eq fun i hi => ?_)
  exact congrFun (List.ofFn_injective h) ⟨i, hi⟩

theorem bits_injective : Function.Injective bits := by
  intro bs ds h
  have hl : bs.length = ds.length := by
    have := congrArg List.length h
    rw [length_bits, length_bits] at this
    omega
  induction bs generalizing ds with
  | nil => exact (List.length_eq_zero_iff.1 hl.symm).symm
  | cons b bs ih =>
    obtain ⟨d, ds, rfl⟩ := List.exists_cons_of_length_eq_add_one hl.symm
    rw [bits_cons, bits_cons] at h
    obtain ⟨hb, hbs⟩ := List.append_inj h (by simp)
    rw [bitsOfByte_injective hb, ih hbs (Nat.succ.inj hl)]

/-! ## Bit by bit -/

/-- Takes one more bit of a message.  The polynomial is put in if the bit is not the same as the one
that falls out. -/
def takeBit (crc : UInt32) (bit : Bool) : UInt32 :=
  if crc.toBitVec.getLsbD 0 ≠ bit then (crc >>> 1) ^^^ 0xEDB88320 else crc >>> 1

/-- The checksum of a message, computed bit by bit without a table. -/
def remainder (message : List Bool) : UInt32 := message.foldl takeBit 0xFFFFFFFF ^^^ 0xFFFFFFFF

/-- The first 32 bits of a message as a word, the first one lowest. -/
def word (message : List Bool) : UInt32 := ⟨(BitVec.ofBoolListLE message).setWidth 32⟩

theorem getLsbD_word (message : List Bool) (i : Nat) :
    (word message).toBitVec.getLsbD i = (decide (i < 32) && message[i]?.getD false) := by
  rw [word, BitVec.getLsbD_setWidth, BitVec.getLsbD_ofBoolListLE, List.getD_eq_getElem?_getD]

theorem word_injective {a b : List Bool} (hl : a.length = b.length) (h32 : a.length ≤ 32)
    (h : word a = word b) : a = b := by
  refine List.ext_getElem hl fun i ha hb => ?_
  have hi : (word a).toBitVec.getLsbD i = (word b).toBitVec.getLsbD i := by rw [h]
  rw [getLsbD_word, getLsbD_word, decide_eq_true (Nat.lt_of_lt_of_le ha h32),
    List.getElem?_eq_getElem ha, List.getElem?_eq_getElem hb] at hi
  exact hi

theorem word_bitsOfByte (b : UInt8) : word (bitsOfByte b) = b.toUInt32 := by
  refine UInt32.toBitVec_inj.1 (BitVec.eq_of_getLsbD_eq fun i hi => ?_)
  rw [getLsbD_word, UInt8.toBitVec_toUInt32, BitVec.getLsbD_setWidth, bitsOfByte,
    List.getElem?_ofFn]
  by_cases h : i < 8
  · rw [dif_pos h, Option.getD_some]
  · rw [dif_neg h, Option.getD_none, BitVec.getLsbD_of_ge _ _ (Nat.le_of_not_lt h)]

/-- The last bit of a word stands apart from the others. -/
theorem word_concat (message : List Bool) (bit : Bool) :
    word (message ++ [bit]) =
      word message ^^^ word (List.replicate message.length false ++ [bit]) := by
  refine UInt32.toBitVec_inj.1 (BitVec.eq_of_getLsbD_eq fun i hi => ?_)
  rw [UInt32.toBitVec_xor, BitVec.getLsbD_xor, getLsbD_word, getLsbD_word, getLsbD_word,
    decide_eq_true hi]
  by_cases h : i < message.length
  · simp [List.getElem?_append, h]
  · simp [List.getElem?_append, h]

theorem repeat_shiftBit_word {n : Nat} (hn : n < 32) (bit : Bool) :
    Nat.repeat shiftBit n (word (List.replicate n false ++ [bit])) = word [bit] := by
  refine UInt32.toBitVec_inj.1 ?_
  rw [toBitVec_repeat_shiftBit]
  · refine BitVec.eq_of_getLsbD_eq fun i hi => ?_
    rw [BitVec.getLsbD_ushiftRight, getLsbD_word, getLsbD_word, decide_eq_true hi]
    cases i with
    | zero => simp [hn]
    | succ i => simp
  · intro i hi
    rw [getLsbD_word]
    simp [List.getElem?_append, hi]

theorem takeBit_eq (crc : UInt32) (bit : Bool) :
    takeBit crc bit = shiftBit (crc ^^^ word [bit]) := by
  have hlow : (word [bit]).toBitVec.getLsbD 0 = bit := getLsbD_word [bit] 0
  have hrest : word [bit] >>> 1 = 0 := by cases bit <;> rfl
  rw [shiftBit_eq, feedback, UInt32.shiftRight_xor, hrest, UInt32.xor_zero, UInt32.toBitVec_xor,
    BitVec.getLsbD_xor, hlow, takeBit]
  cases crc.toBitVec.getLsbD 0 <;> cases bit <;> simp [polynomial]

/-- Bits that fit into the remainder may be put in all at once. -/
theorem foldl_takeBit {message : List Bool} (h : message.length ≤ 32) (crc : UInt32) :
    message.foldl takeBit crc = Nat.repeat shiftBit message.length (crc ^^^ word message) := by
  induction message using List.reverseRecOn with
  | nil => exact UInt32.xor_zero.symm
  | append_singleton message bit ih =>
    rw [List.length_append, List.length_singleton] at h ⊢
    have ih := ih (Nat.le_of_succ_le h)
    calc (message ++ [bit]).foldl takeBit crc
        = takeBit (message.foldl takeBit crc) bit := List.foldl_append
      _ = shiftBit (Nat.repeat shiftBit message.length (crc ^^^ word message) ^^^ word [bit]) := by
        rw [takeBit_eq, ih]
      _ = shiftBit (Nat.repeat shiftBit message.length (crc ^^^ word (message ++ [bit]))) := by
        -- the last bit was put in high enough to come down to the bottom by now
        rw [word_concat, ← UInt32.xor_assoc, repeat_shiftBit_xor _ (crc ^^^ word message),
          repeat_shiftBit_word h]

/-- A step with the table takes the eight bits of the byte. -/
theorem foldl_takeBit_bitsOfByte (crc : UInt32) (b : UInt8) :
    (bitsOfByte b).foldl takeBit crc = update crc b := by
  have hl : (bitsOfByte b).length ≤ 32 := by simp
  rw [foldl_takeBit hl, word_bitsOfByte, length_bitsOfByte, update_eq, shiftByte]

theorem crc32_eq_remainder (bs : Bytes) : crc32 bs = remainder (bits bs) := by
  have hfold : (bits bs).foldl takeBit 0xFFFFFFFF = bs.foldl update 0xFFFFFFFF := by
    simp only [bits, List.foldl_flatMap, foldl_takeBit_bitsOfByte]
  have hnot : ∀ x : UInt32, ~~~x = x ^^^ 0xFFFFFFFF := fun x =>
    UInt32.toBitVec_inj.1 BitVec.xor_allOnes.symm
  rw [crc32, remainder, hfold, hnot]

/-- The text `123456789`, by whose checksum such checks are told apart. -/
example : remainder (bits [0x31, 0x32, 0x33, 0x34, 0x35, 0x36, 0x37, 0x38, 0x39]) = 0xCBF43926 := by
  decide +kernel

/-! ## Bursts -/

theorem takeBit_injective (bit : Bool) : Function.Injective fun crc => takeBit crc bit := by
  intro x y h
  simp only [takeBit_eq] at h
  exact (UInt32.xor_left_inj _).1 (shiftBit_injective h)

theorem foldl_takeBit_injective (message : List Bool) :
    Function.Injective fun crc => message.foldl takeBit crc := by
  induction message with
  | nil => exact fun _ _ h => h
  | cons bit message ih => exact ih.comp (takeBit_injective bit)

/-- Messages that differ within 32 bits in a row have different checksums. -/
theorem remainder_ne (front back : List Bool) {burst other : List Bool}
    (hl : other.length = burst.length) (h32 : burst.length ≤ 32) (hne : other ≠ burst) :
    remainder (front ++ other ++ back) ≠ remainder (front ++ burst ++ back) := by
  intro h
  have h := (UInt32.xor_left_inj _).1 h
  rw [List.foldl_append, List.foldl_append, List.foldl_append, List.foldl_append] at h
  have h := foldl_takeBit_injective back h
  rw [foldl_takeBit h32, foldl_takeBit (hl ▸ h32), hl] at h
  have h := (UInt32.xor_right_inj _).1 (repeat_shiftBit_injective _ h)
  exact hne (word_injective hl (hl ▸ h32) h)

/-- Byte strings that differ within four bytes in a row have different checksums. -/
theorem crc32_append_ne (front back : Bytes) {window other : Bytes}
    (hl : other.length = window.length) (h4 : window.length ≤ 4) (hne : other ≠ window) :
    crc32 (front ++ other ++ back) ≠ crc32 (front ++ window ++ back) := by
  simp only [crc32_eq_remainder, bits_append]
  apply remainder_ne
  · rw [length_bits, length_bits, hl]
  · rw [length_bits]
    omega
  · exact bits_injective.ne hne

/-- Byte strings that differ in one byte have different checksums. -/
theorem crc32_ne (front back : Bytes) {b d : UInt8} (h : b ≠ d) :
    crc32 (front ++ b :: back) ≠ crc32 (front ++ d :: back) := by
  have hne : [b] ≠ [d] := fun e => h (List.singleton_inj.1 e)
  have hcrc : crc32 (front ++ [b] ++ back) ≠ crc32 (front ++ [d] ++ back) :=
    crc32_append_ne front back rfl (Nat.le_add_left 1 3) hne
  rwa [List.append_assoc, List.append_assoc] at hcrc

/-- The checksum is the one that is computed bit by bit, with the reflected polynomial `0xEDB88320`
and all bits of the remainder inverted before the first bit and after the last one.  Two byte
strings of one length have different checksums if they differ, and that within four bytes in a row
only. -/
theorem crc32_catches_bursts (bs : Bytes) :
    crc32 bs = remainder (bits bs) ∧
    ∀ (ds : Bytes) (n : Nat), ds.length = bs.length → ds ≠ bs →
      (∀ i, i < n ∨ n + 4 ≤ i → ds[i]? = bs[i]?) → crc32 ds ≠ crc32 bs := by
  refine ⟨crc32_eq_remainder bs, fun ds n hl hne hout => ?_⟩
  have hfront : ds.take n = bs.take n := by
    refine List.ext_getElem? fun i => ?_
    rw [List.getElem?_take, List.getElem?_take]
    split
    · next hi => exact hout i (.inl hi)
    · rfl
  have hback : ds.drop (n + 4) = bs.drop (n + 4) := by
    refine List.ext_getElem? fun i => ?_
    rw [List.getElem?_drop, List.getElem?_drop]
    exact hout _ (.inr (Nat.le_add_right _ i))
  have hsplit : ∀ l : Bytes, l = l.take n ++ (l.drop n).take 4 ++ l.drop (n + 4) := by
    intro l
    rw [List.append_assoc, ← List.drop_drop, List.take_append_drop, List.take_append_drop]
  have hwindow : (ds.drop n).take 4 ≠ (bs.drop n).take 4 := by
    intro h
    apply hne
    rw [hsplit ds, hsplit bs, hfront, h, hback]
  rw [hsplit ds, hsplit bs, hfront, hback]
  apply crc32_append_ne
  · rw [List.length_take, List.length_take, List.length_drop, List.length_drop, hl]
  · exact List.length_take_le 4 _
  · exact hwindow

/-- All four bytes of a window are changed at once. -/
theorem crc32_catches_bursts_of_four :
    crc32 [0, 1, 2, 3, 4, 5] = remainder (bits [0, 1, 2, 3, 4, 5]) ∧
    (∀ i, i < 1 ∨ 1 + 4 ≤ i → ([0, 9, 8, 7, 6, 5] : Bytes)[i]? = [0, 1, 2, 3, 4, 5][i]?) ∧
    crc32 [0, 9, 8, 7, 6, 5] ≠ crc32 [0, 1, 2, 3, 4, 5] := by
  have hout : ∀ i, i < 1 ∨ 1 + 4 ≤ i →
      ([0, 9, 8, 7, 6, 5] : Bytes)[i]? = [0, 1, 2, 3, 4, 5][i]? := by
    intro i hi
    match i with
    | 0 | 5 => rfl
    | 1 | 2 | 3 | 4 => omega
    | i + 6 => rfl
  obtain ⟨hbits, hburst⟩ := crc32_catches_bursts [0, 1, 2, 3, 4, 5]
  exact ⟨hbits, hout, hburst [0, 9, 8, 7, 6, 5] 1 rfl (by decide) hout⟩

end NamespaceCatalog.Checksum
