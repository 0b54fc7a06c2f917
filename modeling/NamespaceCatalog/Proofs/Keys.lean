import NamespaceCatalog.Record.Rows

/-!
# The keys of records

A name of a namespace has only characters of one byte, none of them zero.  So the key of a record is
a fixed start, the characters of the name, and a zero.  No key of a record is the start of another
one (`isPrefixOf_key_iff`), and keys are ordered as the names are (`compare_key_lt`).
-/

namespace NamespaceCatalog

/-! ## Names as bytes -/

theorem isNameCharacter_bounds {c : Char} (h : isNameCharacter c) : 0 < c.toNat ∧ c.toNat < 128 := by
  rcases (by simpa [isNameCharacter] using h : c.isAlphanum ∨ c = '_') with h | rfl
  · change (decide (c.val ≥ 'A'.val ∧ c.val ≤ 'Z'.val) || c.val ≥ 'a'.val && c.val ≤ 'z'.val ||
      c.val ≥ '0'.val && c.val ≤ '9'.val) = true at h
    simp only [Bool.or_eq_true, Bool.and_eq_true, decide_eq_true_eq, UInt32.le_iff_toNat_le,
      ge_iff_le] at h
    have : c.toNat = c.val.toNat := rfl
    have : 'A'.val.toNat = 65 ∧ 'Z'.val.toNat = 90 := ⟨rfl, rfl⟩
    have : 'a'.val.toNat = 97 ∧ 'z'.val.toNat = 122 := ⟨rfl, rfl⟩
    have : '0'.val.toNat = 48 ∧ '9'.val.toNat = 57 := ⟨rfl, rfl⟩
    omega
  · decide

theorem Id.bounds (id : Id) : ∀ c ∈ id.name.toList, 0 < c.toNat ∧ c.toNat < 128 := fun c hc =>
  isNameCharacter_bounds (((ofName_ok_iff id.name).1 ⟨id, id.ofName_name⟩).2 c hc)

namespace Utf8

/-- The byte of a character that has only one. -/
def byte (c : Char) : UInt8 := UInt8.ofNat c.toNat

theorem toNat_byte {c : Char} (h : c.toNat < 128) : (byte c).toNat = c.toNat := by
  rw [byte, UInt8.toNat_ofNat']
  omega

theorem encode_eq_map {s : String} (h : ∀ c ∈ s.toList, c.toNat < 128) :
    encode s = s.toList.map byte := by
  have hflat : ∀ l : List Char, (∀ c ∈ l, c.toNat < 128) →
      l.flatMap String.utf8EncodeChar = l.map byte := by
    intro l hl
    induction l with
    | nil => rfl
    | cons c l ih =>
      have hc : c.utf8Size = 1 := by
        rw [Char.utf8Size_eq_one_iff, UInt32.le_iff_toNat_le]
        exact Nat.le_of_lt_succ (hl c List.mem_cons_self)
      rw [List.flatMap_cons, String.utf8EncodeChar_eq_singleton hc, List.map_cons,
        ih fun d hd => hl d (List.mem_cons_of_mem c hd)]
      rfl
  rw [← hflat _ h, encode, ← String.utf8Encode_toList, List.utf8Encode, List.data_toByteArray]

end Utf8

namespace Key

theorem escaped_eq_append {bs : Bytes} (h : terminator ∉ bs) :
    escaped bs = bs ++ [terminator] := by
  induction bs with
  | nil => rfl
  | cons b bs ih =>
    rw [List.mem_cons, not_or] at h
    rw [escaped, if_neg (Ne.symm h.1), ih h.2, List.cons_append]

/-- A text is read as it was written, if what follows is not taken for a part of it. -/
theorem Reader.text?_of_rest {r : Reader} {s : String} {rest : Bytes}
    (h : r.rest = (Segment.text s).encode ++ rest) (hr : rest.head? ≠ some escape) :
    r.text? = (.ok s, r.moveTo rest) := by
  rw [Segment.encode, List.cons_append] at h
  simp only [text?, afterTag, h, if_pos, content_escaped _ hr, Utf8.decode_encode]
  rfl

end Key

namespace Rows

/-! ## Keys as lists of characters -/

/-- A key tells the name. -/
theorem nameOfKey_key (name : String) : nameOfKey (key name) = .ok name := by
  have hskip : (Key.Reader.start (key name)).skip =
      (.ok (), (Key.Reader.start (key name)).moveTo (Key.Segment.text name).encode) := by
    have hhead : (Key.Reader.start (key name)).rest.head? ≠ some Key.integerTag :=
      show some Key.textTag ≠ some Key.integerTag by decide
    have hrest : (Key.Reader.start (key name)).rest =
        (Key.Segment.text tag).encode ++ (Key.Segment.text name).encode := by
      simp [Key.Reader.start, key]
    have htext := Key.Reader.text?_of_rest hrest (show some Key.textTag ≠ some Key.escape by decide)
    simp only [Key.Reader.skip, Key.Reader.next, if_neg hhead, htext]
    rfl
  have htext : ((Key.Reader.start (key name)).moveTo (Key.Segment.text name).encode).text? =
      (.ok name, ((Key.Reader.start (key name)).moveTo (Key.Segment.text name).encode).moveTo []) :=
    Key.Reader.text?_of_rest (List.append_nil _).symm nofun
  simp only [nameOfKey, hskip, htext]
  rfl

theorem key_injective {a b : String} (h : key a = key b) : a = b := by
  have := nameOfKey_key b
  rw [← h, nameOfKey_key] at this
  exact Except.ok.inj this

theorem terminator_not_mem (id : Id) : Key.terminator ∉ id.name.toList.map Utf8.byte := by
  intro hm
  obtain ⟨c, hc, e⟩ := List.mem_map.1 hm
  have hpos := id.bounds c hc
  rw [← Utf8.toNat_byte hpos.2, e] at hpos
  exact absurd hpos.1 (by decide)

/-- The key of a record is what all keys start with, its name, and a zero. -/
theorem key_eq (id : Id) :
    key id.name =
      Key.ofTag tag ++ Key.textTag :: (id.name.toList.map Utf8.byte ++ [Key.terminator]) := by
  have hname : Key.ofSegments [.text id.name] =
      Key.textTag :: (id.name.toList.map Utf8.byte ++ [Key.terminator]) := by
    rw [← Key.escaped_eq_append (terminator_not_mem id),
      ← Utf8.encode_eq_map fun c hc => (id.bounds c hc).2]
    exact List.append_nil _
  rw [key, ← hname]
  exact Key.ofSegments_append [.text tag] [.text id.name]

theorem ofTag_isPrefixOf_key (id : Id) : (Key.ofTag tag).isPrefixOf (key id.name) := by
  rw [key_eq]
  exact List.isPrefixOf_iff_prefix.2 (List.prefix_append _ _)

/-- No key of a record is the start of another one. -/
theorem isPrefixOf_key_iff {a b : Id} :
    (key a.name).isPrefixOf (key b.name) ↔ a.name = b.name := by
  rw [List.isPrefixOf_iff_prefix]
  constructor
  · intro h
    rw [key_eq a, key_eq b, List.prefix_append_right_inj, List.cons_prefix_cons,
      List.prefix_concat_iff] at h
    rcases h.2 with h | h
    · refine key_injective ?_
      rw [key_eq a, key_eq b, h]
    · exact absurd (h.subset List.mem_concat_self) (terminator_not_mem b)
  · exact fun e => e ▸ List.prefix_rfl

/-! ## The order of keys -/

theorem compare_append_left {α : Type} [Ord α] [Std.ReflOrd α] (front xs ys : List α) :
    compare (front ++ xs) (front ++ ys) = compare xs ys := by
  induction front with
  | nil => rfl
  | cons x front ih => simp [ih]

theorem compare_lt_of_lt {cs ds : List Char} (hc : ∀ c ∈ cs, 0 < c.toNat ∧ c.toNat < 128)
    (hd : ∀ d ∈ ds, 0 < d.toNat ∧ d.toNat < 128) (h : cs < ds) :
    compare (cs.map Utf8.byte ++ [Key.terminator]) (ds.map Utf8.byte ++ [Key.terminator]) = .lt := by
  induction cs generalizing ds with
  | nil =>
    cases ds with
    | nil => exact absurd h (List.lt_irrefl _)
    | cons d ds =>
      have hlt : Key.terminator < Utf8.byte d := by
        rw [UInt8.lt_iff_toNat_lt, Utf8.toNat_byte (hd d List.mem_cons_self).2]
        exact (hd d List.mem_cons_self).1
      simp [Std.compare_eq_lt.2 hlt]
  | cons c cs ih =>
    cases ds with
    | nil => exact absurd h (List.not_lt_nil _)
    | cons d ds =>
      have hc' := hc c List.mem_cons_self
      have hd' := hd d List.mem_cons_self
      rcases List.cons_lt_cons_iff.1 h with hlt | ⟨rfl, hlt⟩
      · have hlt : Utf8.byte c < Utf8.byte d := by
          rw [UInt8.lt_iff_toNat_lt, Utf8.toNat_byte hc'.2, Utf8.toNat_byte hd'.2]
          exact hlt
        simp [Std.compare_eq_lt.2 hlt]
      · have := ih (fun c hm => hc c (List.mem_cons_of_mem _ hm))
          (fun d hm => hd d (List.mem_cons_of_mem _ hm)) hlt
        simpa using this

/-- Keys are ordered as the names are. -/
theorem compare_key_lt {a b : Id} (h : compare a.name b.name = .lt) :
    compare (key a.name) (key b.name) = .lt := by
  have hlt : a.name < b.name := compareOfLessAndEq_eq_lt.1 h
  rw [key_eq, key_eq, compare_append_left, List.compare_cons_cons, Std.ReflOrd.compare_self]
  exact compare_lt_of_lt a.bounds b.bounds hlt

end Rows

end NamespaceCatalog
