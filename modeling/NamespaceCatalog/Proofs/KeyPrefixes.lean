import NamespaceCatalog.Proofs.KeyOrder
import NamespaceCatalog.Proofs.Versions

/-!
# Rows under a key

A scan or a deletion under a key finds the rows whose keys go on from its bytes.  These are the rows
whose segments go on from its segments, and others besides: a zero ends a text, and an escaped zero
in a longer text starts with the same byte.  So the bytes of a key whose last segment is a text are
also found in front of that text followed by a zero character and anything else.  `Covers` says
which rows a key finds, `isPrefixOf_ofSegments_iff` that these are the rows; without zeros in the
texts of the row only its own segments count (`covers_iff_prefix`).
-/

namespace NamespaceCatalog

/-! ## Texts that start with a text and a zero -/

namespace Utf8

theorem encode_append (s t : String) : encode (s ++ t) = encode s ++ encode t := by
  simp [encode, String.toByteArray_append]

/-- Bytes of a text that go on with a zero are those of a text that goes on with a zero. -/
theorem exists_encode_eq_append_zero_iff {s t : String} :
    (∃ bs, encode t = encode s ++ 0 :: bs) ↔ ∃ u, t = s ++ "\x00" ++ u := by
  constructor
  · rintro ⟨bs, h⟩
    have hbytes : (s ++ "\x00").toList.utf8Encode ++ bs.toByteArray = t.toList.utf8Encode := by
      rw [String.utf8Encode_toList, String.utf8Encode_toList, String.toByteArray_append]
      refine ByteArray.ext (Array.toList_inj.1 ?_)
      have hzero : "\x00".toByteArray.data.toList = [0] := by decide +kernel
      rw [encode] at h
      simp [h, encode, hzero]
    obtain ⟨cs, hcs⟩ := List.isPrefix_of_utf8Encode_append_eq_utf8Encode _ hbytes
    refine ⟨String.ofList cs, String.toList_inj.1 ?_⟩
    rw [String.toList_append, String.toList_ofList, hcs]
  · rintro ⟨u, rfl⟩
    refine ⟨encode u, ?_⟩
    rw [encode_append, encode_append, List.append_assoc]
    rfl

end Utf8

namespace Key

/-! ## Prefixes of keys -/

theorem not_escape_cons_prefix {us : Bytes} (hu : StartsBelowEscape us) (bs : Bytes) :
    ¬ escape :: bs <+: us := by
  rintro ⟨rest, rfl⟩
  exact absurd (hu escape rfl) (UInt8.lt_irrefl _)

theorem prefix_escape_cons_iff {us : Bytes} (hu : StartsBelowEscape us) (bs : Bytes) :
    us <+: escape :: bs ↔ us = [] := by
  cases us with
  | nil => simp
  | cons u us =>
    have hne : u ≠ escape := UInt8.ne_of_lt (hu u rfl)
    simp [hne]

/-- The bytes of a text are found in front of those of the same text, and of each that goes on from
it with a zero. -/
theorem escaped_append_prefix_iff {us vs : Bytes} (hu : StartsBelowEscape us)
    (hv : StartsBelowEscape vs) (xs ys : Bytes) :
    escaped xs ++ us <+: escaped ys ++ vs ↔
      xs = ys ∧ us <+: vs ∨ us = [] ∧ ∃ bs, ys = xs ++ terminator :: bs := by
  induction xs generalizing ys with
  | nil =>
    cases ys with
    | nil => simp [escaped]
    | cons y ys =>
      by_cases hy : y = terminator
      · simp [escaped, hy, prefix_escape_cons_iff hu]
      · simp [escaped, hy, Ne.symm hy]
  | cons x xs ih =>
    cases ys with
    | nil =>
      by_cases hx : x = terminator
      · simp [escaped, hx, not_escape_cons_prefix hv]
      · simp [escaped, hx]
    | cons y ys =>
      by_cases hxy : x = y
      · subst hxy
        have hrest : escaped (x :: xs) ++ us <+: escaped (x :: ys) ++ vs ↔
            escaped xs ++ us <+: escaped ys ++ vs := by
          rw [escaped, escaped]
          split <;> simp
        simp [hrest, ih]
      · obtain ⟨xs', hx⟩ := exists_escaped_cons x xs
        obtain ⟨ys', hy⟩ := exists_escaped_cons y ys
        simp [hx, hy, hxy, Ne.symm hxy]

theorem shifted_injective {m n : Int64}
    (h : (m.toInt + bias).toNat = (n.toInt + bias).toNat) : m = n := by
  have hm := m.le_toInt
  have hn := n.le_toInt
  unfold bias at h
  apply Int64.toInt_inj.1
  omega

/-- Fields of one width are found in front of each other only if they are the same. -/
theorem bigEndian_append_prefix_iff {w m n : Nat} (hm : m < Bytes.bound w) (hn : n < Bytes.bound w)
    {us vs : Bytes} :
    Bytes.bigEndian w m ++ us <+: Bytes.bigEndian w n ++ vs ↔ m = n ∧ us <+: vs := by
  constructor
  · rintro ⟨rest, h⟩
    rw [List.append_assoc] at h
    obtain ⟨hfield, hrest⟩ := List.append_inj h (by simp)
    refine ⟨?_, rest, hrest⟩
    rw [← Bytes.ofBigEndian_bigEndian hm, hfield, Bytes.ofBigEndian_bigEndian hn]
  · rintro ⟨rfl, h⟩
    exact (List.prefix_append_right_inj _).2 h

/-- Does `t` go on from the text `s` with a zero character? -/
def Segment.GoesOnFrom (t s : Segment) : Prop :=
  ∃ front back, s = .text front ∧ t = .text (front ++ "\x00" ++ back)

theorem encode_append_prefix_iff {us vs : Bytes} (hu : StartsBelowEscape us)
    (hv : StartsBelowEscape vs) (s t : Segment) :
    s.encode ++ us <+: t.encode ++ vs ↔ s = t ∧ us <+: vs ∨ us = [] ∧ t.GoesOnFrom s := by
  cases s with
  | text s =>
    cases t with
    | text t =>
      have hzero : (∃ bs, Utf8.encode t = Utf8.encode s ++ terminator :: bs) ↔
          (Segment.text t).GoesOnFrom (.text s) := by
        refine Utf8.exists_encode_eq_append_zero_iff.trans ?_
        simp [Segment.GoesOnFrom]
      have hsame : Utf8.encode s = Utf8.encode t ↔ Segment.text s = .text t := by
        rw [Segment.text.injEq]
        exact ⟨Utf8.encode_injective, congrArg _⟩
      rw [Segment.encode, Segment.encode, List.cons_append, List.cons_append,
        List.cons_prefix_cons, escaped_append_prefix_iff hu hv, hzero, hsame]
      exact and_iff_right rfl
    | integer n => simp [Segment.encode, textTag, integerTag, Segment.GoesOnFrom]
  | integer m =>
    cases t with
    | text t => simp [Segment.encode, textTag, integerTag, Segment.GoesOnFrom]
    | integer n =>
      have hsame : (m.toInt + bias).toNat = (n.toInt + bias).toNat ↔ m = n :=
        ⟨shifted_injective, fun e => e ▸ rfl⟩
      rw [Segment.encode, Segment.encode, List.cons_append, List.cons_append, List.cons_prefix_cons,
        bigEndian_append_prefix_iff (shifted_lt_bound m) (shifted_lt_bound n), hsame]
      simp [Segment.GoesOnFrom]

/-- Is a row with the segments `b` found under the key with the segments `a`?  It is if `a` comes
first in `b`, and also if only the last segment of `a` does not, but goes on with a zero there. -/
def Covers (a b : List Segment) : Prop :=
  a <+: b ∨ ∃ front s t back, a = front ++ [s] ∧ b = front ++ t :: back ∧ t.GoesOnFrom s

theorem covers_nil (b : List Segment) : Covers [] b := .inl List.nil_prefix

theorem not_covers_cons_nil (s : Segment) (a : List Segment) : ¬ Covers (s :: a) [] := by
  simp [Covers]

theorem covers_cons_cons_iff {s t : Segment} {a b : List Segment} :
    Covers (s :: a) (t :: b) ↔ s = t ∧ Covers a b ∨ a = [] ∧ t.GoesOnFrom s := by
  constructor
  · rintro (h | ⟨front, p, q, back, ha, hb, hpq⟩)
    · obtain ⟨e, h⟩ := List.cons_prefix_cons.1 h
      exact .inl ⟨e, .inl h⟩
    · cases front with
      | nil =>
        obtain ⟨rfl, rfl⟩ : s = p ∧ a = [] := by simpa using ha
        obtain ⟨rfl, rfl⟩ : t = q ∧ b = back := by simpa using hb
        exact .inr ⟨rfl, hpq⟩
      | cons f front =>
        obtain ⟨rfl, rfl⟩ : s = f ∧ a = front ++ [p] := by simpa using ha
        obtain ⟨rfl, rfl⟩ : t = s ∧ b = front ++ q :: back := by simpa using hb
        exact .inl ⟨rfl, .inr ⟨front, p, q, back, rfl, rfl, hpq⟩⟩
  · rintro (⟨rfl, h | ⟨front, p, q, back, rfl, rfl, hpq⟩⟩ | ⟨rfl, h⟩)
    · exact .inl (List.cons_prefix_cons.2 ⟨rfl, h⟩)
    · exact .inr ⟨s :: front, p, q, back, rfl, rfl, hpq⟩
    · exact .inr ⟨[], s, t, b, rfl, rfl, h⟩

theorem ofSegments_eq_nil_iff {ss : List Segment} : ofSegments ss = [] ↔ ss = [] := by
  cases ss with
  | nil => simp
  | cons s ss =>
    obtain ⟨b, bs, h⟩ := exists_encode_eq_cons s
    simp [h]

/-- The bytes of a key come first in those of a row exactly if the key covers the row. -/
theorem isPrefixOf_ofSegments_iff {a b : List Segment} :
    (ofSegments a).isPrefixOf (ofSegments b) ↔ Covers a b := by
  rw [List.isPrefixOf_iff_prefix]
  induction a generalizing b with
  | nil => exact iff_of_true List.nil_prefix (covers_nil b)
  | cons s a ih =>
    cases b with
    | nil =>
      refine iff_of_false (fun h => ?_) (not_covers_cons_nil s a)
      exact absurd (ofSegments_eq_nil_iff.1 (List.prefix_nil.1 h)) (List.cons_ne_nil s a)
    | cons t b =>
      rw [ofSegments_cons, ofSegments_cons,
        encode_append_prefix_iff (startsBelowEscape_ofSegments a) (startsBelowEscape_ofSegments b),
        ih, ofSegments_eq_nil_iff, covers_cons_cons_iff]

/-- Without zeros in its texts a row is only found under its own first segments. -/
theorem covers_iff_prefix {a b : List Segment} (hb : ∀ s, .text s ∈ b → '\x00' ∉ s.toList) :
    Covers a b ↔ a <+: b := by
  refine or_iff_left ?_
  rintro ⟨front, s, _, back, -, rfl, start, rest, -, rfl⟩
  refine hb (start ++ "\x00" ++ rest) (by simp) ?_
  rw [String.toList_append, String.toList_append]
  simp

theorem covers_singleton_iff {tag : String} {b : List Segment} :
    Covers [.text tag] b ↔
      ∃ s back, b = .text s :: back ∧ (s = tag ∨ ∃ rest, s = tag ++ "\x00" ++ rest) := by
  cases b with
  | nil => simp [not_covers_cons_nil]
  | cons t b =>
    rw [covers_cons_cons_iff]
    constructor
    · rintro (⟨rfl, -⟩ | ⟨-, start, rest, e, rfl⟩)
      · exact ⟨tag, b, rfl, .inl rfl⟩
      · obtain rfl := Segment.text.inj e
        exact ⟨_, b, rfl, .inr ⟨rest, rfl⟩⟩
    · rintro ⟨s, back, e, rfl | ⟨rest, rfl⟩⟩
      · obtain ⟨rfl, rfl⟩ := List.cons.inj e
        exact .inl ⟨rfl, covers_nil _⟩
      · obtain ⟨rfl, rfl⟩ := List.cons.inj e
        exact .inr ⟨rfl, tag, rest, rfl, rfl⟩

end Key

/-! ## Scans and deletions -/

namespace Overlay

variable {x : Overlay} {t : Table} {tx : Transaction}

theorem read_eq_of_buffer (hx : x.tx = some tx) (key : Bytes) :
    x.read t key = .ok (x.buffer[key]?.getD (t.get tx key)) := by
  unfold read active
  rw [hx]
  cases x.buffer[key]? <;> rfl

/-- A scan gives the rows under its start that can be read. -/
theorem exists_scan (hx : x.tx = some tx) (t : Table) (start : Bytes) :
    ∃ rows, x.scan t start = .ok rows ∧ ∀ key value, (key, value) ∈ rows ↔
      start.isPrefixOf key ∧ x.read t key = .ok (some value) := by
  have hget : ∀ key, x.buffer[key]? = none →
      t.get tx key = (Std.ExtTreeMap.ofList (t.scan tx []))[key]? := by
    intro key _
    rw [Table.getElem?_scan]
    rfl
  refine ⟨_, scan_eq hx hget start, fun key value => ?_⟩
  rw [Std.ExtTreeMap.mem_toList_iff_getElem?_eq_some, getElem?_filter_start, read_eq hx hget]
  split <;> simp [*]

/-- A deletion takes away the rows under its start, and no others. -/
theorem exists_deleteAll (hx : x.tx = some tx) (t : Table) (start : Bytes) :
    ∃ y, x.deleteAll t start = .ok y ∧ ∀ key,
      y.read t key = if start.isPrefixOf key then .ok none else x.read t key := by
  obtain ⟨buffer, hdelete, hbuffer⟩ := deleteAll_eq hx t start
  refine ⟨_, hdelete, fun key => ?_⟩
  rw [read_eq_of_buffer (x := { x with buffer }) hx, read_eq_of_buffer hx]
  dsimp only
  rw [hbuffer]
  by_cases hp : start.isPrefixOf key
  · by_cases hk : key ∈ x.buffer
    · simp [hp, hk]
    · cases t.get tx key <;> simp [hp, hk]
  · simp [hp]

end Overlay

namespace Key

/-- The rows that a scan or a deletion under a key touches.  They are those whose segments start
with the segments of the key, and those where the last text of the key goes on with a zero
character; the latter are none if no text of the row has a zero. -/
theorem rows_under_key (a : List Segment) :
    (∀ b, (ofSegments a).isPrefixOf (ofSegments b) ↔ Covers a b) ∧
    (∀ b, (∀ s, .text s ∈ b → '\x00' ∉ s.toList) → (Covers a b ↔ a <+: b)) ∧
    (∀ tag b, (ofTag tag).isPrefixOf (ofSegments b) ↔
      ∃ s back, b = .text s :: back ∧ (s = tag ∨ ∃ rest, s = tag ++ "\x00" ++ rest)) ∧
    ∀ (x : Overlay) (t : Table), x.tx ≠ none → ∃ rows y,
      x.scan t (ofSegments a) = .ok rows ∧ x.deleteAll t (ofSegments a) = .ok y ∧
        ∀ b, (∀ value, (ofSegments b, value) ∈ rows ↔
            Covers a b ∧ x.read t (ofSegments b) = .ok (some value)) ∧
          (Covers a b → y.read t (ofSegments b) = .ok none) ∧
          (¬ Covers a b → y.read t (ofSegments b) = x.read t (ofSegments b)) := by
  refine ⟨fun b => isPrefixOf_ofSegments_iff, fun b => covers_iff_prefix,
    fun tag b => isPrefixOf_ofSegments_iff.trans covers_singleton_iff, fun x t hx => ?_⟩
  obtain ⟨tx, hx⟩ := Option.ne_none_iff_exists'.1 hx
  obtain ⟨rows, hscan, hrows⟩ := Overlay.exists_scan hx t (ofSegments a)
  obtain ⟨y, hdelete, hread⟩ := Overlay.exists_deleteAll hx t (ofSegments a)
  refine ⟨rows, y, hscan, hdelete, fun b => ⟨fun value => ?_, fun hc => ?_, fun hc => ?_⟩⟩
  · rw [hrows, isPrefixOf_ofSegments_iff]
  · rw [hread, if_pos (isPrefixOf_ofSegments_iff.2 hc)]
  · rw [hread, if_neg (mt isPrefixOf_ofSegments_iff.1 hc)]

/-- Deleting the rows under `a` takes away a row of another text, that goes on from `a` with a
zero; among rows without zeros it takes away those whose first text is `a`. -/
theorem rows_under_key_beside_zero :
    ∃ (x y : Overlay) (t : Table), x.tx ≠ none ∧
      x.read t (ofSegments [.text "a\x00b"]) = .ok (some [1]) ∧
      ¬ [Segment.text "a"] <+: [.text "a\x00b"] ∧
      x.deleteAll t (ofSegments [.text "a"]) = .ok y ∧
      y.read t (ofSegments [.text "a\x00b"]) = .ok none ∧
      Covers [.text "a"] [.text "a", .integer 1] ∧
      ¬ Covers [.text "a"] [.text "ab", .integer 1] := by
  obtain ⟨-, hplain, -, htouched⟩ := rows_under_key [.text "a"]
  let x : Overlay :=
    { Overlay.ofTable 0 with
      tx := some ⟨1, 0, [], .active⟩
      buffer := {(ofSegments [.text "a\x00b"], some [1])} }
  obtain ⟨rows, y, -, hdelete, hrows⟩ := htouched x (.inMemory "t") (Option.some_ne_none _)
  have hcovers : Covers [.text "a"] [.text "a\x00b"] :=
    covers_singleton_iff.2 ⟨_, [], rfl, .inr ⟨"b", by decide +kernel⟩⟩
  refine ⟨x, y, .inMemory "t", Option.some_ne_none _, ?_, by decide +kernel, hdelete,
    (hrows _).2.1 hcovers, ?_, ?_⟩
  · rw [Overlay.read_eq_of_buffer rfl]
    simp [x]
  · exact (hplain _ (by simp)).2 (by decide +kernel)
  · exact fun h => absurd ((hplain _ (by simp)).1 h) (by decide +kernel)

end Key

end NamespaceCatalog
