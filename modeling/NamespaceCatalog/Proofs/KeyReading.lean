import NamespaceCatalog.Proofs.KeyPrefixes
import NamespaceCatalog.Proofs.Keys

/-!
# Reading keys

Reading undoes building, and nothing else can be read: a key is read to its end as a list of
segments if and only if it is made of that list (`reading_inverts_building`).  `Reader.Reads` says
what it means to read to the end, one segment after the other by the tags; `segments` is the same as
a function.

Each reader of one segment comes with the exact form of what it accepts (`text?_eq_ok_iff`,
`integer?_eq_ok_iff`).  A text is ended by a zero that is not marked, so what follows it must not
start with the mark.  No segment starts with the mark, so in a key this is always so.
-/

namespace NamespaceCatalog

namespace Bytes

theorem bigEndian_ofBigEndian (bs : Bytes) : bigEndian bs.length (ofBigEndian bs) = bs := by
  have h := littleEndian_ofLittleEndian bs.reverse
  rw [List.length_reverse] at h
  rw [bigEndian, ofBigEndian, h, List.reverse_reverse]

theorem ofBigEndian_lt (bs : Bytes) : ofBigEndian bs < bound bs.length := by
  have h := ofLittleEndian_lt bs.reverse
  rwa [List.length_reverse] at h

end Bytes

namespace Key

/-! ## Integers -/

/-- An integer is found again from its shifted form. -/
theorem ofInt_shifted (n : Int64) : Int64.ofInt ((n.toInt + bias).toNat - bias) = n := by
  have hlow := n.le_toInt
  have hnonneg : ((n.toInt + bias).toNat : Int) = n.toInt + bias := by
    apply Int.toNat_of_nonneg
    unfold bias
    omega
  rw [hnonneg, Int.add_sub_cancel, Int64.ofInt_toInt]

/-- Every number of eight bytes is the shifted form of an integer. -/
theorem shifted_ofInt {m : Nat} (h : m < Bytes.bound 8) :
    ((Int64.ofInt (m - bias)).toInt + bias).toNat = m := by
  have hbound : Bytes.bound 8 = 2 ^ 64 := by decide
  have hint : (Int64.ofInt (m - bias)).toInt = m - bias := by
    apply Int64.toInt_ofInt_of_le
    · unfold bias
      omega
    · unfold bias
      omega
  rw [hint, Int.sub_add_cancel, Int.toNat_natCast]

namespace Reader

variable {r r' : Reader} {bs s rest : Bytes} {ss : List Segment}

/-! ## One segment -/

/-- A content that is read stands in front as it is escaped. -/
theorem eq_of_content (h : content bs = some (s, rest)) :
    bs = escaped s ++ rest ∧ rest.head? ≠ some escape := by
  fun_induction content bs generalizing s with
  | case1 => cases h
  | case2 =>
    cases h
    exact ⟨rfl, nofun⟩
  | case3 b hb => cases h
  | case4 bs ih =>
    obtain ⟨⟨s', rest'⟩, hs, e⟩ := Option.map_eq_some_iff.1 h
    cases e
    obtain ⟨rfl, hrest⟩ := ih hs
    exact ⟨by rw [escaped, if_pos rfl]; rfl, hrest⟩
  | case5 c bs hc =>
    cases h
    exact ⟨rfl, fun e => hc (Option.some.inj e)⟩
  | case6 b c bs hb ih =>
    obtain ⟨⟨s', rest'⟩, hs, e⟩ := Option.map_eq_some_iff.1 h
    cases e
    obtain ⟨hbs, hrest⟩ := ih hs
    refine ⟨?_, hrest⟩
    rw [escaped, if_neg hb, hbs, List.cons_append]

theorem afterTag_eq_ok_iff {tag : UInt8} {expected : String} :
    r.afterTag tag expected = .ok bs ↔ r.rest = tag :: bs := by
  unfold afterTag
  cases r.rest with
  | nil => simp
  | cons b rest =>
    by_cases hb : b = tag
    · simp [hb]
    · simp [hb]

/-- What is read as a text: a text segment, if what follows does not go on with it. -/
theorem text?_eq_ok_iff {t : String} :
    r.text? = (.ok t, r') ↔ ∃ rest, r.rest = (Segment.text t).encode ++ rest ∧
      rest.head? ≠ some escape ∧ r' = r.moveTo rest := by
  constructor
  · intro h
    unfold text? at h
    cases htag : r.afterTag textTag "string" with
    | error fault => simp [htag] at h
    | ok bs =>
      cases hcontent : content bs with
      | none => simp [htag, hcontent] at h
      | some parts =>
        obtain ⟨s, rest⟩ := parts
        obtain ⟨rfl, hrest⟩ := eq_of_content hcontent
        simp only [htag, hcontent, Prod.mk.injEq] at h
        obtain ⟨hdecode, rfl⟩ := h
        cases hs : Utf8.decode s with
        | error fault =>
          rw [hs] at hdecode
          cases hdecode
        | ok u =>
          rw [hs] at hdecode
          obtain rfl := Except.ok.inj hdecode
          refine ⟨rest, ?_, hrest, rfl⟩
          rw [afterTag_eq_ok_iff.1 htag, Segment.encode, Utf8.encode_of_decode hs,
            List.cons_append]
  · rintro ⟨rest, h, hrest, rfl⟩
    exact text?_of_rest h hrest

/-- What is read as an integer: an integer segment, whatever follows. -/
theorem integer?_eq_ok_iff {n : Int64} :
    r.integer? = (.ok n, r') ↔
      ∃ rest, r.rest = (Segment.integer n).encode ++ rest ∧ r' = r.moveTo rest := by
  constructor
  · intro h
    unfold integer? at h
    cases htag : r.afterTag integerTag "integer" with
    | error fault => simp [htag] at h
    | ok bs =>
      simp only [htag] at h
      split at h
      · simp at h
      · next hlen =>
        simp only [Prod.mk.injEq, Except.ok.injEq] at h
        obtain ⟨rfl, rfl⟩ := h
        have htake : (bs.take 8).length = 8 := by
          rw [List.length_take]
          omega
        have hlt : Bytes.ofBigEndian (bs.take 8) < Bytes.bound 8 := by
          have := Bytes.ofBigEndian_lt (bs.take 8)
          rwa [htake] at this
        have hfield := Bytes.bigEndian_ofBigEndian (bs.take 8)
        rw [htake] at hfield
        refine ⟨bs.drop 8, ?_, rfl⟩
        rw [afterTag_eq_ok_iff.1 htag, Segment.encode, shifted_ofInt hlt, hfield, List.cons_append,
          List.take_append_drop]
  · rintro ⟨rest, h, rfl⟩
    rw [Segment.encode, List.cons_append] at h
    have hlen : ¬ (Bytes.bigEndian 8 (n.toInt + bias).toNat ++ rest).length < 8 := by
      rw [List.length_append, Bytes.length_bigEndian]
      omega
    have hsplit : (Bytes.bigEndian 8 (n.toInt + bias).toNat ++ rest).take 8 =
          Bytes.bigEndian 8 (n.toInt + bias).toNat ∧
        (Bytes.bigEndian 8 (n.toInt + bias).toNat ++ rest).drop 8 = rest :=
      ⟨List.take_left' (Bytes.length_bigEndian _ _), List.drop_left' (Bytes.length_bigEndian _ _)⟩
    simp only [integer?, afterTag_eq_ok_iff.2 h, if_neg hlen, hsplit,
      Bytes.ofBigEndian_bigEndian (shifted_lt_bound n), ofInt_shifted]

/-! ## All segments -/

/-- Reading to the end: texts where the tag of a text stands, integers where that of an integer
does, and nothing after the last one. -/
inductive Reads : Reader → List Segment → Prop
  | done {r : Reader} (h : r.isEmpty) : Reads r []
  | text {r r' : Reader} {t : String} {ss : List Segment} (htag : r.rest.head? = some textTag)
    (h : r.text? = (.ok t, r')) (hrest : Reads r' ss) : Reads r (.text t :: ss)
  | integer {r r' : Reader} {n : Int64} {ss : List Segment}
    (htag : r.rest.head? = some integerTag) (h : r.integer? = (.ok n, r')) (hrest : Reads r' ss) :
    Reads r (.integer n :: ss)

theorem rest_of_reads (h : r.Reads ss) : r.rest = ofSegments ss := by
  induction h with
  | done h => exact List.isEmpty_iff.1 h
  | text _ h _ ih =>
    obtain ⟨rest, hr, -, rfl⟩ := text?_eq_ok_iff.1 h
    rw [hr, ofSegments_cons]
    exact congrArg _ ih
  | integer _ h _ ih =>
    obtain ⟨rest, hr, rfl⟩ := integer?_eq_ok_iff.1 h
    rw [hr, ofSegments_cons]
    exact congrArg _ ih

theorem head?_ne_escape (ss : List Segment) : (ofSegments ss).head? ≠ some escape := by
  intro h
  exact absurd (startsBelowEscape_ofSegments ss escape h) (UInt8.lt_irrefl _)

theorem reads_of_rest (h : r.rest = ofSegments ss) : r.Reads ss := by
  induction ss generalizing r with
  | nil => exact .done (List.isEmpty_iff.2 h)
  | cons s ss ih =>
    rw [ofSegments_cons] at h
    have hnext : (r.moveTo (ofSegments ss)).Reads ss := ih rfl
    cases s with
    | text t =>
      refine .text (by rw [h]; rfl) (text?_eq_ok_iff.2 ?_) hnext
      exact ⟨ofSegments ss, h, head?_ne_escape ss, rfl⟩
    | integer n =>
      refine .integer (by rw [h]; rfl) (integer?_eq_ok_iff.2 ?_) hnext
      exact ⟨ofSegments ss, h, rfl⟩

/-- The bytes that are read to the end are those of the segments. -/
theorem reads_iff : r.Reads ss ↔ r.rest = ofSegments ss := ⟨rest_of_reads, reads_of_rest⟩

/-- The next segment is read by its tag. -/
theorem next_eq_ok_iff {seg : Segment} :
    r.next = (.ok seg, r') ↔
      (∃ t, seg = .text t ∧ r.rest.head? = some textTag ∧ r.text? = (.ok t, r')) ∨
      ∃ n, seg = .integer n ∧ r.rest.head? = some integerTag ∧ r.integer? = (.ok n, r') := by
  constructor
  · intro h
    unfold next at h
    split at h
    · next htag =>
      cases hn : r.integer? with
      | mk n k =>
        cases n with
        | error fault => simp [hn, Except.map] at h
        | ok n =>
          simp only [hn, Except.map, Prod.mk.injEq, Except.ok.injEq] at h
          obtain ⟨rfl, rfl⟩ := h
          exact .inr ⟨n, rfl, htag, rfl⟩
    · cases ht : r.text? with
      | mk t k =>
        cases t with
        | error fault => simp [ht, Except.map] at h
        | ok t =>
          simp only [ht, Except.map, Prod.mk.injEq, Except.ok.injEq] at h
          obtain ⟨rfl, rfl⟩ := h
          obtain ⟨rest, hr, -, -⟩ := text?_eq_ok_iff.1 ht
          exact .inl ⟨t, rfl, by rw [hr]; rfl, rfl⟩
  · rintro (⟨t, rfl, htag, h⟩ | ⟨n, rfl, htag, h⟩)
    · have hne : r.rest.head? ≠ some integerTag := by
        rw [htag]
        decide
      simp only [next, if_neg hne, h, Except.map]
    · simp only [next, if_pos htag, h, Except.map]

theorem reads_cons_iff {seg : Segment} :
    r.Reads (seg :: ss) ↔ ∃ r', r.next = (.ok seg, r') ∧ r'.Reads ss := by
  constructor
  · intro h
    cases h with
    | text htag h hrest => exact ⟨_, next_eq_ok_iff.2 (.inl ⟨_, rfl, htag, h⟩), hrest⟩
    | integer htag h hrest => exact ⟨_, next_eq_ok_iff.2 (.inr ⟨_, rfl, htag, h⟩), hrest⟩
  · rintro ⟨r', h, hrest⟩
    obtain ⟨t, rfl, htag, h⟩ | ⟨n, rfl, htag, h⟩ := next_eq_ok_iff.1 h
    · exact .text htag h hrest
    · exact .integer htag h hrest

theorem length_of_next {seg : Segment} (h : r.next = (.ok seg, r')) :
    r'.rest.length < r.rest.length := by
  obtain ⟨b, bs, hseg⟩ := exists_encode_eq_cons seg
  have hrest : r.rest = seg.encode ++ r'.rest := by
    obtain ⟨t, rfl, -, h⟩ | ⟨n, rfl, -, h⟩ := next_eq_ok_iff.1 h
    · obtain ⟨rest, hr, -, rfl⟩ := text?_eq_ok_iff.1 h
      exact hr
    · obtain ⟨rest, hr, rfl⟩ := integer?_eq_ok_iff.1 h
      exact hr
  rw [hrest, hseg, List.length_append, List.length_cons]
  omega

/-- With enough fuel `readAll` reads to the end whatever can be read to the end. -/
theorem readAll_eq_iff {fuel : Nat} (hf : r.rest.length ≤ fuel) :
    readAll fuel r = (ss, none) ↔ r.Reads ss := by
  induction fuel generalizing r ss with
  | zero =>
    have hr : r.rest = [] := List.length_eq_zero_iff.1 (Nat.le_zero.1 hf)
    rw [reads_iff, hr, readAll, Prod.mk.injEq, and_iff_left rfl, eq_comm, eq_comm (a := []),
      ofSegments_eq_nil_iff]
  | succ fuel ih =>
    cases ss with
    | nil =>
      rw [reads_iff, ofSegments_nil, readAll]
      by_cases hempty : r.isEmpty
      · rw [if_pos hempty]
        exact iff_of_true rfl (List.isEmpty_iff.1 hempty)
      · rw [if_neg hempty]
        refine iff_of_false (fun h => ?_) fun h => hempty (List.isEmpty_iff.2 h)
        split at h <;> simp at h
    | cons s ss =>
      rw [reads_cons_iff, readAll]
      constructor
      · intro h
        split at h
        · simp at h
        · split at h
          · simp at h
          · next seg k hn =>
            simp only [Prod.mk.injEq, List.cons.injEq] at h
            obtain ⟨⟨rfl, hss⟩, hfault⟩ := h
            have hlen := length_of_next hn
            refine ⟨k, hn, (ih (by omega)).1 ?_⟩
            rw [← hss, ← hfault]
      · rintro ⟨k, hn, hrest⟩
        have hlen := length_of_next hn
        have hempty : ¬ r.isEmpty := by
          intro h
          rw [List.isEmpty_iff.1 h] at hlen
          exact absurd hlen (Nat.not_lt_zero _)
        have hk : readAll fuel k = (ss, none) := (ih (by omega)).2 hrest
        rw [if_neg hempty]
        simp only [hn, hk]

end Reader

/-! ## Whole keys -/

theorem segments_eq_ok_iff {key : Bytes} {ss : List Segment} :
    segments key = .ok ss ↔ (Reader.start key).Reads ss := by
  rw [← Reader.readAll_eq_iff (Nat.le_refl key.length)]
  unfold segments read
  cases Reader.readAll key.length (Reader.start key) with
  | mk ts fault => cases fault <;> simp

/-- Reading a key to its end gives the segments of which it is made, and only keys can be read to
their end: bytes that no list of segments makes are refused with a fault. -/
theorem reading_inverts_building (key : Bytes) (ss : List Segment) :
    ((Reader.start key).Reads ss ↔ key = ofSegments ss) ∧
    (segments key = .ok ss ↔ key = ofSegments ss) ∧
    ((∃ fault, segments key = .error fault) ↔ ∀ ts, key ≠ ofSegments ts) := by
  have hreads : ∀ ts, (Reader.start key).Reads ts ↔ key = ofSegments ts := fun ts =>
    Reader.reads_iff
  have hsegments : ∀ ts, segments key = .ok ts ↔ key = ofSegments ts := fun ts =>
    segments_eq_ok_iff.trans (hreads ts)
  refine ⟨hreads ss, hsegments ss, ?_⟩
  simp only [← hsegments, ne_eq]
  cases segments key <;> simp

end Key

end NamespaceCatalog
