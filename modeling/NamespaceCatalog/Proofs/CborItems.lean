import NamespaceCatalog.Cbor.Document
import NamespaceCatalog.Proofs.Documents

/-!
# Reading CBOR items that were written

A header has five lengths, and is read whichever of them was written (`readHeader_header`).  So is a
text, in one piece or in several (`readOptional_anyText`), and a map of such, if the reader of its
entries takes them (`readMap_map`).  So documents of texts and maps come back (`keeps_dataFormat`).
-/

namespace NamespaceCatalog.Cbor

variable {major minor n : Nat}

/-! ## Headers -/

/-- Only the headers of the last type look at how the number was written. -/
theorem ofParts_eq (hmajor : major < 7) (minor minor' : Nat) (number : Option Nat) :
    Header.ofParts major minor number = Header.ofParts major minor' number := by
  match major, hmajor with
  | 0, _ | 1, _ | 2, _ | 3, _ | 4, _ | 5, _ | 6, _ => rfl

theorem toNat_first (hmajor : major < 8) (hminor : minor < 32) :
    (UInt8.ofNat (major * 32 + minor)).toNat = major * 32 + minor := by
  rw [UInt8.toNat_ofNat']
  exact Nat.mod_eq_of_lt (by omega)

theorem readHeader_short (hmajor : major < 7) (hn : n < 24) (rest : Bytes) :
    readHeader (UInt8.ofNat (major * 32 + n) :: rest) =
      (Header.ofParts major 0 (some n)).map (·, rest) := by
  have hdiv : (major * 32 + n) / 32 = major := by omega
  have hmod : (major * 32 + n) % 32 = n := by omega
  simp only [readHeader, toNat_first (Nat.lt_succ_of_lt hmajor) (Nat.lt_trans hn (by decide)),
    hdiv, hmod, hn, if_true, ofParts_eq hmajor n 0]

/-- The number is in one, two, four or eight bytes of its own. -/
theorem readHeader_long (minor : Nat) (hmajor : major < 7) (hlow : 24 ≤ minor) (hhigh : minor < 28)
    (hn : n < Bytes.bound (1 <<< (minor - 24))) (rest : Bytes) :
    readHeader (UInt8.ofNat (major * 32 + minor) ::
        (Bytes.bigEndian (1 <<< (minor - 24)) n ++ rest)) =
      (Header.ofParts major 0 (some n)).map (·, rest) := by
  have hdiv : (major * 32 + minor) / 32 = major := by omega
  have hmod : (major * 32 + minor) % 32 = minor := by omega
  have hsplit : Bytes.split? (1 <<< (minor - 24)) (Bytes.bigEndian (1 <<< (minor - 24)) n ++ rest) =
      some (Bytes.bigEndian (1 <<< (minor - 24)) n, rest) := by
    have := Bytes.split?_append (Bytes.bigEndian (1 <<< (minor - 24)) n) rest
    rwa [Bytes.length_bigEndian] at this
  simp only [readHeader, toNat_first (Nat.lt_succ_of_lt hmajor) (Nat.lt_trans hhigh (by decide)),
    hdiv, hmod, Nat.not_lt.2 hlow, if_false, hhigh, if_true, hsplit, Bytes.ofBigEndian_bigEndian hn,
    ofParts_eq hmajor minor 0]

theorem readHeader_header (hmajor : major < 7) (hn : n < UInt64.size) (rest : Bytes) :
    readHeader (header major n ++ rest) = (Header.ofParts major 0 (some n)).map (·, rest) := by
  unfold header
  dsimp only
  split
  · next h => exact readHeader_short hmajor h rest
  · split
    · next h => exact readHeader_long 24 hmajor (by decide) (by decide) h rest
    · split
      · next h => exact readHeader_long 25 hmajor (by decide) (by decide) h rest
      · split
        · next h => exact readHeader_long 26 hmajor (by decide) (by decide) h rest
        · exact readHeader_long 27 hmajor (by decide) (by decide) hn rest

theorem header_ne_nil (major n : Nat) : header major n ≠ [] := by
  unfold header
  dsimp only
  split
  · exact List.cons_ne_nil _ _
  · repeat' split
    all_goals exact List.cons_ne_nil _ _

/-- A header that is no tag comes first. -/
theorem readUntagged_of_readHeader {bs rest : Bytes} {h : Header}
    (hread : readHeader bs = some (h, rest)) (htag : ∀ n, h ≠ .tag n) :
    readUntagged bs = some (h, rest) := by
  cases bs with
  | nil => cases hread
  | cons b bs =>
    rw [readUntagged, List.length_cons, readUntaggedFrom, hread]
    cases h with
    | tag n => exact absurd rfl (htag n)
    | _ => rfl

/-! ## Texts -/

/-- Can the length of the text be written? -/
def Writable (s : String) : Prop := (Utf8.encode s).length < UInt64.size

variable {s : String}

theorem readHeader_text (hs : Writable s) (rest : Bytes) :
    readHeader (text s ++ rest) =
      some (.text (some (Utf8.encode s).length), Utf8.encode s ++ rest) := by
  rw [text, List.append_assoc, readHeader_header (by decide) hs]
  rfl

theorem readUntagged_text (hs : Writable s) (rest : Bytes) :
    readUntagged (text s ++ rest) =
      some (.text (some (Utf8.encode s).length), Utf8.encode s ++ rest) :=
  readUntagged_of_readHeader (readHeader_text hs rest) fun _ => nofun

theorem textBody_encode (s : String) (rest : Bytes) :
    textBody (some (Utf8.encode s).length) (Utf8.encode s ++ rest) = some (s, rest) := by
  rw [textBody, pieces, Bytes.split?_append]
  simp [joinTexts, Utf8.decode_encode]

theorem readOptional_of_text {bs rest : Bytes} {n : Option Nat} {after : Bytes}
    (hheader : readHeader bs = some (.text n, after)) (hbody : textBody n after = some (s, rest)) :
    readOptional bs = some (some s, rest) := by
  rw [readOptional, hheader, readText, readUntagged_of_readHeader hheader fun _ => nofun]
  dsimp only
  rw [hbody]
  rfl

theorem piecesFrom_texts {ss : List String} (hs : ∀ s ∈ ss, Writable s) {fuel : Nat}
    (hfuel : ss.length < fuel) (rest : Bytes) :
    piecesFrom textLength fuel 0 (ss.flatMap text ++ 0xFF :: rest) =
      some (ss.map Utf8.encode, rest) := by
  obtain ⟨fuel, rfl⟩ := Nat.exists_eq_add_one_of_ne_zero (Nat.ne_of_gt (Nat.zero_lt_of_lt hfuel))
  induction ss generalizing fuel with
  | nil => rfl
  | cons s ss ih =>
    obtain ⟨hs, hss⟩ := List.forall_mem_cons.1 hs
    obtain ⟨fuel, rfl⟩ := Nat.exists_eq_add_one_of_ne_zero (n := fuel) (by
      rw [List.length_cons] at hfuel
      omega)
    have ih := ih hss fuel (Nat.lt_of_succ_lt_succ hfuel)
    rw [List.flatMap_cons, List.append_assoc, piecesFrom, readHeader_text hs]
    simp only [textLength, Bytes.split?_append, ih]
    rfl

theorem joinTexts_encode (ss : List String) :
    joinTexts (ss.map Utf8.encode) = some (String.join ss) := by
  induction ss with
  | nil => rfl
  | cons s ss ih => simp [joinTexts, Utf8.decode_encode, ih]

theorem length_lt_texts (ss : List String) (rest : Bytes) :
    ss.length < (ss.flatMap text ++ 0xFF :: rest).length := by
  induction ss with
  | nil => exact Nat.succ_pos _
  | cons s ss ih =>
    have hpos : 0 < (text s).length := by
      rw [text, List.length_append]
      exact Nat.add_pos_left (List.length_pos_iff.2 (header_ne_nil _ _)) _
    rw [List.flatMap_cons, List.append_assoc, List.length_append, List.length_cons]
    omega

theorem textBody_texts {ss : List String} (hs : ∀ s ∈ ss, Writable s) (rest : Bytes) :
    textBody none (ss.flatMap text ++ 0xFF :: rest) = some (String.join ss, rest) := by
  rw [textBody, pieces, piecesFrom_texts hs (length_lt_texts ss rest)]
  dsimp only
  rw [joinTexts_encode]
  rfl

theorem writable_singleton (c : Char) : Writable (String.singleton c) := by
  have hlength : (Utf8.encode (String.singleton c)).length = c.utf8Size := by
    show (String.singleton c).utf8ByteSize = _
    simp
  rw [Writable, hlength]
  exact Nat.lt_of_le_of_lt c.utf8Size_le_four (by decide)

/-- A text of any length is read. -/
theorem readOptional_anyText (s : String) (rest : Bytes) :
    readOptional (anyText s ++ rest) = some (some s, rest) := by
  unfold anyText
  split
  · next hs => exact readOptional_of_text (readHeader_text hs rest) (textBody_encode s rest)
  · have hjoin : String.join (s.toList.map String.singleton) = s := by
      rw [← String.toList_inj, String.toList_join]
      simp [List.flatMap_map]
    have hpieces : ∀ t ∈ s.toList.map String.singleton, Writable t := fun t ht => by
      obtain ⟨c, -, rfl⟩ := List.mem_map.1 ht
      exact writable_singleton c
    have hbody := textBody_texts hpieces rest
    rw [hjoin] at hbody
    refine readOptional_of_text (n := none) ?_ hbody
    simp [openText]
    rfl

theorem readKey_text (hs : (Utf8.encode s).length ≤ keyLimit) (rest : Bytes) :
    readKey (text s ++ rest) = some (some s, rest) := by
  have hwritable : Writable s := Nat.lt_of_le_of_lt hs (by decide)
  rw [readKey, readUntagged_text hwritable]
  dsimp only
  rw [if_pos hs, textBody_encode]
  rfl

/-! ## Maps -/

variable {σ : Type} {entry : σ → Option String → Bytes → Option (σ × Bytes)} {a b : σ}
  {kvs : List (String × Bytes)}

/-- The entries of a map. -/
def written (kvs : List (String × Bytes)) : Bytes := kvs.flatMap fun (k, v) => text k ++ v

theorem written_cons_append (key : String) (value : Bytes) (kvs : List (String × Bytes))
    (rest : Bytes) :
    written ((key, value) :: kvs) ++ rest = text key ++ (value ++ (written kvs ++ rest)) := by
  simp [written]

theorem length_le_written (kvs : List (String × Bytes)) : kvs.length ≤ (written kvs).length := by
  induction kvs with
  | nil => exact Nat.le_refl 0
  | cons kv kvs ih =>
    obtain ⟨key, value⟩ := kv
    have hpos : 0 < (text key).length := by
      rw [text, List.length_append]
      exact Nat.add_pos_left (List.length_pos_iff.2 (header_ne_nil _ _)) _
    have hlength := congrArg List.length (written_cons_append key value kvs [])
    simp only [List.append_nil, List.length_append] at hlength
    rw [hlength, List.length_cons]
    omega

theorem entries_of_takes (hkeys : ∀ kv ∈ kvs, (Utf8.encode kv.1).length ≤ keyLimit)
    (h : Takes (fun a key => entry a (some key)) kvs a b) {fuel : Nat} (hfuel : kvs.length ≤ fuel)
    (rest : Bytes) :
    entries entry fuel (some kvs.length) a (written kvs ++ rest) = some (b, rest) := by
  induction kvs generalizing a fuel with
  | nil =>
    cases h
    cases fuel <;> rfl
  | cons kv kvs ih =>
    obtain ⟨key, value⟩ := kv
    obtain ⟨hkey, hkeys⟩ := List.forall_mem_cons.1 hkeys
    obtain ⟨c, hentry, h⟩ := h
    obtain ⟨fuel, rfl⟩ := Nat.exists_eq_add_one_of_ne_zero
      (Nat.ne_of_gt (Nat.lt_of_lt_of_le (Nat.succ_pos _) hfuel))
    rw [written_cons_append, List.length_cons]
    simp only [entries, readKey_text hkey, hentry]
    exact ih hkeys h (Nat.le_of_succ_le_succ hfuel)

theorem readHeader_map (hlength : kvs.length < UInt64.size) (rest : Bytes) :
    readHeader (map kvs ++ rest) = some (.map (some kvs.length), written kvs ++ rest) := by
  rw [map, List.append_assoc, readHeader_header (by decide) hlength]
  rfl

/-- A map that was written is read, if what reads the entries takes them. -/
theorem readMap_map (hkeys : ∀ kv ∈ kvs, (Utf8.encode kv.1).length ≤ keyLimit)
    (hlength : kvs.length < UInt64.size) (h : Takes (fun a key => entry a (some key)) kvs a b)
    (rest : Bytes) : readMap entry a (map kvs ++ rest) = some (b, rest) := by
  have hfuel : kvs.length ≤ (written kvs ++ rest).length + 1 := by
    have := length_le_written kvs
    rw [List.length_append]
    omega
  rw [readMap, readUntagged_of_readHeader (readHeader_map hlength rest) fun _ => nofun]
  exact entries_of_takes hkeys h hfuel rest

/-! ## Documents -/

theorem readScalar_anyText (s : String) (rest : Bytes) :
    readScalar (anyText s ++ rest) = some (.text s, rest) := by
  rw [readScalar, readOptional_anyText]
  rfl

theorem readScalar_map (hlength : kvs.length < UInt64.size) (rest : Bytes) :
    readScalar (map kvs ++ rest) = none := by
  have hheader := readHeader_map hlength rest
  rw [readScalar, readOptional, hheader, readText,
    readUntagged_of_readHeader hheader fun _ => nofun]
  rfl

/-- A document of texts and maps is written, and read whatever follows. -/
theorem exists_writeDocument {levels : Nat} {shape : Shape} {d : Document}
    (hd : d.Fits levels shape) (depth : Nat) :
    ∃ bs, writeDocument levels d = some bs ∧
      ∀ rest, readDocument levels depth shape (bs ++ rest) = some (d, rest) := by
  induction levels generalizing shape d depth with
  | zero =>
    rcases hd.text_or_map with ⟨s, rfl⟩ | ⟨_, _, e, -⟩
    · exact ⟨anyText s, rfl, fun rest => by rw [readDocument, readScalar_anyText]; rfl⟩
    · cases e
  | succ levels ih =>
    rcases hd.text_or_map with ⟨s, rfl⟩ | ⟨_, ms, e, rfl, hlength, hms⟩
    · exact ⟨anyText s, rfl, fun rest => by rw [readDocument, readScalar_anyText]; rfl⟩
    · cases e
      let part (key : String) (bs : Bytes) :=
        (shape.field? key).elim (pass (depth - 1) bs) fun part =>
          readDocument levels (depth - 1) part bs
      have hparts : ∀ m ∈ ms, ∃ bs, writeDocument levels m.2 = some bs ∧
          ∀ rest, part m.1 (bs ++ rest) = some (m.2, rest) := fun m hm => by
        obtain ⟨-, wanted, hwanted, hfits⟩ := hms m hm
        obtain ⟨bs, hwrite, hread⟩ := ih hfits (depth - 1)
        exact ⟨bs, hwrite, fun rest => by simp only [part, hwanted]; exact hread rest⟩
      obtain ⟨kvs, hkvs, hkeys, htakes⟩ := exists_takes part hparts []
      have hlength : kvs.length < UInt64.size := by
        have := congrArg List.length hkeys
        simp only [List.length_map] at this
        omega
      have hshort : ∀ kv ∈ kvs, (Utf8.encode kv.1).length ≤ keyLimit := by
        intro kv hkv
        obtain ⟨m, hm, e⟩ := List.mem_map.1 (hkeys ▸ List.mem_map_of_mem hkv)
        exact e ▸ (hms m hm).1
      refine ⟨map kvs, by rw [writeDocument, hkvs]; rfl, fun rest => ?_⟩
      rw [readDocument, readScalar_map hlength]
      dsimp only
      rw [readMap_map hshort hlength htakes]
      simp

theorem keeps_dataFormat : dataFormat.Keeps := by
  intro shape d hd
  obtain ⟨bs, hwrite, hread⟩ := exists_writeDocument hd depthLimit
  have hread := hread []
  rw [List.append_nil] at hread
  refine ⟨bs, by simp only [dataFormat, hwrite, Option.elim_some], ?_⟩
  simp only [dataFormat, hread]
  rfl

end NamespaceCatalog.Cbor
