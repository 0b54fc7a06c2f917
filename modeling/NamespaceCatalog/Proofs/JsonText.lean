import NamespaceCatalog.Json.Document
import NamespaceCatalog.Proofs.Documents

/-!
# Reading JSON text that was written

Of a byte that was escaped the reader of strings finds the end, whatever follows
(`rawString_escapeByte`), and gets the byte back (`unescape_escapeByte`).  Both go through a whole
text byte by byte, so a text that was written is read again, with anything after it
(`readString_string`).  An object that was written is read if the reader of its members takes
them (`readObject_object`), and so documents of texts and maps come back (`keeps_dataFormat`).
-/

namespace NamespaceCatalog.Json

/-! ## Escaped bytes -/

theorem hexValue?_hexDigit : ∀ n < 16, hexValue? (hexDigit n) = some n := by decide

theorem hexNumber?_of_byte {n : Nat} (h : n < 0x100) :
    hexNumber? 0x30 0x30 (hexDigit (n / 16)) (hexDigit (n % 16)) = some n := by
  have hzero : hexValue? 0x30 = some 0 := rfl
  rw [hexNumber?, hzero, hexValue?_hexDigit _ (by omega), hexValue?_hexDigit _ (by omega)]
  exact congrArg some (by omega)

theorem unescapeLetter_of_shortEscape {b letter : UInt8} (h : shortEscape b = some letter) :
    unescapeLetter letter = some b ∧ letter ≠ 0x75 := by
  unfold shortEscape at h
  split at h
  · next hb =>
    cases h
    rcases hb with rfl | rfl <;> decide
  · repeat'
      split at h
      next e => cases h; subst e; decide
    cases h

/-- A byte is escaped by a letter or by its number, or stands for itself. -/
theorem escapeByte_cases (b : UInt8) :
    (∃ letter, escapeByte b = [backslash, letter] ∧ unescapeLetter letter = some b ∧
      letter ≠ 0x75) ∨
    (∃ x y, escapeByte b = [backslash, 0x75, 0x30, 0x30, x, y] ∧
      hexNumber? 0x30 0x30 x y = some b.toNat ∧ b.toNat < 0x20) ∨
    (escapeByte b = [b] ∧ b ≠ quote ∧ b ≠ backslash ∧ ¬ b < 0x20) := by
  unfold escapeByte
  cases hb : shortEscape b with
  | some letter => exact .inl ⟨letter, rfl, unescapeLetter_of_shortEscape hb⟩
  | none =>
    by_cases hcontrol : b < 0x20
    · exact .inr (.inl ⟨_, _, if_pos hcontrol, hexNumber?_of_byte b.toNat_lt, hcontrol⟩)
    · refine .inr (.inr ⟨if_neg hcontrol, ?_, ?_, hcontrol⟩)
      · rintro rfl
        cases hb
      · rintro rfl
        cases hb

/-- The end of a string is not inside an escape. -/
theorem rawString_escapeByte (b : UInt8) (bs : Bytes) :
    rawString (escapeByte b ++ bs) =
      (rawString bs).map fun (s, rest) => (escapeByte b ++ s, rest) := by
  rcases escapeByte_cases b with ⟨letter, e, hletter, hne⟩ | ⟨x, y, e, hnumber, -⟩ |
    ⟨e, hquote, hbackslash, hcontrol⟩
  · rw [e]
    show rawString (backslash :: letter :: bs) = _
    rw [rawString.eq_def]
    simp [hletter, hne, show backslash ≠ quote by decide]
  · rw [e]
    show rawString (backslash :: 0x75 :: 0x30 :: 0x30 :: x :: y :: bs) = _
    rw [rawString.eq_def]
    simp [hnumber, show backslash ≠ quote by decide]
  · rw [e]
    show rawString (b :: bs) = _
    rw [rawString.eq_def]
    simp [hquote, hbackslash, hcontrol]

theorem utf8EncodeChar_ofNat :
    ∀ n < 0x20, String.utf8EncodeChar (Char.ofNat n) = [UInt8.ofNat n] := by
  decide

theorem unescape_escapeByte (b : UInt8) (bs : Bytes) :
    unescape (escapeByte b ++ bs) = (unescape bs).map (b :: ·) := by
  rcases escapeByte_cases b with ⟨letter, e, hletter, hne⟩ | ⟨x, y, e, hnumber, hcontrol⟩ |
    ⟨e, -, hbackslash, -⟩
  · rw [e]
    show unescape (backslash :: letter :: bs) = _
    rw [unescape.eq_def]
    simp [hletter, hne]
  · rw [e]
    show unescape (backslash :: 0x75 :: 0x30 :: 0x30 :: x :: y :: bs) = _
    have hlow : isLowSurrogate b.toNat = false := by
      simp only [isLowSurrogate, Bool.and_eq_false_iff, decide_eq_false_iff_not]
      omega
    have hhigh : isHighSurrogate b.toNat = false := by
      simp only [isHighSurrogate, Bool.and_eq_false_iff, decide_eq_false_iff_not]
      omega
    rw [unescape.eq_def]
    simp [hnumber, hlow, hhigh, utf8EncodeChar_ofNat _ hcontrol]
  · rw [e]
    show unescape (b :: bs) = _
    rw [unescape.eq_def]
    simp [hbackslash]

/-! ## Strings -/

theorem rawString_escaped (bs rest : Bytes) :
    rawString (bs.flatMap escapeByte ++ quote :: rest) = some (bs.flatMap escapeByte, rest) := by
  induction bs with
  | nil =>
    show rawString (quote :: rest) = _
    rw [rawString.eq_def]
    simp
  | cons b bs ih =>
    rw [List.flatMap_cons, List.append_assoc, rawString_escapeByte, ih]
    rfl

theorem unescape_escaped (bs : Bytes) : unescape (bs.flatMap escapeByte) = some bs := by
  induction bs with
  | nil =>
    show unescape [] = _
    rw [unescape.eq_def]
  | cons b bs ih =>
    rw [List.flatMap_cons, unescape_escapeByte, ih]
    rfl

theorem stringBody_escaped (s : String) (rest : Bytes) :
    stringBody ((Utf8.encode s).flatMap escapeByte ++ quote :: rest) = some (s, rest) := by
  rw [stringBody, rawString_escaped]
  simp only [unescape_escaped, Utf8.decode_encode]
  rfl

theorem string_append (s : String) (rest : Bytes) :
    string s ++ rest = quote :: ((Utf8.encode s).flatMap escapeByte ++ quote :: rest) := by
  simp [string]

theorem readString_string (s : String) (rest : Bytes) :
    readString (string s ++ rest) = some (s, rest) := by
  rw [string_append]
  exact stringBody_escaped s rest

/-! ## Tokens -/

theorem skipBlanks_cons {b : UInt8} (hb : isBlank b = false) (bs : Bytes) :
    skipBlanks (b :: bs) = b :: bs :=
  List.dropWhile_cons_of_neg (Bool.eq_false_iff.1 hb)

theorem expect_cons {b : UInt8} (hb : isBlank b = false) (bs : Bytes) :
    expect b (b :: bs) = some bs := by
  rw [expect, skipBlanks_cons hb]
  exact if_pos rfl

theorem readOptional_string (s : String) (rest : Bytes) :
    readOptional (string s ++ rest) = some (some s, rest) := by
  have hword : nullWord = [0x6E, 0x75, 0x6C, 0x6C] := by decide +kernel
  have hnull : expectWord nullWord (skipBlanks (string s ++ rest)) = none := by
    rw [string_append, skipBlanks_cons (by decide), hword]
    rfl
  rw [readOptional, hnull, readString_string]
  rfl

/-! ## Objects -/

/-- A member of an object. -/
def member (kv : String × Bytes) : Bytes := string kv.1 ++ colon :: kv.2

/-- The members of an object but the first, and its end. -/
def others (kvs : List (String × Bytes)) (rest : Bytes) : Bytes :=
  kvs.flatMap (fun kv => comma :: member kv) ++ closeObject :: rest

theorem others_nil (rest : Bytes) : others [] rest = closeObject :: rest := rfl

theorem others_cons (kv : String × Bytes) (kvs : List (String × Bytes)) (rest : Bytes) :
    others (kv :: kvs) rest = comma :: (member kv ++ others kvs rest) := by
  simp [others]

theorem length_lt_others (kvs : List (String × Bytes)) (rest : Bytes) :
    kvs.length < (others kvs rest).length := by
  induction kvs with
  | nil => exact Nat.succ_pos _
  | cons kv kvs ih =>
    rw [others_cons, List.length_cons, List.length_cons, List.length_append]
    omega

theorem intercalate_cons (c : UInt8) (bs : Bytes) (l : List Bytes) :
    [c].intercalate (bs :: l) = bs ++ l.flatMap (c :: ·) := by
  induction l generalizing bs with
  | nil => simp [List.intercalate]
  | cons next l ih =>
    rw [List.flatMap_cons, List.cons_append, ← ih next]
    simp [List.intercalate]

theorem object_cons_append (kv : String × Bytes) (kvs : List (String × Bytes)) (rest : Bytes) :
    object (kv :: kvs) ++ rest = openObject :: (member kv ++ others kvs rest) := by
  rw [object, List.map_cons, intercalate_cons, List.flatMap_map]
  simp [member, others]

variable {σ : Type} {read : σ → String → Bytes → Option (σ × Bytes)} {s t s' : σ}

/-- What follows a member is the end, or a comma and the next member. -/
theorem members_succ {key : String} {value rest : Bytes} {b : UInt8} (hb : isBlank b = false)
    (hread : read s key (value ++ b :: rest) = some (t, b :: rest)) (fuel : Nat) :
    members read (fuel + 1) s (member (key, value) ++ b :: rest) =
      if b = comma then members read fuel t rest
      else if b = closeObject then some (t, rest)
      else none := by
  have hkey : readString (member (key, value) ++ b :: rest) =
      some (key, colon :: (value ++ b :: rest)) := by
    rw [member, List.append_assoc, List.cons_append, readString_string]
  have hcolon : (expect colon (colon :: (value ++ b :: rest))).bind (read s key) =
      some (t, b :: rest) := by
    rw [expect_cons (by decide), Option.bind_some, hread]
  simp only [members, hkey, hcolon, skipBlanks_cons hb]

theorem members_of_takes {kv : String × Bytes} {kvs : List (String × Bytes)}
    (h : Takes read (kv :: kvs) s s') {fuel : Nat} (hfuel : kvs.length < fuel) (rest : Bytes) :
    members read fuel s (member kv ++ others kvs rest) = some (s', rest) := by
  obtain ⟨fuel, rfl⟩ := Nat.exists_eq_add_one_of_ne_zero (Nat.ne_of_gt (Nat.zero_lt_of_lt hfuel))
  induction kvs generalizing kv s fuel with
  | nil =>
    obtain ⟨t, hread, rfl⟩ := h
    rw [others_nil, members_succ (by decide) (hread _), if_neg (by decide), if_pos rfl]
  | cons next kvs ih =>
    obtain ⟨t, hread, h⟩ := h
    obtain ⟨fuel, rfl⟩ := Nat.exists_eq_add_one_of_ne_zero (n := fuel) (by
      rw [List.length_cons] at hfuel
      omega)
    rw [others_cons, members_succ (by decide) (hread _), if_pos rfl]
    exact ih h fuel (Nat.lt_of_succ_lt_succ hfuel)

/-- An object that was written is read, if what reads the members takes them. -/
theorem readObject_object {kvs : List (String × Bytes)} (h : Takes read kvs s s') (rest : Bytes) :
    readObject read s (object kvs ++ rest) = some (s', rest) := by
  cases kvs with
  | nil =>
    cases h
    rfl
  | cons kv kvs =>
    have hend : expect closeObject (member kv ++ others kvs rest) = none := by
      rw [member, string]
      rfl
    have hfuel : kvs.length < (member kv ++ others kvs rest).length := by
      rw [List.length_append]
      exact Nat.lt_add_left _ (length_lt_others kvs rest)
    rw [object_cons_append, readObject, expect_cons (by decide), Option.bind_some, objectBody, hend]
    exact members_of_takes h hfuel rest

/-! ## Documents -/

theorem readScalar_string (s : String) (rest : Bytes) :
    readScalar (string s ++ rest) = some (.text s, rest) := by
  rw [readScalar, readOptional_string]
  rfl

theorem readScalar_object (kvs : List (String × Bytes)) (rest : Bytes) :
    readScalar (object kvs ++ rest) = none := by
  have hword : nullWord = [0x6E, 0x75, 0x6C, 0x6C] := by decide +kernel
  rw [readScalar, readOptional, hword]
  rfl

/-- A document of texts and maps is written, and read whatever follows. -/
theorem exists_writeDocument {levels : Nat} {shape : Shape} {d : Document}
    (hd : d.Fits levels shape) :
    ∃ bs, writeDocument levels d = some bs ∧
      ∀ rest, readDocument levels shape (bs ++ rest) = some (d, rest) := by
  induction levels generalizing shape d with
  | zero =>
    rcases hd.text_or_map with ⟨s, rfl⟩ | ⟨_, _, e, -⟩
    · exact ⟨string s, rfl, fun rest => by rw [readDocument, readScalar_string]; rfl⟩
    · cases e
  | succ levels ih =>
    rcases hd.text_or_map with ⟨s, rfl⟩ | ⟨_, ms, e, rfl, -, hms⟩
    · exact ⟨string s, rfl, fun rest => by rw [readDocument, readScalar_string]; rfl⟩
    · cases e
      let part (key : String) (bs : Bytes) :=
        (shape.field? key).elim (pass bs) fun part => readDocument levels part bs
      have hparts : ∀ m ∈ ms, ∃ bs, writeDocument levels m.2 = some bs ∧
          ∀ rest, part m.1 (bs ++ rest) = some (m.2, rest) := fun m hm => by
        obtain ⟨-, wanted, hwanted, hfits⟩ := hms m hm
        obtain ⟨bs, hwrite, hread⟩ := ih hfits
        exact ⟨bs, hwrite, fun rest => by simp only [part, hwanted]; exact hread rest⟩
      obtain ⟨kvs, hkvs, -, htakes⟩ := exists_takes part hparts []
      refine ⟨object kvs, by rw [writeDocument, hkvs]; rfl, fun rest => ?_⟩
      rw [readDocument, readScalar_object]
      dsimp only
      rw [readObject_object htakes]
      simp

theorem keeps_dataFormat : dataFormat.Keeps := by
  intro shape d hd
  obtain ⟨bs, hwrite, hread⟩ := exists_writeDocument hd
  have hread := hread []
  rw [List.append_nil] at hread
  refine ⟨bs, by simp only [dataFormat, hwrite, Option.elim_some], ?_⟩
  simp only [dataFormat, hread]
  rfl

end NamespaceCatalog.Json
