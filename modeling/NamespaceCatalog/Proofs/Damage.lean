import NamespaceCatalog.Proofs.Checksums
import NamespaceCatalog.Proofs.TornFrames

/-!
# Damage before the end of a log

One byte of a frame is changed, and more is written behind the frame.  If the byte is not of the
length field, the frame is still cut out of the log at the right places, so that the checksum does
not match (`Entry.parse_set`): the log is reported as damaged and left as it is.

If it is of the length field, the checksum is looked for at another place.  With a length that
reaches beyond the end of the log the frame looks as if it was not written to its end, and so it
does with one that reaches to the very end, where the checksum does not match.  Then this frame and
all that follow are cut off (`Journal.replay_of_damage`).
-/

namespace NamespaceCatalog

namespace Entry

variable {e : Entry} {frame header payload stored rest more : Bytes} {i : Nat} {b : UInt8}

/-! ## Checksums of changed bytes -/

theorem trailer_set_ne {body : Bytes} (hi : i < body.length) (hb : body[i] ≠ b) :
    trailer (body.set i b) ≠ trailer body := by
  have hbody : body.take i ++ body[i] :: body.drop (i + 1) = body := by
    rw [List.getElem_cons_drop, List.take_append_drop]
  have hcrc : Checksum.crc32 (body.set i b) ≠ Checksum.crc32 body := by
    rw [List.set_eq_take_append_cons_drop, if_pos hi, ← congrArg Checksum.crc32 hbody]
    exact Checksum.crc32_ne _ _ hb.symm
  intro he
  have hlt : ∀ x : UInt32, x.toNat < Bytes.bound 4 := UInt32.toNat_lt
  have hn := congrArg Bytes.ofLittleEndian he
  rw [trailer, trailer, Bytes.ofLittleEndian_littleEndian (hlt _),
    Bytes.ofLittleEndian_littleEndian (hlt _)] at hn
  exact hcrc (UInt32.toNat_inj.1 hn)

/-! ## Frames with a checksum that does not match -/

/-- A frame with something behind it is damaged if its checksum does not match. -/
theorem parse_of_mismatch (hh : header.length = headerLength)
    (hn : Bytes.ofLittleEndian (header.drop 7) = payload.length)
    (hs : stored.length = trailerLength) (hbad : trailer (header ++ payload) ≠ stored)
    (hmore : more ≠ []) (offset : Nat) :
    ∃ fault, parse offset (header ++ (payload ++ (stored ++ more))) = .error fault := by
  have hcut := Bytes.split?_append header (payload ++ (stored ++ more))
  have hcut' := Bytes.split?_append stored more
  rw [hh] at hcut
  rw [hs] at hcut'
  have hempty : more.isEmpty = false := by simpa using hmore
  rw [parse, hcut]
  dsimp only
  split
  · exact ⟨_, rfl⟩
  · split
    · exact ⟨_, rfl⟩
    · rw [parseBody, hn, Bytes.split?_append]
      simp only [hcut', if_pos hbad, hempty, Bool.false_eq_true, if_false]
      exact ⟨_, rfl⟩

theorem set_ne {bs : Bytes} (hi : i < bs.length) (hb : bs[i] ≠ b) : bs.set i b ≠ bs := by
  intro h
  have hget := congrArg (·[i]?) h
  simp only [List.getElem?_set_self hi, List.getElem?_eq_getElem hi] at hget
  exact hb (Option.some.inj hget).symm

/-- What a frame is made of, with the header as a whole. -/
theorem exists_header_of_encode (he : e.encode = .ok frame) :
    ∃ header payload, header.length = headerLength ∧
      Bytes.ofLittleEndian (header.drop 7) = payload.length ∧ header.take 4 = magic ∧
      Bytes.ofLittleEndian ((header.drop 4).take 2) = version ∧
      frame = header ++ (payload ++ trailer (header ++ payload)) := by
  obtain ⟨payload, length, -, hn, rfl⟩ := encode_eq_ok_iff.1 he
  refine ⟨frameBody e.type length [], payload, length_header hn e.type,
    (parse_header hn e.type [] 0 []).2.1, rfl, rfl, ?_⟩
  rw [header_append e.type length payload]

/-- A frame of which a byte outside of the length field was changed is damaged. -/
theorem parse_set (he : e.encode = .ok frame) (hi : i < frame.length) (hb : frame[i] ≠ b)
    (hout : i < 7 ∨ 11 ≤ i) (hmore : more ≠ []) (offset : Nat) :
    ∃ fault, parse offset (frame.set i b ++ more) = .error fault := by
  obtain ⟨header, payload, hheader, hannounced, -, -, rfl⟩ := exists_header_of_encode he
  have hheader' : header.length = 11 := hheader
  have hstored := length_trailer (header ++ payload)
  by_cases hlt : i < header.length
  · -- in the header, and not in its length field
    have hbody : i < (header ++ payload).length := by
      rw [List.length_append]
      omega
    have hbad := trailer_set_ne hbody (b := b) (by simpa [List.getElem_append, hlt] using hb)
    rw [List.set_append_left _ _ hlt] at hbad ⊢
    have hdrop : (header.set i b).drop 7 = header.drop 7 := List.drop_set_of_lt (by omega)
    rw [List.append_assoc, List.append_assoc]
    exact parse_of_mismatch (by simpa using hheader) (hdrop ▸ hannounced) hstored hbad hmore offset
  · have hle : header.length ≤ i := Nat.le_of_not_lt hlt
    rw [List.set_append_right _ _ hle, List.append_assoc]
    by_cases hlt' : i - header.length < payload.length
    · have hbody : i < (header ++ payload).length := by
        rw [List.length_append]
        omega
      have hbad := trailer_set_ne hbody (b := b)
        (by simpa [List.getElem_append, hlt, hlt'] using hb)
      rw [List.set_append_right _ _ hle] at hbad
      rw [List.set_append_left _ _ hlt', List.append_assoc]
      exact parse_of_mismatch hheader (by simpa using hannounced) hstored hbad hmore offset
    · -- in the checksum itself
      have hle' : payload.length ≤ i - header.length := Nat.le_of_not_lt hlt'
      have hin : i - header.length - payload.length < (trailer (header ++ payload)).length := by
        simp only [List.length_append] at hi
        omega
      have hbad := set_ne hin (b := b) (by simpa [List.getElem_append, hlt, hlt'] using hb)
      rw [List.set_append_right _ _ hle', List.append_assoc]
      exact parse_of_mismatch hheader hannounced (by simp) hbad.symm hmore offset

/-! ## Frames with another length -/

/-- The length of the payload as a header gives it. -/
def announced (header : Bytes) : Nat := Bytes.ofLittleEndian (header.drop 7)

/-- Does the checksum that is found after the announced length match? -/
def Matches (header rest : Bytes) : Prop :=
  trailer (header ++ rest.take (announced header)) =
    (rest.drop (announced header)).take trailerLength

theorem parseBody_of_beyond (h : rest.length < announced header + trailerLength) (offset : Nat) :
    parseBody offset header rest = .ok .torn := by
  unfold parseBody
  rw [← announced]
  cases hcut : Bytes.split? (announced header) rest with
  | none => simp only [hcut]
  | some parts =>
    obtain ⟨payload, after⟩ := parts
    obtain ⟨rfl, hlen⟩ := Bytes.split?_eq_some hcut
    have hafter : Bytes.split? trailerLength after = none := by
      rw [Bytes.split?_eq_none_iff]
      rw [List.length_append, hlen] at h
      omega
    simp only [hcut, hafter]

theorem parseBody_of_mismatch (h : announced header + trailerLength ≤ rest.length)
    (hbad : ¬Matches header rest) (offset : Nat) :
    parseBody offset header rest =
      if rest.length = announced header + trailerLength then .ok .torn
      else .error (.badChecksum offset) := by
  obtain ⟨payload, stored, later, rfl, hp, hs⟩ : ∃ payload stored later,
      rest = payload ++ (stored ++ later) ∧ payload.length = announced header ∧
        stored.length = trailerLength := by
    refine ⟨rest.take (announced header), (rest.drop (announced header)).take trailerLength,
      (rest.drop (announced header)).drop trailerLength, ?_, ?_, ?_⟩
    · rw [List.take_append_drop, List.take_append_drop]
    · rw [List.length_take]
      omega
    · rw [List.length_take, List.length_drop]
      omega
  have hbad : trailer (header ++ payload) ≠ stored := by
    rwa [Matches, List.take_left' hp, List.drop_left' hp, List.take_left' hs] at hbad
  have hcut := Bytes.split?_append payload (stored ++ later)
  have hcut' := Bytes.split?_append stored later
  rw [hp] at hcut
  rw [hs] at hcut'
  have hend : later.isEmpty ↔
      (payload ++ (stored ++ later)).length = announced header + trailerLength := by
    rw [List.length_append, List.length_append, List.isEmpty_iff, ← List.length_eq_zero_iff]
    omega
  unfold parseBody
  rw [← announced]
  simp only [hcut, hcut', if_pos hbad, hend]

/-- A frame of which a byte of the length field was changed is read with the new length. -/
theorem parse_set_length (he : e.encode = .ok frame) (hi : 7 ≤ i) (hi' : i < 11) (offset : Nat) :
    parse offset (frame.set i b ++ more) =
      parseBody offset ((frame.take headerLength).set i b) (frame.drop headerLength ++ more) := by
  obtain ⟨header, payload, hheader, -, hmagic, hversion, rfl⟩ := exists_header_of_encode he
  have hlt : i < header.length := by
    rw [hheader]
    exact hi'
  have hcut := Bytes.split?_append (header.set i b)
    (payload ++ trailer (header ++ payload) ++ more)
  rw [List.length_set, hheader] at hcut
  rw [List.take_left' hheader, List.drop_left' hheader, List.set_append_left _ _ hlt,
    List.append_assoc, parse, hcut]
  have hmagic' : (header.set i b).take 4 = magic := by
    rw [List.take_set_of_le (by omega), hmagic]
  have hversion' : Bytes.ofLittleEndian (((header.set i b).drop 4).take 2) = version := by
    rw [List.drop_set, if_neg (by omega), List.take_set_of_le (by omega), hversion]
  dsimp only
  rw [if_neg (not_not_intro hmagic'), if_neg (not_not_intro hversion')]

end Entry

namespace Journal

/-- The log is reported as damaged, and left as it is. -/
def Reports (s : Stream) (sync : Bool) : Prop :=
  ∃ fault j, (ofStream s sync).replay = (.error (.logCorruption fault), j) ∧
    j.stream.bytes = s.bytes

/-- The log is read as the entries `es`, and nothing but `bs` is left of it. -/
def CutsOff (s : Stream) (sync : Bool) (es : List Entry) (bs : Bytes) : Prop :=
  ∃ j, (ofStream s sync).replay = (.ok (survivors es), j) ∧ j.stream.bytes = bs

open Entry in
/-- One byte of a frame with something behind it is changed.  Outside of the length field this is
reported.  In the length field it is reported if the new length ends before the end of the log; if
it ends there or beyond, the frame and all that follows are cut off without notice. -/
theorem replay_of_damage {es : List Entry} {bs frame more : Bytes} {e : Entry} {i : Nat}
    {b : UInt8} {s : Stream} (h : Frames es bs) (he : e.encode = .ok frame) (hmore : more ≠ [])
    (hi : i < frame.length) (hb : frame[i] ≠ b) (hs : s.bytes = bs ++ (frame.set i b ++ more))
    (hsize : s.size = s.bytes.length) (hread : s.now.read = false)
    (htruncate : s.tick.now.truncate = false) (sync : Bool) :
    (i < 7 ∨ 11 ≤ i → Reports s sync) ∧
    (7 ≤ i → i < 11 →
      let header := (frame.take headerLength).set i b
      let rest := frame.drop headerLength ++ more
      (rest.length < announced header + trailerLength → CutsOff s sync es bs) ∧
      (rest.length = announced header + trailerLength → ¬Matches header rest →
        CutsOff s sync es bs) ∧
      (announced header + trailerLength < rest.length → ¬Matches header rest →
        Reports s sync)) := by
  have hne : frame.set i b ++ more ≠ [] := List.append_ne_nil_of_right_ne_nil _ hmore
  have reports : ∀ fault, parse bs.length (frame.set i b ++ more) = .error fault →
      Reports s sync := by
    intro fault hparse
    have hscan := h.ofBytes_append_of_error hne hparse
    exact ⟨fault, replay_of_damaged hsize hread (hs ▸ hscan) sync⟩
  have cutsOff : parse bs.length (frame.set i b ++ more) = .ok .torn → CutsOff s sync es bs := by
    intro hparse
    have hscan := h.ofBytes_append_of_torn hne hparse
    exact replay_of_torn hs hsize hread htruncate (hs ▸ hscan) sync
  refine ⟨fun hout => ?_, fun hi₁ hi₂ => ⟨fun hlt => cutsOff ?_, fun heq hbad => cutsOff ?_,
    fun hlt hbad => reports (.badChecksum bs.length) ?_⟩⟩
  · obtain ⟨fault, hparse⟩ := parse_set he hi hb hout hmore bs.length
    exact reports fault hparse
  · rw [parse_set_length he hi₁ hi₂]
    exact parseBody_of_beyond hlt _
  · rw [parse_set_length he hi₁ hi₂, parseBody_of_mismatch (Nat.le_of_eq heq.symm) hbad, if_pos heq]
  · rw [parse_set_length he hi₁ hi₂, parseBody_of_mismatch (Nat.le_of_lt hlt) hbad,
      if_neg (Nat.ne_of_gt hlt)]

/-- The frame of a commit that writes a row. -/
def writingFrame : Bytes :=
  [78, 83, 84, 66, 1, 0, 1, 23, 0, 0, 0, 1, 0, 0, 0, 0, 0, 0, 0, 1, 0, 0, 0, 1, 0, 0, 0, 7, 1, 1, 0,
    0, 0, 8, 154, 164, 134, 196]

/-- The frame of a commit that deletes a row. -/
def deletingFrame : Bytes :=
  [78, 83, 84, 66, 1, 0, 1, 18, 0, 0, 0, 2, 0, 0, 0, 0, 0, 0, 0, 1, 0, 0, 0, 1, 0, 0, 0, 9, 0, 126,
    169, 119, 51]

set_option maxRecDepth 4000 in
theorem encode_writing : (Entry.commit 1 [([7], some [8])]).encode = .ok writingFrame := (rfl)

set_option maxRecDepth 4000 in
/-- In a log of two frames another value in the first is reported.  Another highest byte of its
length is not, and nothing is left of the log, of which both frames were read before. -/
theorem replay_of_damaged_length :
    (ofStream (Stream.ofBytes (writingFrame ++ deletingFrame)) true).replay.1 =
        .ok [[([7], some [8])], [([9], none)]] ∧
      Reports (Stream.ofBytes (writingFrame.set 33 9 ++ deletingFrame)) true ∧
      CutsOff (Stream.ofBytes (writingFrame.set 10 1 ++ deletingFrame)) true [] [] := by
  have he := encode_writing
  have he' : (Entry.commit 2 [([9], none)]).encode = .ok deletingFrame := rfl
  have hread := replay_of_frames (s := Stream.ofBytes (writingFrame ++ deletingFrame))
    ((Frames.nil.append_encode he).append_encode he') rfl rfl true
  have hvalue := replay_of_damage (s := Stream.ofBytes (writingFrame.set 33 9 ++ deletingFrame))
    .nil he (List.cons_ne_nil _ _) (i := 33) (b := 9) (by decide) (by decide) rfl rfl rfl rfl true
  have hlength := replay_of_damage (s := Stream.ofBytes (writingFrame.set 10 1 ++ deletingFrame))
    .nil he (List.cons_ne_nil _ _) (i := 10) (b := 1) (by decide) (by decide) rfl rfl rfl rfl true
  refine ⟨congrArg Prod.fst hread, hvalue.1 (by decide), ?_⟩
  exact (hlength.2 (by decide) (by decide)).1 (by decide)

end Journal

end NamespaceCatalog
