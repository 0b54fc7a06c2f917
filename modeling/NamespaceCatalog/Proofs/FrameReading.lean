import NamespaceCatalog.Proofs.Frames

/-!
# Frames have one reading

What is read as a frame is the frame of the entry that is read.  The lemmas follow the format from
the inside out, as those of `Frames` do for writing: whatever a reader accepts is what the writer
writes for the value, and stands in front of what the reader leaves (`field_of_readNumber`,
`block_of_readBlock`, …, `encode_of_parse`).  Nothing in a frame is free: lengths and counts are
those of what follows, flags have two values, and no bytes are left over.

So a row of frames is read as the entries of which it is made (`Frames.iff_encodeAll`), and can be
made of no others (`frames_have_one_reading`).
-/

namespace NamespaceCatalog

namespace Entry

variable {bs rest : Bytes}

/-! ## Payloads -/

theorem readBytes_ok {n : Nat} {front : Bytes} (h : readBytes n bs = .ok (front, rest)) :
    bs = front ++ rest ∧ front.length = n := by
  unfold readBytes at h
  split at h
  · next parts hs =>
    cases h
    exact Bytes.split?_eq_some hs
  · cases h

theorem field_of_readNumber {w n : Nat} (h : readNumber w bs = .ok (n, rest)) :
    ∃ front, field w n = .ok front ∧ bs = front ++ rest := by
  obtain ⟨⟨front, after⟩, hr, e⟩ := map_eq_ok_iff.1 h
  cases e
  obtain ⟨hbs, rfl⟩ := readBytes_ok hr
  refine ⟨front, field_eq_ok_iff.2 ⟨?_, ?_⟩, hbs⟩
  · exact Bytes.ofLittleEndian_lt front
  · exact Bytes.littleEndian_ofLittleEndian front

theorem block_of_readBlock {content : Bytes} (h : readBlock bs = .ok (content, rest)) :
    ∃ front, block content = .ok front ∧ bs = front ++ rest := by
  unfold readBlock at h
  cases hn : readNumber 4 bs with
  | error fault => simp [hn] at h
  | ok parts =>
    obtain ⟨n, after⟩ := parts
    simp only [hn] at h
    obtain ⟨length, hlength, rfl⟩ := field_of_readNumber hn
    obtain ⟨rfl, rfl⟩ := readBytes_ok h
    exact ⟨length ++ content, block_eq_ok_iff.2 ⟨length, hlength, rfl⟩, by rw [List.append_assoc]⟩

theorem encodeWrite_of_readWrite {w : RowWrite} (h : readWrite bs = .ok (w, rest)) :
    ∃ front, encodeWrite w = .ok front ∧ bs = front ++ rest := by
  unfold readWrite at h
  split at h
  · cases h
  · cases h
  · next key flag after hk =>
    obtain ⟨front, hfront, rfl⟩ := block_of_readBlock hk
    by_cases hzero : flag = 0
    · -- the row is deleted
      rw [if_pos hzero] at h
      cases h
      exact ⟨front ++ [0], encodeWrite_none_eq_ok_iff.2 ⟨front, hfront, rfl⟩, by simp [hzero]⟩
    · rw [if_neg hzero] at h
      by_cases hone : flag = 1
      · -- the value follows
        rw [if_pos hone] at h
        obtain ⟨⟨value, later⟩, hv, e⟩ := map_eq_ok_iff.1 h
        cases e
        obtain ⟨back, hback, rfl⟩ := block_of_readBlock hv
        refine ⟨front ++ 1 :: back, ?_, by simp [hone]⟩
        exact encodeWrite_some_eq_ok_iff.2 ⟨front, back, hfront, hback, rfl⟩
      · rw [if_neg hone] at h
        cases h

theorem encodeWrites_of_readWrites {n : Nat} {ws : List RowWrite}
    (h : readWrites n bs = .ok (ws, rest)) :
    ws.length = n ∧ ∃ front, encodeWrites ws = .ok front ∧ bs = front ++ rest := by
  induction n generalizing bs ws with
  | zero =>
    cases h
    exact ⟨rfl, [], rfl, rfl⟩
  | succ n ih =>
    rw [readWrites] at h
    cases hw : readWrite bs with
    | error fault => simp [hw] at h
    | ok parts =>
      obtain ⟨w, after⟩ := parts
      simp only [hw] at h
      obtain ⟨⟨later, left⟩, hws, e⟩ := map_eq_ok_iff.1 h
      cases e
      obtain ⟨row, hrow, rfl⟩ := encodeWrite_of_readWrite hw
      obtain ⟨hlen, rows, hrows, rfl⟩ := ih hws
      refine ⟨congrArg (· + 1) hlen, row ++ rows, ?_, by rw [List.append_assoc]⟩
      exact encodeWrites_cons_eq_ok_iff.2 ⟨row, rows, hrow, hrows, rfl⟩

theorem payload_of_readEntry {type : UInt8} {e : Entry}
    (htype : type = commitType ∨ type = rollbackType) (h : readEntry type bs = .ok (e, rest)) :
    e.type = type ∧ ∃ front, e.payload = .ok front ∧ bs = front ++ rest := by
  unfold readEntry at h
  cases hid : readNumber 8 bs with
  | error fault => simp [hid] at h
  | ok parts =>
    obtain ⟨tx, after⟩ := parts
    obtain ⟨id, hfield, rfl⟩ := field_of_readNumber hid
    simp only [hid] at h
    by_cases hrollback : type = rollbackType
    · rw [if_pos hrollback] at h
      cases h
      exact ⟨hrollback.symm, id, hfield, rfl⟩
    · rw [if_neg hrollback] at h
      cases hn : readNumber 4 after with
      | error fault => simp [hn] at h
      | ok parts =>
        obtain ⟨n, later⟩ := parts
        obtain ⟨count, hcount, rfl⟩ := field_of_readNumber hn
        simp only [hn] at h
        obtain ⟨⟨ws, left⟩, hws, e⟩ := map_eq_ok_iff.1 h
        cases e
        obtain ⟨rfl, rows, hrows, rfl⟩ := encodeWrites_of_readWrites hws
        refine ⟨(htype.resolve_right hrollback).symm, id ++ count ++ rows, ?_, ?_⟩
        · exact payload_commit_eq_ok_iff.2 ⟨id, count, rows, hfield, hcount, hrows, rfl⟩
        · simp only [List.append_assoc]

theorem payload_of_ofPayload {type : UInt8} {e : Entry}
    (htype : type = commitType ∨ type = rollbackType) (h : ofPayload type bs = .ok e) :
    e.type = type ∧ e.payload = .ok bs := by
  unfold ofPayload at h
  cases hr : readEntry type bs with
  | error fault => simp [hr] at h
  | ok parts =>
    obtain ⟨f, after⟩ := parts
    cases after with
    | cons b after => simp [hr] at h
    | nil =>
      simp only [hr, Except.ok.injEq] at h
      subst h
      obtain ⟨hf, front, hfront, rfl⟩ := payload_of_readEntry htype hr
      exact ⟨hf, by rw [List.append_nil, hfront]⟩

/-! ## Whole frames -/

/-- A header with the fixed word and the version is a type and a length after them. -/
theorem header_eq {header : Bytes} (hl : header.length = headerLength)
    (hm : header.take 4 = magic) (hv : Bytes.ofLittleEndian ((header.drop 4).take 2) = version) :
    header = frameBody (header.getD 6 0) (header.drop 7) [] := by
  have hversion : (header.drop 4).take 2 = Bytes.littleEndian 2 version := by
    have hlen : ((header.drop 4).take 2).length = 2 := by
      rw [List.length_take, List.length_drop, hl]
      decide
    have h := Bytes.littleEndian_ofLittleEndian ((header.drop 4).take 2)
    rw [hlen, hv] at h
    exact h.symm
  have htype : header.drop 6 = header.getD 6 0 :: header.drop 7 := by
    have hlt : 6 < header.length := by
      rw [hl]
      decide
    rw [List.drop_eq_getElem_cons hlt, List.getD_eq_getElem?_getD, List.getElem?_eq_getElem hlt,
      Option.getD_some]
  calc header = header.take 4 ++ ((header.drop 4).take 2 ++ (header.drop 4).drop 2) := by
        rw [List.take_append_drop, List.take_append_drop]
    _ = magic ++ (Bytes.littleEndian 2 version ++ header.getD 6 0 :: header.drop 7) := by
        rw [hm, hversion, List.drop_drop, htype]
    _ = frameBody (header.getD 6 0) (header.drop 7) [] := by
        simp [frameBody]

/-- What has to follow the header of a frame that is read. -/
theorem parseBody_eq_entry {offset n : Nat} {header : Bytes} {e : Entry}
    (h : parseBody offset header bs = .ok (.entry e n rest)) :
    ∃ payload, bs = payload ++ (trailer (header ++ payload) ++ rest) ∧
      payload.length = Bytes.ofLittleEndian (header.drop 7) ∧
      (header.getD 6 0 = commitType ∨ header.getD 6 0 = rollbackType) ∧
      ofPayload (header.getD 6 0) payload = .ok e ∧
      n = headerLength + payload.length + trailerLength := by
  unfold parseBody at h
  dsimp only at h
  split at h
  · cases h
  · next payload after hp =>
    obtain ⟨rfl, hlen⟩ := Bytes.split?_eq_some hp
    split at h
    · cases h
    · next stored later hs =>
      obtain ⟨rfl, -⟩ := Bytes.split?_eq_some hs
      split at h
      · split at h <;> cases h
      · next hsum =>
        rw [ne_eq, Decidable.not_not] at hsum
        split at h
        · cases h
        · next htype =>
          cases ho : ofPayload (header.getD 6 0) payload with
          | error fault =>
            rw [ho] at h
            cases h
          | ok f =>
            simp only [ho, Except.map, Except.ok.injEq, Parsed.entry.injEq] at h
            obtain ⟨rfl, rfl, rfl⟩ := h
            refine ⟨payload, by rw [hsum], hlen, ?_, ho, by rw [hlen]⟩
            rwa [Decidable.not_and_iff_or_not, Decidable.not_not, Decidable.not_not] at htype

/-- What is read as a frame is the frame of what is read. -/
theorem encode_of_parse {offset n : Nat} {e : Entry}
    (h : parse offset bs = .ok (.entry e n rest)) :
    ∃ frame, e.encode = .ok frame ∧ bs = frame ++ rest ∧ frame.length = n := by
  unfold parse at h
  split at h
  · cases h
  · next header after hs =>
    obtain ⟨rfl, hl⟩ := Bytes.split?_eq_some hs
    dsimp only at h
    split at h
    · cases h
    · next hm =>
      split at h
      · cases h
      · next hv =>
        rw [ne_eq, Decidable.not_not] at hm hv
        obtain ⟨payload, rfl, hlen, htype, ho, rfl⟩ := parseBody_eq_entry h
        obtain ⟨he, hpayload⟩ := payload_of_ofPayload htype ho
        have hheader := header_eq hl hm hv
        have hfour : (header.drop 7).length = 4 := by
          rw [List.length_drop, hl]
          decide
        have hlength : field 4 payload.length = .ok (header.drop 7) := by
          rw [hlen]
          refine field_eq_ok_iff.2 ⟨?_, ?_⟩
          · have := Bytes.ofLittleEndian_lt (header.drop 7)
            rwa [hfour] at this
          · have := Bytes.littleEndian_ofLittleEndian (header.drop 7)
            rwa [hfour] at this
        refine ⟨header ++ (payload ++ trailer (header ++ payload)), ?_, ?_, ?_⟩
        · refine encode_eq_ok_iff.2 ⟨payload, header.drop 7, hpayload, hlength, ?_⟩
          rw [he, ← header_append _ _ payload, ← hheader]
        · simp only [List.append_assoc]
        · simp only [List.length_append, hl, length_trailer, Nat.add_assoc]

/-- Reading gives an entry exactly where its frame stands. -/
theorem parse_eq_entry_iff {offset n : Nat} {e : Entry} :
    parse offset bs = .ok (.entry e n rest) ↔
      ∃ frame, e.encode = .ok frame ∧ bs = frame ++ rest ∧ frame.length = n := by
  constructor
  · exact encode_of_parse
  · rintro ⟨frame, hframe, rfl, rfl⟩
    exact parse_encode hframe offset rest

/-- The frames of an entry are those that are read as it. -/
theorem isFrame_iff {e : Entry} {frame : Bytes} : IsFrame e frame ↔ e.encode = .ok frame := by
  refine ⟨fun h => ?_, parse_encode⟩
  obtain ⟨written, hwritten, hframe, -⟩ := encode_of_parse (h 0 [])
  rw [List.append_nil, List.append_nil] at hframe
  rw [hframe, hwritten]

end Entry

/-! ## Logs -/

namespace Scan

/-- What is read before the end of a log are frames of the entries. -/
theorem frames_readFrom {fuel : Nat} {bs : Bytes} (hf : bs.length ≤ fuel) (offset : Nat) :
    ∃ front rest, bs = front ++ rest ∧ Frames (readFrom fuel offset bs).entries front ∧
      (readFrom fuel offset bs).length = offset + front.length ∧
      ((readFrom fuel offset bs).ending = .complete → rest = []) := by
  induction fuel generalizing bs offset with
  | zero =>
    rw [List.length_eq_zero_iff.1 (Nat.le_zero.1 hf)]
    exact ⟨[], [], rfl, .nil, rfl, fun _ => rfl⟩
  | succ fuel ih =>
    by_cases he : bs.isEmpty
    · rw [List.isEmpty_iff.1 he]
      exact ⟨[], [], rfl, .nil, rfl, fun _ => rfl⟩
    · rw [readFrom, if_neg he]
      cases hp : Entry.parse offset bs with
      | error fault => exact ⟨[], bs, rfl, .nil, rfl, fun h => by cases h⟩
      | ok parsed =>
        cases parsed with
        | torn => exact ⟨[], bs, rfl, .nil, rfl, fun h => by cases h⟩
        | entry e n rest =>
          obtain ⟨frame, hencode, rfl, rfl⟩ := Entry.encode_of_parse hp
          have hframe := Entry.parse_encode hencode
          have hpos := hframe.length_pos
          rw [List.length_append] at hf
          have hfuel : rest.length ≤ fuel := by omega
          obtain ⟨front, after, rfl, hfront, hlen, hend⟩ := ih hfuel (offset + frame.length)
          refine ⟨frame ++ front, after, by simp, .cons hframe hfront, ?_, hend⟩
          rw [hlen, List.length_append, Nat.add_assoc]

/-- A log is read to its end if it is frames and nothing else. -/
theorem ofBytes_eq_iff {es : List Entry} {bs : Bytes} :
    ofBytes bs = ⟨es, bs.length, .complete⟩ ↔ Frames es bs := by
  refine ⟨fun h => ?_, Frames.ofBytes⟩
  obtain ⟨front, rest, hbs, hf, -, hend⟩ := frames_readFrom (Nat.le_refl bs.length) 0
  change readFrom bs.length 0 bs = _ at h
  rw [h] at hf hend
  rw [hend rfl, List.append_nil] at hbs
  rwa [hbs]

end Scan

namespace Entry

/-- The frames of the entries, one after the other. -/
def encodeAll : List Entry → Except Error Bytes
  | [] => .ok []
  | e :: es =>
    match e.encode with
    | .error fault => .error fault
    | .ok frame => (encodeAll es).map (frame ++ ·)

theorem encodeAll_cons_eq_ok_iff {e : Entry} {es : List Entry} {bs : Bytes} :
    encodeAll (e :: es) = .ok bs ↔
      ∃ frame later, e.encode = .ok frame ∧ encodeAll es = .ok later ∧ bs = frame ++ later := by
  rw [encodeAll]
  cases e.encode with
  | error fault => simp
  | ok frame => cases encodeAll es <;> simp [Except.map, eq_comm]

end Entry

/-- A row of frames is what the entries in it are written as. -/
theorem Frames.iff_encodeAll {es : List Entry} {bs : Bytes} :
    Frames es bs ↔ Entry.encodeAll es = .ok bs := by
  constructor
  · intro h
    induction h with
    | nil => rfl
    | cons he _ ih => exact Entry.encodeAll_cons_eq_ok_iff.2 ⟨_, _, Entry.isFrame_iff.1 he, ih, rfl⟩
  · intro h
    induction es generalizing bs with
    | nil =>
      cases h
      exact .nil
    | cons e es ih =>
      obtain ⟨frame, later, he, hlater, rfl⟩ := Entry.encodeAll_cons_eq_ok_iff.1 h
      exact .cons (Entry.parse_encode he) (ih hlater)

namespace Entry

/-- An entry is read, whatever follows, exactly where its frame stands; a log is read to its end
exactly if it is a row of frames; and two lists of entries are not written as the same bytes. -/
theorem frames_have_one_reading (offset : Nat) (bs : Bytes) :
    (∀ e n rest, parse offset bs = .ok (.entry e n rest) ↔
      ∃ frame, e.encode = .ok frame ∧ bs = frame ++ rest ∧ frame.length = n) ∧
    (∀ es, Scan.ofBytes bs = ⟨es, bs.length, .complete⟩ ↔ encodeAll es = .ok bs) ∧
    ∀ es later, encodeAll es = .ok bs → encodeAll later = .ok bs → es = later := by
  have hlog : ∀ es, Scan.ofBytes bs = ⟨es, bs.length, .complete⟩ ↔ encodeAll es = .ok bs :=
    fun es => Scan.ofBytes_eq_iff.trans Frames.iff_encodeAll
  refine ⟨fun e n rest => parse_eq_entry_iff, hlog, fun es later hes hlater => ?_⟩
  have h := (hlog es).2 hes
  rw [(hlog later).2 hlater] at h
  exact (congrArg Scan.entries h).symm

/-- Two rollbacks of one transaction are written as a log that can only be read as these two. -/
theorem two_rollbacks_have_one_reading :
    ∃ bs, encodeAll [.rollback 1, .rollback 1] = .ok bs ∧
      Scan.ofBytes bs = ⟨[.rollback 1, .rollback 1], bs.length, .complete⟩ ∧
      ∀ es, encodeAll es = .ok bs → es = [.rollback 1, .rollback 1] := by
  obtain ⟨frame, hframe⟩ := exists_encode_rollback (show 1 < Bytes.bound 8 by decide)
  have hall : encodeAll [.rollback 1, .rollback 1] = .ok (frame ++ (frame ++ [])) :=
    encodeAll_cons_eq_ok_iff.2
      ⟨_, _, hframe, encodeAll_cons_eq_ok_iff.2 ⟨_, _, hframe, rfl, rfl⟩, rfl⟩
  obtain ⟨-, hlog, hone⟩ := frames_have_one_reading 0 (frame ++ (frame ++ []))
  exact ⟨_, hall, (hlog _).2 hall, fun es hes => hone es _ hes hall⟩

end Entry

end NamespaceCatalog
