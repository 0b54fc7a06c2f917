import NamespaceCatalog.Journal.Replay

/-!
# Frames

What `Entry.encode` writes is read back as the same entry, whatever follows it (`parse_encode`).
`Frames es bs` says that the bytes `bs` are frames of the entries `es`, one after the other, and
nothing else; the log that they are is then read as `es` to its end (`Frames.ofBytes`).
-/

namespace NamespaceCatalog

namespace Entry

/-! ## What is written -/

theorem block_eq_ok_iff {bs written : Bytes} :
    block bs = .ok written ↔
      ∃ length, field 4 bs.length = .ok length ∧ written = length ++ bs := by
  rw [block, map_eq_ok_iff]
  simp only [eq_comm]

theorem encodeWrite_none_eq_ok_iff {key bs : Bytes} :
    encodeWrite (key, none) = .ok bs ↔ ∃ front, block key = .ok front ∧ bs = front ++ [0] := by
  unfold encodeWrite
  cases block key <;> simp [eq_comm]

theorem encodeWrite_some_eq_ok_iff {key value bs : Bytes} :
    encodeWrite (key, some value) = .ok bs ↔
      ∃ front back, block key = .ok front ∧ block value = .ok back ∧ bs = front ++ 1 :: back := by
  unfold encodeWrite
  cases block key with
  | error e => simp
  | ok front =>
    simp only [map_eq_ok_iff]
    simp [eq_comm]

theorem encodeWrites_cons_eq_ok_iff {w : RowWrite} {ws : List RowWrite} {bs : Bytes} :
    encodeWrites (w :: ws) = .ok bs ↔
      ∃ row rows, encodeWrite w = .ok row ∧ encodeWrites ws = .ok rows ∧ bs = row ++ rows := by
  rw [encodeWrites]
  cases encodeWrite w with
  | error e => simp
  | ok row =>
    simp only [map_eq_ok_iff]
    simp [eq_comm]

theorem payload_commit_eq_ok_iff {tx : TxId} {ws : List RowWrite} {bs : Bytes} :
    (commit tx ws).payload = .ok bs ↔
      ∃ id count rows, field 8 tx = .ok id ∧ field 4 ws.length = .ok count ∧
        encodeWrites ws = .ok rows ∧ bs = id ++ count ++ rows := by
  cases hid : field 8 tx with
  | error e => cases hcount : field 4 ws.length <;> simp [payload, hid, hcount]
  | ok id =>
    cases hcount : field 4 ws.length with
    | error e => simp [payload, hid, hcount]
    | ok count =>
      simp only [payload, hid, hcount, map_eq_ok_iff]
      simp [eq_comm]

/-! ## Payloads -/

theorem readBytes_append (front rest : Bytes) :
    readBytes front.length (front ++ rest) = .ok (front, rest) := by
  simp [readBytes, Bytes.split?_append]

theorem readNumber_field {w n : Nat} {bs : Bytes} (h : field w n = .ok bs) (rest : Bytes) :
    readNumber w (bs ++ rest) = .ok (n, rest) := by
  obtain ⟨hn, rfl⟩ := field_eq_ok_iff.1 h
  have hr := readBytes_append (Bytes.littleEndian w n) rest
  rw [Bytes.length_littleEndian] at hr
  simp [readNumber, hr, Except.map, Bytes.ofLittleEndian_littleEndian hn]

theorem readBlock_block {bs written : Bytes} (h : block bs = .ok written) (rest : Bytes) :
    readBlock (written ++ rest) = .ok (bs, rest) := by
  obtain ⟨length, hlength, rfl⟩ := block_eq_ok_iff.1 h
  simp only [readBlock, List.append_assoc, readNumber_field hlength, readBytes_append]

theorem readWrite_encodeWrite {w : RowWrite} {bs : Bytes} (h : encodeWrite w = .ok bs)
    (rest : Bytes) : readWrite (bs ++ rest) = .ok (w, rest) := by
  obtain ⟨key, value⟩ := w
  cases value with
  | none =>
    obtain ⟨front, hfront, rfl⟩ := encodeWrite_none_eq_ok_iff.1 h
    simp [readWrite, readBlock_block hfront]
  | some value =>
    obtain ⟨front, back, hfront, hback, rfl⟩ := encodeWrite_some_eq_ok_iff.1 h
    simp [readWrite, readBlock_block hfront, readBlock_block hback, Except.map]

theorem readWrites_encodeWrites {ws : List RowWrite} {bs : Bytes} (h : encodeWrites ws = .ok bs)
    (rest : Bytes) : readWrites ws.length (bs ++ rest) = .ok (ws, rest) := by
  induction ws generalizing bs with
  | nil =>
    cases h
    rfl
  | cons w ws ih =>
    obtain ⟨row, rows, hrow, hrows, rfl⟩ := encodeWrites_cons_eq_ok_iff.1 h
    simp only [List.length_cons, readWrites, List.append_assoc, readWrite_encodeWrite hrow,
      ih hrows, Except.map]

theorem readEntry_payload {e : Entry} {bs : Bytes} (h : e.payload = .ok bs) (rest : Bytes) :
    readEntry e.type (bs ++ rest) = .ok (e, rest) := by
  cases e with
  | rollback tx => simp [readEntry, readNumber_field h, type]
  | commit tx ws =>
    have ht : (commit tx ws).type ≠ rollbackType := by
      show commitType ≠ rollbackType
      decide
    obtain ⟨id, count, rows, hid, hcount, hrows, rfl⟩ := payload_commit_eq_ok_iff.1 h
    simp only [readEntry, List.append_assoc, readNumber_field hid, if_neg ht,
      readNumber_field hcount, readWrites_encodeWrites hrows, Except.map]

theorem ofPayload_payload {e : Entry} {bs : Bytes} (h : e.payload = .ok bs) :
    ofPayload e.type bs = .ok e := by
  have hr := readEntry_payload h []
  rw [List.append_nil] at hr
  simp [ofPayload, hr]

/-! ## Whole frames -/

/-- Is `frame` read as the entry `e`, wherever it stands and whatever follows it? -/
def IsFrame (e : Entry) (frame : Bytes) : Prop :=
  ∀ offset rest, parse offset (frame ++ rest) = .ok (.entry e frame.length rest)

theorem IsFrame.length_pos {e : Entry} {frame : Bytes} (h : IsFrame e frame) : 0 < frame.length := by
  rw [List.length_pos_iff]
  rintro rfl
  have h0 := h 0 []
  cases h0

@[simp] theorem length_trailer (body : Bytes) : (trailer body).length = trailerLength := by
  simp [trailer, trailerLength]

theorem length_header {n : Nat} {length : Bytes} (hn : field 4 n = .ok length) (type : UInt8) :
    (frameBody type length []).length = headerLength := by
  obtain ⟨-, rfl⟩ := field_eq_ok_iff.1 hn
  simp [frameBody, magic, headerLength]

theorem header_append (type : UInt8) (length payload : Bytes) :
    frameBody type length [] ++ payload = frameBody type length payload := by
  simp [frameBody]

/-- What a frame is made of. -/
theorem encode_eq_ok_iff {e : Entry} {frame : Bytes} :
    e.encode = .ok frame ↔ ∃ payload length, e.payload = .ok payload ∧
      field 4 payload.length = .ok length ∧
      frame = frameBody e.type length [] ++
        (payload ++ trailer (frameBody e.type length payload)) := by
  unfold encode
  cases hp : e.payload with
  | error fault => simp
  | ok payload =>
    cases hn : field 4 payload.length with
    | error fault => simp [hn]
    | ok length =>
      simp only [hn, Except.ok.injEq, exists_and_left, exists_eq_left', ← List.append_assoc,
        header_append]
      exact eq_comm

/-- A commit fits a frame if all its numbers fit their fields. -/
theorem encode_commit_iff {tx : TxId} {ws : List RowWrite} :
    (∃ frame, (commit tx ws).encode = .ok frame) ↔
      tx < Bytes.bound 8 ∧ ws.length < Bytes.bound 4 ∧
        ∃ bs, encodeWrites ws = .ok bs ∧ 8 + 4 + bs.length < Bytes.bound 4 := by
  have hok : ∀ {w n : Nat}, n < Bytes.bound w → field w n = .ok (Bytes.littleEndian w n) :=
    fun h => field_eq_ok_iff.2 ⟨h, rfl⟩
  have hlen : ∀ bs : Bytes,
      (Bytes.littleEndian 8 tx ++ Bytes.littleEndian 4 ws.length ++ bs).length =
        8 + 4 + bs.length := by
    intro bs
    simp only [List.length_append, Bytes.length_littleEndian]
  constructor
  · rintro ⟨frame, h⟩
    obtain ⟨bytes, length, hp, hb, -⟩ := encode_eq_ok_iff.1 h
    obtain ⟨id, count, bs, hid, hcount, hws, rfl⟩ := payload_commit_eq_ok_iff.1 hp
    obtain ⟨htx, rfl⟩ := field_eq_ok_iff.1 hid
    obtain ⟨hn, rfl⟩ := field_eq_ok_iff.1 hcount
    rw [hlen] at hb
    exact ⟨htx, hn, bs, hws, (field_eq_ok_iff.1 hb).1⟩
  · rintro ⟨htx, hn, bs, hws, hb⟩
    have hp : (commit tx ws).payload = .ok _ :=
      payload_commit_eq_ok_iff.2 ⟨_, _, bs, hok htx, hok hn, hws, rfl⟩
    exact ⟨_, encode_eq_ok_iff.2 ⟨_, _, hp, hok ((hlen bs).symm ▸ hb), rfl⟩⟩

/-- A rollback of a transaction with a number that fits has a frame. -/
theorem exists_encode_rollback {tx : TxId} (h : tx < Bytes.bound 8) :
    ∃ frame, (rollback tx).encode = .ok frame := by
  have hp : (rollback tx).payload = .ok (Bytes.littleEndian 8 tx) := field_eq_ok_iff.2 ⟨h, rfl⟩
  have hl : field 4 (Bytes.littleEndian 8 tx).length = .ok (Bytes.littleEndian 4 8) := by
    rw [Bytes.length_littleEndian]
    exact field_eq_ok_iff.2 ⟨by decide, rfl⟩
  exact ⟨_, encode_eq_ok_iff.2 ⟨_, _, hp, hl, rfl⟩⟩

/-- The bytes before a payload. -/
theorem parse_header {n : Nat} {length : Bytes} (hn : field 4 n = .ok length) (type : UInt8)
    (payload : Bytes) (offset : Nat) (rest : Bytes) :
    parse offset (frameBody type length payload ++ rest) =
      parseBody offset (frameBody type length []) (payload ++ rest) ∧
    Bytes.ofLittleEndian ((frameBody type length []).drop 7) = n ∧
    (frameBody type length []).getD 6 0 = type := by
  have hl := length_header hn type
  obtain ⟨hb, rfl⟩ := field_eq_ok_iff.1 hn
  have hs := Bytes.split?_append (frameBody type (Bytes.littleEndian 4 n) []) (payload ++ rest)
  rw [hl] at hs
  have he : frameBody type (Bytes.littleEndian 4 n) payload ++ rest =
      frameBody type (Bytes.littleEndian 4 n) [] ++ (payload ++ rest) := by
    rw [← List.append_assoc, header_append]
  refine ⟨?_, ?_, ?_⟩
  · rw [he, parse, hs]
    have hv : Bytes.ofLittleEndian (Bytes.littleEndian 2 version) = version := by decide
    simp [frameBody, magic, Bytes.littleEndian, Bytes.ofLittleEndian, version]
  · simpa [frameBody, magic, Bytes.littleEndian] using Bytes.ofLittleEndian_littleEndian hb
  · simp [frameBody, magic, Bytes.littleEndian]

theorem type_eq (e : Entry) : e.type = commitType ∨ e.type = rollbackType := by
  cases e <;> simp [type]

theorem parse_encode {e : Entry} {frame : Bytes} (h : e.encode = .ok frame) : IsFrame e frame := by
  intro offset rest
  obtain ⟨payload, length, hp, hn, rfl⟩ := encode_eq_ok_iff.1 h
  obtain ⟨hh, hl, ht⟩ := parse_header hn e.type payload offset
    (trailer (frameBody e.type length payload) ++ rest)
  have hs := Bytes.split?_append (trailer (frameBody e.type length payload)) rest
  rw [length_trailer] at hs
  have hty : ¬(e.type ≠ commitType ∧ e.type ≠ rollbackType) := by
    rcases type_eq e with h | h <;> simp [h]
  have hf : (frameBody e.type length payload).length = headerLength + payload.length := by
    rw [← header_append, List.length_append, length_header hn]
  rw [← List.append_assoc, header_append, List.append_assoc, hh, parseBody]
  simp only [hl, ht, Bytes.split?_append, hs, header_append, ne_eq, not_true_eq_false, if_false,
    hty, ofPayload_payload hp, Except.map]
  rw [List.length_append, hf, length_trailer]

end Entry

/-! ## Logs -/

/-- Are the bytes frames of the given entries, one after the other? -/
inductive Frames : List Entry → Bytes → Prop
  | nil : Frames [] []
  | cons {e : Entry} {es : List Entry} {frame bs : Bytes} (he : e.IsFrame frame)
    (hes : Frames es bs) : Frames (e :: es) (frame ++ bs)

namespace Frames

theorem append {es later : List Entry} {bs more : Bytes} (h : Frames es bs)
    (h' : Frames later more) : Frames (es ++ later) (bs ++ more) := by
  induction h with
  | nil => exact h'
  | cons he _ ih =>
    rw [List.cons_append, List.append_assoc]
    exact .cons he ih

theorem append_encode {es : List Entry} {bs frame : Bytes} {e : Entry} (h : Frames es bs)
    (he : e.encode = .ok frame) : Frames (es ++ [e]) (bs ++ frame) := by
  have hf := Frames.cons (Entry.parse_encode he) .nil
  rw [List.append_nil] at hf
  exact h.append hf

theorem readFrom {es : List Entry} {bs : Bytes} (h : Frames es bs) {fuel : Nat}
    (hf : bs.length ≤ fuel) (offset : Nat) :
    Scan.readFrom fuel offset bs = ⟨es, offset + bs.length, .complete⟩ := by
  induction h generalizing fuel offset with
  | nil => cases fuel <;> rfl
  | @cons e es frame bs he _ ih =>
    have hpos := he.length_pos
    rw [List.length_append] at hf
    cases fuel with
    | zero => omega
    | succ fuel =>
      have hne : (frame ++ bs).isEmpty = false := by
        cases frame with
        | nil => cases hpos
        | cons b frame => rfl
      have hfuel : bs.length ≤ fuel := by omega
      simp only [Scan.readFrom, hne, Bool.false_eq_true, if_false, he offset bs, ih hfuel,
        List.length_append, Nat.add_assoc]

theorem ofBytes {es : List Entry} {bs : Bytes} (h : Frames es bs) :
    Scan.ofBytes bs = ⟨es, bs.length, .complete⟩ := by
  rw [Scan.ofBytes, h.readFrom (Nat.le_refl _), Nat.zero_add]

end Frames

end NamespaceCatalog
