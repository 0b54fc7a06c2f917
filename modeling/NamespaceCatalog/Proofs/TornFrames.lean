import NamespaceCatalog.Proofs.Journals

/-!
# Frames that were not written to their end

An append that fails may leave the front of its frame.  Such a front is read as torn
(`parse_of_prefix`), so a log that ends with one is read up to it, and it is cut off.

Nothing marks the place, though, and a later append goes behind it.  What is appended before
anything is written behind such a front is read first whatever follows, and if nothing ever is, the
log gives just what was appended with success (`replay_of_appends`).
-/

namespace NamespaceCatalog

namespace Entry

/-- The front of a frame is read as torn. -/
theorem parse_of_prefix {e : Entry} {frame part : Bytes} (h : e.encode = .ok frame)
    (hp : part <+: frame) (hne : part ≠ frame) (offset : Nat) : parse offset part = .ok .torn := by
  obtain ⟨payload, length, -, hn, rfl⟩ := encode_eq_ok_iff.1 h
  have hheader := length_header hn e.type
  cases hs : Bytes.split? headerLength part with
  | none => simp [parse, hs]
  | some parts =>
    -- the header is whole, so what is missing is of the payload or the checksum
    obtain ⟨front, rest⟩ := parts
    obtain ⟨rfl, hfront⟩ := Bytes.split?_eq_some hs
    obtain rfl : front = frameBody e.type length [] :=
      (List.prefix_of_prefix_length_le ((List.prefix_append front rest).trans hp)
        (List.prefix_append _ _) (Nat.le_of_eq (hfront.trans hheader.symm))).eq_of_length
        (hfront.trans hheader.symm)
    have hrest : rest <+: payload ++ trailer (frameBody e.type length payload) :=
      (List.prefix_append_right_inj _).1 hp
    have hlt : rest.length < payload.length + trailerLength := by
      refine Nat.lt_of_le_of_ne ?_ fun hl => hne ?_
      · simpa using hrest.length_le
      · rw [hrest.eq_of_length (by simpa using hl)]
    obtain ⟨hparse, hl, -⟩ := parse_header hn e.type [] offset rest
    rw [hparse, List.nil_append, parseBody]
    simp only [hl]
    cases hs' : Bytes.split? payload.length rest with
    | none => rfl
    | some parts =>
      obtain ⟨p, after⟩ := parts
      obtain ⟨rfl, hplen⟩ := Bytes.split?_eq_some hs'
      have hafter : Bytes.split? trailerLength after = none := by
        rw [List.length_append] at hlt
        exact Bytes.split?_eq_none_iff.2 (by omega)
      simp only [hafter]

end Entry

/-! ## Logs with something behind the frames -/

/-- The frames at the front of a log are read first. -/
theorem Frames.readFrom_append {es : List Entry} {bs : Bytes} (h : Frames es bs) (more : Bytes)
    {fuel : Nat} (hf : (bs ++ more).length ≤ fuel) (offset : Nat) :
    ∃ rest, more.length ≤ rest ∧ Scan.readFrom fuel offset (bs ++ more) =
      { Scan.readFrom rest (offset + bs.length) more with
        entries := es ++ (Scan.readFrom rest (offset + bs.length) more).entries } := by
  induction h generalizing fuel offset with
  | nil => exact ⟨fuel, hf, rfl⟩
  | @cons e es frame bs he _ ih =>
    have hpos := he.length_pos
    rw [List.append_assoc, List.length_append] at hf
    cases fuel with
    | zero => omega
    | succ fuel =>
      have hne : (frame ++ (bs ++ more)).isEmpty = false := by
        cases frame with
        | nil => cases hpos
        | cons b frame => rfl
      have hfuel : (bs ++ more).length ≤ fuel := by omega
      obtain ⟨rest, hrest, hread⟩ := ih hfuel (offset + frame.length)
      refine ⟨rest, hrest, ?_⟩
      rw [List.append_assoc]
      simp only [Scan.readFrom, hne, Bool.false_eq_true, if_false, he offset (bs ++ more), hread,
        List.length_append, Nat.add_assoc, List.cons_append]

/-- A log is read up to where no more entries can be read. -/
theorem Frames.ofBytes_append_of_stop {es : List Entry} {bs more : Bytes} {ending : Ending}
    (h : Frames es bs) (hne : more ≠ [])
    (hstop : ∀ fuel, Scan.readFrom (fuel + 1) bs.length more = ⟨[], bs.length, ending⟩) :
    Scan.ofBytes (bs ++ more) = ⟨es, bs.length, ending⟩ := by
  obtain ⟨rest, hrest, hread⟩ := h.readFrom_append more (Nat.le_refl _) 0
  rw [Scan.ofBytes, hread, Nat.zero_add]
  cases rest with
  | zero => exact absurd (List.length_eq_zero_iff.1 (Nat.le_zero.1 hrest)) hne
  | succ rest => simp [hstop]

theorem Frames.ofBytes_append_of_torn {es : List Entry} {bs more : Bytes} (h : Frames es bs)
    (hne : more ≠ []) (hparse : Entry.parse bs.length more = .ok .torn) :
    Scan.ofBytes (bs ++ more) = ⟨es, bs.length, .torn⟩ := by
  have hempty : more.isEmpty = false := by simpa using hne
  exact h.ofBytes_append_of_stop hne fun fuel => by simp [Scan.readFrom, hempty, hparse]

theorem Frames.ofBytes_append_of_error {es : List Entry} {bs more : Bytes} {fault : LogFault}
    (h : Frames es bs) (hne : more ≠ []) (hparse : Entry.parse bs.length more = .error fault) :
    Scan.ofBytes (bs ++ more) = ⟨es, bs.length, .damaged fault⟩ := by
  have hempty : more.isEmpty = false := by simpa using hne
  exact h.ofBytes_append_of_stop hne fun fuel => by simp [Scan.readFrom, hempty, hparse]

/-- Is this a front of the entry's frame, but not all of it? -/
def Entry.HasFront (e : Entry) (part : Bytes) : Prop :=
  ∃ frame, e.encode = .ok frame ∧ part <+: frame ∧ part ≠ frame

/-- A log that ends with the front of a frame is read up to it. -/
theorem Frames.ofBytes_append_front {es : List Entry} {bs part : Bytes} {e : Entry}
    (h : Frames es bs) (he : e.HasFront part) (hne : part ≠ []) :
    Scan.ofBytes (bs ++ part) = ⟨es, bs.length, .torn⟩ := by
  obtain ⟨frame, hframe, hp, hpne⟩ := he
  exact h.ofBytes_append_of_torn hne (Entry.parse_of_prefix hframe hp hpne _)

namespace Journal

section Endings

variable {es : List Entry} {front rest : Bytes} {s : Stream}

/-- What is behind a torn frame is cut off with it. -/
theorem replay_eq_of_torn {j : Journal} (hb : j.stream.bytes = front ++ rest)
    (hsize : j.stream.size = j.stream.bytes.length) (hread : j.stream.now.read = false)
    (htruncate : j.stream.tick.now.truncate = false)
    (hscan : Scan.ofBytes j.stream.bytes = ⟨es, front.length, .torn⟩) :
    j.replay = (.ok (survivors es),
      ⟨{ j.stream with bytes := front, size := front.length }.tick.tick, j.sync, es.length⟩) := by
  have hle : ¬ j.stream.tick.size < front.length := by
    rw [show j.stream.tick.size = j.stream.size from rfl, hsize, hb, List.length_append]
    omega
  have hcut : j.stream.tick.cut front.length =
      .ok { j.stream.tick with bytes := front, size := front.length } := by
    rw [Stream.cut, if_neg hle, Stream.bytes_tick, hb]
    simp
  have htrunc : j.stream.tick.truncate front.length =
      (.ok (), { j.stream with bytes := front, size := front.length }.tick.tick) := by
    rw [Stream.truncate, htruncate, hcut]
    rfl
  simp only [replay, Stream.read_of_size hsize hread, hscan, htrunc]

theorem replay_of_torn (hb : s.bytes = front ++ rest) (hsize : s.size = s.bytes.length)
    (hread : s.now.read = false) (htruncate : s.tick.now.truncate = false)
    (hscan : Scan.ofBytes s.bytes = ⟨es, front.length, .torn⟩) (sync : Bool) :
    ∃ j, (ofStream s sync).replay = (.ok (survivors es), j) ∧ j.stream.bytes = front :=
  ⟨_, replay_eq_of_torn (j := ofStream s sync) hb hsize hread htruncate hscan, rfl⟩

/-- A log with damage is left as it is. -/
theorem replay_of_damaged {fault : LogFault} {n : Nat} (hsize : s.size = s.bytes.length)
    (hread : s.now.read = false) (hscan : Scan.ofBytes s.bytes = ⟨es, n, .damaged fault⟩)
    (sync : Bool) :
    ∃ j, (ofStream s sync).replay = (.error (.logCorruption fault), j) ∧
      j.stream.bytes = s.bytes := by
  refine ⟨⟨s.tick, sync, es.length⟩, ?_, rfl⟩
  simp only [replay, ofStream, Stream.read_of_size hsize hread, hscan]

end Endings

/-- What is behind the frames of a log that ends with the front of a frame is cut off. -/
theorem replay_of_front {es : List Entry} {bs part : Bytes} {e : Entry} (h : Frames es bs)
    (he : e.HasFront part) (sync : Bool) :
    ∃ j, (ofStream (Stream.ofBytes (bs ++ part)) sync).replay = (.ok (survivors es), j) ∧
      j.stream.bytes = bs := by
  by_cases hne : part = []
  · subst hne
    rw [List.append_nil]
    exact ⟨_, replay_of_frames h rfl rfl sync, rfl⟩
  · exact replay_of_torn (s := Stream.ofBytes (bs ++ part)) rfl rfl rfl rfl
      (h.ofBytes_append_front he hne) sync

/-! ## Appends that leave fronts -/

/-- Appends one after the other.  The outcomes are the entries, each with nothing if it was
appended, and with the front of its frame that was left if that failed. -/
inductive Appends (j : Journal) : List (Entry × Option Bytes) → Journal → Prop
  | refl : Appends j [] j
  | ok {outcomes : List (Entry × Option Bytes)} {k l : Journal} {e : Entry} {offset : Nat}
    (h : Appends j outcomes k) (ha : k.append e = (.ok offset, l)) :
    Appends j (outcomes ++ [(e, none)]) l
  | error {outcomes : List (Entry × Option Bytes)} {k l : Journal} {e : Entry} {fault : Error}
    {part : Bytes} (h : Appends j outcomes k) (ha : k.append e = (.error fault, l))
    (hp : part = [] ∨ e.HasFront part) (hb : l.stream.bytes = k.stream.bytes ++ part) :
    Appends j (outcomes ++ [(e, some part)]) l

/-- The entries that were appended with success. -/
def appended (outcomes : List (Entry × Option Bytes)) : List Entry :=
  (outcomes.filter (·.2.isNone)).map (·.1)

/-- Was nothing written after the front of a frame was left? -/
def Orderly (outcomes : List (Entry × Option Bytes)) : Prop :=
  outcomes.Pairwise fun o p => (∃ part, o.2 = some part ∧ part ≠ []) → p.2 = some []

theorem appended_append_none (outcomes : List (Entry × Option Bytes)) (e : Entry) :
    appended (outcomes ++ [(e, none)]) = appended outcomes ++ [e] := by
  simp [appended]

theorem appended_append_some (outcomes : List (Entry × Option Bytes)) (e : Entry) (part : Bytes) :
    appended (outcomes ++ [(e, some part)]) = appended outcomes := by
  simp [appended]

variable {j k l : Journal} {outcomes later : List (Entry × Option Bytes)} {es : List Entry}

/-- What was written stays. -/
theorem Appends.exists_bytes (h : Appends j outcomes k) :
    ∃ more, k.stream.bytes = j.stream.bytes ++ more := by
  induction h with
  | refl => exact ⟨[], (List.append_nil _).symm⟩
  | ok _ ha ih =>
    obtain ⟨more, hmore⟩ := ih
    obtain ⟨frame, -, hb⟩ := bytes_append_of_ok ha
    exact ⟨more ++ frame, by rw [hb, hmore, List.append_assoc]⟩
  | @error _ _ _ _ _ part _ _ _ hb ih =>
    obtain ⟨more, hmore⟩ := ih
    exact ⟨more ++ part, by rw [hb, hmore, List.append_assoc]⟩

/-- After orderly appends the log holds what was appended, and perhaps the front of one more
frame. -/
theorem Appends.exists_front (h : Appends j outcomes k) (hj : Frames es j.stream.bytes)
    (ho : Orderly outcomes) :
    ∃ bs part, k.stream.bytes = bs ++ part ∧ Frames (es ++ appended outcomes) bs ∧
      (part = [] ∨ (∃ e : Entry, e.HasFront part) ∧
        ∃ o ∈ outcomes, ∃ p, o.2 = some p ∧ p ≠ []) := by
  induction h with
  | refl => exact ⟨_, [], (List.append_nil _).symm, by simpa [appended] using hj, .inl rfl⟩
  | @ok outcomes k l e offset h ha ih =>
    obtain ⟨ho, -, hlast⟩ := List.pairwise_append.1 ho
    obtain ⟨bs, part, hb, hbs, rfl | ⟨-, o, hmem, hpart⟩⟩ := ih ho
    · obtain ⟨frame, hframe, hb'⟩ := bytes_append_of_ok ha
      refine ⟨bs ++ frame, [], by rw [hb', hb, List.append_nil, List.append_nil], ?_, .inl rfl⟩
      rw [appended_append_none, ← List.append_assoc]
      exact hbs.append_encode hframe
    · cases hlast o hmem (e, none) List.mem_cons_self hpart
  | @error outcomes k l e fault part h ha hp hb' ih =>
    obtain ⟨ho, -, hlast⟩ := List.pairwise_append.1 ho
    rw [appended_append_some]
    obtain ⟨bs, left, hb, hbs, rfl | ⟨hfront, o, hmem, hleft⟩⟩ := ih ho
    · refine ⟨bs, part, by rw [hb', hb, List.append_nil], hbs, ?_⟩
      by_cases hne : part = []
      · exact .inl hne
      · exact .inr ⟨⟨e, hp.resolve_left hne⟩, _, List.mem_append_right _ List.mem_cons_self, part,
          rfl, hne⟩
    · have hnil := Option.some.inj (hlast o hmem (e, some part) List.mem_cons_self hleft)
      refine ⟨bs, left, by rw [hb', hb, hnil, List.append_nil], hbs, .inr ⟨hfront, o, ?_, hleft⟩⟩
      exact List.mem_append_left _ hmem

/-- If nothing is written after the front of a frame was left, the log gives just what was appended
with success, and ends with it after it was read.  Whatever is written later, this is read first. -/
theorem replay_of_appends (hj : Frames es j.stream.bytes) (h : Appends j outcomes k)
    (ho : Orderly outcomes) (hlater : Appends k later l) :
    (∀ sync, ∃ r, (ofStream (Stream.ofBytes k.stream.bytes) sync).replay =
        (.ok (survivors (es ++ appended outcomes)), r) ∧
      Frames (es ++ appended outcomes) r.stream.bytes) ∧
    es ++ appended outcomes <+: (Scan.ofBytes l.stream.bytes).entries := by
  obtain ⟨bs, part, hb, hbs, hpart⟩ := h.exists_front hj ho
  refine ⟨fun sync => ?_, ?_⟩
  · rw [hb]
    rcases hpart with rfl | ⟨⟨e, he⟩, -⟩
    · rw [List.append_nil]
      exact ⟨_, replay_of_frames hbs rfl rfl sync, hbs⟩
    · obtain ⟨r, hr, hrb⟩ := replay_of_front hbs he sync
      exact ⟨r, hr, hrb ▸ hbs⟩
  · obtain ⟨more, hmore⟩ := hlater.exists_bytes
    rw [hmore, hb, List.append_assoc]
    obtain ⟨rest, -, hread⟩ := hbs.readFrom_append (part ++ more) (Nat.le_refl _) 0
    rw [Scan.ofBytes, hread]
    exact List.prefix_append _ _

/-- A journal whose second append fails after the eleven bytes of a header. -/
def stumbling : Journal :=
  .ofStream
    ⟨[], 0, 0, fun n => if n = 1 then { Faults.none with append := some 11 } else Faults.none⟩ false

/-- A commit with a long value. -/
def longCommit : Entry := .commit 2 [([7], some (List.replicate 20 0))]

/-- The header of its frame. -/
def longHeader : Bytes := [78, 83, 84, 66, 1, 0, 1, 42, 0, 0, 0]

/-- That journal after the append that failed. -/
def stumbled : Journal := ((stumbling.append (.commit 1 [([7], some [8])])).2.append longCommit).2

set_option maxRecDepth 2000 in
theorem hasFront_longHeader : longCommit.HasFront longHeader :=
  ⟨longHeader ++ ([2, 0, 0, 0, 0, 0, 0, 0, 1, 0, 0, 0, 1, 0, 0, 0, 7, 1, 20, 0, 0, 0] ++
    List.replicate 20 0 ++ [130, 143, 206, 36]), rfl, List.prefix_append _ _, by decide⟩

set_option maxRecDepth 8000 in
/-- The third append succeeds, behind a header that announces more bytes than it writes.  So it is
taken for a part of that frame, and is not read. -/
theorem replay_of_appends_behind_header :
    ∃ l replayed : Journal,
      Appends stumbling [(.commit 1 [([7], some [8])], none), (longCommit, some longHeader)]
        stumbled ∧
      Appends stumbled [(.commit 3 [([9], some [10])], none)] l ∧
      (ofStream (Stream.ofBytes stumbled.stream.bytes) true).replay =
        (.ok [[([7], some [8])]], replayed) ∧
      Scan.ofBytes l.stream.bytes = ⟨[.commit 1 [([7], some [8])]], 38, .torn⟩ := by
  have h₁ := Appends.ok (Appends.refl (j := stumbling)) (e := .commit 1 [([7], some [8])]) rfl
  have h₂ : Appends stumbling _ stumbled :=
    h₁.error (e := longCommit) rfl (.inr hasFront_longHeader) rfl
  have h₃ := Appends.ok (Appends.refl (j := stumbled)) (e := .commit 3 [([9], some [10])]) rfl
  have horderly : Orderly [((.commit 1 [([7], some [8])] : Entry), (none : Option Bytes)),
      (longCommit, some longHeader)] := by
    simp [Orderly]
  obtain ⟨r, hr, -⟩ := (replay_of_appends .nil h₂ horderly h₃).1 true
  exact ⟨_, r, h₂, h₃, hr, rfl⟩

end Journal

end NamespaceCatalog
