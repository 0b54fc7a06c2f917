import NamespaceCatalog.Proofs.FrameReading
import NamespaceCatalog.Table.Basic

/-!
# Journals that fail

`Journal.Holds es` says that a journal holds the entries `es`, and that its stream writes a frame
whole or not at all.  An append that succeeds adds its entry.  One that fails adds it as well if
the frame was written and only the flush after it failed (`Journal.LeavesStray`), and changes
nothing otherwise.  Rollbacks that wait are written in order, up to the first failure.

`standing` are the commits of a log that are not undone.  Opening a table succeeds on every journal
that holds entries, and gives the rows that the standing commits leave (`Table.load_of_frames`).
-/

namespace NamespaceCatalog

/-! ## Streams -/

namespace Stream

/-- Does every append write all of its bytes or none? -/
def Whole (s : Stream) : Prop :=
  ∀ n, (s.faults n).append = none ∨ (s.faults n).append = some 0

theorem faults_append (s : Stream) (data : Bytes) : (s.append data).2.faults = s.faults := by
  unfold append
  split <;> rfl

theorem faults_flush (s : Stream) : s.flush.2.faults = s.faults := by
  unfold flush
  split <;> rfl

theorem faults_truncate (s : Stream) (size : Nat) : (s.truncate size).2.faults = s.faults := by
  unfold truncate cut
  split
  · rfl
  · split
    · next h =>
      split at h
      · cases h
      · cases h
        rfl
    · rfl

theorem whole_ofBytes (bs : Bytes) : (ofBytes bs).Whole := fun _ => .inl rfl

theorem bytes_append_of_error {s s' : Stream} {data : Bytes} {e : StorageError} (hs : s.Whole)
    (h : s.append data = (.error e, s')) : s'.bytes = s.bytes := by
  have hb := hs s.uses
  unfold append now at h
  split at h
  · cases h
  · next n hn =>
    rw [hn] at hb
    cases h
    obtain rfl : n = 0 := by simpa using hb
    simp

theorem bytes_append_of_ok {s s' : Stream} {data : Bytes} {offset : Nat}
    (h : s.append data = (.ok offset, s')) : s'.bytes = s.bytes ++ data := by
  unfold append at h
  split at h <;> cases h
  rfl

end Stream

/-! ## Appending -/

namespace Journal

/-- The journal holds the given entries, and writes a frame whole or not at all. -/
structure Holds (j : Journal) (es : List Entry) : Prop where
  frames : Frames es j.stream.bytes
  whole : j.stream.Whole

/-- Does an append of the entry fail in the flush, after its frame was written? -/
def LeavesStray (j : Journal) (e : Entry) : Prop :=
  ∃ frame offset s, e.encode = .ok frame ∧ j.stream.append frame = (.ok offset, s) ∧
    j.sync = true ∧ s.now.flush = true

variable {j j' : Journal} {es : List Entry} {e : Entry}

/-- What appends and flushes keep is kept by a journal. -/
theorem append_induction {P : Stream → Prop} (happ : ∀ s data, P s → P (s.append data).2)
    (hflush : ∀ s, P s → P s.flush.2) (h : P j.stream) (e : Entry) : P (j.append e).2.stream := by
  unfold append
  cases hf : e.encode with
  | error fault => exact h
  | ok frame =>
    have ha := happ j.stream frame h
    cases hs : j.stream.append frame with
    | mk r s =>
      rw [hs] at ha
      cases r with
      | error fault =>
        simp only [hs]
        exact ha
      | ok offset =>
        have hf := hflush s ha
        simp only [hs]
        split
        · split <;> next hs => rw [hs] at hf; exact hf
        · exact ha

theorem faults_append (j : Journal) (e : Entry) :
    (j.append e).2.stream.faults = j.stream.faults :=
  append_induction (P := fun s => s.faults = j.stream.faults)
    (fun s data h => (Stream.faults_append s data).trans h)
    (fun s h => (Stream.faults_flush s).trans h) rfl e

theorem faults_of_append {r : Except Error Nat} (ha : j.append e = (r, j')) :
    j'.stream.faults = j.stream.faults := by
  have h := j.faults_append e
  rwa [ha] at h

/-- An append that fails in the flush has written its frame, and any other has written nothing. -/
theorem of_append_error {fault : Error} (hw : j.stream.Whole)
    (ha : j.append e = (.error fault, j')) :
    (j.LeavesStray e ∧ ∃ frame, e.encode = .ok frame ∧
        j'.stream.bytes = j.stream.bytes ++ frame) ∨
      ¬j.LeavesStray e ∧ j'.stream.bytes = j.stream.bytes := by
  unfold append at ha
  cases hf : e.encode with
  | error fault' =>
    simp only [hf, Prod.mk.injEq] at ha
    refine .inr ⟨?_, by rw [← ha.2]⟩
    rintro ⟨frame, -, -, hf', -⟩
    rw [hf] at hf'
    cases hf'
  | ok frame =>
    rw [hf] at ha
    cases hs : j.stream.append frame with
    | mk r s =>
      cases r with
      | error fault' =>
        simp only [hs, Prod.mk.injEq] at ha
        obtain ⟨-, rfl⟩ := ha
        refine .inr ⟨?_, Stream.bytes_append_of_error hw hs⟩
        rintro ⟨frame', _, _, hf', hs', -⟩
        rw [hf, Except.ok.injEq] at hf'
        rw [← hf', hs] at hs'
        cases hs'
      | ok offset =>
        obtain ⟨hsync, hflush, hstream⟩ :
            j.sync = true ∧ s.now.flush = true ∧ j'.stream = s.tick := by
          by_cases hsync : j.sync = true <;> by_cases hflush : s.now.flush = true <;>
            simp [hs, hsync, Stream.flush, hflush] at ha
          exact ⟨hsync, hflush, by rw [← ha.2]⟩
        refine .inl ⟨⟨frame, offset, s, hf, hs, hsync, hflush⟩, frame, rfl, ?_⟩
        rw [hstream, Stream.bytes_tick]
        exact Stream.bytes_append_of_ok hs

theorem Holds.append_ok {offset : Nat} (h : j.Holds es) (ha : j.append e = (.ok offset, j')) :
    j'.Holds (es ++ [e]) := by
  obtain ⟨frame, hf, hb⟩ := bytes_append_of_ok ha
  refine ⟨?_, fun n => ?_⟩
  · rw [hb]
    exact h.frames.append_encode hf
  · rw [faults_of_append ha]
    exact h.whole n

theorem Holds.append_error {fault : Error} (h : j.Holds es)
    (ha : j.append e = (.error fault, j')) :
    j.LeavesStray e ∧ j'.Holds (es ++ [e]) ∨ ¬j.LeavesStray e ∧ j'.Holds es := by
  have hwhole : j'.stream.Whole := by
    intro n
    rw [faults_of_append ha]
    exact h.whole n
  rcases of_append_error h.whole ha with ⟨hstray, frame, hf, hb⟩ | ⟨hstray, hb⟩
  · refine .inl ⟨hstray, ?_, hwhole⟩
    rw [hb]
    exact h.frames.append_encode hf
  · refine .inr ⟨hstray, ?_, hwhole⟩
    rw [hb]
    exact h.frames

end Journal

/-! ## Rollbacks that wait -/

namespace LogWriter

variable {j : Journal} {w w' : LogWriter} {es : List Entry} {e : Entry}

/-- Does an append of the entry fail in the flush, after its frame was written? -/
def LeavesStray (w : LogWriter) (e : Entry) : Prop :=
  ∃ w', writeRollbacks w.journal w.unwritten = (.ok (), w') ∧ w'.journal.LeavesStray e

theorem of_append_ok (ha : w.append e = (.ok (), w')) :
    ∃ v offset j, writeRollbacks w.journal w.unwritten = (.ok (), v) ∧
      v.journal.append e = (.ok offset, j) ∧ w' = { v with journal := j } := by
  unfold append at ha
  cases hw : writeRollbacks w.journal w.unwritten with
  | mk r v =>
    cases r with
    | error fault => simp [hw] at ha
    | ok _ =>
      simp only [hw] at ha
      cases hj : v.journal.append e with
      | mk r j =>
        cases r with
        | error fault => simp [hj] at ha
        | ok offset =>
          simp only [hj, Prod.mk.injEq, true_and] at ha
          exact ⟨v, offset, j, rfl, hj, ha.symm⟩

theorem of_append_error {fault : Error} (ha : w.append e = (.error fault, w')) :
    writeRollbacks w.journal w.unwritten = (.error fault, w') ∨
      ∃ v j, writeRollbacks w.journal w.unwritten = (.ok (), v) ∧
        v.journal.append e = (.error fault, j) ∧ w' = { v with journal := j } := by
  unfold append at ha
  cases hw : writeRollbacks w.journal w.unwritten with
  | mk r v =>
    cases r with
    | error fault' =>
      simp only [hw] at ha
      exact .inl ha
    | ok _ =>
      simp only [hw] at ha
      cases hj : v.journal.append e with
      | mk r j =>
        cases r with
        | ok offset => simp [hj] at ha
        | error fault' =>
          simp only [hj, Prod.mk.injEq, Except.error.injEq] at ha
          obtain ⟨rfl, rfl⟩ := ha
          exact .inr ⟨v, j, rfl, hj, rfl⟩

theorem writeRollbacks_induction {P : Stream → Prop} (hj : ∀ j e, P j.stream →
    P (Journal.append j e).2.stream) (h : P j.stream) (ids : List TxId) :
    P (writeRollbacks j ids).2.journal.stream := by
  induction ids generalizing j with
  | nil => exact h
  | cons tx ids ih =>
    have ha := hj j (.rollback tx) h
    unfold writeRollbacks
    cases hr : j.append (.rollback tx) with
    | mk r j' =>
      rw [hr] at ha
      cases r with
      | error fault => exact ha
      | ok offset => exact ih ha

theorem append_induction {P : Stream → Prop} (hj : ∀ j e, P j.stream →
    P (Journal.append j e).2.stream) (h : P w.journal.stream) (e : Entry) :
    P (w.append e).2.journal.stream := by
  have hw := writeRollbacks_induction hj h w.unwritten
  unfold append
  cases hr : writeRollbacks w.journal w.unwritten with
  | mk r v =>
    rw [hr] at hw
    cases r with
    | error fault => exact hw
    | ok _ =>
      have ha := hj v.journal e hw
      cases hr' : v.journal.append e with
      | mk r' j =>
        rw [hr'] at ha
        cases r' <;> simpa [hr'] using ha

/-- The first `n` of the rollbacks are written and wait no more.  The frames of the first `m` are in
the journal: one more than `n` if a flush failed. -/
theorem holds_writeRollbacks (h : j.Holds es) (ids : List TxId) :
    ∃ n m, n ≤ m ∧ m ≤ n + 1 ∧ (writeRollbacks j ids).2.unwritten = ids.drop n ∧
      (writeRollbacks j ids).2.journal.Holds (es ++ (ids.take m).map .rollback) ∧
      ((writeRollbacks j ids).1 = .ok () → ids.length ≤ n) := by
  induction ids generalizing j es with
  | nil =>
    exact ⟨0, 0, Nat.le_refl _, Nat.zero_le _, rfl, by simpa [writeRollbacks] using h, by simp⟩
  | cons tx ids ih =>
    unfold writeRollbacks
    cases ha : j.append (.rollback tx) with
    | mk r j' =>
      cases r with
      | error fault =>
        rcases h.append_error ha with ⟨-, h'⟩ | ⟨-, h'⟩
        · exact ⟨0, 1, Nat.zero_le _, Nat.le_refl _, rfl, h', by simp⟩
        · exact ⟨0, 0, Nat.le_refl _, Nat.zero_le _, rfl, by simpa using h', by simp⟩
      | ok offset =>
        obtain ⟨n, m, hnm, hmn, hu, hh, hok⟩ := ih (h.append_ok ha)
        refine ⟨n + 1, m + 1, Nat.succ_le_succ hnm, Nat.succ_le_succ hmn, hu, ?_, fun h => ?_⟩
        · simpa using hh
        · exact Nat.succ_le_succ (hok h)

theorem holds_writeRollbacks_ok {ids : List TxId} (h : j.Holds es)
    (hw : writeRollbacks j ids = (.ok (), w)) :
    w.unwritten = [] ∧ w.journal.Holds (es ++ ids.map .rollback) := by
  obtain ⟨n, m, hnm, -, hu, hh, hok⟩ := holds_writeRollbacks h ids
  rw [hw] at hu hh hok
  have hn := hok rfl
  rw [List.drop_eq_nil_of_le hn] at hu
  rw [List.take_of_length_le (Nat.le_trans hn hnm)] at hh
  exact ⟨hu, hh⟩

theorem holds_append_ok (h : w.journal.Holds es) (ha : w.append e = (.ok (), w')) :
    w'.unwritten = [] ∧ w'.journal.Holds (es ++ w.unwritten.map .rollback ++ [e]) := by
  obtain ⟨v, offset, j, hw, hj, rfl⟩ := of_append_ok ha
  obtain ⟨hu, hh⟩ := holds_writeRollbacks_ok h hw
  exact ⟨hu, hh.append_ok hj⟩

/-- An append that fails has written some of the rollbacks, and its own frame only if the flush after
it failed. -/
theorem holds_append_error {fault : Error} (h : w.journal.Holds es)
    (ha : w.append e = (.error fault, w')) :
    w.LeavesStray e ∧ w'.unwritten = [] ∧
        w'.journal.Holds (es ++ w.unwritten.map .rollback ++ [e]) ∨
      ¬w.LeavesStray e ∧ ∃ n m, n ≤ m ∧ w'.unwritten = w.unwritten.drop n ∧
        w'.journal.Holds (es ++ (w.unwritten.take m).map .rollback) := by
  have hstray : ∀ r v, writeRollbacks w.journal w.unwritten = (r, v) → w.LeavesStray e →
      r = .ok () ∧ v.journal.LeavesStray e := by
    rintro r v hw ⟨v', hv', hs⟩
    obtain ⟨rfl, rfl⟩ := Prod.mk.inj (hw.symm.trans hv')
    exact ⟨rfl, hs⟩
  rcases of_append_error ha with hw | ⟨v, j, hw, hj, rfl⟩
  · obtain ⟨n, m, hnm, -, hu, hh, -⟩ := holds_writeRollbacks h w.unwritten
    rw [hw] at hu hh
    refine .inr ⟨fun hs => ?_, n, m, hnm, hu, hh⟩
    cases (hstray _ _ hw hs).1
  · obtain ⟨hu, hh⟩ := holds_writeRollbacks_ok h hw
    rcases hh.append_error hj with ⟨hs, hh'⟩ | ⟨hs, hh'⟩
    · exact .inl ⟨⟨v, hw, hs⟩, hu, hh'⟩
    · refine .inr ⟨fun hs' => hs (hstray _ _ hw hs').2, w.unwritten.length, w.unwritten.length,
        Nat.le_refl _, ?_, ?_⟩
      · rw [List.drop_length]
        exact hu
      · rw [List.take_length]
        exact hh'

/-- A rollback is put behind those that wait, and as many are written as can be. -/
theorem holds_rollback (h : w.journal.Holds es) (tx : TxId) :
    ∃ n m, n ≤ m ∧ m ≤ n + 1 ∧ (w.rollback tx).unwritten = (w.unwritten ++ [tx]).drop n ∧
      (w.rollback tx).journal.Holds
        (es ++ ((w.unwritten ++ [tx]).take m).map .rollback) := by
  obtain ⟨n, m, hnm, hmn, hu, hh, -⟩ := holds_writeRollbacks h (w.unwritten ++ [tx])
  exact ⟨n, m, hnm, hmn, hu, hh⟩

end LogWriter

/-! ## What a log says -/

/-- The commits of a log that are not undone, the latest first. -/
def standing (es : List Entry) : List (TxId × List RowWrite) := es.foldl replayEntry []

theorem survivors_eq (es : List Entry) : survivors es = (standing es).reverse.map (·.2) := rfl

theorem standing_append_commit (es : List Entry) (tx : TxId) (ws : List RowWrite) :
    standing (es ++ [.commit tx ws]) = (tx, ws) :: standing es := by
  simp [standing, replayEntry]

theorem eraseP_eq_filter {l : List (TxId × List RowWrite)} (hd : (l.map (·.1)).Nodup) (tx : TxId) :
    l.eraseP (·.1 = tx) = l.filter (·.1 ≠ tx) := by
  induction l with
  | nil => rfl
  | cons p l ih =>
    obtain ⟨hp, hl⟩ := List.nodup_cons.1 hd
    by_cases h : p.1 = tx
    · have hall : ∀ q ∈ l, decide (q.1 ≠ tx) = true := by
        intro q hq
        rw [decide_eq_true_eq, ← h]
        intro e
        exact hp (List.mem_map.2 ⟨q, hq, e⟩)
      rw [List.eraseP_cons_of_pos (by simp [h]), List.filter_cons_of_neg (by simp [h]),
        List.filter_eq_self.2 hall]
    · rw [List.eraseP_cons_of_neg (by simp [h]), List.filter_cons_of_pos (by simp [h]), ih hl]

/-- A rollback undoes the commit of its transaction, or else one of an earlier time. -/
theorem exists_standing_append_rollback {es : List Entry} {late early : List (TxId × List RowWrite)}
    (h : standing es = late ++ early) (hd : (late.map (·.1)).Nodup) (tx : TxId) :
    ∃ left, left.Sublist early ∧
      standing (es ++ [.rollback tx]) = late.filter (·.1 ≠ tx) ++ left := by
  have hs : standing (es ++ [.rollback tx]) = (late ++ early).eraseP (·.1 = tx) := by
    simp [standing, replayEntry, ← h]
  rw [hs, List.eraseP_append]
  split
  · exact ⟨early, .refl _, by rw [eraseP_eq_filter hd]⟩
  · next hn =>
    have hall : ∀ p ∈ late, decide (p.1 ≠ tx) = true := by
      intro p hp
      rw [decide_eq_true_eq]
      intro e
      exact hn (List.any_eq_true.2 ⟨p, hp, decide_eq_true e⟩)
    exact ⟨early.eraseP (·.1 = tx), List.eraseP_sublist, by rw [List.filter_eq_self.2 hall]⟩

theorem exists_standing_append_rollbacks {es : List Entry}
    {late early : List (TxId × List RowWrite)} (h : standing es = late ++ early)
    (hd : (late.map (·.1)).Nodup) (ids : List TxId) :
    ∃ left, left.Sublist early ∧
      standing (es ++ ids.map .rollback) = late.filter (·.1 ∉ ids) ++ left := by
  induction ids generalizing es late early with
  | nil =>
    refine ⟨early, .refl _, ?_⟩
    rw [List.filter_eq_self.2 (by simp)]
    simpa using h
  | cons tx ids ih =>
    have he : es ++ (tx :: ids).map .rollback = (es ++ [.rollback tx]) ++ ids.map .rollback := by
      simp
    obtain ⟨left, hl, hs⟩ := exists_standing_append_rollback h hd tx
    have hd' : ((late.filter (·.1 ≠ tx)).map (·.1)).Nodup :=
      hd.sublist (List.filter_sublist.map _)
    obtain ⟨left', hl', hs'⟩ := ih hs hd'
    refine ⟨left', hl'.trans hl, ?_⟩
    rw [he, hs', List.filter_filter]
    congr 2
    funext p
    simp [Bool.and_comm]

theorem exists_standing_append_commit {es : List Entry} {late early : List (TxId × List RowWrite)}
    (h : standing es = late ++ early) (hd : (late.map (·.1)).Nodup) (ids : List TxId) (tx : TxId)
    (ws : List RowWrite) :
    ∃ left, left.Sublist early ∧ standing (es ++ ids.map .rollback ++ [.commit tx ws]) =
      (tx, ws) :: late.filter (·.1 ∉ ids) ++ left := by
  obtain ⟨left, hl, hs⟩ := exists_standing_append_rollbacks h hd ids
  exact ⟨left, hl, by rw [standing_append_commit, hs, List.cons_append]⟩

/-! ## Opening -/

/-- An owner who knows the size reads all bytes. -/
theorem Stream.readAt_zero {s : Stream} (h : s.size = s.bytes.length) :
    s.readAt 0 s.size = .ok s.bytes := by
  have hs := Bytes.split?_append s.bytes []
  rw [List.append_nil] at hs
  rw [h]
  unfold readAt
  rw [h, Nat.zero_add, if_neg (Nat.lt_irrefl _), List.drop_zero, hs]
  split
  · next he => rw [List.length_eq_zero_iff.1 he]
  · rfl

theorem Stream.read_of_size {s : Stream} (hsize : s.size = s.bytes.length)
    (hread : s.now.read = false) : s.read = (.ok s.bytes, s.tick) := by
  rw [read, hread, readAt_zero hsize]
  rfl

theorem Stream.bytes_cut {s t : Stream} {front rest : Bytes} (hb : s.bytes = front ++ rest)
    (h : s.cut front.length = .ok t) : t.bytes = front := by
  unfold cut at h
  split at h
  · cases h
  · rw [Except.ok.injEq] at h
    subst h
    simp [hb]

namespace Journal

/-- A journal that is read holds what was read from it. -/
theorem holds_replay {s : Stream} {sync : Bool} {commits : List (List RowWrite)} {j : Journal}
    (hsize : s.size = s.bytes.length) (hwhole : s.Whole)
    (h : (ofStream s sync).replay = (.ok commits, j)) :
    commits = survivors (Scan.ofBytes s.bytes).entries ∧
      j.Holds (Scan.ofBytes s.bytes).entries ∧
      j.frames = (Scan.ofBytes s.bytes).entries.length := by
  obtain ⟨front, rest, hb, hf, hl, hend⟩ := Scan.frames_readFrom (Nat.le_refl s.bytes.length) 0
  change Frames (Scan.ofBytes s.bytes).entries front at hf
  change (Scan.ofBytes s.bytes).length = 0 + front.length at hl
  change (Scan.ofBytes s.bytes).ending = .complete → rest = [] at hend
  rw [Nat.zero_add] at hl
  unfold replay ofStream Stream.read at h
  rw [Stream.readAt_zero hsize] at h
  dsimp only at h
  split at h
  · next hr =>
    split at hr <;> cases hr
    cases h
  · next bs s' hr =>
    have hs' : s' = s.tick ∧ bs = s.bytes := by
      split at hr <;> cases hr
      exact ⟨rfl, rfl⟩
    obtain ⟨rfl, rfl⟩ := hs'
    split at h
    · next he =>
      cases h
      rw [hend he, List.append_nil] at hb
      rw [← hb] at hf
      exact ⟨rfl, ⟨hf, hwhole⟩, rfl⟩
    · cases h
    · split at h
      · cases h
      · next ht =>
        have hfaults := Stream.faults_truncate s.tick (Scan.ofBytes s.bytes).length
        rw [ht] at hfaults
        cases h
        refine ⟨rfl, ⟨?_, fun n => by rw [hfaults]; exact hwhole n⟩, rfl⟩
        unfold Stream.truncate at ht
        split at ht
        · cases ht
        · split at ht
          · next hc =>
            cases ht
            rw [hl] at hc
            rw [Stream.bytes_tick, Stream.bytes_cut (s := s.tick) hb hc]
            exact hf
          · cases ht

/-- A log that is read to its end is left as it is. -/
theorem replay_eq_of_frames {es : List Entry} {j : Journal} (h : Frames es j.stream.bytes)
    (hsize : j.stream.size = j.stream.bytes.length) (hread : j.stream.now.read = false) :
    j.replay = (.ok (survivors es), ⟨j.stream.tick, j.sync, es.length⟩) := by
  simp [replay, Stream.read_of_size hsize hread, h.ofBytes]

theorem replay_of_frames {es : List Entry} {s : Stream} (h : Frames es s.bytes)
    (hsize : s.size = s.bytes.length) (hread : s.now.read = false) (sync : Bool) :
    (ofStream s sync).replay = (.ok (survivors es), ⟨s.tick, sync, es.length⟩) :=
  replay_eq_of_frames (j := ofStream s sync) h hsize hread

end Journal

namespace Table

/-- A table that is opened shows what the log says, and its journal holds the entries read. -/
theorem holds_of_load {name : String} {s left : Stream} {sync : Bool} {t : Table}
    (hsize : s.size = s.bytes.length) (hwhole : s.Whole) (h : load name s sync = (.ok t, left)) :
    ∃ w, t = ⟨name, baseRows (rowsOf (survivors (Scan.ofBytes s.bytes).entries)), ∅, some w⟩ ∧
      w.unwritten = [] ∧ w.journal.Holds (Scan.ofBytes s.bytes).entries := by
  unfold load at h
  split at h
  · cases h
  · next hr =>
    obtain ⟨rfl, hh, -⟩ := Journal.holds_replay hsize hwhole hr
    cases h
    exact ⟨_, rfl, rfl, hh⟩

/-- A table can be opened on every log that is read to its end. -/
theorem load_of_frames {es : List Entry} {bs : Bytes} (h : Frames es bs) (name : String)
    (sync : Bool) :
    ∃ t s, load name (Stream.ofBytes bs) sync = (.ok t, s) ∧
      t.rows = baseRows (rowsOf (survivors es)) := by
  refine ⟨_, _, by rw [load, Journal.replay_of_frames h rfl rfl sync], rfl⟩

end Table

end NamespaceCatalog
