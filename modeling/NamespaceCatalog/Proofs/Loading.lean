import NamespaceCatalog.Proofs.Alterations
import NamespaceCatalog.Proofs.Compactions
import NamespaceCatalog.Proofs.TornFrames

/-!
# What is loaded from a log

A log opens if it is frames with nothing but a part of a frame behind them (`Scan.Reads`).  The
table then shows the rows that the entries leave and counts them as frames (`Table.Replays`), and
the file that is left holds the same entries (`Source.exists_load_of_hasLog`).  What is compacted is
decided by the entries alone (`Compaction.isDue_iff`), and the one entry that takes their place
leaves the same rows (`Compaction.Outcome.rowsOf_eq`).
-/

namespace NamespaceCatalog

/-! ## Logs that open -/

/-- Are these the entries of the log, and is there no damage behind them? -/
structure Scan.Reads (bs : Bytes) (es : List Entry) : Prop where
  entries : (ofBytes bs).entries = es
  undamaged : ∀ fault, (ofBytes bs).ending ≠ .damaged fault

theorem Frames.reads {es : List Entry} {bs : Bytes} (h : Frames es bs) : Scan.Reads bs es where
  entries := by rw [h.ofBytes]
  undamaged fault := by
    rw [h.ofBytes]
    exact Ending.noConfusion

/-- A log may end with the front of a frame. -/
theorem Frames.reads_append_front {es : List Entry} {bs part : Bytes} {e : Entry}
    (h : Frames es bs) (he : e.HasFront part) (hne : part ≠ []) : Scan.Reads (bs ++ part) es where
  entries := by rw [h.ofBytes_append_front he hne]
  undamaged fault := by
    rw [h.ofBytes_append_front he hne]
    exact Ending.noConfusion

theorem Journal.exists_replay {es : List Entry} {bs : Bytes} (h : Scan.Reads bs es) (sync : Bool) :
    ∃ j, (ofStream (Stream.ofBytes bs) sync).replay = (.ok (survivors es), j) := by
  have hread := Stream.read_of_size (s := Stream.ofBytes bs) rfl rfl
  cases hend : (Scan.ofBytes bs).ending with
  | damaged fault => exact absurd hend (h.undamaged fault)
  | complete =>
    refine ⟨⟨(Stream.ofBytes bs).tick, sync, es.length⟩, ?_⟩
    simp only [replay, ofStream, hread]
    rw [show (Stream.ofBytes bs).bytes = bs from rfl, hend, h.entries]
  | torn =>
    obtain ⟨front, rest, hb, -, hlen, -⟩ := Scan.frames_readFrom (Nat.le_refl bs.length) 0
    change (Scan.ofBytes bs).length = 0 + front.length at hlen
    have hscan : Scan.ofBytes bs = ⟨es, front.length, .torn⟩ := by
      rw [← h.entries, ← hend, ← Nat.zero_add front.length, ← hlen]
    obtain ⟨j, hj, -⟩ := replay_of_torn (s := Stream.ofBytes bs) hb rfl rfl rfl hscan sync
    exact ⟨j, hj⟩

/-! ## Tables that were loaded -/

/-- Does the table show the rows that the entries leave, and are they the frames of its journal? -/
structure Table.Replays (t : Table) (es : List Entry) : Prop where
  rows : t.rows = Table.baseRows (Table.rowsOf (survivors es))
  frames : t.frames = es.length

theorem Table.exists_load_of_reads {es : List Entry} {bs : Bytes} (h : Scan.Reads bs es)
    (name : String) (sync : Bool) :
    ∃ t s, load name (Stream.ofBytes bs) sync = (.ok t, s) ∧ t.Replays es ∧ Frames es s.bytes := by
  obtain ⟨j, hj⟩ := Journal.exists_replay h sync
  obtain ⟨-, hholds, hframes⟩ := Journal.holds_replay rfl (Stream.whole_ofBytes bs) hj
  rw [show (Stream.ofBytes bs).bytes = bs from rfl, h.entries] at hholds hframes
  refine ⟨_, _, by rw [load, hj], ⟨rfl, ?_⟩, hholds.frames⟩
  exact hframes

theorem Table.reads_of_load {bs : Bytes} {name : String} {sync : Bool} {t : Table} {s : Stream}
    (h : load name (Stream.ofBytes bs) sync = (.ok t, s)) :
    Scan.Reads bs (Scan.ofBytes bs).entries := by
  refine ⟨rfl, fun fault hend => ?_⟩
  have hscan : Scan.ofBytes (Stream.ofBytes bs).bytes =
      ⟨(Scan.ofBytes bs).entries, (Scan.ofBytes bs).length, .damaged fault⟩ := by
    rw [← hend]
    rfl
  obtain ⟨j, hj, -⟩ := Journal.replay_of_damaged rfl rfl hscan sync
  rw [load, hj] at h
  cases h

namespace Compaction

variable {t : Table} {es : List Entry}

/-- Are there enough entries, and more than two for each row that they leave? -/
def IsLong (es : List Entry) : Prop :=
  leastFrames ≤ es.length ∧ 2 * (Table.rowsOf (survivors es)).size < es.length

/-- The entry that takes the place of all. -/
def summary (es : List Entry) : Entry :=
  .commit TxId.base (Table.writesOf (Table.rowsOf (survivors es)))

theorem isDue_iff (h : t.Replays es) : isDue t = true ↔ IsLong es := by
  have hkeys : t.keyCount = (Table.rowsOf (survivors es)).size := by
    rw [Table.keyCount, h.rows, Table.baseRows, Std.ExtTreeMap.size_map]
  rw [isDue, IsLong, h.frames, hkeys, Bool.and_eq_true, decide_eq_true_iff, decide_eq_true_iff]

theorem baseEntry_eq (h : t.Replays es) : t.baseEntry = summary es := by
  obtain ⟨name, rows, dirty, log⟩ := t
  obtain rfl : rows = _ := h.rows
  exact Table.baseEntry_baseRows name _ dirty log

/-- The rows stay when all entries are put into one. -/
theorem rowsOf_summary (es : List Entry) :
    Table.rowsOf (survivors [summary es]) = Table.rowsOf (survivors es) := by
  have hone : survivors [summary es] = [Table.writesOf (Table.rowsOf (survivors es))] := rfl
  rw [hone, Table.rowsOf, List.flatten_singleton, Table.foldl_writesOf]

/-- Are the second entries the first, or the one that these are compacted to? -/
def Outcome (es es' : List Entry) : Prop := es' = es ∨ es' = [summary es]

namespace Outcome

variable {es' es'' : List Entry}

theorem refl (es : List Entry) : Outcome es es := .inl rfl

theorem compacted (es : List Entry) : Outcome es [summary es] := .inr rfl

theorem rowsOf_eq (h : Outcome es es') :
    Table.rowsOf (survivors es') = Table.rowsOf (survivors es) := by
  rcases h with rfl | rfl
  · rfl
  · exact rowsOf_summary es

/-- Entries that are compacted twice are compacted once. -/
theorem trans (h : Outcome es es') (h' : Outcome es' es'') : Outcome es es'' := by
  have hs : summary es' = summary es := by rw [summary, h.rowsOf_eq, summary]
  rcases h' with rfl | rfl
  · exact h
  · exact .inr (by rw [hs])

/-- What is still to be compacted was not compacted before. -/
theorem eq_of_isLong (h : Outcome es es') (hl : IsLong es') : es' = es := by
  refine h.resolve_right ?_
  rintro rfl
  have hone : leastFrames ≤ 1 := hl.1
  exact absurd hone (by decide)

end Outcome

end Compaction

/-! ## Loading from a disk -/

/-- Is the place that of a log with these entries?  Where nothing is, there are none. -/
structure Disk.HasLog (d : Disk) (place : Place) (es : List Entry) : Prop where
  file : d.at? place ≠ some .directory
  reads : Scan.Reads (d.bytesAt place) es

theorem Disk.Alters.hasLog {d d' : Disk} {place : Place} {touched : List Place} {es : List Entry}
    (h : d'.Alters d touched) (hp : place ∉ touched) (hlog : d.HasLog place es) :
    d'.HasLog place es :=
  ⟨by rw [h.elsewhere place hp]; exact hlog.file, by rw [h.bytesAt_eq hp]; exact hlog.reads⟩

/-- A file whose bytes are frames is a log. -/
theorem Disk.hasLog_of_frames {d : Disk} {place : Place} {file : FileId} {es : List Entry}
    (hp : d.at? place = some (.file file)) (h : Frames es (d.read file)) : d.HasLog place es :=
  ⟨by simp [hp], by rw [bytesAt_of_file hp]; exact h.reads⟩

namespace Source

variable {site left : Site} {path : Path} {place : Place} {name : String} {sync : Bool} {t : Table}
  {n : StreamId} {file : FileId} {d : Disk} {es : List Entry}

/-- The bytes of the file are replaced by what loading leaves. -/
theorem exists_load_of_openFile (ho : site.disk.openFile path = .ok (file, d)) (name : String)
    (sync : Bool) :
    ∃ n left, load site path name sync =
        ((Table.load name (Stream.ofBytes (d.read file)) sync).1.map (·, n), left) ∧
      left.disk = d.write file (Table.load name (Stream.ofBytes (d.read file)) sync).2.bytes := by
  obtain ⟨n, opened, hdisk, hstreams, hload⟩ := load_of_openFile ho name sync
  refine ⟨n, _, hload, ?_⟩
  simp only [Site.putStream, hstreams, hdisk]

/-- Only the file of the log is touched, whether it opens or not. -/
theorem alters_load (h : site.disk.Tidy)
    (hplace : ∀ next, site.disk.locate path = .ok next → next = place) (name : String)
    (sync : Bool) : (load site path name sync).2.disk.Alters site.disk [place] := by
  cases ho : site.disk.openFile path with
  | error fault =>
    simp only [load, ho]
    exact .refl h _
  | ok opened =>
    obtain ⟨file, d⟩ := opened
    obtain ⟨next, hl, ha, hfile, -⟩ := Disk.alters_openFile h ho
    obtain rfl := hplace next hl
    obtain ⟨n, left, hload, hdisk⟩ := exists_load_of_openFile ho name sync
    rw [hload, hdisk]
    exact (Disk.alters_write ha.tidy hfile _).trans ha

/-- A log that opens is loaded, and left with the same entries. -/
theorem exists_load_of_hasLog (h : site.disk.Tidy) (hl : site.disk.locate path = .ok place)
    (hlog : site.disk.HasLog place es) (name : String) (sync : Bool) :
    ∃ t n left, load site path name sync = (.ok (t, n), left) ∧ t.Replays es ∧
      left.disk.HasLog place es := by
  obtain ⟨file, d, ho⟩ := Disk.exists_openFile_of_not_directory hl hlog.file
  obtain ⟨next, hl', ha, hfile, hread⟩ := Disk.alters_openFile h ho
  obtain rfl := Except.ok.inj (hl.symm.trans hl')
  obtain ⟨t, s, htable, hreplays, hframes⟩ :=
    Table.exists_load_of_reads (hread ▸ hlog.reads) name sync
  obtain ⟨n, left, hload, hdisk⟩ := exists_load_of_openFile ho name sync
  rw [htable] at hload hdisk
  refine ⟨t, n, left, hload, hreplays, ?_⟩
  have hwritten : (d.write file s.bytes).at? place = some (.file file) := hfile
  rw [hdisk]
  apply Disk.hasLog_of_frames hwritten
  rwa [Disk.read_write, if_pos rfl]

/-- What was loaded was a log. -/
theorem exists_hasLog_of_load (h : site.disk.Tidy)
    (hload : load site path name sync = (.ok (t, n), left)) :
    ∃ place es, site.disk.locate path = .ok place ∧ site.disk.HasLog place es := by
  cases ho : site.disk.openFile path with
  | error fault => simp [load, ho] at hload
  | ok opened =>
    obtain ⟨file, d⟩ := opened
    obtain ⟨place, hl, ha, hfile, hread⟩ := Disk.alters_openFile h ho
    obtain ⟨m, left', hload', -⟩ := exists_load_of_openFile ho name sync
    rw [hload] at hload'
    cases htable : Table.load name (Stream.ofBytes (d.read file)) sync with
    | mk r s =>
      cases r with
      | error e =>
        rw [htable] at hload'
        cases hload'
      | ok t' =>
        refine ⟨place, _, hl, fun hdir => ?_, hread ▸ Table.reads_of_load htable⟩
        rw [(ha.directory place).2 hdir] at hfile
        cases hfile

end Source

end NamespaceCatalog
