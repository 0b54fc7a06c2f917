import Mathlib.Algebra.Order.BigOperators.Group.List
import Mathlib.Algebra.Order.Ring.Nat
import Mathlib.Data.List.Perm.Subperm
import NamespaceCatalog.Proofs.FrameReading
import NamespaceCatalog.Proofs.Recovery

/-!
# Logs whose rows do not fit a frame

The payload of a frame is longer than any of its parts, so a commit has a frame exactly if its
payload is short enough (`Entry.exists_encode_commit_iff`).  The rows of a log came in many frames
and need not fit one, although those of a log that is short enough do
(`Scan.Reads.payloadLength_summary_le`).  Compaction puts them into one, so a call for a table fails
where that is due and the rows are too large.  Nothing that such a call leaves changes this: the
table is not given later either, and its log opens as before (`Source.Shuts`).
-/

namespace NamespaceCatalog

/-! ## The length of an entry -/

namespace Entry

variable {w : RowWrite} {ws : List RowWrite} {bs : Bytes} {r : Except Error Bytes}

/-- The number of bytes that a row and its new value take in a payload. -/
def writeLength : RowWrite → Nat
  | (key, none) => 4 + key.length + 1
  | (key, some value) => 4 + key.length + 1 + (4 + value.length)

/-- The number of bytes that the payload of an entry takes. -/
def payloadLength : Entry → Nat
  | commit _ ws => 8 + 4 + (ws.map writeLength).sum
  | rollback _ => 8

theorem block_of_lt (h : bs.length < Bytes.bound 4) :
    block bs = .ok (Bytes.littleEndian 4 bs.length ++ bs) := by
  exact block_eq_ok_iff.2 ⟨_, field_eq_ok_iff.2 ⟨h, rfl⟩, rfl⟩

theorem length_block {written : Bytes} (h : block bs = .ok written) :
    written.length = 4 + bs.length := by
  obtain ⟨length, hlength, rfl⟩ := block_eq_ok_iff.1 h
  obtain ⟨-, rfl⟩ := field_eq_ok_iff.1 hlength
  rw [List.length_append, Bytes.length_littleEndian]

theorem length_encodeWrite (h : encodeWrite w = .ok bs) : bs.length = writeLength w := by
  obtain ⟨key, value⟩ := w
  cases value with
  | none =>
    obtain ⟨front, hfront, rfl⟩ := encodeWrite_none_eq_ok_iff.1 h
    rw [List.length_append, length_block hfront]
    rfl
  | some value =>
    obtain ⟨front, back, hfront, hback, rfl⟩ := encodeWrite_some_eq_ok_iff.1 h
    rw [List.length_append, List.length_cons, length_block hfront, length_block hback, writeLength]
    omega

theorem length_encodeWrites (h : encodeWrites ws = .ok bs) :
    bs.length = (ws.map writeLength).sum := by
  induction ws generalizing bs with
  | nil =>
    cases h
    rfl
  | cons w ws ih =>
    obtain ⟨row, rows, hrow, hrows, rfl⟩ := encodeWrites_cons_eq_ok_iff.1 h
    rw [List.length_append, length_encodeWrite hrow, ih hrows, List.map_cons, List.sum_cons]

theorem length_payload {e : Entry} (h : e.payload = .ok bs) : bs.length = e.payloadLength := by
  cases e with
  | rollback tx =>
    obtain ⟨-, rfl⟩ := field_eq_ok_iff.1 h
    exact Bytes.length_littleEndian 8 tx
  | commit tx ws =>
    obtain ⟨id, count, rows, hid, hcount, hrows, rfl⟩ := payload_commit_eq_ok_iff.1 h
    obtain ⟨-, rfl⟩ := field_eq_ok_iff.1 hid
    obtain ⟨-, rfl⟩ := field_eq_ok_iff.1 hcount
    rw [List.length_append, List.length_append, Bytes.length_littleEndian,
      Bytes.length_littleEndian, length_encodeWrites hrows, payloadLength]

theorem length_encode {e : Entry} {frame : Bytes} (h : e.encode = .ok frame) :
    frame.length = headerLength + e.payloadLength + trailerLength := by
  obtain ⟨payload, length, hp, hn, rfl⟩ := encode_eq_ok_iff.1 h
  rw [List.length_append, List.length_append, length_header hn, length_trailer, length_payload hp,
    Nat.add_assoc]

/-- A bound for the whole bounds the lengths in it. -/
theorem exists_encodeWrite_of_lt (h : writeLength w < Bytes.bound 4) :
    ∃ row, encodeWrite w = .ok row := by
  obtain ⟨key, value⟩ := w
  cases value with
  | none =>
    rw [writeLength] at h
    have hkey : block key = _ := block_of_lt (by omega)
    exact ⟨_, encodeWrite_none_eq_ok_iff.2 ⟨_, hkey, rfl⟩⟩
  | some value =>
    rw [writeLength] at h
    have hkey : block key = _ := block_of_lt (by omega)
    have hvalue : block value = _ := block_of_lt (by omega)
    exact ⟨_, encodeWrite_some_eq_ok_iff.2 ⟨_, _, hkey, hvalue, rfl⟩⟩

theorem exists_encodeWrites_of_lt (h : (ws.map writeLength).sum < Bytes.bound 4) :
    ∃ bs, encodeWrites ws = .ok bs := by
  induction ws with
  | nil => exact ⟨[], rfl⟩
  | cons w ws ih =>
    rw [List.map_cons, List.sum_cons] at h
    have hw : writeLength w < Bytes.bound 4 := by omega
    have hws : (ws.map writeLength).sum < Bytes.bound 4 := by omega
    obtain ⟨row, hrow⟩ := exists_encodeWrite_of_lt hw
    obtain ⟨rows, hrows⟩ := ih hws
    exact ⟨row ++ rows, encodeWrites_cons_eq_ok_iff.2 ⟨row, rows, hrow, hrows, rfl⟩⟩

theorem length_le_sum_writeLength (ws : List RowWrite) : ws.length ≤ (ws.map writeLength).sum := by
  induction ws with
  | nil => exact Nat.le_refl 0
  | cons w ws ih =>
    have hpos : 1 ≤ writeLength w := by
      obtain ⟨key, value⟩ := w
      cases value <;> rw [writeLength] <;> omega
    rw [List.map_cons, List.sum_cons, List.length_cons]
    omega

/-- A commit has a frame if its payload is short enough, whatever the lengths in it. -/
theorem exists_encode_commit_iff {tx : TxId} :
    (∃ frame, (commit tx ws).encode = .ok frame) ↔
      tx < Bytes.bound 8 ∧ (commit tx ws).payloadLength < Bytes.bound 4 := by
  rw [encode_commit_iff, payloadLength]
  constructor
  · rintro ⟨htx, -, bs, hbs, hlt⟩
    rw [length_encodeWrites hbs] at hlt
    exact ⟨htx, hlt⟩
  · rintro ⟨htx, hlt⟩
    have hcount := length_le_sum_writeLength ws
    have hsum : (ws.map writeLength).sum < Bytes.bound 4 := by omega
    obtain ⟨bs, hbs⟩ := exists_encodeWrites_of_lt hsum
    rw [← length_encodeWrites hbs] at hlt hcount
    exact ⟨htx, by omega, bs, hbs, hlt⟩

/-! ## Entries without a frame -/

/-- Is there no error but that of a number that does not fit its field? -/
def OnlyTooLarge (r : Except Error Bytes) : Prop :=
  ∀ fault, r = .error fault → fault = .invalidOperation .entryTooLarge

theorem OnlyTooLarge.map (h : OnlyTooLarge r) (f : Bytes → Bytes) : OnlyTooLarge (r.map f) := by
  intro fault hr
  cases r with
  | error e => exact h fault hr
  | ok bs => cases hr

theorem onlyTooLarge_ok (bs : Bytes) : OnlyTooLarge (.ok bs) := fun _ h => nomatch h

theorem onlyTooLarge_field (w n : Nat) : OnlyTooLarge (field w n) := by
  intro fault h
  unfold field at h
  split at h
  · cases h
  · cases h
    rfl

theorem onlyTooLarge_block (bs : Bytes) : OnlyTooLarge (block bs) :=
  (onlyTooLarge_field 4 bs.length).map _

theorem onlyTooLarge_error {fault : Error} (h : OnlyTooLarge r) (hr : r = .error fault) :
    OnlyTooLarge (.error fault) := hr ▸ h

theorem onlyTooLarge_encodeWrite (w : RowWrite) : OnlyTooLarge (encodeWrite w) := by
  obtain ⟨key, value⟩ := w
  unfold encodeWrite
  cases hk : block key with
  | error e => exact onlyTooLarge_error (onlyTooLarge_block key) hk
  | ok front =>
    cases value with
    | none => exact onlyTooLarge_ok _
    | some value => exact (onlyTooLarge_block value).map _

theorem onlyTooLarge_encodeWrites (ws : List RowWrite) : OnlyTooLarge (encodeWrites ws) := by
  induction ws with
  | nil => exact onlyTooLarge_ok []
  | cons w ws ih =>
    unfold encodeWrites
    cases hw : encodeWrite w with
    | error e => exact onlyTooLarge_error (onlyTooLarge_encodeWrite w) hw
    | ok row => exact ih.map _

theorem onlyTooLarge_payload (e : Entry) : OnlyTooLarge e.payload := by
  cases e with
  | rollback tx => exact onlyTooLarge_field 8 tx
  | commit tx ws =>
    cases hid : field 8 tx with
    | error e =>
      simp only [payload, hid]
      exact onlyTooLarge_error (onlyTooLarge_field 8 tx) hid
    | ok id =>
      cases hcount : field 4 ws.length with
      | error e =>
        simp only [payload, hid, hcount]
        exact onlyTooLarge_error (onlyTooLarge_field 4 ws.length) hcount
      | ok count =>
        simp only [payload, hid, hcount]
        exact (onlyTooLarge_encodeWrites ws).map _

/-- The one reason not to have a frame is that something is too large. -/
theorem onlyTooLarge_encode (e : Entry) : OnlyTooLarge e.encode := by
  cases hp : e.payload with
  | error fault =>
    simp only [encode, hp]
    exact onlyTooLarge_error (onlyTooLarge_payload e) hp
  | ok payload =>
    cases hn : field 4 payload.length with
    | error fault =>
      simp only [encode, hp, hn]
      exact onlyTooLarge_error (onlyTooLarge_field 4 payload.length) hn
    | ok length =>
      simp only [encode, hp, hn]
      exact onlyTooLarge_ok _

theorem exists_encodeAll {es : List Entry} (h : ∀ e ∈ es, ∃ frame, e.encode = .ok frame) :
    ∃ bs, encodeAll es = .ok bs := by
  induction es with
  | nil => exact ⟨[], rfl⟩
  | cons e es ih =>
    obtain ⟨frame, he⟩ := h e List.mem_cons_self
    obtain ⟨later, hlater⟩ := ih fun e' he' => h e' (List.mem_cons_of_mem e he')
    exact ⟨frame ++ later, encodeAll_cons_eq_ok_iff.2 ⟨frame, later, he, hlater, rfl⟩⟩

end Entry

/-- All that is read from a log has a frame. -/
theorem Frames.exists_encode {es : List Entry} {bs : Bytes} (h : Frames es bs) :
    ∀ e ∈ es, ∃ frame, e.encode = .ok frame := by
  induction h with
  | nil => exact fun e he => absurd he List.not_mem_nil
  | @cons e es frame bs hframe _ ih =>
    intro e' he'
    rcases List.mem_cons.1 he' with rfl | he'
    · exact ⟨frame, Entry.isFrame_iff.1 hframe⟩
    · exact ih e' he'

/-- The entries of a log are in front of what is torn. -/
theorem Scan.Reads.exists_frames {es : List Entry} {bs : Bytes} (h : Scan.Reads bs es) :
    ∃ front rest, bs = front ++ rest ∧ Frames es front := by
  obtain ⟨front, rest, hbs, hframes, -⟩ := Scan.frames_readFrom (Nat.le_refl bs.length) 0
  change Frames (Scan.ofBytes bs).entries front at hframes
  rw [h.entries] at hframes
  exact ⟨front, rest, hbs, hframes⟩

/-! ## Rows and the log they came from -/

theorem Frames.length_eq {es : List Entry} {bs : Bytes} (h : Frames es bs) :
    bs.length = (es.map Entry.payloadLength).sum +
      es.length * (Entry.headerLength + Entry.trailerLength) := by
  induction h with
  | nil => rfl
  | cons hframe _ ih =>
    rw [List.length_append, ih, Entry.length_encode (Entry.isFrame_iff.1 hframe), List.map_cons,
      List.sum_cons, List.length_cons, Nat.succ_mul]
    omega

namespace Table

variable {commits : List (List RowWrite)} {w : RowWrite}

theorem nodup_writesOf (rows : Std.ExtTreeMap Bytes Bytes) : (writesOf rows).Nodup := by
  refine List.Pairwise.map _ (fun a b hne he => hne ?_) Std.ExtTreeMap.distinct_keys_toList
  rw [(Prod.mk.inj he).1]
  exact Std.ReflCmp.compare_self

/-- A row that is left was written. -/
theorem mem_flatten_of_mem_writesOf (h : w ∈ writesOf (rowsOf commits)) : w ∈ commits.flatten := by
  obtain ⟨row, hrow, rfl⟩ := List.mem_map.1 h
  rw [Std.ExtTreeMap.mem_toList_iff_getElem?_eq_some, rowsOf, getElem?_foldl_applyWrite] at hrow
  cases hlast : (commits.flatten.filter (·.1 = row.1)).getLast? with
  | none =>
    rw [hlast] at hrow
    simp at hrow
  | some last =>
    have hmem := List.mem_filter.1 (List.mem_of_getLast? hlast)
    have hkey : last.1 = row.1 := by simpa using hmem.2
    have hvalue : last.2 = some row.2 := by rwa [hlast] at hrow
    rw [← hkey, ← hvalue]
    exact hmem.1

/-- The rows that are left take no more bytes than all that was written. -/
theorem sum_writesOf_le (commits : List (List RowWrite)) :
    ((writesOf (rowsOf commits)).map Entry.writeLength).sum ≤
      (commits.flatten.map Entry.writeLength).sum := by
  obtain ⟨ws, hperm, hsub⟩ := List.subperm_of_subset (nodup_writesOf (rowsOf commits))
    fun _ => mem_flatten_of_mem_writesOf
  rw [← (hperm.map Entry.writeLength).sum_nat]
  exact (hsub.map Entry.writeLength).sum_le_sum fun _ _ => Nat.zero_le _

end Table

/-- The number of bytes that the writes of commits take. -/
def weight (cs : List (TxId × List RowWrite)) : Nat :=
  (cs.map fun c => (c.2.map Entry.writeLength).sum).sum

theorem weight_replayEntry_le (cs : List (TxId × List RowWrite)) (e : Entry) :
    weight (replayEntry cs e) ≤ e.payloadLength + weight cs := by
  cases e with
  | commit tx ws =>
    have hcons : weight ((tx, ws) :: cs) = (ws.map Entry.writeLength).sum + weight cs := by
      rw [weight, List.map_cons, List.sum_cons, weight]
    rw [replayEntry, hcons, Entry.payloadLength]
    omega
  | rollback tx =>
    have hle : weight (replayEntry cs (.rollback tx)) ≤ weight cs :=
      (List.eraseP_sublist.map _).sum_le_sum fun _ _ => Nat.zero_le _
    omega

theorem weight_standing_le (es : List Entry) :
    weight (standing es) ≤ (es.map Entry.payloadLength).sum := by
  suffices h : ∀ cs, weight (es.foldl replayEntry cs) ≤
      (es.map Entry.payloadLength).sum + weight cs from h []
  induction es with
  | nil => exact fun cs => Nat.le_of_eq (Nat.zero_add _).symm
  | cons e es ih =>
    intro cs
    have hstep := weight_replayEntry_le cs e
    have hrest := ih (replayEntry cs e)
    rw [List.foldl_cons, List.map_cons, List.sum_cons]
    omega

theorem sum_survivors (es : List Entry) :
    ((survivors es).flatten.map Entry.writeLength).sum = weight (standing es) := by
  rw [survivors_eq, List.map_flatten, List.sum_flatten, List.map_map, List.map_map,
    List.map_reverse, List.sum_reverse]
  rfl

/-- The rows of a log that fits a frame fit one. -/
theorem Scan.Reads.payloadLength_summary_le {es : List Entry} {bs : Bytes} (h : Scan.Reads bs es)
    (hne : es ≠ []) : (Compaction.summary es).payloadLength ≤ bs.length := by
  obtain ⟨front, rest, rfl, hframes⟩ := h.exists_frames
  have hrows := Table.sum_writesOf_le (survivors es)
  have hstanding := weight_standing_le es
  have hlength := hframes.length_eq
  have hpos := List.length_pos_iff.2 hne
  rw [sum_survivors] at hrows
  rw [List.length_append, Compaction.summary, Entry.payloadLength]
  simp only [Entry.headerLength, Entry.trailerLength] at hlength
  omega

/-! ## Compaction -/

namespace Compaction

variable {d : Disk} {dir : TableDirectory} {table : String} {e : Entry} {fault : Error}

/-- A compaction fails with the entry that takes the place of all. -/
theorem exists_run_of_error (ht : d.TakesFile (dir.freshPath table))
    (he : e.encode = .error fault) : ∃ d', run d dir table e = (.error fault, d') := by
  obtain ⟨place, hl, hp⟩ := ht
  obtain ⟨d₁, hstale, hd₁, hnone⟩ := exists_removeStale hl hp
  obtain ⟨file, d₂, ho, -⟩ := Disk.exists_openFile (hd₁.extends.locate hl) hnone
  refine ⟨d₂.write file (d₂.read file), ?_⟩
  simp only [run, hstale, writeFresh, ho, Journal.append, he, Except.map]
  rfl

end Compaction

namespace Source

open TableDirectory (journalPlace freshPlace)

variable {s : Source} {site left opened : Site} {d : TableDirectory} {name : String} {dir : Place}
  {es es' : List Entry} {t : Table} {n : StreamId}

/-! ## Calls that fail -/

/-- Where the rows are too large for a frame, no log was compacted. -/
theorem eq_of_tooLarge {disk : Disk} {path : Path} (h : disk.Stores path dir name es')
    (ho : Compaction.Outcome es es')
    (hlarge : ¬(Compaction.summary es).payloadLength < Bytes.bound 4) : es' = es := by
  refine ho.resolve_right ?_
  rintro rfl
  obtain ⟨front, -, -, hframes⟩ := h.log.reads.exists_frames
  have hframe := hframes.exists_encode _ (List.mem_singleton_self _)
  exact hlarge (Entry.exists_encode_commit_iff.1 hframe).2

/-- The log can be compacted if there can be a file beside it, and its rows fit a frame. -/
theorem compacts_iff (disk : Disk) (d : TableDirectory) (name : String) (es : List Entry) :
    Compacts disk d name es ↔ disk.TakesFile (d.freshPath name) ∧
      (Compaction.summary es).payloadLength < Bytes.bound 4 := by
  rw [Compacts, Compaction.summary, Entry.exists_encode_commit_iff]
  have hbase : TxId.base < Bytes.bound 8 := by decide
  simp only [hbase, true_and]

/-- If there can be a file beside the log, the one reason to fail is that the rows are too large. -/
theorem exists_loadCompact_of_tooLarge (h : site.disk.Stores d.path dir name es)
    (hs : Compaction.IsLong es) (htakes : site.disk.TakesFile (d.freshPath name))
    (hlarge : ¬(Compaction.summary es).payloadLength < Bytes.bound 4) :
    ∃ left, loadCompact site d name = (.error (.invalidOperation .entryTooLarge), left) := by
  obtain ⟨t, n, left, hl, ht, hleft⟩ := exists_load_of_stores h d.sync
  have ha := alters_load_journal h.tidy h.leads name d.sync
  rw [hl] at ha
  have hbase := Compaction.baseEntry_eq ht
  cases he : t.baseEntry.encode with
  | ok frame =>
    rw [hbase] at he
    exact absurd (Entry.exists_encode_commit_iff.1 ⟨frame, he⟩).2 hlarge
  | error fault =>
    obtain rfl := Entry.onlyTooLarge_encode _ fault he
    obtain ⟨disk, hrun⟩ := Compaction.exists_run_of_error (ha.takesFile_iff.2 htakes) he
    refine ⟨{ left with disk }, ?_⟩
    simp only [loadCompact, hl, (Compaction.isDue_iff ht).2 hs, if_true, hrun]

/-- The table is not given although its log opens, with the rows and frames of `t`: whatever calls
were made before, or were stopped, the next one fails, and the log opens after it, too. -/
def Shuts (site : Site) (d : TableDirectory) (name : String) (t : Table) : Prop :=
  ∀ (s₁ : Source) (d₁ : TableDirectory) (site₁ : Site),
    Relation.ReflTransGen (Passes d.path) site.disk site₁.disk →
    s₁.directory = some d₁ → d₁.path = d.path → s₁.tables[name]? = none →
    ∃ left, s₁.get site₁ name = (.error (.invalidOperation .entryTooLarge), s₁, left) ∧
      Opens site₁ d₁ name t.rows t.frames ∧ Opens left d₁ name t.rows t.frames

theorem shuts_of_tooLarge (h : site.disk.Stores d.path dir name es) (ht : t.Replays es)
    (hname : Table.isName name = true) (hs : Compaction.IsLong es)
    (htakes : site.disk.TakesFile (d.freshPath name))
    (hlarge : ¬(Compaction.summary es).payloadLength < Bytes.bound 4) : Shuts site d name t := by
  intro s₁ d₁ site₁ hp hd₁ hpath hnew₁
  obtain ⟨⟨touched, ha⟩, es₁, ho, hstores⟩ := stores_of_passes hp h
  obtain rfl := eq_of_tooLarge hstores ho hlarge
  have htakes₁ := ha.takesFile_iff.2 htakes
  rw [TableDirectory.freshPath, ← hpath] at htakes₁
  rw [← hpath] at hstores
  obtain ⟨left, hload⟩ := exists_loadCompact_of_tooLarge hstores hs htakes₁ hlarge
  have hget := get_of_error hd₁ hnew₁ hname hload
  have hstops := stops_get hd₁ hnew₁ site₁
  rw [hget] at hstops
  obtain ⟨es₂, ho₂, hleft⟩ := hstops.stores hstores
  obtain rfl := eq_of_tooLarge hleft ho₂ hlarge
  rw [ht.rows, ht.frames]
  exact ⟨left, hget, opens_of_stores hstores, opens_of_stores hleft⟩

/-- What becomes of a table that was not given out yet, and whose log opens with the rows of `t`. -/
structure NeedsFrame (s : Source) (site : Site) (d : TableDirectory) (name : String) (t : Table) :
    Prop where
  /-- It is given if its log need not be compacted, or there can be a file beside it and its rows
  fit a frame. -/
  given : (∃ id s' site', s.get site name = (.ok id, s', site')) ↔
    (Compaction.isDue t = true → site.disk.TakesFile (d.freshPath name) ∧
      t.baseEntry.payloadLength < Bytes.bound 4)
  /-- The rows fit a frame if the log is not too long for one. -/
  short : Compaction.isDue t = true →
    t.baseEntry.payloadLength ≤ (site.disk.bytesOf (d.journalPath name)).length
  /-- Rows that do not fit keep the table from being given, now and later. -/
  shuts : Compaction.isDue t = true → site.disk.TakesFile (d.freshPath name) →
    Bytes.bound 4 ≤ t.baseEntry.payloadLength → Shuts site d name t

/-- A log that opens need not be one whose table is given. -/
theorem get_needs_frame (hd : s.directory = some d) (hnew : s.tables[name]? = none)
    (hname : Table.isName name = true) (htidy : site.disk.Tidy)
    (hload : load site (d.journalPath name) name d.sync = (.ok (t, n), opened)) :
    s.NeedsFrame site d name t := by
  obtain ⟨place, es, hl, hlog⟩ := exists_hasLog_of_load htidy hload
  obtain ⟨dir, hwalk, hdir, rfl⟩ := Disk.exists_walk_of_locate hl
    (TableDirectory.ne_of_getLast? (TableDirectory.getLast?_journalName name) (by decide))
  have hstores : site.disk.Stores d.path dir name es := ⟨htidy, ⟨hwalk, hdir⟩, hl, hlog⟩
  obtain ⟨t₀, n₀, left₀, hload₀, ht, -⟩ := exists_load_of_stores hstores d.sync
  rw [hload] at hload₀
  cases hload₀
  constructor
  case given =>
    rw [exists_get_iff hstores hd hnew, compacts_iff, Compaction.isDue_iff ht,
      Compaction.baseEntry_eq ht]
    exact and_iff_right hname
  case short =>
    intro hdue
    have hs := (Compaction.isDue_iff ht).1 hdue
    have hne : es ≠ [] := by
      rintro rfl
      exact absurd hs.1 (by decide)
    rw [Compaction.baseEntry_eq ht, Disk.bytesOf_of_locate hl]
    exact hlog.reads.payloadLength_summary_le hne
  case shuts =>
    intro hdue htakes hlarge
    rw [Compaction.baseEntry_eq ht] at hlarge
    exact shuts_of_tooLarge hstores ht hname ((Compaction.isDue_iff ht).1 hdue) htakes
      (Nat.not_lt.2 hlarge)

/-- Two rows with `n` bytes each. -/
def twoRows (n : Nat) : List Entry :=
  [.commit 1 [([1], some (List.replicate n 0))], .commit 2 [([2], some (List.replicate n 0))]]

/-- A log with two rows, and deletions that make it a long one. -/
def heavy (n : Nat) : List Entry := twoRows n ++ List.replicate 62 (.commit 3 [([3], none)])

theorem payloadLength_write (tx : TxId) (k : UInt8) (n : Nat) :
    (Entry.commit tx [([k], some (List.replicate n 0))]).payloadLength = 22 + n := by
  simp only [Entry.payloadLength, Entry.writeLength, List.map_cons, List.map_nil, List.sum_cons,
    List.sum_nil, List.length_singleton, List.length_replicate]
  omega

theorem exists_encodeAll_heavy {n : Nat} (h : 22 + n < Bytes.bound 4) :
    ∃ bs, Entry.encodeAll (heavy n) = .ok bs := by
  apply Entry.exists_encodeAll
  intro e he
  have hwrite : ∀ tx k, tx < Bytes.bound 8 →
      ∃ frame, (Entry.commit tx [([k], some (List.replicate n 0))]).encode = .ok frame := by
    intro tx k htx
    rw [Entry.exists_encode_commit_iff, payloadLength_write]
    exact ⟨htx, h⟩
  rcases List.mem_append.1 he with he | he
  · rcases List.mem_pair.1 he with rfl | rfl
    · exact hwrite 1 1 (by decide)
    · exact hwrite 2 2 (by decide)
  · rw [(List.mem_replicate.1 he).2, Entry.exists_encode_commit_iff]
    decide

/-- The rows stay when rows that are not there are deleted. -/
theorem rowsOf_append_deletions {es : List Entry} {key : Bytes}
    (h : (Table.rowsOf (survivors es))[key]? = none) (tx : TxId) (k : Nat) :
    Table.rowsOf (survivors (es ++ List.replicate k (.commit tx [(key, none)]))) =
      Table.rowsOf (survivors es) := by
  induction k with
  | zero => rw [List.replicate_zero, List.append_nil]
  | succ k ih =>
    rw [List.replicate_succ', ← List.append_assoc, survivors_append_commit, Table.rowsOf,
      List.flatten_append, List.foldl_append, ← Table.rowsOf, ih]
    apply Std.ExtTreeMap.ext_getElem?
    intro other
    rw [List.flatten_singleton, List.foldl_cons, List.foldl_nil, Table.getElem?_applyWrite]
    split
    · next he => rw [← he, h]
    · rfl

/-- The keys of the two rows. -/
def twoKeys : Std.ExtTreeMap Bytes Unit := (Std.ExtTreeMap.empty.insert [1] ()).insert [2] ()

theorem rowsOf_twoRows (n : Nat) :
    Table.rowsOf (survivors (twoRows n)) = twoKeys.map fun _ _ => List.replicate n 0 := by
  have htwo : Table.rowsOf (survivors (twoRows n)) =
      Table.applyWrite (Table.applyWrite ∅ ([1], some (List.replicate n 0)))
        ([2], some (List.replicate n 0)) := rfl
  apply Std.ExtTreeMap.ext_getElem?
  intro key
  rw [htwo, Table.getElem?_applyWrite, Table.getElem?_applyWrite, Std.ExtTreeMap.getElem?_empty,
    Std.ExtTreeMap.getElem?_map, twoKeys, Std.ExtTreeMap.getElem?_insert,
    Std.ExtTreeMap.getElem?_insert]
  by_cases h₂ : [2] = key
  · simp [h₂]
  · by_cases h₁ : [1] = key
    · simp [h₁, h₂]
    · simp [h₁, h₂]

/-- The rows that the log leaves are the two. -/
theorem writesOf_heavy (n : Nat) : Table.writesOf (Table.rowsOf (survivors (heavy n))) =
    [([1], some (List.replicate n 0)), ([2], some (List.replicate n 0))] := by
  have hkeys : twoKeys.toList = [([1], ()), ([2], ())] := by decide +kernel
  have hnone : (Table.rowsOf (survivors (twoRows n)))[([3] : Bytes)]? = none := by
    rw [rowsOf_twoRows, Std.ExtTreeMap.getElem?_map]
    have hthree : twoKeys[([3] : Bytes)]? = none := by decide +kernel
    rw [hthree]
    rfl
  rw [heavy, rowsOf_append_deletions hnone, rowsOf_twoRows, Table.writesOf,
    Std.ExtTreeMap.toList_map, hkeys]
  rfl

theorem isLong_heavy (n : Nat) : Compaction.IsLong (heavy n) := by
  have hlength : (heavy n).length = 64 := by
    rw [heavy, List.length_append, List.length_replicate]
    rfl
  have hsize : (Table.rowsOf (survivors (heavy n))).size = 2 := by
    have hwrites := congrArg List.length (writesOf_heavy n)
    rwa [Table.writesOf, List.length_map, Std.ExtTreeMap.length_toList] at hwrites
  rw [Compaction.IsLong, hlength, hsize]
  decide

theorem payloadLength_summary_heavy (n : Nat) :
    (Compaction.summary (heavy n)).payloadLength = 32 + 2 * n := by
  rw [Compaction.summary, writesOf_heavy]
  simp only [Entry.payloadLength, Entry.writeLength, List.map_cons, List.map_nil, List.sum_cons,
    List.sum_nil, List.length_singleton, List.length_replicate]
  omega

/-- A disk with a directory. -/
def bareDisk : Disk := (TableDirectory.acquire Disk.empty ["d"] true).2

/-- The disk with the log of one table. -/
def singleDisk (bs : Bytes) : Disk := bareDisk.putFile ["d", "t.tbl"] bs

theorem tidy_bareDisk : bareDisk.Tidy := Disk.tidy_empty.acquire _ _

theorem alters_singleDisk (bs : Bytes) :
    (singleDisk bs).Alters bareDisk [journalPlace ["d"] "t"] ∧
      ∃ file, (singleDisk bs).at? (journalPlace ["d"] "t") = some (.file file) ∧
        (singleDisk bs).read file = bs := by
  have hplace : bareDisk.locate ["d", "t.tbl"] = .ok (journalPlace ["d"] "t") := rfl
  obtain ⟨file, made, ho⟩ := Disk.exists_openFile_of_not_directory hplace (by decide +kernel)
  obtain ⟨place, hl, ha, hfile, -⟩ := Disk.alters_openFile tidy_bareDisk ho
  obtain rfl := Except.ok.inj (hplace.symm.trans hl)
  have hdisk : singleDisk bs = made.write file bs := by rw [singleDisk, Disk.putFile, ho]
  rw [hdisk]
  exact ⟨(Disk.alters_write ha.tidy hfile bs).trans ha, file, hfile, by
    rw [Disk.read_write, if_pos rfl]⟩

theorem stores_singleDisk {es : List Entry} {bs : Bytes} (h : Frames es bs) :
    (singleDisk bs).Stores ["d"] ["d"] "t" es := by
  obtain ⟨ha, file, hfile, hread⟩ := alters_singleDisk bs
  have hleads : bareDisk.Leads ["d"] ["d"] := ⟨rfl, by decide +kernel⟩
  exact ⟨ha.tidy, ha.leads hleads, ha.extends.locate rfl,
    Disk.hasLog_of_frames hfile (hread.symm ▸ h)⟩

theorem takesFile_singleDisk (bs : Bytes) :
    (singleDisk bs).TakesFile (longDirectory.freshPath "t") := by
  apply (alters_singleDisk bs).1.takesFile_iff.2
  exact ⟨freshPlace ["d"] "t", rfl, by decide +kernel⟩

/-- Two rows of 2 GiB each came in frames of their own, so the log opens.  They do not fit one
frame, and the table is never given. -/
theorem get_needs_frame_of_heavy :
    ∃ bs t n opened, Entry.encodeAll (heavy (2 ^ 31)) = .ok bs ∧
      load ⟨singleDisk bs, #[], #[]⟩ (longDirectory.journalPath "t") "t" true =
        (.ok (t, n), opened) ∧
      (singleDisk bs).TakesFile (longDirectory.freshPath "t") ∧
      Shuts ⟨singleDisk bs, #[], #[]⟩ longDirectory "t" t ∧
      ∃ left, get ⟨some longDirectory, ∅, 0⟩ ⟨singleDisk bs, #[], #[]⟩ "t" =
        (.error (.invalidOperation .entryTooLarge), ⟨some longDirectory, ∅, 0⟩, left) := by
  have hname : Table.isName "t" = true := by decide +kernel
  obtain ⟨bs, hbs⟩ := exists_encodeAll_heavy (n := 2 ^ 31) (by decide)
  have hstores : (⟨singleDisk bs, #[], #[]⟩ : Site).disk.Stores longDirectory.path ["d"] "t"
      (heavy (2 ^ 31)) := stores_singleDisk (Frames.iff_encodeAll.2 hbs)
  have htakes := takesFile_singleDisk bs
  obtain ⟨t, n, opened, hload, ht, -⟩ := exists_load_of_stores hstores true
  have hmain := get_needs_frame (s := ⟨some longDirectory, ∅, 0⟩) rfl rfl hname hstores.tidy hload
  have hlarge : Bytes.bound 4 ≤ t.baseEntry.payloadLength := by
    rw [Compaction.baseEntry_eq ht, payloadLength_summary_heavy]
    decide
  have hshuts := hmain.shuts ((Compaction.isDue_iff ht).2 (isLong_heavy _)) htakes hlarge
  obtain ⟨left, hget, -⟩ := hshuts ⟨some longDirectory, ∅, 0⟩ longDirectory
    ⟨singleDisk bs, #[], #[]⟩ .refl rfl rfl rfl
  exact ⟨bs, t, n, opened, hbs, hload, htakes, hshuts, left, hget⟩

end Source

end NamespaceCatalog
