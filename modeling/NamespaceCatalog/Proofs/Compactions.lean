import NamespaceCatalog.Proofs.Disks
import NamespaceCatalog.Proofs.Sites
import NamespaceCatalog.Table.Source

/-!
# Journals that are compacted

`Table.LogHolds` says that a log can be read to its end and leaves the given rows, and `Table.Keeps`
that a table shows these rows and has such a log in its journal, whose stream does not fail.
Compaction succeeds if there can be files at both paths and the rows fit a frame, step by step
(`Compaction.exists_removeStale`, `.exists_writeFresh`, `.exists_run`).  A disk that `Hosts` a table
has the paths of its files, and a lock file; a table that is opened there shows the rows that its
log held, whether its journal is compacted or not (`Source.exists_loadCompact`).
-/

namespace NamespaceCatalog

/-! ## Logs and rows -/

namespace Table

variable {bs frame : Bytes} {rows : Std.ExtTreeMap Bytes Bytes} {tx : TxId} {ws : List RowWrite}

/-- Is the log read to its end, and does it leave these rows? -/
def LogHolds (bs : Bytes) (rows : Std.ExtTreeMap Bytes Bytes) : Prop :=
  ∃ es, Frames es bs ∧ rowsOf (survivors es) = rows

theorem logHolds_nil : LogHolds [] ∅ := ⟨[], .nil, rfl⟩

/-- A commit at the end adds its writes. -/
theorem LogHolds.append_commit (h : LogHolds bs rows)
    (he : (Entry.commit tx ws).encode = .ok frame) :
    LogHolds (bs ++ frame) (ws.foldl applyWrite rows) := by
  obtain ⟨es, hes, rfl⟩ := h
  refine ⟨es ++ [.commit tx ws], hes.append_encode he, ?_⟩
  rw [survivors_append_commit, rowsOf, List.flatten_append, List.foldl_append,
    List.flatten_singleton]
  rfl

/-- The writes that make the rows. -/
def writesOf (rows : Std.ExtTreeMap Bytes Bytes) : List RowWrite :=
  rows.toList.map fun row => (row.1, some row.2)

theorem foldl_writesOf (rows : Std.ExtTreeMap Bytes Bytes) :
    (writesOf rows).foldl applyWrite ∅ = rows := by
  have hwrites : writesOf rows = (rows.map fun _ value => some value).toList := by
    rw [Std.ExtTreeMap.toList_map, writesOf]
  refine Std.ExtTreeMap.ext_getElem? fun key => ?_
  rw [hwrites, getElem?_foldl_applyWrite_toList, Std.ExtTreeMap.getElem?_map]
  cases rows[key]? <;> simp

/-- The rows of a table as it is opened are written by one commit. -/
theorem baseEntry_baseRows (name : String) (rows : Std.ExtTreeMap Bytes Bytes)
    (dirty : Std.ExtTreeSet Bytes) (log : Option LogWriter) :
    baseEntry ⟨name, baseRows rows, dirty, log⟩ = .commit TxId.base (writesOf rows) := by
  simp only [baseEntry, baseRows, writesOf, Std.ExtTreeMap.toList_map, List.filterMap_map]
  rw [← List.filterMap_eq_map]
  rfl

end Table

/-! ## Journals that do not fail -/

namespace Journal

variable {j : Journal} {rows : Std.ExtTreeMap Bytes Bytes} {tx : TxId} {ws : List RowWrite}

/-- Does the journal's log hold these rows, and does nothing go wrong with its stream? -/
structure Keeps (j : Journal) (rows : Std.ExtTreeMap Bytes Bytes) : Prop where
  log : Table.LogHolds j.stream.bytes rows
  sized : j.stream.Sized
  sound : ∀ n, j.stream.faults n = Faults.none

theorem exists_append_of_sound (h : ∀ n, j.stream.faults n = Faults.none) {e : Entry}
    {frame : Bytes} (he : e.encode = .ok frame) : ∃ offset j', j.append e = (.ok offset, j') := by
  have hs : j.stream.append frame = (.ok j.stream.size, (j.stream.extend frame).tick) :=
    Stream.append_of_now (by rw [Stream.now, h]; rfl) frame
  have hf : (j.stream.extend frame).tick.flush =
      (.ok (), (j.stream.extend frame).tick.tick) := by
    have hnow : (j.stream.extend frame).tick.now = Faults.none := h _
    simp [Stream.flush, hnow, Faults.none]
  simp only [append, he, hs, hf]
  split <;> exact ⟨_, _, rfl⟩

/-- A commit that fits a frame is appended, and its writes are added to the rows. -/
theorem Keeps.exists_append (h : j.Keeps rows) {frame : Bytes}
    (he : (Entry.commit tx ws).encode = .ok frame) :
    ∃ offset j', j.append (.commit tx ws) = (.ok offset, j') ∧
      j'.Keeps (ws.foldl Table.applyWrite rows) := by
  obtain ⟨offset, j', ha⟩ := exists_append_of_sound h.sound he
  refine ⟨offset, j', ha, ?_, ?_, fun n => ?_⟩
  · obtain ⟨frame', he', hb⟩ := bytes_append_of_ok ha
    rw [hb]
    exact h.log.append_commit he'
  · have := Table.sized_append j (.commit tx ws) h.sized
    rwa [ha] at this
  · rw [faults_of_append ha]
    exact h.sound n

end Journal

/-! ## Tables that show rows -/

namespace Table

variable {t : Table} {next : Nat} {rows : Std.ExtTreeMap Bytes Bytes} {tx : Transaction}

/-- The table shows the rows to every transaction from the number `next` on, and keeps them in its
journal. -/
structure Keeps (t : Table) (next : Nat) (rows : Std.ExtTreeMap Bytes Bytes) : Prop where
  writer : ∀ key, ∀ v ∈ t.versions key, v.writer < next
  newest : ∀ key, Version.newest (fun _ => true) (t.versions key) = rows[key]?
  log : ∃ j, t.log = some ⟨j, []⟩ ∧ j.Keeps rows

theorem Keeps.mono (h : t.Keeps next rows) {later : Nat} (hle : next ≤ later) :
    t.Keeps later rows :=
  ⟨fun key v hv => Nat.lt_of_lt_of_le (h.writer key v hv) hle, h.newest, h.log⟩

/-- A table is opened with the rows that its log holds. -/
theorem exists_load {bs : Bytes} (h : LogHolds bs rows) (name : String) (sync : Bool) :
    ∃ j, load name (Stream.ofBytes bs) sync =
        (.ok ⟨name, baseRows rows, ∅, some ⟨j, []⟩⟩, j.stream) ∧
      j.stream = (Stream.ofBytes bs).tick ∧
      Keeps ⟨name, baseRows rows, ∅, some ⟨j, []⟩⟩ 1 rows := by
  obtain ⟨es, hes, rfl⟩ := h
  have hreplay := Journal.replay_of_frames (s := Stream.ofBytes bs) hes rfl rfl sync
  refine ⟨⟨(Stream.ofBytes bs).tick, sync, es.length⟩, by rw [load, hreplay], rfl,
    fun key v hv => ?_, fun key => ?_, _, rfl, ⟨es, hes, rfl⟩, rfl, fun _ => rfl⟩
  · rw [versions, versions_baseRows, Option.mem_toList, Option.map_eq_some_iff] at hv
    obtain ⟨value, -, rfl⟩ := hv
    exact Nat.zero_lt_one
  · rw [versions, versions_baseRows]
    cases (rowsOf (survivors es))[key]? <;> rfl

/-- Who sees all writers below its number reads the rows. -/
theorem Keeps.get_eq (h : t.Keeps next rows) (htx : ∀ w < next, tx.sees w) (key : Bytes) :
    t.get tx key = rows[key]? := by
  rw [Table.get_eq, ← h.newest key]
  exact Version.newest_congr fun v hv => htx _ (h.writer key v hv)

/-- What a transaction wrote is installed if it fits a frame. -/
theorem Keeps.exists_install (h : t.Keeps next rows) {buffer : Std.ExtTreeMap Bytes (Option Bytes)}
    (hfits : buffer.toList ≠ [] → ∃ frame, (Entry.commit next buffer.toList).encode = .ok frame) :
    ∃ logged t', t.install next buffer.toList = (.ok logged, t') ∧
      t'.Keeps (next + 1) (buffer.toList.foldl applyWrite rows) := by
  obtain ⟨j, hj, hkeeps⟩ := h.log
  unfold install
  by_cases hn : buffer.toList = []
  · rw [hn]
    exact ⟨false, t, rfl, fun key v hv => Nat.lt_succ_of_lt (h.writer key v hv), h.newest, j, hj,
      hkeeps⟩
  · obtain ⟨frame, he⟩ := hfits hn
    obtain ⟨offset, j', ha, hkeeps'⟩ := hkeeps.exists_append he
    have hw : (LogWriter.mk j []).append (.commit next buffer.toList) = (.ok (), ⟨j', []⟩) := by
      simp only [LogWriter.append, LogWriter.writeRollbacks, ha]
    have hv : ∀ key, versions { t.addVersions next buffer.toList with log := some ⟨j', []⟩ } key =
        (buffer[key]?.map fun v => ⟨next, v⟩).toList ++ t.versions key :=
      t.versions_addVersions_toList next buffer
    simp only [List.isEmpty_iff, hn, if_false, hj, hw]
    refine ⟨true, _, rfl, fun key v hmem => ?_, fun key => ?_, j', rfl, hkeeps'⟩
    · rw [hv, List.mem_append, Option.mem_toList, Option.map_eq_some_iff] at hmem
      rcases hmem with ⟨value, -, rfl⟩ | hmem
      · exact Nat.lt_succ_self next
      · exact Nat.lt_succ_of_lt (h.writer key v hmem)
    · rw [hv, getElem?_foldl_applyWrite_toList, ← h.newest key]
      cases buffer[key]? <;> rfl

/-- A prune that takes nobody for dead leaves the rows. -/
theorem Keeps.prune (h : t.Keeps next rows) {g : Horizon} (hg : ∀ w, g.isDead w = false) :
    (t.prune g).2.Keeps next rows where
  writer key v hv := by
    rw [versions_prune] at hv
    split at hv
    · exact h.writer key v ((Version.prune_sublist g _).subset hv)
    · exact h.writer key v hv
  newest key := by
    rw [versions_prune, ← h.newest key]
    split
    · exact Version.newest_prune (fun _ _ _ => rfl) fun v _ hd => absurd hd (by simp [hg])
    · rfl
  log := by
    rw [log_prune]
    exact h.log

end Table

/-! ## The files of a table -/

namespace TableDirectory

theorem getLast?_lockName : lockName.toList.getLast? = some 'K' := by decide

theorem getLast?_journalName (table : String) : (journalName table).toList.getLast? = some 'l' := by
  simp [journalName]

theorem getLast?_freshName (table : String) : (freshName table).toList.getLast? = some 't' := by
  simp [freshName]

/-- A file whose name ends with a letter is not in the place of a directory. -/
theorem ne_of_getLast? {name : String} {letter : Char} (h : name.toList.getLast? = some letter)
    (hl : letter ≠ '.') : name ≠ "" ∧ name ≠ "." ∧ name ≠ ".." := by
  refine ⟨?_, ?_, ?_⟩
  · rintro rfl
    cases h
  · rintro rfl
    exact hl (Option.some.inj h).symm
  · rintro rfl
    exact hl (Option.some.inj h).symm

theorem name_ne_of_getLast? {name other : String} {letter letter' : Char}
    (h : name.toList.getLast? = some letter) (h' : other.toList.getLast? = some letter')
    (hne : letter ≠ letter') : name ≠ other := by
  rintro rfl
  exact hne (Option.some.inj (h.symm.trans h'))

/-- Two files of a directory whose names end with different letters have different places. -/
theorem place_ne {d : Disk} {path : Path} {name other : String} {place place' : Place}
    {letter letter' : Char} (hl : d.locate (path ++ [name]) = .ok place)
    (hl' : d.locate (path ++ [other]) = .ok place') (h : name.toList.getLast? = some letter)
    (h' : other.toList.getLast? = some letter') (hne : letter ≠ letter') (hdot : letter ≠ '.')
    (hdot' : letter' ≠ '.') : place ≠ place' := by
  obtain ⟨dir, -, -, rfl⟩ := Disk.exists_walk_of_locate hl (ne_of_getLast? h hdot)
  obtain ⟨dir', -, -, rfl⟩ := Disk.exists_walk_of_locate hl' (ne_of_getLast? h' hdot')
  intro e
  apply name_ne_of_getLast? h h' hne
  simpa using (List.append_inj' e rfl).2

end TableDirectory

/-- The places of the files that a directory has for a table. -/
structure Places where
  lock : Place
  journal : Place
  fresh : Place

namespace Disk

variable {d d' : Disk} {dir : TableDirectory} {path : Path} {table : String} {q : Places}
  {lock : FileId} {rows : Std.ExtTreeMap Bytes Bytes}

/-- The directory at the path is there with its lock file, and no other directory is in the way of
the files of the table. -/
structure Hosts (d : Disk) (path : Path) (table : String) (q : Places) (lock : FileId) : Prop where
  stands : d.Stands path
  lockPath : d.locate (path ++ [TableDirectory.lockName]) = .ok q.lock
  journalPath : d.locate (path ++ [TableDirectory.journalName table]) = .ok q.journal
  freshPath : d.locate (path ++ [TableDirectory.freshName table]) = .ok q.fresh
  apart : q.lock ≠ q.journal ∧ q.lock ≠ q.fresh ∧ q.journal ≠ q.fresh
  lockFile : d.at? q.lock = some (.file lock)
  journal : d.at? q.journal ≠ some .directory
  fresh : d.at? q.fresh ≠ some .directory

theorem Hosts.of_extends (h : d.Hosts path table q lock) (he : d'.Extends d)
    (hlock : d'.at? q.lock = some (.file lock)) (hjournal : d'.at? q.journal ≠ some .directory)
    (hfresh : d'.at? q.fresh ≠ some .directory) : d'.Hosts path table q lock :=
  ⟨he.stands h.stands, he.locate h.lockPath, he.locate h.journalPath, he.locate h.freshPath,
    h.apart, hlock, hjournal, hfresh⟩

/-- What is in files does not matter. -/
theorem Hosts.of_nodes_eq (h : d.Hosts path table q lock) (e : d'.nodes = d.nodes) :
    d'.Hosts path table q lock := by
  have hat : ∀ place, d'.at? place = d.at? place := fun place => by rw [at?, at?, e]
  refine h.of_extends (fun place hp => (hat place).trans hp) ?_ ?_ ?_
  · rw [hat, h.lockFile]
  · rw [hat]
    exact h.journal
  · rw [hat]
    exact h.fresh

/-- The table that the disk hosts has these rows in its journal, or none and no journal. -/
structure Keeps (d : Disk) (path : Path) (table : String) (q : Places) (lock : FileId)
    (rows : Std.ExtTreeMap Bytes Bytes) : Prop where
  hosts : d.Hosts path table q lock
  log : d.at? q.journal = none ∧ rows = ∅ ∨
    ∃ file, d.at? q.journal = some (.file file) ∧ Table.LogHolds (d.read file) rows

/-- The journal can be opened, and holds the rows. -/
theorem Keeps.exists_openFile (h : d.Keeps path table q lock rows) :
    ∃ file d', d.openFile (path ++ [TableDirectory.journalName table]) = .ok (file, d') ∧
      d'.Hosts path table q lock ∧ d'.at? q.journal = some (.file file) ∧
      Table.LogHolds (d'.read file) rows := by
  rcases h.log with ⟨hnone, rfl⟩ | ⟨file, hfile, hlog⟩
  · obtain ⟨file, d', ho, hd, hfile, hread⟩ := Disk.exists_openFile h.hosts.journalPath hnone
    refine ⟨file, d', ho, h.hosts.of_extends hd.extends ?_ (by simp [hfile]) ?_, hfile, ?_⟩
    · rw [hd.elsewhere _ h.hosts.apart.1, h.hosts.lockFile]
    · rw [hd.elsewhere _ h.hosts.apart.2.2.symm]
      exact h.hosts.fresh
    · rw [hread]
      exact Table.logHolds_nil
  · exact ⟨file, d, openFile_of_file h.hosts.journalPath hfile, h.hosts, hfile, hlog⟩

end Disk

/-! ## Compaction -/

namespace Compaction

variable {d : Disk} {fresh path : Path} {place next : Place} {e : Entry} {frame : Bytes}

/-- Whatever an earlier compaction left is removed. -/
theorem exists_removeStale (hl : d.locate fresh = .ok place)
    (hp : d.at? place ≠ some .directory) :
    ∃ d', removeStale d fresh = .ok d' ∧ d'.DiffersAt d place ∧ d'.at? place = none := by
  cases hf : d.at? place with
  | none =>
    refine ⟨d, ?_, .refl hp, hf⟩
    simp only [removeStale, Disk.remove, hl, hf]
  | some node =>
    cases node with
    | directory => exact absurd hf hp
    | file id =>
      obtain ⟨d', hr, hd, hnone⟩ := Disk.exists_remove hl hf
      exact ⟨d', by rw [removeStale, hr], hd, hnone⟩

/-- The compacted journal is written if its entry fits a frame. -/
theorem exists_writeFresh (hl : d.locate fresh = .ok place) (hp : d.at? place = none)
    (he : e.encode = .ok frame) :
    ∃ file d', writeFresh d fresh e = (.ok (), d') ∧ d'.DiffersAt d place ∧
      d'.at? place = some (.file file) ∧ d'.read file = frame := by
  obtain ⟨file, d', ho, hd, hfile, hread⟩ := Disk.exists_openFile hl hp
  obtain ⟨offset, j, ha⟩ := Journal.exists_append_of_sound
    (j := .ofStream (Stream.ofBytes []) true) (fun _ => rfl) he
  obtain ⟨frame', he', hb⟩ := Journal.bytes_append_of_ok ha
  obtain rfl := Except.ok.inj (he.symm.trans he')
  refine ⟨file, d'.write file j.stream.bytes, ?_, ⟨hd.elsewhere, hd.noDirectory⟩, hfile, ?_⟩
  · simp only [writeFresh, ho, hread, ha]
    rfl
  · rw [Disk.read_write, if_pos rfl, hb]
    rfl

/-- Compaction puts a journal with one entry in the place of the journal. -/
theorem exists_run {dir : TableDirectory} {table : String}
    (hl : d.locate (dir.freshPath table) = .ok place) (hp : d.at? place ≠ some .directory)
    (hl' : d.locate (dir.journalPath table) = .ok next) (hn : d.at? next ≠ some .directory)
    (hne : place ≠ next) (he : e.encode = .ok frame) :
    ∃ file d', run d dir table e = (.ok (), d') ∧
      (∀ other, other ≠ place → other ≠ next → d'.at? other = d.at? other) ∧
      d'.at? place = none ∧ d'.at? next = some (.file file) ∧ d'.read file = frame := by
  obtain ⟨d₁, hstale, hd₁, hnone⟩ := exists_removeStale hl hp
  obtain ⟨file, d₂, hwrite, hd₂, hfile, hread⟩ :=
    exists_writeFresh (hd₁.extends.locate hl) hnone he
  have hd : d₂.DiffersAt d place := hd₂.trans hd₁
  have hn₂ : d₂.at? next ≠ some .directory := by rwa [hd.elsewhere next hne.symm]
  obtain ⟨d₃, hrename, hcontents, helse, hgone, hnew⟩ :=
    Disk.exists_rename (hd.extends.locate hl) hfile (hd.extends.locate hl') hn₂ hne
  refine ⟨file, d₃, ?_, fun other ho ho' => ?_, hgone, hnew, ?_⟩
  · have hreplace : replace d₂ (dir.freshPath table) (dir.journalPath table) = .ok d₃ := by
      rw [replace, hrename]
      rfl
    simp only [run, hstale, hwrite, hreplace]
  · rw [helse other ho ho', hd.elsewhere other ho]
  · rw [← hread, Disk.read, Disk.read, hcontents]

end Compaction

/-- A table that a disk hosts is compacted if its rows fit a frame. -/
theorem Disk.Hosts.exists_compact {d : Disk} {dir : TableDirectory} {table : String} {q : Places}
    {lock : FileId} (h : d.Hosts dir.path table q lock) {e : Entry} {frame : Bytes}
    (he : e.encode = .ok frame) :
    ∃ file d', Compaction.run d dir table e = (.ok (), d') ∧ d'.Hosts dir.path table q lock ∧
      d'.at? q.journal = some (.file file) ∧ d'.read file = frame := by
  obtain ⟨file, d', hrun, helse, hgone, hnew, hread⟩ := Compaction.exists_run h.freshPath h.fresh
    h.journalPath h.journal h.apart.2.2.symm he
  have hext : d'.Extends d := by
    intro place hp
    rw [helse place]
    · exact hp
    · rintro rfl
      exact h.fresh hp
    · rintro rfl
      exact h.journal hp
  refine ⟨file, d', hrun, h.of_extends hext ?_ (by simp [hnew]) (by simp [hgone]), hnew, hread⟩
  rw [helse _ h.apart.2.1 h.apart.1, h.lockFile]

/-! ## Opening tables -/

namespace Site

variable {site : Site} {i : TableId} {file : FileId} {t : Table} {rows : Std.ExtTreeMap Bytes Bytes}

/-- The stream `n` is over a file on the disk, and is the journal of the table. -/
structure Backs (site : Site) (n : StreamId) (file : FileId) (t : Table) : Prop where
  stream : ∃ o, site.streams[n]? = some o ∧ o.file = file ∧ o.inMemory = false
  log : ∃ w, t.log = some w ∧ w.journal.stream = site.stream n

/-- The table with the number `i` has its journal in a file on the disk. -/
def Opens (site : Site) (i : TableId) (file : FileId) : Prop :=
  ∃ n o, site.HasJournal i n o ∧ o.file = file ∧ o.inMemory = false

theorem exists_openStream (site : Site) (file : FileId) :
    ∃ n opened, site.openStream file false = (n, opened) ∧
      opened.streams[n]? = some ⟨file, false, Stream.ofBytes (site.disk.read file)⟩ ∧
      opened.disk = site.disk :=
  ⟨_, _, rfl, Array.getElem?_push_size, rfl⟩

/-- A table that is given a number has it. -/
theorem Backs.opens_addTable {n : StreamId} (h : site.Backs n file t) :
    (site.addTable t (some n)).2.Opens (site.addTable t (some n)).1 file ∧
      (site.addTable t (some n)).2.table (site.addTable t (some n)).1 = t := by
  obtain ⟨⟨o, ho, hfile, hmem⟩, w, hw, hs⟩ := h
  have hp : (site.addTable t (some n)).2.tables[(site.addTable t (some n)).1]? =
      some ⟨t, some n⟩ := Array.getElem?_push_size
  refine ⟨⟨n, o, ⟨_, hp, rfl, ho⟩, hfile, hmem⟩, ?_⟩
  rw [table_eq_of_some hp rfl]
  show t.withStream (site.stream n) = t
  rw [← hs, Table.withStream_eq_self hw]

/-- The journal of an open table holds what is in the file. -/
theorem Opens.bytes_eq (h : site.Opens i file) {w : LogWriter} (hw : (site.table i).log = some w) :
    w.journal.stream.bytes = site.disk.read file := by
  obtain ⟨n, o, ⟨p, hp, hj, ho⟩, rfl, -⟩ := h
  rw [table_eq_of_some hp hj, Table.withStream, Option.map_eq_some_iff] at hw
  obtain ⟨v, -, rfl⟩ := hw
  show (site.stream n).bytes = _
  rw [stream_eq ho]

/-- An open table that is put back is what is taken next, and its journal is in the file. -/
theorem Opens.putTable (h : site.Opens i file) {w : LogWriter} (hw : t.log = some w) :
    (site.putTable i t).Opens i file ∧ (site.putTable i t).table i = t ∧
      (site.putTable i t).disk = site.disk.write file w.journal.stream.bytes := by
  obtain ⟨n, o, ⟨p, hp, hj, ho⟩, rfl, hmem⟩ := h
  have htable : (site.putTable i t).table i = t :=
    table_putTable_of_journal hp hj ho hw fun hm => absurd (hmem.symm.trans hm) Bool.false_ne_true
  rw [putTable_of_journal hp hj ho hw] at htable ⊢
  exact ⟨⟨n, _, ⟨_, getElem?_set!_self hp _, hj, getElem?_set!_self ho _⟩, rfl, hmem⟩, htable, rfl⟩

end Site

namespace Source

variable {site : Site} {path : Path} {name : String} {q : Places} {lock file : FileId} {d : Disk}
  {dir : TableDirectory} {rows : Std.ExtTreeMap Bytes Bytes}

/-- A table is loaded from the bytes of a file, through a stream that is put back. -/
theorem load_of_openFile (ho : site.disk.openFile path = .ok (file, d)) (name : String)
    (sync : Bool) :
    ∃ (n : StreamId) (opened : Site), opened.disk = d ∧
      opened.streams[n]? = some ⟨file, false, Stream.ofBytes (d.read file)⟩ ∧
      load site path name sync =
        ((Table.load name (Stream.ofBytes (d.read file)) sync).1.map (·, n),
          opened.putStream n (Table.load name (Stream.ofBytes (d.read file)) sync).2) := by
  obtain ⟨n, opened, hopened, hstreams, hdisk⟩ :=
    ({ site with disk := d } : Site).exists_openStream file
  have hstream : opened.stream n = Stream.ofBytes (d.read file) := by
    rw [Site.stream_eq hstreams, hdisk]
    rfl
  refine ⟨n, opened, hdisk, hstreams, ?_⟩
  simp only [load, ho, hopened, Site.loadTable, hstream]

/-- A table is read from the journal that is in a file. -/
theorem exists_load (ho : site.disk.openFile path = .ok (file, d))
    (hlog : Table.LogHolds (d.read file) rows) (name : String) (sync : Bool) :
    ∃ t n site', load site path name sync = (.ok (t, n), site') ∧ site'.Backs n file t ∧
      site'.disk = d.write file (d.read file) ∧ t.Keeps 1 rows ∧
      t.baseEntry = .commit TxId.base (Table.writesOf rows) := by
  obtain ⟨j, htable, hj, hkeeps⟩ := Table.exists_load hlog name sync
  obtain ⟨m, opened, hdisk, hstreams, hload⟩ := load_of_openFile ho name sync
  have hput : opened.putStream m j.stream =
      { opened with
        disk := d.write file (d.read file)
        streams := opened.streams.set! m ⟨file, false, j.stream⟩ } := by
    rw [Site.putStream, hstreams, hdisk, hj]
    rfl
  rw [htable] at hload
  refine ⟨_, m, opened.putStream m j.stream, hload, ⟨?_, _, rfl, ?_⟩, by rw [hput], hkeeps,
    Table.baseEntry_baseRows ..⟩
  · rw [hput]
    exact ⟨_, Site.getElem?_set!_self hstreams _, rfl, rfl⟩
  · exact (Site.stream_putStream (Array.getElem?_eq_some_iff.1 hstreams).1 (by rw [hj]; rfl)).symm

/-- A table is read from its journal, which is compacted if that is due, and shows the rows it
held. -/
theorem exists_loadCompact (h : site.disk.Keeps dir.path name q lock rows)
    (hfits : ∃ frame, (Entry.commit TxId.base (Table.writesOf rows)).encode = .ok frame) :
    ∃ t n file site', loadCompact site dir name = (.ok (t, n), site') ∧ site'.Backs n file t ∧
      site'.disk.Hosts dir.path name q lock ∧ site'.disk.at? q.journal = some (.file file) ∧
      t.Keeps 1 rows := by
  obtain ⟨file, d, ho, hhosts, hfile, hlog⟩ := h.exists_openFile
  obtain ⟨t, n, site', hload, hbacks, hdisk, hkeeps, hbase⟩ := exists_load ho hlog name dir.sync
  have hhosts' : site'.disk.Hosts dir.path name q lock := hhosts.of_nodes_eq (by rw [hdisk]; rfl)
  unfold loadCompact
  rw [TableDirectory.journalPath, hload]
  by_cases hdue : Compaction.isDue t = true
  · obtain ⟨frame, he⟩ := hfits
    obtain ⟨file', d', hrun, hhosts'', hfile', hread⟩ := hhosts'.exists_compact he
    have hlog' : Table.LogHolds (d'.read file') rows := by
      have := Table.logHolds_nil.append_commit he
      rwa [Table.foldl_writesOf, List.nil_append, ← hread] at this
    have ho' : ({ site' with disk := d' } : Site).disk.openFile
        (dir.path ++ [TableDirectory.journalName name]) = .ok (file', d') :=
      Disk.openFile_of_file hhosts''.journalPath hfile'
    obtain ⟨t', n', site'', hload', hbacks', hdisk', hkeeps', -⟩ :=
      exists_load ho' hlog' name dir.sync
    refine ⟨t', n', file', site'', ?_, hbacks', hhosts''.of_nodes_eq (by rw [hdisk']; rfl), ?_,
      hkeeps'⟩
    · simp only [hdue, if_true, hbase, hrun, hload']
    · rw [hdisk']
      exact hfile'
  · refine ⟨t, n, file, site', ?_, hbacks, hhosts', ?_, hkeeps⟩
    · simp only [hdue, Bool.false_eq_true, if_false]
    · rw [hdisk]
      exact hfile

end Source

end NamespaceCatalog
