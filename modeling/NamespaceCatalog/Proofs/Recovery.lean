import Mathlib.Logic.Relation
import NamespaceCatalog.Proofs.Damage
import NamespaceCatalog.Proofs.Stoppages

/-!
# Calls after calls that were stopped

Whatever calls for tables of a directory were stopped, wherever and however often (`Passes`), the
log of a table holds its entries or the one that they are compacted to (`Passes.stores`).  So the
next call for the table gives the rows that it would have had (`Survives`).
-/

namespace NamespaceCatalog

/-! ## Directories that are there -/

namespace Disk

variable {d d' : Disk} {path front : Path} {dir place : Place} {paths : List Path}

theorem Leads.directory_of_front (h : d.Leads path dir) (hp : front <+: path)
    (hl : d.locate front = .ok place) : d.at? place = some .directory := by
  obtain ⟨rest, rfl⟩ := hp
  have hw : d.walk [] front = .ok place := by
    unfold locate at hl
    split at hl
    · cases hl
    · exact hl
  have hwalk := h.walk
  rw [walk_append, hw] at hwalk
  cases rest with
  | nil =>
    cases hwalk
    exact h.directory
  | cons part parts =>
    change d.walk place (part :: parts) = .ok dir at hwalk
    unfold Disk.walk at hwalk
    split at hwalk
    · cases hwalk
    · cases hwalk
    · assumption

theorem prefix_trimmed (path : Path) : trimmed path <+: path := by
  have hs := List.dropWhile_suffix (· = "") (l := path.reverse)
  have hp := List.reverse_prefix.2 hs
  rwa [List.reverse_reverse] at hp

theorem Leads.createEach (h : d.Leads path dir) (hp : ∀ front ∈ paths, front <+: path) :
    (d.createEach paths).2 = d := by
  induction paths with
  | nil => rfl
  | cons front paths ih =>
    have hrest := ih fun q hq => hp q (List.mem_cons_of_mem _ hq)
    have hdir : ∀ d', d.createDir front = .ok d' → d' = d := by
      intro d' hd
      unfold createDir at hd
      cases hl : d.locate (trimmed front) with
      | error fault => simp [hl] at hd
      | ok place =>
        have hplace := h.directory_of_front
          ((prefix_trimmed front).trans (hp front List.mem_cons_self)) hl
        simp only [hl, hplace, Except.ok.injEq] at hd
        exact hd.symm
    unfold Disk.createEach
    cases hd : d.createDir front with
    | error fault => rfl
    | ok next =>
      obtain rfl := hdir next hd
      exact hrest

/-- No directory is made where the path leads to one. -/
theorem Leads.createDirs (h : d.Leads path dir) : (d.createDirs path).2 = d := by
  unfold Disk.createDirs
  split
  · rfl
  · refine h.createEach fun front hf => ?_
    rcases List.mem_append.1 hf with hf | hf
    · obtain ⟨k, -, rfl⟩ := List.mem_map.1 hf
      exact List.take_prefix _ _
    · obtain rfl := List.mem_singleton.1 hf
      exact List.prefix_rfl

/-- Who opens a directory touches no file but the one that is locked. -/
theorem exists_alters_acquire (h : (d.createDirs path).2.Tidy) (sync : Bool) :
    ∃ touched, (TableDirectory.acquire d path sync).2.Alters (d.createDirs path).2 touched ∧
      ∀ place ∈ touched,
        (d.createDirs path).2.locate (path ++ [TableDirectory.lockName]) = .ok place := by
  unfold TableDirectory.acquire
  rcases hc : d.createDirs path with ⟨_ | _, next⟩
  · rw [hc] at h
    exact ⟨[], .refl h _, fun _ hm => absurd hm List.not_mem_nil⟩
  · rw [hc] at h
    dsimp only
    cases ho : next.openFile (path ++ [TableDirectory.lockName]) with
    | error fault => exact ⟨[], .refl h _, fun _ hm => absurd hm List.not_mem_nil⟩
    | ok opened =>
      obtain ⟨lock, disk⟩ := opened
      obtain ⟨place, hl, ha, -⟩ := alters_openFile h ho
      refine ⟨[place], ?_, fun _ hm => List.mem_singleton.1 hm ▸ hl⟩
      dsimp only
      cases hlock : disk.lock? lock with
      | none => exact ha
      | some locked => exact (alters_lock? ha.tidy hlock _).trans ha

theorem Tidy.acquire (h : d.Tidy) (path : Path) (sync : Bool) :
    (TableDirectory.acquire d path sync).2.Tidy := by
  obtain ⟨touched, ha, -⟩ := exists_alters_acquire (h.createDirs path) sync
  exact ha.tidy

theorem Leads.alters_acquire (h : d.Leads path dir) (ht : d.Tidy) (sync : Bool) :
    (TableDirectory.acquire d path sync).2.Alters d [TableDirectory.lockPlace dir] := by
  have hdirs := h.createDirs
  obtain ⟨touched, ha, hplace⟩ := exists_alters_acquire (by rwa [hdirs]) sync
  rw [hdirs] at ha hplace
  apply ha.mono
  intro place hm
  rw [h.place_eq (hplace place hm) TableDirectory.getLast?_lockName (by decide)]
  exact List.mem_singleton_self _

/-- Is there the same file with the same bytes at the path, or none on both disks? -/
structure SameAt (d' d : Disk) (path : Path) : Prop where
  node : d'.node? path = d.node? path
  bytes : ∀ id, d.node? path = some (.file id) → d'.read id = d.read id

theorem Alters.sameAt {touched : List Place} (h : d'.Alters d touched)
    (hp : ∀ place, d.locate path = .ok place → place ∉ touched) : d'.SameAt d path := by
  refine ⟨h.node?_eq hp, fun id hid => ?_⟩
  unfold node? at hid
  split at hid
  · next place hl => exact h.bytes place (hp place hl) id hid
  · cases hid

/-- The bytes of the file at the path, none if there is no file. -/
def bytesOf (d : Disk) (path : Path) : Bytes :=
  match d.locate path with
  | .ok place => d.bytesAt place
  | .error _ => []

theorem bytesOf_of_locate (hl : d.locate path = .ok place) : d.bytesOf path = d.bytesAt place := by
  rw [bytesOf, hl]

/-- The disk with these bytes in the file at the path. -/
def putFile (d : Disk) (path : Path) (bs : Bytes) : Disk :=
  match d.openFile path with
  | .ok (file, d) => d.write file bs
  | .error _ => d

theorem Tidy.putFile (h : d.Tidy) (path : Path) (bs : Bytes) : (d.putFile path bs).Tidy := by
  unfold Disk.putFile
  cases ho : d.openFile path with
  | error fault => exact h
  | ok opened =>
    obtain ⟨file, next⟩ := opened
    obtain ⟨place, -, ha, hfile, -⟩ := alters_openFile h ho
    exact (alters_write ha.tidy hfile bs).tidy

end Disk

namespace Source

open TableDirectory (journalPlace freshPlace)

variable {s : Source} {site left opened : Site} {d : TableDirectory} {name : String} {path : Path}
  {disk disk' : Disk} {dir : Place} {es : List Entry} {t : Table} {n : StreamId}

/-! ## Calls that are not stopped -/

/-- Can the log be compacted to one entry? -/
def Compacts (disk : Disk) (d : TableDirectory) (name : String) (es : List Entry) : Prop :=
  disk.TakesFile (d.freshPath name) ∧ ∃ frame, (Compaction.summary es).encode = .ok frame

theorem exists_loadCompact_of_short (h : site.disk.Stores d.path dir name es)
    (hs : ¬Compaction.IsLong es) :
    ∃ t n left, loadCompact site d name = (.ok (t, n), left) ∧ t.Replays es ∧
      left.disk.Stores d.path dir name es := by
  obtain ⟨t, n, left, hl, ht, hleft⟩ := exists_load_of_stores h d.sync
  have hdue : ¬Compaction.isDue t = true := fun hdue => hs ((Compaction.isDue_iff ht).1 hdue)
  exact ⟨t, n, left, by simp only [loadCompact, hl, if_neg hdue], ht, hleft⟩

theorem exists_loadCompact_of_long (h : site.disk.Stores d.path dir name es)
    (hs : Compaction.IsLong es) (hc : Compacts site.disk d name es) :
    ∃ t n left, loadCompact site d name = (.ok (t, n), left) ∧
      t.Replays [Compaction.summary es] ∧
      left.disk.Stores d.path dir name [Compaction.summary es] := by
  obtain ⟨t, n, left, hl, ht, hleft⟩ := exists_load_of_stores h d.sync
  have ha := alters_load_journal h.tidy h.leads name d.sync
  rw [hl] at ha
  obtain ⟨place, hfresh, hplace⟩ := ha.takesFile_iff.2 hc.1
  obtain rfl := TableDirectory.freshPlace_of_locate hleft.leads hfresh
  obtain ⟨frame, he⟩ := hc.2
  rw [← Compaction.baseEntry_eq ht] at he
  obtain ⟨file, disk, hrun, -⟩ := Compaction.exists_run hfresh hplace hleft.journal hleft.log.file
    (TableDirectory.journalPlace_ne_freshPlace dir name name).symm he
  have hnext : ({ left with disk } : Site).disk.Stores d.path dir name [Compaction.summary es] :=
    stores_of_run hleft ht hrun
  obtain ⟨t', n', left', hl', ht', hleft'⟩ := exists_load_of_stores hnext d.sync
  refine ⟨t', n', left', ?_, ht', hleft'⟩
  simp only [loadCompact, hl, (Compaction.isDue_iff ht).2 hs, if_true, hrun, hl']

theorem compacts_of_loadCompact (h : site.disk.Stores d.path dir name es)
    (hs : Compaction.IsLong es) (hl : loadCompact site d name = (.ok (t, n), left)) :
    Compacts site.disk d name es := by
  obtain ⟨t₀, n₀, left₀, hl₀, ht₀, hleft₀⟩ := exists_load_of_stores h d.sync
  have ha := alters_load_journal h.tidy h.leads name d.sync
  rw [hl₀] at ha
  unfold loadCompact at hl
  simp only [hl₀, (Compaction.isDue_iff ht₀).2 hs, if_true] at hl
  rcases hr : Compaction.run left₀.disk d name t₀.baseEntry with ⟨_ | _, disk⟩
  · simp [hr] at hl
  · obtain ⟨cleared, written, hc, hw, -⟩ := Compaction.run_eq_ok hr
    obtain ⟨htakes, frame, he, -⟩ := Compaction.bytesAt_written hleft₀.tidy hleft₀.leads hc hw
    rw [Compaction.baseEntry_eq ht₀] at he
    exact ⟨ha.takesFile_iff.1 htakes, frame, he⟩

/-- A table that is given out shows what its log holds, before and after. -/
theorem loadCompact_ok (h : site.disk.Stores d.path dir name es)
    (hl : loadCompact site d name = (.ok (t, n), left)) :
    ∃ es', Compaction.Outcome es es' ∧ (Compaction.IsLong es → es'.length = 1) ∧
      (¬Compaction.IsLong es → es' = es) ∧ t.Replays es' ∧
      left.disk.Stores d.path dir name es' := by
  by_cases hs : Compaction.IsLong es
  · obtain ⟨t', n', left', hl', ht, hleft⟩ :=
      exists_loadCompact_of_long h hs (compacts_of_loadCompact h hs hl)
    rw [hl] at hl'
    cases hl'
    exact ⟨_, .compacted es, fun _ => rfl, fun hn => absurd hs hn, ht, hleft⟩
  · obtain ⟨t', n', left', hl', ht, hleft⟩ := exists_loadCompact_of_short h hs
    rw [hl] at hl'
    cases hl'
    exact ⟨es, .refl es, fun hs' => absurd hs' hs, fun _ => rfl, ht, hleft⟩

theorem exists_loadCompact_iff (h : site.disk.Stores d.path dir name es) :
    (∃ t n left, loadCompact site d name = (.ok (t, n), left)) ↔
      (Compaction.IsLong es → Compacts site.disk d name es) := by
  constructor
  · rintro ⟨t, n, left, hl⟩ hs
    exact compacts_of_loadCompact h hs hl
  · intro hc
    by_cases hs : Compaction.IsLong es
    · obtain ⟨t, n, left, hl, -⟩ := exists_loadCompact_of_long h hs (hc hs)
      exact ⟨t, n, left, hl⟩
    · obtain ⟨t, n, left, hl, -⟩ := exists_loadCompact_of_short h hs
      exact ⟨t, n, left, hl⟩

/-! ## Asking a source -/

theorem get_of_error (hd : s.directory = some d) (hnew : s.tables[name]? = none)
    (hname : Table.isName name = true) {e : Error}
    (hl : loadCompact site d name = (.error e, left)) :
    s.get site name = (.error e, s, left) := by
  simp only [get, hname, Bool.not_true, Bool.false_eq_true, if_false, hnew, create, hd, hl]

theorem get_of_ok (hd : s.directory = some d) (hnew : s.tables[name]? = none)
    (hname : Table.isName name = true) (hl : loadCompact site d name = (.ok (t, n), left)) :
    ∃ id s' site', s.get site name = (.ok id, s', site') ∧ (site'.table id).rows = t.rows ∧
      site'.disk = left.disk := by
  refine ⟨left.tables.size,
    { s with
      tables := s.tables.insert name left.tables.size
      creations := s.creations + 1 }, (left.addTable t (some n)).2, ?_, ?_, rfl⟩
  · simp only [get, hname, Bool.not_true, Bool.false_eq_true, if_false, hnew, create, hd, hl]
    rfl
  · have hp : (left.addTable t (some n)).2.tables[left.tables.size]? = some ⟨t, some n⟩ :=
      Array.getElem?_push_size
    rw [Site.rows_table, hp]
    rfl

/-- A table that is given out for the first time was loaded. -/
theorem exists_loadCompact_of_get (hd : s.directory = some d) (hnew : s.tables[name]? = none)
    {id : TableId} {s' : Source} {site' : Site} (hg : s.get site name = (.ok id, s', site')) :
    Table.isName name = true ∧ ∃ t n left, loadCompact site d name = (.ok (t, n), left) ∧
      (site'.table id).rows = t.rows ∧ site'.disk = left.disk := by
  by_cases hname : Table.isName name = true
  · refine ⟨hname, ?_⟩
    rcases hl : loadCompact site d name with ⟨e | ⟨t, n⟩, left⟩
    · rw [get_of_error hd hnew hname hl] at hg
      cases hg
    · obtain ⟨id', s₁, site₁, hg', hrows, hdisk⟩ := get_of_ok hd hnew hname hl
      rw [hg] at hg'
      cases hg'
      exact ⟨t, n, left, rfl, hrows, hdisk⟩
  · simp [get, hname] at hg

theorem stops_get (hd : s.directory = some d) (hnew : s.tables[name]? = none) (site : Site) :
    Stops site d name (s.get site name).2.2.disk := by
  by_cases hname : Table.isName name = true
  · have hstops := stops_loadCompact site d name
    rcases hl : loadCompact site d name with ⟨e | ⟨t, n⟩, left⟩
    · rw [hl] at hstops
      rwa [get_of_error hd hnew hname hl]
    · obtain ⟨id, s', site', hg, -, hdisk⟩ := get_of_ok hd hnew hname hl
      rw [hl] at hstops
      rwa [hg, hdisk]
  · have hget : (s.get site name).2.2 = site := by simp [get, hname]
    rw [hget]
    exact .start

/-- The rows that are given are those of the log, and the log that is left has them. -/
theorem rows_of_get (h : site.disk.Stores d.path dir name es) (hd : s.directory = some d)
    (hnew : s.tables[name]? = none) {id : TableId} {s' : Source} {site' : Site}
    (hg : s.get site name = (.ok id, s', site')) :
    (site'.table id).rows = Table.baseRows (Table.rowsOf (survivors es)) ∧
      ∃ es', Compaction.Outcome es es' ∧ (Compaction.IsLong es → es'.length = 1) ∧
        (¬Compaction.IsLong es → es' = es) ∧ site'.disk.Stores d.path dir name es' := by
  obtain ⟨-, t, n, left, hl, hrows, hdisk⟩ := exists_loadCompact_of_get hd hnew hg
  obtain ⟨es', ho, hlong, hshort, ht, hleft⟩ := loadCompact_ok h hl
  rw [hrows, ht.rows, ho.rowsOf_eq, hdisk]
  exact ⟨rfl, es', ho, hlong, hshort, hleft⟩

/-- A table with a valid name is given if its log need not be compacted, or can be. -/
theorem exists_get_iff (h : site.disk.Stores d.path dir name es) (hd : s.directory = some d)
    (hnew : s.tables[name]? = none) :
    (∃ id s' site', s.get site name = (.ok id, s', site')) ↔
      Table.isName name = true ∧ (Compaction.IsLong es → Compacts site.disk d name es) := by
  rw [← exists_loadCompact_iff h]
  constructor
  · rintro ⟨id, s', site', hg⟩
    obtain ⟨hname, t, n, left, hl, -⟩ := exists_loadCompact_of_get hd hnew hg
    exact ⟨hname, t, n, left, hl⟩
  · rintro ⟨hname, t, n, left, hl⟩
    obtain ⟨id, s', site', hg, -⟩ := get_of_ok hd hnew hname hl
    exact ⟨id, s', site', hg⟩

/-! ## Runs of calls that are stopped -/

/-- What may happen to a disk while a directory is open, or opened again: a call for a table runs,
and stops anywhere; a source takes the lock, or gives it back. -/
inductive Passes (path : Path) : Disk → Disk → Prop
  | get {site : Site} {d : TableDirectory} {name : String} {disk : Disk} (hd : d.path = path)
    (hname : Table.isName name = true) (hs : Stops site d name disk) : Passes path site.disk disk
  | acquire (disk : Disk) (sync : Bool) : Passes path disk (TableDirectory.acquire disk path sync).2
  | unlock (disk : Disk) (file : FileId) : Passes path disk (disk.unlock file)

theorem Passes.stores (hp : Passes path disk disk') (h : disk.Stores path dir name es) :
    (∃ touched, disk'.Alters disk touched) ∧
      ∃ es', Compaction.Outcome es es' ∧ disk'.Stores path dir name es' := by
  cases hp with
  | @get site d other _ hd _ hs =>
    subst hd
    have ha := hs.alters h.tidy h.leads
    refine ⟨⟨_, ha⟩, ?_⟩
    by_cases e : name = other
    · subst e
      exact hs.stores h
    · exact ⟨es, .refl es, h.of_alters ha (TableDirectory.journalPlace_not_mem e dir)⟩
  | acquire _ sync =>
    have ha := h.leads.alters_acquire h.tidy sync
    refine ⟨⟨_, ha⟩, es, .refl es, h.of_alters ha ?_⟩
    rw [List.mem_singleton]
    exact TableDirectory.journalPlace_ne_lockPlace dir name
  | unlock _ file =>
    have ha := Disk.alters_unlock h.tidy file []
    exact ⟨⟨_, ha⟩, es, .refl es, h.of_alters ha List.not_mem_nil⟩

theorem stores_of_passes (hp : Relation.ReflTransGen (Passes path) disk disk')
    (h : disk.Stores path dir name es) :
    (∃ touched, disk'.Alters disk touched) ∧
      ∃ es', Compaction.Outcome es es' ∧ disk'.Stores path dir name es' := by
  induction hp with
  | refl => exact ⟨⟨[], .refl h.tidy _⟩, es, .refl es, h⟩
  | tail _ hp ih =>
    obtain ⟨⟨touched, ha⟩, es', ho, hs⟩ := ih
    obtain ⟨⟨more, ha'⟩, es'', ho', hs'⟩ := hp.stores hs
    refine ⟨⟨touched ++ more, ?_⟩, es'', ho.trans ho', hs'⟩
    exact (ha'.mono (List.subset_append_right _ _)).trans (ha.mono (List.subset_append_left _ _))

/-! ## The main result -/

/-- Does the log of the table open, with these rows and so many frames? -/
def Opens (site : Site) (d : TableDirectory) (name : String)
    (rows : Std.ExtTreeMap Bytes (List Version)) (frames : Nat) : Prop :=
  ∀ sync, ∃ t n left, load site (d.journalPath name) name sync = (.ok (t, n), left) ∧
    t.rows = rows ∧ t.frames = frames

theorem opens_of_stores (h : site.disk.Stores d.path dir name es) :
    Opens site d name (Table.baseRows (Table.rowsOf (survivors es))) es.length := by
  intro sync
  obtain ⟨t, n, left, hl, ht, -⟩ := exists_load_of_stores h sync
  exact ⟨t, n, left, hl, ht.rows, ht.frames⟩

/-- What a source does that is asked for a table it did not give out yet, whose log opens with the
rows of `t`. -/
structure Survives (s : Source) (site : Site) (d : TableDirectory) (name : String) (t : Table) :
    Prop where
  /-- The rows are replayed from the bytes of the log. -/
  replays : t.Replays (Scan.ofBytes (site.disk.bytesOf (d.journalPath name))).entries
  /-- The table is given if the log need not be compacted, or can be. -/
  given : (∃ id s' site', s.get site name = (.ok id, s', site')) ↔ Table.isName name = true ∧
    (Compaction.isDue t = true → site.disk.TakesFile (d.freshPath name) ∧
      ∃ frame, t.baseEntry.encode = .ok frame)
  /-- It has the rows, and so has the log that is left, which is one frame if it was compacted. -/
  rows : ∀ id s' site', s.get site name = (.ok id, s', site') →
    (site'.table id).rows = t.rows ∧
      Opens site' d name t.rows (if Compaction.isDue t then 1 else t.frames)
  /-- The call ends where it may also be stopped. -/
  stops : Stops site d name (s.get site name).2.2.disk
  /-- Wherever it is stopped, no file of another table is touched. -/
  others : ∀ disk, Stops site d name disk → ∀ other, other ≠ name →
    disk.SameAt site.disk (d.journalPath other) ∧ disk.SameAt site.disk (d.freshPath other)
  /-- Whatever calls were stopped before, the log opens with the rows, and a source that is asked
  for the table gives them, if the table would have been given at first. -/
  later : ∀ (s₁ : Source) (d₁ : TableDirectory) (site₁ : Site),
    Relation.ReflTransGen (Passes d.path) site.disk site₁.disk →
    s₁.directory = some d₁ → d₁.path = d.path → s₁.tables[name]? = none →
    (∃ frames, Opens site₁ d₁ name t.rows frames) ∧
    (∀ id s' site', s₁.get site₁ name = (.ok id, s', site') → (site'.table id).rows = t.rows) ∧
    ((∃ id s' site', s.get site name = (.ok id, s', site')) →
      ∃ id s' site', s₁.get site₁ name = (.ok id, s', site'))

/-- A table whose log opens keeps its rows when it is asked for, and when such calls are stopped. -/
theorem get_survives_stops (hd : s.directory = some d) (hnew : s.tables[name]? = none)
    (htidy : site.disk.Tidy)
    (hload : load site (d.journalPath name) name d.sync = (.ok (t, n), opened)) :
    s.Survives site d name t := by
  obtain ⟨place, es, hl, hlog⟩ := exists_hasLog_of_load htidy hload
  obtain ⟨dir, hwalk, hdir, rfl⟩ := Disk.exists_walk_of_locate hl
    (TableDirectory.ne_of_getLast? (TableDirectory.getLast?_journalName name) (by decide))
  have hstores : site.disk.Stores d.path dir name es := ⟨htidy, ⟨hwalk, hdir⟩, hl, hlog⟩
  obtain ⟨t₀, n₀, left₀, hload₀, ht, -⟩ := exists_load_of_stores hstores d.sync
  rw [hload] at hload₀
  cases hload₀
  constructor
  case replays =>
    rw [Disk.bytesOf_of_locate hl, hlog.reads.entries]
    exact ht
  case given =>
    rw [exists_get_iff hstores hd hnew, Compaction.isDue_iff ht, Compaction.baseEntry_eq ht]
    rfl
  case rows =>
    intro id s' site' hg
    obtain ⟨hrows, es', ho, hlong, hshort, hstores'⟩ := rows_of_get hstores hd hnew hg
    have hframes : es'.length = if Compaction.isDue t then 1 else t.frames := by
      rw [ht.frames]
      split
      · next hdue => exact hlong ((Compaction.isDue_iff ht).1 hdue)
      · next hdue => rw [hshort fun hs => hdue ((Compaction.isDue_iff ht).2 hs)]
    rw [hrows, ht.rows, ← hframes, ← ho.rowsOf_eq]
    exact ⟨rfl, opens_of_stores hstores'⟩
  case stops => exact stops_get hd hnew site
  case others =>
    intro disk hs other hne
    have ha := hs.alters htidy hstores.leads
    constructor <;> apply ha.sameAt <;> intro place hl
    · rw [TableDirectory.journalPlace_of_locate hstores.leads hl]
      exact TableDirectory.journalPlace_not_mem hne dir
    · rw [TableDirectory.freshPlace_of_locate hstores.leads hl]
      exact TableDirectory.freshPlace_not_mem hne dir
  case later =>
    intro s₁ d₁ site₁ hp hd₁ hpath hnew₁
    obtain ⟨⟨touched, ha⟩, es', ho, hstores₁⟩ := stores_of_passes hp hstores
    rw [← hpath] at hstores₁
    rw [ht.rows, ← ho.rowsOf_eq]
    refine ⟨⟨_, opens_of_stores hstores₁⟩,
      fun id s' site' hg => (rows_of_get hstores₁ hd₁ hnew₁ hg).1, fun hget => ?_⟩
    -- what must be compacted now had to be before, and nothing in its way was made since
    obtain ⟨hname, hcompacts⟩ := (exists_get_iff hstores hd hnew).1 hget
    apply (exists_get_iff hstores₁ hd₁ hnew₁).2
    refine ⟨hname, fun hs => ?_⟩
    obtain rfl := ho.eq_of_isLong hs
    obtain ⟨htakes, hfits⟩ := hcompacts hs
    rw [TableDirectory.freshPath, ← hpath] at htakes
    exact ⟨ha.takesFile_iff.2 htakes, hfits⟩

/-- A commit of one row. -/
def rewriting : Entry := .commit 1 [([7], some [8])]

/-- A log of many commits of one row, and the front of one more. -/
def longLog : Bytes := (List.replicate 64 Journal.writingFrame).flatten ++ [78, 83]

/-- A disk with that log, and something where it is to be compacted. -/
def longDisk : Disk :=
  ((TableDirectory.acquire Disk.empty ["d"] true).2.putFile ["d", "t.tbl"] longLog).putFile
    ["d", "t.tbl.compact"] [1, 2, 3]

/-- The directory of that log. -/
def longDirectory : TableDirectory := ⟨["d"], 0, true⟩

theorem frames_replicate (k : Nat) :
    Frames (List.replicate k rewriting) (List.replicate k Journal.writingFrame).flatten := by
  induction k with
  | zero => exact .nil
  | succ k ih => exact .cons (Entry.parse_encode Journal.encode_writing) ih

theorem stores_longDisk : longDisk.Stores ["d"] ["d"] "t" (List.replicate 64 rewriting) where
  tidy := ((Disk.tidy_empty.acquire _ _).putFile _ _).putFile _ _
  leads := ⟨rfl, by decide +kernel⟩
  journal := rfl
  log := by
    have hat : longDisk.at? (journalPlace ["d"] "t") = some (.file 1) := by decide +kernel
    have hread : longDisk.read 1 = longLog := by decide +kernel
    have hfront : rewriting.HasFront [78, 83] :=
      ⟨Journal.writingFrame, Journal.encode_writing, ⟨_, rfl⟩, by decide⟩
    refine ⟨by simp [hat], ?_⟩
    rw [Disk.bytesAt_of_file hat, hread]
    exact (frames_replicate 64).reads_append_front hfront (by decide)

theorem isLong_replicate : Compaction.IsLong (List.replicate 64 rewriting) :=
  ⟨by decide, by decide +kernel⟩

theorem compacts_longDisk :
    Compacts longDisk longDirectory "t" (List.replicate 64 rewriting) := by
  refine ⟨⟨["d", "t.tbl.compact"], rfl, by decide +kernel⟩, ?_⟩
  have hok : (Compaction.summary (List.replicate 64 rewriting)).encode.isOk = true := by
    decide +kernel
  cases he : (Compaction.summary (List.replicate 64 rewriting)).encode with
  | ok frame => exact ⟨frame, rfl⟩
  | error e =>
    rw [he] at hok
    cases hok

/-- Wherever the call stops that compacts the long log, the next one gives the row. -/
theorem get_survives_stops_of_long_log :
    ∃ t n opened, load ⟨longDisk, #[], #[]⟩ (longDirectory.journalPath "t") "t" true =
        (.ok (t, n), opened) ∧
      Compaction.isDue t = true ∧ t.rows.toList = [([7], [⟨TxId.base, some [8]⟩])] ∧
      ∀ disk, Stops ⟨longDisk, #[], #[]⟩ longDirectory "t" disk →
        ∃ id s' site', get ⟨some longDirectory, ∅, 0⟩ ⟨disk, #[], #[]⟩ "t" = (.ok id, s', site') ∧
          (site'.table id).rows = t.rows := by
  have hname : Table.isName "t" = true := by decide +kernel
  have hstores : (⟨longDisk, #[], #[]⟩ : Site).disk.Stores longDirectory.path ["d"] "t"
      (List.replicate 64 rewriting) := stores_longDisk
  obtain ⟨t, n, opened, hload, ht, -⟩ := exists_load_of_stores hstores true
  have hmain :=
    get_survives_stops (s := ⟨some longDirectory, ∅, 0⟩) rfl rfl hstores.tidy hload
  have hget := (exists_get_iff (s := ⟨some longDirectory, ∅, 0⟩) hstores rfl rfl).2
    ⟨hname, fun _ => compacts_longDisk⟩
  refine ⟨t, n, opened, hload, (Compaction.isDue_iff ht).2 isLong_replicate, ?_,
    fun disk hs => ?_⟩
  · rw [ht.rows]
    decide +kernel
  · obtain ⟨-, hrows, hok⟩ := hmain.later ⟨some longDirectory, ∅, 0⟩ longDirectory
      ⟨disk, #[], #[]⟩ (.single (.get rfl hname hs)) rfl rfl rfl
    obtain ⟨id, s', site', hg⟩ := hok hget
    exact ⟨id, s', site', hg, hrows id s' site' hg⟩

end Source

end NamespaceCatalog
