import NamespaceCatalog.Catalog.Home
import NamespaceCatalog.Proofs.Alone
import NamespaceCatalog.Record.Sample

/-!
# Catalogs that are closed and opened again

A catalog with its home in a directory is asked for operations, and is closed and opened again in
between.  Between two of these the home keeps the records in its table, which was not asked for yet
(`Waits`) or is open (`Serves`).  An operation is answered as by the roster (`Keeps.exists_serve`),
and a home that is opened again keeps the records that it kept before (`Keeps.exists_reopen`).

So from a directory without records on, all answers are those of an empty roster
(`transcript_eq`).
-/

namespace NamespaceCatalog

/-! ## Answers without a transaction, and at the first attempt -/

theorem Roster.serve_of_course_error {op : Operation} {f : Codec} {fault : InputFault}
    (h : op.course f = .error fault) (m : Roster) :
    serve op m = (.error (.validation fault), m) := by
  cases op with
  | create r | update r | get name | delete name => simp only [serve, map_eq_error_iff.1 h]
  | list => cases h

theorem Executor.retry_of_ok {ρ π α : Type} [Participant ρ π] {x : Executor ρ π}
    {stop : Signal × ρ → Bool} {body : Body ρ π α} {w w' : World ρ} {a : α}
    (h : x.attempt body w = (.ok a, w')) (more n : Nat) :
    x.retry stop body more n w = (some (.ok a), w') := by
  unfold retry
  rw [h]

namespace Home

variable {libs : Format → DataFormat} {site left : Site} {path : Path} {c : Config} {q : Places}
  {lock file : FileId} {h : Home} {id : TableId} {rows : Std.ExtTreeMap Bytes Bytes}

/-! ## Homes that keep their rows -/

/-- No transaction runs, the table keeps the rows on the disk, and was not asked for yet. -/
structure Waits (h : Home) (path : Path) (c : Config) (q : Places) (lock : FileId)
    (rows : Std.ExtTreeMap Bytes Bytes) : Prop where
  name : h.extra.cached.name = c.tableName
  directory : h.extra.rest.directory = some ⟨path, lock, c.sync⟩
  slot : h.extra.cached.slot = none
  tables : h.extra.rest.tables[c.tableName]? = none
  idle : h.coordinator.Idle
  disk : h.site.disk.Keeps path c.tableName q lock rows

/-- No transaction runs, and the table is open and keeps the rows. -/
structure Serves (h : Home) (path : Path) (c : Config) (q : Places) (lock : FileId) (id : TableId)
    (file : FileId) (rows : Std.ExtTreeMap Bytes Bytes) : Prop where
  name : h.extra.cached.name = c.tableName
  directory : h.extra.rest.directory = some ⟨path, lock, c.sync⟩
  slot : ∀ p, h.extra.cached.slot = some p → p.1 = id
  tables : h.extra.rest.tables[c.tableName]? = some id
  settled : h.Settled id file rows
  hosts : h.site.disk.Hosts path c.tableName q lock
  journal : h.site.disk.at? q.journal = some (.file file)

/-- The home keeps the rows, whether its table is open or not. -/
def Keeps (h : Home) (path : Path) (c : Config) (q : Places) (lock : FileId)
    (rows : Std.ExtTreeMap Bytes Bytes) : Prop :=
  h.Waits path c q lock rows ∨ ∃ id file, h.Serves path c q lock id file rows

theorem Serves.disk (h' : h.Serves path c q lock id file rows) :
    h.site.disk.Keeps path c.tableName q lock rows := by
  obtain ⟨j, hj, hkeeps⟩ := h'.settled.table.log
  have hbytes := h'.settled.opens.bytes_eq hj
  exact ⟨h'.hosts, .inr ⟨file, h'.journal, hbytes ▸ hkeeps.log⟩⟩

/-! ## The table of a home -/

theorem Waits.exists_table (libs : Format → DataFormat) (h' : h.Waits path c q lock rows)
    (hname : Table.isName c.tableName)
    (hfits : ∃ frame, (Entry.commit TxId.base (Table.writesOf rows)).encode = .ok frame) :
    ∃ id file w, (catalog libs c).table h = (.ok id, w) ∧ w.coordinator = h.coordinator ∧
      Serves w path c q lock id file rows := by
  have hdisk :
      h.site.disk.Keeps (TableDirectory.mk path lock c.sync).path c.tableName q lock rows :=
    h'.disk
  obtain ⟨t, n, file, site, hload, hbacks, hhosts, hfile, hkeeps⟩ :=
    Source.exists_loadCompact hdisk hfits
  obtain ⟨hopens, htable⟩ := hbacks.opens_addTable
  have hsame : (site.addTable t (some n)).2.disk = site.disk := rfl
  rcases hadd : site.addTable t (some n) with ⟨i, opened⟩
  rw [hadd] at hopens htable hsame
  have hcreate : h.extra.rest.create h.site c.tableName = (.ok i, opened) := by
    simp only [Source.create, h'.directory, hload, hadd]
  have hget : h.extra.rest.get h.site c.tableName =
      (.ok i, { h.extra.rest with
        tables := h.extra.rest.tables.insert c.tableName i
        creations := h.extra.rest.creations + 1 }, opened) := by
    simp only [Source.get, hname, Bool.not_true, Bool.false_eq_true, if_false, h'.tables, hcreate]
  have hfresh : h.extra.cached.fresh? h.clock = none := by
    rw [Cached.fresh?, h'.slot]
  refine ⟨i, file, { h with
      site := opened
      extra := {
        cached := { h.extra.cached with slot := some (i, h.clock) }
        rest := { h.extra.rest with
          tables := h.extra.rest.tables.insert c.tableName i
          creations := h.extra.rest.creations + 1 } } }, ?_, rfl, ?_⟩
  · simp only [Catalog.table, Cached.get, hfresh, catalog, fetch, h'.name, hget]
  · refine ⟨h'.name, h'.directory, ?_, ?_, ⟨h'.idle, hopens, ?_⟩, hsame ▸ hhosts, hsame ▸ hfile⟩
    · rintro p hp
      exact (congrArg Prod.fst (Option.some.inj hp)).symm
    · exact Std.ExtTreeMap.getElem?_insert_self
    · show Table.Keeps (opened.table i) h.coordinator.next rows
      rw [htable]
      exact hkeeps.mono h'.idle.next

theorem Serves.exists_table (libs : Format → DataFormat)
    (h' : h.Serves path c q lock id file rows)
    (hname : Table.isName c.tableName) :
    ∃ w, (catalog libs c).table h = (.ok id, w) ∧ w.coordinator = h.coordinator ∧
      Serves w path c q lock id file rows := by
  cases hfresh : h.extra.cached.fresh? h.clock with
  | some i =>
    obtain rfl : i = id := by
      unfold Cached.fresh? at hfresh
      split at hfresh
      · next j time hslot =>
        split at hfresh
        · cases hfresh
          exact h'.slot _ hslot
        · cases hfresh
      · cases hfresh
    refine ⟨h, ?_, rfl, h'⟩
    simp only [Catalog.table, Cached.get, hfresh]
  | none =>
    have hget : h.extra.rest.get h.site c.tableName = (.ok id, h.extra.rest, h.site) := by
      simp only [Source.get, hname, Bool.not_true, Bool.false_eq_true, if_false, h'.tables]
    refine ⟨{ h with extra := { h.extra with
      cached := { h.extra.cached with slot := some (id, h.clock) } } }, ?_, rfl, ?_⟩
    · simp only [Catalog.table, Cached.get, hfresh, catalog, fetch, h'.name, hget]
    · refine ⟨h'.name, h'.directory, ?_, h'.tables, ⟨h'.settled.idle, h'.settled.opens,
        h'.settled.table⟩, h'.hosts, h'.journal⟩
      rintro p hp
      exact (congrArg Prod.fst (Option.some.inj hp)).symm

/-- The table is opened when it is asked for, and stays open. -/
theorem Keeps.exists_table (libs : Format → DataFormat) (h' : h.Keeps path c q lock rows)
    (hname : Table.isName c.tableName)
    (hfits : ∃ frame, (Entry.commit TxId.base (Table.writesOf rows)).encode = .ok frame) :
    ∃ id file w, (catalog libs c).table h = (.ok id, w) ∧ w.coordinator = h.coordinator ∧
      Serves w path c q lock id file rows := by
  rcases h' with h' | ⟨id, file, h'⟩
  · exact h'.exists_table libs hname hfits
  · exact ⟨id, file, h'.exists_table libs hname⟩

/-! ## Operations -/

variable {m : Roster} {op : Operation}

/-- An operation is answered as by the roster, and starts a transaction unless the names in it are
refused. -/
theorem Keeps.exists_serve (h' : h.Keeps path c q lock rows) (hname : Table.isName c.tableName)
    (hm : m.Fills (c.format.codec libs) rows) (hop : op.Readable (c.format.codec libs))
    (hfits : m.Fits (c.format.codec libs))
    (hfits' : (Roster.serve op m).2.Fits (c.format.codec libs))
    (hn : h.coordinator.next < Bytes.bound 8) :
    ∃ w rows', (catalog libs c).serve op h = (some (Roster.serve op m).1, w) ∧
      Keeps w path c q lock rows' ∧
      (Roster.serve op m).2.Fills (c.format.codec libs) rows' ∧
      w.coordinator.next ≤ h.coordinator.next + 2 ∧
      w.coordinator.stats.started =
        h.coordinator.stats.started + if (Roster.serve op m).1.isOk then 1 else 0 := by
  have hserve := (catalog libs c).serve_eq_run op h
  cases hc : op.course (c.format.codec libs) with
  | error fault =>
    have hroster := Roster.serve_of_course_error hc m
    refine ⟨h, rows, ?_, h', ?_, Nat.le_add_right _ _, ?_⟩
    · rw [hroster, hserve, show (catalog libs c).codec = c.format.codec libs from rfl, hc]
    · rwa [hroster]
    · rw [hroster]
      rfl
  | ok course =>
    obtain ⟨id, file, w, htable, hcoordinator, hw⟩ :=
      h'.exists_table libs hname (hm.writesOf_eq ▸ hfits)
    have hbind : (catalog libs c).executor.bind h = (.ok [Overlay.ofTable id], w) := by
      simp only [Catalog.executor, htable]
      rfl
    obtain ⟨outcome, w', hattempt, hanswer, hsettled, hnext, hstarted, hextra, hnodes⟩ :=
      hw.settled.exists_attempt hbind hm.stored hop hc fun write hwrite =>
        hm.fits_write? hop hc hfits hfits' hwrite (hcoordinator ▸ hn)
    rw [hcoordinator] at hnext hstarted
    have hat : ∀ place, w'.site.disk.at? place = w.site.disk.at? place := fun place => by
      rw [Disk.at?, Disk.at?, hnodes]
    refine ⟨w', _, ?_, .inr ⟨id, file, ?_⟩, hm.serve hop hc, Nat.le_of_eq hnext, ?_⟩
    · rw [hanswer, hserve, show (catalog libs c).codec = c.format.codec libs from rfl, hc]
      exact Executor.retry_of_ok hattempt _ _
    · exact ⟨hextra ▸ hw.name, hextra ▸ hw.directory, hextra ▸ hw.slot, hextra ▸ hw.tables,
        hsettled, hw.hosts.of_nodes_eq hnodes, (hat _).trans hw.journal⟩
    · rw [hanswer, hstarted]
      rfl

/-! ## Opening -/

theorem waits_new (hd : site.disk.Keeps path c.tableName q lock rows) :
    Waits (World.new site (Catalog.backing c ⟨some ⟨path, lock, c.sync⟩, ∅, 0⟩)) path c q lock
      rows :=
  ⟨rfl, rfl, rfl, Std.ExtTreeMap.getElem?_empty, Coordinator.idle_new, hd⟩

/-- A home that is closed and opened again keeps its rows. -/
theorem Keeps.exists_reopen (h' : h.Keeps path c q lock rows) :
    ∃ w left, openAt h.close path c = (.ok w, left) ∧ Keeps w path c q lock rows ∧
      w.coordinator = Coordinator.new := by
  obtain ⟨hdirectory, hdisk⟩ : h.extra.rest.directory = some ⟨path, lock, c.sync⟩ ∧
      h.site.disk.Keeps path c.tableName q lock rows := by
    rcases h' with h' | ⟨id, file, h'⟩
    · exact ⟨h'.directory, h'.disk⟩
    · exact ⟨h'.directory, h'.disk⟩
  let d : Disk := h.site.disk.unlock lock
  have hhosts : d.Hosts path c.tableName q lock := hdisk.hosts.of_nodes_eq rfl
  have hlock : d.lock? lock = some { d with locks := d.locks.insert lock } := by
    have hfree : d.locks.contains lock = false := by simp [d, Disk.unlock]
    rw [Disk.lock?, hfree]
    rfl
  have hacquire : TableDirectory.acquire d path c.sync =
      (.ok ⟨path, lock, c.sync⟩, { d with locks := d.locks.insert lock }) := by
    simp only [TableDirectory.acquire, Disk.createDirs_of_stands hhosts.stands,
      Disk.openFile_of_file hhosts.lockPath hhosts.lockFile, hlock]
  have hclose : h.close = { h.site with disk := d } := by
    simp only [close, Source.close, hdirectory, d]
  let left : Site := { h.site with disk := { d with locks := d.locks.insert lock } }
  have hopen : openAt h.close path c =
      (.ok (World.new left (Catalog.backing c ⟨some ⟨path, lock, c.sync⟩, ∅, 0⟩)), left) := by
    rw [openAt, hclose, Source.inDirectory, hacquire]
  exact ⟨_, left, hopen, .inl (waits_new ⟨hdisk.hosts.of_nodes_eq rfl, hdisk.log⟩), rfl⟩

/-- A home in a directory where the table has no journal yet keeps no rows. -/
theorem exists_keeps_of_openAt (ho : openAt site path c = (.ok h, left))
    (hjournal : h.site.disk.TakesFile (path ++ [TableDirectory.journalName c.tableName]))
    (hnew : h.site.disk.node? (path ++ [TableDirectory.journalName c.tableName]) = none)
    (hfresh : h.site.disk.TakesFile (path ++ [TableDirectory.freshName c.tableName])) :
    h.coordinator = Coordinator.new ∧ ∃ q lock, h.Keeps path c q lock ∅ := by
  unfold openAt Source.inDirectory TableDirectory.acquire at ho
  rcases hdirs : site.disk.createDirs path with ⟨_ | _, d₁⟩
  · simp [hdirs] at ho
  · obtain ⟨-, hstands⟩ := Disk.createDirs_ok hdirs
    cases hopen : d₁.openFile (path ++ [TableDirectory.lockName]) with
    | error fault => simp [hdirs, hopen] at ho
    | ok r =>
      obtain ⟨lock, d₂⟩ := r
      obtain ⟨place, hl, hd, hfile⟩ := Disk.openFile_ok hopen
      cases hlock : d₂.lock? lock with
      | none => simp [hdirs, hopen, hlock] at ho
      | some d =>
        obtain ⟨rfl, -⟩ : World.new { site with disk := d }
            (Catalog.backing c ⟨some ⟨path, lock, c.sync⟩, ∅, 0⟩) = h ∧ _ = left := by
          simpa [hdirs, hopen, hlock] using ho
        obtain rfl : { d₂ with locks := d₂.locks.insert lock } = d := by
          unfold Disk.lock? at hlock
          split at hlock
          · cases hlock
          · exact Option.some.inj hlock
        have hext : Disk.Extends { d₂ with locks := d₂.locks.insert lock } d₁ := hd.extends
        obtain ⟨jplace, hjl, hjp⟩ := hjournal
        obtain ⟨fplace, hfl, hfp⟩ := hfresh
        rw [Disk.node?, hjl] at hnew
        have hll := hext.locate hl
        refine ⟨rfl, ⟨place, jplace, fplace⟩, lock, .inl (waits_new ⟨⟨hext.stands hstands, hll, hjl,
          hfl, ⟨?_, ?_, ?_⟩, hfile, hjp, hfp⟩, .inl ⟨hnew, rfl⟩⟩)⟩
        · exact TableDirectory.place_ne hll hjl TableDirectory.getLast?_lockName
            (TableDirectory.getLast?_journalName _) (by decide) (by decide) (by decide)
        · exact TableDirectory.place_ne hll hfl TableDirectory.getLast?_lockName
            (TableDirectory.getLast?_freshName _) (by decide) (by decide) (by decide)
        · exact TableDirectory.place_ne hjl hfl (TableDirectory.getLast?_journalName _)
            (TableDirectory.getLast?_freshName _) (by decide) (by decide) (by decide)

/-! ## Transcripts -/

/-- What happens to a home in a directory. -/
inductive Visit
  | serve (op : Operation)
  /-- It is closed, and opened again. -/
  | reopen
  deriving DecidableEq, Repr

/-- The operations among visits. -/
def operations (vs : List Visit) : List Operation :=
  vs.filterMap fun
    | .serve op => some op
    | .reopen => none

/-- The answers to the operations among visits, and how many transactions each of them started. -/
def transcript (libs : Format → DataFormat) (path : Path) (c : Config) :
    List Visit → Home → Except Error (List (Option (Except Error Outcome) × Nat))
  | [], _ => .ok []
  | .serve op :: vs, h =>
    let (answer, w) := (catalog libs c).serve op h
    let started := w.coordinator.stats.started - h.coordinator.stats.started
    (transcript libs path c vs w).map ((answer, started) :: ·)
  | .reopen :: vs, h =>
    match openAt h.close path c with
    | (.error e, _) => .error e
    | (.ok w, _) => transcript libs path c vs w

/-- The answers of a roster to operations.  Those that are not refused take one transaction. -/
def expected (ops : List Operation) (m : Roster) : List (Option (Except Error Outcome) × Nat) :=
  (Roster.answers ops m).map fun answer => (some answer, if answer.isOk then 1 else 0)

/-- A home that keeps the records of a roster answers as the roster does. -/
theorem Keeps.transcript_of_fills {vs : List Visit} (h' : h.Keeps path c q lock rows)
    (hname : Table.isName c.tableName) (hm : m.Fills (c.format.codec libs) rows)
    (hop : ∀ op ∈ operations vs, op.Readable (c.format.codec libs))
    (hfits : ∀ ops, ops <+: operations vs → (Roster.after ops m).Fits (c.format.codec libs))
    (hnow : ∀ ops : List Operation, ops.map .serve <+: vs →
      h.coordinator.next + 2 * ops.length ≤ Bytes.bound 8 + 1)
    (hlater : ∀ ops : List Operation, ops.map .serve <:+: vs → 2 * ops.length ≤ Bytes.bound 8) :
    transcript libs path c vs h = .ok (expected (operations vs) m) := by
  induction vs generalizing h rows m with
  | nil => rfl
  | cons v vs ih =>
    have hlater' :
        ∀ ops : List Operation, ops.map .serve <:+: vs → 2 * ops.length ≤ Bytes.bound 8 :=
      fun ops hops => hlater ops (hops.trans (List.suffix_cons v vs).isInfix)
    cases v with
    | serve op =>
      have hone := hnow [op] (List.cons_prefix_cons.2 ⟨rfl, List.nil_prefix⟩)
      have hnext : h.coordinator.next < Bytes.bound 8 := by
        simp only [List.length_singleton] at hone
        omega
      obtain ⟨w, rows', hserve, hkeeps, hm', hle, hstarted⟩ := h'.exists_serve hname hm
        (hop op List.mem_cons_self) (hfits [] List.nil_prefix)
        (hfits [op] (List.cons_prefix_cons.2 ⟨rfl, List.nil_prefix⟩)) hnext
      have hrest := ih hkeeps hm' (fun op' hop' => hop op' (List.mem_cons_of_mem op hop'))
        (fun ops hops => hfits (op :: ops) (List.cons_prefix_cons.2 ⟨rfl, hops⟩))
        (fun ops hops => ?_) hlater'
      · rw [transcript]
        simp only [hserve, hrest, hstarted, Nat.add_sub_cancel_left]
        rfl
      · have hmore := hnow (op :: ops) (List.cons_prefix_cons.2 ⟨rfl, hops⟩)
        rw [List.length_cons] at hmore
        omega
    | reopen =>
      obtain ⟨w, left, hopen, hkeeps, hnew⟩ := h'.exists_reopen
      rw [transcript, hopen]
      refine ih hkeeps hm hop hfits (fun ops hops => ?_) hlater'
      have hmore := hlater' ops hops.isInfix
      rw [hnew, show Coordinator.new.next = 1 from rfl]
      omega

/-- Take a home in a directory where the table has no journal yet and files can be put, and let it
be asked for operations, and be closed and opened again, in any order.  All answers are those of an
empty roster, and an operation whose name is refused starts no transaction.  The records have to be
readable, all that are there at a time have to fit one frame, and the numbers of transactions
between two openings have to fit their field. -/
theorem transcript_eq {vs : List Visit} (hname : Table.isName c.tableName)
    (ho : openAt site path c = (.ok h, left))
    (hjournal : h.site.disk.TakesFile (path ++ [TableDirectory.journalName c.tableName]))
    (hnew : h.site.disk.node? (path ++ [TableDirectory.journalName c.tableName]) = none)
    (hfresh : h.site.disk.TakesFile (path ++ [TableDirectory.freshName c.tableName]))
    (hop : ∀ op ∈ operations vs, op.Readable (c.format.codec libs))
    (hfits : ∀ ops, ops <+: operations vs → (Roster.after ops ∅).Fits (c.format.codec libs))
    (hnumbers : ∀ ops : List Operation, ops.map .serve <:+: vs → 2 * ops.length ≤ Bytes.bound 8) :
    transcript libs path c vs h = .ok (expected (operations vs) ∅) := by
  obtain ⟨hcoordinator, q, lock, hkeeps⟩ := exists_keeps_of_openAt ho hjournal hnew hfresh
  refine hkeeps.transcript_of_fills hname (Roster.fills_empty (c.format.codec libs)) hop hfits
    (fun ops hops => ?_) hnumbers
  have hmore := hnumbers ops hops.isInfix
  rw [hcoordinator, show Coordinator.new.next = 1 from rfl]
  omega

/-- A record is there after two reopenings, and an empty name is refused without a transaction. -/
theorem transcript_eq_across_reopenings :
    ∃ h left, openAt Site.empty ["d"] .standard = (.ok h, left) ∧
      transcript Sample.libraries ["d"] .standard [.serve (.create (.ofName "a")), .reopen,
          .serve (.get "a"), .serve (.delete ""), .reopen, .serve .list] h =
        .ok [(some (.ok (.record none)), 1), (some (.ok (.record (some (.ofName "a")))), 1),
          (some (.error (.validation .emptyName)), 0),
          (some (.ok (.records [.ofName "a"])), 1)] := by
  have ho : openAt Site.empty ["d"] .standard = (.ok _, _) := rfl
  have hname : Table.isName Config.standard.tableName := by decide +kernel
  refine ⟨_, _, ho, (transcript_eq hname ho
    ⟨["d", "namespaces.tbl"], rfl, by decide +kernel⟩ (by decide +kernel)
    ⟨["d", "namespaces.tbl.compact"], rfl, by decide +kernel⟩ (fun op hop => ?_)
    (fun ops hops => ?_) fun ops hops => ?_).trans rfl⟩
  · rcases List.mem_cons.1 hop with rfl | hop
    · show Format.json.sampleCodec.RoundTrips (.ofName "a")
      decide +kernel
    · have hread : ∀ op ∈ [Operation.get "a", .delete "", .list],
          op.Readable Format.json.sampleCodec := by
        simp [Operation.Readable]
      exact hread op hop
  · have hops : ops <+: [.create (.ofName "a"), .get "a", .delete "", .list] := hops
    simp only [List.prefix_cons_iff, List.prefix_nil] at hops
    obtain rfl | ⟨-, rfl, rfl | ⟨-, rfl, rfl | ⟨-, rfl, rfl | ⟨-, rfl, rfl⟩⟩⟩⟩ := hops
    all_goals exact ⟨_, rfl⟩
  · have hlen := hops.length_le
    rw [List.length_map] at hlen
    exact Nat.le_trans (Nat.mul_le_mul_left 2 hlen) (by decide)

end Home

end NamespaceCatalog
