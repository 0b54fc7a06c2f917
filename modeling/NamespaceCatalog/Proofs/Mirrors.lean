import NamespaceCatalog.Proofs.Sessions

/-!
# The log mirrors the table

A table in memory and its log say the same at every moment, if flushes do not fail and whoever gives
up has undone what he installed: once the rollbacks that wait are written, the log gives each row
the value of its newest version (`log_mirrors_table`).

`Version.ofCommits` are the versions of a row that commits make, and `Mirrors` says that they read
like those in the table for whoever sees all that is settled.  That is more than is asked for: it
also says what will be read when what runs is undone.
-/

namespace NamespaceCatalog

/-! ## Versions that commits make -/

namespace Version

variable {p : TxId → Bool} {vs ws ws' : List Version}

/-- The versions of a row that commits make, the latest first. -/
def ofCommits (cs : List (TxId × List RowWrite)) (key : Bytes) : List Version :=
  cs.flatMap fun c => (c.2.filter (·.1 = key)).reverse.map fun w => ⟨c.1, w.2⟩

theorem ofCommits_cons (c : TxId × List RowWrite) (cs : List (TxId × List RowWrite)) (key : Bytes) :
    ofCommits (c :: cs) key =
      ((c.2.filter (·.1 = key)).reverse.map fun w => ⟨c.1, w.2⟩) ++ ofCommits cs key :=
  List.flatMap_cons

theorem ofCommits_append (cs cs' : List (TxId × List RowWrite)) (key : Bytes) :
    ofCommits (cs ++ cs') key = ofCommits cs key ++ ofCommits cs' key :=
  List.flatMap_append

theorem exists_of_mem_ofCommits {cs : List (TxId × List RowWrite)} {key : Bytes} {v : Version}
    (h : v ∈ ofCommits cs key) : ∃ c ∈ cs, c.1 = v.writer := by
  obtain ⟨c, hc, hv⟩ := List.mem_flatMap.1 h
  obtain ⟨w, -, rfl⟩ := List.mem_map.1 hv
  exact ⟨c, hc, rfl⟩

theorem ofCommits_filter (cs : List (TxId × List RowWrite)) (i : TxId) (key : Bytes) :
    ofCommits (cs.filter (·.1 ≠ i)) key = (ofCommits cs key).filter (·.writer ≠ i) := by
  induction cs with
  | nil => rfl
  | cons c cs ih =>
    rw [ofCommits_cons, List.filter_append, ← ih, List.filter_map]
    by_cases e : c.1 = i
    · rw [List.filter_cons_of_neg (by simpa using e)]
      simp [Function.comp_def, e]
    · rw [List.filter_cons_of_pos (by simpa using e), ofCommits_cons]
      simp [Function.comp_def, e]

theorem newest_append_congr (h : newest p ws = newest p ws') :
    newest p (vs ++ ws) = newest p (vs ++ ws') := by
  induction vs with
  | nil => exact h
  | cons v vs ih => rw [List.cons_append, List.cons_append, newest_cons, newest_cons, ih]

/-- Who does not see some versions reads as if they were not there. -/
theorem newest_filter_writer (f : TxId → Bool) (vs : List Version) :
    newest p (vs.filter fun v => f v.writer) = newest (fun w => f w && p w) vs := by
  induction vs with
  | nil => rfl
  | cons v vs ih =>
    rw [newest_cons, ← ih]
    cases hf : f v.writer with
    | true => simp [hf, newest_cons]
    | false => simp [hf]

theorem newest_true (vs : List Version) : newest (fun _ => true) vs = vs.head?.bind (·.value) := by
  cases vs <;> rfl

/-- Who sees everything reads what the commits leave, one after the other. -/
theorem newest_ofCommits (cs : List (TxId × List RowWrite)) (key : Bytes) :
    newest (fun _ => true) (ofCommits cs key) = (Table.rowsOf (cs.reverse.map (·.2)))[key]? := by
  induction cs with
  | nil => simp [ofCommits, Table.rowsOf]
  | cons c cs ih =>
    have hrows : Table.rowsOf ((c :: cs).reverse.map (·.2)) =
        c.2.foldl Table.applyWrite (Table.rowsOf (cs.reverse.map (·.2))) := by
      simp [Table.rowsOf]
    rw [hrows, Table.getElem?_foldl_applyWrite, ← ih, ofCommits_cons,
      List.getLast?_eq_head?_reverse]
    cases (c.2.filter (·.1 = key)).reverse with
    | nil => rfl
    | cons w ws => rfl

end Version

/-! ## Flushes that do not fail -/

/-- Does no flush of the stream fail? -/
def Stream.Flushes (s : Stream) : Prop := ∀ n, (s.faults n).flush = false

theorem Journal.not_leavesStray {j : Journal} {e : Entry} (hf : j.stream.Flushes) :
    ¬j.LeavesStray e := by
  rintro ⟨frame, offset, s, -, hs, -, hflush⟩
  have hfaults := Stream.faults_append j.stream frame
  rw [hs] at hfaults
  rw [Stream.now, hfaults, hf] at hflush
  cases hflush

/-- If no flush fails, an append that fails writes nothing. -/
theorem Journal.bytes_append_of_error {j j' : Journal} {e : Entry} {fault : Error}
    (hw : j.stream.Whole) (hf : j.stream.Flushes) (ha : j.append e = (.error fault, j')) :
    j'.stream.bytes = j.stream.bytes := by
  rcases of_append_error hw ha with ⟨hstray, -⟩ | ⟨-, hb⟩
  · exact absurd hstray (not_leavesStray hf)
  · exact hb

namespace LogWriter

variable {j : Journal} {w w' : LogWriter} {e : Entry}

theorem faults_writeRollbacks (j : Journal) (ids : List TxId) :
    (writeRollbacks j ids).2.journal.stream.faults = j.stream.faults :=
  writeRollbacks_induction (P := fun s => s.faults = j.stream.faults)
    (fun j' e h => (j'.faults_append e).trans h) rfl ids

theorem faults_append (w : LogWriter) (e : Entry) :
    (w.append e).2.journal.stream.faults = w.journal.stream.faults :=
  append_induction (P := fun s => s.faults = w.journal.stream.faults)
    (fun j e h => (j.faults_append e).trans h) rfl e

theorem not_leavesStray (hf : w.journal.stream.Flushes) : ¬w.LeavesStray e := by
  rintro ⟨v, hv, hs⟩
  have hfaults := faults_writeRollbacks w.journal w.unwritten
  rw [hv] at hfaults
  refine Journal.not_leavesStray (fun n => ?_) hs
  rw [hfaults]
  exact hf n

theorem leavesRollback_eq_false (hw : j.stream.Whole) (hf : j.stream.Flushes) (ids : List TxId) :
    leavesRollback j ids = false := by
  induction ids generalizing j with
  | nil => rfl
  | cons tx ids ih =>
    unfold leavesRollback
    cases ha : j.append (.rollback tx) with
    | mk r j' =>
      have hfaults := Journal.faults_of_append ha
      cases r with
      | error fault =>
        simpa using Journal.bytes_append_of_error hw hf ha
      | ok offset =>
        refine ih (fun n => ?_) fun n => ?_
        · rw [hfaults]
          exact hw n
        · rw [hfaults]
          exact hf n

theorem exists_encode_of_append_ok (ha : w.append e = (.ok (), w')) :
    ∃ frame, e.encode = .ok frame := by
  obtain ⟨v, offset, j, -, hj, -⟩ := of_append_ok ha
  obtain ⟨frame, hframe, -⟩ := Journal.bytes_append_of_ok hj
  exact ⟨frame, hframe⟩

end LogWriter

/-! ## Scenes -/

namespace Scene

variable {s d : Scene} {e : Event} {i : TxId} {t : TableId} {tr : Trace}
  {live : List (TxId × List RowWrite)}

/-- Has everyone who gave up undone what he had installed at the table? -/
def Trace.Undoes (tr : Trace) (t : TableId) : Prop :=
  ∀ s i, (s, .invalidate i) ∈ tr → ∀ a, s.actors i = some a → (a.overlays t).installed = false

/-- Does whoever sees all that is settled read the rows of the table as the commits `live` leave
them? -/
structure Mirrors (s : Scene) (t : TableId) (live : List (TxId × List RowWrite)) : Prop where
  writers : ∀ key, ∀ v ∈ (s.tables t).versions key, (v.writer : Nat) ∉ s.coordinator.invalid
  values : ∀ p : TxId → Bool, (∀ w : Nat, w ∉ s.coordinator.inProgress → p w = true) → ∀ key,
    Version.newest p ((s.tables t).versions key) =
      Version.newest p
        (Version.ofCommits live key ++ (Table.baseRows (s.base t)).getD key [])

/-- Nobody becomes invalid but who gives up. -/
theorem Inv.invalid_of_step (h : Inv s) (hd : Step s e d) {w : Nat}
    (hw : w ∈ d.coordinator.invalid) : w ∈ s.coordinator.invalid ∨ e = .invalidate w := by
  cases hd with
  | begin | start | perform | install | failInstall | post | fail | rollback | takeHorizon
  | prune =>
    exact .inl hw
  | reserve ha hp hr =>
    refine .inl ?_
    have hw : w ∈ (s.chronicle.serve _).coordinator.invalid := hw
    rwa [Chronicle.serve_reserve_of_ok hr] at hw
  | refuse ha hp hr =>
    refine .inl ?_
    obtain ⟨stats, hask⟩ := Chronicle.serve_reserve_of_error hr
    have hw : w ∈ (s.chronicle.serve _).coordinator.invalid := hw
    rwa [hask] at hw
  | commit ha hp hall hc =>
    refine .inl ?_
    obtain ⟨stats, hask⟩ := Chronicle.serve_commit_of_ok hc
    have hw : w ∈ (s.chronicle.serve _).coordinator.invalid := hw
    rw [hask] at hw
    dsimp only at hw
    rwa [Coordinator.invalid_finish] at hw
  | abort ha hp hall hc =>
    refine .inl ?_
    obtain ⟨stats, hask⟩ := Chronicle.serve_abort_of_ok hc
    have hw : w ∈ (s.chronicle.serve _).coordinator.invalid := hw
    rw [hask] at hw
    dsimp only at hw
    rwa [Coordinator.invalid_finish] at hw
  | @invalidate j a ha hp =>
    have hw : w ∈ (s.coordinator.invalidate a.tx).2.invalid := hw
    have hinvalid : (s.coordinator.invalidate a.tx).2.invalid =
        s.coordinator.invalid.insert a.tx.id := Coordinator.invalid_finish _ _
    rw [hinvalid, (h.fits j a ha (by simp [hp])).id] at hw
    refine (Std.ExtTreeSet.mem_insert.1 hw).symm.imp_right fun e => ?_
    rw [Nat.compare_eq_eq.1 e]
  | forget => exact .inl (Coordinator.mem_eraseMany.1 hw).1

/-- An event that concerns the table in no way leaves it as it is, or prunes it. -/
theorem table_of_step (hd : Step s e d) (hq : ∀ i, ¬e.ActsAt i t) :
    d.tables t = s.tables t ∨ ∃ g ∈ s.horizons, d.tables t = ((s.tables t).prune g).2 := by
  have elsewhere : ∀ {u : TableId} {table : Table}, t ≠ u →
      Function.update s.tables u table t = s.tables t := fun hne => Function.update_of_ne hne ..
  cases hd with
  | @install j a u x table ha =>
    refine .inl (elsewhere ?_)
    rintro rfl
    exact hq j (.inl rfl)
  | @failInstall j a u err x table ha =>
    refine .inl (elsewhere ?_)
    rintro rfl
    exact hq j (.inr (.inl rfl))
  | @rollback j a u x table ha =>
    refine .inl (elsewhere ?_)
    rintro rfl
    exact hq j (.inr (.inr rfl))
  | @prune g hg u =>
    by_cases e : t = u
    · subst e
      exact .inr ⟨g, hg, Function.update_self ..⟩
    · exact .inl (elsewhere e)
  | _ => exact .inl rfl

namespace Mirrors

/-- The coordinator may go on, if the versions stay or are pruned. -/
theorem advance (h : s.Mirrors t live) (hs : Inv s)
    (hborn : ∀ c ∈ live, (c.1 : Nat) < s.coordinator.next)
    (adv : s.chronicle.Advances d.chronicle) (hbase : d.base = s.base)
    (hsub : ∀ key, ∀ v ∈ (d.tables t).versions key, v ∈ (s.tables t).versions key)
    (hinvalid : ∀ key, ∀ v ∈ (s.tables t).versions key,
      (v.writer : Nat) ∉ d.coordinator.invalid)
    (hvalues : ∀ p : TxId → Bool, (∀ w : Nat, w ∉ s.coordinator.inProgress → p w = true) → ∀ key,
      Version.newest p ((d.tables t).versions key) =
        Version.newest p ((s.tables t).versions key)) : d.Mirrors t live where
  writers key v hv := hinvalid key v (hsub key v hv)
  values p hp key := by
    -- who begins now has written nothing yet, so it does not matter whether he is seen
    let q : TxId → Bool := fun w => p w || decide (s.coordinator.next ≤ w)
    have hq : ∀ w : Nat, w ∉ s.coordinator.inProgress → q w = true := by
      intro w hw
      by_cases hn : s.coordinator.next ≤ w
      · simp [q, hn]
      · have hw' : w ∉ d.coordinator.inProgress := fun hm =>
          (adv.running w hm).elim hw hn
        simp [q, hp w hw']
    have old : ∀ w : Nat, w < s.coordinator.next → p w = q w := by
      intro w hw
      simp [q, Nat.not_le.2 hw]
    have hknown : ∀ v ∈ (s.tables t).versions key, (v.writer : Nat) < s.coordinator.next := by
      intro v hv
      rcases hs.writers t key v hv with e | ⟨k, hk, e⟩ | hr | hi
      · exact e ▸ hs.chronicle.next_pos
      · obtain ⟨-, hlt, hlt'⟩ := hs.chronicle.numbers k hk
        exact e ▸ Nat.lt_trans hlt hlt'
      · exact (hs.chronicle.running _ hr).2
      · exact (hs.invalid _ hi).2.1
    rw [Version.newest_congr (q := q) fun v hv => old v.writer (hknown v (hsub key v hv)),
      hvalues q hq, h.values q hq, hbase]
    refine Version.newest_congr fun v hv => (old v.writer ?_).symm
    rcases List.mem_append.1 hv with hv | hv
    · obtain ⟨c, hc, e⟩ := Version.exists_of_mem_ofCommits hv
      exact e ▸ hborn c hc
    · rw [Table.writer_of_mem_baseRows hv]
      exact hs.chronicle.next_pos

/-- Whoever sees all that is settled reads the same after a prune. -/
theorem newest_prune (h : s.Mirrors t live) (hs : Inv s) {g : Horizon} (hg : g ∈ s.horizons)
    {p : TxId → Bool} (hp : ∀ w : Nat, w ∉ s.coordinator.inProgress → p w = true) (key : Bytes) :
    Version.newest p (((s.tables t).prune g).2.versions key) =
      Version.newest p ((s.tables t).versions key) := by
  rw [Table.versions_prune]
  split
  · refine Version.newest_prune (fun v hv hsettled => ?_) fun v hv hdead => ?_
    · refine hp v.writer fun hr => ?_
      rcases (hs.horizons g hg).settled v.writer hsettled with e | ⟨hrun, -⟩
      · exact Nat.ne_of_gt (hs.chronicle.running _ hr).1 e
      · exact hrun hr
    · obtain ⟨hpos, -, hrun, hcommits⟩ := (hs.horizons g hg).dead v.writer hdead
      rcases hs.writers t key v hv with e | ⟨k, hk, e⟩ | hr | hi
      · exact absurd e (Nat.ne_of_gt hpos)
      · exact absurd e (hcommits k hk)
      · exact absurd hr hrun
      · exact absurd hi (h.writers key v hv)
  · rfl

theorem follow (h : s.Mirrors t live) (hs : Inv s)
    (hborn : ∀ c ∈ live, (c.1 : Nat) < s.coordinator.next) (hd : Step s e d)
    (hq : ∀ i, ¬e.ActsAt i t)
    (ho : ∀ i, e = .invalidate i → ∀ a, s.actors i = some a → (a.overlays t).installed = false) :
    d.Mirrors t live := by
  obtain ⟨adv, hbase, -⟩ := hs.advances hd
  have hinvalid : ∀ key, ∀ v ∈ (s.tables t).versions key,
      (v.writer : Nat) ∉ d.coordinator.invalid := by
    intro key v hv hi
    rcases hs.invalid_of_step hd hi with hi | rfl
    · exact h.writers key v hv hi
    · obtain ⟨a, ha, hp⟩ : ∃ a, s.actors v.writer = some a ∧ a.progress = .failing := by
        cases hd with
        | invalidate ha hp => exact ⟨_, ha, hp⟩
      obtain ⟨others, hothers, hne⟩ := (hs.fits _ a ha (by simp [hp])).own t key
      rw [hothers, Actor.own_eq_nil (ho _ rfl a ha)] at hv
      exact hne v hv rfl
  rcases table_of_step hd hq with htable | ⟨g, hg, htable⟩
  · exact h.advance hs hborn adv hbase (fun _ _ hv => htable ▸ hv) hinvalid
      fun _ _ _ => by rw [htable]
  · refine h.advance hs hborn adv hbase (fun key v hv => ?_) hinvalid fun p hp key => ?_
    · rw [htable, Table.versions_prune] at hv
      split at hv
      · exact (Version.prune_sublist g _).subset hv
      · exact hv
    · rw [htable]
      exact h.newest_prune hs hg hp key

variable {a b : Actor} {x : Overlay} {table : Table}

/-- What an actor installs is in front, in the table and among the commits. -/
theorem install (h : s.Mirrors t live) (hs : Inv s) (ha : s.actors i = some a)
    (hp : a.progress = .reserved) (hx : (a.overlays t).commit (s.tables t) = (.ok (), x, table)) :
    ((s.putTable t table).put i b).Mirrors t ((i, (a.overlays t).buffer.toList) :: live) := by
  have hp' : a.progress ≠ .over := by simp [hp]
  obtain ⟨tx, logged, log, htx, -, rfl⟩ := Overlay.of_commit_ok hx
  have hid : tx.id = i := (hs.fits i a ha hp').id_of_overlay htx
  have hversions : ∀ key, (((s.putTable t { (s.tables t).addVersions tx.id
      (a.overlays t).buffer.toList with log }).put i b).tables t).versions key =
        (((a.overlays t).buffer.toList.filter (·.1 = key)).reverse.map fun w => ⟨i, w.2⟩) ++
          (s.tables t).versions key := by
    intro key
    rw [← hid, ← Table.versions_addVersions, tables_put_putTable]
    rfl
  refine ⟨fun key v hv => ?_, fun p hp key => ?_⟩
  · rw [hversions] at hv
    rcases List.mem_append.1 hv with hv | hv
    · obtain ⟨w, -, rfl⟩ := List.mem_map.1 hv
      exact fun hi => (hs.invalid i hi).2.2.1 ((hs.running i).2 ⟨a, ha, hp'⟩)
    · exact h.writers key v hv
  · rw [hversions, Version.ofCommits_cons, List.append_assoc]
    exact Version.newest_append_congr (h.values p hp key)

/-- When an actor is rolled back, his versions are gone, in the table and among the commits. -/
theorem rollback (h : s.Mirrors t live) (hs : Inv s) (ha : s.actors i = some a)
    (hp : a.progress = .failing) (hi : (a.overlays t).installed = true)
    (hx : (a.overlays t).rollback (s.tables t) = (x, table)) :
    ((s.putTable t table).put i b).Mirrors t (live.filter (·.1 ≠ i)) := by
  have hp' : a.progress ≠ .over := by simp [hp]
  have hrun : i ∈ s.coordinator.inProgress := (hs.running i).2 ⟨a, ha, hp'⟩
  have hversions : ∀ key, (((s.putTable t table).put i b).tables t).versions key =
      ((s.tables t).versions key).filter (·.writer ≠ i) := by
    intro key
    rcases (hs.fits i a ha hp').attached t with ⟨htx, -⟩ | ⟨-, -, hn⟩
    · rw [Overlay.rollback_of_installed htx hi, (hs.fits i a ha hp').id] at hx
      cases hx
      rw [← Table.versions_revert, tables_put_putTable]
    · rw [hi] at hn
      cases hn
  refine ⟨fun key v hv => ?_, fun p hp key => ?_⟩
  · rw [hversions] at hv
    exact h.writers key v (List.mem_filter.1 hv).1
  · have hq : ∀ w : Nat, w ∉ s.coordinator.inProgress → (decide (w ≠ i) && p w) = true := by
      intro w hw
      have hne : w ≠ i := by
        rintro rfl
        exact hw hrun
      simp [hne, hp w hw]
    have hbase : ((Table.baseRows (s.base t)).getD key []).filter (·.writer ≠ i) =
        (Table.baseRows (s.base t)).getD key [] := by
      refine List.filter_eq_self.2 fun v hv => ?_
      rw [Table.writer_of_mem_baseRows hv]
      exact decide_eq_true (Nat.ne_of_lt (hs.chronicle.running i hrun).1)
    rw [hversions, Version.newest_filter_writer (· ≠ i), h.values _ hq,
      ← Version.newest_filter_writer, List.filter_append, ← Version.ofCommits_filter, hbase]
    rfl

/-- A table whose rows stay as they are, and whose other tables may change. -/
theorem of_versions_eq (h : s.Mirrors t live)
    (hversions : table.versions = (s.tables t).versions) :
    ((s.putTable t table).put i b).Mirrors t live := by
  have hversions : ∀ key, (((s.putTable t table).put i b).tables t).versions key =
      (s.tables t).versions key := by
    intro key
    rw [← hversions, tables_put_putTable]
  refine ⟨fun key v hv => ?_, fun p hp key => ?_⟩
  · rw [hversions] at hv
    exact h.writers key v hv
  · rw [hversions]
    exact h.values p hp key

end Mirrors

/-! ## Runs -/

/-- What holds of a table with a journal after every run in which no flush fails and everything is
undone that is given up.  The commits `before` stood in the log when it was opened. -/
structure Mirrored (s : Scene) (t : TableId) (before : List (TxId × List RowWrite))
    (w : LogWriter) (live : List (TxId × List RowWrite)) : Prop where
  log : (s.tables t).log = some w
  flushes : w.journal.stream.Flushes
  promises : w.Promises (live ++ before)
  ledger : s.Ledger t live w.unwritten
  mirrors : s.Mirrors t live
  /-- The numbers fit in frames. -/
  fits : ∀ i : Nat, i ∈ w.unwritten ∨ i ∈ live.map (·.1) → i < Bytes.bound 8

variable {before : List (TxId × List RowWrite)} {w : LogWriter}

namespace Mirrored

/-- No rollback's frame is left, so nothing that stood before goes. -/
theorem leavesRollback_eq_false (h : s.Mirrored t before w live) (ids : List TxId) :
    LogWriter.leavesRollback w.journal ids = false := by
  obtain ⟨es, hes, -⟩ := h.promises
  exact LogWriter.leavesRollback_eq_false hes.whole h.flushes ids

theorem flushes_append (h : s.Mirrored t before w live) (e : Entry) :
    (w.append e).2.journal.stream.Flushes := by
  intro n
  rw [LogWriter.faults_append]
  exact h.flushes n

variable {a : Actor} {x : Overlay} {table : Table}

theorem install (h : s.Mirrored t before w live) (hs : Inv s) (ha : s.actors i = some a)
    (hp : a.progress = .reserved) (hn : (a.overlays t).installed = false)
    (hx : (a.overlays t).commit (s.tables t) = (.ok (), x, table)) :
    ∃ w' live', ((s.putTable t table).put i (a.put t x)).Mirrored t before w' live' := by
  obtain ⟨w', live', hw', hpromises, hledger, ⟨hb, rfl, rfl⟩ | ⟨happ, rfl⟩⟩ :=
    h.ledger.install hs h.log h.promises ha hp hn hx
  · obtain ⟨tx, logged, log, -, -, rfl⟩ := Overlay.of_commit_ok hx
    have hversions : Table.versions
        { (s.tables t).addVersions tx.id (a.overlays t).buffer.toList with log } =
        (s.tables t).versions := by
      rw [hb]
      rfl
    exact ⟨_, _, by simpa using hw', h.flushes, hpromises, hledger,
      h.mirrors.of_versions_eq hversions, h.fits⟩
  · have hw : w' = (w.append (.commit i (a.overlays t).buffer.toList)).2 := by rw [happ]
    refine ⟨_, _, by simpa using hw', hw ▸ h.flushes_append _, hpromises, hledger,
      h.mirrors.install hs ha hp hx, fun j hj => ?_⟩
    rw [(h.promises.append_ok happ).2] at hj
    rcases List.mem_cons.1 (hj.resolve_left List.not_mem_nil) with rfl | hj
    · exact (Entry.encode_commit_iff.1 (LogWriter.exists_encode_of_append_ok happ)).1
    · exact h.fits j (.inr hj)

theorem failInstall (h : s.Mirrored t before w live) (hs : Inv s) (ha : s.actors i = some a)
    (hp : a.progress = .reserved) (hn : (a.overlays t).installed = false) {err : Error}
    (hx : (a.overlays t).commit (s.tables t) = (.error err, x, table)) :
    ∃ w' live', ((s.putTable t table).put i { a.put t x with progress := .failing }).Mirrored t
      before w' live' := by
  obtain ⟨w', live', left, hw', hpromises, hleft, hlen, hledger, hwriter, hcases⟩ :=
    h.ledger.failInstall hs h.log h.promises ha hp hn hx
  obtain rfl : live' = live := hcases.resolve_right fun hstray =>
    LogWriter.not_leavesStray h.flushes hstray.1
  obtain rfl : left = before := by
    have hevent : (Event.failInstall i t).leavesRollback s t = false := by
      simp [Event.leavesRollback, h.log, h.leavesRollback_eq_false]
    rw [hevent] at hlen
    exact hleft.eq_of_length_le hlen
  obtain ⟨-, log, rfl⟩ := Overlay.of_commit_error hx
  refine ⟨w', _, by simpa using hw', ?_, hpromises, hledger, h.mirrors.of_versions_eq rfl,
    fun j hj => h.fits j (hj.imp_left fun hj => ?_)⟩
  · rcases hwriter with rfl | rfl
    · exact h.flushes
    · exact h.flushes_append _
  · rcases hwriter with rfl | rfl
    · exact hj
    · exact (w.unwritten_append_suffix _).subset hj

theorem rollback (h : s.Mirrored t before w live) (hs : Inv s) (ha : s.actors i = some a)
    (hp : a.progress = .failing) (hx : (a.overlays t).rollback (s.tables t) = (x, table)) :
    ∃ w' live', ((s.putTable t table).put i (a.put t x)).Mirrored t before w' live' := by
  obtain ⟨w', live', left, hw', hpromises, hleft, hlen, hledger, hcases⟩ :=
    h.ledger.rollback hs h.log h.promises ha hp hx
  obtain rfl : left = before := by
    have hevent : (Event.rollback i t).leavesRollback s t = false := by
      simp [Event.leavesRollback, h.log, h.leavesRollback_eq_false]
    rw [hevent] at hlen
    exact hleft.eq_of_length_le hlen
  rcases hcases with ⟨hi, rfl, rfl⟩ | ⟨hi, rfl, rfl⟩
  · rw [Overlay.rollback_of_not_installed hi] at hx
    cases hx
    exact ⟨_, _, by simpa using hw', h.flushes, hpromises, hledger, h.mirrors.of_versions_eq rfl,
      h.fits⟩
  · refine ⟨_, _, by simpa using hw', fun n => ?_, hpromises, hledger,
      h.mirrors.rollback hs ha hp hi hx, fun j hj => ?_⟩
    · rw [LogWriter.rollback, LogWriter.faults_writeRollbacks]
      exact h.flushes n
    · rcases hj with hj | hj
      · have hj := (LogWriter.unwritten_writeRollbacks_suffix w.journal _).subset hj
        rcases List.mem_append.1 hj with hj | hj
        · exact h.fits j (.inl hj)
        · rw [List.mem_singleton.1 hj]
          have hheld := (h.ledger.held i a ha (by simp [hp]) hi).2
          exact h.fits i (.inr (List.mem_map.2 ⟨_, hheld, rfl⟩))
      · exact h.fits j (.inr ((List.filter_sublist.map _).subset hj))

theorem step (h : s.Mirrored t before w live) (hs : Inv s) (hd : Step s e d)
    (ho : ∀ i, e = .invalidate i → ∀ a, s.actors i = some a → (a.overlays t).installed = false) :
    ∃ w' live', d.Mirrored t before w' live' := by
  by_cases hq : ∃ i, e.ActsAt i t
  · obtain ⟨i, rfl | rfl | rfl⟩ := hq
    · cases hd with
      | install ha hp hn hx => exact h.install hs ha hp hn hx
    · cases hd with
      | failInstall ha hp hn hx => exact h.failInstall hs ha hp hn hx
    · cases hd with
      | rollback ha hp hx => exact h.rollback hs ha hp hx
  · have hq : ∀ i, ¬e.ActsAt i t := fun i hi => hq ⟨i, hi⟩
    exact ⟨w, live, (hs.follows hd hq).log.trans h.log, h.flushes, h.promises,
      h.ledger.follow hs hd hq, h.mirrors.follow hs h.ledger.born hd hq ho, h.fits⟩

end Mirrored

theorem mirrored_of_run {names : TableId → String} {base : TableId → Std.ExtTreeMap Bytes Bytes}
    {logs : TableId → Option LogWriter} {w : LogWriter} {es : List Entry} (hw : logs t = some w)
    (hwait : w.unwritten = []) (hes : w.journal.Holds es) (hf : w.journal.stream.Flushes)
    (h : Run (opened names base logs) tr s) (ho : tr.Undoes t) :
    ∃ w' live, s.Mirrored t (standing es) w' live := by
  induction h with
  | refl =>
    refine ⟨w, [], hw, hf, ⟨es, hes, ?_⟩, ?_, ⟨fun key v hv => ?_, fun p _ key => rfl⟩, ?_⟩
    · rw [hwait, List.map_nil, List.append_nil, List.nil_append]
    · rw [hwait]
      exact ledger_opened
    · simp [opened, coordinator, Chronicle.new, Coordinator.new]
    · simp [hwait]
  | tail h hd ih =>
    obtain ⟨w', live, hm⟩ := ih fun s i hi => ho s i (List.mem_cons_of_mem _ hi)
    exact hm.step (inv_of_steps h.steps) hd fun i e => ho _ i (e ▸ List.mem_cons_self)

theorem base_of_run {names : TableId → String} {base : TableId → Std.ExtTreeMap Bytes Bytes}
    {logs : TableId → Option LogWriter} (h : Run (opened names base logs) tr s) :
    s.base = base := by
  induction h with
  | refl => rfl
  | tail h hd ih => exact ((inv_of_steps h.steps).advances hd).2.1.trans ih

/-- If nothing is installed that may still be undone, who begins now sees all versions. -/
theorem Mirrors.get_begin (h : s.Mirrors t live) (hs : Inv s)
    (hnone : ∀ i a, s.actors i = some a → a.progress ≠ .over → (a.overlays t).installed = false)
    (key : Bytes) :
    (s.tables t).get s.coordinator.begin.1 key =
      Version.newest (fun _ => true) ((s.tables t).versions key) := by
  rw [Table.get_eq]
  refine Version.newest_congr fun v hv => ?_
  rcases hs.writers t key v hv with e | ⟨k, hk, e⟩ | hr | hi
  · exact (Transaction.sees_iff _ _).2 (.inl e)
  · obtain ⟨-, hid, hp⟩ := hs.chronicle.numbers k hk
    have hne : v.writer ≠ s.coordinator.next := e ▸ Nat.ne_of_lt (Nat.lt_trans hid hp)
    have hknown : (s.ask .begin).chronicle.Knows v.writer := .inr (.inl ⟨k, hk, e⟩)
    refine (hs.fits_begin.sees v.writer hknown hne).trans ?_
    exact Chronicle.isBefore_iff.2 (.inr ⟨k, hk, e, hp⟩)
  · obtain ⟨a, ha, hp⟩ := (hs.running v.writer).1 hr
    obtain ⟨others, hothers, hne⟩ := (hs.fits _ a ha hp).own t key
    rw [hothers, Actor.own_eq_nil (hnone _ a ha hp)] at hv
    exact absurd rfl (hne v hv)
  · exact absurd hi (h.writers key v hv)

end Scene

/-! ## Reopening -/

theorem Journal.faults_replay (j : Journal) : j.replay.2.stream.faults = j.stream.faults := by
  have hread : ∀ s : Stream, s.read.2.faults = s.faults := by
    intro s
    unfold Stream.read
    split <;> rfl
  have hr := hread j.stream
  unfold replay
  cases hs : j.stream.read with
  | mk r s =>
    rw [hs] at hr
    cases r with
    | error e => exact hr
    | ok bs =>
      dsimp only
      split
      · exact hr
      · exact hr
      · have ht := Stream.faults_truncate s (Scan.ofBytes bs).length
        split <;> next he => rw [he] at ht; exact ht.trans hr

theorem Table.faults_of_load {name : String} {s left : Stream} {sync : Bool} {t : Table}
    {w : LogWriter} (h : load name s sync = (.ok t, left)) (hw : t.log = some w) :
    w.journal.stream.faults = s.faults := by
  have hfaults := (Journal.ofStream s sync).faults_replay
  unfold load at h
  split at h
  · cases h
  · next hr =>
    rw [hr] at hfaults
    cases h
    cases hw
    exact hfaults

/-- Everyone reads the rows that were read from the log. -/
theorem Table.get_of_rows_eq {t : Table} {rows : Std.ExtTreeMap Bytes Bytes}
    (h : t.rows = baseRows rows) (tx : Transaction) (key : Bytes) : t.get tx key = rows[key]? := by
  rw [get_eq, versions, h, versions_baseRows]
  cases rows[key]? with
  | none => rfl
  | some value => simp [Version.newest_cons, (Transaction.sees_iff tx TxId.base).2 (.inl rfl)]

theorem Entry.exists_encode_rollbacks {ids : List TxId} (h : ∀ i ∈ ids, i < Bytes.bound 8) :
    ∃ queued, List.Forall₂ (fun i frame => (Entry.rollback i).encode = .ok frame) ids queued := by
  induction ids with
  | nil => exact ⟨[], .nil⟩
  | cons i ids ih =>
    obtain ⟨frame, hframe⟩ := exists_encode_rollback (h i List.mem_cons_self)
    obtain ⟨queued, hqueued⟩ := ih fun j hj => h j (List.mem_cons_of_mem i hj)
    exact ⟨frame :: queued, .cons hframe hqueued⟩

theorem Frames.append_rollbacks {es : List Entry} {bs : Bytes} (h : Frames es bs)
    {ids : List TxId} {queued : List Bytes}
    (hq : List.Forall₂ (fun i frame => (Entry.rollback i).encode = .ok frame) ids queued) :
    Frames (es ++ ids.map .rollback) (bs ++ queued.flatten) := by
  induction hq generalizing es bs with
  | nil => simpa using h
  | cons he _ ih =>
    have := ih (h.append_encode he)
    rwa [List.append_assoc, List.append_assoc] at this

namespace Session

open Scene

variable {t : TableId}

theorem mirrored (σ : Session t) (hf : σ.stream.Flushes) (ho : σ.trace.Undoes t) :
    (∃ w live, σ.scene.Mirrored t σ.before w live) ∧
      Table.baseRows (σ.scene.base t) =
        Table.baseRows (Table.rowsOf (σ.before.reverse.map (·.2))) := by
  obtain ⟨left, hload⟩ := σ.opens
  obtain ⟨w, e, hwait, hes⟩ := Table.holds_of_load σ.sized σ.whole hload
  obtain ⟨-, hbase, -, hw⟩ := Table.mk.inj e
  refine ⟨mirrored_of_run hw hwait hes (fun n => ?_) σ.run ho, ?_⟩
  · rw [Table.faults_of_load hload hw]
    exact hf n
  · rw [base_of_run σ.run, hbase]
    rfl

/-- At every moment of a session the log, with the rollbacks that wait written behind it, gives each
row the value of its newest version in memory.  If none waits, and nothing is installed that may
still be undone, the table opened again shows what a transaction sees that begins now.  The session
may have begun with what any sessions before it left. -/
theorem log_mirrors_table (σ : Session t) (hf : σ.stream.Flushes) (ho : σ.trace.Undoes t) :
    ∃ w queued, (σ.scene.tables t).log = some w ∧
      List.Forall₂ (fun i frame => (Entry.rollback i).encode = .ok frame) w.unwritten queued ∧
      (∀ name sync, ∃ reopened left,
        Table.load name (Stream.ofBytes (w.journal.stream.bytes ++ queued.flatten)) sync =
          (.ok reopened, left) ∧
        ∀ tx key, reopened.get tx key =
          ((σ.scene.tables t).versions key).head?.bind (·.value)) ∧
      (w.unwritten = [] →
        (∀ i a, σ.scene.actors i = some a → a.progress ≠ .over →
          (a.overlays t).installed = false) →
        ∀ name sync, ∃ reopened left,
          Table.load name (Stream.ofBytes w.journal.stream.bytes) sync = (.ok reopened, left) ∧
          ∀ tx key, reopened.get tx key =
            (σ.scene.tables t).get σ.scene.coordinator.begin.1 key) := by
  obtain ⟨⟨w, live, h⟩, hbase⟩ := σ.mirrored hf ho
  have inv := inv_of_steps σ.run.steps
  obtain ⟨es, hes, hstanding⟩ := h.promises
  obtain ⟨queued, hqueued⟩ := Entry.exists_encode_rollbacks fun i hi => h.fits i (.inl hi)
  have hread : ∀ name sync, ∃ reopened left,
      Table.load name (Stream.ofBytes (w.journal.stream.bytes ++ queued.flatten)) sync =
        (.ok reopened, left) ∧
      ∀ tx key, reopened.get tx key =
        Version.newest (fun _ => true) ((σ.scene.tables t).versions key) := by
    intro name sync
    obtain ⟨reopened, left, hload, hrows⟩ :=
      Table.load_of_frames (hes.frames.append_rollbacks hqueued) name sync
    refine ⟨reopened, left, hload, fun tx key => ?_⟩
    rw [Table.get_of_rows_eq hrows, survivors_eq, hstanding, ← Version.newest_ofCommits,
      Version.ofCommits_append, h.mirrors.values _ (fun _ _ => rfl), hbase]
    refine Version.newest_append_congr ?_
    rw [Version.newest_ofCommits, Table.versions_baseRows]
    cases (Table.rowsOf (σ.before.reverse.map (·.2)))[key]? <;> rfl
  refine ⟨w, queued, h.log, hqueued, ?_, fun hwait hnone name sync => ?_⟩
  · simpa only [Version.newest_true] using hread
  · rw [hwait] at hqueued
    cases hqueued
    obtain ⟨reopened, left, hload, hget⟩ := hread name sync
    rw [List.flatten_nil, List.append_nil] at hload
    exact ⟨reopened, left, hload, fun tx key =>
      (hget tx key).trans (h.mirrors.get_begin inv hnone key).symm⟩

/-- A stream whose use number `n` is an append that fails. -/
def failingAppend (n : Nat) : Stream :=
  ⟨[], 0, 0, fun k => if k = n then { Faults.none with append := some 0 } else Faults.none⟩

/-- A transaction that was installed is rolled back, and its rollback waits; or it is committed. -/
theorem exists_waiting_and_committed :
    ∃ σ σ' : Session 0, (σ.stream.Flushes ∧ σ.trace.Undoes 0) ∧
      (σ'.stream.Flushes ∧ σ'.trace.Undoes 0) ∧
      (σ.scene.tables 0).log.map (·.unwritten) = some [1] ∧
      (σ.scene.tables 0).versions [7] = [] ∧
      (σ'.scene.tables 0).log.map (·.unwritten) = some [] ∧
      (σ'.scene.tables 0).versions [7] = [⟨1, some [8]⟩] ∧
      ∀ i a, σ'.scene.actors i = some a → a.progress = .over := by
  have hwhole : (failingAppend 2).Whole := by
    intro k
    simp only [failingAppend]
    split
    · exact .inr rfl
    · exact .inl rfl
  have hflushes : (failingAppend 2).Flushes := by
    intro k
    simp only [failingAppend]
    split <;> rfl
  have h₁ : Run (opened (fun _ => "t") (fun _ => ∅)
      fun _ => some ⟨⟨(failingAppend 2).tick, false, 0⟩, []⟩) [] _ := .refl
  have h₂ := h₁.tail (.begin _)
  have h₃ := h₂.tail (.start (i := 1) (t := 0) rfl rfl rfl)
  have h₄ := h₃.tail (@Step.perform _ 1 _ 0 (.write [7] [8]) _ _ rfl rfl rfl)
  have h₅ := h₄.tail (.reserve (i := 1) rfl rfl rfl)
  have h₆ := h₅.tail (.install (i := 1) (t := 0) rfl rfl rfl rfl)
  have h₇ := h₆.tail (.fail (i := 1) rfl (.inr rfl))
  have h₈ := h₇.tail (.rollback (i := 1) (t := 0) rfl rfl (Overlay.rollback_of_installed rfl rfl _))
  have h₇' := h₆.tail (.commit (i := 1) rfl rfl (fun t => ?_) rfl)
  · refine ⟨⟨failingAppend 2, false, _, _, _, _, _, rfl, hwhole, ⟨_, rfl⟩, h₈⟩,
      ⟨failingAppend 2, false, _, _, _, _, _, rfl, hwhole, ⟨_, rfl⟩, h₇'⟩,
      ⟨hflushes, fun s i hi => ?_⟩, ⟨hflushes, fun s i hi => ?_⟩, rfl,
      ?_, rfl, rfl, ?_⟩
    · simp only [List.mem_cons, Prod.mk.injEq, reduceCtorEq, and_false, or_false,
        List.not_mem_nil] at hi
    · simp only [List.mem_cons, Prod.mk.injEq, reduceCtorEq, and_false, or_false,
        List.not_mem_nil] at hi
    · simp only [putTable, put, Function.update_self, Table.versions_revert]
      rfl
    · intro i a ha
      by_cases e : i = 1
      · subst e
        cases ha
        rfl
      · refine absurd (ha.symm.trans ((actors_put_of_ne _ e _).trans ?_)) (Option.some_ne_none a)
        repeat
          first
          | rfl
          | refine (actors_put_of_ne _ e _).trans ?_
  · by_cases e : t = 0
    · subst e
      exact .inr rfl
    · refine .inl ?_
      simp only [Actor.put, Function.update_of_ne e]
      rfl

/-- The row that was rolled back is not read when the rollback that waits is taken into account, and
the row that was committed is read after reopening, as it is by who begins now. -/
theorem log_mirrors_table_while_waiting :
    ∃ σ σ' : Session 0,
      (∃ w queued, (σ.scene.tables 0).log = some w ∧ w.unwritten = [1] ∧
        List.Forall₂ (fun i frame => (Entry.rollback i).encode = .ok frame) [1] queued ∧
        ∃ reopened left,
          Table.load "t" (Stream.ofBytes (w.journal.stream.bytes ++ queued.flatten)) false =
            (.ok reopened, left) ∧ ∀ tx, reopened.get tx [7] = none) ∧
      ∃ w reopened left, (σ'.scene.tables 0).log = some w ∧
        Table.load "t" (Stream.ofBytes w.journal.stream.bytes) false = (.ok reopened, left) ∧
        (∀ tx, reopened.get tx [7] = some [8]) ∧
        (σ'.scene.tables 0).get σ'.scene.coordinator.begin.1 [7] = some [8] := by
  obtain ⟨σ, σ', hσ, hσ', hwait, hgone, hempty, hthere, hover⟩ := exists_waiting_and_committed
  refine ⟨σ, σ', ?_, ?_⟩
  · obtain ⟨w, queued, hw, hqueued, hread, -⟩ := σ.log_mirrors_table hσ.1 hσ.2
    rw [hw, Option.map_some, Option.some.injEq] at hwait
    obtain ⟨reopened, left, hload, hget⟩ := hread "t" false
    refine ⟨w, queued, hw, hwait, hwait ▸ hqueued, reopened, left, hload, fun tx => ?_⟩
    rw [hget, hgone]
    rfl
  · obtain ⟨w, queued, hw, hqueued, hread, hagain⟩ := σ'.log_mirrors_table hσ'.1 hσ'.2
    rw [hw, Option.map_some, Option.some.injEq] at hempty
    rw [hempty] at hqueued
    cases hqueued
    obtain ⟨reopened, left, hload, hget⟩ := hread "t" false
    rw [List.flatten_nil, List.append_nil] at hload
    have hvalue : ∀ tx, reopened.get tx [7] = some [8] := by
      intro tx
      rw [hget, hthere]
      rfl
    refine ⟨w, reopened, left, hw, hload, hvalue, ?_⟩
    obtain ⟨reopened', left', hload', hget'⟩ :=
      hagain hempty (fun i a ha hp => absurd (hover i a ha) hp) "t" false
    rw [hload, Prod.mk.injEq, Except.ok.injEq] at hload'
    rw [← hget' σ'.scene.coordinator.begin.1, ← hload'.1]
    exact hvalue _

end Session

end NamespaceCatalog
