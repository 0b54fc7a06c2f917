import NamespaceCatalog.Proofs.Loading

/-!
# Calls for tables that are stopped

A process may stop at any moment of a call for a table.  `Compaction.Stops` and `Source.Stops` are
the disks that it may leave: after each step of the call, and with any part of the compacted journal
written.  All of them differ from the disk before the call in the two files of the table at most
(`Source.Stops.alters`), and hold its entries, or the one entry that they are compacted to
(`Source.Stops.stores`).
-/

namespace NamespaceCatalog

/-! ## Files of a directory -/

/-- Does the path lead to the directory at the place? -/
structure Disk.Leads (d : Disk) (path : Path) (dir : Place) : Prop where
  walk : d.walk [] path = .ok dir
  directory : d.at? dir = some .directory

theorem Disk.Alters.leads {d d' : Disk} {path : Path} {dir : Place} {touched : List Place}
    (h : d'.Alters d touched) (hd : d.Leads path dir) : d'.Leads path dir :=
  ⟨h.extends.walk hd.walk, (h.directory dir).2 hd.directory⟩

theorem Disk.Leads.place_eq {d : Disk} {path : Path} {dir place : Place} {name : String}
    {letter : Char} (h : d.Leads path dir) (hl : d.locate (path ++ [name]) = .ok place)
    (hlast : name.toList.getLast? = some letter) (hdot : letter ≠ '.') : place = dir ++ [name] := by
  obtain ⟨dir', hwalk, -, rfl⟩ :=
    exists_walk_of_locate hl (TableDirectory.ne_of_getLast? hlast hdot)
  rw [Except.ok.inj (hwalk.symm.trans h.walk)]

namespace TableDirectory

/-- The place of a table's journal. -/
def journalPlace (dir : Place) (table : String) : Place := dir ++ [journalName table]

/-- The place of a table's compacted journal. -/
def freshPlace (dir : Place) (table : String) : Place := dir ++ [freshName table]

/-- The place of the file that is locked. -/
def lockPlace (dir : Place) : Place := dir ++ [lockName]

variable {disk : Disk} {d : TableDirectory} {dir place : Place} {table other : String}

theorem journalPlace_of_locate (h : disk.Leads d.path dir)
    (hl : disk.locate (d.journalPath table) = .ok place) : place = journalPlace dir table :=
  h.place_eq hl (getLast?_journalName table) (by decide)

theorem freshPlace_of_locate (h : disk.Leads d.path dir)
    (hl : disk.locate (d.freshPath table) = .ok place) : place = freshPlace dir table :=
  h.place_eq hl (getLast?_freshName table) (by decide)

theorem journalName_injective (h : journalName table = journalName other) : table = other := by
  simpa [journalName] using h

theorem freshName_injective (h : freshName table = freshName other) : table = other :=
  journalName_injective (by simpa [freshName] using h)

theorem append_name_ne {name name' : String} (h : name ≠ name') (dir : Place) :
    dir ++ [name] ≠ dir ++ [name'] := by
  simpa using h

theorem journalPlace_ne_freshPlace (dir : Place) (table other : String) :
    journalPlace dir table ≠ freshPlace dir other := by
  apply append_name_ne
  exact name_ne_of_getLast? (getLast?_journalName _) (getLast?_freshName _) (by decide)

theorem journalPlace_ne_lockPlace (dir : Place) (table : String) :
    journalPlace dir table ≠ lockPlace dir := by
  apply append_name_ne
  exact name_ne_of_getLast? (getLast?_journalName _) getLast?_lockName (by decide)

/-- The files of two tables are at different places. -/
theorem journalPlace_not_mem (h : other ≠ table) (dir : Place) :
    journalPlace dir other ∉ [journalPlace dir table, freshPlace dir table] := by
  rw [List.mem_cons, List.mem_singleton, not_or]
  constructor
  · apply append_name_ne
    exact fun e => h (journalName_injective e)
  · apply journalPlace_ne_freshPlace

theorem freshPlace_not_mem (h : other ≠ table) (dir : Place) :
    freshPlace dir other ∉ [journalPlace dir table, freshPlace dir table] := by
  rw [List.mem_cons, List.mem_singleton, not_or]
  constructor
  · exact (journalPlace_ne_freshPlace dir table other).symm
  · apply append_name_ne
    exact fun e => h (freshName_injective e)

end TableDirectory

open TableDirectory (journalPlace freshPlace)

/-! ## Compaction -/

namespace Compaction

/-- The disks that a compaction may leave when its process stops: with what was there before, with
nothing beside the journal, with an empty file there, with a part of the frame or all that is
written in it, and with that file in the place of the journal. -/
inductive Stops (disk : Disk) (d : TableDirectory) (name : String) (e : Entry) : Disk → Prop
  | start : Stops disk d name e disk
  | cleaned {cleared : Disk} (hc : removeStale disk (d.freshPath name) = .ok cleared) :
    Stops disk d name e cleared
  | made {cleared made : Disk} {file : FileId}
    (hc : removeStale disk (d.freshPath name) = .ok cleared)
    (hm : cleared.openFile (d.freshPath name) = .ok (file, made)) : Stops disk d name e made
  | writing {cleared made : Disk} {file : FileId} {frame part : Bytes}
    (hc : removeStale disk (d.freshPath name) = .ok cleared)
    (hm : cleared.openFile (d.freshPath name) = .ok (file, made)) (he : e.encode = .ok frame)
    (hp : part <+: frame) : Stops disk d name e (made.write file (made.read file ++ part))
  | written {cleared written : Disk} {r : Except Error Unit}
    (hc : removeStale disk (d.freshPath name) = .ok cleared)
    (hw : writeFresh cleared (d.freshPath name) e = (r, written)) : Stops disk d name e written
  | replaced {cleared written replaced : Disk}
    (hc : removeStale disk (d.freshPath name) = .ok cleared)
    (hw : writeFresh cleared (d.freshPath name) e = (.ok (), written))
    (hr : replace written (d.freshPath name) (d.journalPath name) = .ok replaced) :
    Stops disk d name e replaced

variable {disk disk' cleared written replaced : Disk} {d : TableDirectory} {name : String}
  {e : Entry} {dir : Place} {r : Except Error Unit}

theorem run_eq_ok (h : run disk d name e = (.ok (), disk')) :
    ∃ cleared written, removeStale disk (d.freshPath name) = .ok cleared ∧
      writeFresh cleared (d.freshPath name) e = (.ok (), written) ∧
      replace written (d.freshPath name) (d.journalPath name) = .ok disk' := by
  unfold run at h
  cases hc : removeStale disk (d.freshPath name) with
  | error e => simp [hc] at h
  | ok cleared =>
    rcases hw : writeFresh cleared (d.freshPath name) e with ⟨_ | _, written⟩
    · simp [hc, hw] at h
    · cases hr : replace written (d.freshPath name) (d.journalPath name) with
      | error e => simp [hc, hw, hr] at h
      | ok replaced =>
        simp only [hc, hw, hr, Prod.mk.injEq, true_and] at h
        exact ⟨cleared, written, rfl, hw, h ▸ hr⟩

/-- A compaction that is not stopped leaves one of these disks, too. -/
theorem stops_run (disk : Disk) (d : TableDirectory) (name : String) (e : Entry) :
    Stops disk d name e (run disk d name e).2 := by
  unfold run
  cases hc : removeStale disk (d.freshPath name) with
  | error e => exact .start
  | ok cleared =>
    rcases hw : writeFresh cleared (d.freshPath name) e with ⟨_ | _, written⟩
    · simp only [hw]
      exact .written hc hw
    · simp only [hw]
      cases hr : replace written (d.freshPath name) (d.journalPath name) with
      | error e => exact .written hc hw
      | ok replaced => exact .replaced hc hw hr

theorem alters_removeStale (h : disk.Tidy) (hd : disk.Leads d.path dir)
    (hc : removeStale disk (d.freshPath name) = .ok cleared) :
    cleared.Alters disk [freshPlace dir name] ∧
      (cleared.locate (d.freshPath name) = .ok (freshPlace dir name) →
        cleared.bytesAt (freshPlace dir name) = []) := by
  unfold removeStale at hc
  split at hc
  · next next hr =>
    cases hc
    obtain ⟨place, hl, ha, hnone⟩ := Disk.alters_remove h hr
    obtain rfl := TableDirectory.freshPlace_of_locate hd hl
    exact ⟨ha, fun _ => Disk.bytesAt_of_none hnone⟩
  · next hr =>
    cases hc
    refine ⟨.refl h _, fun hl => ?_⟩
    unfold Disk.remove at hr
    rw [hl] at hr
    dsimp only at hr
    split at hr
    · cases hr
    · cases hr
    · next hnone => exact Disk.bytesAt_of_none hnone
  · cases hc

theorem alters_made {made : Disk} {file : FileId} (h : disk.Tidy) (hd : disk.Leads d.path dir)
    (hc : removeStale disk (d.freshPath name) = .ok cleared)
    (hm : cleared.openFile (d.freshPath name) = .ok (file, made)) :
    made.Alters disk [freshPlace dir name] ∧
      made.at? (freshPlace dir name) = some (.file file) ∧ made.read file = [] := by
  obtain ⟨ha, hempty⟩ := alters_removeStale h hd hc
  obtain ⟨place, hl, ha', hfile, hread⟩ := Disk.alters_openFile ha.tidy hm
  obtain rfl := TableDirectory.freshPlace_of_locate (ha.leads hd) hl
  exact ⟨ha'.trans ha, hfile, hread.trans (hempty hl)⟩

theorem alters_written (h : disk.Tidy) (hd : disk.Leads d.path dir)
    (hc : removeStale disk (d.freshPath name) = .ok cleared)
    (hw : writeFresh cleared (d.freshPath name) e = (r, written)) :
    written.Alters disk [freshPlace dir name] := by
  unfold writeFresh at hw
  cases hm : cleared.openFile (d.freshPath name) with
  | error fault =>
    simp only [hm, Prod.mk.injEq] at hw
    exact hw.2 ▸ (alters_removeStale h hd hc).1
  | ok opened =>
    obtain ⟨file, made⟩ := opened
    obtain ⟨ha, hfile, -⟩ := alters_made h hd hc hm
    simp only [hm, Prod.mk.injEq] at hw
    exact hw.2 ▸ (Disk.alters_write ha.tidy hfile _).trans ha

/-- A journal that is written with success is one frame, whatever was at its place before. -/
theorem bytesAt_written (h : disk.Tidy) (hd : disk.Leads d.path dir)
    (hc : removeStale disk (d.freshPath name) = .ok cleared)
    (hw : writeFresh cleared (d.freshPath name) e = (.ok (), written)) :
    disk.TakesFile (d.freshPath name) ∧
      ∃ frame, e.encode = .ok frame ∧ written.bytesAt (freshPlace dir name) = frame := by
  unfold writeFresh at hw
  cases hm : cleared.openFile (d.freshPath name) with
  | error fault => simp [hm] at hw
  | ok opened =>
    obtain ⟨file, made⟩ := opened
    obtain ⟨ha, hfile, hread⟩ := alters_made h hd hc hm
    obtain ⟨place, hl, hdiffers, -⟩ := Disk.openFile_ok hm
    have htakes : cleared.TakesFile (d.freshPath name) := ⟨place, hl, hdiffers.noDirectory⟩
    cases happ : (Journal.ofStream (Stream.ofBytes (made.read file)) true).append e with
    | mk r j =>
      cases r with
      | error fault =>
        simp only [hm, happ] at hw
        cases hw
      | ok offset =>
        obtain ⟨frame, he, hb⟩ := Journal.bytes_append_of_ok happ
        simp only [hm, happ, Prod.mk.injEq] at hw
        refine ⟨(alters_removeStale h hd hc).1.takesFile_iff.1 htakes, frame, he, ?_⟩
        rw [← hw.2, Disk.bytesAt_write hfile, hb]
        show made.read file ++ frame = frame
        rw [hread, List.nil_append]

/-- A compaction that succeeds puts one frame in the place of the journal. -/
theorem alters_replaced (h : disk.Tidy) (hd : disk.Leads d.path dir)
    (hc : removeStale disk (d.freshPath name) = .ok cleared)
    (hw : writeFresh cleared (d.freshPath name) e = (.ok (), written))
    (hr : replace written (d.freshPath name) (d.journalPath name) = .ok replaced) :
    replaced.Alters disk [journalPlace dir name, freshPlace dir name] ∧
      replaced.HasLog (journalPlace dir name) [e] := by
  have ha := alters_written h hd hc hw
  obtain ⟨-, frame, he, hframe⟩ := bytesAt_written h hd hc hw
  unfold replace at hr
  cases hrename : written.rename (d.freshPath name) (d.journalPath name) with
  | error fault =>
    rw [hrename] at hr
    cases hr
  | ok next =>
    rw [hrename] at hr
    obtain rfl : next = replaced := Except.ok.inj hr
    obtain ⟨place, target, hl, hl', ha', ⟨file, hat⟩, hbytes⟩ := Disk.alters_rename ha.tidy hrename
    obtain rfl := TableDirectory.freshPlace_of_locate (ha.leads hd) hl
    obtain rfl := TableDirectory.journalPlace_of_locate (ha.leads hd) hl'
    refine ⟨(ha'.mono ?_).trans (ha.mono ?_), ⟨by simp [hat], ?_⟩⟩
    · intro place hp
      simpa [or_comm] using hp
    · exact List.subset_cons_self _ _
    · rw [hbytes, hframe]
      exact (Frames.nil.append_encode he).reads

/-- While a compaction runs the journal is not touched, and then it is one entry. -/
theorem Stops.cases (hs : Stops disk d name e disk') (h : disk.Tidy)
    (hd : disk.Leads d.path dir) :
    disk'.Alters disk [freshPlace dir name] ∨
      disk'.Alters disk [journalPlace dir name, freshPlace dir name] ∧
        disk'.HasLog (journalPlace dir name) [e] := by
  cases hs with
  | start => exact .inl (.refl h _)
  | cleaned hc => exact .inl (alters_removeStale h hd hc).1
  | made hc hm => exact .inl (alters_made h hd hc hm).1
  | writing hc hm he hp =>
    -- whatever part of the frame was written, it was written beside the journal
    obtain ⟨ha, hfile, -⟩ := alters_made h hd hc hm
    exact .inl ((Disk.alters_write ha.tidy hfile _).trans ha)
  | written hc hw => exact .inl (alters_written h hd hc hw)
  | replaced hc hw hr => exact .inr (alters_replaced h hd hc hw hr)

theorem Stops.alters (hs : Stops disk d name e disk') (h : disk.Tidy)
    (hd : disk.Leads d.path dir) :
    disk'.Alters disk [journalPlace dir name, freshPlace dir name] := by
  rcases hs.cases h hd with ha | ⟨ha, -⟩
  · exact ha.mono (List.subset_cons_self _ _)
  · exact ha

end Compaction

/-! ## Calls for tables -/

/-- The directory is on a tidy disk, and has a log with these entries for the table. -/
structure Disk.Stores (disk : Disk) (path : Path) (dir : Place) (name : String) (es : List Entry) :
    Prop where
  tidy : disk.Tidy
  leads : disk.Leads path dir
  journal : disk.locate (path ++ [TableDirectory.journalName name]) = .ok (journalPlace dir name)
  log : disk.HasLog (journalPlace dir name) es

namespace Disk.Stores

variable {disk disk' : Disk} {path : Path} {dir : Place} {name : String} {es es' : List Entry}
  {touched : List Place}

/-- The log of the table changed, if anything did. -/
theorem of_hasLog (h : disk.Stores path dir name es) (ha : disk'.Alters disk touched)
    (hlog : disk'.HasLog (journalPlace dir name) es') : disk'.Stores path dir name es' :=
  ⟨ha.tidy, ha.leads h.leads, ha.extends.locate h.journal, hlog⟩

/-- The log of the table did not change. -/
theorem of_alters (h : disk.Stores path dir name es) (ha : disk'.Alters disk touched)
    (hj : journalPlace dir name ∉ touched) : disk'.Stores path dir name es :=
  h.of_hasLog ha (ha.hasLog hj h.log)

end Disk.Stores

namespace Source

/-- The disks that a call for a table may leave when its process stops: with what was there before,
with the log opened, with its torn end cut off, at a stop of the compaction, and with the compacted
log loaded. -/
inductive Stops (site : Site) (d : TableDirectory) (name : String) : Disk → Prop
  | start : Stops site d name site.disk
  | opened {file : FileId} {disk : Disk}
    (ho : site.disk.openFile (d.journalPath name) = .ok (file, disk)) : Stops site d name disk
  | loaded : Stops site d name (load site (d.journalPath name) name d.sync).2.disk
  | compacting {t : Table} {n : StreamId} {left : Site} {disk : Disk}
    (hl : load site (d.journalPath name) name d.sync = (.ok (t, n), left))
    (hdue : Compaction.isDue t = true)
    (hs : Compaction.Stops left.disk d name t.baseEntry disk) : Stops site d name disk
  | reloaded {t : Table} {n : StreamId} {left : Site} {disk : Disk}
    (hl : load site (d.journalPath name) name d.sync = (.ok (t, n), left))
    (hdue : Compaction.isDue t = true)
    (hr : Compaction.run left.disk d name t.baseEntry = (.ok (), disk)) :
    Stops site d name (load { left with disk } (d.journalPath name) name d.sync).2.disk

variable {site left : Site} {d : TableDirectory} {name : String} {disk : Disk} {dir : Place}
  {es : List Entry} {t : Table} {n : StreamId}

/-- A call that is not stopped leaves one of these disks, too. -/
theorem stops_loadCompact (site : Site) (d : TableDirectory) (name : String) :
    Stops site d name (loadCompact site d name).2.disk := by
  have hloaded : Stops site d name (load site (d.journalPath name) name d.sync).2.disk := .loaded
  unfold loadCompact
  rcases hl : load site (d.journalPath name) name d.sync with ⟨_ | ⟨t, n⟩, left⟩
  · rwa [hl] at hloaded
  · dsimp only
    by_cases hdue : Compaction.isDue t = true
    · rw [if_pos hdue]
      have hrun := Compaction.stops_run left.disk d name t.baseEntry
      rcases hr : Compaction.run left.disk d name t.baseEntry with ⟨_ | _, disk⟩
      · rw [hr] at hrun
        exact .compacting hl hdue hrun
      · exact .reloaded hl hdue hr
    · rw [if_neg hdue]
      rwa [hl] at hloaded

theorem alters_load_journal (h : site.disk.Tidy) (hd : site.disk.Leads d.path dir) (name : String)
    (sync : Bool) :
    (load site (d.journalPath name) name sync).2.disk.Alters site.disk [journalPlace dir name] :=
  alters_load h (fun _ hl => TableDirectory.journalPlace_of_locate hd hl) name sync

/-- A call for a table touches no files but those of the table. -/
theorem Stops.alters (hs : Stops site d name disk) (h : site.disk.Tidy)
    (hd : site.disk.Leads d.path dir) :
    disk.Alters site.disk [journalPlace dir name, freshPlace dir name] := by
  have hsub : [journalPlace dir name] ⊆ [journalPlace dir name, freshPlace dir name] :=
    List.cons_subset_cons _ (List.nil_subset _)
  have hload := (alters_load_journal h hd name d.sync).mono hsub
  cases hs with
  | start => exact .refl h _
  | opened ho =>
    obtain ⟨place, hl, ha, -⟩ := Disk.alters_openFile h ho
    obtain rfl := TableDirectory.journalPlace_of_locate hd hl
    exact ha.mono hsub
  | loaded => exact hload
  | compacting hl hdue hs =>
    rw [hl] at hload
    exact (hs.alters hload.tidy (hload.leads hd)).trans hload
  | @reloaded t n left next hl hdue hr =>
    rw [hl] at hload
    have hrun := Compaction.stops_run left.disk d name t.baseEntry
    rw [hr] at hrun
    have ha : ({ left with disk := next } : Site).disk.Alters site.disk _ :=
      (hrun.alters hload.tidy (hload.leads hd)).trans hload
    have hagain := alters_load_journal ha.tidy (ha.leads hd) name d.sync
    exact (hagain.mono hsub).trans ha

/-- A table is loaded with its entries, and the log stays. -/
theorem exists_load_of_stores (h : site.disk.Stores d.path dir name es) (sync : Bool) :
    ∃ t n left, load site (d.journalPath name) name sync = (.ok (t, n), left) ∧ t.Replays es ∧
      left.disk.Stores d.path dir name es := by
  obtain ⟨t, n, left, hl, ht, hlog⟩ := exists_load_of_hasLog h.tidy h.journal h.log name sync
  have ha := alters_load_journal h.tidy h.leads name sync
  rw [TableDirectory.journalPath, hl] at ha
  exact ⟨t, n, left, hl, ht, h.of_hasLog ha hlog⟩

theorem stores_of_run (h : site.disk.Stores d.path dir name es) (ht : t.Replays es)
    (hr : Compaction.run site.disk d name t.baseEntry = (.ok (), disk)) :
    disk.Stores d.path dir name [Compaction.summary es] := by
  obtain ⟨cleared, written, hc, hw, hr⟩ := Compaction.run_eq_ok hr
  obtain ⟨ha, hlog⟩ := Compaction.alters_replaced h.tidy h.leads hc hw hr
  rw [Compaction.baseEntry_eq ht] at hlog
  exact h.of_hasLog ha hlog

/-- Wherever a call for a table stops, the log has its entries or the one that they are compacted
to. -/
theorem Stops.stores (hs : Stops site d name disk) (h : site.disk.Stores d.path dir name es) :
    ∃ es', Compaction.Outcome es es' ∧ disk.Stores d.path dir name es' := by
  obtain ⟨t, n, left, hload, ht, hleft⟩ := exists_load_of_stores h d.sync
  cases hs with
  | start => exact ⟨es, .refl es, h⟩
  | opened ho =>
    -- where nothing was there is an empty file now, which is a log without entries, too
    obtain ⟨place, hl, ha, hfile, hread⟩ := Disk.alters_openFile h.tidy ho
    obtain rfl := TableDirectory.journalPlace_of_locate h.leads hl
    refine ⟨es, .refl es, h.of_hasLog ha ⟨by simp [hfile], ?_⟩⟩
    rw [Disk.bytesAt_of_file hfile, hread]
    exact h.log.reads
  | loaded =>
    rw [hload]
    exact ⟨es, .refl es, hleft⟩
  | compacting hl hdue hs =>
    rw [hload] at hl
    cases hl
    -- the rename is the one step that touches the log
    rcases hs.cases hleft.tidy hleft.leads with ha | ⟨ha, hlog⟩
    · refine ⟨es, .refl es, hleft.of_alters ha ?_⟩
      rw [List.mem_singleton]
      exact TableDirectory.journalPlace_ne_freshPlace dir name name
    · rw [Compaction.baseEntry_eq ht] at hlog
      exact ⟨_, .compacted es, hleft.of_hasLog ha hlog⟩
  | @reloaded t' n' left' next hl hdue hr =>
    rw [hload] at hl
    cases hl
    have hnext : ({ left with disk := next } : Site).disk.Stores d.path dir name
        [Compaction.summary es] := stores_of_run hleft ht hr
    obtain ⟨t', n', left', hload', -, hleft'⟩ := exists_load_of_stores hnext d.sync
    rw [hload']
    exact ⟨_, .compacted es, hleft'⟩

end Source

end NamespaceCatalog
