import NamespaceCatalog.Proofs.Attempts
import NamespaceCatalog.Proofs.Readers

/-!
# Installing and undoing

An attempt installs the writes of its overlays one after the other (`Installing`).  If something
fails on the way, it withdraws them one after the other (`Undoing`): the versions of other writers
are never touched, and a table has no others once no overlay on it is left that installed its
writes.  Several overlays may be on one table.

`steps_cases` says where this ends, whatever the streams of the tables do: everything is installed
once and committed, or everything is still to be undone, which always works (`Undoing.fail`).
-/

namespace NamespaceCatalog

/-! ## What overlays write to a row -/

namespace Overlay

variable {xs ys : List Overlay} {x : Overlay} {i : TableId} {key : Bytes} {n : TxId}

/-- What overlays that are installed in turn write to a row. -/
def writesTo (xs : List Overlay) (i : TableId) (key : Bytes) : List (Option Bytes) :=
  xs.filterMap fun x => if x.table = i then x.buffer[key]? else none

/-- The versions of a row that overlays of the transaction `n` install in turn. -/
def versionsBy (n : TxId) (xs : List Overlay) (i : TableId) (key : Bytes) : List Version :=
  (writesTo xs i key).reverse.map (⟨n, ·⟩)

@[simp] theorem versionsBy_nil : versionsBy n [] i key = [] := rfl

/-- The latest version comes first. -/
theorem versionsBy_append (xs : List Overlay) (x : Overlay) :
    versionsBy n (xs ++ [x]) i key =
      (if x.table = i then (x.buffer[key]?.map (⟨n, ·⟩)).toList else []) ++
        versionsBy n xs i key := by
  unfold versionsBy writesTo
  rw [List.filterMap_append, List.reverse_append, List.map_append]
  congr 1
  by_cases e : x.table = i
  · cases hw : x.buffer[key]? <;> simp [e, hw]
  · simp [e]

theorem writer_of_mem_versionsBy {v : Version} (h : v ∈ versionsBy n xs i key) : v.writer = n := by
  obtain ⟨_, -, rfl⟩ := List.mem_map.1 h
  rfl

/-- Overlays that wrote nothing install nothing. -/
theorem versionsBy_eq_nil (h : ∀ x ∈ xs, x.table = i → x.buffer = ∅) :
    versionsBy n xs i key = [] := by
  have : writesTo xs i key = [] := by
    refine List.filterMap_eq_nil_iff.2 fun x hx => ?_
    split
    · next e => rw [h x hx e, Std.ExtTreeMap.getElem?_empty]
    · rfl
  rw [versionsBy, this]
  rfl

/-- Who sees the transaction reads what was written last. -/
theorem newest_versionsBy {p : TxId → Bool} (hp : p n = true) (xs : List Overlay)
    (vs : List Version) :
    Version.newest p (versionsBy n xs i key ++ vs) =
      (writesTo xs i key).getLast?.getD (Version.newest p vs) := by
  rw [versionsBy, List.getLast?_eq_head?_reverse]
  cases (writesTo xs i key).reverse with
  | nil => rfl
  | cons w ws => rw [List.map_cons, List.cons_append, Version.newest_cons, if_pos hp]; rfl

theorem writesTo_congr (h : xs.map (fun x => (x.table, x.buffer)) =
    ys.map fun x => (x.table, x.buffer)) : writesTo xs = writesTo ys := by
  funext i key
  have : ∀ xs : List Overlay, writesTo xs i key =
      (xs.map fun x => (x.table, x.buffer)).filterMap fun y =>
        if y.1 = i then y.2[key]? else none := by
    intro xs
    rw [List.filterMap_map]
    rfl
  rw [this, this, h]

end Overlay

/-! ## Worlds -/

variable {ρ α : Type}

namespace World

variable {u v w : World ρ}

/-- Putting a table back changes the rows of no other. -/
theorem versions_putTable (w : World ρ) (i : TableId) (t : Table) (j : TableId) (key : Bytes) :
    ((w.putTable i t).table j).versions key =
      if j = i ∧ i < w.site.tables.size then t.versions key else (w.table j).versions key := by
  show ((w.site.putTable i t).table j).versions key = _
  unfold Table.versions
  rw [Site.rows_putTable]
  split <;> rfl

/-- Are all numbers that the world knows of numbers that its coordinator gave out? -/
structure Sound (w : World ρ) : Prop where
  pos : 0 < w.coordinator.next
  running : ∀ i : Nat, i ∈ w.coordinator.inProgress → i < w.coordinator.next
  reserved : ∀ i : Nat, i ∈ w.coordinator.reserved → i < w.coordinator.next
  invalid : ∀ i : Nat, i ∈ w.coordinator.invalid → 0 < i ∧ i < w.coordinator.next
  writers : ∀ i key, ∀ v ∈ (w.table i).versions key, v.writer < w.coordinator.next

/-- Does `v` differ from `w` by tables only that were opened, and by what no transaction uses? -/
structure Opens (w v : World ρ) : Prop where
  coordinator : v.coordinator = w.coordinator
  size_le : w.site.tables.size ≤ v.site.tables.size
  versions : ∀ i < w.site.tables.size, ∀ key, (v.table i).versions key = (w.table i).versions key
  opened : ∀ i, w.site.tables.size ≤ i → ∀ key, ∀ u ∈ (v.table i).versions key,
    u.writer = TxId.base

theorem Sound.opens (h : w.Sound) (hv : w.Opens v) : v.Sound where
  pos := hv.coordinator ▸ h.pos
  running := hv.coordinator ▸ h.running
  reserved := hv.coordinator ▸ h.reserved
  invalid := hv.coordinator ▸ h.invalid
  writers i key u hu := by
    rw [hv.coordinator]
    by_cases hi : i < w.site.tables.size
    · exact h.writers i key u (hv.versions i hi key ▸ hu)
    · rw [hv.opened i (Nat.le_of_not_lt hi) key u hu]
      exact h.pos

/-- New tables come after those that are there. -/
theorem Opens.of_tables (hc : v.coordinator = w.coordinator)
    (hle : w.site.tables.size ≤ v.site.tables.size)
    (hold : ∀ i < w.site.tables.size, v.site.tables[i]? = w.site.tables[i]?)
    (hnew : ∀ i p, w.site.tables.size ≤ i → v.site.tables[i]? = some p →
      ∀ key, ∀ u ∈ p.table.versions key, u.writer = TxId.base) : w.Opens v where
  coordinator := hc
  size_le := hle
  versions i hi key := by
    unfold Table.versions table
    rw [Site.rows_table, Site.rows_table, hold i hi]
  opened i hi key u hu := by
    unfold Table.versions table at hu
    rw [Site.rows_table] at hu
    cases hp : v.site.tables[i]? with
    | none => simp [hp] at hu
    | some p =>
      rw [hp] at hu
      exact hnew i p hi hp key u hu

theorem Opens.of_eq (hc : v.coordinator = w.coordinator)
    (hs : v.site.tables = w.site.tables) : w.Opens v := by
  refine .of_tables hc (hs ▸ Nat.le_refl _) (fun i _ => by rw [hs]) fun i p hi hp => ?_
  rw [hs, Array.getElem?_eq_none hi] at hp
  cases hp

/-- The rows of a table that was read from its journal have one version each. -/
theorem writer_of_load {name : String} {s s' : Stream} {sync : Bool} {t : Table}
    (h : Table.load name s sync = (.ok t, s')) {key : Bytes} {z : Version}
    (hz : z ∈ t.versions key) : z.writer = TxId.base := by
  unfold Table.load at h
  split at h
  · cases h
  · cases h
    exact Table.writer_of_mem_baseRows hz

/-- Opening the table whose journal is in a stream changes no other table. -/
theorem opens_openTable (w : World ρ) (name : String) (n : StreamId) (sync : Bool) :
    w.Opens { w with site := (w.site.openTable name n sync).2 } := by
  unfold Site.openTable Site.loadTable
  cases hload : Table.load name (w.site.stream n) sync with
  | mk r left =>
    cases r with
    | error e => exact .of_eq rfl (Site.tables_putStream ..)
    | ok t =>
      have htables : ((w.site.putStream n left).addTable t (some n)).2.tables =
          w.site.tables.push ⟨t, some n⟩ := by
        rw [← Site.tables_putStream w.site n left]
        rfl
      refine .of_tables rfl ?_ (fun i hi => ?_) fun i p hi hp => ?_
      · simp [htables]
      · simp [htables, Array.getElem?_push, Nat.ne_of_lt hi]
      · have hp : (w.site.tables.push ⟨t, some n⟩)[i]? = some p := htables ▸ hp
        rw [Array.getElem?_push] at hp
        split at hp
        · cases hp
          exact fun key z hz => writer_of_load hload hz
        · rw [Array.getElem?_eq_none hi] at hp
          cases hp

/-- Did the tables only drop versions that no reader after this moment needs? -/
structure Prunes (w v : World ρ) : Prop where
  coordinator : v.coordinator = w.coordinator
  size : v.site.tables.size = w.site.tables.size
  sublist : ∀ i key, ((v.table i).versions key).Sublist ((w.table i).versions key)
  agrees : ∀ i key,
    w.coordinator.horizon.Agrees ((v.table i).versions key) ((w.table i).versions key)

theorem Prunes.refl (w : World ρ) : w.Prunes w where
  coordinator := rfl
  size := rfl
  sublist _ _ := .refl _
  agrees _ _ := .refl _ _

/-- A row is pruned or left as it is. -/
theorem versions_putTable_prune (w : World ρ) (h : Horizon) (i j : TableId) (key : Bytes) :
    ((w.putTable i ((w.table i).prune h).2).table j).versions key =
        Version.prune h ((w.table j).versions key) ∨
      ((w.putTable i ((w.table i).prune h).2).table j).versions key =
        (w.table j).versions key := by
  rw [versions_putTable]
  split
  · next e =>
    obtain ⟨rfl, -⟩ := e
    rw [Table.versions_prune]
    split
    · exact .inl rfl
    · exact .inr rfl
  · exact .inr rfl

theorem Prunes.prune (h : w.Prunes v) (i : TableId) :
    w.Prunes (v.putTable i ((v.table i).prune w.coordinator.horizon).2) where
  coordinator := h.coordinator
  size := (Site.size_putTable ..).trans h.size
  sublist j key := by
    rcases versions_putTable_prune v w.coordinator.horizon i j key with e | e
    · exact e ▸ (Version.prune_sublist ..).trans (h.sublist j key)
    · exact e ▸ h.sublist j key
  agrees j key := by
    rcases versions_putTable_prune v w.coordinator.horizon i j key with e | e
    · exact e ▸ (Horizon.agrees_prune _ _).trans (h.agrees j key)
    · exact e ▸ h.agrees j key

theorem Prunes.reclaim_all (h : w.Prunes v) (ps : List Overlay) :
    w.Prunes (actAll
      (fun (x : Overlay) v => ((), Participant.reclaim w.coordinator.horizon x v)) ps v).2.2 := by
  induction ps generalizing v with
  | nil => exact h
  | cons x ps ih => exact ih (h.prune x.table)

theorem prunes_reclaim (ps : List Overlay) (w : World ρ) : w.Prunes (Executor.reclaim ps w) := by
  unfold Executor.reclaim
  split
  · exact .refl w
  · exact (Prunes.refl w).reclaim_all ps

end World

/-! ## Installing and undoing -/

section Attempt

variable {v u : World ρ} {ps done todo : List Overlay} {x y : Overlay} {t : Table}

/-- In the world `u`, the next transaction of `v` installs the writes of its overlays: those of
`done` are installed, and those of `todo` are to follow. -/
structure Installing (v : World ρ) (done todo : List Overlay) (u : World ρ) : Prop where
  coordinator : v.coordinator.Serving u.coordinator
  size : u.site.tables.size = v.site.tables.size
  known : ∀ x ∈ done ++ todo, x.table < v.site.tables.size
  serves : ∀ x ∈ done ++ todo, x.tx = some v.coordinator.begin.1
  installed : ∀ x ∈ done, x.installed = !x.buffer.isEmpty
  waiting : ∀ x ∈ todo, x.installed = false
  versions : ∀ i key, (u.table i).versions key =
    Overlay.versionsBy v.coordinator.next done i key ++ (v.table i).versions key

/-- In the world `u`, the next transaction of `v` withdraws what its overlays installed: it is still
to do so for those of `todo`. -/
structure Undoing (v : World ρ) (todo : List Overlay) (u : World ρ) : Prop where
  coordinator : v.coordinator.Serving u.coordinator
  size : u.site.tables.size = v.site.tables.size
  known : ∀ x ∈ todo, x.table < v.site.tables.size
  serves : ∀ x ∈ todo, x.installed = true → x.tx = some v.coordinator.begin.1
  others : ∀ i key, ((u.table i).versions key).filter (·.writer ≠ v.coordinator.next) =
    (v.table i).versions key
  clean : ∀ i, (∀ x ∈ todo, x.table = i → x.installed = false) →
    ∀ key, (u.table i).versions key = (v.table i).versions key

namespace Installing

theorem install (h : Installing v done (x :: todo) u)
    (hx : x.commit (u.table x.table) = (.ok (), y, t)) :
    Installing v (done ++ [y]) todo (u.putTable x.table t) := by
  obtain ⟨tx, logged, log, htx, hy, ht⟩ := Overlay.of_commit_ok hx
  have hmem : x ∈ done ++ x :: todo := List.mem_append_right _ List.mem_cons_self
  have hnone := h.waiting x List.mem_cons_self
  obtain rfl : v.coordinator.begin.1 = tx := Option.some.inj ((h.serves x hmem).symm.trans htx)
  have forall_mem : ∀ {P : Overlay → Prop}, P y → (∀ z ∈ done ++ x :: todo, P z) →
      ∀ z ∈ (done ++ [y]) ++ todo, P z := by
    intro P hy h z hz
    simp only [List.mem_append, List.mem_cons, List.not_mem_nil, or_false] at hz h
    rcases hz with (hz | rfl) | hz
    · exact h z (.inl hz)
    · exact hy
    · exact h z (.inr (.inr hz))
  exact {
    coordinator := h.coordinator
    size := (Site.size_putTable ..).trans h.size
    known := forall_mem (hy ▸ h.known x hmem) h.known
    serves := forall_mem (hy ▸ htx) h.serves
    installed := fun z hz => by
      rcases List.mem_append.1 hz with hz | hz
      · exact h.installed z hz
      · rw [List.mem_singleton.1 hz, hy]
    waiting := fun z hz => h.waiting z (List.mem_cons_of_mem x hz)
    versions := fun i key => by
      rw [World.versions_putTable, Overlay.versionsBy_append, hy, ht]
      by_cases e : x.table = i
      · subst e
        rw [if_pos ⟨rfl, h.size ▸ h.known x hmem⟩, if_pos rfl]
        refine (Table.versions_addVersions_toList ..).trans ?_
        rw [h.versions, ← List.append_assoc]
        rfl
      · rw [if_neg fun h => e h.1.symm, if_neg e, h.versions]
        rfl }

/-- A journal that fails leaves the rows as they are. -/
theorem failInstall (h : Installing v done (x :: todo) u) {e : Error}
    (hx : x.commit (u.table x.table) = (.error e, y, t)) :
    Installing v done (y :: todo) (u.putTable x.table t) := by
  obtain ⟨rfl, log, rfl⟩ := Overlay.of_commit_error hx
  refine { h with size := (Site.size_putTable ..).trans h.size, versions := fun i key => ?_ }
  rw [World.versions_putTable, ← h.versions]
  split
  · next e => rw [e.1]; rfl
  · rfl

/-- All of them have to be undone. -/
theorem undoing (h : Installing v done todo u) (hv : v.Sound) : Undoing v (done ++ todo) u where
  coordinator := h.coordinator
  size := h.size
  known := h.known
  serves x hx _ := h.serves x hx
  others i key := by
    rw [h.versions, List.filter_append]
    have hown : (Overlay.versionsBy v.coordinator.next done i key).filter
        (·.writer ≠ v.coordinator.next) = [] := by
      refine List.filter_eq_nil_iff.2 fun z hz => ?_
      simp [Overlay.writer_of_mem_versionsBy hz]
    have hothers : ((v.table i).versions key).filter (·.writer ≠ v.coordinator.next) =
        (v.table i).versions key := by
      refine List.filter_eq_self.2 fun z hz => ?_
      simpa using Nat.ne_of_lt (hv.writers i key z hz)
    rw [hown, hothers]
    rfl
  clean i hi key := by
    rw [h.versions, Overlay.versionsBy_eq_nil fun x hx e => ?_]
    · rfl
    · have := hi x (List.mem_append_left _ hx) e
      rw [h.installed x hx] at this
      exact Std.ExtTreeMap.isEmpty_iff.1 (by simpa using this)

end Installing

namespace Undoing

theorem rollback (h : Undoing v (x :: todo) u) (hx : x.rollback (u.table x.table) = (y, t)) :
    Undoing v todo (u.putTable x.table t) := by
  have hput : ∀ i key, ((u.putTable x.table t).table i).versions key =
      if i = x.table then t.versions key else (u.table i).versions key := by
    intro i key
    have hlt := h.known x List.mem_cons_self
    rw [World.versions_putTable, h.size]
    simp [hlt]
  have hid : v.coordinator.begin.1.id = v.coordinator.next := rfl
  have hsize := (Site.size_putTable u.site x.table t).trans h.size
  have known := fun z hz => h.known z (List.mem_cons_of_mem x hz)
  have serves := fun z hz => h.serves z (List.mem_cons_of_mem x hz)
  cases hi : x.installed with
  | false =>
    rw [Overlay.rollback_of_not_installed hi] at hx
    cases hx
    have hput : ∀ i key, ((u.putTable x.table (u.table x.table)).table i).versions key =
        (u.table i).versions key := by
      intro i key
      rw [hput]
      split
      · next e => rw [e]
      · rfl
    refine ⟨h.coordinator, hsize, known, serves, fun i key => ?_, fun i hc key => ?_⟩
    · rw [hput]
      exact h.others i key
    · rw [hput]
      refine h.clean i (List.forall_mem_cons.2 ⟨fun _ => hi, hc⟩) key
  | true =>
    rw [Overlay.rollback_of_installed (h.serves x List.mem_cons_self hi) hi] at hx
    cases hx
    refine ⟨h.coordinator, hsize, known, serves, fun i key => ?_, fun i hc key => ?_⟩
    · rw [hput, ← h.others i key]
      split
      · next e =>
        rw [Table.versions_revert, hid, List.filter_filter, e]
        simp only [Bool.and_self]
      · rfl
    · rw [hput]
      split
      · next e =>
        subst e
        rw [Table.versions_revert]
        exact h.others _ key
      · next hne =>
        exact h.clean i (List.forall_mem_cons.2 ⟨fun e => absurd e.symm hne, hc⟩) key

/-- Rolling back always works, so that the transaction is aborted. -/
theorem fail (h : Undoing v ps u) (hrun : v.coordinator.next ∉ v.coordinator.inProgress) :
    ∃ qs u', Executor.fail v.coordinator.begin.1 ps u = (qs, u') ∧
      v.coordinator.Returns u'.coordinator ∧
      u'.coordinator.stats.committed = v.coordinator.stats.committed ∧
      u'.site.tables.size = v.site.tables.size ∧
      ∀ i key, (u'.table i).versions key = (v.table i).versions key := by
  obtain ⟨rs, qs, u₁, hroll, hrs, h⟩ := actAll_cases (f := Participant.rollback)
    (I := fun _ todo u => Undoing v todo u) (Q := (· = .ok ()))
    (fun done x todo u r q u' h hf => by
      obtain ⟨t, rfl, hx, rfl⟩ := Participant.of_rollback hf
      exact ⟨rfl, h.rollback hx⟩)
    (l := []) h
  obtain ⟨tx, d, habort, hreturns, hcommitted⟩ := h.coordinator.abort hrun
  refine ⟨qs, { u₁ with coordinator := d }, Executor.fail_of_rollback hroll hrs habort, hreturns,
    hcommitted, h.size, ?_⟩
  exact fun i key => h.clean i (fun x hx => absurd hx List.not_mem_nil) key

end Undoing

namespace Installing

/-- The overlays install what was written, up to the first that fails. -/
theorem commit_all (h : Installing v [] ps u) (hv : v.Sound) :
    (∃ qs u', actUntil Participant.commit ps u = (.ok (), qs, u') ∧ Installing v qs [] u' ∧
      qs.map (fun x => (x.table, x.buffer)) = ps.map fun x => (x.table, x.buffer)) ∨
      ∃ e qs u', actUntil Participant.commit ps u = (.error e, qs, u') ∧ Undoing v qs u' := by
  refine actUntil_cases (f := Participant.commit)
    (I := fun done todo u => Installing v done todo u ∧
      (done ++ todo).map (fun x => (x.table, x.buffer)) = ps.map fun x => (x.table, x.buffer))
    (E := fun qs u => Undoing v qs u) ?_ ?_ (l := []) ⟨h, rfl⟩ |>.imp ?_ id
  · rintro done x todo u q u' ⟨h, hmap⟩ hf
    obtain ⟨t, hx, rfl⟩ := Participant.of_commit hf
    refine ⟨h.install hx, ?_⟩
    obtain ⟨_, _, _, -, rfl, -⟩ := Overlay.of_commit_ok hx
    rw [← hmap]
    simp
  · rintro done x todo u e q u' ⟨h, -⟩ hf
    obtain ⟨t, hx, rfl⟩ := Participant.of_commit hf
    exact (h.failInstall hx).undoing hv
  · rintro ⟨qs, u', e, h, hmap⟩
    exact ⟨qs, u', e, h, by simpa using hmap⟩

end Installing

/-- A fresh overlay that serves a transaction. -/
def Overlay.attached (tx : Transaction) (i : TableId) : Overlay := { ofTable i with tx := some tx }

/-- Fresh overlays can start. -/
theorem Overlay.start_all (tx : Transaction) (ids : List TableId) (w : World ρ) :
    actUntil (Participant.start tx) (ids.map Overlay.ofTable) w =
      (.ok (), ids.map (attached tx), w) := by
  induction ids with
  | nil => rfl
  | cons i ids ih =>
    have hstart : Participant.start tx (ofTable i) w = (.ok (), attached tx i, w) := rfl
    rw [List.map_cons, actUntil, hstart]
    dsimp only
    rw [ih]
    rfl

/-- Operations change the buffers of overlays, and nothing else. -/
theorem Overlay.forall_of_performs {tables : TableId → Table} {P : Overlay → Prop}
    {qs : List Overlay} (hP : ∀ x buffer, P x → P { x with buffer })
    (h : Relation.ReflTransGen (Overlay.Performs tables) ps qs) (hps : ∀ x ∈ ps, P x) :
    ∀ x ∈ qs, P x := by
  induction h with
  | refl => exact hps
  | tail _ hq ih =>
    obtain ⟨front, x, back, op, answer, y, rfl, hy, rfl⟩ := hq
    obtain ⟨hy, -⟩ := Overlay.of_perform_ok hy
    intro z hz
    rcases List.mem_append.1 hz with hz | hz
    · exact ih z (List.mem_append_left _ hz)
    · rcases List.mem_cons.1 hz with rfl | hz
      · exact hy ▸ hP x _ (ih x (List.mem_append_right _ List.mem_cons_self))
      · exact ih z (List.mem_append_right _ (List.mem_cons_of_mem _ hz))

variable {ids : List TableId} {qs : List Overlay} {body : Body ρ Overlay α}

/-- The world when its next transaction has begun. -/
def World.beginning (v : World ρ) : World ρ := { v with coordinator := v.coordinator.begin.2 }

/-- When the body is through, nothing is installed yet. -/
theorem installing_of_body (hv : v.Sound) (hids : ∀ i ∈ ids, i < v.site.tables.size)
    (hb : body.Works) {r : Except Error α}
    (e : body (ids.map (.attached v.coordinator.begin.1)) v.beginning = (r, qs, u)) :
    Installing v [] qs u := by
  obtain ⟨hc, hs, hqs⟩ := hb _ _ _ _ _ e
  have forall_mem : ∀ {P : Overlay → Prop}, (∀ x buffer, P x → P { x with buffer }) →
      (∀ i ∈ ids, P (.attached v.coordinator.begin.1 i)) → ∀ x ∈ qs, P x := by
    intro P hP h
    refine Overlay.forall_of_performs hP hqs fun x hx => ?_
    obtain ⟨i, hi, rfl⟩ := List.mem_map.1 hx
    exact h i hi
  exact {
    coordinator := by
      rw [hc]
      exact Coordinator.serving_begin fun h => Nat.lt_irrefl _ (hv.reserved _ h)
    size := by
      rw [hs]
      rfl
    known := forall_mem (fun _ _ h => h) hids
    serves := forall_mem (fun _ _ h => h) fun _ _ => rfl
    installed := fun x hx => absurd hx List.not_mem_nil
    waiting := forall_mem (fun _ _ h => h) fun _ _ => rfl
    versions := fun i key => by
      rw [World.table, hs]
      rfl }

/-- In the world `u`, the next transaction of `v` has committed what the overlays wrote. -/
structure Committed (v : World ρ) (qs : List Overlay) (u : World ρ) : Prop where
  returns : v.coordinator.Returns u.coordinator
  committed : u.coordinator.stats.committed = v.coordinator.stats.committed + 1
  next_lt : v.coordinator.next < u.coordinator.next
  size : u.site.tables.size = v.site.tables.size
  versions : ∀ i key, (u.table i).versions key =
    Overlay.versionsBy v.coordinator.next qs i key ++ (v.table i).versions key

theorem Installing.commit (h : Installing v qs [] u) (hv : v.Sound) :
    ∃ pointer tx d, u.coordinator.commit v.coordinator.begin.1 = .ok (pointer, tx, d) ∧
      Committed v qs { u with coordinator := d } := by
  obtain ⟨pointer, tx, d, hd, hreturns, hcommitted, hlt⟩ := h.coordinator.commit
    fun hrun => Nat.lt_irrefl _ (hv.running _ hrun)
  exact ⟨pointer, tx, d, hd, hreturns, hcommitted, hlt, h.size, h.versions⟩

/-- The transaction commits what the body wrote, or all of it is to be undone. -/
theorem steps_cases (hv : v.Sound) (hids : ∀ i ∈ ids, i < v.site.tables.size) (hb : body.Works) :
    (∃ a qs mid u,
      body (ids.map (.attached v.coordinator.begin.1)) v.beginning = (.ok a, qs, mid) ∧
      Executor.steps v.coordinator.begin.1 body (ids.map Overlay.ofTable) v.beginning =
        (.ok a, qs.map Overlay.release, u) ∧
      (∀ x ∈ qs, x.table < v.site.tables.size) ∧ Committed v qs u) ∨
    ∃ e qs u, Executor.steps v.coordinator.begin.1 body (ids.map Overlay.ofTable) v.beginning =
        (.error e, qs, u) ∧ Undoing v qs u := by
  have hstart := Overlay.start_all v.coordinator.begin.1 ids v.beginning
  cases hbody : body (ids.map (.attached v.coordinator.begin.1)) v.beginning with
  | mk r rest =>
    obtain ⟨qs, mid⟩ := rest
    have h := installing_of_body hv hids hb hbody
    cases r with
    | error e =>
      exact .inr ⟨e.inBody, qs, mid, by simp only [Executor.steps, hstart, hbody], h.undoing hv⟩
    | ok a =>
      have hchanges := actAll_eq_map (f := Participant.changes) (k := id) (s := mid)
        (fun x => rfl) qs
      rw [List.map_id] at hchanges
      generalize (qs.map fun x => x.changes (mid.table x.table)) = changes at hchanges
      have hserving := h.coordinator.reserve (.ofList changes.flatten)
      cases hreserve : mid.coordinator.reserve v.coordinator.begin.1 (.ofList changes.flatten) with
      | mk r c =>
        rw [hreserve] at hserving
        have h : Installing v [] qs { mid with coordinator := c } :=
          { h with coordinator := hserving }
        cases r with
        | error e =>
          exact .inr ⟨e, qs, _, by simp only [Executor.steps, hstart, hbody, hchanges, hreserve],
            h.undoing hv⟩
        | ok _ =>
          rcases h.commit_all hv with ⟨qs', u, hinstall, h', hmap⟩ | ⟨e, qs', u, hinstall, h'⟩
          · obtain ⟨pointer, tx, d, hcommit, h'⟩ := h'.commit hv
            have hpost := actAll_eq_map
              (f := fun (x : Overlay) (w : World ρ) => ((), Participant.post x w))
              (s := { u with coordinator := d }) (fun x => rfl) qs'
            have hrelease : qs'.map Overlay.release = qs.map Overlay.release := by
              have := congrArg (List.map fun y => Overlay.ofTable y.1) hmap
              rwa [List.map_map, List.map_map] at this
            refine .inl ⟨a, qs, mid, _, rfl, ?_, h.known, { h' with versions := fun i key => ?_ }⟩
            · simp only [Executor.steps, hstart, hbody, hchanges, hreserve, hinstall, hcommit,
                hpost]
              exact congrArg (fun ps => (Except.ok a, ps, _)) hrelease
            · rw [Overlay.versionsBy, ← Overlay.writesTo_congr hmap]
              exact h'.versions i key
          · exact .inr ⟨e, qs', u,
              by simp only [Executor.steps, hstart, hbody, hchanges, hreserve, hinstall], h'⟩

end Attempt

end NamespaceCatalog
