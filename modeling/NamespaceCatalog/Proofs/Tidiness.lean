import NamespaceCatalog.Proofs.Pruning
import NamespaceCatalog.Proofs.Snapshot

/-!
# Tidy tables

A prune looks only at the rows that are marked as dirty.  That is enough in a tidy table: every
other row has one version, which all snapshots show and which is no delete (`Table.Tidy`).

A custody is a table together with the coordinator that those ask who write to it.  Whatever they do
in the order in which an executor does it, the table stays tidy (`Custody.inv_of_steps`).  So the
versions of a row do not pile up (`Custody.versions_stay_bounded`).  The tables of a scene are in
such custody (`Scene.custody_of_steps`).
-/

namespace NamespaceCatalog

/-! ## Tidy tables -/

namespace Table

variable {t : Table} {settled : Nat → Prop} {key : Bytes} {g : Horizon}

/-- Has every row versions, and has every row that is not dirty just one, that is settled and no
delete? -/
structure Tidy (t : Table) (settled : Nat → Prop) : Prop where
  nonempty : ∀ key : Bytes, t.rows[key]? ≠ some []
  clean : ∀ key, t.versions key ≠ [] → key ∉ t.dirty →
    ∃ v, t.versions key = [v] ∧ v.value ≠ none ∧ settled v.writer

theorem versions_of_getElem? {vs : List Version} (h : t.rows[key]? = some vs) :
    t.versions key = vs := by
  rw [versions, Std.ExtTreeMap.getD_eq_getD_getElem?, h, Option.getD_some]

namespace Tidy

theorem eq_singleton (h : t.Tidy settled) {vs : List Version} (hvs : t.rows[key]? = some vs)
    (hd : key ∉ t.dirty) : ∃ v, vs = [v] ∧ v.value ≠ none ∧ settled v.writer := by
  have hne : t.versions key ≠ [] := by
    rw [versions_of_getElem? hvs]
    rintro rfl
    exact h.nonempty key hvs
  rw [← versions_of_getElem? hvs]
  exact h.clean key hne hd

theorem mono {settled' : Nat → Prop} (h : t.Tidy settled) (hs : ∀ w, settled w → settled' w) :
    t.Tidy settled' where
  nonempty := h.nonempty
  clean key hne hd := by
    obtain ⟨v, e, hv, hw⟩ := h.clean key hne hd
    exact ⟨v, e, hv, hs _ hw⟩

theorem with_log (h : t.Tidy settled) (log : Option LogWriter) : { t with log }.Tidy settled :=
  ⟨h.nonempty, h.clean⟩

theorem addVersion (h : t.Tidy settled) (id : TxId) (w : RowWrite) :
    (t.addVersion id w).Tidy settled where
  nonempty key := by
    simp only [Table.addVersion, Std.ExtTreeMap.getElem?_insert]
    split
    · simp
    · exact h.nonempty key
  clean key hne hd := by
    rw [versions_addVersion] at hne ⊢
    simp only [Table.addVersion, Std.ExtTreeSet.mem_insert, not_or,
      Std.LawfulEqCmp.compare_eq_iff_eq] at hd
    rw [if_neg hd.1] at hne ⊢
    exact h.clean key hne hd.2

theorem addVersions (h : t.Tidy settled) (id : TxId) (writes : List RowWrite) :
    (t.addVersions id writes).Tidy settled := by
  unfold Table.addVersions
  induction writes generalizing t with
  | nil => exact h
  | cons w writes ih => exact ih (h.addVersion id w)

theorem install (h : t.Tidy settled) (id : TxId) (writes : List RowWrite) :
    (t.install id writes).2.Tidy settled := by
  obtain ⟨logged, log, e⟩ | ⟨_, log, e⟩ := t.install_cases id writes
  · rw [e]
    exact (h.addVersions id writes).with_log log
  · rw [e]
    exact h.with_log log

/-- Withdrawing leaves the settled versions. -/
theorem revert (h : t.Tidy settled) {id : TxId} (hid : ¬ settled id) (logged : Bool) :
    (t.revert id logged).Tidy settled := by
  have hwithdraw : (t.withdraw id).Tidy settled := {
    nonempty := fun key => by
      simp only [Table.withdraw, Std.ExtTreeMap.getElem?_filterMap']
      intro e
      obtain ⟨vs, -, e⟩ := Option.bind_eq_some_iff.1 e
      split at e
      · cases e
      · next hne =>
        rw [Option.some.inj e] at hne
        exact hne rfl
    clean := fun key hne hd => by
      rw [versions_withdraw] at hne ⊢
      obtain ⟨v, e, hv, hw⟩ := h.clean key (fun e => hne (by rw [e, List.filter_nil])) hd
      have hwriter : v.writer ≠ id := fun e => hid (e ▸ hw)
      exact ⟨v, by simp [e, hwriter], hv, hw⟩ }
  unfold Table.revert
  split
  · exact hwithdraw.with_log _
  · exact hwithdraw

end Tidy

/-! ### Pruning -/

theorem mem_dirty_pruneRow (g : Horizon) (n : Nat) (t : Table) (k key : Bytes) :
    key ∈ (pruneRow g (n, t) k).2.dirty ↔
      key ∈ t.dirty ∧ (k = key → Version.isUnsettled g (Version.prune g (t.versions key))) := by
  have herase : key ∈ t.dirty.erase k ↔ key ∈ t.dirty ∧ k ≠ key := by
    rw [Std.ExtTreeSet.mem_erase, and_comm, Ne, Ne, Std.LawfulEqCmp.compare_eq_iff_eq]
  simp only [pruneRow]
  split
  · next hk =>
    have hnone : t.versions k = [] := by
      rw [versions, Std.ExtTreeMap.getD_eq_getD_getElem?, hk, Option.getD_none]
    rw [herase]
    refine and_congr_right fun _ => ⟨fun hne e => absurd e hne, ?_⟩
    rintro hu rfl
    rw [hnone] at hu
    cases hu rfl
  · next vs hk =>
    have hvs : t.versions k = vs := versions_of_getElem? hk
    dsimp only
    split
    · next hu => exact (and_iff_left fun e => e ▸ hvs ▸ hu).symm
    · next hu =>
      rw [herase]
      refine and_congr_right fun _ => ⟨fun hne e => absurd e hne, ?_⟩
      rintro h rfl
      exact hu (hvs ▸ h rfl)

theorem mem_dirty_foldl_pruneRow (g : Horizon) (n : Nat) (t : Table) {keys : List Bytes}
    (hk : keys.Nodup) (key : Bytes) :
    key ∈ (keys.foldl (pruneRow g) (n, t)).2.dirty ↔ key ∈ t.dirty ∧
      (key ∈ keys → Version.isUnsettled g (Version.prune g (t.versions key))) := by
  induction keys generalizing n t with
  | nil => simp
  | cons k keys ih =>
    obtain ⟨hnot, hk⟩ := List.nodup_cons.1 hk
    obtain ⟨m, u, hmu⟩ : ∃ m u, pruneRow g (n, t) k = (m, u) := ⟨_, _, rfl⟩
    have hdirty := mem_dirty_pruneRow g n t k key
    have hversions := versions_pruneRow g n t k key
    rw [hmu] at hdirty hversions
    rw [List.foldl_cons, hmu, ih m u hk, hdirty, hversions, and_assoc]
    by_cases e : k = key
    · subst e
      simp [hnot]
    · simp [e, Ne.symm e]

/-- A row stays dirty if more can be dropped of what is left of it. -/
theorem mem_dirty_prune (t : Table) (g : Horizon) (key : Bytes) :
    key ∈ (t.prune g).2.dirty ↔
      key ∈ t.dirty ∧ Version.isUnsettled g (Version.prune g (t.versions key)) := by
  have hk : t.dirty.toList.Nodup := t.dirty.distinct_toList.imp fun h e => h (by simp [e])
  rw [prune, mem_dirty_foldl_pruneRow g 0 t hk, Std.ExtTreeSet.mem_toList]
  exact and_congr_right fun hd => ⟨fun h => h hd, fun h _ => h⟩

theorem getElem?_pruneRow_ne (h : ∀ key : Bytes, t.rows[key]? ≠ some []) (g : Horizon) (n : Nat)
    (k key : Bytes) : (pruneRow g (n, t) k).2.rows[key]? ≠ some [] := by
  simp only [pruneRow]
  split
  · exact h key
  · dsimp only
    split
    · rw [Std.ExtTreeMap.getElem?_erase]
      split
      · simp
      · exact h key
    · next hne =>
      rw [Std.ExtTreeMap.getElem?_insert]
      split
      · intro e
        exact hne (List.isEmpty_iff.2 (Option.some.inj e))
      · exact h key

/-- A prune may use any horizon whose settled writers are still settled. -/
theorem Tidy.prune (h : t.Tidy settled) (hg : ∀ w, g.isSettled w → settled w) :
    (t.prune g).2.Tidy settled where
  nonempty := prune_induction (P := fun t => ∀ key : Bytes, t.rows[key]? ≠ some []) h.nonempty g
    fun n t k h key => getElem?_pruneRow_ne h g n k key
  clean key hne hd := by
    rw [mem_dirty_prune, not_and, Bool.not_eq_true] at hd
    rw [versions_prune] at hne ⊢
    split at hne
    · next hdirty =>
      rw [if_pos hdirty]
      obtain ⟨v, e, hv, hs⟩ := Version.prune_eq_singleton hne (hd hdirty)
      exact ⟨v, e, hv, hg _ hs⟩
    · next hclean =>
      rw [if_neg hclean]
      exact h.clean key hne hclean

/-! ### Opening -/

/-- Has the table the rows with which it was opened? -/
def IsOpened (t : Table) : Prop := ∃ rows, t.rows = baseRows rows ∧ t.dirty = ∅

theorem isOpened_inMemory (name : String) : (inMemory name).IsOpened :=
  ⟨∅, Std.ExtTreeMap.ext_getElem? fun key => by simp [inMemory, baseRows], rfl⟩

theorem isOpened_of_load {name : String} {stream left : Stream} {sync : Bool}
    (h : load name stream sync = (.ok t, left)) : t.IsOpened := by
  unfold load at h
  split at h
  · cases h
  · cases h
    exact ⟨_, rfl, rfl⟩

theorem IsOpened.tidy (h : t.IsOpened) (hbase : settled TxId.base) : t.Tidy settled := by
  obtain ⟨rows, hrows, -⟩ := h
  constructor
  case nonempty =>
    intro key
    rw [hrows, baseRows, Std.ExtTreeMap.getElem?_map]
    cases rows[key]? <;> simp
  case clean =>
    intro key hne _
    rw [versions, hrows, versions_baseRows] at hne ⊢
    cases hv : rows[key]? with
    | none => simp [hv] at hne
    | some value => exact ⟨⟨TxId.base, some value⟩, rfl, Option.some_ne_none value, hbase⟩

theorem IsOpened.writer_eq (h : t.IsOpened) {v : Version} (hv : v ∈ t.versions key) :
    v.writer = TxId.base := by
  obtain ⟨rows, hrows, -⟩ := h
  rw [versions, hrows] at hv
  exact writer_of_mem_baseRows hv

/-! ### Counting -/

theorem values_eq_map_snd {β : Type} (m : Std.ExtTreeMap Bytes β) :
    m.values = m.toList.map (·.2) := by
  obtain ⟨⟨⟨tree⟩⟩⟩ := m
  show Std.DTreeMap.Internal.Impl.values _ =
    (Std.DTreeMap.Internal.Impl.Const.toList _).map (·.2)
  rw [Std.DTreeMap.Internal.Impl.values_eq_map_snd,
    Std.DTreeMap.Internal.Impl.Const.toList_eq_toListModel_map, List.map_map]
  rfl

/-- A tidy table without dirty rows holds one version of each row. -/
theorem Tidy.versionCount_eq (h : t.Tidy settled) (hd : ∀ key, key ∉ t.dirty) :
    t.versionCount = t.keyCount := by
  have hone : ∀ row ∈ t.rows.toList, (List.length ∘ (·.2)) row = 1 := by
    rintro ⟨key, vs⟩ hrow
    obtain ⟨v, rfl, -⟩ := h.eq_singleton (Std.ExtTreeMap.mem_toList_iff_getElem?_eq_some.1 hrow)
      (hd key)
    rfl
  rw [versionCount, keyCount, values_eq_map_snd, List.length_flatten, List.map_map,
    List.map_congr_left hone, List.map_const', List.sum_replicate_nat, Nat.mul_one,
    Std.ExtTreeMap.length_toList]

/-- Who sees the settled writers reads every row of a tidy table without dirty rows. -/
theorem Tidy.length_scan (h : t.Tidy settled) (hd : ∀ key, key ∉ t.dirty) {tx : Transaction}
    (hsees : ∀ key, ∀ v ∈ t.versions key, settled v.writer → tx.sees v.writer) :
    (t.scan tx []).length = t.keyCount := by
  rw [scan, List.length_filterMap_eq_countP, keyCount, ← Std.ExtTreeMap.length_toList,
    List.countP_eq_length]
  rintro ⟨key, vs⟩ hrow
  have hvs := Std.ExtTreeMap.mem_toList_iff_getElem?_eq_some.1 hrow
  obtain ⟨v, rfl, hv, hs⟩ := h.eq_singleton hvs (hd key)
  have := hsees key v (versions_of_getElem? hvs ▸ List.mem_singleton_self v) hs
  simpa [Version.visible_cons, this, Option.isSome_iff_ne_none] using hv

end Table

/-! ## A table in custody -/

/-- A table, the coordinator of those who write to it, and the horizons taken so far. -/
structure Custody where
  chronicle : Chronicle
  table : Table
  horizons : List Horizon

namespace Custody

/-- The table before the first transaction. -/
def ofTable (t : Table) : Custody := ⟨.new, t, []⟩

/-- The coordinator. -/
def coordinator (s : Custody) : Coordinator := s.chronicle.coordinator

/-- Does the table hold nothing that `id` wrote? -/
def Clear (s : Custody) (id : TxId) : Prop := ∀ key, ∀ v ∈ s.table.versions key, v.writer ≠ id

/-- May the coordinator be asked?  What a transaction wrote is withdrawn before it is aborted, only
a running transaction is invalidated, and it is forgotten when nothing is left of it. -/
def Permits (s : Custody) : Request → Prop
  | .begin | .reserve .. | .commit _ => True
  | .abort tx => tx.id ∈ s.coordinator.inProgress → s.Clear tx.id
  | .invalidate tx => tx.id ∈ s.coordinator.inProgress
  | .forgetInvalid ids => ∀ id ∈ ids, s.Clear id

/-- What can happen next.  A running transaction may install whatever it likes, more than once and
without having reserved it. -/
inductive Step : Custody → Custody → Prop
  | ask {s : Custody} {r : Request} (hr : s.Permits r) :
    Step s { s with chronicle := s.chronicle.serve r }
  | install {s : Custody} {id : TxId} (hid : id ∈ s.coordinator.inProgress)
    (writes : List RowWrite) : Step s { s with table := (s.table.install id writes).2 }
  | revert {s : Custody} {id : TxId} (hid : id ∈ s.coordinator.inProgress) (logged : Bool) :
    Step s { s with table := s.table.revert id logged }
  | takeHorizon (s : Custody) :
    Step s { s with horizons := s.coordinator.horizon :: s.horizons }
  | prune {s : Custody} {g : Horizon} (hg : g ∈ s.horizons) :
    Step s { s with table := (s.table.prune g).2 }

/-- One custody after another, with any number of steps between. -/
def Steps : Custody → Custody → Prop := Relation.ReflTransGen Step

/-- What holds after every run. -/
structure Inv (s : Custody) : Prop where
  lawful : s.chronicle.Lawful
  recalled : ∃ full, Chronicle.Recalls s.chronicle full
  writers : ∀ key, ∀ v ∈ s.table.versions key, s.chronicle.Knows v.writer
  horizons : ∀ g ∈ s.horizons, g.Past s.chronicle
  tidy : s.table.Tidy s.chronicle.Settles

variable {s d : Custody} {t : Table} {g : Horizon} {id : TxId}

namespace Inv

theorem ofTable (ht : t.IsOpened) : Inv (ofTable t) where
  lawful := Chronicle.lawful_new
  recalled := ⟨_, Chronicle.recalls_new⟩
  writers _ _ hv := .inl (ht.writer_eq hv)
  horizons := nofun
  tidy := ht.tidy (.inl rfl)

theorem ask (h : Inv s) {r : Request} (hr : s.Permits r) :
    Inv { s with chronicle := s.chronicle.serve r } := by
  have hallows : s.chronicle.Allows r := by
    rintro tx rfl
    exact hr
  have adv := Chronicle.advances_serve s.chronicle r hallows
  obtain ⟨full, hfull⟩ := h.recalled
  constructor
  case lawful => exact h.lawful.serve hallows
  case recalled => exact ⟨_, hfull.serve h.lawful.inv r⟩
  case writers =>
    intro key v hv
    rcases Chronicle.knows_serve (h.writers key v hv) r with hw | ⟨tx, rfl, -, hid, hrun⟩ |
      ⟨ids, rfl, hm, -⟩
    · exact hw
    · exact absurd hid.symm (hr (hid ▸ hrun) key v hv)
    · exact absurd rfl (hr _ hm key v hv)
  case horizons => exact fun g hg => (h.horizons g hg).advance h.lawful.inv adv
  case tidy => exact h.tidy.mono fun w hw => hw.advance h.lawful.inv adv

/-- The table may change if it stays tidy and gets no versions but of running transactions. -/
theorem change (h : Inv s) (htidy : t.Tidy s.chronicle.Settles)
    (hwriters : ∀ key, ∀ v ∈ t.versions key,
      v ∈ s.table.versions key ∨ v.writer ∈ s.coordinator.inProgress) :
    Inv { s with table := t } where
  lawful := h.lawful
  recalled := h.recalled
  writers key v hv := (hwriters key v hv).elim (h.writers key v) fun hr => .inr (.inr (.inl hr))
  horizons := h.horizons
  tidy := htidy

theorem install (h : Inv s) (hid : id ∈ s.coordinator.inProgress) (writes : List RowWrite) :
    Inv { s with table := (s.table.install id writes).2 } := by
  refine h.change (h.tidy.install id writes) fun key v hv => ?_
  obtain ⟨logged, log, e⟩ | ⟨_, log, e⟩ := s.table.install_cases id writes
  · rw [e] at hv
    change v ∈ (s.table.addVersions id writes).versions key at hv
    rw [Table.versions_addVersions] at hv
    rcases List.mem_append.1 hv with hv | hv
    · obtain ⟨w, -, rfl⟩ := List.mem_map.1 hv
      exact .inr hid
    · exact .inl hv
  · rw [e] at hv
    exact .inl hv

theorem revert (h : Inv s) (hid : id ∈ s.coordinator.inProgress) (logged : Bool) :
    Inv { s with table := s.table.revert id logged } := by
  refine h.change (h.tidy.revert (fun hs => ?_) logged) fun key v hv => ?_
  · rcases hs with e | ⟨hrun, -⟩
    · exact Nat.ne_of_gt (h.lawful.inv.running id hid).1 e
    · exact hrun hid
  · rw [Table.versions_revert] at hv
    exact .inl (List.mem_filter.1 hv).1

theorem takeHorizon (h : Inv s) :
    Inv { s with horizons := s.coordinator.horizon :: s.horizons } := by
  refine ⟨h.lawful, h.recalled, h.writers, fun g hg => ?_, h.tidy⟩
  rcases List.mem_cons.1 hg with rfl | hg
  · exact h.lawful.past_horizon
  · exact h.horizons g hg

theorem mem_versions_of_prune {key : Bytes} {v : Version}
    (hv : v ∈ (s.table.prune g).2.versions key) : v ∈ s.table.versions key := by
  rw [Table.versions_prune] at hv
  split at hv
  · exact (Version.prune_sublist g _).subset hv
  · exact hv

theorem prune (h : Inv s) (hg : g ∈ s.horizons) : Inv { s with table := (s.table.prune g).2 } :=
  h.change (h.tidy.prune fun _ hw => (h.horizons g hg).settles hw)
    fun _ _ hv => .inl (mem_versions_of_prune hv)

theorem step (h : Inv s) (hd : Step s d) : Inv d := by
  cases hd with
  | ask hr => exact h.ask hr
  | install hid writes => exact h.install hid writes
  | revert hid logged => exact h.revert hid logged
  | takeHorizon => exact h.takeHorizon
  | prune hg => exact h.prune hg

end Inv

theorem inv_of_steps (ht : t.IsOpened) (h : Steps (ofTable t) s) : Inv s := by
  induction h with
  | refl => exact .ofTable ht
  | tail _ hd ih => exact ih.step hd

namespace Inv

theorem isSettled_horizon_iff (h : Inv s) {w : Nat} :
    s.coordinator.horizon.isSettled w ↔ s.chronicle.Settles w := by
  obtain ⟨full, hfull⟩ := h.recalled
  exact Chronicle.isSettled_horizon_iff hfull

theorem isDead_eq_false (h : Inv s) (hg : g ∈ s.horizons) {w : Nat} (hw : s.chronicle.Knows w)
    (hs : s.chronicle.Settles w) : g.isDead w = false := by
  rw [Bool.eq_false_iff]
  intro hdead
  obtain ⟨hpos, -, -, hcommits⟩ := (h.horizons g hg).dead w hdead
  rcases hs.exists_commit hw with e | ⟨k, hk, e⟩
  · exact Nat.ne_of_gt hpos e
  · exact hcommits k hk e

theorem sees_begin (h : Inv s) {key : Bytes} {v : Version} (hv : v ∈ s.table.versions key)
    (hs : s.chronicle.Settles v.writer) : s.coordinator.begin.1.sees v.writer :=
  (h.lawful.sees_begin_iff (h.writers key v hv)).2 (hs.exists_commit (h.writers key v hv))

/-- Who begins reads what he would have read without the prune. -/
theorem scan_prune (h : Inv s) (start : Bytes) :
    (s.table.prune s.coordinator.horizon).2.scan s.coordinator.begin.1 start =
      s.table.scan s.coordinator.begin.1 start := by
  refine Table.scan_congr (fun key => ?_) start
  rw [Table.get_eq, Table.get_eq, Table.versions_prune]
  split
  · refine Version.newest_prune (fun v hv hs => ?_) fun v hv hd hsees => ?_
    · exact h.sees_begin hv (h.isSettled_horizon_iff.1 hs)
    · obtain ⟨hpos, -, -, hcommits⟩ := h.lawful.invalid _ (Coordinator.isDead_horizon.1 hd)
      rcases (h.lawful.sees_begin_iff (h.writers key v hv)).1 hsees with e | ⟨k, hk, e⟩
      · exact Nat.ne_of_gt hpos e
      · exact hcommits k hk e
  · rfl

/-- While nobody runs, a prune can drop all it ever can. -/
theorem not_mem_dirty_prune (h : Inv s) (hidle : s.coordinator.inProgress = ∅) (key : Bytes) :
    key ∉ (s.table.prune s.coordinator.horizon).2.dirty := by
  rw [Table.mem_dirty_prune]
  rintro ⟨-, hu⟩
  rw [Version.isUnsettled_prune_of_forall fun v hv => ?_] at hu
  · cases hu
  · rw [h.isSettled_horizon_iff, Coordinator.isDead_horizon]
    by_cases hi : v.writer ∈ s.coordinator.invalid
    · exact .inr hi
    · refine .inl (.inr ⟨?_, hi, h.lawful.lt_of_knows (h.writers key v hv), ?_⟩)
      · exact fun hr => Std.ExtTreeSet.not_mem_empty (hidle ▸ hr)
      · exact fun _ _ _ i hr => absurd (hidle ▸ hr) Std.ExtTreeSet.not_mem_empty

end Inv

/-- The versions of a row do not pile up.  A row that is not dirty has one version, which is settled
and no delete.  A prune leaves at most one version that its horizon calls settled, and none that it
calls dead.  While no transaction runs, a prune leaves as many versions as rows can be read, which
are those that could be read before. -/
theorem versions_stay_bounded (ht : t.IsOpened) (h : Steps (ofTable t) s) :
    (∀ (key : Bytes) vs, s.table.rows[key]? = some vs → key ∉ s.table.dirty →
      ∃ v, vs = [v] ∧ v.value ≠ none ∧ s.coordinator.horizon.isSettled v.writer) ∧
    (∀ g ∈ s.horizons, ∀ (key : Bytes) vs, (s.table.prune g).2.rows[key]? = some vs →
      vs.countP (fun v => g.isSettled v.writer) ≤ 1 ∧ ∀ v ∈ vs, g.isDead v.writer = false) ∧
    (s.coordinator.inProgress = ∅ →
      let pruned := (s.table.prune s.coordinator.horizon).2
      pruned.versionCount = pruned.keyCount ∧
        pruned.keyCount = (pruned.scan s.coordinator.begin.1 []).length ∧
        pruned.scan s.coordinator.begin.1 [] = s.table.scan s.coordinator.begin.1 []) := by
  have hs := inv_of_steps ht h
  refine ⟨fun key vs hvs hd => ?_, fun g hg key vs hvs => ?_, fun hidle => ?_⟩
  · obtain ⟨v, e, hv, hw⟩ := hs.tidy.eq_singleton hvs hd
    exact ⟨v, e, hv, hs.isSettled_horizon_iff.2 hw⟩
  · rw [← Table.versions_of_getElem? hvs, Table.versions_prune]
    split
    · exact ⟨Version.countP_settled_prune g _, fun v hv => Version.isDead_of_mem_prune hv⟩
    · next hd =>
      by_cases hne : s.table.versions key = []
      · simp [hne]
      · obtain ⟨v, e, -, hw⟩ := hs.tidy.clean key hne hd
        have hknows := hs.writers key v (e ▸ List.mem_singleton_self v)
        rw [e]
        refine ⟨List.countP_le_length, fun w hw' => ?_⟩
        rw [List.mem_singleton.1 hw']
        exact hs.isDead_eq_false hg hknows hw
  · have hclean := hs.not_mem_dirty_prune hidle
    have htidy : (s.table.prune s.coordinator.horizon).2.Tidy s.chronicle.Settles :=
      hs.tidy.prune fun _ => hs.isSettled_horizon_iff.1
    refine ⟨htidy.versionCount_eq hclean, (htidy.length_scan hclean fun key v hv => ?_).symm,
      hs.scan_prune []⟩
    exact hs.sees_begin (Inv.mem_versions_of_prune hv)

/-- A first transaction writes a row.  A second one, which began before that was committed, deletes
it and writes another row. -/
def overwritten : Custody where
  chronicle := .run [.begin, .begin, .commit ⟨1, 0, [], .active⟩, .commit ⟨2, 1, [1], .active⟩]
  table := (((Table.inMemory "t").install 1 [([1], some [7])]).2.install 2
    [([1], none), ([2], some [8])]).2
  horizons := []

theorem count_of_overwritten :
    Steps (ofTable (Table.inMemory "t")) overwritten ∧
      overwritten.coordinator.inProgress = ∅ ∧ overwritten.table.versionCount = 3 ∧
      let pruned := (overwritten.table.prune overwritten.coordinator.horizon).2
      pruned.versionCount = pruned.keyCount ∧
        pruned.keyCount = (pruned.scan overwritten.coordinator.begin.1 []).length ∧
        pruned.scan overwritten.coordinator.begin.1 [] =
          overwritten.table.scan overwritten.coordinator.begin.1 [] := by
  have running : ∀ (requests : List Request) (i : Nat),
      i ∈ (Chronicle.runFully requests).inProgress →
      i ∈ (Chronicle.run requests).coordinator.inProgress :=
    fun requests _ => (Chronicle.recalls_run requests).mem_inProgress.1
  have hfirst : (1 : Nat) ∈ (Chronicle.run [.begin, .begin]).coordinator.inProgress :=
    running _ _ (by decide +kernel)
  have hsecond : (2 : Nat) ∈ (Chronicle.run [.begin, .begin,
      .commit ⟨1, 0, [], .active⟩]).coordinator.inProgress := running _ _ (by decide +kernel)
  have hsteps : Steps (ofTable (Table.inMemory "t")) overwritten :=
    (((((Relation.ReflTransGen.refl.tail (.ask (r := .begin) trivial)).tail
      (.ask (r := .begin) trivial)).tail (.install hfirst [([1], some [7])])).tail
      (.ask (r := .commit ⟨1, 0, [], .active⟩) trivial)).tail
      (.install hsecond [([1], none), ([2], some [8])])).tail
      (.ask (r := .commit ⟨2, 1, [1], .active⟩) trivial)
  have hidle : overwritten.coordinator.inProgress = ∅ := by
    rw [coordinator, overwritten, (Chronicle.recalls_run _).pruned, Coordinator.inProgress_prune,
      ← Std.ExtTreeSet.isEmpty_iff]
    decide +kernel
  exact ⟨hsteps, hidle, by decide +kernel,
    (versions_stay_bounded (Table.isOpened_inMemory "t") hsteps).2.2 hidle⟩

end Custody

/-! ## The tables of a scene -/

/-- Everything that a commit does to the table. -/
theorem Overlay.table_commit_cases (x : Overlay) (t : Table) :
    (x.commit t).2.2 = t ∨
      ∃ tx, x.tx = some tx ∧ (x.commit t).2.2 = (t.install tx.id x.buffer.toList).2 := by
  unfold commit active
  cases hx : x.tx with
  | none => exact .inl rfl
  | some tx =>
    refine .inr ⟨tx, rfl, ?_⟩
    dsimp only
    split <;> next e => rw [e]

/-- Everything that a rollback does to the table. -/
theorem Overlay.table_rollback_cases (x : Overlay) (t : Table) :
    (x.rollback t).2 = t ∨
      ∃ tx, x.tx = some tx ∧ (x.rollback t).2 = t.revert tx.id x.logged := by
  unfold rollback
  split
  · next tx hx _ => exact .inr ⟨tx, hx, rfl⟩
  · exact .inl rfl

namespace Scene

variable {s d : Scene} {e : Event} {t : TableId}

/-- One table of the scene, in custody. -/
def custody (s : Scene) (t : TableId) : Custody := ⟨s.chronicle, s.tables t, s.horizons⟩

theorem custody_putTable {u : TableId} {table : Table}
    (h : Custody.Steps (s.custody u) { s.custody u with table }) (t : TableId) :
    Custody.Steps (s.custody t) ((s.putTable u table).custody t) := by
  change Custody.Steps _ ⟨s.chronicle, Function.update s.tables u table t, s.horizons⟩
  by_cases e : t = u
  · subst e
    rw [Function.update_self]
    exact h
  · rw [Function.update_of_ne e]
    exact .refl

/-- What an actor does, every table's custody allows. -/
theorem Inv.custody_step (h : Inv s) (hd : Step s e d) (t : TableId) :
    Custody.Steps (s.custody t) (d.custody t) := by
  have running : ∀ {i a}, s.actors i = some a → a.progress ≠ .over →
      a.tx.id = i ∧ i ∈ s.coordinator.inProgress := fun ha hp =>
    ⟨(h.fits _ _ ha hp).id, (h.running _).2 ⟨_, ha, hp⟩⟩
  have attached : ∀ {i a u tx}, s.actors i = some a → a.progress ≠ .over →
      (a.overlays u).tx = some tx → tx.id ∈ s.coordinator.inProgress := by
    intro i a u tx ha hp htx
    rw [(h.fits i a ha hp).id_of_overlay htx]
    exact (running ha hp).2
  have installed : ∀ {i a u x table result}, s.actors i = some a → a.progress ≠ .over →
      (a.overlays u).commit (s.tables u) = (result, x, table) →
      Custody.Steps (s.custody t) ((s.putTable u table).custody t) := by
    intro i a u x table result ha hp hx
    refine custody_putTable ?_ t
    obtain rfl : ((a.overlays u).commit (s.tables u)).2.2 = table := by rw [hx]
    rcases (a.overlays u).table_commit_cases (s.tables u) with e | ⟨tx, htx, e⟩
    · rw [e]
      exact .refl
    · rw [e]
      exact .single (.install (attached ha hp htx) _)
  cases hd with
  | begin => exact .single (.ask (r := .begin) trivial)
  | start | perform | post | fail => exact .refl
  | reserve => exact .single (.ask (r := .reserve _ _) trivial)
  | refuse => exact .single (.ask (r := .reserve _ _) trivial)
  | commit => exact .single (.ask (r := .commit _) trivial)
  | install ha hp hn hx => exact installed ha (by simp [hp]) hx
  | failInstall ha hp hn hx => exact installed ha (by simp [hp]) hx
  | @rollback i a u x table ha hp hx =>
    refine custody_putTable ?_ t
    obtain rfl : ((a.overlays u).rollback (s.tables u)).2 = table := by rw [hx]
    rcases (a.overlays u).table_rollback_cases (s.tables u) with e | ⟨tx, htx, e⟩
    · rw [e]
      exact .refl
    · rw [e]
      exact .single (.revert (attached ha (by simp [hp]) htx) _)
  | @abort i a tx c ha hp hall hc =>
    have hp : a.progress ≠ .over := by simp [hp]
    refine .single (.ask (r := .abort a.tx) fun _ key v hv => ?_)
    obtain ⟨others, hothers, hwriter⟩ := (h.fits i a ha hp).own t key
    rw [Actor.own_eq_nil (hall t), List.nil_append] at hothers
    rw [(running ha hp).1]
    exact hwriter v (hothers ▸ hv)
  | @invalidate i a ha hp =>
    obtain ⟨hid, hrun⟩ := running ha (by simp [hp])
    refine .single (.ask (r := .invalidate a.tx) ?_)
    rw [← hid] at hrun
    exact hrun
  | takeHorizon => exact .single (.takeHorizon _)
  | prune hh u => exact custody_putTable (.single (.prune hh)) t
  | forget hids => exact .single (.ask (r := .forgetInvalid _) fun id hid => hids id hid t)

/-- Every table of a scene is in the custody of its coordinator. -/
theorem custody_of_steps {names : TableId → String} {base : TableId → Std.ExtTreeMap Bytes Bytes}
    {logs : TableId → Option LogWriter} (h : Steps (opened names base logs) s) (t : TableId) :
    ((opened names base logs).tables t).IsOpened ∧
      Custody.Steps (.ofTable ((opened names base logs).tables t)) (s.custody t) := by
  refine ⟨⟨base t, rfl, rfl⟩, ?_⟩
  induction h with
  | refl => exact .refl
  | tail hs hd ih =>
    obtain ⟨e, hd⟩ := hd
    exact ih.trans ((inv_of_steps hs).custody_step hd t)

end Scene

end NamespaceCatalog
