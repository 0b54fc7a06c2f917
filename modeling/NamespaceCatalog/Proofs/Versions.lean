import Mathlib.Data.List.Sort
import NamespaceCatalog.Table.Operation

/-!
# The versions in a table

`Version.newest p` is the value that a row has for a reader who sees the writers `p`; a transaction
reads with `p` the writers it sees (`visible_eq_newest`).  A prune does not change what such a
reader gets if it sees the settled writers and none of the dead ones (`newest_prune`).

`Table.versions` gives the versions of a row, none if there is no row.  This file says what the
operations of a table do to them, row by row.  `Overlay.view` lays the writes of an overlay over
given rows.
-/

namespace NamespaceCatalog

/-! ## Lists of versions -/

namespace Version

/-- The value of a row for who sees the writers `p`. -/
def newest (p : TxId → Bool) (vs : List Version) : Option Bytes :=
  (vs.find? fun v => p v.writer).bind (·.value)

theorem visible_eq_newest (tx : Transaction) (vs : List Version) :
    visible tx vs = newest tx.sees vs := rfl

variable {p q : TxId → Bool} {h : Horizon} {v : Version} {vs : List Version}

@[simp] theorem newest_nil (p : TxId → Bool) : newest p [] = none := rfl

theorem newest_cons (p : TxId → Bool) (v : Version) (vs : List Version) :
    newest p (v :: vs) = if p v.writer then v.value else newest p vs := by
  by_cases h : p v.writer = true <;> simp [newest, h]

theorem newest_congr (e : ∀ v ∈ vs, p v.writer = q v.writer) : newest p vs = newest q vs := by
  induction vs with
  | nil => rfl
  | cons v vs ih =>
    rw [newest_cons, newest_cons, e v List.mem_cons_self,
      ih fun w hw => e w (List.mem_cons_of_mem v hw)]

/-- Versions that are not seen do not matter. -/
theorem newest_filter {f : Version → Bool} (hf : ∀ v ∈ vs, p v.writer → f v) :
    newest p (vs.filter f) = newest p vs := by
  induction vs with
  | nil => rfl
  | cons v vs ih =>
    have ih := ih fun w hw => hf w (List.mem_cons_of_mem v hw)
    by_cases hv : f v
    · rw [List.filter_cons_of_pos hv, newest_cons, newest_cons, ih]
    · have hp : ¬ p v.writer := fun hp => hv (hf v List.mem_cons_self hp)
      rw [List.filter_cons_of_neg hv, newest_cons, if_neg hp, ih]

theorem newest_dropHidden (hs : ∀ v ∈ vs, h.isSettled v.writer → p v.writer) :
    newest p (dropHidden h vs) = newest p vs := by
  induction vs with
  | nil => rfl
  | cons v vs ih =>
    rw [dropHidden]
    split
    · next hv => rw [newest_cons, newest_cons, if_pos (hs v List.mem_cons_self hv),
        if_pos (hs v List.mem_cons_self hv)]
    · rw [newest_cons, newest_cons, ih fun w hw => hs w (List.mem_cons_of_mem v hw)]

theorem isSettledDelete_iff : isSettledDelete h v ↔ v.value = none ∧ h.isSettled v.writer := by
  rw [isSettledDelete, Bool.and_eq_true, Option.isNone_iff_eq_none]

/-- Either a settled delete was dropped from the end, or there is none at the end. -/
theorem dropLastDelete_cases (h : Horizon) (vs : List Version) :
    (∃ v, vs = dropLastDelete h vs ++ [v] ∧ isSettledDelete h v) ∨
    dropLastDelete h vs = vs ∧ ∀ v, vs.getLast? = some v → ¬ isSettledDelete h v := by
  unfold dropLastDelete
  split
  · next hlast =>
    obtain ⟨v, hv, hd⟩ := (Option.any_eq_true _ _).1 hlast
    obtain ⟨front, rfl⟩ := List.getLast?_eq_some_iff.1 hv
    exact .inl ⟨v, by rw [List.dropLast_concat], hd⟩
  · next hlast =>
    refine .inr ⟨rfl, fun v hv hd => hlast ?_⟩
    rw [hv, Option.any_some, hd]

/-- A delete at the end reads like no row at all. -/
theorem newest_dropLastDelete : newest p (dropLastDelete h vs) = newest p vs := by
  obtain ⟨v, e, hd⟩ | ⟨e, -⟩ := dropLastDelete_cases h vs
  · have hn : v.value = none := (isSettledDelete_iff.1 hd).1
    conv_rhs => rw [e]
    generalize dropLastDelete h vs = front
    induction front with
    | nil => simp [newest_cons, hn]
    | cons w front ih => rw [List.cons_append, newest_cons, newest_cons, ih]
  · rw [e]

/-- Who sees all settled writers and no dead one reads the same after a prune. -/
theorem newest_prune (hs : ∀ v ∈ vs, h.isSettled v.writer → p v.writer)
    (hd : ∀ v ∈ vs, h.isDead v.writer → ¬ p v.writer) : newest p (prune h vs) = newest p vs := by
  unfold prune
  rw [newest_dropLastDelete, newest_dropHidden fun v hv => hs v (List.mem_filter.1 hv).1]
  refine newest_filter fun v hv hp => ?_
  cases hdead : h.isDead v.writer with
  | false => rfl
  | true => exact absurd hp (hd v hv hdead)

theorem dropHidden_sublist (h : Horizon) (vs : List Version) : (dropHidden h vs).Sublist vs := by
  induction vs with
  | nil => exact .slnil
  | cons v vs ih =>
    rw [dropHidden]
    split
    · exact List.filter_sublist.cons_cons v
    · exact ih.cons_cons v

theorem dropLastDelete_sublist (h : Horizon) (vs : List Version) :
    (dropLastDelete h vs).Sublist vs := by
  obtain ⟨v, e, -⟩ | ⟨e, -⟩ := dropLastDelete_cases h vs
  · conv_rhs => rw [e]
    exact List.sublist_append_left _ _
  · rw [e]

theorem prune_sublist (h : Horizon) (vs : List Version) : (prune h vs).Sublist vs :=
  ((dropLastDelete_sublist h _).trans (dropHidden_sublist h _)).trans List.filter_sublist

/-- A prune keeps a version in front whose writer is neither settled nor dead. -/
theorem prune_cons (hs : h.isSettled v.writer = false) (hd : h.isDead v.writer = false) :
    prune h (v :: vs) = v :: prune h vs := by
  unfold prune
  rw [List.filter_cons_of_pos (by simp [hd]), dropHidden, if_neg (by simp [hs])]
  generalize dropHidden h _ = ws
  unfold dropLastDelete
  cases ws with
  | nil => simp [isSettledDelete, hs]
  | cons w ws =>
    rw [List.getLast?_cons_cons, List.dropLast_cons_cons]
    split <;> rfl

end Version

/-! ## Rows and writes -/

section Rows

variable {β : Type} {key : Bytes}

instance asymm_compare_lt : Std.Asymm fun a b : Bytes => compare a b = .lt :=
  ⟨fun _ _ => Std.OrientedCmp.not_lt_of_lt⟩

instance asymm_compare_fst_lt : Std.Asymm fun a b : Bytes × β => compare a.1 b.1 = .lt :=
  ⟨fun _ _ => Std.OrientedCmp.not_lt_of_lt⟩

theorem filter_key_of_mem {l : List (Bytes × β)} {v : β}
    (hl : l.Pairwise fun a b => a.1 ≠ b.1) (hm : (key, v) ∈ l) :
    l.filter (·.1 = key) = [(key, v)] := by
  induction l with
  | nil => cases hm
  | cons a l ih =>
    obtain ⟨ha, hl⟩ := List.pairwise_cons.1 hl
    rcases List.mem_cons.1 hm with rfl | hm
    · have hrest : l.filter (·.1 = key) = [] :=
        List.filter_eq_nil_iff.2 fun b hb => by simpa using (ha b hb).symm
      rw [List.filter_cons_of_pos (by simp), hrest]
    · rw [List.filter_cons_of_neg (by simpa using ha _ hm), ih hl hm]

/-- The row with the given key in the list of a map. -/
theorem filter_key_toList (m : Std.ExtTreeMap Bytes β) (key : Bytes) :
    m.toList.filter (·.1 = key) = (m[key]?.map (key, ·)).toList := by
  have hl : m.toList.Pairwise fun a b => a.1 ≠ b.1 :=
    m.distinct_keys_toList.imp fun h e => h (by simp [e])
  cases hm : m[key]? with
  | none =>
    refine List.filter_eq_nil_iff.2 fun a ha => ?_
    have := Std.ExtTreeMap.mem_toList_iff_getElem?_eq_some.1 ha
    rintro e
    rw [show a.1 = key by simpa using e, hm] at this
    cases this
  | some v => exact filter_key_of_mem hl (Std.ExtTreeMap.mem_toList_iff_getElem?_eq_some.2 hm)

namespace Table

theorem getElem?_applyWrite (rows : Std.ExtTreeMap Bytes Bytes) (w : RowWrite) (key : Bytes) :
    (applyWrite rows w)[key]? = if w.1 = key then w.2 else rows[key]? := by
  obtain ⟨k, v⟩ := w
  cases v <;> simp [applyWrite, Std.ExtTreeMap.getElem?_insert, Std.ExtTreeMap.getElem?_erase]

/-- The last write to a row counts. -/
theorem getElem?_foldl_applyWrite (writes : List RowWrite) (rows : Std.ExtTreeMap Bytes Bytes)
    (key : Bytes) :
    (writes.foldl applyWrite rows)[key]? =
      ((writes.filter (·.1 = key)).getLast?.map (·.2)).getD rows[key]? := by
  induction writes generalizing rows with
  | nil => rfl
  | cons w writes ih =>
    rw [List.foldl_cons, ih, getElem?_applyWrite]
    by_cases e : w.1 = key
    · rw [List.filter_cons_of_pos (by simpa using e), if_pos e, List.getLast?_cons]
      cases (writes.filter (·.1 = key)).getLast? <;> rfl
    · rw [List.filter_cons_of_neg (by simpa using e), if_neg e]

theorem getElem?_foldl_applyWrite_toList (m : Std.ExtTreeMap Bytes (Option Bytes))
    (rows : Std.ExtTreeMap Bytes Bytes) (key : Bytes) :
    (m.toList.foldl applyWrite rows)[key]? = m[key]?.getD rows[key]? := by
  rw [getElem?_foldl_applyWrite, filter_key_toList]
  cases m[key]? <;> rfl

end Table

end Rows

/-! ## Versions by row -/

namespace Table

variable {t t' : Table} {tx : TxId} {key : Bytes}

/-- The versions of a row, the newest first. -/
def versions (t : Table) (key : Bytes) : List Version := t.rows.getD key []

theorem get_eq (t : Table) (tx : Transaction) (key : Bytes) :
    t.get tx key = Version.newest tx.sees (t.versions key) := by
  rw [get, versions, Std.ExtTreeMap.getD_eq_getD_getElem?]
  cases t.rows[key]? <;> rfl

theorem mem_scan {tx : Transaction} {start key value : Bytes} :
    (key, value) ∈ t.scan tx start ↔ start.isPrefixOf key ∧ t.get tx key = some value := by
  simp only [scan, List.mem_filterMap, Prod.exists, Std.ExtTreeMap.mem_toList_iff_getElem?_eq_some,
    get]
  constructor
  · rintro ⟨k, vs, hk, hv⟩
    split at hv
    · next hp =>
      obtain ⟨v, hv, e⟩ := Option.map_eq_some_iff.1 hv
      cases e
      exact ⟨hp, by rw [hk]; exact hv⟩
    · cases hv
  · rintro ⟨hp, hv⟩
    obtain ⟨vs, hk, hv⟩ := Option.bind_eq_some_iff.1 hv
    exact ⟨key, vs, hk, by rw [if_pos hp, hv]; rfl⟩

/-- What holds of the keys of a table in order holds of those that a scan gives. -/
theorem pairwise_scan {r : Bytes → Bytes → Prop} (h : t.rows.toList.Pairwise fun a b => r a.1 b.1)
    (tx : Transaction) (start : Bytes) : (t.scan tx start).Pairwise fun a b => r a.1 b.1 := by
  refine List.Pairwise.filterMap _ ?_ h
  intro a b hab c hc d hd
  have fst_eq : ∀ {e : Bytes × List Version} {r}, (if start.isPrefixOf e.1 then
      (Version.visible tx e.2).map (e.1, ·) else none) = some r → r.1 = e.1 := by
    intro e r hr
    split at hr
    · obtain ⟨_, -, rfl⟩ := Option.map_eq_some_iff.1 hr
      rfl
    · cases hr
  rwa [fst_eq hc, fst_eq hd]

theorem distinct_keys_scan (t : Table) (tx : Transaction) (start : Bytes) :
    (t.scan tx start).Pairwise fun a b => ¬ compare a.1 b.1 = .eq :=
  pairwise_scan (r := fun a b => ¬ compare a b = .eq) t.rows.distinct_keys_toList tx start

/-- Who reads every row the same finds the same rows. -/
theorem scan_congr {u : Table} {tx tx' : Transaction} (h : ∀ key, t.get tx key = u.get tx' key)
    (start : Bytes) : t.scan tx start = u.scan tx' start := by
  have ht := pairwise_scan (r := (compare · · = .lt)) t.rows.ordered_keys_toList tx start
  have hu := pairwise_scan (r := (compare · · = .lt)) u.rows.ordered_keys_toList tx' start
  refine ht.eq_of_mem_iff hu ?_
  rintro ⟨key, value⟩
  rw [mem_scan, mem_scan, h]

theorem getElem?_scan (t : Table) (tx : Transaction) (start key : Bytes) :
    (Std.ExtTreeMap.ofList (t.scan tx start))[key]? =
      if start.isPrefixOf key then t.get tx key else none := by
  cases hv : (if start.isPrefixOf key then t.get tx key else none) with
  | none =>
    refine Std.ExtTreeMap.getElem?_ofList_of_contains_eq_false (Bool.eq_false_iff.2 fun hc => ?_)
    obtain ⟨value, hm⟩ : ∃ value, (key, value) ∈ t.scan tx start := by simpa using hc
    obtain ⟨hp, hget⟩ := mem_scan.1 hm
    rw [if_pos hp, hget] at hv
    cases hv
  | some value =>
    split at hv
    · next hp =>
      exact Std.ExtTreeMap.getElem?_ofList_of_mem Std.ReflCmp.compare_self
        (t.distinct_keys_scan tx start) (mem_scan.2 ⟨hp, hv⟩)
    · cases hv

theorem versions_baseRows (rows : Std.ExtTreeMap Bytes Bytes) (key : Bytes) :
    (baseRows rows).getD key [] = (rows[key]?.map fun v => ⟨TxId.base, some v⟩).toList := by
  rw [Std.ExtTreeMap.getD_eq_getD_getElem?, baseRows, Std.ExtTreeMap.getElem?_map]
  cases rows[key]? <;> rfl

theorem writer_of_mem_baseRows {rows : Std.ExtTreeMap Bytes Bytes} {v : Version}
    (h : v ∈ (baseRows rows).getD key []) : v.writer = TxId.base := by
  rw [versions_baseRows, Option.mem_toList, Option.map_eq_some_iff] at h
  obtain ⟨_, -, rfl⟩ := h
  rfl

/-! ### Installing -/

theorem versions_addVersion (t : Table) (tx : TxId) (w : RowWrite) (key : Bytes) :
    (t.addVersion tx w).versions key =
      if w.1 = key then ⟨tx, w.2⟩ :: t.versions key else t.versions key := by
  simp only [addVersion, versions, Std.ExtTreeMap.getD_insert, Std.LawfulEqCmp.compare_eq_iff_eq]
  split
  · next e => rw [e]
  · rfl

theorem versions_addVersions (t : Table) (tx : TxId) (writes : List RowWrite) (key : Bytes) :
    (t.addVersions tx writes).versions key =
      ((writes.filter (·.1 = key)).reverse.map fun w => ⟨tx, w.2⟩) ++ t.versions key := by
  unfold addVersions
  induction writes generalizing t with
  | nil => rfl
  | cons w writes ih =>
    rw [List.foldl_cons, ih, versions_addVersion]
    by_cases e : w.1 = key
    · rw [List.filter_cons_of_pos (by simpa using e), if_pos e]
      simp
    · rw [List.filter_cons_of_neg (by simpa using e), if_neg e]

theorem versions_addVersions_toList (t : Table) (tx : TxId)
    (m : Std.ExtTreeMap Bytes (Option Bytes)) (key : Bytes) :
    (t.addVersions tx m.toList).versions key =
      (m[key]?.map fun v => ⟨tx, v⟩).toList ++ t.versions key := by
  rw [versions_addVersions, filter_key_toList]
  cases m[key]? <;> rfl

theorem addVersions_frame (t : Table) (tx : TxId) (writes : List RowWrite) :
    (t.addVersions tx writes).name = t.name ∧ (t.addVersions tx writes).log = t.log := by
  unfold addVersions
  induction writes generalizing t with
  | nil => exact ⟨rfl, rfl⟩
  | cons w writes ih => exact ih (t.addVersion tx w)

@[simp] theorem name_addVersions (t : Table) (tx : TxId) (writes : List RowWrite) :
    (t.addVersions tx writes).name = t.name :=
  (addVersions_frame t tx writes).1

@[simp] theorem log_addVersions (t : Table) (tx : TxId) (writes : List RowWrite) :
    (t.addVersions tx writes).log = t.log :=
  (addVersions_frame t tx writes).2

/-- Everything that `install` can do to the rows. -/
theorem install_cases (t : Table) (tx : TxId) (writes : List RowWrite) :
    (∃ logged log, t.install tx writes = (.ok logged, { t.addVersions tx writes with log })) ∨
    ∃ e log, t.install tx writes = (.error e, { t with log }) := by
  unfold install
  split
  · next h =>
    rw [List.isEmpty_iff] at h
    exact .inl ⟨false, t.log, by rw [h]; rfl⟩
  · split
    · exact .inl ⟨false, _, rfl⟩
    · split
      · exact .inr ⟨_, _, rfl⟩
      · exact .inl ⟨true, _, rfl⟩

/-! ### Withdrawing -/

theorem versions_withdraw (t : Table) (tx : TxId) (key : Bytes) :
    (t.withdraw tx).versions key = (t.versions key).filter (·.writer ≠ tx) := by
  simp only [withdraw, versions, Std.ExtTreeMap.getD_eq_getD_getElem?,
    Std.ExtTreeMap.getElem?_filterMap']
  cases t.rows[key]? with
  | none => rfl
  | some vs =>
    simp only [Option.bind_some, Option.getD_some]
    split
    · next h => rw [List.isEmpty_iff.1 h]; rfl
    · rfl

theorem versions_revert (t : Table) (tx : TxId) (logged : Bool) (key : Bytes) :
    (t.revert tx logged).versions key = (t.versions key).filter (·.writer ≠ tx) := by
  rw [← versions_withdraw]
  unfold revert
  split <;> rfl

@[simp] theorem name_revert (t : Table) (tx : TxId) (logged : Bool) :
    (t.revert tx logged).name = t.name := by
  unfold revert
  split <;> rfl

/-! ### Pruning -/

theorem versions_pruneRow (h : Horizon) (n : Nat) (t : Table) (k key : Bytes) :
    (pruneRow h (n, t) k).2.versions key =
      if k = key then Version.prune h (t.versions key) else t.versions key := by
  simp only [pruneRow]
  split
  · next hk =>
    split
    · next e =>
      subst e
      simp only [versions, Std.ExtTreeMap.getD_eq_getD_getElem?, hk]
      rfl
    · rfl
  · next vs hk =>
    simp only [versions, Std.ExtTreeMap.getD_eq_getD_getElem?]
    by_cases e : k = key
    · subst e
      rw [if_pos rfl, hk, Option.getD_some]
      split
      · next hn => simp [List.isEmpty_iff.1 hn]
      · simp
    · have hc : ¬ compare k key = .eq := by simpa using e
      rw [if_neg e]
      split
      · rw [Std.ExtTreeMap.getElem?_erase, if_neg hc]
      · rw [Std.ExtTreeMap.getElem?_insert, if_neg hc]

@[simp] theorem name_pruneRow (h : Horizon) (n : Nat) (t : Table) (k : Bytes) :
    (pruneRow h (n, t) k).2.name = t.name := by
  simp only [pruneRow]
  split <;> rfl

theorem log_pruneRow (h : Horizon) (n : Nat) (t : Table) (k : Bytes) :
    (pruneRow h (n, t) k).2.log = t.log := by
  simp only [pruneRow]
  split <;> rfl

theorem versions_foldl_pruneRow (h : Horizon) (n : Nat) (t : Table) {keys : List Bytes}
    (hk : keys.Nodup) (key : Bytes) :
    (keys.foldl (pruneRow h) (n, t)).2.versions key =
      if key ∈ keys then Version.prune h (t.versions key) else t.versions key := by
  induction keys generalizing n t with
  | nil => rfl
  | cons k keys ih =>
    obtain ⟨hnot, hk⟩ := List.nodup_cons.1 hk
    obtain ⟨m, u, hmu⟩ : ∃ m u, pruneRow h (n, t) k = (m, u) := ⟨_, _, rfl⟩
    have hu := versions_pruneRow h n t k key
    rw [hmu] at hu
    rw [List.foldl_cons, hmu, ih m u hk, hu]
    by_cases e : k = key
    · subst e
      rw [if_neg hnot, if_pos rfl, if_pos List.mem_cons_self]
    · simp [e, Ne.symm e]

theorem versions_prune (t : Table) (h : Horizon) (key : Bytes) :
    (t.prune h).2.versions key =
      if key ∈ t.dirty then Version.prune h (t.versions key) else t.versions key := by
  have hk : t.dirty.toList.Nodup := t.dirty.distinct_toList.imp fun h e => h (by simp [e])
  rw [prune, versions_foldl_pruneRow h 0 t hk]
  simp [Std.ExtTreeSet.mem_toList]

/-- What pruning a row keeps, a prune keeps. -/
theorem prune_induction {P : Table → Prop} (h : P t) (g : Horizon)
    (row : ∀ n t key, P t → P (pruneRow g (n, t) key).2) : P (t.prune g).2 := by
  have : ∀ (keys : List Bytes) (acc : Nat × Table), P acc.2 →
      P (keys.foldl (pruneRow g) acc).2 := by
    intro keys
    induction keys with
    | nil => exact fun _ h => h
    | cons key keys ih => exact fun acc h => ih _ (row acc.1 acc.2 key h)
  exact this _ _ h

@[simp] theorem name_prune (t : Table) (h : Horizon) : (t.prune h).2.name = t.name :=
  prune_induction (P := (·.name = t.name)) rfl h fun n u key e => (name_pruneRow h n u key).trans e

@[simp] theorem log_prune (t : Table) (h : Horizon) : (t.prune h).2.log = t.log :=
  prune_induction (P := (·.log = t.log)) rfl h fun n u key e => (log_pruneRow h n u key).trans e

end Table

/-! ## Overlays over given rows -/

namespace Overlay

variable {x : Overlay} {t : Table} {tx : Transaction} {rows : Std.ExtTreeMap Bytes Bytes}

/-- The rows with the writes of the overlay laid over them. -/
def view (x : Overlay) (rows : Std.ExtTreeMap Bytes Bytes) : Std.ExtTreeMap Bytes Bytes :=
  x.buffer.toList.foldl Table.applyWrite rows

theorem getElem?_view (x : Overlay) (rows : Std.ExtTreeMap Bytes Bytes) (key : Bytes) :
    (x.view rows)[key]? = x.buffer[key]?.getD rows[key]? :=
  Table.getElem?_foldl_applyWrite_toList x.buffer rows key

theorem read_eq (hx : x.tx = some tx)
    (h : ∀ key, x.buffer[key]? = none → t.get tx key = rows[key]?) (key : Bytes) :
    x.read t key = .ok (x.view rows)[key]? := by
  rw [getElem?_view]
  unfold read active
  rw [hx]
  dsimp only
  cases hb : x.buffer[key]? with
  | none => rw [h key hb]; rfl
  | some written => rfl

theorem getElem?_foldl_written (x : Overlay) (start : Bytes) (rows : Std.ExtTreeMap Bytes Bytes)
    (key : Bytes) :
    ((x.written start).foldl Table.applyWrite rows)[key]? =
      if start.isPrefixOf key then x.buffer[key]?.getD rows[key]? else rows[key]? := by
  have filter_comm : (x.written start).filter (·.1 = key) =
      (x.buffer[key]?.map (key, ·)).toList.filter (start.isPrefixOf ·.1) := by
    rw [← filter_key_toList, written, List.filter_filter, List.filter_filter]
    exact List.filter_congr fun w _ => Bool.and_comm _ _
  rw [Table.getElem?_foldl_applyWrite, filter_comm]
  cases x.buffer[key]? with
  | none => simp
  | some written =>
    by_cases hp : start.isPrefixOf key = true
    · simp [List.filter_cons_of_pos, hp]
    · simp [List.filter_cons_of_neg, hp]

theorem getElem?_filter_start (rows : Std.ExtTreeMap Bytes Bytes) (start key : Bytes) :
    (rows.filter fun key _ => start.isPrefixOf key)[key]? =
      if start.isPrefixOf key then rows[key]? else none := by
  rw [Std.ExtTreeMap.getElem?_filter']
  cases rows[key]? with
  | none => simp
  | some value => by_cases hp : start.isPrefixOf key <;> simp [hp]

theorem scan_eq (hx : x.tx = some tx)
    (h : ∀ key, x.buffer[key]? = none → t.get tx key = rows[key]?) (start : Bytes) :
    x.scan t start = .ok ((x.view rows).filter fun key _ => start.isPrefixOf key).toList := by
  unfold scan active
  rw [hx]
  have e : (x.written start).foldl Table.applyWrite (Std.ExtTreeMap.ofList (t.scan tx start)) =
      (x.view rows).filter fun key _ => start.isPrefixOf key := by
    refine Std.ExtTreeMap.ext_getElem? fun key => ?_
    rw [getElem?_foldl_written, Table.getElem?_scan, getElem?_filter_start, getElem?_view]
    split
    · cases hb : x.buffer[key]? with
      | none => rw [h key hb]
      | some written => rfl
    · rfl
  exact congrArg (fun m => Except.ok (Std.ExtTreeMap.toList m)) e

/-- A deletion marks the rows that can be read, and those that are written already. -/
theorem deleteAll_eq (hx : x.tx = some tx) (t : Table) (start : Bytes) :
    ∃ buffer, x.deleteAll t start = .ok { x with buffer } ∧ ∀ key, buffer[key]? =
      if start.isPrefixOf key ∧ (t.get tx key ≠ none ∨ key ∈ x.buffer) then some none
      else x.buffer[key]? := by
  have hmarked : ∀ (keys : List Bytes) (b : Std.ExtTreeMap Bytes (Option Bytes)) (key : Bytes),
      (keys.foldl (fun b key => b.insert key none) b)[key]? =
        if key ∈ keys then some none else b[key]? := by
    intro keys b key
    induction keys generalizing b with
    | nil => rfl
    | cons k keys ih =>
      rw [List.foldl_cons, ih, Std.ExtTreeMap.getElem?_insert]
      by_cases e : k = key
      · simp [e]
      · simp [e, Ne.symm e]
  refine ⟨_, by rw [deleteAll, active, hx], fun key => ?_⟩
  have hread : (∃ value, (key, value) ∈ t.scan tx start) ↔
      start.isPrefixOf key ∧ t.get tx key ≠ none := by
    simp only [Table.mem_scan, exists_and_left, Option.ne_none_iff_exists']
  have hwritten : (∃ value, (key, value) ∈ x.written start) ↔
      start.isPrefixOf key ∧ key ∈ x.buffer := by
    simp only [written, List.mem_filter, Std.ExtTreeMap.mem_toList_iff_getElem?_eq_some,
      Std.ExtTreeMap.mem_iff_isSome_getElem?, Option.isSome_iff_exists, and_comm, exists_and_left]
  have hfst : ∀ {β : Type} (l : List (Bytes × β)),
      key ∈ l.map (·.1) ↔ ∃ value, (key, value) ∈ l := by simp
  simp only [hmarked, List.mem_append, hfst, hread, hwritten, and_or_left]

/-- Only what the transaction reads of a table matters. -/
theorem perform_congr {u : Table} (hx : x.tx = some tx) (h : ∀ key, t.get tx key = u.get tx key)
    (op : TableOperation) : x.perform op t = x.perform op u := by
  cases op with
  | write key value => rfl
  | read key =>
    simp only [perform, read, active, hx, h]
  | scan start =>
    have hscan : Std.ExtTreeMap.ofList (t.scan tx start) =
        Std.ExtTreeMap.ofList (u.scan tx start) := by
      refine Std.ExtTreeMap.ext_getElem? fun key => ?_
      rw [Table.getElem?_scan, Table.getElem?_scan, h]
    simp only [perform, scan, active, hx, hscan]
  | deleteAll start =>
    obtain ⟨b, hb, hkeys⟩ := deleteAll_eq hx t start
    obtain ⟨c, hc, hkeys'⟩ := deleteAll_eq hx u start
    have : b = c := Std.ExtTreeMap.ext_getElem? fun key => by rw [hkeys, hkeys', h]
    simp only [perform, hb, hc, this]
  | pending => rfl

/-! ### What the steps of an overlay do -/

theorem write_ok {y : Overlay} {key value : Bytes} (h : x.write key value = .ok y) :
    y = { x with buffer := y.buffer } ∧ x.tx ≠ none := by
  unfold write active at h
  cases hx : x.tx with
  | none => simp [hx] at h
  | some tx =>
    rw [hx] at h
    cases h
    exact ⟨rfl, Option.some_ne_none tx⟩

theorem deleteAll_ok {y : Overlay} {start : Bytes} (h : x.deleteAll t start = .ok y) :
    y = { x with buffer := y.buffer } ∧ x.tx ≠ none := by
  unfold deleteAll active at h
  cases hx : x.tx with
  | none => simp [hx] at h
  | some tx =>
    rw [hx] at h
    cases h
    exact ⟨rfl, Option.some_ne_none tx⟩

theorem of_start_ok {y : Overlay} (h : x.start t tx = .ok y) :
    x.tx = none ∧ y = { ofTable x.table with tx := some tx } := by
  unfold start at h
  split at h
  · cases h
  · next hx =>
    cases h
    exact ⟨hx, rfl⟩

/-- Nothing but the buffer changes, and that only in a transaction. -/
theorem of_perform_ok {op : TableOperation} {answer : TableAnswer} {y : Overlay}
    (h : x.perform op t = .ok (answer, y)) :
    y = { x with buffer := y.buffer } ∧ (x.tx = none → y = x) := by
  have unchanged : y = x → y = { x with buffer := y.buffer } ∧ (x.tx = none → y = x) := by
    rintro rfl
    exact ⟨rfl, fun _ => rfl⟩
  cases op with
  | write key value =>
    obtain ⟨z, hz, e⟩ := map_eq_ok_iff.1 h
    cases e
    exact (write_ok hz).imp_right fun hx e => absurd e hx
  | read key =>
    obtain ⟨v, -, e⟩ := map_eq_ok_iff.1 h
    cases e
    exact unchanged rfl
  | scan start =>
    obtain ⟨v, -, e⟩ := map_eq_ok_iff.1 h
    cases e
    exact unchanged rfl
  | deleteAll start =>
    obtain ⟨z, hz, e⟩ := map_eq_ok_iff.1 h
    cases e
    exact (deleteAll_ok hz).imp_right fun hx e => absurd e hx
  | pending =>
    cases h
    exact unchanged rfl

theorem of_commit_ok {y : Overlay} {t' : Table} (h : x.commit t = (.ok (), y, t')) :
    ∃ tx logged log, x.tx = some tx ∧
      y = { x with installed := !x.buffer.isEmpty, logged } ∧
      t' = { t.addVersions tx.id x.buffer.toList with log } := by
  unfold commit active at h
  cases hx : x.tx with
  | none => simp [hx] at h
  | some tx =>
    rw [hx] at h
    obtain ⟨logged, log, e⟩ | ⟨err, log, e⟩ := t.install_cases tx.id x.buffer.toList
    · simp only [e, Prod.mk.injEq, true_and] at h
      exact ⟨tx, logged, log, rfl, h.1.symm, h.2.symm⟩
    · simp [e] at h

/-- A commit that fails changes nothing but the journal. -/
theorem of_commit_error {y : Overlay} {t' : Table} {e : Error}
    (h : x.commit t = (.error e, y, t')) : y = x ∧ ∃ log, t' = { t with log } := by
  unfold commit active at h
  cases hx : x.tx with
  | none =>
    simp only [hx, Prod.mk.injEq] at h
    exact ⟨h.2.1.symm, t.log, h.2.2.symm⟩
  | some tx =>
    rw [hx] at h
    obtain ⟨logged, log, e⟩ | ⟨err, log, e⟩ := t.install_cases tx.id x.buffer.toList
    · simp [e] at h
    · simp only [e, Prod.mk.injEq] at h
      exact ⟨h.2.1.symm, log, h.2.2.symm⟩

theorem rollback_of_installed (hx : x.tx = some tx) (hi : x.installed = true) (t : Table) :
    x.rollback t = (x.release, t.revert tx.id x.logged) := by
  unfold rollback
  rw [hx, hi]

theorem rollback_of_not_installed (hi : x.installed = false) (t : Table) :
    x.rollback t = (x.release, t) := by
  unfold rollback
  rw [hi]
  cases x.tx <;> rfl

end Overlay

end NamespaceCatalog
