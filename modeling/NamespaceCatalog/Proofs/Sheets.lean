import NamespaceCatalog.Proofs.Course

/-!
# Overlays as plain maps

A transaction that works through an overlay gets the answers of a plain map of rows that starts as
its snapshot: a `Sheet`.  A sheet writes and deletes at once and knows nothing of buffers; besides
its rows it only remembers which keys were touched, that is written, or deleted while they had a
row.  An overlay `Matches` a sheet if its writes laid over the snapshot give the rows of the sheet,
and it has buffered the keys that were touched.  Every operation keeps this (`Matches.perform`), and
so do operations one after the other, whatever becomes of the table meanwhile, as long as the
transaction sees the same rows in it (`Matches.performAll`).

What is installed in the end follows from it (`transaction_matches_sheet`).

A sheet looks for the rows under a start among all of its rows.  A scan need not: in the order of the
keys they are one stretch (`filter_isPrefixOf_eq`).
-/

namespace NamespaceCatalog

/-! ## Rows under a start -/

section Stretches

variable {β : Type} {start a b : Bytes}

/-- What lies between a start and something that starts with it starts with it too. -/
theorem isPrefixOf_of_between (ha : compare a start ≠ .lt) (hab : compare a b = .lt)
    (hb : start.isPrefixOf b) : start.isPrefixOf a := by
  rw [List.isPrefixOf_iff_prefix] at hb ⊢
  obtain ⟨rest, rfl⟩ := hb
  induction start generalizing a with
  | nil => exact List.nil_prefix
  | cons x start ih =>
    cases a with
    | nil => exact absurd rfl ha
    | cons y a =>
      rw [List.cons_append, List.compare_cons_cons] at hab
      rw [List.compare_cons_cons] at ha
      cases hyx : compare y x with
      | lt => simp [hyx] at ha
      | gt => simp [hyx] at hab
      | eq =>
        rw [hyx, Ordering.eq_then] at ha hab
        rw [Std.LawfulEqCmp.eq_of_compare hyx, List.cons_prefix_cons]
        exact ⟨rfl, ih ha hab⟩

theorem not_lt_of_isPrefixOf (h : start.isPrefixOf a) : compare a start ≠ .lt := by
  rw [List.isPrefixOf_iff_prefix] at h
  obtain ⟨rest, rfl⟩ := h
  induction start with
  | nil => cases rest <;> simp
  | cons x start ih => simpa using ih

/-- The rows under a start are one stretch of the rows in order: they begin at the first key that is
not before it, and end before the first that does not start with it. -/
theorem filter_isPrefixOf_eq (start : Bytes) {l : List (Bytes × β)}
    (hl : l.Pairwise fun a b => compare a.1 b.1 = .lt) :
    l.filter (start.isPrefixOf ·.1) =
      (l.dropWhile (compare ·.1 start = .lt)).takeWhile (start.isPrefixOf ·.1) := by
  induction l with
  | nil => rfl
  | cons a l ih =>
    obtain ⟨ha, hl⟩ := List.pairwise_cons.1 hl
    by_cases hlt : compare a.1 start = .lt
    · have hp : ¬ start.isPrefixOf a.1 := fun hp => not_lt_of_isPrefixOf hp hlt
      rw [List.filter_cons_of_neg (by exact hp), List.dropWhile_cons_of_pos (by simpa using hlt),
        ih hl]
    · have hdrop : l.dropWhile (compare ·.1 start = .lt) = l := by
        cases l with
        | nil => rfl
        | cons b l =>
          have hb : ¬ compare b.1 start = .lt := fun hb =>
            hlt (Std.TransCmp.lt_trans (ha b List.mem_cons_self) hb)
          exact List.dropWhile_cons_of_neg (by simpa using hb)
      rw [List.dropWhile_cons_of_neg (by simpa using hlt)]
      by_cases hp : start.isPrefixOf a.1
      · rw [List.filter_cons_of_pos (by exact hp), List.takeWhile_cons_of_pos (by exact hp), ih hl,
          hdrop]
      · rw [List.takeWhile_cons_of_neg (by exact hp), List.filter_eq_nil_iff]
        intro b hb hpb
        rcases List.mem_cons.1 hb with rfl | hb
        · exact hp hpb
        · exact hp (isPrefixOf_of_between hlt (ha b hb) hpb)

/-- A scan goes through the table from `start` on, and stops at the first row that does not start
with it. -/
theorem Table.scan_eq_of_stretch (t : Table) (tx : Transaction) (start : Bytes) :
    t.scan tx start = ((t.rows.toList.dropWhile (compare ·.1 start = .lt)).takeWhile
      (start.isPrefixOf ·.1)).filterMap fun (key, vs) => (Version.visible tx vs).map (key, ·) := by
  rw [← filter_isPrefixOf_eq start t.rows.ordered_keys_toList, List.filterMap_filter]
  rfl

theorem Overlay.written_eq_of_stretch (x : Overlay) (start : Bytes) :
    x.written start = (x.buffer.toList.dropWhile (compare ·.1 start = .lt)).takeWhile
      (start.isPrefixOf ·.1) :=
  filter_isPrefixOf_eq start x.buffer.ordered_keys_toList

end Stretches

/-! ## Sheets -/

/-- Rows, and the keys that were touched. -/
structure Sheet where
  rows : Std.ExtTreeMap Bytes Bytes
  touched : Std.ExtTreeSet Bytes

namespace Sheet

/-- The given rows, before anything is done to them. -/
def ofRows (rows : Std.ExtTreeMap Bytes Bytes) : Sheet := ⟨rows, ∅⟩

/-- The rows under `start`. -/
def under (m : Sheet) (start : Bytes) : Std.ExtTreeMap Bytes Bytes :=
  m.rows.filter fun key _ => start.isPrefixOf key

@[simp] theorem under_nil (m : Sheet) : m.under [] = m.rows := by
  refine Std.ExtTreeMap.ext_getElem? fun key => ?_
  rw [under, Overlay.getElem?_filter_start, List.isPrefixOf_nil_left, if_pos rfl]

/-- Answers an operation. -/
def perform : TableOperation → Sheet → TableAnswer × Sheet
  | .write key value, m => (.done, ⟨m.rows.insert key value, m.touched.insert key⟩)
  | .read key, m => (.value m.rows[key]?, m)
  | .scan start, m => (.rows (m.under start).toList, m)
  | .deleteAll start, m =>
    (.done, ⟨m.rows.filter fun key _ => !start.isPrefixOf key,
      m.touched.insertMany (m.under start).keys⟩)
  | .pending, m => (.count m.touched.size, m)

/-- Answers operations one after the other. -/
def performAll : List TableOperation → Sheet → List TableAnswer × Sheet
  | [], m => ([], m)
  | op :: ops, m =>
    let (answer, m) := m.perform op
    let (answers, m) := performAll ops m
    (answer :: answers, m)

variable {m : Sheet} {key : Bytes}

theorem mem_rows_perform_iff (op : TableOperation) :
    key ∈ (m.perform op).2.rows ↔ (∃ value, op = .write key value) ∨
      (key ∈ m.rows ∧ ¬ ∃ start, op = .deleteAll start ∧ start.isPrefixOf key) := by
  cases op with
  | write other value =>
    by_cases e : other = key
    · simp [perform, e]
    · simp [perform, e]
  | deleteAll start => simp [perform, Std.ExtTreeMap.mem_filter, -List.isPrefixOf_iff_prefix]
  | read | scan | pending => simp [perform]

theorem mem_touched_perform_iff (op : TableOperation) :
    key ∈ (m.perform op).2.touched ↔ key ∈ m.touched ∨ (∃ value, op = .write key value) ∨
      (key ∈ m.rows ∧ ∃ start, op = .deleteAll start ∧ start.isPrefixOf key) := by
  cases op with
  | write other value =>
    by_cases e : other = key
    · simp [perform, e]
    · simp [perform, e]
  | deleteAll start => simp [perform, under, Std.ExtTreeMap.mem_filter]
  | read | scan | pending => simp [perform]

/-- What was written stays touched, though it be deleted later.  A row that was there at first is
touched by the first deletion that covers it. -/
theorem mem_touched_performAll_iff (ops : List TableOperation) :
    key ∈ (m.performAll ops).2.touched ↔ key ∈ m.touched ∨ (∃ value, .write key value ∈ ops) ∨
      (key ∈ m.rows ∧ ∃ start, .deleteAll start ∈ ops ∧ start.isPrefixOf key) := by
  induction ops generalizing m with
  | nil => simp [performAll]
  | cons op ops ih =>
    have hcons : (m.performAll (op :: ops)).2 = ((m.perform op).2.performAll ops).2 := rfl
    rw [hcons, ih, mem_rows_perform_iff, mem_touched_perform_iff]
    grind

/-- The rows of an answer are in order, each key once. -/
theorem pairwise_of_mem_performAll {rs : List (Bytes × Bytes)} {ops : List TableOperation}
    (h : TableAnswer.rows rs ∈ (m.performAll ops).1) :
    rs.Pairwise fun a b => compare a.1 b.1 = .lt := by
  induction ops generalizing m with
  | nil => cases h
  | cons op ops ih =>
    rcases List.mem_cons.1 h with h | h
    · cases op with
      | scan start =>
        cases h
        exact Std.ExtTreeMap.ordered_keys_toList
      | write | read | deleteAll | pending => cases h
    · exact ih h

end Sheet

namespace Overlay

/-- Answers operations one after the other, each through the table as it is then. -/
def performAll : List (TableOperation × Table) → Overlay →
    Except Error (List TableAnswer × Overlay)
  | [], x => .ok ([], x)
  | (op, t) :: steps, x =>
    match x.perform op t with
    | .error e => .error e
    | .ok (answer, y) => (performAll steps y).map fun (answers, z) => (answer :: answers, z)

end Overlay

/-- Are these the rows that the transaction sees in the table? -/
def Table.IsSeenAs (t : Table) (tx : Transaction) (rows : Std.ExtTreeMap Bytes Bytes) : Prop :=
  ∀ key, t.get tx key = rows[key]?

/-- Every table is seen as some rows. -/
theorem Table.isSeenAs_scan (t : Table) (tx : Transaction) :
    t.IsSeenAs tx (Std.ExtTreeMap.ofList (t.scan tx [])) := fun key => by
  rw [getElem?_scan, List.isPrefixOf_nil_left, if_pos rfl]

/-- What a transaction that is not seen adds is not seen. -/
theorem Table.IsSeenAs.addVersion {t : Table} {tx : Transaction}
    {rows : Std.ExtTreeMap Bytes Bytes} {writer : TxId} (h : t.IsSeenAs tx rows)
    (hw : tx.sees writer = false) (w : RowWrite) : (t.addVersion writer w).IsSeenAs tx rows := by
  intro key
  rw [← h key, get_eq, get_eq, versions_addVersion]
  split
  · rw [Version.newest_cons, hw, if_neg Bool.false_ne_true]
  · rfl

namespace Overlay

variable {x y : Overlay} {t : Table} {tx : Transaction} {rows : Std.ExtTreeMap Bytes Bytes}
  {m : Sheet}

/-- Do the writes of the overlay, laid over the rows, give the sheet? -/
structure Matches (x : Overlay) (tx : Transaction) (rows : Std.ExtTreeMap Bytes Bytes)
    (m : Sheet) : Prop where
  tx : x.tx = some tx
  rows : x.view rows = m.rows
  touched : ∀ key, key ∈ x.buffer ↔ key ∈ m.touched

theorem matches_start (id : TableId) (tx : Transaction) (rows : Std.ExtTreeMap Bytes Bytes) :
    Matches { ofTable id with tx := some tx } tx rows (.ofRows rows) where
  tx := rfl
  rows := by
    refine Std.ExtTreeMap.ext_getElem? fun key => ?_
    rw [getElem?_view]
    simp [ofTable, Sheet.ofRows]
  touched key := by simp [ofTable, Sheet.ofRows]

/-- The value of a row is what was written, or else that of the snapshot. -/
theorem Matches.getElem?_rows (h : x.Matches tx rows m) (key : Bytes) :
    m.rows[key]? = x.buffer[key]?.getD rows[key]? := by
  rw [← h.rows, getElem?_view]

theorem Matches.keys_eq (h : x.Matches tx rows m) : x.buffer.keys = m.touched.toList := by
  refine x.buffer.ordered_keys.eq_of_mem_iff m.touched.ordered_toList fun key => ?_
  rw [Std.ExtTreeMap.mem_keys, Std.ExtTreeSet.mem_toList, h.touched]

/-! ## One operation -/

theorem Matches.write (h : x.Matches tx rows m) (key value : Bytes) (t : Table) :
    ∃ y, x.perform (.write key value) t = .ok (.done, y) ∧
      y.Matches tx rows (m.perform (.write key value)).2 := by
  refine ⟨{ x with buffer := x.buffer.insert key (some value) }, ?_, h.tx, ?_, fun other => ?_⟩
  · simp only [perform, Overlay.write, active, h.tx, Except.map]
  · refine Std.ExtTreeMap.ext_getElem? fun other => ?_
    simp only [getElem?_view, Sheet.perform, Std.ExtTreeMap.getElem?_insert, h.getElem?_rows]
    split
    · rfl
    · rfl
  · simp only [Sheet.perform, Std.ExtTreeMap.mem_insert, Std.ExtTreeSet.mem_insert, h.touched]

theorem Matches.read (h : x.Matches tx rows m) (key : Bytes) (ht : t.IsSeenAs tx rows) :
    x.perform (.read key) t = .ok (.value m.rows[key]?, x) := by
  simp only [perform, read_eq h.tx (fun key _ => ht key), h.rows, Except.map]

theorem Matches.scan (h : x.Matches tx rows m) (start : Bytes) (ht : t.IsSeenAs tx rows) :
    x.perform (.scan start) t = .ok (.rows (m.under start).toList, x) := by
  simp only [perform, scan_eq h.tx (fun key _ => ht key), h.rows, Except.map, Sheet.under]

/-- A key has a row on the sheet if it was written last, or has one in the snapshot and was not
touched. -/
theorem Matches.mem_under_iff (h : x.Matches tx rows m) {start key : Bytes} :
    key ∈ m.under start ↔
      start.isPrefixOf key ∧ x.buffer[key]?.getD rows[key]? ≠ none := by
  rw [Std.ExtTreeMap.mem_iff_isSome_getElem?, Sheet.under, getElem?_filter_start, h.getElem?_rows]
  by_cases hp : start.isPrefixOf key <;> simp [hp, Option.isSome_iff_ne_none]

theorem Matches.deleteAll (h : x.Matches tx rows m) (start : Bytes) (ht : t.IsSeenAs tx rows) :
    ∃ y, x.perform (.deleteAll start) t = .ok (.done, y) ∧
      y.Matches tx rows (m.perform (.deleteAll start)).2 := by
  obtain ⟨buffer, hdelete, hbuffer⟩ := deleteAll_eq h.tx t start
  refine ⟨{ x with buffer }, ?_, h.tx, ?_, fun key => ?_⟩
  · simp only [perform, hdelete, Except.map]
  · refine Std.ExtTreeMap.ext_getElem? fun key => ?_
    rw [getElem?_view]
    simp only [hbuffer, Sheet.perform, Std.ExtTreeMap.getElem?_filter', h.getElem?_rows, ht key,
      Std.ExtTreeMap.mem_iff_isSome_getElem?]
    by_cases hp : start.isPrefixOf key
    · cases x.buffer[key]? with
      | none => cases rows[key]? <;> simp [hp]
      | some written => simp [hp]
    · simp only [hp, Bool.false_eq_true, false_and, if_false]
      cases x.buffer[key]?.getD rows[key]? <;> rfl
  · simp only [Sheet.perform, Std.ExtTreeSet.mem_insertMany_list, List.contains_iff_mem,
      Std.ExtTreeMap.mem_keys, h.mem_under_iff, ← h.touched]
    simp only [Std.ExtTreeMap.mem_iff_isSome_getElem?, hbuffer, ht key]
    by_cases hp : start.isPrefixOf key
    · cases x.buffer[key]? with
      | none => cases rows[key]? <;> simp [hp]
      | some written => simp [hp]
    · simp [hp]

theorem Matches.pending (h : x.Matches tx rows m) : x.pending = m.touched.size := by
  rw [Overlay.pending, ← Std.ExtTreeMap.length_keys, h.keys_eq, Std.ExtTreeSet.length_toList]

/-- An overlay answers like its sheet, and goes on doing so. -/
theorem Matches.perform (h : x.Matches tx rows m) (op : TableOperation) (ht : t.IsSeenAs tx rows) :
    ∃ y, x.perform op t = .ok ((m.perform op).1, y) ∧ y.Matches tx rows (m.perform op).2 := by
  cases op with
  | write key value => exact h.write key value t
  | read key => exact ⟨x, h.read key ht, h⟩
  | scan start => exact ⟨x, h.scan start ht, h⟩
  | deleteAll start => exact h.deleteAll start ht
  | pending => exact ⟨x, by rw [Overlay.perform, h.pending, Sheet.perform], h⟩

/-! ## One operation after the other -/

theorem Matches.performAll {steps : List (TableOperation × Table)} (h : x.Matches tx rows m)
    (ht : ∀ s ∈ steps, s.2.IsSeenAs tx rows) :
    ∃ y, x.performAll steps = .ok ((m.performAll (steps.map (·.1))).1, y) ∧
      y.Matches tx rows (m.performAll (steps.map (·.1))).2 := by
  induction steps generalizing x m with
  | nil => exact ⟨x, rfl, h⟩
  | cons s steps ih =>
    obtain ⟨op, t⟩ := s
    obtain ⟨ht, hrest⟩ := List.forall_mem_cons.1 ht
    obtain ⟨y, hy, hmy⟩ := h.perform op ht
    obtain ⟨z, hz, hmz⟩ := ih hmy hrest
    refine ⟨z, ?_, hmz⟩
    rw [Overlay.performAll, hy]
    dsimp only
    rw [hz]
    rfl

/-! ## What is installed -/

theorem rowId_injective (table : String) : Function.Injective (rowId table) := fun _ _ h =>
  (List.cons.inj (List.append_cancel_left h)).2

/-- Are these the writes that the overlay names, and that a commit puts before the versions of
their rows?  Only a journal that does not take them can keep it from doing so. -/
structure Installs (x : Overlay) (tx : TxId) (writes : List RowWrite) : Prop where
  changes : ∀ t, x.changes t = writes.map fun w => rowId t.name w.1
  commits : ∀ t, (x.commit t).1 = .ok () ∨
    ∃ w e, t.log = some w ∧ (w.append (.commit tx writes)).1 = .error e
  versions : ∀ t y t', x.commit t = (.ok (), y, t') → ∀ key,
    t'.versions key = (writes.filter (·.1 = key)).map (fun w => ⟨tx, w.2⟩) ++ t.versions key

theorem installs_buffer (hx : x.tx = some tx) : x.Installs tx.id x.buffer.toList where
  changes t := by
    rw [changes, ← Std.ExtTreeMap.map_fst_toList_eq_keys, List.map_map]
    rfl
  commits t := by
    have hcommit : (x.commit t).1 = (t.install tx.id x.buffer.toList).1.map fun _ => () := by
      unfold commit active
      rw [hx]
      dsimp only
      split
      · next h => rw [h]; rfl
      · next h => rw [h]; rfl
    rw [hcommit, Table.install]
    split
    · exact .inl rfl
    · split
      · exact .inl rfl
      · next w hlog =>
        split
        · next h => exact .inr ⟨w, _, hlog, congrArg Prod.fst h⟩
        · exact .inl rfl
  versions t y t' h key := by
    obtain ⟨tx', logged, log, hx', -, rfl⟩ := of_commit_ok h
    obtain rfl : tx = tx' := Option.some.inj (hx.symm.trans hx')
    have hversions : (t.addVersions tx.id x.buffer.toList).versions key =
        (x.buffer[key]?.map fun v => ⟨tx.id, v⟩).toList ++ t.versions key :=
      Table.versions_addVersions_toList t tx.id x.buffer key
    refine Eq.trans hversions ?_
    rw [filter_key_toList]
    cases x.buffer[key]? <;> rfl

/-- A transaction that works through an overlay gets the answers of a plain map that starts as its
snapshot, scans in the order of the keys and each key once.  There are writes, at most one to each
row, that take the snapshot to the rows the map has in the end: these are installed and named.  They
are to the rows that the transaction wrote, and to those of its snapshot that it deleted. -/
theorem transaction_matches_sheet (id : TableId) {steps : List (TableOperation × Table)}
    (ht : ∀ s ∈ steps, s.2.IsSeenAs tx rows) :
    ∃ x y answers m writes,
      (∀ t, (ofTable id).start t tx = .ok x) ∧ x.performAll steps = .ok (answers, y) ∧
      (Sheet.ofRows rows).performAll (steps.map (·.1)) = (answers, m) ∧
      (∀ rs, .rows rs ∈ answers → rs.Pairwise fun a b => compare a.1 b.1 = .lt) ∧
      y.Installs tx.id writes ∧ (writes.Pairwise fun a b => compare a.1 b.1 = .lt) ∧
      writes.foldl Table.applyWrite rows = m.rows ∧
      ∀ t key, rowId t.name key ∈ y.changes t ↔
        (∃ value, .write key value ∈ steps.map (·.1)) ∨
          (key ∈ rows ∧ ∃ start, .deleteAll start ∈ steps.map (·.1) ∧ start.isPrefixOf key) := by
  obtain ⟨y, hy, hm⟩ := (matches_start id tx rows).performAll ht
  refine ⟨_, y, _, _, y.buffer.toList, fun _ => rfl, hy, rfl, fun rs hrs => ?_,
    installs_buffer hm.tx, y.buffer.ordered_keys_toList, hm.rows, fun t key => ?_⟩
  · exact Sheet.pairwise_of_mem_performAll hrs
  · have hnone : ¬ key ∈ (Sheet.ofRows rows).touched := by simp [Sheet.ofRows]
    rw [changes, List.mem_map_of_injective (rowId_injective t.name), Std.ExtTreeMap.mem_keys,
      hm.touched, Sheet.mem_touched_performAll_iff, or_iff_right hnone]
    rfl

/-- A row that was written and deleted in the transaction is named, though the snapshot has none
there.  Meanwhile a transaction that this one does not see wrote to the table. -/
theorem transaction_matches_sheet_beside_writer :
    ∃ (t u : Table) (tx : Transaction) (rows : Std.ExtTreeMap Bytes Bytes) (x y : Overlay),
      t.IsSeenAs tx rows ∧ u.IsSeenAs tx rows ∧
      t.versions [1, 2] = [⟨TxId.base, some [3]⟩] ∧
      u.versions [1, 2] = [⟨3, some [4]⟩, ⟨TxId.base, some [3]⟩] ∧
      x.performAll [(.write [1, 1] [7], t), (.scan [], u), (.deleteAll [1, 1], u),
        (.read [1, 1], u), (.read [1, 2], u)] =
        .ok ([.done, .rows [([1, 1], [7]), ([1, 2], [3])], .done, .value none, .value (some [3])],
          y) ∧
      rowId u.name [1, 1] ∈ y.changes u ∧ rowId u.name [1, 2] ∉ y.changes u := by
  let tx : Transaction := ⟨5, 4, [3], .active⟩
  let rows : Std.ExtTreeMap Bytes Bytes := (∅ : Std.ExtTreeMap Bytes Bytes).insert [1, 2] [3]
  let t := Table.ofRows rows
  let u := t.addVersion 3 ([1, 2], some [4])
  have ht : t.IsSeenAs tx rows := Table.get_ofRows rows tx
  have hu : u.IsSeenAs tx rows := ht.addVersion rfl _
  let steps : List (TableOperation × Table) := [(.write [1, 1] [7], t), (.scan [], u),
    (.deleteAll [1, 1], u), (.read [1, 1], u), (.read [1, 2], u)]
  have hsteps : ∀ s ∈ steps, s.2.IsSeenAs tx rows := by simp [steps, ht, hu]
  obtain ⟨x, y, answers, m, writes, -, hy, hm, -, -, -, -, hchanges⟩ :=
    transaction_matches_sheet 0 hsteps
  refine ⟨t, u, tx, rows, x, y, ht, hu, rfl, rfl, ?_, ?_, ?_⟩
  · have hanswers : ((Sheet.ofRows rows).performAll (steps.map (·.1))).1 =
        [.done, .rows (rows.insert [1, 1] [7]).toList, .done, .value none, .value (some [3])] := by
      simp only [steps, List.map_cons, List.map_nil, Sheet.performAll, Sheet.perform,
        Sheet.under_nil, Std.ExtTreeMap.getElem?_filter']
      rfl
    have heq : answers = _ := (congrArg Prod.fst hm).symm.trans hanswers
    rw [hy, heq]
    rfl
  · exact (hchanges u _).2 (.inl ⟨[7], List.mem_cons_self⟩)
  · rw [hchanges]
    simp [steps]

end Overlay

end NamespaceCatalog
