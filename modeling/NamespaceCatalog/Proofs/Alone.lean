import NamespaceCatalog.Proofs.Compactions
import NamespaceCatalog.Proofs.Rosters

/-!
# A transaction that is alone

A coordinator is idle if no transaction runs and nothing is kept of those that ended.  A transaction
that then begins meets no rival, and leaves the coordinator idle (`Idle.exists_commit`).  If its
table keeps the records of a roster, an operation answers as the roster does, and the table keeps
the records of the next roster (`Settled.exists_attempt`).

What it writes fits a frame of the journal, since all records do together (`Fills.fits_write?`).
-/

namespace NamespaceCatalog

/-! ## Entries that fit a frame -/

namespace Entry

variable {tx tx' : TxId} {ws : List RowWrite} {w : RowWrite} {bs : Bytes}

/-- The bytes of a write are among those of all writes. -/
theorem exists_encodeWrite_of_mem (h : encodeWrites ws = .ok bs) (hw : w ∈ ws) :
    ∃ row, encodeWrite w = .ok row ∧ row.length ≤ bs.length := by
  induction ws generalizing bs with
  | nil => cases hw
  | cons v ws ih =>
    obtain ⟨row, rows, hrow, hrows, rfl⟩ := encodeWrites_cons_eq_ok_iff.1 h
    rw [List.length_append]
    rcases List.mem_cons.1 hw with rfl | hw
    · exact ⟨row, hrow, by omega⟩
    · obtain ⟨row', hrow', hle⟩ := ih hrows hw
      exact ⟨row', hrow', by omega⟩

/-- A row that is deleted takes no more bytes than one with a value. -/
theorem exists_encodeWrite_delete {key value row : Bytes}
    (h : encodeWrite (key, some value) = .ok row) :
    ∃ row', encodeWrite (key, none) = .ok row' ∧ row'.length ≤ row.length := by
  obtain ⟨front, back, hfront, -, rfl⟩ := encodeWrite_some_eq_ok_iff.1 h
  exact ⟨_, encodeWrite_none_eq_ok_iff.2 ⟨front, hfront, rfl⟩, by simp⟩

/-- If rows fit a frame together, each of them does, and so does its deletion. -/
theorem exists_encode_of_mem (h : ∃ frame, (commit tx ws).encode = .ok frame) {key value : Bytes}
    (hw : (key, some value) ∈ ws) (htx : tx' < Bytes.bound 8) {w : RowWrite}
    (hkey : w = (key, some value) ∨ w = (key, none)) :
    ∃ frame, (commit tx' [w]).encode = .ok frame := by
  obtain ⟨-, -, bs, hbs, hlen⟩ := encode_commit_iff.1 h
  obtain ⟨row, hrow, hle⟩ := exists_encodeWrite_of_mem hbs hw
  obtain ⟨row', hrow', hle'⟩ : ∃ row', encodeWrite w = .ok row' ∧ row'.length ≤ row.length := by
    rcases hkey with rfl | rfl
    · exact ⟨row, hrow, Nat.le_refl _⟩
    · exact exists_encodeWrite_delete hrow
  refine encode_commit_iff.2 ⟨htx, show 1 < Bytes.bound 4 by decide, row', ?_, by omega⟩
  simp only [encodeWrites, hrow', Except.map, List.append_nil]

end Entry

/-! ## Rows that hold nothing but records -/

namespace Roster

variable {m : Roster} {f : Codec} {rows : Std.ExtTreeMap Bytes Bytes} {op : Operation}
  {c : Course Outcome}

/-- The writes that store the records of a roster. -/
def writes (f : Codec) (m : Roster) : List RowWrite :=
  m.toList.map fun r => (Rows.key r.1, some (f.stored r.2))

/-- Do all records together fit one frame of a log? -/
def Fits (f : Codec) (m : Roster) : Prop :=
  ∃ frame, (Entry.commit TxId.base (m.writes f)).encode = .ok frame

/-- The rows hold the records of the roster, and nothing else. -/
structure Fills (m : Roster) (f : Codec) (rows : Std.ExtTreeMap Bytes Bytes) : Prop where
  stored : m.StoredIn f rows
  all : ∀ key ∈ rows, (Key.ofTag Rows.tag).isPrefixOf key

theorem fills_empty (f : Codec) : (∅ : Roster).Fills f ∅ where
  stored := .empty f
  all _ hk := absurd hk Std.ExtTreeMap.not_mem_empty

theorem Fills.writesOf_eq (h : m.Fills f rows) : Table.writesOf rows = m.writes f := by
  have hall : rows.filter (fun key _ => (Key.ofTag Rows.tag).isPrefixOf key) = rows := by
    refine Std.ExtTreeMap.ext_getElem? fun key => ?_
    rw [Overlay.getElem?_filter_start]
    split
    · rfl
    · next hp =>
      refine (Std.ExtTreeMap.getElem?_eq_none fun hk => hp ?_).symm
      exact h.all key hk
  rw [Table.writesOf, ← hall, h.stored.toList_filter, List.map_map]
  rfl

theorem Fills.serve (h : m.Fills f rows) (hop : op.Readable f) (hc : op.course f = .ok c) :
    (Roster.serve op m).2.Fills f ((op.write? f m).toList.foldl Table.applyWrite rows) where
  stored := h.stored.serve hop hc
  all key hk := by
    cases hw : op.write? f m with
    | none =>
      rw [hw] at hk
      exact h.all key hk
    | some w =>
      obtain ⟨id, hid, -⟩ := Operation.of_write? hc hw
      rw [hw, Std.ExtTreeMap.mem_iff_isSome_getElem?] at hk
      simp only [Option.toList_some, List.foldl_cons, List.foldl_nil, Table.getElem?_applyWrite]
        at hk
      split at hk
      · next e =>
        rw [← e, hid]
        exact Rows.ofTag_isPrefixOf_key id
      · exact h.all key (Std.ExtTreeMap.mem_iff_isSome_getElem?.2 hk)

theorem Fills.mem_writes (h : m.Fills f rows) {key value : Bytes} (hk : rows[key]? = some value) :
    (key, some value) ∈ m.writes f := by
  rw [← h.writesOf_eq]
  exact List.mem_map.2 ⟨(key, value), Std.ExtTreeMap.mem_toList_iff_getElem?_eq_some.2 hk, rfl⟩

/-- What an operation writes fits a frame if all records do, before and after it. -/
theorem Fills.fits_write? (h : m.Fills f rows) (hop : op.Readable f) (hc : op.course f = .ok c)
    (hm : m.Fits f) (hm' : (Roster.serve op m).2.Fits f) {w : RowWrite}
    (hw : op.write? f m = some w) {tx : TxId} (htx : tx < Bytes.bound 8) :
    ∃ frame, (Entry.commit tx [w]).encode = .ok frame := by
  obtain ⟨key, new⟩ := w
  cases new with
  | some value =>
    have hkey : ((op.write? f m).toList.foldl Table.applyWrite rows)[key]? = some value := by
      rw [hw]
      simp [Table.getElem?_applyWrite]
    exact Entry.exists_encode_of_mem hm' ((h.serve hop hc).mem_writes hkey) htx (.inl rfl)
  | none =>
    obtain ⟨value, hvalue⟩ : ∃ value, rows[key]? = some value := by
      cases op with
      | create r =>
        simp only [Operation.write?] at hw
        split at hw <;> simp at hw
      | update r =>
        simp only [Operation.write?] at hw
        split at hw <;> simp at hw
      | delete name =>
        obtain ⟨id, hid, -⟩ := map_eq_ok_iff.1 hc
        obtain rfl := Id.name_of_ofName hid
        simp only [Operation.write?] at hw
        split at hw
        · next hmem =>
          cases hw
          rw [h.stored.row id]
          exact ⟨_, by rw [Std.ExtTreeMap.getElem?_eq_some_getElem hmem]; rfl⟩
        · cases hw
      | get name => cases hw
      | list => cases hw
    exact Entry.exists_encode_of_mem hm (h.mem_writes hvalue) htx (.inr rfl)

end Roster

/-! ## A coordinator without transactions -/

namespace Coordinator

variable {c : Coordinator}

/-- No transaction runs, and nothing is kept of those that ended. -/
structure Idle (c : Coordinator) : Prop where
  next : 0 < c.next
  inProgress : c.inProgress = ∅
  invalid : c.invalid = ∅
  reserved : c.reserved = ∅
  committed : c.committed = ∅

theorem idle_new : new.Idle := ⟨Nat.zero_lt_one, rfl, rfl, rfl, rfl⟩

/-- A transaction that begins sees all writers that were there. -/
theorem Idle.sees_begin (h : c.Idle) {w : TxId} (hw : w < c.next) : c.begin.1.sees w := by
  have hexcluded : c.begin.1.excluded = [] := by
    simp only [begin, h.inProgress, h.invalid]
    exact List.mergeSort_nil
  rw [Transaction.sees_iff, hexcluded]
  exact .inr (.inr ⟨Nat.le_sub_one_of_lt hw, List.not_mem_nil⟩)

/-- A transaction that begins meets no rival, and commits. -/
theorem Idle.exists_commit (h : c.Idle) (changes : ChangeSet) :
    ∃ c₁ pointer tx c₂, c.begin.2.reserve c.begin.1 changes = (.ok (), c₁) ∧
      c₁.commit c.begin.1 = .ok (pointer, tx, c₂) ∧ c₂.Idle ∧ c₂.next = c.next + 2 ∧
      c₂.stats.started = c.stats.started + 1 := by
  obtain ⟨hnext, hinProgress, hinvalid, hreserved, hcommitted⟩ := h
  have hrunning : ∀ reserved,
      checkRunning { c.begin.2 with reserved } c.begin.1 = .ok () := by
    simp [checkRunning, begin, Transaction.checkActive]
  have hrivals : c.begin.2.rivals c.begin.1.id = [] := by
    simp only [rivals, begin, hreserved, hcommitted]
    rfl
  have hreserve : c.begin.2.reserve c.begin.1 changes =
      (.ok (), { c.begin.2 with reserved := c.begin.2.reserved.insert c.next changes }) := by
    have hrunning := hrunning c.begin.2.reserved
    simp only [reserve, hrunning, conflicts, hrivals]
    rfl
  have herase : ((∅ : Std.ExtTreeSet TxId).insert c.next).erase c.next = ∅ := by
    refine Std.ExtTreeSet.ext_mem fun k => ?_
    simp
  have herase' : ((∅ : Std.ExtTreeMap TxId ChangeSet).insert c.next changes).erase c.next = ∅ := by
    refine Std.ExtTreeMap.ext_getElem? fun k => ?_
    simp
  refine ⟨_, _, _, _, hreserve, by rw [commit, hrunning], ?_⟩
  rw [finish_of_erase_eq (by simp only [begin, hinProgress, herase])]
  refine ⟨⟨Nat.succ_pos _, rfl, hinvalid, ?_, rfl⟩, rfl, rfl⟩
  simp only [begin, hreserved, herase']

end Coordinator

/-! ## One transaction -/

namespace World

variable {ρ : Type} {v w : World ρ} {id : TableId} {file : FileId} {m : Roster} {f : Codec}
  {rows : Std.ExtTreeMap Bytes Bytes} {op : Operation} {c : Course Outcome}

/-- No transaction runs, and the table keeps the rows, in a file on the disk. -/
structure Settled (w : World ρ) (id : TableId) (file : FileId)
    (rows : Std.ExtTreeMap Bytes Bytes) : Prop where
  idle : w.coordinator.Idle
  opens : w.site.Opens id file
  table : (w.table id).Keeps w.coordinator.next rows

/-- The steps of an attempt at one table, if none of them fails. -/
theorem steps_eq {α : Type} {body : Overlay → Table → Except Error (α × Overlay)} {a : α}
    {tx tx' : Transaction} {buffer : Std.ExtTreeMap Bytes (Option Bytes)} {t : Table}
    {c₁ c₂ : Coordinator} {installed logged : Bool} {pointer : Nat}
    (hbody : body ⟨id, some tx, ∅, false, false⟩ (w.table id) =
      .ok (a, ⟨id, some tx, buffer, false, false⟩))
    (hreserve : w.coordinator.reserve tx (Std.ExtTreeSet.ofList
      [Overlay.changes ⟨id, some tx, buffer, false, false⟩ (w.table id)].flatten) = (.ok (), c₁))
    (hinstall : Overlay.commit ⟨id, some tx, buffer, false, false⟩ (w.table id) =
      (.ok (), ⟨id, some tx, buffer, installed, logged⟩, t))
    (hcommit : c₁.commit tx = .ok (pointer, tx', c₂)) :
    Executor.steps tx (Overlay.body body) [Overlay.ofTable id] w =
      (.ok a, [Overlay.ofTable id], { w.putTable id t with coordinator := c₂ }) := by
  have hstart : actUntil (Participant.start tx) [Overlay.ofTable id] w =
      (.ok (), [⟨id, some tx, ∅, false, false⟩], w) := rfl
  have hbody' : Overlay.body body [⟨id, some tx, ∅, false, false⟩] w =
      (.ok a, [⟨id, some tx, buffer, false, false⟩], w) := by
    simp only [Overlay.body, hbody]
  have hchanges : actAll Participant.changes [(⟨id, some tx, buffer, false, false⟩ : Overlay)] w =
      ([Overlay.changes ⟨id, some tx, buffer, false, false⟩ (w.table id)],
        [⟨id, some tx, buffer, false, false⟩], w) := rfl
  have hinstall' : actUntil Participant.commit [(⟨id, some tx, buffer, false, false⟩ : Overlay)]
      { w with coordinator := c₁ } =
      (.ok (), [⟨id, some tx, buffer, installed, logged⟩],
        { w.putTable id t with coordinator := c₁ }) := by
    have hact : Participant.commit (⟨id, some tx, buffer, false, false⟩ : Overlay)
        { w with coordinator := c₁ } =
        (.ok (), ⟨id, some tx, buffer, installed, logged⟩,
          { w.putTable id t with coordinator := c₁ }) := by
      have htable : World.table { w with coordinator := c₁ } id = w.table id := rfl
      simp only [Participant.commit, htable, hinstall]
      rfl
    simp only [actUntil, hact]
  simp only [Executor.steps, hstart, hbody', hchanges, hreserve, hinstall', hcommit]
  rfl

/-- When the last transaction has put the table back and is over, the table is pruned, which leaves
its rows as they are. -/
theorem exists_reclaim (h : w.site.Opens id file) {t : Table} {next : TxId} (ht : t.Keeps next rows)
    {c : Coordinator} (hidle : c.Idle) (hnext : next ≤ c.next) :
    ∃ w', Executor.reclaim [Overlay.ofTable id] { w.putTable id t with coordinator := c } = w' ∧
      w'.Settled id file rows ∧ w'.coordinator = c ∧ w'.extra = w.extra ∧
      w'.site.disk.nodes = w.site.disk.nodes := by
  -- the table is put back twice: after the commit, and after the prune
  obtain ⟨j, hj, -⟩ := ht.log
  obtain ⟨hopens, htable, hdisk⟩ := h.putTable hj
  have hpruned := ht.prune (g := c.horizon) fun i => by
    rw [Horizon.isDead, Coordinator.horizon, hidle.invalid]
    rfl
  obtain ⟨j', hj', -⟩ := hpruned.log
  obtain ⟨hopens', htable', hdisk'⟩ := hopens.putTable hj'
  refine ⟨{ w with
      coordinator := c
      site := (w.site.putTable id t).putTable id (t.prune c.horizon).2 }, ?_,
    ⟨hidle, hopens', ?_⟩, rfl, rfl, ?_⟩
  · show World.putTable { w.putTable id t with coordinator := c } id
      (((w.site.putTable id t).table id).prune c.horizon).2 = _
    rw [htable]
    rfl
  · show Table.Keeps (((w.site.putTable id t).putTable id (t.prune c.horizon).2).table id) _ _
    rw [htable']
    exact hpruned.mono hnext
  · show ((w.site.putTable id t).putTable id (t.prune c.horizon).2).disk.nodes = _
    rw [hdisk', Disk.write, hdisk]
    rfl

/-- A transaction that goes through the course of an operation answers as the roster does, and
commits what the operation writes. -/
theorem Settled.exists_attempt (h : w.Settled id file rows) {x : Executor ρ Overlay}
    (hbind : x.bind v = (.ok [Overlay.ofTable id], w)) (hm : m.StoredIn f rows)
    (hop : op.Readable f) (hc : op.course f = .ok c)
    (hfits : ∀ write, op.write? f m = some write →
      ∃ frame, (Entry.commit w.coordinator.next [write]).encode = .ok frame) :
    ∃ outcome w', x.attempt (Overlay.body c.run) v = (.ok outcome, w') ∧
      (Roster.serve op m).1 = .ok outcome ∧
      w'.Settled id file ((op.write? f m).toList.foldl Table.applyWrite rows) ∧
      w'.coordinator.next = w.coordinator.next + 2 ∧
      w'.coordinator.stats.started = w.coordinator.stats.started + 1 ∧
      w'.extra = w.extra ∧ w'.site.disk.nodes = w.site.disk.nodes := by
  generalize htx : w.coordinator.begin.1 = tx at *
  have hid : tx.id = w.coordinator.next := by
    rw [← htx]
    rfl
  have hsees : ∀ i < w.coordinator.next, tx.sees i := fun i hi => htx ▸ h.idle.sees_begin hi
  have hget := h.table.get_eq hsees
  obtain ⟨outcome, buffer, hrun, hserve, hbuffer⟩ :=
    hm.run_course hop hc (x := ⟨id, some tx, ∅, false, false⟩) rfl rfl hget
  have hframe : buffer.toList ≠ [] →
      ∃ frame, (Entry.commit w.coordinator.next buffer.toList).encode = .ok frame := by
    intro hne
    rw [hbuffer] at hne ⊢
    cases hw : op.write? f m with
    | none => exact absurd (by rw [hw]; rfl) hne
    | some write => exact hfits write hw
  obtain ⟨logged, t, hinstall, hkeeps⟩ := h.table.exists_install hframe
  have hcommit : Overlay.commit ⟨id, some tx, buffer, false, false⟩ (w.table id) =
      (.ok (), ⟨id, some tx, buffer, !buffer.isEmpty, logged⟩, t) := by
    simp only [Overlay.commit, Overlay.active, hid, hinstall]
  obtain ⟨c₁, pointer, tx', c₂, hreserve, hfinish, hidle, hnext, hstarted⟩ :=
    h.idle.exists_commit (Std.ExtTreeSet.ofList
      [Overlay.changes ⟨id, some tx, buffer, false, false⟩ (w.table id)].flatten)
  rw [htx] at hreserve hfinish
  have hsteps := steps_eq (w := { w with coordinator := w.coordinator.begin.2 }) hrun hreserve
    hcommit hfinish
  obtain ⟨w', hreclaim, hsettled, hcoordinator, hextra, hnodes⟩ :=
    exists_reclaim h.opens hkeeps hidle (show w.coordinator.next + 1 ≤ c₂.next by omega)
  refine ⟨outcome, w', ?_, hserve, hbuffer ▸ hsettled, ?_, ?_, hextra, hnodes⟩
  · simp only [Executor.attempt, hbind, htx, hsteps]
    exact congrArg _ hreclaim
  · rw [hcoordinator, hnext]
  · rw [hcoordinator, hstarted]

end World

end NamespaceCatalog
