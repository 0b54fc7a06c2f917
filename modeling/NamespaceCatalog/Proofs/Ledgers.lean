import NamespaceCatalog.Proofs.Reopening

/-!
# Ledgers

A log and the rollbacks that wait for it are one thing to the table that owns them: what stands once
the rollbacks are written (`LogWriter.Promises`).  A commit adds to it, and a rollback takes one
commit away.  Writing what waits does not change it, unless the flush after a rollback's frame
fails: then the frame is in the log, and is written again later, so one more commit of that
transaction's number goes (`LogWriter.promises_writeRollbacks`).

`Scene.Ledger` says which commits those are since a table was opened: what committed transactions
wrote stands, and what running ones have installed.  A commit that stood when the table was opened
is taken away only by such a second frame (`Recorded`).
-/

namespace NamespaceCatalog

/-! ## Undoing -/

theorem eraseP_comm (l : List (TxId × List RowWrite)) (i j : TxId) :
    (l.eraseP (·.1 = i)).eraseP (·.1 = j) = (l.eraseP (·.1 = j)).eraseP (·.1 = i) := by
  by_cases e : i = j
  · rw [e]
  induction l with
  | nil => rfl
  | cons c l ih =>
    by_cases hi : c.1 = i
    · have hj : c.1 ≠ j := fun hj => e (hi.symm.trans hj)
      simp [hi, e]
    · by_cases hj : c.1 = j
      · simp [hj, Ne.symm e]
      · simp [hi, hj, ih]

theorem standing_append (es later : List Entry) :
    standing (es ++ later) = later.foldl replayEntry (standing es) :=
  List.foldl_append

/-- It does not matter when a transaction's commit is undone. -/
theorem foldl_rollback_eraseP (ids : List TxId) (l : List (TxId × List RowWrite)) (i : TxId) :
    (ids.map Entry.rollback).foldl replayEntry (l.eraseP (·.1 = i)) =
      ((ids.map Entry.rollback).foldl replayEntry l).eraseP (·.1 = i) := by
  induction ids generalizing l with
  | nil => rfl
  | cons j ids ih =>
    simp only [List.map_cons, List.foldl_cons, replayEntry]
    rw [eraseP_comm, ih]

/-- A commit of late times is undone before any of early ones. -/
theorem eraseP_append_of_mem {late early : List (TxId × List RowWrite)} {c : TxId × List RowWrite}
    (hd : (late.map (·.1)).Nodup) (hc : c ∈ late) :
    (late ++ early).eraseP (·.1 = c.1) = late.filter (·.1 ≠ c.1) ++ early := by
  rw [List.eraseP_append, if_pos (List.any_eq_true.2 ⟨c, hc, decide_eq_true rfl⟩),
    eraseP_eq_filter hd]

/-! ## Rollbacks whose flush fails -/

namespace LogWriter

variable {j : Journal} {w w' : LogWriter} {es : List Entry} {tx : TxId}
  {cs : List (TxId × List RowWrite)} {ws : List RowWrite}

/-- Does one of the rollbacks fail with its frame written?  It waits then, and is written again. -/
def leavesRollback (j : Journal) : List TxId → Bool
  | [] => false
  | tx :: later =>
    match j.append (.rollback tx) with
    | (.error _, j') => j'.stream.bytes ≠ j.stream.bytes
    | (.ok _, j') => leavesRollback j' later

/-- Is this what stands in the log, once the rollbacks that wait are written? -/
def Promises (w : LogWriter) (cs : List (TxId × List RowWrite)) : Prop :=
  ∃ es, w.journal.Holds es ∧ standing (es ++ w.unwritten.map .rollback) = cs

/-- Is `cs'` left of `cs` after an attempt to write the rollbacks `ids`? -/
def Leaves (j : Journal) (ids : List TxId) (cs cs' : List (TxId × List RowWrite)) : Prop :=
  cs' = cs ∨ leavesRollback j ids = true ∧ ∃ i ∈ ids, cs' = cs.eraseP (·.1 = i)

/-- At most one early commit goes, if no rollback is for a late one. -/
theorem Leaves.of_apart {ids : List TxId} {late early cs' : List (TxId × List RowWrite)}
    (h : Leaves j ids (late ++ early) cs') (ha : ∀ i ∈ ids, ∀ c ∈ late, c.1 ≠ i) :
    ∃ left, cs' = late ++ left ∧ left.Sublist early ∧
      early.length ≤ left.length + (leavesRollback j ids).toNat := by
  rcases h with rfl | ⟨hl, i, hi, rfl⟩
  · exact ⟨early, rfl, .refl _, Nat.le_add_right _ _⟩
  · refine ⟨early.eraseP (·.1 = i), ?_, List.eraseP_sublist, ?_⟩
    · rw [List.eraseP_append_right]
      intro c hc
      simpa using ha i hi c hc
    · rw [hl, Bool.toNat_true, List.length_eraseP]
      split <;> omega

theorem leavesRollback_of_bytes (later : List TxId) {fault : Error} {j' : Journal}
    (ha : j.append (.rollback tx) = (.error fault, j')) (hb : j'.stream.bytes ≠ j.stream.bytes) :
    leavesRollback j (tx :: later) = true := by
  simp [leavesRollback, ha, hb]

/-- No rollback waits that did not wait before. -/
theorem unwritten_writeRollbacks_suffix (j : Journal) (ids : List TxId) :
    (writeRollbacks j ids).2.unwritten <:+ ids := by
  induction ids generalizing j with
  | nil => exact List.suffix_refl _
  | cons tx ids ih =>
    unfold writeRollbacks
    cases j.append (.rollback tx) with
    | mk r j' =>
      cases r with
      | error fault => exact List.suffix_refl _
      | ok offset => exact (ih j').trans (List.suffix_cons tx ids)

theorem unwritten_append_suffix (w : LogWriter) (e : Entry) :
    (w.append e).2.unwritten <:+ w.unwritten := by
  have hw := unwritten_writeRollbacks_suffix w.journal w.unwritten
  unfold append
  cases hv : writeRollbacks w.journal w.unwritten with
  | mk r v =>
    rw [hv] at hw
    cases r with
    | error fault => exact hw
    | ok _ =>
      cases hj : v.journal.append e with
      | mk r' j => cases r' <;> simpa [hj] using hw

/-- The bytes say how many entries are there. -/
theorem bytes_ne_of_holds {j' : Journal} {e : Entry} (h : j.Holds es) (h' : j'.Holds (es ++ [e])) :
    j'.stream.bytes ≠ j.stream.bytes := by
  intro hb
  have ho := h'.frames.ofBytes
  rw [hb, h.frames.ofBytes, Scan.mk.injEq] at ho
  simp at ho

/-- Writing rollbacks that wait changes what stands in the end only if a flush fails after one of
their frames. -/
theorem promises_writeRollbacks (h : j.Holds es) (ids : List TxId) :
    ∃ cs, (writeRollbacks j ids).2.Promises cs ∧
      Leaves j ids (standing (es ++ ids.map .rollback)) cs := by
  induction ids generalizing j es with
  | nil => exact ⟨_, ⟨es, h, rfl⟩, .inl rfl⟩
  | cons tx ids ih =>
    unfold writeRollbacks
    cases ha : j.append (.rollback tx) with
    | mk r j' =>
      cases r with
      | error fault =>
        rcases h.append_error ha with ⟨-, h'⟩ | ⟨-, h'⟩
        · -- the frame is there, and its rollback waits to be written once more
          have hleaves := leavesRollback_of_bytes ids ha (bytes_ne_of_holds h h')
          refine ⟨_, ⟨_, h', rfl⟩, .inr ⟨hleaves, tx, List.mem_cons_self, ?_⟩⟩
          rw [standing_append, standing_append, standing_append es]
          exact foldl_rollback_eraseP (tx :: ids) (standing es) tx
        · exact ⟨_, ⟨es, h', rfl⟩, .inl rfl⟩
      | ok offset =>
        obtain ⟨cs, hcs, hleaves⟩ := ih (h.append_ok ha)
        refine ⟨cs, hcs, ?_⟩
        rw [List.append_assoc] at hleaves
        rcases hleaves with rfl | ⟨hl, i, hi, e⟩
        · exact .inl rfl
        · refine .inr ⟨?_, i, List.mem_cons_of_mem tx hi, e⟩
          simpa only [leavesRollback, ha] using hl

/-- A commit that is appended stands, and nothing waits. -/
theorem Promises.append_ok (h : w.Promises cs) (ha : w.append (.commit tx ws) = (.ok (), w')) :
    w'.Promises ((tx, ws) :: cs) ∧ w'.unwritten = [] := by
  obtain ⟨es, hes, rfl⟩ := h
  obtain ⟨hwait, hes'⟩ := holds_append_ok hes ha
  refine ⟨⟨_, hes', ?_⟩, hwait⟩
  rw [hwait, List.map_nil, List.append_nil, standing_append_commit]

/-- A commit that could not be appended stands only if the flush after its frame failed. -/
theorem Promises.append_error {fault : Error} (h : w.Promises cs)
    (ha : w.append (.commit tx ws) = (.error fault, w')) :
    w.LeavesStray (.commit tx ws) ∧ w'.Promises ((tx, ws) :: cs) ∧ w'.unwritten = [] ∨
      ∃ cs', w'.Promises cs' ∧ Leaves w.journal w.unwritten cs cs' := by
  obtain ⟨es, hes, rfl⟩ := h
  rcases holds_append_error hes ha with ⟨hstray, hwait, hes'⟩ | ⟨hstray, -⟩
  · refine .inl ⟨hstray, ⟨_, hes', ?_⟩, hwait⟩
    rw [hwait, List.map_nil, List.append_nil, standing_append_commit]
  · refine .inr ?_
    rcases of_append_error ha with hw | ⟨v, j, hw, hj, rfl⟩
    · have hwritten := promises_writeRollbacks hes w.unwritten
      rwa [hw] at hwritten
    · obtain ⟨hwait, hv⟩ := holds_writeRollbacks_ok hes hw
      rcases hv.append_error hj with ⟨hs, -⟩ | ⟨-, hj'⟩
      · exact absurd ⟨v, hw, hs⟩ hstray
      · refine ⟨_, ⟨_, hj', ?_⟩, .inl rfl⟩
        rw [hwait, List.map_nil, List.append_nil]

/-- A rollback undoes one commit. -/
theorem Promises.rollback (h : w.Promises cs) (tx : TxId) :
    ∃ cs', (w.rollback tx).Promises cs' ∧
      Leaves w.journal (w.unwritten ++ [tx]) (cs.eraseP (·.1 = tx)) cs' := by
  obtain ⟨es, hes, rfl⟩ := h
  have hundone : standing (es ++ (w.unwritten ++ [tx]).map .rollback) =
      (standing (es ++ w.unwritten.map .rollback)).eraseP (·.1 = tx) := by
    rw [List.map_append, ← List.append_assoc, standing_append]
    rfl
  rw [← hundone]
  exact promises_writeRollbacks hes (w.unwritten ++ [tx])

/-- All that stands in the end stands in the log already. -/
theorem Promises.exists_sublist (h : w.Promises cs) :
    ∃ es, Frames es w.journal.stream.bytes ∧ cs.Sublist (standing es) := by
  obtain ⟨es, hes, rfl⟩ := h
  refine ⟨es, hes.frames, ?_⟩
  rw [standing_append]
  generalize standing es = l
  induction w.unwritten generalizing l with
  | nil => exact .refl _
  | cons i ids ih => exact (ih _).trans List.eraseP_sublist

end LogWriter

/-! ## Scenes -/

namespace Scene

variable {s d : Scene} {e : Event} {i : TxId} {t : TableId} {tr : Trace}
  {live : List (TxId × List RowWrite)} {waiting : List TxId}

/-- Is a rollback's frame written at the table in this step, with the flush after it failing? -/
def Event.leavesRollback (s : Scene) (t : TableId) : Event → Bool
  | .failInstall i u =>
    u = t && !(s.wrote i t).isEmpty &&
      (s.tables t).log.any fun w => LogWriter.leavesRollback w.journal w.unwritten
  | .rollback i u =>
    u = t && (s.actors i).any (fun a => (a.overlays t).installed) &&
      (s.tables t).log.any fun w => LogWriter.leavesRollback w.journal (w.unwritten ++ [i])
  | _ => false

/-- How often a rollback's frame was written at the table with the flush after it failing. -/
def Trace.rollbacksLeft (tr : Trace) (t : TableId) : Nat :=
  tr.countP fun p => p.2.leavesRollback p.1 t

@[simp] theorem tables_put_putTable (s : Scene) (t : TableId) (table : Table) (i : TxId)
    (b : Actor) : ((s.putTable t table).put i b).tables t = table :=
  Function.update_self ..

/-- What was committed and is not empty, the first commit first. -/
def acknowledged (s : Scene) (t : TableId) : List (TxId × List RowWrite) :=
  (s.chronicle.commits.map fun k => (k.id, s.written k.id t)).filter (·.2 ≠ [])

theorem mem_acknowledged {c : TxId × List RowWrite} :
    c ∈ s.acknowledged t ↔
      ∃ k ∈ s.chronicle.commits, k.id = c.1 ∧ s.written c.1 t = c.2 ∧ c.2 ≠ [] := by
  simp only [acknowledged, List.mem_filter, List.mem_map, decide_eq_true_eq]
  constructor
  · rintro ⟨⟨k, hk, rfl⟩, hne⟩
    exact ⟨k, hk, rfl, rfl, hne⟩
  · rintro ⟨k, hk, hid, hws, hne⟩
    exact ⟨⟨k, hk, by rw [hid, hws]⟩, hne⟩

/-- What holds of the commits `live` since the table was opened, and of the rollbacks that wait. -/
structure Ledger (s : Scene) (t : TableId) (live : List (TxId × List RowWrite))
    (waiting : List TxId) : Prop where
  nodup : (live.map (·.1)).Nodup
  born : ∀ c ∈ live, (c.1 : Nat) < s.coordinator.next
  apart : ∀ i ∈ waiting, ∀ c ∈ live, c.1 ≠ i
  early : ∀ i a, s.actors i = some a → a.MayCommit → (a.overlays t).installed = false →
    ∀ c ∈ live, c.1 ≠ i
  held : ∀ i a, s.actors i = some a → a.progress ≠ .over → (a.overlays t).installed = true →
    (a.overlays t).logged = true ∧ (i, (a.overlays t).buffer.toList) ∈ live
  acknowledged : ∀ c ∈ s.acknowledged t, c ∈ live

/-- What was installed before is what was written then. -/
theorem Inv.overlay_eq_of_installed (h : Inv s) (hd : Step s e d) (hq : ∀ i, ¬e.ActsAt i t)
    {b : Actor} (hb : d.actors i = some b) (hi : (b.overlays t).installed = true) :
    ∃ a, s.actors i = some a ∧ a.overlays t = b.overlays t := by
  have put : ∀ {r : Scene} {j : TxId} {a b' : Actor}, (r.put j b').actors i = some b →
      r.actors = s.actors → s.actors j = some a →
      ((b'.overlays t).installed = true → a.overlays t = b'.overlays t) →
      ∃ a, s.actors i = some a ∧ a.overlays t = b.overlays t := by
    intro r j a b' hc hr ha hsame
    rcases actors_put_cases hc with ⟨rfl, rfl⟩ | ⟨-, hc⟩
    · exact ⟨a, ha, hsame hi⟩
    · exact ⟨b, hr ▸ hc, rfl⟩
  have elsewhere : ∀ {a : Actor} {u : TableId} {x : Overlay}, t ≠ u →
      a.overlays t = (a.put u x).overlays t := fun hne => (Function.update_of_ne hne ..).symm
  cases hd with
  | begin =>
    rcases actors_put_cases hb with ⟨-, rfl⟩ | ⟨-, hb⟩
    · cases hi
    · exact ⟨b, hb, rfl⟩
  | @start j a u x ha hp hx =>
    refine put hb rfl ha fun hi => ?_
    by_cases e : t = u
    · subst e
      obtain ⟨-, rfl⟩ := Overlay.of_start_ok hx
      simp [Actor.put, Overlay.ofTable] at hi
    · exact elsewhere e
  | @perform j a u op answer x ha hp hx =>
    refine put hb rfl ha fun hi => ?_
    by_cases e : t = u
    · subst e
      obtain ⟨hx, -⟩ := Overlay.of_perform_ok hx
      rw [hx] at hi
      simp only [Actor.put, Function.update_self] at hi
      rw [(h.fits j a ha (by simp [hp])).working hp t] at hi
      cases hi
    · exact elsewhere e
  | reserve ha | refuse ha | fail ha | abort ha | invalidate ha => exact put hb rfl ha fun _ => rfl
  | commit ha => exact put hb rfl ha fun _ => rfl
  | @install j a u x table ha =>
    have hne : t ≠ u := by
      rintro rfl
      exact hq j (.inl rfl)
    exact put hb rfl ha fun _ => elsewhere hne
  | @failInstall j a u err x table ha =>
    have hne : t ≠ u := by
      rintro rfl
      exact hq j (.inr (.inl rfl))
    exact put hb rfl ha fun _ => elsewhere hne
  | @rollback j a u x table ha =>
    have hne : t ≠ u := by
      rintro rfl
      exact hq j (.inr (.inr rfl))
    exact put hb rfl ha fun _ => elsewhere hne
  | @post j a u ha =>
    refine put hb rfl ha fun hi => ?_
    by_cases e : t = u
    · subst e
      simp [Actor.put, Overlay.release, Overlay.ofTable] at hi
    · exact elsewhere e
  | takeHorizon | prune | forget => exact ⟨b, hb, rfl⟩

/-- Nothing is acknowledged but what a transaction has just committed, or was acknowledged
before. -/
theorem Inv.acknowledged_cases (h : Inv s) (hd : Step s e d) {c : TxId × List RowWrite}
    (hc : c ∈ d.acknowledged t) :
    c ∈ s.acknowledged t ∨ ∃ a, s.actors c.1 = some a ∧ a.progress = .reserved ∧
      (a.overlays t).installed = true ∧ (a.overlays t).buffer.toList = c.2 := by
  have same : ∀ {r : Scene}, c ∈ r.acknowledged t →
      (∀ k, k ∈ r.chronicle.commits → k ∈ s.chronicle.commits) → r.written = s.written →
      c ∈ s.acknowledged t := by
    intro r hc hr hw
    obtain ⟨k, hk, hid, hws, hne⟩ := mem_acknowledged.1 hc
    exact mem_acknowledged.2 ⟨k, hr k hk, hid, hw ▸ hws, hne⟩
  have ask : ∀ {r : Request}, (∀ tx, r ≠ .commit tx) →
      ∀ k, k ∈ (s.chronicle.serve r).commits → k ∈ s.chronicle.commits := fun hr k hk =>
    Chronicle.commits_serve s.chronicle hr ▸ hk
  cases hd with
  | start | perform | install | failInstall | post | fail | rollback | takeHorizon | prune =>
    exact .inl (same hc (fun _ => id) rfl)
  | begin | reserve | refuse | abort | invalidate | forget => exact .inl (same hc (ask nofun) rfl)
  | @commit j a pointer tx co ha hp hall hco =>
    have f := h.fits j a ha (by simp [hp])
    obtain ⟨k, hk, hid, hws, hne⟩ := mem_acknowledged.1 hc
    dsimp only at hws
    by_cases e : c.1 = j
    · rw [e, Function.update_self] at hws
      refine .inr ⟨a, e ▸ ha, hp, (hall t).resolve_left fun hb => hne ?_, hws⟩
      rw [← hws, hb]
      rfl
    · rw [Function.update_of_ne e] at hws
      refine .inl (mem_acknowledged.2 ⟨k, ?_, hid, hws, hne⟩)
      obtain ⟨stats, hask⟩ := Chronicle.serve_commit_of_ok hco
      have hk : k ∈ (s.chronicle.serve (.commit a.tx)).commits := hk
      rw [hask] at hk
      refine (List.mem_append.1 hk).resolve_right fun hk => e ?_
      rw [← hid, List.mem_singleton.1 hk]
      exact f.id

namespace Ledger

theorem follow (h : s.Ledger t live waiting) (hs : Inv s) (hd : Step s e d)
    (hq : ∀ i, ¬e.ActsAt i t) : d.Ledger t live waiting where
  nodup := h.nodup
  born c hc := Nat.lt_of_lt_of_le (h.born c hc) (hs.advances hd).1.next_le
  apart := h.apart
  early i b hb hm hi c hc := by
    rcases (hs.follows hd hq).actors i b hb with ⟨a, ha, hf⟩ | ⟨rfl, -⟩
    · exact h.early i a ha (hf.mayCommit hm) (hf.lacking hm.progress_ne hi) c hc
    · exact Nat.ne_of_lt (h.born c hc)
  held i b hb hp hi := by
    obtain ⟨a, ha, hx⟩ := hs.overlay_eq_of_installed hd hq hb hi
    rcases (hs.follows hd hq).actors i b hb with ⟨a', ha', hf⟩ | ⟨-, hi'⟩
    · obtain rfl : a = a' := by rwa [ha, Option.some.injEq] at ha'
      rw [← hx]
      exact h.held i a ha (hf.running hp) (hx ▸ hi)
    · rw [hi] at hi'
      cases hi'
  acknowledged c hc := by
    rcases hs.acknowledged_cases hd hc with hc | ⟨a, ha, hp, hi, hws⟩
    · exact h.acknowledged c hc
    · have := (h.held c.1 a ha (by simp [hp]) hi).2
      rwa [hws] at this

/-- An actor installs or rolls back at the table. -/
theorem act (h : s.Ledger t live waiting) {table : Table} {b : Actor}
    {live' : List (TxId × List RowWrite)} {waiting' : List TxId}
    (hnodup : (live'.map (·.1)).Nodup)
    (hborn : ∀ c ∈ live', (c.1 : Nat) < s.coordinator.next)
    (hapart : ∀ j ∈ waiting', ∀ c ∈ live', c.1 ≠ j)
    (hnew : ∀ c ∈ live', c ∈ live ∨ c.1 = i)
    (hold : ∀ c ∈ live, c.1 ≠ i → c ∈ live')
    (hearly : b.MayCommit → (b.overlays t).installed = false → ∀ c ∈ live', c.1 ≠ i)
    (hheld : (b.overlays t).installed = true →
      (b.overlays t).logged = true ∧ (i, (b.overlays t).buffer.toList) ∈ live')
    (hack : ∀ c ∈ s.acknowledged t, c.1 ≠ i) :
    ((s.putTable t table).put i b).Ledger t live' waiting' where
  nodup := hnodup
  born := hborn
  apart := hapart
  early j a ha hm hi c hc := by
    rcases actors_put_cases ha with ⟨rfl, rfl⟩ | ⟨hne, ha⟩
    · exact hearly hm hi c hc
    · rcases hnew c hc with hc | e
      · exact h.early j a ha hm hi c hc
      · exact fun e' => hne (e'.symm.trans e)
  held j a ha hp hi := by
    rcases actors_put_cases ha with ⟨rfl, rfl⟩ | ⟨hne, ha⟩
    · exact hheld hi
    · exact (h.held j a ha hp hi).imp_right fun hm => hold _ hm hne
  acknowledged c hc := hold c (h.acknowledged c hc) (hack c hc)

/-- A transaction that runs has committed nothing. -/
theorem ne_of_acknowledged (hs : Inv s) {a : Actor} (ha : s.actors i = some a)
    (hp : a.progress ≠ .over) : ∀ c ∈ s.acknowledged t, c.1 ≠ i := by
  intro c hc e
  obtain ⟨k, hk, hid, -⟩ := mem_acknowledged.1 hc
  have hi := (hs.running i).2 ⟨a, ha, hp⟩
  rw [← e, ← hid] at hi
  exact (hs.chronicle.fresh k hk).1 hi

variable {a : Actor} {x : Overlay} {table : Table} {w : LogWriter}
  {old : List (TxId × List RowWrite)}

/-- An actor that installed nothing and has nothing installed leaves the commits as they are. -/
theorem stay (h : s.Ledger t live waiting) (hs : Inv s) (ha : s.actors i = some a)
    (hp : a.progress ≠ .over) {b : Actor}
    (hearly : b.MayCommit → a.MayCommit ∧ (a.overlays t).installed = false)
    (hn : (b.overlays t).installed = false) {waiting' : List TxId}
    (hsub : ∀ j ∈ waiting', j ∈ waiting) :
    ((s.putTable t table).put i b).Ledger t live waiting' := by
  refine h.act h.nodup h.born (fun j hj => h.apart j (hsub j hj)) (fun _ => .inl)
    (fun _ hc _ => hc) ?_ ?_ (ne_of_acknowledged hs ha hp)
  · exact fun hm _ => h.early i a ha (hearly hm).1 (hearly hm).2
  · intro hi
    rw [hn] at hi
    cases hi

/-- The commit of an actor that had installed nothing is added. -/
theorem cons (h : s.Ledger t live w.unwritten) (hs : Inv s) (ha : s.actors i = some a)
    (hp : a.progress = .reserved) (hn : (a.overlays t).installed = false) {b : Actor}
    (hearly : b.MayCommit → (b.overlays t).installed = true)
    (hheld : (b.overlays t).installed = true → (b.overlays t).logged = true ∧
      (b.overlays t).buffer = (a.overlays t).buffer) :
    ((s.putTable t table).put i b).Ledger t ((i, (a.overlays t).buffer.toList) :: live) [] := by
  have hp' : a.progress ≠ .over := by simp [hp]
  have hnot : ∀ c ∈ live, c.1 ≠ i := h.early i a ha (.inr hp) hn
  refine h.act ?_ ?_ nofun ?_ ?_ ?_ ?_ (ne_of_acknowledged hs ha hp')
  · refine List.nodup_cons.2 ⟨fun hm => ?_, h.nodup⟩
    obtain ⟨c, hc, e⟩ := List.mem_map.1 hm
    exact hnot c hc e
  · intro c hc
    rcases List.mem_cons.1 hc with rfl | hc
    · exact (hs.chronicle.running i ((hs.running i).2 ⟨a, ha, hp'⟩)).2
    · exact h.born c hc
  · intro c hc
    rcases List.mem_cons.1 hc with rfl | hc
    · exact .inr rfl
    · exact .inl hc
  · exact fun c hc _ => List.mem_cons_of_mem _ hc
  · intro hm hi
    rw [hearly hm] at hi
    cases hi
  · intro hi
    obtain ⟨hl, hb⟩ := hheld hi
    exact ⟨hl, hb ▸ List.mem_cons_self⟩

/-- What an actor installs stands from now on. -/
theorem install (h : s.Ledger t live w.unwritten) (hs : Inv s) (hw : (s.tables t).log = some w)
    (hpromises : w.Promises (live ++ old)) (ha : s.actors i = some a) (hp : a.progress = .reserved)
    (hn : (a.overlays t).installed = false)
    (hx : (a.overlays t).commit (s.tables t) = (.ok (), x, table)) :
    ∃ w' live', table.log = some w' ∧ w'.Promises (live' ++ old) ∧
      ((s.putTable t table).put i (a.put t x)).Ledger t live' w'.unwritten ∧
      ((a.overlays t).buffer.toList = [] ∧ w' = w ∧ live' = live ∨
        w.append (.commit i (a.overlays t).buffer.toList) = (.ok (), w') ∧
          live' = (i, (a.overlays t).buffer.toList) :: live) := by
  have hp' : a.progress ≠ .over := by simp [hp]
  have hput : (a.put t x).overlays t = x := Function.update_self ..
  by_cases hb : (a.overlays t).buffer.toList = []
  · obtain ⟨hi, hlog⟩ := Overlay.log_of_commit_empty hb hx
    refine ⟨w, live, hlog.trans hw, hpromises, ?_, .inl ⟨hb, rfl, rfl⟩⟩
    refine h.stay hs ha hp' (fun _ => ⟨.inr hp, hn⟩) ?_ fun _ => id
    rw [hput, hi]
  · obtain ⟨tx, w', htx, hl, hi, hlog, happ⟩ := Overlay.log_of_commit_ok hw hb hx
    obtain ⟨tx', logged, log, -, rfl, -⟩ := Overlay.of_commit_ok hx
    have hid : tx.id = i := (hs.fits i a ha hp').id_of_overlay htx
    rw [hid] at happ
    obtain ⟨hpromises', hwait⟩ := hpromises.append_ok happ
    refine ⟨w', _, hlog, hpromises', ?_, .inr ⟨happ, rfl⟩⟩
    rw [hwait]
    refine h.cons hs ha hp hn (fun _ => ?_) fun _ => ?_
    · rw [hput]
      exact hi
    · rw [hput]
      exact ⟨hl, rfl⟩

/-- When an actor fails to install, its frame may stand nevertheless, and a rollback's frame may be
there once more than its rollback. -/
theorem failInstall (h : s.Ledger t live w.unwritten) (hs : Inv s) (hw : (s.tables t).log = some w)
    (hpromises : w.Promises (live ++ old)) (ha : s.actors i = some a) (hp : a.progress = .reserved)
    (hn : (a.overlays t).installed = false) {err : Error}
    (hx : (a.overlays t).commit (s.tables t) = (.error err, x, table)) :
    ∃ w' live' left, table.log = some w' ∧ w'.Promises (live' ++ left) ∧ left.Sublist old ∧
      old.length ≤ left.length + ((Event.failInstall i t).leavesRollback s t).toNat ∧
      ((s.putTable t table).put i { a.put t x with progress := .failing }).Ledger t live'
        w'.unwritten ∧
      (w' = w ∨ w' = (w.append (.commit i (a.overlays t).buffer.toList)).2) ∧
      (live' = live ∨ w.LeavesStray (.commit i (a.overlays t).buffer.toList) ∧
        live' = (i, (a.overlays t).buffer.toList) :: live) := by
  have hp' : a.progress ≠ .over := by simp [hp]
  obtain ⟨rfl, log, htable⟩ := Overlay.of_commit_error hx
  have e : a.put t (a.overlays t) = a := by rw [Actor.put, Function.update_eq_self]
  rw [e]
  have hearly : ¬Actor.MayCommit { a with progress := .failing } := by
    rintro (e | e) <;> cases e
  rcases (hs.fits i a ha hp').attached t with ⟨htx, -⟩ | ⟨htx, hb, -⟩
  · obtain ⟨hne, w', hlog, happ⟩ := Overlay.log_of_commit_error hw htx hx
    rw [(hs.fits i a ha hp').id] at happ
    have hw' : w' = (w.append (.commit i (a.overlays t).buffer.toList)).2 := by rw [happ]
    rcases hpromises.append_error happ with
      ⟨hstray, hpromises', hwait⟩ | ⟨cs', hpromises', hleaves⟩
    · refine ⟨w', _, old, hlog, hpromises', .refl _, Nat.le_add_right _ _, ?_, .inr hw',
        .inr ⟨hstray, rfl⟩⟩
      rw [hwait]
      refine h.cons hs ha hp hn (fun hm => absurd hm hearly) fun hi => ?_
      exact absurd (hn.symm.trans hi) (by decide)
    · obtain ⟨left, rfl, hleft, hlen⟩ := hleaves.of_apart h.apart
      refine ⟨w', live, left, hlog, hpromises', hleft, ?_, ?_, .inr hw', .inl rfl⟩
      · have hevent : (Event.failInstall i t).leavesRollback s t =
            LogWriter.leavesRollback w.journal w.unwritten := by
          have he : (s.wrote i t).isEmpty = false := by
            simpa [wrote_of_some ha] using hne
          simp [Event.leavesRollback, he, hw]
        rwa [hevent]
      · refine h.stay hs ha hp' (fun hm => absurd hm hearly) hn fun j hj => ?_
        rw [hw'] at hj
        exact (w.unwritten_append_suffix _).subset hj
  · have htable : table = s.tables t := by
      simp only [Overlay.commit, Overlay.active, htx, Prod.mk.injEq] at hx
      exact hx.2.2.symm
    refine ⟨w, live, old, htable ▸ hw, hpromises, .refl _, Nat.le_add_right _ _, ?_, .inl rfl,
      .inl rfl⟩
    exact h.stay hs ha hp' (fun hm => absurd hm hearly) hn fun _ => id

/-- What an actor had installed stands no more when it is rolled back. -/
theorem rollback (h : s.Ledger t live w.unwritten) (hs : Inv s) (hw : (s.tables t).log = some w)
    (hpromises : w.Promises (live ++ old)) (ha : s.actors i = some a) (hp : a.progress = .failing)
    (hx : (a.overlays t).rollback (s.tables t) = (x, table)) :
    ∃ w' live' left, table.log = some w' ∧ w'.Promises (live' ++ left) ∧ left.Sublist old ∧
      old.length ≤ left.length + ((Event.rollback i t).leavesRollback s t).toNat ∧
      ((s.putTable t table).put i (a.put t x)).Ledger t live' w'.unwritten ∧
      ((a.overlays t).installed = false ∧ w' = w ∧ live' = live ∨
        (a.overlays t).installed = true ∧ w' = w.rollback i ∧ live' = live.filter (·.1 ≠ i)) := by
  have hp' : a.progress ≠ .over := by simp [hp]
  have hover : ¬(a.put t x).MayCommit := by
    rintro (e | e) <;> simp [Actor.put, hp] at e
  by_cases hi : (a.overlays t).installed = true
  · obtain ⟨hl, hm⟩ := h.held i a ha hp' hi
    rcases (hs.fits i a ha hp').attached t with ⟨htx, -⟩ | ⟨-, -, hn⟩
    · rw [Overlay.rollback_of_installed htx hi, hl, (hs.fits i a ha hp').id] at hx
      cases hx
      obtain ⟨cs', hpromises', hleaves⟩ := hpromises.rollback i
      have hsuffix := LogWriter.unwritten_writeRollbacks_suffix w.journal (w.unwritten ++ [i])
      rw [eraseP_append_of_mem h.nodup hm] at hleaves
      have hapart : ∀ j ∈ w.unwritten ++ [i], ∀ c ∈ live.filter (·.1 ≠ i), c.1 ≠ j := by
        intro j hj c hc
        obtain ⟨hc, hne⟩ := List.mem_filter.1 hc
        rcases List.mem_append.1 hj with hj | hj
        · exact h.apart j hj c hc
        · rw [List.mem_singleton.1 hj]
          simpa using hne
      obtain ⟨left, rfl, hleft, hlen⟩ := hleaves.of_apart hapart
      refine ⟨_, _, left, Table.log_revert hw, hpromises', hleft, ?_, ?_, .inr ⟨hi, rfl, rfl⟩⟩
      · have hevent : (Event.rollback i t).leavesRollback s t =
            LogWriter.leavesRollback w.journal (w.unwritten ++ [i]) := by
          simp [Event.leavesRollback, ha, hw, hi]
        rwa [hevent]
      · refine h.act (h.nodup.sublist (List.filter_sublist.map _))
          (fun c hc => h.born c (List.mem_filter.1 hc).1)
          (fun j hj => hapart j (hsuffix.subset hj)) (fun c hc => .inl (List.mem_filter.1 hc).1)
          (fun c hc hne => List.mem_filter.2 ⟨hc, by simpa using hne⟩)
          (fun hm => absurd hm hover) (fun hi' => ?_) (ne_of_acknowledged hs ha hp')
        simp [Actor.put, Overlay.release, Overlay.ofTable] at hi'
    · rw [hi] at hn
      cases hn
  · have hi : (a.overlays t).installed = false := by simpa using hi
    rw [Overlay.rollback_of_not_installed hi] at hx
    cases hx
    refine ⟨w, live, old, hw, hpromises, .refl _, Nat.le_add_right _ _, ?_, .inl ⟨hi, rfl, rfl⟩⟩
    refine h.stay hs ha hp' (fun hm => absurd hm hover) ?_ fun _ => id
    simp [Actor.put, Overlay.release, Overlay.ofTable]

end Ledger

/-! ## Runs -/

/-- What holds of a table with a journal after every run.  The commits `before` stood in the log
when it was opened. -/
def Recorded (s : Scene) (tr : Trace) (t : TableId) (before : List (TxId × List RowWrite)) : Prop :=
  ∃ w live old, (s.tables t).log = some w ∧ w.Promises (live ++ old) ∧ old.Sublist before ∧
    before.length ≤ old.length + tr.rollbacksLeft t ∧ s.Ledger t live w.unwritten

theorem Trace.rollbacksLeft_cons (tr : Trace) (s : Scene) (e : Event) (t : TableId) :
    Trace.rollbacksLeft ((s, e) :: tr) t = tr.rollbacksLeft t + (e.leavesRollback s t).toNat := by
  rw [Trace.rollbacksLeft, List.countP_cons]
  cases e.leavesRollback s t <;> simp [rollbacksLeft]

variable {before : List (TxId × List RowWrite)}

theorem Recorded.step (h : s.Recorded tr t before) (hs : Inv s) (hd : Step s e d) :
    d.Recorded ((s, e) :: tr) t before := by
  obtain ⟨w, live, old, hw, hpromises, hold, hlen, hledger⟩ := h
  by_cases hq : ∃ i, e.ActsAt i t
  · rw [Recorded, Trace.rollbacksLeft_cons]
    obtain ⟨i, rfl | rfl | rfl⟩ := hq
    · cases hd with
      | install ha hp hn hx =>
        obtain ⟨w', live', hw', hpromises', hledger', -⟩ :=
          hledger.install hs hw hpromises ha hp hn hx
        exact ⟨w', live', old, by simpa using hw', hpromises', hold, by omega, hledger'⟩
    · cases hd with
      | failInstall ha hp hn hx =>
        obtain ⟨w', live', left, hw', hpromises', hleft, hlen', hledger', -⟩ :=
          hledger.failInstall hs hw hpromises ha hp hn hx
        exact ⟨w', live', left, by simpa using hw', hpromises', hleft.trans hold, by omega,
          hledger'⟩
    · cases hd with
      | rollback ha hp hx =>
        obtain ⟨w', live', left, hw', hpromises', hleft, hlen', hledger', -⟩ :=
          hledger.rollback hs hw hpromises ha hp hx
        exact ⟨w', live', left, by simpa using hw', hpromises', hleft.trans hold, by omega,
          hledger'⟩
  · have hq : ∀ i, ¬e.ActsAt i t := fun i hi => hq ⟨i, hi⟩
    refine ⟨w, live, old, (hs.follows hd hq).log.trans hw, hpromises, hold, ?_,
      hledger.follow hs hd hq⟩
    rw [Trace.rollbacksLeft_cons]
    omega

theorem ledger_opened {names : TableId → String} {base : TableId → Std.ExtTreeMap Bytes Bytes}
    {logs : TableId → Option LogWriter} : (opened names base logs).Ledger t [] [] := by
  constructor <;> simp [opened, acknowledged, Chronicle.new]

/-- What committed transactions wrote stands after every run, and so does what stood before but for
as many commits as rollbacks' frames were written with the flush after them failing. -/
theorem recorded_of_run {names : TableId → String} {base : TableId → Std.ExtTreeMap Bytes Bytes}
    {logs : TableId → Option LogWriter} {w : LogWriter} {es : List Entry} (hw : logs t = some w)
    (hwait : w.unwritten = []) (hes : w.journal.Holds es) (h : Run (opened names base logs) tr s) :
    s.Recorded tr t (standing es) := by
  induction h with
  | refl =>
    refine ⟨w, [], standing es, hw, ⟨es, hes, ?_⟩, .refl _, Nat.le_add_right _ _, ?_⟩
    · rw [hwait, List.map_nil, List.append_nil, List.nil_append]
    · rw [hwait]
      exact ledger_opened
  | tail h hd ih => exact ih.step (inv_of_steps h.steps) hd

end Scene

end NamespaceCatalog
