import NamespaceCatalog.Proofs.Journals
import NamespaceCatalog.Proofs.Snapshot

/-!
# What is there after reopening

A table that is closed when no rollback waits, and opened again from the same bytes, has the rows
that the commits in its log leave.  Which commits these are follows from the run that led there
(`Trace`): those that were installed and not rolled back, and those whose frame was written before
the flush after it failed (`Trace.Stray`).  The latter were never installed, so no rollback undoes
them.

`Archive` says this of one table at any moment, and `Archived` of a scene.  `reopened_rows` is the
main result.
-/

namespace NamespaceCatalog

/-! ## Tables with journals -/

namespace Table

variable {t t' : Table} {w : LogWriter} {tx : TxId} {writes : List RowWrite}

theorem log_of_install_ok {logged : Bool} (hl : t.log = some w) (hw : writes ≠ [])
    (h : t.install tx writes = (.ok logged, t')) :
    logged = true ∧ ∃ w', t'.log = some w' ∧ w.append (.commit tx writes) = (.ok (), w') := by
  have he : writes.isEmpty = false := by simpa using hw
  unfold install at h
  rw [he, hl] at h
  cases ha : w.append (.commit tx writes) with
  | mk r w' =>
    cases r with
    | error e => simp [ha] at h
    | ok _ =>
      simp only [Bool.false_eq_true, if_false, ha, Prod.mk.injEq, Except.ok.injEq] at h
      obtain ⟨rfl, rfl⟩ := h
      exact ⟨rfl, w', rfl, rfl⟩

theorem log_of_install_error {e : Error} (hl : t.log = some w)
    (h : t.install tx writes = (.error e, t')) :
    writes ≠ [] ∧ ∃ w', t'.log = some w' ∧ w.append (.commit tx writes) = (.error e, w') := by
  unfold install at h
  split at h
  · cases h
  · next he =>
    refine ⟨by simpa using he, ?_⟩
    rw [hl] at h
    cases ha : w.append (.commit tx writes) with
    | mk r w' =>
      cases r with
      | ok _ => simp [ha] at h
      | error e' =>
        simp only [ha, Prod.mk.injEq, Except.error.injEq] at h
        obtain ⟨rfl, rfl⟩ := h
        exact ⟨w', rfl, rfl⟩

theorem log_revert (hl : t.log = some w) : (t.revert tx true).log = some (w.rollback tx) := by
  simp [revert, withdraw, hl]

end Table

namespace Overlay

variable {x y : Overlay} {t t' : Table} {w : LogWriter}

theorem log_of_commit_ok (hl : t.log = some w) (hb : x.buffer.toList ≠ [])
    (h : x.commit t = (.ok (), y, t')) :
    ∃ tx w', x.tx = some tx ∧ y.logged = true ∧ y.installed = true ∧ t'.log = some w' ∧
      w.append (.commit tx.id x.buffer.toList) = (.ok (), w') := by
  have he : x.buffer.isEmpty = false := by
    rw [← Std.ExtTreeMap.isEmpty_toList]
    simpa using hb
  unfold commit active at h
  cases hx : x.tx with
  | none => simp [hx] at h
  | some tx =>
    rw [hx] at h
    cases hi : t.install tx.id x.buffer.toList with
    | mk r t'' =>
      cases r with
      | error e => simp [hi] at h
      | ok logged =>
        obtain ⟨rfl, w', hl', hw⟩ := Table.log_of_install_ok hl hb hi
        simp only [hi, Prod.mk.injEq, true_and, he, Bool.not_false] at h
        obtain ⟨rfl, rfl⟩ := h
        exact ⟨tx, w', rfl, rfl, rfl, hl', hw⟩

/-- A commit of nothing leaves no trace. -/
theorem log_of_commit_empty (hb : x.buffer.toList = []) (h : x.commit t = (.ok (), y, t')) :
    y.installed = false ∧ t'.log = t.log := by
  have he : x.buffer.isEmpty = true := by
    rw [← Std.ExtTreeMap.isEmpty_toList, hb]
    rfl
  unfold commit active at h
  cases hx : x.tx with
  | none => simp [hx] at h
  | some tx =>
    simp only [hx, hb, Table.install, List.isEmpty_nil, if_true, he, Bool.not_true,
      Prod.mk.injEq, true_and] at h
    obtain ⟨rfl, rfl⟩ := h
    exact ⟨rfl, rfl⟩

theorem log_of_commit_error {tx : Transaction} {e : Error} (hl : t.log = some w)
    (hx : x.tx = some tx) (h : x.commit t = (.error e, y, t')) :
    x.buffer.toList ≠ [] ∧ ∃ w', t'.log = some w' ∧
      w.append (.commit tx.id x.buffer.toList) = (.error e, w') := by
  unfold commit active at h
  rw [hx] at h
  cases hi : t.install tx.id x.buffer.toList with
  | mk r t'' =>
    cases r with
    | ok logged => simp [hi] at h
    | error e' =>
      simp only [hi, Prod.mk.injEq, Except.error.injEq] at h
      obtain ⟨rfl, -, rfl⟩ := h
      exact Table.log_of_install_error hl hi

end Overlay

/-! ## Archives -/

/-- What of the commits since a table was opened stands in its log, the latest first, and which
rollbacks wait.  The predicates say what was done at the table. -/
structure Archive (installed stray : TxId → List RowWrite → Prop) (undone : TxId → Prop)
    (kept : List (TxId × List RowWrite)) (waiting : List TxId) : Prop where
  nodup : (kept.map (·.1)).Nodup
  of_mem : ∀ i ws, (i, ws) ∈ kept → installed i ws ∨ stray i ws
  mem_of_stray : ∀ i ws, stray i ws → (i, ws) ∈ kept
  mem_of_installed : ∀ i ws, installed i ws → ¬undone i → (i, ws) ∈ kept
  mem_waiting : ∀ i ws, installed i ws → undone i → i ∈ waiting ∨ ∀ vs, (i, vs) ∉ kept
  of_mem_waiting : ∀ i ∈ waiting, undone i ∧ ∃ ws, installed i ws
  apart : ∀ i ws vs, installed i ws → ¬stray i vs

namespace Archive

variable {installed stray : TxId → List RowWrite → Prop} {undone : TxId → Prop}
  {kept : List (TxId × List RowWrite)} {waiting : List TxId} {i : TxId} {ws : List RowWrite}

/-- When no rollback waits, the commits that stand are known. -/
theorem mem_iff (h : Archive installed stray undone kept []) (i : TxId) (ws : List RowWrite) :
    (i, ws) ∈ kept ↔ stray i ws ∨ installed i ws ∧ ¬undone i := by
  constructor
  · intro hk
    rcases h.of_mem i ws hk with hi | hs
    · refine .inr ⟨hi, fun hu => ?_⟩
      rcases h.mem_waiting i ws hi hu with hw | hn
      · cases hw
      · exact hn ws hk
    · exact .inl hs
  · rintro (hs | ⟨hi, hu⟩)
    · exact h.mem_of_stray i ws hs
    · exact h.mem_of_installed i ws hi hu

/-- Rollbacks that waited are written. -/
theorem drain (h : Archive installed stray undone kept waiting) {n m : Nat} (hnm : n ≤ m) :
    Archive installed stray undone (kept.filter (·.1 ∉ waiting.take m)) (waiting.drop n) where
  nodup := h.nodup.sublist (List.filter_sublist.map _)
  of_mem i ws hk := h.of_mem i ws (List.mem_filter.1 hk).1
  mem_of_stray i ws hs := by
    refine List.mem_filter.2 ⟨h.mem_of_stray i ws hs, decide_eq_true fun hw => ?_⟩
    obtain ⟨-, vs, hi⟩ := h.of_mem_waiting i (List.mem_of_mem_take hw)
    exact h.apart i vs ws hi hs
  mem_of_installed i ws hi hu := by
    refine List.mem_filter.2 ⟨h.mem_of_installed i ws hi hu, decide_eq_true fun hw => ?_⟩
    exact hu (h.of_mem_waiting i (List.mem_of_mem_take hw)).1
  mem_waiting i ws hi hu := by
    rcases h.mem_waiting i ws hi hu with hw | hn
    · rw [← List.take_append_drop n waiting, List.mem_append] at hw
      rcases hw with hw | hw
      · refine .inr fun vs hk => ?_
        have ht : i ∈ waiting.take m := (List.take_sublist_take_left hnm).subset hw
        exact of_decide_eq_true (List.mem_filter.1 hk).2 ht
      · exact .inl hw
    · exact .inr fun vs hk => hn vs (List.mem_filter.1 hk).1
  of_mem_waiting i hw := h.of_mem_waiting i (List.mem_of_mem_drop hw)
  apart := h.apart

theorem drain_all (h : Archive installed stray undone kept waiting) :
    Archive installed stray undone (kept.filter (·.1 ∉ waiting)) [] := by
  have hd := h.drain (Nat.le_refl waiting.length)
  rwa [List.take_length, List.drop_length] at hd

theorem congr {installed' stray' : TxId → List RowWrite → Prop} {undone' : TxId → Prop}
    (h : Archive installed stray undone kept waiting)
    (hi : ∀ i ws, installed' i ws ↔ installed i ws) (hs : ∀ i ws, stray' i ws ↔ stray i ws)
    (hu : ∀ i, undone' i ↔ undone i) : Archive installed' stray' undone' kept waiting := by
  obtain rfl : installed' = installed := funext fun i => funext fun ws => propext (hi i ws)
  obtain rfl : stray' = stray := funext fun i => funext fun ws => propext (hs i ws)
  obtain rfl : undone' = undone := funext fun i => propext (hu i)
  exact h

theorem not_mem_kept (h : Archive installed stray undone kept waiting)
    (hi : ∀ ws, ¬installed i ws ∧ ¬stray i ws) : ∀ ws, (i, ws) ∉ kept := by
  intro ws hk
  rcases h.of_mem i ws hk with h' | h'
  · exact (hi ws).1 h'
  · exact (hi ws).2 h'

theorem nodup_cons (h : Archive installed stray undone kept waiting)
    (hi : ∀ ws, ¬installed i ws ∧ ¬stray i ws) (ws : List RowWrite) :
    (((i, ws) :: kept).map (·.1)).Nodup := by
  refine List.nodup_cons.2 ⟨fun hk => ?_, h.nodup⟩
  obtain ⟨⟨j, vs⟩, hmem, rfl⟩ := List.mem_map.1 hk
  exact h.not_mem_kept hi vs hmem

/-- A commit is written and installed. -/
theorem install (h : Archive installed stray undone kept waiting)
    (hi : ∀ ws, ¬installed i ws ∧ ¬stray i ws) (hu : ¬undone i) (ws : List RowWrite) :
    Archive (fun j vs => j = i ∧ vs = ws ∨ installed j vs) stray undone ((i, ws) :: kept)
      waiting where
  nodup := h.nodup_cons hi ws
  of_mem j vs hk := by
    rcases List.mem_cons.1 hk with e | hk
    · cases e
      exact .inl (.inl ⟨rfl, rfl⟩)
    · exact (h.of_mem j vs hk).imp_left .inr
  mem_of_stray j vs hs := List.mem_cons_of_mem _ (h.mem_of_stray j vs hs)
  mem_of_installed j vs hj hu' := by
    rcases hj with ⟨rfl, rfl⟩ | hj
    · exact List.mem_cons_self
    · exact List.mem_cons_of_mem _ (h.mem_of_installed j vs hj hu')
  mem_waiting j vs hj hu' := by
    have hne : j ≠ i := by
      rintro rfl
      exact hu hu'
    rcases hj with ⟨rfl, -⟩ | hj
    · exact absurd rfl hne
    · refine (h.mem_waiting j vs hj hu').imp_right fun hn us hk => ?_
      rcases List.mem_cons.1 hk with e | hk
      · cases e
        exact hne rfl
      · exact hn us hk
  of_mem_waiting j hj := (h.of_mem_waiting j hj).imp_right fun ⟨vs, hvs⟩ => ⟨vs, .inr hvs⟩
  apart j vs us hj hs := by
    rcases hj with ⟨rfl, -⟩ | hj
    · exact (hi us).2 hs
    · exact h.apart j vs us hj hs

/-- A commit is written, but not installed. -/
theorem leaveStray (h : Archive installed stray undone kept waiting)
    (hi : ∀ ws, ¬installed i ws ∧ ¬stray i ws) (ws : List RowWrite) :
    Archive installed (fun j vs => j = i ∧ vs = ws ∨ stray j vs) undone ((i, ws) :: kept)
      waiting where
  nodup := h.nodup_cons hi ws
  of_mem j vs hk := by
    rcases List.mem_cons.1 hk with e | hk
    · cases e
      exact .inr (.inl ⟨rfl, rfl⟩)
    · exact (h.of_mem j vs hk).imp_right .inr
  mem_of_stray j vs hs := by
    rcases hs with ⟨rfl, rfl⟩ | hs
    · exact List.mem_cons_self
    · exact List.mem_cons_of_mem _ (h.mem_of_stray j vs hs)
  mem_of_installed j vs hj hu := List.mem_cons_of_mem _ (h.mem_of_installed j vs hj hu)
  mem_waiting j vs hj hu := by
    refine (h.mem_waiting j vs hj hu).imp_right fun hn us hk => ?_
    rcases List.mem_cons.1 hk with e | hk
    · cases e
      exact (hi vs).1 hj
    · exact hn us hk
  of_mem_waiting := h.of_mem_waiting
  apart j vs us hj hs := by
    rcases hs with ⟨rfl, -⟩ | hs
    · exact (hi vs).1 hj
    · exact h.apart j vs us hj hs

/-- What was installed is undone, and the rollback waits. -/
theorem rollback (h : Archive installed stray undone kept waiting) (hi : installed i ws) :
    Archive installed stray (fun j => j = i ∨ undone j) kept (waiting ++ [i]) where
  nodup := h.nodup
  of_mem := h.of_mem
  mem_of_stray := h.mem_of_stray
  mem_of_installed j vs hj hu := h.mem_of_installed j vs hj fun hu' => hu (.inr hu')
  mem_waiting j vs hj hu := by
    rcases hu with rfl | hu
    · exact .inl (List.mem_append_right _ List.mem_cons_self)
    · exact (h.mem_waiting j vs hj hu).imp_left (List.mem_append_left _)
  of_mem_waiting j hj := by
    rcases List.mem_append.1 hj with hj | hj
    · exact (h.of_mem_waiting j hj).imp_left .inr
    · obtain rfl := List.mem_singleton.1 hj
      exact ⟨.inl rfl, ws, hi⟩
  apart := h.apart

/-- A transaction that installed nothing, or is undone already, is rolled back. -/
theorem rollback_of_undone (h : Archive installed stray undone kept waiting)
    (hi : ∀ ws, installed i ws → undone i) :
    Archive installed stray (fun j => j = i ∨ undone j) kept waiting where
  nodup := h.nodup
  of_mem := h.of_mem
  mem_of_stray := h.mem_of_stray
  mem_of_installed j vs hj hu := h.mem_of_installed j vs hj fun hu' => hu (.inr hu')
  mem_waiting j vs hj hu := by
    refine h.mem_waiting j vs hj ?_
    rcases hu with rfl | hu
    · exact hi vs hj
    · exact hu
  of_mem_waiting j hj := (h.of_mem_waiting j hj).imp_left .inr
  apart := h.apart

end Archive

/-! ## What a run did -/

/-- Is `b` the actor `a` at a later time, with nothing installed or rolled back at the table since? -/
structure Actor.Follows (b a : Actor) (t : TableId) : Prop where
  mayCommit : b.MayCommit → a.MayCommit
  running : b.progress ≠ .over → a.progress ≠ .over
  lacking : b.progress ≠ .over → (b.overlays t).installed = false →
    (a.overlays t).installed = false
  held : (b.overlays t).installed = true →
    (a.overlays t).installed = true ∧ (b.overlays t).logged = (a.overlays t).logged

theorem Actor.Follows.of_overlay_eq {a b : Actor} {t : TableId}
    (hm : b.MayCommit → a.MayCommit) (hr : b.progress ≠ .over → a.progress ≠ .over)
    (hx : (b.overlays t).installed = (a.overlays t).installed ∧
      (b.overlays t).logged = (a.overlays t).logged) : b.Follows a t where
  mayCommit := hm
  running := hr
  lacking _ h := hx.1 ▸ h
  held h := ⟨hx.1 ▸ h, hx.2⟩

theorem Actor.Follows.of_not_installed {a b : Actor} {t : TableId}
    (hm : b.MayCommit → a.MayCommit) (hr : b.progress ≠ .over → a.progress ≠ .over)
    (hb : (b.overlays t).installed = false)
    (ha : b.progress ≠ .over → (a.overlays t).installed = false) : b.Follows a t where
  mayCommit := hm
  running := hr
  lacking h _ := ha h
  held h := by simp [hb] at h

/-- Another table's overlay is of no concern. -/
theorem Actor.Follows.of_put_of_ne {a b : Actor} {t u : TableId} {x : Overlay} (hne : t ≠ u)
    (hb : b.overlays = (a.put u x).overlays) (hm : b.MayCommit → a.MayCommit)
    (hr : b.progress ≠ .over → a.progress ≠ .over) : b.Follows a t := by
  have hx : b.overlays t = a.overlays t := by
    rw [hb]
    exact Function.update_of_ne hne ..
  exact .of_overlay_eq hm hr ⟨by rw [hx], by rw [hx]⟩

namespace Scene

/-- The rows that an actor has written to a table. -/
def wrote (s : Scene) (i : TxId) (t : TableId) : List RowWrite :=
  (s.actors i).elim [] fun a => (a.overlays t).buffer.toList

theorem wrote_of_some {s : Scene} {i : TxId} {a : Actor} (ha : s.actors i = some a) (t : TableId) :
    s.wrote i t = (a.overlays t).buffer.toList := by
  rw [wrote, ha]
  rfl

/-- Does the actor install or roll back at the table? -/
def Event.ActsAt (e : Event) (i : TxId) (t : TableId) : Prop :=
  e = .install i t ∨ e = .failInstall i t ∨ e = .rollback i t

theorem Event.ActsAt.unique {e : Event} {i j : TxId} {t : TableId} (h : e.ActsAt i t)
    (h' : e.ActsAt j t) : j = i := by
  rcases h with rfl | rfl | rfl <;> rcases h' with h' | h' | h' <;> cases h' <;> rfl

namespace Trace

variable {tr : Trace} {s : Scene} {e : Event} {i : TxId} {t : TableId} {ws : List RowWrite}

/-- Did the transaction install the rows `ws` at the table? -/
def Installed (tr : Trace) (i : TxId) (t : TableId) (ws : List RowWrite) : Prop :=
  ws ≠ [] ∧ ∃ s, (s, .install i t) ∈ tr ∧ s.wrote i t = ws

/-- Was a frame with the rows `ws` written before the flush after it failed, so that the rows were
not installed? -/
def Stray (tr : Trace) (i : TxId) (t : TableId) (ws : List RowWrite) : Prop :=
  ws ≠ [] ∧ ∃ s w, (s, .failInstall i t) ∈ tr ∧ s.wrote i t = ws ∧ (s.tables t).log = some w ∧
    w.LeavesStray (.commit i ws)

/-- Was the transaction rolled back at the table? -/
def RolledBack (tr : Trace) (i : TxId) (t : TableId) : Prop := ∃ s, (s, .rollback i t) ∈ tr

theorem installed_cons :
    Installed ((s, e) :: tr) i t ws ↔
      (e = .install i t ∧ ws ≠ [] ∧ s.wrote i t = ws) ∨ tr.Installed i t ws := by
  simp only [Installed, List.mem_cons, Prod.mk.injEq]
  constructor
  · rintro ⟨hne, d, ⟨rfl, rfl⟩ | hd, hw⟩
    · exact .inl ⟨rfl, hne, hw⟩
    · exact .inr ⟨hne, d, hd, hw⟩
  · rintro (⟨rfl, hne, hw⟩ | ⟨hne, d, hd, hw⟩)
    · exact ⟨hne, s, .inl ⟨rfl, rfl⟩, hw⟩
    · exact ⟨hne, d, .inr hd, hw⟩

theorem stray_cons :
    Stray ((s, e) :: tr) i t ws ↔
      (e = .failInstall i t ∧ ws ≠ [] ∧ s.wrote i t = ws ∧
        ∃ w, (s.tables t).log = some w ∧ w.LeavesStray (.commit i ws)) ∨ tr.Stray i t ws := by
  simp only [Stray, List.mem_cons, Prod.mk.injEq]
  constructor
  · rintro ⟨hne, d, w, ⟨rfl, rfl⟩ | hd, hw, hl⟩
    · exact .inl ⟨rfl, hne, hw, w, hl⟩
    · exact .inr ⟨hne, d, w, hd, hw, hl⟩
  · rintro (⟨rfl, hne, hw, w, hl⟩ | ⟨hne, d, w, hd, hw, hl⟩)
    · exact ⟨hne, s, w, .inl ⟨rfl, rfl⟩, hw, hl⟩
    · exact ⟨hne, d, w, .inr hd, hw, hl⟩

theorem rolledBack_cons :
    RolledBack ((s, e) :: tr) i t ↔ e = .rollback i t ∨ tr.RolledBack i t := by
  simp only [RolledBack, List.mem_cons, Prod.mk.injEq]
  constructor
  · rintro ⟨d, ⟨rfl, rfl⟩ | hd⟩
    · exact .inl rfl
    · exact .inr ⟨d, hd⟩
  · rintro (rfl | ⟨d, hd⟩)
    · exact ⟨s, .inl ⟨rfl, rfl⟩⟩
    · exact ⟨d, .inr hd⟩

section Last

variable {j : TxId} {us : List RowWrite}

theorem installed_cons_of_ne (he : ∀ i, e ≠ .install i t) :
    Installed ((s, e) :: tr) j t ws ↔ tr.Installed j t ws :=
  installed_cons.trans (or_iff_right fun h => he j h.1)

theorem stray_cons_of_ne (he : ∀ i, e ≠ .failInstall i t) :
    Stray ((s, e) :: tr) j t ws ↔ tr.Stray j t ws :=
  stray_cons.trans (or_iff_right fun h => he j h.1)

theorem rolledBack_cons_of_ne (he : ∀ i, e ≠ .rollback i t) :
    RolledBack ((s, e) :: tr) j t ↔ tr.RolledBack j t :=
  rolledBack_cons.trans (or_iff_right (he j))

theorem installed_cons_install (hw : s.wrote i t = us) :
    Installed ((s, .install i t) :: tr) j t ws ↔
      (us ≠ [] ∧ j = i ∧ ws = us) ∨ tr.Installed j t ws := by
  refine installed_cons.trans (or_congr_left ⟨?_, ?_⟩)
  · rintro ⟨e, hne, rfl⟩
    cases e
    exact ⟨hw ▸ hne, rfl, hw⟩
  · rintro ⟨hne, rfl, rfl⟩
    exact ⟨rfl, hne, hw⟩

theorem stray_cons_failInstall (hw : s.wrote i t = us) :
    Stray ((s, .failInstall i t) :: tr) j t ws ↔
      ((us ≠ [] ∧ ∃ w, (s.tables t).log = some w ∧ w.LeavesStray (.commit i us)) ∧
        j = i ∧ ws = us) ∨ tr.Stray j t ws := by
  refine stray_cons.trans (or_congr_left ⟨?_, ?_⟩)
  · rintro ⟨e, hne, rfl, hleaves⟩
    cases e
    exact ⟨hw ▸ ⟨hne, hleaves⟩, rfl, hw⟩
  · rintro ⟨⟨hne, hleaves⟩, rfl, rfl⟩
    exact ⟨rfl, hne, hw, hleaves⟩

theorem rolledBack_cons_rollback :
    RolledBack ((s, .rollback i t) :: tr) j t ↔ j = i ∨ tr.RolledBack j t := by
  refine rolledBack_cons.trans (or_congr_left ⟨fun e => ?_, fun e => ?_⟩)
  · cases e
    rfl
  · rw [e]

end Last

/-- Is the transaction not installed, not stray and not rolled back at the table? -/
def Untouched (tr : Trace) (i : TxId) (t : TableId) : Prop :=
  ¬tr.RolledBack i t ∧ ∀ ws, ¬tr.Installed i t ws ∧ ¬tr.Stray i t ws

/-- Do two traces say the same of the transaction at the table? -/
def Agrees (tr' tr : Trace) (i : TxId) (t : TableId) : Prop :=
  (tr'.RolledBack i t ↔ tr.RolledBack i t) ∧
    ∀ ws, (tr'.Installed i t ws ↔ tr.Installed i t ws) ∧ (tr'.Stray i t ws ↔ tr.Stray i t ws)

theorem agrees_cons (h : ¬e.ActsAt i t) : Agrees ((s, e) :: tr) tr i t := by
  refine ⟨?_, fun ws => ⟨?_, ?_⟩⟩
  · rw [rolledBack_cons]
    exact or_iff_right fun he => h (.inr (.inr he))
  · rw [installed_cons]
    exact or_iff_right fun he => h (.inl he.1)
  · rw [stray_cons]
    exact or_iff_right fun he => h (.inr (.inl he.1))

theorem Agrees.untouched {tr' : Trace} (h : Agrees tr' tr i t) (hu : tr.Untouched i t) :
    tr'.Untouched i t := by
  refine ⟨fun hr => hu.1 (h.1.1 hr), fun ws => ⟨fun hi => ?_, fun hs => ?_⟩⟩
  · exact (hu.2 ws).1 ((h.2 ws).1.1 hi)
  · exact (hu.2 ws).2 ((h.2 ws).2.1 hs)

/-- What the trace says of an actor with the number `i`. -/
structure Tells (tr : Trace) (i : TxId) (t : TableId) (a : Actor) : Prop where
  early : a.MayCommit → (a.overlays t).installed = false → tr.Untouched i t
  undone : a.progress ≠ .over → (a.overlays t).installed = false → ∀ ws, tr.Installed i t ws →
    tr.RolledBack i t
  held : (a.overlays t).installed = true → (a.overlays t).logged = true ∧ ¬tr.RolledBack i t ∧
    ∃ ws, tr.Installed i t ws

theorem Tells.follows {tr' : Trace} {a b : Actor} (h : tr.Tells i t a) (hf : b.Follows a t)
    (ha : Agrees tr' tr i t) : tr'.Tells i t b where
  early hm hi := ha.untouched (h.early (hf.mayCommit hm) (hf.lacking hm.progress_ne hi))
  undone hr hi ws hw := ha.1.2 (h.undone (hf.running hr) (hf.lacking hr hi) ws ((ha.2 ws).1.1 hw))
  held hi := by
    obtain ⟨hi', hl⟩ := hf.held hi
    obtain ⟨hl', hr, ws, hw⟩ := h.held hi'
    exact ⟨hl.trans hl', fun hr' => hr (ha.1.1 hr'), ws, (ha.2 ws).1.2 hw⟩

theorem Untouched.tells {a : Actor} (h : tr.Untouched i t)
    (ha : (a.overlays t).installed = false) : tr.Tells i t a where
  early _ _ := h
  undone _ _ ws hw := absurd hw (h.2 ws).1
  held hi := by simp [ha] at hi

end Trace

variable {s d : Scene} {e : Event} {i : TxId} {t : TableId} {tr : Trace}

/-- Is the table's journal in `d` that in `s`, and does each actor follow one of `s` or has it just
begun? -/
structure Follows (d s : Scene) (t : TableId) : Prop where
  log : (d.tables t).log = (s.tables t).log
  actors : ∀ i b, d.actors i = some b → (∃ a, s.actors i = some a ∧ b.Follows a t) ∨
    i = s.coordinator.next ∧ (b.overlays t).installed = false

namespace Follows

variable {a b : Actor} {u : TableId} {table : Table}

theorem of_actors_eq (hlog : (d.tables t).log = (s.tables t).log) (hd : d.actors = s.actors) :
    d.Follows s t where
  log := hlog
  actors _ b hb := .inl ⟨b, hd ▸ hb, .of_overlay_eq id id ⟨rfl, rfl⟩⟩

/-- One actor takes a step. -/
theorem put (h : d.Follows s t) (ha : s.actors i = some a) (hb : b.Follows a t) :
    (d.put i b).Follows s t where
  log := h.log
  actors j c hc := by
    rcases actors_put_cases hc with ⟨rfl, rfl⟩ | ⟨-, hc⟩
    · exact .inl ⟨a, ha, hb⟩
    · exact h.actors j c hc

theorem with_written {written : TxId → TableId → List RowWrite} (h : d.Follows s t) :
    { d with written }.Follows s t :=
  ⟨h.log, h.actors⟩

theorem putTable (hlog : t = u → table.log = (s.tables t).log) :
    (s.putTable u table).Follows s t := by
  refine of_actors_eq ?_ rfl
  show (Function.update s.tables u table t).log = _
  by_cases e : t = u
  · subst e
    rw [Function.update_self]
    exact hlog rfl
  · rw [Function.update_of_ne e]

end Follows

/-- An event that concerns the table in no way leaves its journal as it is, and its actors come from
such as were there or have just begun. -/
theorem Inv.follows (h : Inv s) (hd : Step s e d) (hq : ∀ i, ¬e.ActsAt i t) : d.Follows s t := by
  have same : s.Follows s t := .of_actors_eq rfl rfl
  have asked : ∀ {r}, (s.ask r).Follows s t := .of_actors_eq rfl rfl
  cases hd with
  | begin =>
    refine ⟨rfl, fun i b hb => ?_⟩
    rcases actors_put_cases hb with ⟨rfl, rfl⟩ | ⟨-, hb⟩
    · exact .inr ⟨rfl, rfl⟩
    · exact same.actors i b hb
  | @start j a u x ha hp hx =>
    obtain ⟨-, rfl⟩ := Overlay.of_start_ok hx
    refine same.put ha ?_
    by_cases e : t = u
    · subst e
      refine .of_not_installed id id ?_ fun _ => (h.fits j a ha (by simp [hp])).working hp t
      simp [Actor.put, Overlay.ofTable]
    · exact .of_put_of_ne e rfl id id
  | @perform j a u op answer x ha hp hx =>
    obtain ⟨hx, -⟩ := Overlay.of_perform_ok hx
    refine same.put ha ?_
    by_cases e : t = u
    · subst e
      refine .of_overlay_eq id id ?_
      rw [hx]
      simp [Actor.put]
    · exact .of_put_of_ne e rfl id id
  | reserve ha hp hr =>
    exact asked.put ha (.of_overlay_eq (fun _ => .inl hp) (fun _ => by simp [hp]) ⟨rfl, rfl⟩)
  | refuse ha hp hr =>
    exact asked.put ha (.of_overlay_eq (fun _ => .inl hp) (fun _ => by simp [hp]) ⟨rfl, rfl⟩)
  | @install j a u x table ha hp hn hx =>
    have hne : t ≠ u := by
      rintro rfl
      exact hq j (.inl rfl)
    exact (Follows.putTable (absurd · hne)).put ha (.of_put_of_ne hne rfl id id)
  | @failInstall j a u err x table ha hp hn hx =>
    have hne : t ≠ u := by
      rintro rfl
      exact hq j (.inr (.inl rfl))
    refine (Follows.putTable (absurd · hne)).put ha
      (.of_put_of_ne hne rfl (fun _ => .inr hp) fun _ => by simp [hp])
  | commit ha hp hall hc =>
    refine .with_written (asked.put ha (.of_overlay_eq ?_ (fun h => absurd rfl h) ⟨rfl, rfl⟩))
    exact fun _ => .inr hp
  | @post j a u ha hp =>
    refine same.put ha ?_
    by_cases e : t = u
    · subst e
      refine .of_not_installed id id ?_ fun h => absurd hp h
      simp [Actor.put, Overlay.release, Overlay.ofTable]
    · exact .of_put_of_ne e rfl id id
  | fail ha hp =>
    refine same.put ha (.of_overlay_eq (fun _ => hp) (fun _ => ?_) ⟨rfl, rfl⟩)
    rcases hp with hp | hp <;> simp [hp]
  | @rollback j a u x table ha hp hx =>
    have hne : t ≠ u := by
      rintro rfl
      exact hq j (.inr (.inr rfl))
    exact (Follows.putTable (absurd · hne)).put ha (.of_put_of_ne hne rfl id id)
  | abort ha hp hall hc =>
    refine asked.put ha (.of_overlay_eq ?_ (fun h => absurd rfl h) ⟨rfl, rfl⟩)
    rintro (h | h) <;> cases h
  | invalidate ha hp =>
    refine asked.put ha (.of_overlay_eq ?_ (fun h => absurd rfl h) ⟨rfl, rfl⟩)
    rintro (h | h) <;> cases h
  | takeHorizon => exact .of_actors_eq rfl rfl
  | prune hg u => exact .putTable fun e => by rw [Table.log_prune, e]
  | forget hids => exact .of_actors_eq rfl rfl

/-! ## The invariant -/

/-- What the trace says of a table's journal. -/
def Trace.Archive (tr : Trace) (t : TableId) (kept : List (TxId × List RowWrite))
    (waiting : List TxId) : Prop :=
  NamespaceCatalog.Archive (tr.Installed · t ·) (tr.Stray · t ·) (tr.RolledBack · t) kept waiting

/-- What holds of a table with a journal after every run.  The commits `before` stood in the log when
it was opened. -/
structure Archived (s : Scene) (tr : Trace) (t : TableId)
    (before : List (TxId × List RowWrite)) : Prop where
  unborn : ∀ i : Nat, s.coordinator.next ≤ i → tr.Untouched i t
  actors : ∀ i a, s.actors i = some a → tr.Tells i t a
  log : ∃ w es kept old, (s.tables t).log = some w ∧ w.journal.Holds es ∧
    standing es = kept ++ old ∧ old.Sublist before ∧ tr.Archive t kept w.unwritten

namespace Archived

variable {before : List (TxId × List RowWrite)}

theorem follow (h : s.Archived tr t before) (hs : Inv s) (hd : Step s e d)
    (hq : ∀ i, ¬e.ActsAt i t) : d.Archived ((s, e) :: tr) t before := by
  have hagree : ∀ i, Trace.Agrees ((s, e) :: tr) tr i t := fun i => Trace.agrees_cons (hq i)
  obtain ⟨hlog, hactors⟩ := hs.follows hd hq
  obtain ⟨w, es, kept, old, hw, hes, hst, hold, harch⟩ := h.log
  refine ⟨fun i hi => ?_, fun i b hb => ?_, w, es, kept, old, hlog.trans hw, hes, hst, hold, ?_⟩
  · have hnext := (hs.advances hd).1.next_le
    exact (hagree i).untouched (h.unborn i (Nat.le_trans hnext hi))
  · rcases hactors i b hb with ⟨a, ha, hf⟩ | ⟨rfl, hi⟩
    · exact (h.actors i a ha).follows hf (hagree i)
    · exact ((hagree _).untouched (h.unborn _ (Nat.le_refl _))).tells hi
  · exact harch.congr (fun i ws => ((hagree i).2 ws).1) (fun i ws => ((hagree i).2 ws).2)
      fun i => (hagree i).1

/-- An actor installs or rolls back at the table. -/
theorem act (h : s.Archived tr t before) (hs : Inv s) {a b : Actor} {table : Table} {w : LogWriter}
    {es : List Entry} {kept old : List (TxId × List RowWrite)} (ha : s.actors i = some a)
    (hp : a.progress ≠ .over) (he : e.ActsAt i t)
    (hb : Trace.Tells ((s, e) :: tr) i t b) (hw : table.log = some w) (hes : w.journal.Holds es)
    (hst : standing es = kept ++ old) (hold : old.Sublist before)
    (harch : Trace.Archive ((s, e) :: tr) t kept w.unwritten) :
    ((s.putTable t table).put i b).Archived ((s, e) :: tr) t before := by
  have hagree : ∀ j ≠ i, Trace.Agrees ((s, e) :: tr) tr j t := fun j hj =>
    Trace.agrees_cons fun he' => hj (he.unique he')
  have hi : (i : Nat) < s.coordinator.next :=
    (hs.chronicle.running i ((hs.running i).2 ⟨a, ha, hp⟩)).2
  refine ⟨fun j hj => ?_, fun j c hc => ?_, w, es, kept, old, ?_, hes, hst, hold, harch⟩
  · have hne : j ≠ i := by
      rintro rfl
      exact absurd hi (Nat.not_lt.2 hj)
    exact (hagree j hne).untouched (h.unborn j hj)
  · rcases actors_put_cases hc with ⟨rfl, rfl⟩ | ⟨hne, hc⟩
    · exact hb
    · exact (h.actors j c hc).follows (.of_overlay_eq id id ⟨rfl, rfl⟩) (hagree j hne)
  · show (Function.update s.tables t table t).log = _
    rw [Function.update_self]
    exact hw

theorem install (h : s.Archived tr t before) (hs : Inv s) {a : Actor} {x : Overlay} {table : Table}
    (ha : s.actors i = some a) (hp : a.progress = .reserved)
    (hn : (a.overlays t).installed = false)
    (hx : (a.overlays t).commit (s.tables t) = (.ok (), x, table)) :
    ((s.putTable t table).put i (a.put t x)).Archived ((s, .install i t) :: tr) t before := by
  have hp' : a.progress ≠ .over := by simp [hp]
  have hu : tr.Untouched i t := (h.actors i a ha).early (.inr hp) hn
  have hput : (a.put t x).overlays t = x := Function.update_self ..
  have hinstalled : ∀ j ws, Trace.Installed ((s, .install i t) :: tr) j t ws ↔
      ((a.overlays t).buffer.toList ≠ [] ∧ j = i ∧ ws = (a.overlays t).buffer.toList) ∨
        tr.Installed j t ws :=
    fun _ _ => Trace.installed_cons_install (wrote_of_some ha t)
  obtain ⟨w, es, kept, old, hw, hes, hst, hold, harch⟩ := h.log
  have hr : ∀ j, Trace.RolledBack ((s, .install i t) :: tr) j t ↔ tr.RolledBack j t := fun _ =>
    Trace.rolledBack_cons_of_ne nofun
  have hstray : ∀ j ws, Trace.Stray ((s, .install i t) :: tr) j t ws ↔ tr.Stray j t ws :=
    fun _ _ => Trace.stray_cons_of_ne nofun
  by_cases hb : (a.overlays t).buffer.toList = []
  · obtain ⟨hi, hlog⟩ := Overlay.log_of_commit_empty hb hx
    have hinst : ∀ j ws, Trace.Installed ((s, .install i t) :: tr) j t ws ↔
        tr.Installed j t ws :=
      fun j ws => (hinstalled j ws).trans (or_iff_right fun h => h.1 hb)
    refine h.act hs ha hp' (.inl rfl) ?_ (hlog.trans hw) hes hst hold (harch.congr hinst hstray hr)
    refine Trace.Untouched.tells ?_ (by rw [hput]; exact hi)
    exact Trace.Agrees.untouched ⟨hr i, fun ws => ⟨hinst i ws, hstray i ws⟩⟩ hu
  · obtain ⟨tx, w', htx, hl, hi, hlog, happ⟩ := Overlay.log_of_commit_ok hw hb hx
    have hid : tx.id = i := (hs.fits i a ha hp').id_of_overlay htx
    rw [hid] at happ
    obtain ⟨hempty, hes'⟩ := LogWriter.holds_append_ok hes happ
    obtain ⟨left, hleft, hst'⟩ := exists_standing_append_commit hst harch.nodup w.unwritten i
      (a.overlays t).buffer.toList
    have hinst : ∀ j ws, Trace.Installed ((s, .install i t) :: tr) j t ws ↔
        j = i ∧ ws = (a.overlays t).buffer.toList ∨ tr.Installed j t ws :=
      fun j ws => (hinstalled j ws).trans (or_congr_left (and_iff_right hb))
    have harch' := harch.drain_all.install hu.2 hu.1 (a.overlays t).buffer.toList
    rw [← hempty] at harch'
    refine h.act hs ha hp' (.inl rfl) ?_ hlog hes' hst' (hleft.trans hold)
      (harch'.congr hinst hstray hr)
    refine ⟨fun _ hi' => ?_, fun _ hi' => ?_, fun _ => ⟨?_, ?_, ?_⟩⟩
    · rw [hput, hi] at hi'
      cases hi'
    · rw [hput, hi] at hi'
      cases hi'
    · rw [hput]
      exact hl
    · exact fun hr' => hu.1 ((hr i).1 hr')
    · exact ⟨_, (hinst i _).2 (.inl ⟨rfl, rfl⟩)⟩

theorem failInstall (h : s.Archived tr t before) (hs : Inv s) {a : Actor} {e : Error} {x : Overlay}
    {table : Table} (ha : s.actors i = some a) (hp : a.progress = .reserved)
    (hn : (a.overlays t).installed = false)
    (hx : (a.overlays t).commit (s.tables t) = (.error e, x, table)) :
    ((s.putTable t table).put i { a.put t x with progress := .failing }).Archived
      ((s, .failInstall i t) :: tr) t before := by
  have hp' : a.progress ≠ .over := by simp [hp]
  have hu : tr.Untouched i t := (h.actors i a ha).early (.inr hp) hn
  have hstrays : ∀ j ws, Trace.Stray ((s, .failInstall i t) :: tr) j t ws ↔
      (((a.overlays t).buffer.toList ≠ [] ∧ ∃ w, (s.tables t).log = some w ∧
        w.LeavesStray (.commit i (a.overlays t).buffer.toList)) ∧
        j = i ∧ ws = (a.overlays t).buffer.toList) ∨ tr.Stray j t ws :=
    fun _ _ => Trace.stray_cons_failInstall (wrote_of_some ha t)
  obtain ⟨rfl, log, htable⟩ := Overlay.of_commit_error hx
  obtain ⟨w, es, kept, old, hw, hes, hst, hold, harch⟩ := h.log
  have hr : ∀ j, Trace.RolledBack ((s, .failInstall i t) :: tr) j t ↔ tr.RolledBack j t := fun _ =>
    Trace.rolledBack_cons_of_ne nofun
  have hinst : ∀ j ws, Trace.Installed ((s, .failInstall i t) :: tr) j t ws ↔
      tr.Installed j t ws :=
    fun _ _ => Trace.installed_cons_of_ne nofun
  have htells : Trace.Tells ((s, .failInstall i t) :: tr) i t
      { a.put t (a.overlays t) with progress := .failing } := by
    refine ⟨?_, fun _ _ ws hw => absurd ((hinst i ws).1 hw) (hu.2 ws).1, fun hi => ?_⟩
    · rintro (e | e) <;> cases e
    · simp [Actor.put, hn] at hi
  rcases (hs.fits i a ha hp').attached t with ⟨htx, -⟩ | ⟨htx, hb, -⟩
  · obtain ⟨hne, w', hlog, happ⟩ := Overlay.log_of_commit_error hw htx hx
    rw [(hs.fits i a ha hp').id] at happ
    rcases LogWriter.holds_append_error hes happ with
      ⟨hleaves, hempty, hes'⟩ | ⟨hleaves, n, m, hnm, hwait, hes'⟩
    · obtain ⟨left, hleft, hst'⟩ := exists_standing_append_commit hst harch.nodup w.unwritten i
        (a.overlays t).buffer.toList
      have hstray : ∀ j ws, Trace.Stray ((s, .failInstall i t) :: tr) j t ws ↔
          j = i ∧ ws = (a.overlays t).buffer.toList ∨ tr.Stray j t ws := fun j ws =>
        (hstrays j ws).trans (or_congr_left (and_iff_right ⟨hne, w, hw, hleaves⟩))
      have harch' := harch.drain_all.leaveStray hu.2 (a.overlays t).buffer.toList
      rw [← hempty] at harch'
      exact h.act hs ha hp' (.inr (.inl rfl)) htells hlog hes' hst' (hleft.trans hold)
        (harch'.congr hinst hstray hr)
    · obtain ⟨left, hleft, hst'⟩ :=
        exists_standing_append_rollbacks hst harch.nodup (w.unwritten.take m)
      have hstray : ∀ j ws, Trace.Stray ((s, .failInstall i t) :: tr) j t ws ↔
          tr.Stray j t ws := by
        refine fun j ws => (hstrays j ws).trans (or_iff_right ?_)
        rintro ⟨⟨-, v, hv, hleaves'⟩, -⟩
        rw [hw, Option.some.injEq] at hv
        exact hleaves (hv ▸ hleaves')
      have harch' := harch.drain hnm
      rw [← hwait] at harch'
      exact h.act hs ha hp' (.inr (.inl rfl)) htells hlog hes' hst' (hleft.trans hold)
        (harch'.congr hinst hstray hr)
  · have htable : table = s.tables t := by
      simp only [Overlay.commit, Overlay.active, htx, Prod.mk.injEq] at hx
      exact hx.2.2.symm
    have hstray : ∀ j ws, Trace.Stray ((s, .failInstall i t) :: tr) j t ws ↔ tr.Stray j t ws :=
      fun j ws => (hstrays j ws).trans (or_iff_right fun h => h.1.1 (by rw [hb]; rfl))
    rw [htable]
    exact h.act hs ha hp' (.inr (.inl rfl)) htells hw hes hst hold (harch.congr hinst hstray hr)

theorem rollback (h : s.Archived tr t before) (hs : Inv s) {a : Actor} {x : Overlay} {table : Table}
    (ha : s.actors i = some a) (hp : a.progress = .failing)
    (hx : (a.overlays t).rollback (s.tables t) = (x, table)) :
    ((s.putTable t table).put i (a.put t x)).Archived ((s, .rollback i t) :: tr) t before := by
  have hp' : a.progress ≠ .over := by simp [hp]
  have htold := h.actors i a ha
  obtain ⟨w, es, kept, old, hw, hes, hst, hold, harch⟩ := h.log
  have hinst : ∀ j ws, Trace.Installed ((s, .rollback i t) :: tr) j t ws ↔ tr.Installed j t ws :=
    fun _ _ => Trace.installed_cons_of_ne nofun
  have hstray : ∀ j ws, Trace.Stray ((s, .rollback i t) :: tr) j t ws ↔ tr.Stray j t ws :=
    fun _ _ => Trace.stray_cons_of_ne nofun
  have hr : ∀ j, Trace.RolledBack ((s, .rollback i t) :: tr) j t ↔ j = i ∨ tr.RolledBack j t :=
    fun _ => Trace.rolledBack_cons_rollback
  have htells : x.installed = false →
      Trace.Tells ((s, .rollback i t) :: tr) i t (a.put t x) := by
    intro hi
    refine ⟨?_, fun _ _ ws _ => (hr i).2 (.inl rfl), fun hi' => ?_⟩
    · rintro (e | e) <;> simp [Actor.put, hp] at e
    · simp [Actor.put, hi] at hi'
  by_cases hi : (a.overlays t).installed = true
  · obtain ⟨hl, -, ws, hws⟩ := htold.held hi
    rcases (hs.fits i a ha hp').attached t with ⟨htx, -⟩ | ⟨-, -, hn⟩
    · rw [Overlay.rollback_of_installed htx hi, hl, (hs.fits i a ha hp').id] at hx
      cases hx
      obtain ⟨n, m, hnm, -, hwait, hes'⟩ := LogWriter.holds_rollback hes i
      obtain ⟨left, hleft, hst'⟩ :=
        exists_standing_append_rollbacks hst harch.nodup ((w.unwritten ++ [i]).take m)
      have harch' := (harch.rollback hws).drain hnm
      rw [← hwait] at harch'
      exact h.act hs ha hp' (.inr (.inr rfl)) (htells rfl) (Table.log_revert hw) hes' hst'
        (hleft.trans hold) (harch'.congr hinst hstray hr)
    · rw [hi] at hn
      cases hn
  · have hi : (a.overlays t).installed = false := by simpa using hi
    rw [Overlay.rollback_of_not_installed hi] at hx
    cases hx
    have harch' := harch.rollback_of_undone (i := i) fun ws hws => htold.undone hp' hi ws hws
    exact h.act hs ha hp' (.inr (.inr rfl)) (htells rfl) hw hes hst hold
      (harch'.congr hinst hstray hr)

theorem step (h : s.Archived tr t before) (hs : Inv s) (hd : Step s e d) :
    d.Archived ((s, e) :: tr) t before := by
  by_cases hq : ∃ i, e.ActsAt i t
  · obtain ⟨i, rfl | rfl | rfl⟩ := hq
    · cases hd with
      | install ha hp hn hx => exact h.install hs ha hp hn hx
    · cases hd with
      | failInstall ha hp hn hx => exact h.failInstall hs ha hp hn hx
    · cases hd with
      | rollback ha hp hx => exact h.rollback hs ha hp hx
  · exact h.follow hs hd fun i hi => hq ⟨i, hi⟩

end Archived

/-- A table that was just opened has the commits that were read from its log. -/
theorem archived_opened {names : TableId → String} {base : TableId → Std.ExtTreeMap Bytes Bytes}
    {logs : TableId → Option LogWriter} {w : LogWriter} {es : List Entry} (hw : logs t = some w)
    (hwait : w.unwritten = []) (hes : w.journal.Holds es) :
    (opened names base logs).Archived [] t (standing es) where
  unborn i _ := by simp [Trace.Untouched, Trace.RolledBack, Trace.Installed, Trace.Stray]
  actors i a ha := nomatch ha
  log := by
    refine ⟨w, es, [], standing es, hw, hes, rfl, .refl _, ?_⟩
    rw [hwait]
    constructor <;> simp [Trace.RolledBack, Trace.Installed, Trace.Stray]

theorem archived_of_run {names : TableId → String} {base : TableId → Std.ExtTreeMap Bytes Bytes}
    {logs : TableId → Option LogWriter} {w : LogWriter} {es : List Entry} (hw : logs t = some w)
    (hwait : w.unwritten = []) (hes : w.journal.Holds es) (h : Run (opened names base logs) tr s) :
    s.Archived tr t (standing es) := by
  induction h with
  | refl => exact archived_opened hw hwait hes
  | tail h hd ih => exact ih.step (inv_of_steps h.steps) hd

/-! ## Reopening -/

/-- Did all these attempts fail, each of them rolled back at the tables where it had installed
something? -/
def Trace.Failed (tr : Trace) (attempts : List TxId) : Prop :=
  ∀ i ∈ attempts, (∃ s, (s, .abort i) ∈ tr ∨ (s, .invalidate i) ∈ tr) ∧
    ∀ t, (∃ s, (s, .install i t) ∈ tr) → tr.RolledBack i t

/-- What such a call wrote stands if and only if the flush after the frame of one of its attempts
failed. -/
theorem Trace.Failed.exists_kept_iff {attempts : List TxId} {kept : List (TxId × List RowWrite)}
    (h : tr.Failed attempts)
    (hkept : ∀ i ws, (i, ws) ∈ kept ↔ tr.Stray i t ws ∨ tr.Installed i t ws ∧ ¬tr.RolledBack i t) :
    (∃ k ∈ kept, k.1 ∈ attempts) ↔ ∃ i ∈ attempts, ∃ ws, tr.Stray i t ws := by
  constructor
  · rintro ⟨⟨i, ws⟩, hk, hi⟩
    rcases (hkept i ws).1 hk with hs | ⟨⟨-, d, hd, -⟩, hr⟩
    · exact ⟨i, hi, ws, hs⟩
    · exact absurd ((h i hi).2 t ⟨d, hd⟩) hr
  · rintro ⟨i, hi, ws, hs⟩
    exact ⟨(i, ws), (hkept i ws).2 (.inl hs), hi⟩

/-- If the table is closed now, it can be opened again, and has the rows that some of the commits
leave that were read from the stream before, and after them these. -/
def Reopens (s : Scene) (t : TableId) (name : String) (stream : Stream)
    (kept : List (List RowWrite)) : Prop :=
  ∃ (bytes : Bytes) (old : List (List RowWrite)), (s.tables t).stream.map (·.bytes) = some bytes ∧
    old.Sublist (survivors (Scan.ofBytes stream.bytes).entries) ∧
    ∀ sync, ∃ reopened left, Table.load name (Stream.ofBytes bytes) sync = (.ok reopened, left) ∧
      reopened.rows = Table.baseRows (Table.rowsOf (old ++ kept))

section Opened

variable {names : TableId → String} {base : TableId → Std.ExtTreeMap Bytes Bytes}
  {logs : TableId → Option LogWriter} {stream left : Stream} {sync : Bool}

/-- A table that is closed with no rollback waiting keeps what was installed and not rolled back,
and what is stray. -/
theorem exists_kept (hsize : stream.size = stream.bytes.length) (hwhole : stream.Whole)
    (hload : Table.load (names t) stream sync =
      (.ok ⟨names t, Table.baseRows (base t), ∅, logs t⟩, left))
    (h : Run (opened names base logs) tr s) (hclosed : (s.tables t).unwritten = 0) :
    ∃ kept : List (TxId × List RowWrite), s.Reopens t (names t) stream (kept.map (·.2)) ∧
      ∀ i ws, (i, ws) ∈ kept ↔ tr.Stray i t ws ∨ tr.Installed i t ws ∧ ¬tr.RolledBack i t := by
  obtain ⟨w₀, he, hwait₀, hes₀⟩ := Table.holds_of_load hsize hwhole hload
  obtain ⟨-, -, -, hw₀⟩ := Table.mk.inj he
  obtain ⟨w, es, kept, old, hw, hes, hst, hold, harch⟩ := (archived_of_run hw₀ hwait₀ hes₀ h).log
  have hwait : w.unwritten = [] := by
    rw [Table.unwritten, hw] at hclosed
    exact List.length_eq_zero_iff.1 hclosed
  rw [hwait] at harch
  have hsurvivors : survivors es = old.reverse.map (·.2) ++ kept.reverse.map (·.2) := by
    rw [survivors_eq, hst, List.reverse_append, List.map_append]
  refine ⟨kept.reverse, ⟨w.journal.stream.bytes, old.reverse.map (·.2), ?_, ?_, fun sync => ?_⟩,
    fun i ws => ?_⟩
  · rw [Table.stream, hw]
    rfl
  · exact (hold.reverse).map _
  · obtain ⟨reopened, left, hr, hrows⟩ := Table.load_of_frames hes.frames (names t) sync
    exact ⟨reopened, left, hr, by rw [hrows, hsurvivors]⟩
  · rw [List.mem_reverse]
    exact harch.mem_iff i ws

/-- What a call wrote whose attempts all failed comes back with the next opening if and only if the
flush after the frame of one of them failed. -/
theorem reopened_rows (hsize : stream.size = stream.bytes.length) (hwhole : stream.Whole)
    (hload : Table.load (names t) stream sync =
      (.ok ⟨names t, Table.baseRows (base t), ∅, logs t⟩, left))
    (h : Run (opened names base logs) tr s) (hclosed : (s.tables t).unwritten = 0) :
    ∃ kept : List (TxId × List RowWrite), s.Reopens t (names t) stream (kept.map (·.2)) ∧
      (∀ i ws, (i, ws) ∈ kept ↔ tr.Stray i t ws ∨ tr.Installed i t ws ∧ ¬tr.RolledBack i t) ∧
      ∀ attempts, tr.Failed attempts →
        ((∃ k ∈ kept, k.1 ∈ attempts) ↔ ∃ i ∈ attempts, ∃ ws, tr.Stray i t ws) := by
  obtain ⟨kept, hopen, hkept⟩ := exists_kept hsize hwhole hload h hclosed
  exact ⟨kept, hopen, hkept, fun _ hf => hf.exists_kept_iff hkept⟩

end Opened

/-- A stream whose use number `n` is a flush that fails. -/
def failingFlush (n : Nat) : Stream :=
  ⟨[], 0, 0, fun k => if k = n then { Faults.none with flush := true } else Faults.none⟩

/-- The rows of a transaction come back that was rolled back because the flush after its frame
failed. -/
theorem reopened_rows_after_failing_flush :
    ∃ (logs : TableId → Option LogWriter) (tr : Trace) (s : Scene)
      (kept : List (TxId × List RowWrite)),
      Run (opened (fun _ => "t") (fun _ => ∅) logs) tr s ∧ (s.tables 0).unwritten = 0 ∧
        tr.Failed [1] ∧ s.Reopens 0 "t" (failingFlush 2) (kept.map (·.2)) ∧
        (1, [([7], some [8])]) ∈ kept := by
  have hload : Table.load "t" (failingFlush 2) true =
      (.ok ⟨"t", Table.baseRows ∅, ∅, some ⟨⟨(failingFlush 2).tick, true, 0⟩, []⟩⟩,
        (failingFlush 2).tick) := rfl
  have h₁ : Run (opened (fun _ => "t") (fun _ => ∅)
      fun _ => some ⟨⟨(failingFlush 2).tick, true, 0⟩, []⟩) [] _ := .refl
  have h₂ := h₁.tail (.begin _)
  have h₃ := h₂.tail (.start (i := 1) (t := 0) rfl rfl rfl)
  have h₄ := h₃.tail (@Step.perform _ 1 _ 0 (.write [7] [8]) _ _ rfl rfl rfl)
  have h₅ := h₄.tail (.reserve (i := 1) rfl rfl rfl)
  have h₆ := h₅.tail (.failInstall (i := 1) (t := 0) rfl rfl rfl rfl)
  have h₇ := h₆.tail (.rollback (i := 1) (t := 0) rfl rfl rfl)
  have h₈ := h₇.tail (.abort (i := 1) rfl rfl (fun t => ?_) rfl)
  · have hwhole : (failingFlush 2).Whole := by
      intro k
      unfold failingFlush
      dsimp only
      split <;> exact .inl rfl
    obtain ⟨kept, hopen, hkept, -⟩ := reopened_rows (t := 0) rfl hwhole hload h₈ rfl
    refine ⟨_, _, _, kept, h₈, rfl, fun i hi => ?_, hopen,
      (hkept _ _).2 (.inl ⟨List.cons_ne_nil _ _, _, _, .tail _ (.tail _ (.head _)), rfl, rfl, ?_⟩)⟩
    · obtain rfl := List.mem_singleton.1 hi
      refine ⟨⟨_, .inl (.head _)⟩, fun u hu => ?_⟩
      obtain ⟨d, hd⟩ := hu
      simp only [List.mem_cons, Prod.mk.injEq, reduceCtorEq, and_false, or_false,
        List.not_mem_nil] at hd
    · exact ⟨_, rfl, _, _, _, rfl, rfl, rfl, rfl⟩
  · by_cases e : t = 0
    · subst e
      rfl
    · simp only [Actor.put, Function.update_of_ne e]
      rfl

end Scene

end NamespaceCatalog
