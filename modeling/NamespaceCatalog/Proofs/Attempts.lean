import NamespaceCatalog.Executor
import NamespaceCatalog.Proofs.Course
import NamespaceCatalog.Proofs.Reopening
import NamespaceCatalog.Proofs.Sites

/-!
# Attempts

What an executor does in one attempt is a run of a scene.

`Scene.Shows` says that a scene has the coordinator and the tables of a world.  If the executor
enlists fresh overlays (`Executor.Enlists`) and the body works through them only (`Body.Works`), an
attempt leads from a world that a scene shows to one that a later scene shows, and the attempt is an
actor on the way (`Scene.Acting`, `Scene.attempt_cases`).
-/

namespace NamespaceCatalog

/-! ## Participants in turn -/

section Participants

variable {σ π β : Type}

/-- What each member keeps when it acts holds after all have, or up to the first that fails. -/
theorem actUntil_cases {f : π → σ → Except Error Unit × π × σ} {I : List π → List π → σ → Prop}
    {E : List π → σ → Prop}
    (hok : ∀ done p todo s q s', I done (p :: todo) s → f p s = (.ok (), q, s') →
      I (done ++ [q]) todo s')
    (herr : ∀ done p todo s e q s', I done (p :: todo) s → f p s = (.error e, q, s') →
      E (done ++ q :: todo) s')
    {l ps : List π} {s : σ} (h : I l ps s) :
    (∃ qs s', actUntil f ps s = (.ok (), qs, s') ∧ I (l ++ qs) [] s') ∨
      ∃ e qs s', actUntil f ps s = (.error e, qs, s') ∧ E (l ++ qs) s' := by
  induction ps generalizing l s with
  | nil => exact .inl ⟨[], s, rfl, by simpa using h⟩
  | cons p ps ih =>
    unfold actUntil
    cases hf : f p s with
    | mk r rest =>
      obtain ⟨q, s'⟩ := rest
      cases r with
      | error e => exact .inr ⟨e, q :: ps, s', rfl, herr _ _ _ _ _ _ _ h hf⟩
      | ok _ =>
        rcases ih (hok _ _ _ _ _ _ h hf) with ⟨qs, s'', e, hI⟩ | ⟨err, qs, s'', e, hE⟩
        · exact .inl ⟨q :: qs, s'', by simp [e], by simpa using hI⟩
        · exact .inr ⟨err, q :: qs, s'', by simp [e], by simpa using hE⟩

theorem actAll_cases {f : π → σ → β × π × σ} {I : List π → List π → σ → Prop} {Q : β → Prop}
    (hstep : ∀ done p todo s b q s', I done (p :: todo) s → f p s = (b, q, s') →
      Q b ∧ I (done ++ [q]) todo s')
    {l ps : List π} {s : σ} (h : I l ps s) :
    ∃ bs qs s', actAll f ps s = (bs, qs, s') ∧ (∀ b ∈ bs, Q b) ∧ I (l ++ qs) [] s' := by
  induction ps generalizing l s with
  | nil => exact ⟨[], [], s, rfl, by simp, by simpa using h⟩
  | cons p ps ih =>
    unfold actAll
    cases hf : f p s with
    | mk b rest =>
      obtain ⟨q, s'⟩ := rest
      obtain ⟨hb, hI⟩ := hstep _ _ _ _ _ _ _ h hf
      obtain ⟨bs, qs, s'', e, hbs, hI'⟩ := ih hI
      refine ⟨b :: bs, q :: qs, s'', by simp [e], ?_, by simpa using hI'⟩
      exact List.forall_mem_cons.2 ⟨hb, hbs⟩

/-- Members that leave the rest as it is. -/
theorem actAll_eq_map {f : π → σ → β × π × σ} {g : π → β} {k : π → π} {s : σ}
    (hf : ∀ p, f p s = (g p, k p, s)) (ps : List π) : actAll f ps s = (ps.map g, ps.map k, s) := by
  induction ps with
  | nil => rfl
  | cons p ps ih => simp [actAll, hf, ih]

end Participants

/-- If all participants are rolled back, the transaction is aborted. -/
theorem Executor.fail_of_rollback {ρ π : Type} [Participant ρ π] {tx tx' : Transaction}
    {ps qs : List π} {w v : World ρ} {results : List (Except Error Unit)} {c : Coordinator}
    (hroll : actAll Participant.rollback ps w = (results, qs, v))
    (hresults : ∀ r ∈ results, r = .ok ()) (habort : v.coordinator.abort tx = .ok (tx', c)) :
    Executor.fail tx ps w = (qs, { v with coordinator := c }) := by
  have hok : results.all (·.isOk) = true := List.all_eq_true.2 fun r hr => by
    rw [hresults r hr]
    rfl
  simp [Executor.fail, hroll, hok, habort]

/-! ## Overlays of an executor -/

variable {ρ α : Type}

/-- One of the overlays answers an operation. -/
def Overlay.Performs (tables : TableId → Table) (ps qs : List Overlay) : Prop :=
  ∃ front x back op answer y, ps = front ++ x :: back ∧
    x.perform op (tables x.table) = .ok (answer, y) ∧ qs = front ++ y :: back

theorem Overlay.fst_rollback (x : Overlay) (t : Table) : (x.rollback t).1 = x.release := by
  unfold rollback
  split <;> rfl

/-- Does the body change nothing but the overlays, by operations on them? -/
def Body.Works (body : Body ρ Overlay α) : Prop :=
  ∀ ps w r qs v, body ps w = (r, qs, v) → v.coordinator = w.coordinator ∧ v.site = w.site ∧
    Relation.ReflTransGen (Overlay.Performs w.table) ps qs

theorem Course.performs_run {tables : TableId → Table} {c : Course α} {x y : Overlay} {r : α}
    (h : c.run x (tables x.table) = .ok (r, y)) (xs : List Overlay) :
    Relation.ReflTransGen (Overlay.Performs tables) (x :: xs) (y :: xs) := by
  induction c generalizing x with
  | done r =>
    cases h
    exact .refl
  | fail e => cases h
  | ask op next ih =>
    simp only [run] at h
    split at h
    · cases h
    · next answer z hz =>
      obtain ⟨hxz, -⟩ := Overlay.of_perform_ok hz
      have htable : z.table = x.table := by rw [hxz]
      rw [← htable] at h
      exact .head ⟨[], x, xs, op, answer, z, rfl, hz, rfl⟩ (ih answer h)

/-- A body that goes through a course works with its overlay. -/
theorem Course.works_body (c : Course α) : Body.Works (Overlay.body c.run : Body ρ Overlay α) := by
  intro ps w r qs v e
  cases ps with
  | nil =>
    cases e
    exact ⟨rfl, rfl, .refl⟩
  | cons x xs =>
    simp only [Overlay.body] at e
    split at e
    · next r y hy =>
      cases e
      exact ⟨rfl, rfl, performs_run hy xs⟩
    · cases e
      exact ⟨rfl, rfl, .refl⟩

/-- Does the executor enlist fresh overlays of different ones of the first `m` tables, and change
nothing by that nor by asking its policy? -/
structure Executor.Enlists (x : Executor ρ Overlay) (m : Nat) : Prop where
  bind : ∀ w r v, x.bind w = (r, v) → v.coordinator = w.coordinator ∧ v.site = w.site ∧
    ∀ ps, r = .ok ps → ∃ ids : List TableId, ids.Nodup ∧ (∀ t ∈ ids, t < m) ∧
      ps = ids.map Overlay.ofTable
  policy : ∀ e n w r v, x.policy e n w = (r, v) → v.coordinator = w.coordinator ∧ v.site = w.site

/-! ## What the coordinator becomes -/

namespace Chronicle

variable {c : Chronicle} {c' : Coordinator} {tx tx' : Transaction}

theorem coordinator_serve_reserve (c : Chronicle) (tx : Transaction) (changes : ChangeSet) :
    (c.serve (.reserve tx changes)).coordinator = (c.coordinator.reserve tx changes).2 := by
  simp only [serve]
  split <;> next e => rw [e]

theorem coordinator_serve_commit {pointer : Nat}
    (h : c.coordinator.commit tx = .ok (pointer, tx', c')) :
    (c.serve (.commit tx)).coordinator = c' := by
  simp only [serve, h]

theorem coordinator_serve_abort (h : c.coordinator.abort tx = .ok (tx', c')) :
    (c.serve (.abort tx)).coordinator = c' := by
  simp only [serve, h]

end Chronicle

/-! ## Worlds and scenes -/

namespace Scene

variable {s d : Scene} {w w' : World ρ} {m : Nat}

/-- Does the scene show the coordinator and the tables of the world, of which `m` are open? -/
structure Shows (s : Scene) (m : Nat) (w : World ρ) : Prop where
  coordinator : s.coordinator = w.coordinator
  tables : ∀ t, s.tables t = w.table t
  apart : w.site.Apart
  size : w.site.tables.size = m

theorem Shows.congr (h : s.Shows m w) (hc : w'.coordinator = w.coordinator)
    (hs : w'.site = w.site) : s.Shows m w' where
  coordinator := h.coordinator.trans hc.symm
  tables t := by
    rw [h.tables t, World.table, World.table, hs]
  apart := hs ▸ h.apart
  size := hs ▸ h.size

theorem Shows.put (h : s.Shows m w) (i : TxId) (a : Actor) : (s.put i a).Shows m w :=
  { h with }

theorem Shows.ask (h : s.Shows m w) {r : Request} {c : Coordinator}
    (hc : (s.chronicle.serve r).coordinator = c) : (s.ask r).Shows m { w with coordinator := c } :=
  { h with coordinator := hc }

theorem Shows.putTable (h : s.Shows m w) {i : TableId} {t : Table} (hi : i < m)
    (ht : t.Replaces (w.table i)) : (s.putTable i t).Shows m (w.putTable i t) where
  coordinator := h.coordinator
  tables j := by
    show Function.update s.tables i t j = (w.site.putTable i t).table j
    by_cases e : j = i
    · subst e
      rw [Function.update_self, Site.table_putTable_self h.apart ht (h.size ▸ hi)]
    · rw [Function.update_of_ne e, Site.table_putTable_of_ne h.apart ht e]
      exact h.tables j
  apart := h.apart.putTable ht
  size := (Site.size_putTable ..).trans h.size

/-! ## Actors on the way -/

/-- Is this an event of the actor `i`, or of none? -/
def Event.IsOf (e : Event) (i : TxId) : Prop :=
  match e with
  | start j _ | perform j .. | reserve j | refuse j | install j _ | failInstall j _ | commit j
  | post j _ | fail j | rollback j _ | abort j | invalidate j => j = i
  | begin | takeHorizon | prune _ => True
  | forget => False

/-- What the state of a transaction that enlisted the tables `ts` says of what happened. -/
structure Trace.Ends (tr : Trace) (tx : Transaction) (ts : List TableId) : Prop where
  committed : tx.state = .committed ↔ ∃ d, (d, .commit tx.id) ∈ tr
  aborted : tx.state = .aborted → (∃ d, (d, .abort tx.id) ∈ tr) ∧ ∀ t ∈ ts, tr.RolledBack tx.id t
  installs : ∀ t d, (d, .install tx.id t) ∈ tr → t ∈ ts

theorem Trace.ends_begin {tx : Transaction} (h : tx.state = .active) (ts : List TableId) :
    Trace.Ends [(s, .begin)] tx ts where
  committed := by simp [h]
  aborted := by simp [h]
  installs := by simp

theorem Trace.Ends.cons {tr : Trace} {tx : Transaction} {ts : List TableId} {e : Event}
    (h : tr.Ends tx ts) (hc : e ≠ .commit tx.id) (hi : ∀ t, e = .install tx.id t → t ∈ ts) :
    Trace.Ends ((d, e) :: tr) tx ts where
  committed := by
    rw [h.committed]
    constructor
    · rintro ⟨d', hd⟩
      exact ⟨d', .tail _ hd⟩
    · rintro ⟨d', hd⟩
      rcases List.mem_cons.1 hd with hd | hd
      · exact absurd (Prod.mk.inj hd).2.symm hc
      · exact ⟨d', hd⟩
  aborted ha := by
    obtain ⟨⟨d', hd⟩, hr⟩ := h.aborted ha
    exact ⟨⟨d', .tail _ hd⟩, fun t ht => Trace.rolledBack_cons.2 (.inr (hr t ht))⟩
  installs t d' hd := by
    rcases List.mem_cons.1 hd with hd | hd
    · exact hi t (Prod.mk.inj hd).2.symm
    · exact h.installs t d' hd

theorem Trace.Ends.commit {tr : Trace} {tx : Transaction} {ts : List TableId} (h : tr.Ends tx ts)
    (d : Scene) : Trace.Ends ((d, .commit tx.id) :: tr) { tx with state := .committed } ts where
  committed := ⟨fun _ => ⟨d, List.mem_cons_self⟩, fun _ => rfl⟩
  aborted e := nomatch e
  installs t d' hd := by
    rcases List.mem_cons.1 hd with hd | hd
    · cases hd
    · exact h.installs t d' hd

theorem Trace.Ends.abort {tr : Trace} {tx : Transaction} {ts : List TableId} (h : tr.Ends tx ts)
    (htx : tx.state = .active) (hr : ∀ t ∈ ts, tr.RolledBack tx.id t) (d : Scene) :
    Trace.Ends ((d, .abort tx.id) :: tr) { tx with state := .aborted } ts where
  committed := by
    constructor
    · intro e
      cases e
    · rintro ⟨d', hd⟩
      rcases List.mem_cons.1 hd with hd | hd
      · cases hd
      · have e := h.committed.2 ⟨d', hd⟩
        rw [htx] at e
        cases e
  aborted _ := ⟨⟨d, List.mem_cons_self⟩, fun t ht => Trace.rolledBack_cons.2 (.inr (hr t ht))⟩
  installs t d' hd := by
    rcases List.mem_cons.1 hd with hd | hd
    · cases hd
    · exact h.installs t d' hd

/-- What happened between two scenes was done by the actor `i`, which began in between. -/
structure Leads (s : Scene) (i : TxId) (tr : Trace) (d : Scene) : Prop where
  run : Run s tr d
  events : ∀ q ∈ tr, q.2.IsOf i
  inv : Inv d
  born : s.coordinator.next ≤ i ∧ i < d.coordinator.next

theorem Leads.tail {i : TxId} {tr : Trace} {e : Event} {d' : Scene} (h : s.Leads i tr d)
    (hd : Step d e d') (he : e.IsOf i) : s.Leads i ((d, e) :: tr) d' where
  run := h.run.tail hd
  events := List.forall_mem_cons.2 ⟨he, h.events⟩
  inv := h.inv.step hd
  born := ⟨h.born.1, Nat.lt_of_lt_of_le h.born.2 (h.inv.advances hd).1.next_le⟩

/-- The actor of the transaction `tx` has come from the scene `s` to the scene `d`, which shows the
world.  Its overlays are the participants `ps`. -/
structure Acting (s : Scene) (m : Nat) (tx : Transaction) (p : Progress) (w : World ρ)
    (ps : List Overlay) (tr : Trace) (d : Scene) (a : Actor) : Prop where
  leads : s.Leads tx.id tr d
  ends : tr.Ends tx (ps.map (·.table))
  shows : d.Shows m w
  actor : d.actors tx.id = some a
  tx : a.tx = tx
  progress : a.progress = p
  overlays : ∀ x ∈ ps, a.overlays x.table = x
  others : ∀ t, (∀ x ∈ ps, x.table ≠ t) → a.overlays t = Overlay.ofTable t
  nodup : (ps.map (·.table)).Nodup
  known : ∀ x ∈ ps, x.table < m

namespace Acting

variable {tx tx' : Transaction} {p p' : Progress} {ps front back : List Overlay} {x y : Overlay}
  {tr : Trace} {a b : Actor} {e : Event} {d' : Scene}

theorem congr (h : s.Acting m tx p w ps tr d a) (hc : w'.coordinator = w.coordinator)
    (hs : w'.site = w.site) : s.Acting m tx p w' ps tr d a :=
  { h with
    shows := h.shows.congr hc hs }

/-- A step that leaves the overlays as they are. -/
theorem step (h : s.Acting m tx p w ps tr d a) (hd : Step d e d') (he : e.IsOf tx.id)
    (hends : Trace.Ends ((d, e) :: tr) tx' (ps.map (·.table))) (hid : tx'.id = tx.id)
    (hshows : d'.Shows m w') (hb : d'.actors tx.id = some b)
    (htx : b.tx = tx') (hp : b.progress = p') (hx : b.overlays = a.overlays) :
    s.Acting m tx' p' w' ps ((d, e) :: tr) d' b where
  leads := hid ▸ h.leads.tail hd he
  ends := hends
  shows := hshows
  actor := hid ▸ hb
  tx := htx
  progress := hp
  overlays x hx' := by
    rw [hx]
    exact h.overlays x hx'
  others t ht := by
    rw [hx]
    exact h.others t ht
  nodup := h.nodup
  known := h.known

theorem table_ne (h : s.Acting m tx p w (front ++ x :: back) tr d a) {z : Overlay}
    (hz : z ∈ front ++ back) : z.table ≠ x.table := by
  have hn := h.nodup
  rw [List.map_append, List.map_cons, List.nodup_append] at hn
  obtain ⟨-, hback, hfront⟩ := hn
  rcases List.mem_append.1 hz with hz | hz
  · exact hfront _ (List.mem_map_of_mem hz) _ List.mem_cons_self
  · intro e
    exact (List.nodup_cons.1 hback).1 (e ▸ List.mem_map_of_mem hz)

/-- A step of one overlay. -/
theorem stepAt (h : s.Acting m tx p w (front ++ x :: back) tr d a) (hd : Step d e d')
    (he : e.IsOf tx.id) (hc : e ≠ .commit tx.id) (hi : ∀ t, e = .install tx.id t → t = x.table)
    (hshows : d'.Shows m w') (hb : d'.actors tx.id = some b)
    (htx : b.tx = a.tx) (hp : b.progress = p') (hy : y.table = x.table)
    (hx : b.overlays = (a.put x.table y).overlays) :
    s.Acting m tx p' w' (front ++ y :: back) ((d, e) :: tr) d' b := by
  have htables : (front ++ y :: back).map (·.table) = (front ++ x :: back).map (·.table) := by
    rw [List.map_append, List.map_cons, List.map_append, List.map_cons, hy]
  have hmem : ∀ z ∈ front ++ y :: back, z = y ∨ z ∈ front ++ back := fun z hz => by
    simp only [List.mem_append, List.mem_cons] at hz ⊢
    exact or_left_comm.1 hz
  have hmem' : ∀ z ∈ front ++ back, z ∈ front ++ x :: back := fun z hz => by
    simp only [List.mem_append, List.mem_cons] at hz ⊢
    exact hz.imp_right .inr
  refine ⟨h.leads.tail hd he, ?_, hshows, hb, htx.trans h.tx, hp, fun z hz => ?_,
    fun t ht => ?_, htables ▸ h.nodup, fun z hz => ?_⟩
  · rw [htables]
    refine h.ends.cons hc fun t ht => ?_
    rw [hi t ht]
    exact List.mem_map_of_mem (List.mem_append_right front List.mem_cons_self)
  · rw [hx]
    rcases hmem z hz with rfl | hz
    · rw [hy]
      exact Function.update_self ..
    · exact (Function.update_of_ne (h.table_ne hz) ..).trans (h.overlays z (hmem' z hz))
  · have hne : t ≠ x.table := fun e =>
      ht y (List.mem_append_right front List.mem_cons_self) (hy.trans e.symm)
    rw [hx]
    refine (Function.update_of_ne hne ..).trans (h.others t fun z hz => ?_)
    rcases List.mem_append.1 hz with hz | hz
    · exact ht z (List.mem_append_left _ hz)
    · rcases List.mem_cons.1 hz with rfl | hz
      · exact hne.symm
      · exact ht z (List.mem_append_right front (.tail _ hz))
  · rcases hmem z hz with rfl | hz
    · rw [hy]
      exact h.known x (List.mem_append_right front List.mem_cons_self)
    · exact h.known z (hmem' z hz)

theorem exists_commit_iff (h : s.Acting m tx p w ps tr d a) (i : TxId) :
    (∃ d, (d, .commit i) ∈ tr) ↔ i = tx.id ∧ tx.state = .committed := by
  rw [h.ends.committed]
  constructor
  · rintro ⟨d', hd⟩
    obtain rfl : i = tx.id := h.leads.events _ hd
    exact ⟨rfl, d', hd⟩
  · rintro ⟨rfl, hd⟩
    exact hd

theorem overlays_eq (h : s.Acting m tx p w (front ++ x :: back) tr d a) : a.overlays x.table = x :=
  h.overlays x (List.mem_append_right front List.mem_cons_self)

theorem table_lt (h : s.Acting m tx p w (front ++ x :: back) tr d a) : x.table < m :=
  h.known x (List.mem_append_right front List.mem_cons_self)

/-- What holds of the participants and of a fresh overlay holds of all overlays. -/
theorem forall_overlays (h : s.Acting m tx p w ps tr d a) {P : Overlay → Prop}
    (hps : ∀ x ∈ ps, P x) (hfresh : ∀ t, P (Overlay.ofTable t)) (t : TableId) :
    P (a.overlays t) := by
  by_cases ht : ∃ x ∈ ps, x.table = t
  · obtain ⟨x, hx, rfl⟩ := ht
    rw [h.overlays x hx]
    exact hps x hx
  · rw [h.others t fun x hx e => ht ⟨x, hx, e⟩]
    exact hfresh t

/-- The actor changes the rows that the participants name. -/
theorem changes_eq (h : s.Acting m tx p w ps tr d a) (hp : p ≠ .over) :
    a.changes d.tables = .ofList (ps.map fun x => x.changes (w.table x.table)).flatten := by
  have f := h.leads.inv.fits tx.id a h.actor (h.progress ▸ hp)
  have hnone : ∀ t id, (a.overlays t).buffer = ∅ → id ∉ (a.overlays t).changes (d.tables t) := by
    intro t id e hid
    rw [Overlay.changes, e] at hid
    cases hid
  refine Std.ExtTreeSet.ext_mem fun id => ?_
  simp only [Actor.changes, Std.ExtTreeSet.mem_ofList, List.contains_iff_mem, List.mem_flatMap,
    List.mem_flatten, List.mem_map]
  constructor
  · rintro ⟨t, -, hid⟩
    by_cases ht : ∃ x ∈ ps, x.table = t
    · obtain ⟨x, hx, rfl⟩ := ht
      rw [h.overlays x hx, h.shows.tables] at hid
      exact ⟨_, ⟨x, hx, rfl⟩, hid⟩
    · refine absurd hid (hnone t id ?_)
      rw [h.others t fun x hx e => ht ⟨x, hx, e⟩]
      rfl
  · rintro ⟨-, ⟨x, hx, rfl⟩, hid⟩
    rw [← h.shows.tables] at hid
    have hid' : id ∈ (a.overlays x.table).changes (d.tables x.table) := by rwa [h.overlays x hx]
    rcases f.attached x.table with ⟨-, ht⟩ | ⟨-, hb, -⟩
    · exact ⟨x.table, ht, hid'⟩
    · exact absurd hid' (hnone x.table id hb)

theorem not_installed (h : s.Acting m tx .working w ps tr d a) : ∀ x ∈ ps, x.installed = false := by
  intro x hx
  have f := h.leads.inv.fits tx.id a h.actor (by simp [h.progress])
  rw [← h.overlays x hx]
  exact f.working h.progress x.table

end Acting

/-- Has the transaction come so far? -/
def Comes (s : Scene) (m : Nat) (tx : Transaction) (p : Progress) (w : World ρ)
    (ps : List Overlay) : Prop :=
  ∃ tr d a, s.Acting m tx p w ps tr d a

/-! ## Steps of one overlay -/

section Overlays

variable {tx : Transaction} {p : Progress} {front back : List Overlay} {x y : Overlay} {t : Table}
  {e : Error}

theorem Comes.start (h : s.Comes m tx .working w (front ++ x :: back))
    (hx : x.start (w.table x.table) tx = .ok y) : s.Comes m tx .working w (front ++ y :: back) := by
  obtain ⟨tr, d, a, h⟩ := h
  have hx' : (a.overlays x.table).start (d.tables x.table) a.tx = .ok y := by
    rw [h.overlays_eq, h.shows.tables, h.tx]
    exact hx
  obtain ⟨-, rfl⟩ := Overlay.of_start_ok hx
  exact ⟨_, _, _, h.stepAt (.start h.actor h.progress hx') rfl nofun nofun (h.shows.put ..)
    (actors_put_self ..) rfl h.progress rfl rfl⟩

theorem Comes.perform {op : TableOperation} {answer : TableAnswer}
    (h : s.Comes m tx .working w (front ++ x :: back))
    (hx : x.perform op (w.table x.table) = .ok (answer, y)) :
    s.Comes m tx .working w (front ++ y :: back) := by
  obtain ⟨tr, d, a, h⟩ := h
  have hx' : (a.overlays x.table).perform op (d.tables x.table) = .ok (answer, y) := by
    rw [h.overlays_eq, h.shows.tables]
    exact hx
  obtain ⟨hy, -⟩ := Overlay.of_perform_ok hx
  exact ⟨_, _, _, h.stepAt (.perform h.actor h.progress hx') rfl nofun nofun (h.shows.put ..)
    (actors_put_self ..) rfl h.progress (hy ▸ rfl) rfl⟩

theorem Comes.install (h : s.Comes m tx .reserved w (front ++ x :: back))
    (hn : x.installed = false) (hx : x.commit (w.table x.table) = (.ok (), y, t)) :
    s.Comes m tx .reserved (w.putTable x.table t) (front ++ y :: back) := by
  obtain ⟨tr, d, a, h⟩ := h
  have hx' : (a.overlays x.table).commit (d.tables x.table) = (.ok (), y, t) := by
    rw [h.overlays_eq, h.shows.tables]
    exact hx
  have hd := Step.install h.actor h.progress (by rw [h.overlays_eq, hn]) hx'
  have hrep := x.replaces_commit (w.table x.table)
  rw [hx] at hrep
  obtain ⟨_, _, _, -, hy, -⟩ := Overlay.of_commit_ok hx
  refine ⟨_, _, _, h.stepAt hd rfl nofun ?_ ((h.shows.putTable h.table_lt hrep).put ..)
    (actors_put_self ..) rfl h.progress (hy ▸ rfl) rfl⟩
  intro t e
  cases e
  rfl

theorem Comes.failInstall (h : s.Comes m tx .reserved w (front ++ x :: back))
    (hn : x.installed = false) (hx : x.commit (w.table x.table) = (.error e, y, t)) :
    s.Comes m tx .failing (w.putTable x.table t) (front ++ y :: back) := by
  obtain ⟨tr, d, a, h⟩ := h
  have hx' : (a.overlays x.table).commit (d.tables x.table) = (.error e, y, t) := by
    rw [h.overlays_eq, h.shows.tables]
    exact hx
  have hd := Step.failInstall h.actor h.progress (by rw [h.overlays_eq, hn]) hx'
  have hrep := x.replaces_commit (w.table x.table)
  rw [hx] at hrep
  obtain ⟨hy, -⟩ := Overlay.of_commit_error hx
  exact ⟨_, _, _, h.stepAt hd rfl nofun nofun ((h.shows.putTable h.table_lt hrep).put ..)
    (actors_put_self ..) rfl rfl (hy ▸ rfl) rfl⟩

theorem Comes.post (h : s.Comes m tx .over w (front ++ x :: back)) :
    s.Comes m tx .over w (front ++ x.release :: back) := by
  obtain ⟨tr, d, a, h⟩ := h
  refine ⟨_, _, _, h.stepAt (.post h.actor h.progress (t := x.table)) rfl nofun nofun
    (h.shows.put ..) (actors_put_self ..) rfl h.progress rfl ?_⟩
  rw [h.overlays_eq]

variable {tr : Trace} {a : Actor}

theorem Acting.rollback (h : s.Acting m tx .failing w (front ++ x :: back) tr d a)
    (hx : x.rollback (w.table x.table) = (y, t)) :
    ∃ d' b, s.Acting m tx .failing (w.putTable x.table t) (front ++ y :: back)
      ((d, .rollback tx.id x.table) :: tr) d' b := by
  have hx' : (a.overlays x.table).rollback (d.tables x.table) = (y, t) := by
    rw [h.overlays_eq, h.shows.tables]
    exact hx
  have hrep := x.replaces_rollback (w.table x.table)
  have hy := x.fst_rollback (w.table x.table)
  rw [hx] at hrep hy
  obtain rfl : y = x.release := hy
  exact ⟨_, _, h.stepAt (.rollback h.actor h.progress hx') rfl nofun nofun
    ((h.shows.putTable h.table_lt hrep).put ..) (actors_put_self ..) rfl h.progress rfl rfl⟩

theorem Acting.prune (h : s.Acting m tx p w (front ++ x :: back) tr d a) {g : Horizon}
    (hg : g ∈ d.horizons) :
    ∃ d', d'.horizons = d.horizons ∧ s.Acting m tx p
      (w.putTable x.table ((w.table x.table).prune g).2) (front ++ x :: back)
      ((d, .prune x.table) :: tr) d' a := by
  have hrep : ((w.table x.table).prune g).2.Replaces (w.table x.table) :=
    .of_log_eq (Table.log_prune ..)
  have hd := Step.prune hg x.table
  rw [h.shows.tables] at hd
  refine ⟨d.putTable x.table _, rfl, h.stepAt hd trivial nofun nofun
    (h.shows.putTable h.table_lt hrep) h.actor rfl h.progress rfl ?_⟩
  exact (Function.update_eq_self_iff.2 h.overlays_eq.symm).symm

end Overlays

/-! ## Up to the commit -/

variable {tx : Transaction} {ps qs : List Overlay} {p : Progress}

/-- A transaction begins for fresh overlays of different tables. -/
theorem comes_begin (hs : Inv s) (hw : s.Shows m w) {ids : List TableId} (hn : ids.Nodup)
    (hids : ∀ t ∈ ids, t < m) :
    s.Comes m w.coordinator.begin.1 .working { w with coordinator := w.coordinator.begin.2 }
      (ids.map Overlay.ofTable) := by
  have htables : (ids.map Overlay.ofTable).map (·.table) = ids := by
    rw [List.map_map]
    exact List.map_id ids
  have hd := Step.begin s
  rw [← hw.coordinator]
  refine ⟨[(s, .begin)], (s.ask .begin).put s.coordinator.next
    (.ofTransaction s.coordinator.begin.1), .ofTransaction s.coordinator.begin.1, ?_⟩
  refine ⟨⟨.tail .refl hd, ?_, hs.step hd, Nat.le_refl _, Nat.lt_succ_self _⟩,
    Trace.ends_begin rfl _, (hw.ask rfl).put .., actors_put_self .., rfl, rfl, ?_,
    fun _ _ => rfl, htables.symm ▸ hn, ?_⟩
  · exact List.forall_mem_cons.2 ⟨trivial, fun q hq => nomatch hq⟩
  · intro x hx
    obtain ⟨t, -, rfl⟩ := List.mem_map.1 hx
    rfl
  · intro x hx
    obtain ⟨t, ht, rfl⟩ := List.mem_map.1 hx
    exact hids t ht

/-- The overlays start to serve the transaction. -/
theorem Comes.start_all (h : s.Comes m tx .working w ps) :
    (∃ qs v, actUntil (Participant.start tx) ps w = (.ok (), qs, v) ∧ s.Comes m tx .working v qs) ∨
      ∃ e qs v, actUntil (Participant.start tx) ps w = (.error e, qs, v) ∧
        s.Comes m tx .working v qs := by
  refine actUntil_cases (f := Participant.start tx)
    (I := fun done todo v => s.Comes m tx .working v (done ++ todo))
    (E := fun qs v => s.Comes m tx .working v qs) ?_ ?_ (l := []) (s := w) h |>.imp ?_ id
  · intro done x todo v q v' h hf
    simp only [Participant.start] at hf
    split at hf
    · next y hy =>
      cases hf
      rw [List.append_assoc]
      exact h.start hy
    · cases hf
  · intro done x todo v e q v' h hf
    simp only [Participant.start] at hf
    split at hf
    · cases hf
    · cases hf
      exact h
  · simp

/-- The body works with the overlays. -/
theorem Comes.body {body : Body ρ Overlay α} (h : s.Comes m tx .working w ps) (hb : body.Works)
    {r : Except Error α} {v : World ρ} (e : body ps w = (r, qs, v)) :
    s.Comes m tx .working v qs := by
  obtain ⟨hc, hs, hps⟩ := hb ps w r qs v e
  have hw : s.Comes m tx .working w qs := by
    clear e
    induction hps with
    | refl => exact h
    | tail _ hq ih =>
      obtain ⟨front, x, back, op, answer, y, rfl, hy, rfl⟩ := hq
      exact ih.perform hy
  obtain ⟨tr, d, a, h⟩ := hw
  exact ⟨tr, d, a, h.congr hc hs⟩

/-- The rows that the overlays changed are reserved, or not. -/
theorem Comes.reserve (h : s.Comes m tx .working w ps) {changes : List (List Bytes)}
    (hc : changes = ps.map fun x => x.changes (w.table x.table)) :
    (∃ c, w.coordinator.reserve tx (.ofList changes.flatten) = (.ok (), c) ∧
      s.Comes m tx .reserved { w with coordinator := c } ps ∧ ∀ x ∈ ps, x.installed = false) ∨
      ∃ e c, w.coordinator.reserve tx (.ofList changes.flatten) = (.error e, c) ∧
        s.Comes m tx .failing { w with coordinator := c } ps := by
  obtain ⟨tr, d, a, h⟩ := h
  have hchanges := h.changes_eq (by simp)
  rw [← hc] at hchanges
  have hr : d.coordinator.reserve a.tx (a.changes d.tables) =
      w.coordinator.reserve tx (.ofList changes.flatten) := by
    rw [hchanges, h.shows.coordinator, h.tx]
  cases e : w.coordinator.reserve tx (.ofList changes.flatten) with
  | mk r c =>
    rw [e] at hr
    have hc : (d.chronicle.serve (.reserve a.tx (a.changes d.tables))).coordinator = c :=
      (Chronicle.coordinator_serve_reserve ..).trans (congrArg Prod.snd hr)
    cases r with
    | ok _ =>
      exact .inl ⟨c, rfl, ⟨_, _, _, h.step (.reserve h.actor h.progress (by rw [hr])) rfl
        (h.ends.cons nofun nofun) rfl ((h.shows.ask hc).put ..) (actors_put_self ..) h.tx rfl rfl⟩,
        h.not_installed⟩
    | error err =>
      exact .inr ⟨err, c, rfl, _, _, _, h.step (.refuse h.actor h.progress (by rw [hr])) rfl
        (h.ends.cons nofun nofun) rfl ((h.shows.ask hc).put ..) (actors_put_self ..) h.tx rfl rfl⟩

/-- The overlays install what was written, up to the first that fails. -/
theorem Comes.commit_all (h : s.Comes m tx .reserved w ps) (hn : ∀ x ∈ ps, x.installed = false) :
    (∃ qs v, actUntil Participant.commit ps w = (.ok (), qs, v) ∧ s.Comes m tx .reserved v qs ∧
      ∀ x ∈ qs, x.buffer = ∅ ∨ x.installed = true) ∨
      ∃ e qs v, actUntil Participant.commit ps w = (.error e, qs, v) ∧
        s.Comes m tx .failing v qs := by
  refine actUntil_cases (f := Participant.commit)
    (I := fun done todo v => s.Comes m tx .reserved v (done ++ todo) ∧
      (∀ x ∈ done, x.buffer = ∅ ∨ x.installed = true) ∧ ∀ x ∈ todo, x.installed = false)
    (E := fun qs v => s.Comes m tx .failing v qs) ?_ ?_ (l := []) (s := w)
    ⟨h, by simp, hn⟩ |>.imp ?_ id
  · rintro done x todo v q v' ⟨h, hdone, htodo⟩ hf
    obtain ⟨t, hx, rfl⟩ := Participant.of_commit hf
    obtain ⟨hnone, htodo⟩ := List.forall_mem_cons.1 htodo
    refine ⟨?_, fun z hz => ?_, htodo⟩
    · rw [List.append_assoc]
      exact h.install hnone hx
    · rcases List.mem_append.1 hz with hz | hz
      · exact hdone z hz
      · obtain rfl := List.mem_singleton.1 hz
        obtain ⟨_, _, _, -, hy, -⟩ := Overlay.of_commit_ok hx
        rw [hy]
        cases he : x.buffer.isEmpty with
        | true => exact .inl (Std.ExtTreeMap.isEmpty_iff.1 he)
        | false => exact .inr rfl
  · rintro done x todo v e q v' ⟨h, -, htodo⟩ hf
    obtain ⟨t, hx, rfl⟩ := Participant.of_commit hf
    exact h.failInstall (htodo x List.mem_cons_self) hx
  · simp

theorem Comes.commit {pointer : Nat} {tx' : Transaction} {c : Coordinator}
    (h : s.Comes m tx .reserved w ps) (hall : ∀ x ∈ ps, x.buffer = ∅ ∨ x.installed = true)
    (hc : w.coordinator.commit tx = .ok (pointer, tx', c)) :
    s.Comes m { tx with state := .committed } .over { w with coordinator := c } ps := by
  obtain ⟨tr, d, a, h⟩ := h
  have htx' : tx' = { tx with state := .committed } := by
    obtain ⟨_, e, -⟩ | ⟨_, e⟩ := Coordinator.commit_cases w.coordinator tx
    · rw [e] at hc
      cases hc
      rfl
    · rw [e] at hc
      cases hc
  have hc' : d.chronicle.coordinator.commit a.tx = .ok (pointer, tx', c) := by
    rw [h.tx, ← hc, ← h.shows.coordinator]
    rfl
  have hd := Step.commit h.actor h.progress (h.forall_overlays hall fun _ => .inl rfl) hc'
  exact ⟨_, _, _, h.step hd rfl (h.ends.commit d) rfl
    { h.shows with coordinator := Chronicle.coordinator_serve_commit hc' } (actors_put_self ..)
    htx' rfl rfl⟩

theorem Comes.fail (h : s.Comes m tx p w ps) (hp : p = .working ∨ p = .reserved) :
    s.Comes m tx .failing w ps := by
  obtain ⟨tr, d, a, h⟩ := h
  exact ⟨_, _, _, h.step (.fail h.actor (h.progress.symm ▸ hp)) rfl (h.ends.cons nofun nofun) rfl
    (h.shows.put ..) (actors_put_self ..) h.tx rfl rfl⟩

/-- The overlays learn that the transaction is over. -/
theorem Comes.post_all (h : s.Comes m tx .over w ps) :
    ∃ rs qs v, actAll (fun x w => ((), Participant.post x w)) ps w = (rs, qs, v) ∧
      s.Comes m tx .over v qs := by
  have hcases := actAll_cases (f := fun (x : Overlay) (w : World ρ) => ((), Participant.post x w))
    (I := fun done todo v => s.Comes m tx .over v (done ++ todo)) (Q := fun _ => True) ?_
    (l := []) (s := w) h
  · obtain ⟨rs, qs, v, e, -, h⟩ := hcases
    exact ⟨rs, qs, v, e, by simpa using h⟩
  · intro done x todo v r q v' h hf
    cases hf
    rw [List.append_assoc]
    exact ⟨trivial, h.post⟩

/-- The overlays serve the transaction, and it commits, or something fails. -/
theorem Comes.steps {body : Body ρ Overlay α} (h : s.Comes m tx .working w ps) (hb : body.Works) :
    (∃ r qs v, Executor.steps tx body ps w = (.ok r, qs, v) ∧
      s.Comes m { tx with state := .committed } .over v qs) ∨
      ∃ e qs v, Executor.steps tx body ps w = (.error e, qs, v) ∧ s.Comes m tx .failing v qs := by
  rcases h.start_all with ⟨ps₁, w₁, hstart, h₁⟩ | ⟨e, ps₁, w₁, hstart, h₁⟩
  · cases hbody : body ps₁ w₁ with
    | mk r rest =>
      obtain ⟨ps₂, w₂⟩ := rest
      have h₂ := h₁.body hb hbody
      have hchanges : actAll Participant.changes ps₂ w₂ =
          (ps₂.map fun x => x.changes (w₂.table x.table), ps₂, w₂) := by
        have := actAll_eq_map (f := Participant.changes) (k := id) (s := w₂) (fun x => rfl) ps₂
        rwa [List.map_id] at this
      cases r with
      | error e =>
        exact .inr ⟨e.inBody, ps₂, w₂, by simp only [Executor.steps, hstart, hbody],
          h₂.fail (.inl rfl)⟩
      | ok r =>
        rcases h₂.reserve rfl with ⟨c, hreserve, h₃, hnone⟩ | ⟨e, c, hreserve, h₃⟩
        · rcases h₃.commit_all hnone with ⟨ps₄, w₄, hinstall, h₄, hall⟩ | ⟨e, ps₄, w₄, hinstall, h₄⟩
          · cases hc : w₄.coordinator.commit tx with
            | error e =>
              exact .inr ⟨e, ps₄, w₄,
                by simp only [Executor.steps, hstart, hbody, hchanges, hreserve, hinstall, hc],
                h₄.fail (.inr rfl)⟩
            | ok c =>
              obtain ⟨pointer, tx', c⟩ := c
              obtain ⟨rs, ps₅, w₅, hpost, h₅⟩ := (h₄.commit hall hc).post_all
              exact .inl ⟨r, ps₅, w₅, by
                simp only [Executor.steps, hstart, hbody, hchanges, hreserve, hinstall, hc, hpost],
                h₅⟩
          · exact .inr ⟨e, ps₄, w₄,
              by simp only [Executor.steps, hstart, hbody, hchanges, hreserve, hinstall], h₄⟩
        · exact .inr ⟨e, ps₂, _,
            by simp only [Executor.steps, hstart, hbody, hchanges, hreserve], h₃⟩
  · exact .inr ⟨e, ps₁, w₁, by simp only [Executor.steps, hstart], h₁.fail (.inl rfl)⟩

/-! ## After the commit or a failure -/

theorem Acting.abort {tr : Trace} {a : Actor} (h : s.Acting m tx .failing w ps tr d a)
    (htx : tx.state = .active)
    (hps : ∀ x ∈ ps, x.installed = false ∧ tr.RolledBack tx.id x.table) :
    ∃ c, w.coordinator.abort tx = .ok ({ tx with state := .aborted }, c) ∧
      s.Comes m { tx with state := .aborted } .over { w with coordinator := c } ps := by
  obtain ⟨c, hc⟩ : ∃ c, w.coordinator.abort tx = .ok ({ tx with state := .aborted }, c) := by
    simp [Coordinator.abort, Transaction.checkActive, htx]
  have hc' : d.chronicle.coordinator.abort a.tx = .ok ({ tx with state := .aborted }, c) := by
    rw [h.tx, ← hc, ← h.shows.coordinator]
    rfl
  have hd := Step.abort h.actor h.progress
    (h.forall_overlays (fun x hx => (hps x hx).1) fun _ => rfl) hc'
  refine ⟨c, hc, _, _, _, h.step hd rfl (h.ends.abort htx (fun t ht => ?_) d) rfl
    { h.shows with coordinator := Chronicle.coordinator_serve_abort hc' } (actors_put_self ..)
    rfl rfl rfl⟩
  obtain ⟨x, hx, rfl⟩ := List.mem_map.1 ht
  exact (hps x hx).2

/-- The overlays are rolled back and the transaction is aborted. -/
theorem Comes.undo (h : s.Comes m tx .failing w ps) (htx : tx.state = .active) :
    ∃ qs v, Executor.fail tx ps w = (qs, v) ∧
      s.Comes m { tx with state := .aborted } .over v qs := by
  obtain ⟨tr, d, a, h⟩ := h
  have hcases := actAll_cases (f := Participant.rollback)
    (I := fun done todo v => ∃ tr d a, s.Acting m tx .failing v (done ++ todo) tr d a ∧
      ∀ x ∈ done, x.installed = false ∧ tr.RolledBack tx.id x.table)
    (Q := (· = .ok ())) ?_ (l := []) (s := w) ⟨tr, d, a, h, by simp⟩
  · obtain ⟨rs, qs, v, hroll, hrs, tr, d, a, h, hqs⟩ := hcases
    rw [List.nil_append, List.append_nil] at h
    obtain ⟨c, hc, h⟩ := h.abort htx hqs
    exact ⟨qs, _, Executor.fail_of_rollback hroll hrs hc, h⟩
  · rintro done x todo v r q v' ⟨tr, d, a, h, hdone⟩ hf
    obtain ⟨t, rfl, hx, rfl⟩ := Participant.of_rollback hf
    obtain ⟨d', b, h'⟩ := h.rollback hx
    rw [List.append_assoc]
    refine ⟨rfl, _, d', b, h', fun z hz => ?_⟩
    rcases List.mem_append.1 hz with hz | hz
    · exact (hdone z hz).imp_right fun hr => Trace.rolledBack_cons.2 (.inr hr)
    · obtain rfl := List.mem_singleton.1 hz
      obtain rfl : z = x.release := by rw [← x.fst_rollback (v.table x.table), hx]
      exact ⟨rfl, Trace.rolledBack_cons.2 (.inl rfl)⟩

/-- The tables drop what is no longer needed. -/
theorem Comes.reclaim (h : s.Comes m tx p w ps) :
    ∃ qs, s.Comes m tx p (Executor.reclaim ps w) qs := by
  unfold Executor.reclaim
  split
  · exact ⟨ps, h⟩
  · obtain ⟨tr, d, a, h⟩ := h
    have h₀ : s.Acting m tx p w ps _ _ a := h.step (.takeHorizon d) trivial
      (h.ends.cons nofun nofun) rfl { h.shows with } h.actor h.tx h.progress rfl
    have hg : w.coordinator.horizon ∈ d.coordinator.horizon :: d.horizons := by
      rw [← h.shows.coordinator]
      exact List.mem_cons_self
    have hcases := actAll_cases
      (f := fun (x : Overlay) v => ((), Participant.reclaim w.coordinator.horizon x v))
      (I := fun done todo v => ∃ tr d a, s.Acting m tx p v (done ++ todo) tr d a ∧
        w.coordinator.horizon ∈ d.horizons)
      (Q := fun _ => True) ?_ (l := []) (s := w) ⟨_, _, _, h₀, hg⟩
    · obtain ⟨rs, qs, v, e, -, tr, d, a, h, -⟩ := hcases
      rw [List.nil_append, List.append_nil] at h
      refine ⟨qs, tr, d, a, ?_⟩
      dsimp only
      rwa [e]
    · rintro done x todo v r q v' ⟨tr, d, a, h, hg⟩ hf
      cases hf
      obtain ⟨d', hd', h'⟩ := h.prune hg
      rw [List.append_assoc]
      exact ⟨trivial, _, d', a, h', hd' ▸ hg⟩

/-! ## Attempts -/

variable {x : Executor ρ Overlay} {body : Body ρ Overlay α}

/-- An attempt does nothing, or is a transaction that is aborted, or one that commits. -/
theorem attempt_cases (hx : x.Enlists m) (hb : body.Works) (hs : Inv s) (hw : s.Shows m w) :
    (∃ e v, x.attempt body w = (.error e, v) ∧ s.Shows m v) ∨
    (∃ e v tx ps, x.attempt body w = (.error e, v) ∧ s.Comes m tx .over v ps ∧
      tx.state = .aborted) ∨
    ∃ r v tx ps, x.attempt body w = (.ok r, v) ∧ s.Comes m tx .over v ps ∧
      tx.state = .committed := by
  cases hbind : x.bind w with
  | mk r w₁ =>
    obtain ⟨hc, hsite, hps⟩ := hx.bind w r w₁ hbind
    have hw₁ := hw.congr hc hsite
    cases r with
    | error e =>
      exact .inl ⟨Executor.bindFailure e, w₁, by simp only [Executor.attempt, hbind], hw₁⟩
    | ok ps =>
      obtain ⟨ids, hn, hids, rfl⟩ := hps ps rfl
      rcases (comes_begin hs hw₁ hn hids).steps hb with
        ⟨r, qs, w₂, hsteps, h⟩ | ⟨e, qs, w₂, hsteps, h⟩
      · obtain ⟨qs', h'⟩ := h.reclaim
        exact .inr (.inr ⟨r, _, _, qs', by simp only [Executor.attempt, hbind, hsteps], h', rfl⟩)
      · obtain ⟨qs₁, w₃, hfail, h₁⟩ := h.undo rfl
        obtain ⟨qs₂, h₂⟩ := h₁.reclaim
        exact .inr (.inl ⟨e, _, _, qs₂,
          by simp only [Executor.attempt, hbind, hsteps, hfail], h₂, rfl⟩)

end Scene

end NamespaceCatalog
