import NamespaceCatalog.Proofs.Undoing

/-!
# Atomicity

A call of an executor either commits once, or leaves nothing behind that a later transaction could
read, whatever the streams of the tables do (`Executor.execute_atomic`).

`Executor.Undone` is what an attempt that fails does, and what any number of them do one after the
other; `Executor.Commits` is what the last attempt does if the call succeeds.
-/

namespace NamespaceCatalog

variable {ρ α : Type}

/-! ## A body for several tables -/

/-- The body that writes a row through each of its overlays. -/
def Body.writeAll (key value : Bytes) : Body ρ Overlay Unit :=
  actUntil fun x w =>
    match x.write key value with
    | .ok x => (.ok (), x, w)
    | .error e => (.error e, x, w)

theorem Body.works_writeAll (key value : Bytes) :
    Body.Works (Body.writeAll key value : Body ρ Overlay Unit) := by
  intro ps w r qs v e
  have hcases := actUntil_cases
    (f := fun (x : Overlay) (w : World ρ) =>
      match x.write key value with
      | .ok x => (.ok (), x, w)
      | .error e => (.error e, x, w))
    (I := fun done todo v => v = w ∧
      Relation.ReflTransGen (Overlay.Performs w.table) ps (done ++ todo))
    (E := fun qs v => v = w ∧ Relation.ReflTransGen (Overlay.Performs w.table) ps qs)
    ?_ ?_ (l := []) (s := w) ⟨rfl, .refl⟩
  · rw [Body.writeAll] at e
    rcases hcases with ⟨qs', v', e', rfl, h⟩ | ⟨err, qs', v', e', rfl, h⟩
    · cases e.symm.trans e'
      exact ⟨rfl, rfl, by simpa using h⟩
    · cases e.symm.trans e'
      exact ⟨rfl, rfl, h⟩
  · rintro done x todo v q v' ⟨rfl, h⟩ hf
    cases hx : x.write key value with
    | error e => simp [hx] at hf
    | ok y =>
      rw [hx] at hf
      cases hf
      refine ⟨rfl, h.tail ⟨done, x, todo, .write key value, .done, q, rfl, ?_, by simp⟩⟩
      rw [Overlay.perform, hx]
      rfl
  · rintro done x todo v err q v' ⟨rfl, h⟩ hf
    cases hx : x.write key value with
    | error e =>
      rw [hx] at hf
      cases hf
      exact ⟨rfl, h⟩
    | ok y => simp [hx] at hf

/-- A stream whose first append fails after three bytes. -/
def Stream.halting : Stream :=
  { Stream.ofBytes [] with
    faults := fun n => if n = 0 then { Faults.none with append := some 3 } else Faults.none }

/-- A world with a table in memory, and one whose journal is in a stream that fails. -/
def World.halting : World Unit :=
  .new
    { Site.empty with
      streams := #[⟨0, true, Stream.halting⟩]
      tables := #[⟨.inMemory "a", none⟩,
        ⟨{ Table.inMemory "b" with log := some ⟨.ofStream Stream.halting true, []⟩ }, some 0⟩] }
    ()

theorem World.sound_new {site : Site} (extra : ρ) (h : ∀ i, (site.table i).rows = ∅) :
    (World.new site extra).Sound where
  pos := Nat.one_pos
  running i hi := by simp [new, Coordinator.new] at hi
  reserved i hi := by simp [new, Coordinator.new] at hi
  invalid i hi := by simp [new, Coordinator.new] at hi
  writers i key v hv := by
    have hv : v ∈ (site.table i).versions key := hv
    rw [Table.versions, h] at hv
    simp at hv

/-! ## Attempts and calls -/

theorem World.Sound.returns {w w' : World ρ} (h : w.Sound)
    (hr : w.coordinator.Returns w'.coordinator)
    (hw : ∀ i key, ∀ v ∈ (w'.table i).versions key, v.writer < w'.coordinator.next) :
    w'.Sound where
  pos := Nat.lt_of_lt_of_le h.pos hr.next_le
  running i hi := Nat.lt_of_lt_of_le (h.running i (hr.inProgress ▸ hi)) hr.next_le
  reserved i hi := Nat.lt_of_lt_of_le (h.reserved i (hr.reserved ▸ hi)) hr.next_le
  invalid i hi := (h.invalid i (hr.invalid ▸ hi)).imp_right fun h => Nat.lt_of_lt_of_le h hr.next_le
  writers := hw

theorem World.Sound.congr {w w' : World ρ} (h : w.Sound) (hc : w'.coordinator = w.coordinator)
    (hs : w'.site = w.site) : w'.Sound :=
  h.returns (hc ▸ .refl _) fun i key v hv => by
    rw [World.table, hs] at hv
    exact hc ▸ h.writers i key v hv

/-- Every scene shows a sound world. -/
theorem World.Sound.of_shows {w : World ρ} {s : Scene} {m : Nat} (hs : s.Inv) (hw : s.Shows m w) :
    w.Sound := by
  have running : ∀ i : Nat, i ∈ s.coordinator.inProgress → i < s.coordinator.next := fun i hi =>
    (hs.chronicle.running i hi).2
  have reserved := hs.chronicle.reserved_running
  constructor <;> rw [← hw.coordinator]
  · exact hs.chronicle.next_pos
  · exact running
  · exact fun i hi => running i (reserved i hi)
  · exact fun i hi => ⟨(hs.invalid i hi).1, (hs.invalid i hi).2.1⟩
  · exact fun i key v hv => hs.lawful.lt_of_knows (hs.writers i key v (hw.tables i ▸ hv))

namespace Executor

variable {x : Executor ρ Overlay} {body : Body ρ Overlay α} {u v w w' : World ρ} {m : Nat}

/-- Does the executor enlist fresh overlays, in a world where the first `m` tables are open?  It may
open tables, and enlist several overlays of one table. -/
structure Binds (x : Executor ρ Overlay) (m : Nat) : Prop where
  bind : ∀ w r v, m ≤ w.site.tables.size → x.bind w = (r, v) → w.Opens v ∧
    ∀ ps, r = .ok ps → ∃ ids : List TableId, (∀ i ∈ ids, i < v.site.tables.size) ∧
      ps = ids.map Overlay.ofTable
  policy : ∀ e n w r v, x.policy e n w = (r, v) → v.coordinator = w.coordinator ∧ v.site = w.site

theorem Enlists.binds (h : x.Enlists m) : x.Binds m where
  bind w r v hm hbind := by
    obtain ⟨hc, hs, hps⟩ := h.bind w r v hbind
    refine ⟨.of_eq hc (congrArg _ hs), fun ps hr => ?_⟩
    obtain ⟨ids, -, hids, rfl⟩ := hps ps hr
    exact ⟨ids, fun i hi => hs ▸ Nat.lt_of_lt_of_le (hids i hi) hm, rfl⟩
  policy := h.policy

/-- Was everything undone on the way from `w` to `w'`?  No table reads differently after it, and
what was opened on the way reads as it did then. -/
structure Undone (x : Executor ρ Overlay) (w w' : World ρ) : Prop where
  returns : w.coordinator.Returns w'.coordinator
  committed : w'.coordinator.stats.committed = w.coordinator.stats.committed
  size_le : w.site.tables.size ≤ w'.site.tables.size
  agrees : ∀ i < w.site.tables.size, ∀ key,
    w'.coordinator.horizon.Agrees ((w'.table i).versions key) ((w.table i).versions key)
  opened : ∀ i, w.site.tables.size ≤ i → i < w'.site.tables.size → ∃ u r v, x.bind u = (r, v) ∧
    u.site.tables.size ≤ i ∧ i < v.site.tables.size ∧ ∀ key,
      w'.coordinator.horizon.Agrees ((w'.table i).versions key) ((v.table i).versions key)

/-- Did the attempt from `w` to `w'` commit?  The participants were made in `v`, the body gave `a`
and left the overlays `qs`, what they wrote was put on top of the versions in `v`, once, and then
versions were dropped that no later reader needs. -/
structure Commits (x : Executor ρ Overlay) (body : Body ρ Overlay α) (w v : World ρ)
    (qs : List Overlay) (a : α) (w' : World ρ) : Prop where
  bound : ∃ (ids : List TableId) (mid : World ρ), x.bind w = (.ok (ids.map Overlay.ofTable), v) ∧
    body (ids.map (.attached v.coordinator.begin.1)) v.beginning = (.ok a, qs, mid)
  known : ∀ y ∈ qs, y.table < v.site.tables.size
  installed : ∃ after : World ρ, w' = Executor.reclaim (qs.map Overlay.release) after ∧
    ∀ i key, (after.table i).versions key =
      Overlay.versionsBy v.coordinator.next qs i key ++ (v.table i).versions key
  returns : w.coordinator.Returns w'.coordinator
  committed : w'.coordinator.stats.committed = w.coordinator.stats.committed + 1
  reads : ∀ i key, (w'.table i).get w'.coordinator.begin.1 key =
    (Overlay.writesTo qs i key).getLast?.getD ((v.table i).get v.coordinator.begin.1 key)

namespace Undone

theorem trans (h : x.Undone w u) (h' : x.Undone u w') : x.Undone w w' where
  returns := h.returns.trans h'.returns
  committed := h'.committed.trans h.committed
  size_le := Nat.le_trans h.size_le h'.size_le
  agrees i hi key :=
    (h'.agrees i (Nat.lt_of_lt_of_le hi h.size_le) key).trans
      ((h.agrees i hi key).later h'.returns.horizon)
  opened i hi hi' := by
    by_cases hu : i < u.site.tables.size
    · obtain ⟨u₁, r, v, hbind, hle, hlt, hv⟩ := h.opened i hi hu
      exact ⟨u₁, r, v, hbind, hle, hlt, fun key =>
        (h'.agrees i hu key).trans ((hv key).later h'.returns.horizon)⟩
    · exact h'.opened i (Nat.le_of_not_lt hu) hi'

theorem refl (x : Executor ρ Overlay) (w : World ρ) : x.Undone w w where
  returns := .refl _
  committed := rfl
  size_le := Nat.le_refl _
  agrees _ _ _ := .refl _ _
  opened _ hi hi' := absurd hi' (Nat.not_lt.2 hi)

theorem congr (h : x.Undone w u) (hc : w'.coordinator = u.coordinator) (hs : w'.site = u.site) :
    x.Undone w w' := by
  have ht : ∀ i, w'.table i = u.table i := fun i => by rw [World.table, hs]; rfl
  obtain ⟨returns, committed, size_le, agrees, opened⟩ := h
  refine ⟨hc ▸ returns, hc ▸ committed, hs ▸ size_le, ?_, ?_⟩
  · simpa only [hc, ht] using agrees
  · simpa only [hc, hs, ht] using opened

/-- Participants are made, and nothing is left of their transaction. -/
theorem of_opens {r : Except Error (List Overlay)} (hbind : x.bind w = (r, v)) (hv : w.Opens v)
    (returns : v.coordinator.Returns w'.coordinator)
    (committed : w'.coordinator.stats.committed = v.coordinator.stats.committed)
    (size : w'.site.tables.size = v.site.tables.size)
    (agrees : ∀ i key,
      w'.coordinator.horizon.Agrees ((w'.table i).versions key) ((v.table i).versions key)) :
    x.Undone w w' where
  returns := hv.coordinator ▸ returns
  committed := hv.coordinator ▸ committed
  size_le := size ▸ hv.size_le
  agrees i hi key := hv.versions i hi key ▸ agrees i key
  opened i hi hi' := ⟨w, r, v, hbind, hi, size ▸ hi', agrees i⟩

/-- A transaction that begins after it reads what one would have read that began before it. -/
theorem get_eq (h : x.Undone w w') (hw : w.Sound) (hw' : w'.Sound) {i : TableId}
    (hi : i < w.site.tables.size) (key : Bytes) :
    (w'.table i).get w'.coordinator.begin.1 key = (w.table i).get w.coordinator.begin.1 key := by
  rw [Table.get_eq, Table.get_eq, h.agrees i hi key _ (Coordinator.heeds_begin hw'.invalid)]
  exact Version.newest_congr fun v hv => h.returns.sees_begin (hw.writers i key v hv)

end Undone

theorem Commits.of_committed {ids : List TableId} {qs : List Overlay} {a : α} {mid after : World ρ}
    (hw : w.Sound) (hbind : x.bind w = (.ok (ids.map Overlay.ofTable), v)) (hv : w.Opens v)
    (hbody : body (ids.map (.attached v.coordinator.begin.1)) v.beginning = (.ok a, qs, mid))
    (hknown : ∀ y ∈ qs, y.table < v.site.tables.size) (h : Committed v qs after) :
    (reclaim (qs.map Overlay.release) after).Sound ∧
      x.Commits body w v qs a (reclaim (qs.map Overlay.release) after) := by
  obtain ⟨hc, -, hsublist, hagrees⟩ := World.prunes_reclaim (qs.map Overlay.release) after
  generalize hw' : reclaim (qs.map Overlay.release) after = w' at *
  rw [← hc] at hagrees
  obtain ⟨hreturns, hcommitted, hlt, -, hversions⟩ := h
  rw [← hc] at hreturns hcommitted hlt
  have hv' := hw.opens hv
  have hsound : w'.Sound := by
    refine hv'.returns hreturns fun i key z hz => ?_
    have hz := (hsublist i key).subset hz
    rw [hversions] at hz
    rcases List.mem_append.1 hz with hz | hz
    · exact Overlay.writer_of_mem_versionsBy hz ▸ hlt
    · exact Nat.lt_of_lt_of_le (hv'.writers i key z hz) hreturns.next_le
  have hsees : w'.coordinator.begin.1.sees v.coordinator.next = true := by
    rw [Transaction.sees_iff, Coordinator.mem_excluded_begin, hreturns.inProgress, hreturns.invalid]
    refine .inr (.inr ⟨Nat.le_sub_one_of_lt hlt, ?_⟩)
    rintro (hi | hi)
    · exact Nat.lt_irrefl _ (hv'.running _ hi)
    · exact Nat.lt_irrefl _ (hv'.invalid _ hi).2
  refine ⟨hsound, ?_⟩
  exact {
    bound := ⟨ids, mid, hbind, hbody⟩
    known := hknown
    installed := ⟨after, hw'.symm, hversions⟩
    returns := hv.coordinator ▸ hreturns
    committed := hv.coordinator ▸ hcommitted
    reads := fun i key => by
      rw [Table.get_eq, hagrees i key _ (Coordinator.heeds_begin hsound.invalid), hversions,
        Overlay.newest_versionsBy hsees, Table.get_eq]
      congr 1
      exact Version.newest_congr fun z hz => hreturns.sees_begin (hv'.writers i key z hz) }

/-- An attempt commits, or everything is undone. -/
theorem attempt_cases (hx : x.Binds m) (hb : body.Works) (hw : w.Sound)
    (hm : m ≤ w.site.tables.size) :
    (∃ e w', x.attempt body w = (.error e, w') ∧ w'.Sound ∧ x.Undone w w') ∨
    ∃ a w' v qs, x.attempt body w = (.ok a, w') ∧ w'.Sound ∧ x.Commits body w v qs a w' := by
  cases hbind : x.bind w with
  | mk r v =>
    obtain ⟨hv, hps⟩ := hx.bind w r v hm hbind
    have hv' := hw.opens hv
    cases r with
    | error e =>
      exact .inl ⟨bindFailure e, v, by simp only [attempt, hbind], hv',
        .of_opens hbind hv (.refl _) rfl rfl fun _ _ => .refl _ _⟩
    | ok ps =>
      obtain ⟨ids, hids, rfl⟩ := hps ps rfl
      rcases steps_cases hv' hids hb with
        ⟨a, qs, mid, after, hbody, hsteps, hknown, h⟩ | ⟨e, qs, u, hsteps, h⟩
      · obtain ⟨hsound, h⟩ := Commits.of_committed hw hbind hv hbody hknown h
        unfold World.beginning at hsteps
        exact .inr ⟨a, _, v, qs, by simp only [attempt, hbind, hsteps], hsound, h⟩
      · obtain ⟨rs, u', hfail, hreturns, hcommitted, hsize, hversions⟩ :=
          h.fail fun hrun => Nat.lt_irrefl _ (hv'.running _ hrun)
        obtain ⟨hc, hsize', hsublist, hagrees⟩ := World.prunes_reclaim rs u'
        rw [← hc] at hagrees hreturns hcommitted
        unfold World.beginning at hsteps
        refine .inl ⟨e, reclaim rs u', by simp only [attempt, hbind, hsteps, hfail],
          hv'.returns hreturns fun i key z hz => ?_, ?_⟩
        · have hz := hversions i key ▸ (hsublist i key).subset hz
          exact Nat.lt_of_lt_of_le (hv'.writers i key z hz) hreturns.next_le
        · refine .of_opens hbind hv hreturns hcommitted (hsize'.trans hsize) fun i key => ?_
          exact hversions i key ▸ hagrees i key

/-- A failed attempt, after which the policy was asked. -/
theorem undone_of_policy (hx : x.Binds m) (hb : body.Works) (hw : w.Sound)
    (hm : m ≤ w.site.tables.size) {e : Error} {n : Nat} {delay : Option Nat}
    (hr : x.attempt body w = (.error e, u)) (hp : x.policy e n u = (delay, v)) :
    v.Sound ∧ x.Undone w v := by
  obtain ⟨hc, hs⟩ := hx.policy e n u delay v hp
  rcases attempt_cases hx hb hw hm with ⟨e', w', h, hsound, hundone⟩ | ⟨a, w', v', qs, h, -⟩
  · cases hr.symm.trans h
    exact ⟨hsound.congr hc hs, hundone.congr hc hs⟩
  · cases hr.symm.trans h

/-- A sleep after a failed attempt. -/
theorem undone_of_sleep {delay : Nat} {stop : Signal × ρ → Bool} {up : Option Bool}
    (hsound : u.Sound) (h : x.Undone w u) (hs : x.meanwhile.sleep stop delay u = (up, v)) :
    v.Sound ∧ x.Undone w v := by
  have hc := Meanwhile.coordinator_eq hs
  have hs := Meanwhile.site_eq hs
  exact ⟨hsound.congr hc hs, h.congr hc hs⟩

/-- Attempts are undone until one commits, or there is to be no other. -/
theorem retry_cases (hx : x.Binds m) (hb : body.Works) (hw : w.Sound) (hm : m ≤ w.site.tables.size)
    (stop : Signal × ρ → Bool) (more n : Nat) :
    (∃ r w', x.retry stop body more n w = (r, w') ∧ (∀ a, r ≠ some (.ok a)) ∧ w'.Sound ∧
      x.Undone w w') ∨
    ∃ a w' u v qs, x.retry stop body more n w = (some (.ok a), w') ∧ w'.Sound ∧ x.Undone w u ∧
      x.attempt body u = (.ok a, w') ∧ x.Commits body u v qs a w' := by
  fun_induction Executor.retry x stop body more n w with
  | case1 more n w a w' hr =>
    rcases attempt_cases hx hb hw hm with ⟨e, w₁, h, -⟩ | ⟨a', w₁, v, qs, h, hsound, hcommits⟩
    · cases hr.symm.trans h
    · cases hr.symm.trans h
      exact .inr ⟨a, w', w, v, qs, rfl, hsound, .refl x w, hr, hcommits⟩
  | case2 more n w e w' hr v hp =>
    obtain ⟨hsound, h⟩ := undone_of_policy hx hb hw hm hr hp
    exact .inl ⟨_, v, rfl, nofun, hsound, h⟩
  | case3 more n w e w' hr delay v hp w₁ hs =>
    obtain ⟨hsound, h⟩ := undone_of_policy hx hb hw hm hr hp
    obtain ⟨hsound, h⟩ := undone_of_sleep hsound h hs
    exact .inl ⟨_, w₁, rfl, nofun, hsound, h⟩
  | case4 more n w e w' hr delay v hp up w₁ hs e' hwake =>
    obtain ⟨hsound, h⟩ := undone_of_policy hx hb hw hm hr hp
    obtain ⟨hsound, h⟩ := undone_of_sleep hsound h hs
    exact .inl ⟨_, w₁, rfl, nofun, hsound, h⟩
  | case5 n w e w' hr delay v hp up w₁ hs =>
    obtain ⟨hsound, h⟩ := undone_of_policy hx hb hw hm hr hp
    obtain ⟨hsound, h⟩ := undone_of_sleep hsound h hs
    exact .inl ⟨_, w₁, rfl, nofun, hsound, h⟩
  | case6 n w e w' hr delay v hp up w₁ hs =>
    rename_i ih
    obtain ⟨hsound, h⟩ := undone_of_policy hx hb hw hm hr hp
    obtain ⟨hsound, h⟩ := undone_of_sleep hsound h hs
    rcases ih hsound (Nat.le_trans hm h.size_le) with
      ⟨r, w₂, hr, hno, hsound, h'⟩ | ⟨a, w₂, u, v₁, qs, hr, hsound, h', hrest⟩
    · exact .inl ⟨r, w₂, hr, hno, hsound, h.trans h'⟩
    · exact .inr ⟨a, w₂, u, v₁, qs, hr, hsound, h.trans h', hrest⟩

/-- What a call that gave `r` has done, or one that sleeps on if there is no result. -/
structure Atomic (x : Executor ρ Overlay) (body : Body ρ Overlay α) (w : World ρ)
    (r : Option (Except Error α)) (w' : World ρ) : Prop where
  sound : w'.Sound
  returns : w.coordinator.Returns w'.coordinator
  /-- All attempts but the last were undone, and the last one committed. -/
  ok : ∀ a, r = some (.ok a) →
    w'.coordinator.stats.committed = w.coordinator.stats.committed + 1 ∧
    ∃ u v qs, x.Undone w u ∧ x.attempt body u = (.ok a, w') ∧ x.Commits body u v qs a w'
  /-- All attempts were undone: who begins later reads what was there before, also behind what
  others have installed since. -/
  failed : (∀ a, r ≠ some (.ok a)) → x.Undone w w' ∧ ∀ i < w.site.tables.size,
    (∀ key us, w'.coordinator.horizon.Agrees (us ++ (w'.table i).versions key)
      (us ++ (w.table i).versions key)) ∧
    (∀ key,
      (w'.table i).get w'.coordinator.begin.1 key = (w.table i).get w.coordinator.begin.1 key) ∧
    ∀ start,
      (w'.table i).scan w'.coordinator.begin.1 start = (w.table i).scan w.coordinator.begin.1 start

theorem retry_atomic (hx : x.Binds m) (hb : body.Works) (hw : w.Sound)
    (hm : m ≤ w.site.tables.size) (stop : Signal × ρ → Bool) (more n : Nat) :
    x.Atomic body w (x.retry stop body more n w).1 (x.retry stop body more n w).2 := by
  rcases retry_cases hx hb hw hm stop more n with
    ⟨r, w', hr, hno, hsound, h⟩ | ⟨a, w', u, v, qs, hr, hsound, h, hattempt, hcommits⟩
  · rw [hr]
    refine ⟨hsound, h.returns, fun a ha => absurd ha (hno a), fun _ => ⟨h, fun i hi => ?_⟩⟩
    have hget := h.get_eq hw hsound hi
    exact ⟨fun key us => (h.agrees i hi key).append us, hget, Table.scan_congr hget⟩
  · rw [hr]
    refine ⟨hsound, h.returns.trans hcommits.returns, fun b hb => ?_, fun hno =>
      absurd rfl (hno a)⟩
    cases hb
    exact ⟨hcommits.committed.trans (by rw [h.committed]), u, v, qs, h, hattempt, hcommits⟩

/-- What holds of a call whose sleeps a token ends. -/
theorem executeWith_atomic (hx : x.Binds m) (hb : body.Works) (hw : w.Sound)
    (hm : m ≤ w.site.tables.size) (token : ρ → Signal) :
    x.Atomic body w (x.executeWith token body w).1 (x.executeWith token body w).2 :=
  retry_atomic hx hb hw hm ..

/-- A call commits what its body wrote, once, or it leaves every table as it was for those who come
after it.  No transaction is left running, holds a reservation or is invalidated. -/
theorem execute_atomic (hx : x.Binds m) (hb : body.Works) (hw : w.Sound)
    (hm : m ≤ w.site.tables.size) :
    x.Atomic body w (x.execute body w).1 (x.execute body w).2 :=
  retry_atomic hx hb hw hm ..

/-- Makes attempts up to number `most`, each with an overlay of the second table between two of the
first. -/
def trying (most : Nat) : Executor Unit Overlay where
  bind w := (.ok ([0, 1, 0].map Overlay.ofTable), w)
  policy _ n w := (if n < most then some 1 else none, w)
  meanwhile := .quiet

theorem binds_trying (most : Nat) : (trying most).Binds 2 where
  bind w r v hm h := by
    cases h
    refine ⟨.of_eq rfl rfl, fun ps hps => ⟨[0, 1, 0], fun i hi => ?_, (Except.ok.inj hps).symm⟩⟩
    have hlt : ∀ i ∈ [0, 1, 0], i < 2 := by decide
    exact Nat.lt_of_lt_of_le (hlt i hi) hm
  policy e n w r v h := by
    cases h
    exact ⟨rfl, rfl⟩

theorem sound_halting : World.halting.Sound := by
  refine World.sound_new () fun i => ?_
  rw [Site.rows_table]
  match i with
  | 0 => rfl
  | 1 => rfl
  | n + 2 => rfl

/-- The world after a failed attempt whose overlays are all put back. -/
theorem attempt_of_rollback {ps qs rs : List Overlay} {results : List (Except Error Unit)}
    {e : Error} {tx : Transaction} {c : Coordinator} (hbind : x.bind w = (.ok ps, v))
    (hsteps : steps v.coordinator.begin.1 body ps { v with coordinator := v.coordinator.begin.2 } =
      (.error e, qs, u))
    (hroll : actAll Participant.rollback qs u = (results, rs, w'))
    (hresults : ∀ r ∈ results, r = .ok ())
    (habort : w'.coordinator.abort v.coordinator.begin.1 = .ok (tx, c)) :
    x.attempt body w = (.error e, reclaim rs { w' with coordinator := c }) := by
  simp only [attempt, hbind, hsteps, fail_of_rollback hroll hresults habort]

/-- An attempt after one that failed. -/
theorem retry_of_error {stop : Signal × ρ → Bool} {more n delay : Nat} {e : Error}
    (hr : x.attempt body w = (.error e, w')) (hp : x.policy e n w' = (some delay, u))
    (hs : x.meanwhile.sleep stop delay u = (some false, v)) :
    x.retry stop body (more + 1) n w = x.retry stop body more (n + 1) v := by
  rw [retry, hr]
  simp only [hp, hs]
  rfl

/-- The first table has the row when the journal of the second fails, and then it has not.  Another
attempt, if there is one, commits. -/
theorem execute_atomic_of_halting :
    (((trying 1).execute (.writeAll [7] [8]) World.halting).1.map (·.isOk) = some false ∧
      (trying 1).Atomic (.writeAll [7] [8]) World.halting
        ((trying 1).execute (.writeAll [7] [8]) World.halting).1
        ((trying 1).execute (.writeAll [7] [8]) World.halting).2) ∧
    ((trying 2).execute (.writeAll [7] [8]) World.halting).1 = some (.ok ()) ∧
    (trying 2).Atomic (.writeAll [7] [8]) World.halting
      ((trying 2).execute (.writeAll [7] [8]) World.halting).1
      ((trying 2).execute (.writeAll [7] [8]) World.halting).2 := by
  have h : ∀ most, (trying most).Atomic (.writeAll [7] [8]) World.halting
      ((trying most).execute (.writeAll [7] [8]) World.halting).1
      ((trying most).execute (.writeAll [7] [8]) World.halting).2 := fun most =>
    execute_atomic (binds_trying most) (Body.works_writeAll _ _) sound_halting (by decide)
  refine ⟨⟨by decide +kernel, h 1⟩, ?_, h 2⟩
  let w : World Unit := { World.halting with coordinator := World.halting.coordinator.begin.2 }
  let s := steps World.halting.coordinator.begin.1 (.writeAll [7] [8])
    ([0, 1, 0].map Overlay.ofTable) w
  have hfailed : s.1.isOk = false := by decide +kernel
  obtain ⟨e, he⟩ : ∃ e, s.1 = .error e := by
    cases hr : s.1 with
    | error e => exact ⟨e, rfl⟩
    | ok a => simp [hr, Except.isOk, Except.toBool] at hfailed
  have hattempt := attempt_of_rollback (x := trying 2) rfl (Prod.ext he rfl) rfl
    (by decide +kernel)
    (Coordinator.abort_of_erase_eq rfl (Std.ExtTreeSet.isEmpty_iff.1 (by decide +kernel)))
  have hmore : mostAttempts - 1 = (mostAttempts - 2) + 1 := rfl
  rw [execute, hmore, retry_of_error hattempt rfl
    (Meanwhile.sleep_quiet (by decide +kernel) (by decide +kernel))]
  decide +kernel

end Executor

end NamespaceCatalog
