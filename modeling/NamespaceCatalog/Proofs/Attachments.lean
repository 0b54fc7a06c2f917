import Mathlib.Logic.Function.Basic
import NamespaceCatalog.Proofs.Undoing

/-!
# Handles that serve another transaction

A participant may be a handle of an overlay that several work with.  An executor that enlists a
handle while the overlay serves another transaction cannot start it, and then rolls back all that it
enlisted: also that overlay.  `attempt_of_serving` says exactly what becomes of the other
transaction.  What it wrote is lost where, and only where, a handle of it was enlisted: from the
overlay, and from the table if it was installed.  The coordinator knows nothing of this, so that the
other transaction can go on and commit.
-/

namespace NamespaceCatalog

/-! ## Handles -/

/-- The overlays that are shared, by their numbers. -/
abbrev Overlays := Nat → Overlay

/-- Who has a handle works with the overlay of that number. -/
structure Handle where
  number : Nat
  deriving DecidableEq

namespace World

variable {w : World Overlays} {g h : Handle} {x : Overlay}

/-- The overlay of a handle. -/
def overlay (w : World Overlays) (h : Handle) : Overlay := w.extra h.number

/-- Puts an overlay back. -/
def putOverlay (w : World Overlays) (h : Handle) (x : Overlay) : World Overlays :=
  { w with extra := Function.update w.extra h.number x }

@[simp] theorem overlay_putOverlay_self : (w.putOverlay h x).overlay h = x :=
  Function.update_self ..

theorem overlay_putOverlay_of_ne (hne : g ≠ h) : (w.putOverlay h x).overlay g = w.overlay g :=
  Function.update_of_ne (fun e => hne (congrArg Handle.mk e)) ..

@[simp] theorem putOverlay_overlay (w : World Overlays) (h : Handle) :
    w.putOverlay h (w.overlay h) = w := by
  unfold putOverlay overlay
  rw [Function.update_eq_self]

end World

namespace Handle

variable {β : Type}

/-- Lets the overlay act. -/
def use (f : Overlay → World Overlays → β × Overlay × World Overlays) (h : Handle)
    (w : World Overlays) : β × Handle × World Overlays :=
  let (b, x, w) := f (w.overlay h) w
  (b, h, w.putOverlay h x)

instance : Participant Overlays Handle where
  start tx := use (Participant.start tx)
  changes := use Participant.changes
  commit := use Participant.commit
  post h w := (use (fun x w => ((), Participant.post x w)) h w).2
  rollback := use Participant.rollback
  reclaim g h w := (use (fun x w => ((), Participant.reclaim g x w)) h w).2

end Handle

/-! ## Rolling back -/

namespace Overlay

/-- Did the overlay install in the table `i` what the transaction `n` wrote? -/
def installedBy (x : Overlay) (i : TableId) (n : TxId) : Bool :=
  x.table = i && x.installed && x.tx.any (·.id = n)

theorem installedBy_of_ne {x : Overlay} {i : TableId} (h : x.table ≠ i) (n : TxId) :
    x.installedBy i n = false := by
  simp [installedBy, h]

@[simp] theorem installedBy_release (x : Overlay) (i : TableId) (n : TxId) :
    x.release.installedBy i n = false := by
  simp [installedBy, release, ofTable]

@[simp] theorem installedBy_attached (tx : Transaction) (i j : TableId) (n : TxId) :
    (attached tx i).installedBy j n = false := by
  simp [installedBy, attached, ofTable]

theorem versions_rollback (x : Overlay) (t : Table) (key : Bytes) :
    (x.rollback t).2.versions key =
      (t.versions key).filter fun v => !x.installedBy x.table v.writer := by
  unfold rollback installedBy
  split
  · next tx htx hi =>
    rw [Table.versions_revert]
    refine List.filter_congr fun v _ => ?_
    simp [htx, hi, eq_comm]
  · next hnot =>
    refine (List.filter_eq_self.2 fun v _ => ?_).symm
    cases htx : x.tx with
    | none => simp
    | some tx =>
      have hi : x.installed = false := by simpa using hnot tx htx
      simp [hi]

end Overlay

section Rollback

variable {ρ : Type}

theorem World.versions_of_size_le {w : World ρ} {i : TableId} (h : w.site.tables.size ≤ i)
    (key : Bytes) : (w.table i).versions key = [] := by
  unfold Table.versions table
  rw [Site.rows_table, Array.getElem?_eq_none h]
  rfl

theorem Overlay.rollback_eq (x : Overlay) (w : World ρ) :
    ∃ site, Participant.rollback x w = (.ok (), x.release, { w with site }) ∧
      ∀ i key, (World.table { w with site } i).versions key =
        ((w.table i).versions key).filter fun v => !x.installedBy i v.writer := by
  refine ⟨w.site.putTable x.table (x.rollback (w.table x.table)).2,
    congrArg (fun y => (Except.ok (), y, _)) (x.fst_rollback _), fun i key => ?_⟩
  refine (World.versions_putTable w x.table _ i key).trans ?_
  split
  · next e => rw [x.versions_rollback, e.1]
  · next hnot =>
    refine (List.filter_eq_self.2 fun v hv => ?_).symm
    by_cases e : x.table = i
    · have hsize : w.site.tables.size ≤ i := Nat.le_of_not_lt fun hlt => hnot ⟨e.symm, e ▸ hlt⟩
      rw [World.versions_of_size_le hsize] at hv
      cases hv
    · rw [installedBy_of_ne e]
      rfl

end Rollback

/-! ## Pruning -/

namespace Version

variable {h : Horizon} {n : TxId}

theorem filter_dropHidden (hn : h.isSettled n = false) (vs : List Version) :
    (dropHidden h vs).filter (·.writer = n) = vs.filter (·.writer = n) := by
  induction vs with
  | nil => rfl
  | cons v vs ih =>
    rw [dropHidden]
    split
    · rw [List.filter_cons, List.filter_cons, List.filter_filter]
      have hsame : ∀ u ∈ vs, (decide (u.writer = n) && !h.isSettled u.writer) =
          decide (u.writer = n) := by
        intro u _
        by_cases e : u.writer = n
        · simp [e, hn]
        · simp [e]
      rw [List.filter_congr hsame]
    · rw [List.filter_cons, List.filter_cons, ih]

theorem filter_dropLastDelete (hn : h.isSettled n = false) (vs : List Version) :
    (dropLastDelete h vs).filter (·.writer = n) = vs.filter (·.writer = n) := by
  obtain ⟨v, e, hd⟩ | ⟨e, -⟩ := dropLastDelete_cases h vs
  · have hv : v.writer ≠ n := by
      rintro rfl
      exact Bool.eq_false_iff.1 hn (isSettledDelete_iff.1 hd).2
    conv_rhs => rw [e, List.filter_append, List.filter_singleton, decide_eq_false hv]
    exact (List.append_nil _).symm
  · rw [e]

/-- A prune keeps all versions of a writer that is neither settled nor dead. -/
theorem filter_prune (hn : h.isSettled n = false) (hd : h.isDead n = false) (vs : List Version) :
    (prune h vs).filter (·.writer = n) = vs.filter (·.writer = n) := by
  rw [prune, filter_dropLastDelete hn, filter_dropHidden hn, List.filter_filter]
  refine List.filter_congr fun v _ => ?_
  by_cases e : v.writer = n
  · simp [e, hd]
  · simp [e]

end Version

namespace World

variable {ρ : Type} {w : World ρ} {g : Horizon} {n : TxId}

/-- All that the transaction wrote stays. -/
theorem filter_versions_reclaim (hn : w.coordinator.horizon.isSettled n = false)
    (hd : w.coordinator.horizon.isDead n = false) (ps : List Overlay) (i : TableId) (key : Bytes) :
    (((Executor.reclaim ps w).table i).versions key).filter (·.writer = n) =
      ((w.table i).versions key).filter (·.writer = n) := by
  have hall : ∀ (ps : List Overlay) (v : World ρ),
      (((actAll (fun (x : Overlay) v =>
        ((), Participant.reclaim w.coordinator.horizon x v)) ps v).2.2.table i).versions key).filter
          (·.writer = n) = ((v.table i).versions key).filter (·.writer = n) := by
    intro ps
    induction ps with
    | nil => exact fun _ => rfl
    | cons x ps ih =>
      refine fun v => (ih _).trans ?_
      rcases versions_putTable_prune v w.coordinator.horizon x.table i key with e | e
      · exact (congrArg _ e).trans (Version.filter_prune hn hd _)
      · exact congrArg _ e
  unfold Executor.reclaim
  split
  · rfl
  · exact hall ps w

theorem extra_reclaim (ps : List Overlay) (w : World ρ) :
    (Executor.reclaim ps w).extra = w.extra := by
  have hall : ∀ (ps : List Overlay) (v : World ρ),
      (actAll (fun (x : Overlay) v =>
        ((), Participant.reclaim w.coordinator.horizon x v)) ps v).2.2.extra = v.extra := by
    intro ps
    induction ps with
    | nil => exact fun _ => rfl
    | cons x ps ih => exact fun v => ih _
  unfold Executor.reclaim
  split
  · rfl
  · exact hall ps w

end World

namespace Handle

theorem reclaim_eq (g : Horizon) (h : Handle) (w : World Overlays) :
    Participant.reclaim g h w = (h, (Participant.reclaim g (w.overlay h) w).2) :=
  congrArg (h, ·) (World.putOverlay_overlay (Participant.reclaim g (w.overlay h) w).2 h)

/-- Handles reclaim what their overlays do. -/
theorem reclaim_all (hs : List Handle) (w : World Overlays) :
    Executor.reclaim hs w = Executor.reclaim (hs.map fun h => w.overlay h) w := by
  have hall : ∀ (g : Horizon) (hs : List Handle) (v : World Overlays), v.overlay = w.overlay →
      (actAll (fun (h : Handle) v => ((), Participant.reclaim g h v)) hs v).2.2 =
        (actAll (fun (x : Overlay) v => ((), Participant.reclaim g x v))
          (hs.map fun h => w.overlay h) v).2.2 := by
    intro g hs
    induction hs with
    | nil => exact fun _ _ => rfl
    | cons h hs ih =>
      intro v hv
      show (actAll _ hs (Participant.reclaim g h v).2).2.2 =
        (actAll _ _ (Participant.reclaim g (w.overlay h) v).2).2.2
      rw [reclaim_eq g h v, hv]
      exact ih _ hv
  unfold Executor.reclaim
  rw [List.isEmpty_map]
  split
  · rfl
  · exact hall _ hs w rfl

end Handle

/-! ## An attempt that cannot start -/

section Attempt

variable {v w : World Overlays} {enlisted hs : List Handle} {h : Handle} {tx : Transaction}

namespace Handle

/-- Is the overlay in the world `w` what it was in `v`, or was it enlisted, free, and started the
transaction? -/
def Starts (h : Handle) (enlisted : List Handle) (tx : Transaction) (v w : World Overlays) : Prop :=
  w.overlay h = v.overlay h ∨ h ∈ enlisted ∧ (v.overlay h).tx = none ∧
    w.overlay h = .attached tx (v.overlay h).table

theorem Starts.table_eq (hw : h.Starts enlisted tx v w) :
    (w.overlay h).table = (v.overlay h).table := by
  rcases hw with e | ⟨-, -, e⟩ <;> rw [e]
  rfl

theorem Starts.release_eq (hw : h.Starts enlisted tx v w) :
    (w.overlay h).release = (v.overlay h).release :=
  congrArg Overlay.ofTable hw.table_eq

theorem Starts.installedBy_eq (hw : h.Starts enlisted tx v w) (i : TableId) (n : TxId) :
    (w.overlay h).installedBy i n = (v.overlay h).installedBy i n := by
  rcases hw with e | ⟨-, hv, e⟩
  · rw [e]
  · rw [e, Overlay.installedBy_attached]
    simp [Overlay.installedBy, hv]

theorem start_of_none (hx : (w.overlay h).tx = none) :
    Participant.start tx h w = (.ok (), h, w.putOverlay h (.attached tx (w.overlay h).table)) := by
  simp only [Participant.start, use, Overlay.start, hx]
  rfl

theorem start_of_some {a : Transaction} (hx : (w.overlay h).tx = some a) :
    Participant.start tx h w = (.error (.invalidOperation
      (.alreadyAttached (w.table (w.overlay h).table).name a.id)), h, w) := by
  simp only [Participant.start, use, Overlay.start, hx, World.putOverlay_overlay]

end Handle

/-- In the world `w`, some of the overlays that were enlisted in `v` have started. -/
structure Starting (v : World Overlays) (enlisted : List Handle) (tx : Transaction)
    (w : World Overlays) : Prop where
  coordinator : w.coordinator = v.coordinator
  site : w.site = v.site
  starts : ∀ h : Handle, h.Starts enlisted tx v w

theorem Starting.start (hw : Starting v enlisted tx w) (hh : h ∈ enlisted)
    (hx : (w.overlay h).tx = none) : (v.overlay h).tx = none ∧
    Starting v enlisted tx (w.putOverlay h (.attached tx (w.overlay h).table)) := by
  have hnone : (v.overlay h).tx = none := by
    rcases hw.starts h with e | ⟨-, e, -⟩
    · exact e ▸ hx
    · exact e
  refine ⟨hnone, { hw with starts := fun g => ?_ }⟩
  unfold Handle.Starts
  by_cases e : g = h
  · subst e
    rw [World.overlay_putOverlay_self, (hw.starts g).table_eq]
    exact .inr ⟨hh, hnone, rfl⟩
  · rw [World.overlay_putOverlay_of_ne e]
    exact hw.starts g

/-- A handle refuses if its overlay serves a transaction, which may be this one. -/
theorem Starting.start_all (hw : Starting v enlisted tx w) (hsub : ∀ h ∈ hs, h ∈ enlisted) :
    (∃ u, actUntil (Participant.start tx) hs w = (.ok (), hs, u) ∧
      ∀ h ∈ hs, (v.overlay h).tx = none) ∨
    ∃ g ∈ hs, ∃ a u, actUntil (Participant.start tx) hs w = (.error (.invalidOperation
        (.alreadyAttached (v.table (v.overlay g).table).name a.id)), hs, u) ∧
      Starting v enlisted tx u ∧ (a = tx ∨ (v.overlay g).tx = some a) := by
  induction hs generalizing w with
  | nil => exact .inl ⟨w, rfl, nofun⟩
  | cons h hs ih =>
    cases hx : (w.overlay h).tx with
    | some a =>
      refine .inr ⟨h, List.mem_cons_self, a, w, ?_, hw, ?_⟩
      · rw [actUntil, Handle.start_of_some hx, (hw.starts h).table_eq, World.table, hw.site]
        rfl
      · rcases hw.starts h with e | ⟨-, -, e⟩
        · exact .inr (e ▸ hx)
        · rw [e] at hx
          exact .inl (Option.some.inj hx).symm
    | none =>
      obtain ⟨hnone, hnext⟩ := hw.start (hsub h List.mem_cons_self) hx
      rw [actUntil, Handle.start_of_none hx]
      rcases ih hnext fun g hg => hsub g (List.mem_cons_of_mem h hg) with
        ⟨u, hu, hfree⟩ | ⟨g, hg, a, u, hu, hmore⟩
      · exact .inl ⟨u, by simp only [hu], List.forall_mem_cons.2 ⟨hnone, hfree⟩⟩
      · exact .inr ⟨g, List.mem_cons_of_mem h hg, a, u, by simp only [hu], hmore⟩

/-- Did an overlay of the handles install in the table `i` what the transaction `n` wrote? -/
def World.installedBy (v : World Overlays) (hs : List Handle) (i : TableId) (n : TxId) : Bool :=
  hs.any fun h => (v.overlay h).installedBy i n

/-- The versions of a row that no overlay of the handles installed. -/
def World.left (v : World Overlays) (hs : List Handle) (i : TableId) (key : Bytes) :
    List Version :=
  ((v.table i).versions key).filter fun z => !v.installedBy hs i z.writer

/-- In the world `w`, the handles were rolled back, whatever transactions they served in `v`. -/
structure RolledBack (v : World Overlays) (enlisted : List Handle) (tx : Transaction)
    (hs : List Handle) (w : World Overlays) : Prop where
  coordinator : w.coordinator = v.coordinator
  released : ∀ h ∈ hs, w.overlay h = (v.overlay h).release
  others : ∀ h, h ∉ hs → h.Starts enlisted tx v w
  versions : ∀ i key, (w.table i).versions key = v.left hs i key

theorem Starting.rolledBack_nil (hw : Starting v enlisted tx w) :
    RolledBack v enlisted tx [] w where
  coordinator := hw.coordinator
  released := nofun
  others h _ := hw.starts h
  versions i key := by
    rw [World.table, hw.site]
    exact (List.filter_eq_self.2 fun _ _ => rfl).symm

theorem RolledBack.rollback (hw : RolledBack v enlisted tx hs w) (h : Handle) :
    ∃ u, Participant.rollback h w = (.ok (), h, u) ∧
      RolledBack v enlisted tx (hs ++ [h]) u := by
  obtain ⟨site, hsite, hversions⟩ := (w.overlay h).rollback_eq w
  have hrelease : (w.overlay h).release = (v.overlay h).release := by
    by_cases hmem : h ∈ hs
    · rw [hw.released h hmem]
      rfl
    · exact (hw.others h hmem).release_eq
  -- A handle that is rolled back once more withdraws nothing.
  have hinstalled : ∀ i n, (v.installedBy hs i n || (w.overlay h).installedBy i n) =
      v.installedBy (hs ++ [h]) i n := by
    intro i n
    unfold World.installedBy
    rw [List.any_append, List.any_cons, List.any_nil, Bool.or_false]
    by_cases hmem : h ∈ hs
    · rw [hw.released h hmem, Overlay.installedBy_release, Bool.or_false, eq_comm,
        Bool.or_eq_left_iff_imp]
      exact fun hi => List.any_eq_true.2 ⟨h, hmem, hi⟩
    · rw [(hw.others h hmem).installedBy_eq]
  refine ⟨World.putOverlay { w with site } h (v.overlay h).release, ?_, ?_⟩
  · show Handle.use Participant.rollback h w = _
    simp only [Handle.use, hsite, hrelease]
  · refine ⟨hw.coordinator, fun g hg => ?_, fun g hg => ?_, fun i key => ?_⟩
    · by_cases e : g = h
      · rw [e]
        exact World.overlay_putOverlay_self
      · rw [World.overlay_putOverlay_of_ne e]
        exact hw.released g ((List.mem_append.1 hg).resolve_right fun h => e (by simpa using h))
    · have hne : g ≠ h := by
        rintro rfl
        exact hg (List.mem_append_right _ List.mem_cons_self)
      unfold Handle.Starts
      rw [World.overlay_putOverlay_of_ne hne]
      exact hw.others g fun hmem => hg (List.mem_append_left _ hmem)
    · refine (hversions i key).trans ?_
      rw [hw.versions, World.left, List.filter_filter]
      refine List.filter_congr fun z _ => ?_
      rw [← hinstalled, Bool.not_or, Bool.and_comm]

/-- Rolling back always works, so that the transaction is aborted. -/
theorem Starting.fail (hw : Starting v enlisted tx w) (htx : tx.state = .active)
    (hs : List Handle) :
    ∃ u tx' c, RolledBack v enlisted tx hs u ∧ v.coordinator.abort tx = .ok (tx', c) ∧
      Executor.fail tx hs w = (hs, { u with coordinator := c }) := by
  obtain ⟨rs, ps, u, hroll, hrs, rfl, hu⟩ := actAll_cases (f := Participant.rollback)
    (I := fun done todo u => done ++ todo = hs ∧ RolledBack v enlisted tx done u)
    (Q := (· = .ok ()))
    (fun done h todo u r g u' ⟨hlist, hu⟩ hf => by
      obtain ⟨u'', hroll, hu'⟩ := hu.rollback h
      cases hf.symm.trans hroll
      exact ⟨rfl, by simpa using hlist, hu'⟩)
    (l := []) ⟨rfl, hw.rolledBack_nil⟩
  rw [List.append_nil, List.nil_append] at *
  obtain ⟨tx', c, hc⟩ : ∃ tx' c, v.coordinator.abort tx = .ok (tx', c) := by
    simp [Coordinator.abort, Transaction.checkActive, htx]
  have habort : u.coordinator.abort tx = .ok (tx', c) := by rw [hu.coordinator, hc]
  exact ⟨u, tx', c, hu, hc, Executor.fail_of_rollback hroll hrs habort⟩

end Attempt

/-! ## What becomes of the other transaction -/

namespace Coordinator

variable {c : Coordinator} {n : Nat}

/-- The coordinator after its next transaction was begun and aborted. -/
def passOver (c : Coordinator) : Coordinator :=
  { c.begin.2 with stats :=
      { c.begin.2.stats with aborted := c.begin.2.stats.aborted + 1 } }.finish c.next

theorem mem_inProgress_passOver (hn : n ≠ c.next) :
    n ∈ c.passOver.inProgress ↔ n ∈ c.inProgress := by
  rw [passOver, inProgress_finish, Std.ExtTreeSet.mem_erase]
  simp [begin, Std.ExtTreeSet.mem_insert, hn.symm]

theorem getElem?_reserved_passOver (hn : n ≠ c.next) :
    c.passOver.reserved[n]? = c.reserved[n]? := by
  rw [passOver, reserved_finish, Std.ExtTreeMap.getElem?_erase]
  simp [begin, hn.symm]

theorem isOk_commit_passOver {a : Transaction} (ha : a.id ≠ c.next) :
    (c.passOver.commit a).isOk = (c.commit a).isOk := by
  have hcheck : c.passOver.checkRunning a = c.checkRunning a := by
    unfold checkRunning
    have := mem_inProgress_passOver ha
    rw [← Std.ExtTreeSet.contains_iff_mem, ← Std.ExtTreeSet.contains_iff_mem,
      ← Bool.eq_iff_iff] at this
    rw [this]
  unfold commit
  rw [hcheck]
  split <;> rfl

end Coordinator

/-- Is this the number of a running transaction? -/
structure World.Runs {ρ : Type} (v : World ρ) (n : TxId) : Prop where
  ne_base : n ≠ TxId.base
  lt : n < v.coordinator.next
  mem : n ∈ v.coordinator.inProgress
  valid : n ∉ v.coordinator.invalid

variable {α : Type} {x : Executor Overlays Handle} {v w u : World Overlays} {hs : List Handle}
  {tx : Transaction}

theorem Executor.attempt_of_start_error {ρ π : Type} [Participant ρ π] (x : Executor ρ π)
    {body : Body ρ π α} {w v u u' : World ρ} {ps qs rs : List π} {e : Error}
    (hbind : x.bind w = (.ok ps, v))
    (hstart : actUntil (Participant.start v.coordinator.begin.1) ps v.beginning = (.error e, qs, u))
    (hfail : Executor.fail v.coordinator.begin.1 qs u = (rs, u')) :
    x.attempt body w = (.error e, reclaim rs u') := by
  have hstart : actUntil (Participant.start v.coordinator.begin.1) ps
      { v with coordinator := v.coordinator.begin.2 } = (.error e, qs, u) := hstart
  simp only [attempt, hbind, steps, hstart, hfail]

/-- The tables drop only what nobody needs, and nothing that a running transaction wrote. -/
theorem RolledBack.reclaim (hu : RolledBack v hs tx hs u) (c : Coordinator) :
    ∃ u', Executor.reclaim hs { u with coordinator := c } = u' ∧ u'.coordinator = c ∧
      (∀ h : Handle, u'.overlay h =
        if h ∈ hs then (v.overlay h).release else v.overlay h) ∧
      (∀ i key, ((u'.table i).versions key).Sublist (v.left hs i key) ∧
        c.horizon.Agrees ((u'.table i).versions key) (v.left hs i key)) ∧
      ∀ n, c.horizon.isSettled n = false → c.horizon.isDead n = false → ∀ i key,
        ((u'.table i).versions key).filter (·.writer = n) =
          if v.installedBy hs i n then []
          else ((v.table i).versions key).filter (·.writer = n) := by
  refine ⟨_, rfl, ?_⟩
  rw [Handle.reclaim_all]
  have hprunes := World.prunes_reclaim (hs.map fun h => u.overlay h)
    { u with coordinator := c }
  refine ⟨hprunes.coordinator, fun h => ?_, fun i key => ?_, fun n hn hd i key => ?_⟩
  · rw [World.overlay, World.extra_reclaim]
    split
    · next hmem => exact hu.released h hmem
    · next hmem => exact (hu.others h hmem).resolve_right fun he => hmem he.1
  · rw [← hu.versions]
    exact ⟨hprunes.sublist i key, hprunes.agrees i key⟩
  · rw [World.filter_versions_reclaim hn hd]
    refine (congrArg _ (hu.versions i key)).trans ?_
    rw [World.left, List.filter_filter]
    split
    · next hi =>
      refine List.filter_eq_nil_iff.2 fun z _ hz => ?_
      simp only [Bool.and_eq_true, decide_eq_true_eq, Bool.not_eq_true'] at hz
      rw [hz.1, hi] at hz
      exact Bool.noConfusion hz.2
    · next hi =>
      refine List.filter_congr fun z _ => ?_
      by_cases e : z.writer = n
      · simp [e, hi]
      · simp [e]

/-- An attempt that enlists a handle whose overlay serves a transaction fails, and all overlays
that it enlisted are rolled back, whatever they served; the others stay as they are.  The tables
lose the versions that overlays which were enlisted had installed, and besides only what no reader
after that needs.  A running transaction therefore loses all it wrote to a table if it installed it
by an overlay that was enlisted, and nothing of it otherwise; and it commits, or is refused, as it
would have been before. -/
theorem attempt_of_serving (hbind : x.bind w = (.ok hs, v))
    (hserves : ∃ h ∈ hs, (v.overlay h).tx.isSome) (body : Body Overlays Handle α) :
    ∃ e u, x.attempt body w = (.error e, u) ∧
      (∃ g ∈ hs, ∃ a,
        e = .invalidOperation (.alreadyAttached (v.table (v.overlay g).table).name a.id) ∧
        (a = v.coordinator.begin.1 ∨ (v.overlay g).tx = some a)) ∧
      (∀ h : Handle, u.overlay h =
        if h ∈ hs then (v.overlay h).release else v.overlay h) ∧
      (∀ i key, ((u.table i).versions key).Sublist (v.left hs i key) ∧
        u.coordinator.horizon.Agrees ((u.table i).versions key) (v.left hs i key)) ∧
      ∀ a : Transaction, v.Runs a.id → u.Runs a.id ∧
        (∀ i key, ((u.table i).versions key).filter (·.writer = a.id) =
          if v.installedBy hs i a.id then []
          else ((v.table i).versions key).filter (·.writer = a.id)) ∧
        u.coordinator.reserved[a.id]? = v.coordinator.reserved[a.id]? ∧
        (u.coordinator.commit a).isOk = (v.coordinator.commit a).isOk := by
  have hstart : Starting v.beginning hs v.coordinator.begin.1 v.beginning :=
    ⟨rfl, rfl, fun k => .inl rfl⟩
  rcases hstart.start_all fun _ hh => hh with ⟨-, -, hfree⟩ | ⟨g, hg, a, u₁, hu₁, hstart, ha⟩
  · obtain ⟨h, hh, hserves⟩ := hserves
    rw [show (v.overlay h).tx = none from hfree h hh] at hserves
    cases hserves
  · obtain ⟨u₂, tx', c, hu₂, habort, hfail⟩ := hstart.fail rfl hs
    obtain rfl : v.coordinator.passOver = c := congrArg Prod.snd (Except.ok.inj habort)
    obtain ⟨u, hu, hc, hextra, hversions, hrunning⟩ := hu₂.reclaim v.coordinator.passOver
    refine ⟨_, u, hu ▸ x.attempt_of_start_error hbind hu₁ hfail, ⟨g, hg, a, rfl, ha⟩, hextra,
      fun i key => ?_, fun b hb => ?_⟩
    · rw [hc]
      exact hversions i key
    · have hne : b.id ≠ v.coordinator.next := Nat.ne_of_lt hb.lt
      have hmem := (Coordinator.mem_inProgress_passOver hne).2 hb.mem
      have hvalid : b.id ∉ v.coordinator.passOver.invalid := by
        rw [Coordinator.passOver, Coordinator.invalid_finish]
        exact hb.valid
      have hsettled : v.coordinator.passOver.horizon.isSettled b.id = false := by
        rw [Bool.eq_false_iff, Ne, Coordinator.isSettled_horizon]
        rintro (e | ⟨-, ⟨hrun, -⟩, -⟩)
        · exact hb.ne_base e
        · exact hrun hmem
      have hdead : v.coordinator.passOver.horizon.isDead b.id = false := by
        rw [Bool.eq_false_iff, Ne, Coordinator.isDead_horizon]
        exact hvalid
      rw [hc]
      refine ⟨⟨hb.ne_base, ?_, hc ▸ hmem, hc ▸ hvalid⟩, hrunning b.id hsettled hdead,
        Coordinator.getElem?_reserved_passOver hne, Coordinator.isOk_commit_passOver hne⟩
      rw [hc, Coordinator.passOver, Coordinator.next_finish]
      exact Nat.lt_succ_of_lt hb.lt

/-- All overlays are of one table, and the first serves a transaction that has installed a row and
is about to commit. -/
def World.aboutToCommit : World Overlays :=
  let w : World Overlays := World.new ⟨Disk.empty, #[], #[⟨Table.inMemory "t", none⟩]⟩
    fun _ => Overlay.ofTable 0
  let (tx, coordinator) := w.coordinator.begin
  let writes : List RowWrite := [([10], some [1])]
  let buffer := Std.ExtTreeMap.ofList writes
  let x := { Overlay.attached tx 0 with buffer }
  let (_, coordinator) := coordinator.reserve tx (.ofList (x.changes (w.table 0)))
  (Participant.commit (⟨0⟩ : Handle) ({ w with coordinator }.putOverlay ⟨0⟩ x)).2.2

/-- Enlists a free overlay, and the first. -/
def Executor.enlistsFirst : Executor Overlays Handle :=
  ⟨fun w => (.ok [⟨1⟩, ⟨0⟩], w), fun _ _ w => (none, w), .quiet⟩

/-- The transaction of the first overlay can still commit, but its row is gone. -/
theorem attempt_of_serving_first :
    let v := World.aboutToCommit
    let body : Body Overlays Handle Unit := fun hs w => (.ok (), hs, w)
    let tx := Coordinator.new.begin.1
    (v.overlay ⟨0⟩).tx = some tx ∧ (v.table 0).versions [10] = [⟨1, some [1]⟩] ∧
    ∃ e u, Executor.enlistsFirst.attempt body v = (.error e, u) ∧ (u.overlay ⟨0⟩).tx = none ∧
      (u.table 0).versions [10] = [] ∧ (u.coordinator.commit tx).isOk = true := by
  intro v body tx
  have htx : (v.overlay ⟨0⟩).tx = some tx := by decide +kernel
  refine ⟨htx, by decide +kernel, ?_⟩
  obtain ⟨e, u, hu, -, hoverlays, hversions, hrunning⟩ :=
    attempt_of_serving (rfl : Executor.enlistsFirst.bind v = (.ok [⟨1⟩, ⟨0⟩], v))
      ⟨⟨0⟩, by decide, by rw [htx]; rfl⟩ body
  have hleft : v.left [⟨1⟩, ⟨0⟩] 0 [10] = [] := by decide +kernel
  have hruns : v.Runs tx.id := ⟨by decide, by decide +kernel, by decide +kernel, by decide +kernel⟩
  refine ⟨e, u, hu, by rw [hoverlays]; rfl, ?_, ?_⟩
  · exact List.sublist_nil.1 (hleft ▸ (hversions 0 [10]).1)
  · rw [(hrunning tx hruns).2.2.2]
    decide +kernel

end NamespaceCatalog
