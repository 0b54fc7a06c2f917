import Mathlib.Data.List.Induction
import Mathlib.Data.List.Nodup
import NamespaceCatalog.Proofs.Annals
import NamespaceCatalog.Proofs.Scene

/-!
# Snapshots and horizons

What a snapshot shows is told by the commit numbers: of all writers that are known it shows those
that committed with a number below that of its transaction (`Transaction.Views`).  A horizon tells
by them who is settled: a writer that committed before every running transaction began
(`Chronicle.Settles`, `isSettled_horizon_iff`).  `Chronicle.Effect` says what a request does to the
transactions that run and to the invalid ones, and so what becomes of a writer (`knows_serve`).

All this needs that only running transactions are invalidated (`Chronicle.Orderly`): a transaction
that committed and is invalidated after it is lost to those who begin then.  `Chronicle.Lawful` holds
after every such run, and `lawful_induction` carries whatever a request keeps to the end of it.
-/

namespace NamespaceCatalog

/-! ## What a coordinator knows of a writer -/

namespace Coordinator

variable {c : Coordinator} {w : Nat}

theorem isSettled_horizon :
    c.horizon.isSettled w ↔ w = TxId.base ∨
      w < c.next ∧ (w ∉ c.inProgress ∧ w ∉ c.recent) ∧ w ∉ c.invalid := by
  simp only [Horizon.isSettled, horizon, Bool.or_eq_true, Bool.and_eq_true, decide_eq_true_eq,
    Bool.not_eq_true', Bool.eq_false_iff, Ne, Std.ExtTreeSet.contains_iff_mem,
    Std.ExtTreeSet.mem_insertMany_list, List.contains_iff_mem, Std.ExtTreeMap.mem_keys, not_or,
    and_assoc]
  exact or_congr_right (and_congr_left' decide_eq_true_iff)

theorem isDead_horizon : c.horizon.isDead w ↔ w ∈ c.invalid :=
  Std.ExtTreeSet.contains_iff_mem

theorem mem_excluded_begin : w ∈ c.begin.1.excluded ↔ w ∈ c.inProgress ∨ w ∈ c.invalid := by
  simp [begin, Std.ExtTreeSet.mem_toList]

end Coordinator

namespace Chronicle

variable {c d : Chronicle} {r : Request} {w : Nat}

theorem Advances.knows (h : Advances c d) (hw : d.Knows w) :
    c.Knows w ∨ c.coordinator.next ≤ w := by
  obtain ⟨later, e, hlater⟩ := h.commits
  rcases hw with hw | ⟨k, hk, rfl⟩ | hw | hw
  · exact .inl (.inl hw)
  · rw [e] at hk
    rcases List.mem_append.1 hk with hk | hk
    · exact .inl (.inr (.inl ⟨k, hk, rfl⟩))
    · exact .inl (.inr (.inr (.inl (hlater k hk).1)))
  · exact (h.running w hw).imp_left fun hw => .inr (.inr (.inl hw))
  · exact .inl (.inr (.inr (h.invalid w hw).symm))

/-! ## What a request does -/

/-- What a request does to the transactions that run and to those that are invalid. -/
inductive Effect (c d : Chronicle) : Request → Prop
  | begin
    (run : ∀ i : Nat, i ∈ d.coordinator.inProgress ↔
      i = c.coordinator.next ∨ i ∈ c.coordinator.inProgress)
    (invalid : d.coordinator.invalid = c.coordinator.invalid) : Effect c d .begin
  | commit {tx : Transaction}
    (run : ∀ i : Nat, i ∈ d.coordinator.inProgress ↔ i ≠ tx.id ∧ i ∈ c.coordinator.inProgress)
    (invalid : d.coordinator.invalid = c.coordinator.invalid)
    (commits : ∃ k ∈ d.commits, k.id = tx.id) : Effect c d (.commit tx)
  | abort {tx : Transaction} (active : tx.isActive)
    (run : ∀ i : Nat, i ∈ d.coordinator.inProgress ↔ i ≠ tx.id ∧ i ∈ c.coordinator.inProgress)
    (invalid : d.coordinator.invalid = c.coordinator.invalid) : Effect c d (.abort tx)
  | invalidate {tx : Transaction}
    (run : ∀ i : Nat, i ∈ d.coordinator.inProgress ↔ i ≠ tx.id ∧ i ∈ c.coordinator.inProgress)
    (invalid : ∀ i : Nat, i ∈ d.coordinator.invalid ↔ i = tx.id ∨ i ∈ c.coordinator.invalid) :
    Effect c d (.invalidate tx)
  | forget {ids : List TxId}
    (run : d.coordinator.inProgress = c.coordinator.inProgress)
    (invalid : ∀ i : Nat, i ∈ d.coordinator.invalid ↔ i ∈ c.coordinator.invalid ∧ i ∉ ids) :
    Effect c d (.forgetInvalid ids)
  /-- The request was refused, or asked for a reservation. -/
  | nothing {r : Request}
    (run : d.coordinator.inProgress = c.coordinator.inProgress)
    (invalid : d.coordinator.invalid = c.coordinator.invalid) : Effect c d r

theorem serve_abort_of_not_active {tx : Transaction} (h : ¬ tx.isActive) :
    c.serve (.abort tx) = c := by
  obtain ⟨id, pointer, excluded, state⟩ := tx
  cases state with
  | active => exact absurd rfl h
  | committed | aborted | invalidated => rfl

theorem effect_serve (c : Chronicle) (r : Request) : Effect c (c.serve r) r := by
  cases r with
  | begin => exact .begin (fun i => Inv.mem_begin) rfl
  | reserve tx changes =>
    obtain ⟨e, -⟩ | ⟨_, _, e⟩ := Coordinator.reserve_cases c.coordinator tx changes
    all_goals
      rw [serve, e]
      exact .nothing rfl rfl
  | commit tx =>
    obtain ⟨stats, e, -⟩ | ⟨_, e⟩ := Coordinator.commit_cases c.coordinator tx
    · rw [serve, e]
      refine .commit (fun i => Coordinator.mem_finish) (Coordinator.invalid_finish _ _) ?_
      exact ⟨_, List.mem_append_right _ (List.mem_singleton.2 rfl), rfl⟩
    · rw [serve, e]
      exact .nothing rfl rfl
  | abort tx =>
    by_cases ht : tx.isActive
    · obtain ⟨stats, e⟩ | ⟨_, e⟩ := Coordinator.abort_cases c.coordinator tx
      · rw [serve, e]
        exact .abort ht (fun i => Coordinator.mem_finish) (Coordinator.invalid_finish _ _)
      · rw [serve, e]
        exact .nothing rfl rfl
    · rw [serve_abort_of_not_active ht]
      exact .nothing rfl rfl
  | invalidate tx =>
    refine .invalidate (fun i => Coordinator.mem_finish) fun i => ?_
    show i ∈ (Coordinator.finish _ tx.id).invalid ↔ _
    rw [Coordinator.invalid_finish, Std.ExtTreeSet.mem_insert, Nat.compare_eq_eq, eq_comm]
  | forgetInvalid ids => exact .forget rfl fun i => Coordinator.mem_eraseMany

namespace Effect

/-- Only a request to invalidate it makes a transaction invalid. -/
theorem of_mem_invalid (h : Effect c d r) (hw : w ∈ d.coordinator.invalid) :
    w ∈ c.coordinator.invalid ∨ ∃ tx, r = .invalidate tx ∧ tx.id = w := by
  cases h with
  | begin _ invalid | commit _ invalid | abort _ _ invalid | nothing _ invalid =>
    exact .inl (invalid ▸ hw)
  | @invalidate tx _ invalid => exact ((invalid w).1 hw).symm.imp_right fun e => ⟨tx, rfl, e.symm⟩
  | forget _ invalid => exact .inl ((invalid w).1 hw).1

/-- Only those run that ran before, and who begins. -/
theorem of_mem_inProgress (h : Effect c d r) (hw : w ∈ d.coordinator.inProgress) :
    w ∈ c.coordinator.inProgress ∨ r = .begin ∧ w = c.coordinator.next := by
  cases h with
  | begin run => exact ((run w).1 hw).symm.imp_right fun e => ⟨rfl, e⟩
  | commit run | abort _ run | invalidate run => exact .inl ((run w).1 hw).2
  | forget run | nothing run => exact .inl (run ▸ hw)

/-- What is invalid stays so until it is forgotten. -/
theorem invalid (h : Effect c d r) (hw : w ∈ c.coordinator.invalid) :
    w ∈ d.coordinator.invalid ∨ ∃ ids, r = .forgetInvalid ids ∧ w ∈ ids := by
  cases h with
  | begin _ invalid | commit _ invalid | abort _ _ invalid | nothing _ invalid =>
    exact .inl (invalid ▸ hw)
  | invalidate _ invalid => exact .inl ((invalid w).2 (.inr hw))
  | @forget ids _ invalid =>
    by_cases hm : w ∈ ids
    · exact .inr ⟨ids, rfl, hm⟩
    · exact .inl ((invalid w).2 ⟨hw, hm⟩)

/-- What runs goes on until it commits, is aborted or becomes invalid. -/
theorem running (h : Effect c d r) (hw : w ∈ c.coordinator.inProgress) :
    w ∈ d.coordinator.inProgress ∨ (∃ k ∈ d.commits, k.id = w) ∨ w ∈ d.coordinator.invalid ∨
      ∃ tx, r = .abort tx ∧ tx.isActive ∧ tx.id = w := by
  cases h with
  | begin run => exact .inl ((run w).2 (.inr hw))
  | @commit tx run _ commits =>
    by_cases e : w = tx.id
    · exact .inr (.inl (e ▸ commits))
    · exact .inl ((run w).2 ⟨e, hw⟩)
  | @abort tx active run =>
    by_cases e : w = tx.id
    · exact .inr (.inr (.inr ⟨tx, rfl, active, e.symm⟩))
    · exact .inl ((run w).2 ⟨e, hw⟩)
  | @invalidate tx run invalid =>
    by_cases e : w = tx.id
    · exact .inr (.inr (.inl ((invalid w).2 (.inl e))))
    · exact .inl ((run w).2 ⟨e, hw⟩)
  | forget run | nothing run => exact .inl (run ▸ hw)

end Effect

/-- A writer that is known stays so, unless it is aborted while it runs, or forgotten while it is
invalid. -/
theorem knows_serve (hw : c.Knows w) (r : Request) :
    (c.serve r).Knows w ∨
      (∃ tx, r = .abort tx ∧ tx.isActive ∧ tx.id = w ∧ w ∈ c.coordinator.inProgress) ∨
      ∃ ids, r = .forgetInvalid ids ∧ w ∈ ids ∧ w ∈ c.coordinator.invalid := by
  have effect := effect_serve c r
  rcases hw with hw | ⟨k, hk, e⟩ | hw | hw
  · exact .inl (.inl hw)
  · obtain ⟨-, later, hcommits, -⟩ := exists_commits_serve c r
    refine .inl (.inr (.inl ⟨k, ?_, e⟩))
    rw [hcommits]
    exact List.mem_append_left later hk
  · rcases effect.running hw with h | h | h | ⟨tx, hr, ht, hid⟩
    · exact .inl (.inr (.inr (.inl h)))
    · exact .inl (.inr (.inl h))
    · exact .inl (.inr (.inr (.inr h)))
    · exact .inr (.inl ⟨tx, hr, ht, hid, hw⟩)
  · rcases effect.invalid hw with h | ⟨ids, hr, hm⟩
    · exact .inl (.inr (.inr (.inr h)))
    · exact .inr (.inr ⟨ids, hr, hm, hw⟩)

theorem Knows.serve (hw : c.Knows w) (habort : ∀ tx, r ≠ .abort tx)
    (hforget : ∀ ids, r = .forgetInvalid ids → w ∉ ids) : (c.serve r).Knows w := by
  rcases knows_serve hw r with h | ⟨tx, e, -⟩ | ⟨ids, e, hm, -⟩
  · exact h
  · exact absurd e (habort tx)
  · exact absurd hm (hforget ids e)

/-! ## Runs that invalidate only running transactions -/

/-- May the request be made by those who invalidate only running transactions? -/
def Allows (c : Chronicle) (r : Request) : Prop :=
  ∀ tx, r = .invalidate tx → tx.id ∈ c.coordinator.inProgress

/-- What holds after a run in which only running transactions are invalidated. -/
structure Lawful (c : Chronicle) : Prop where
  inv : c.Inv
  invalid : ∀ w : Nat, w ∈ c.coordinator.invalid → 0 < w ∧ w < c.coordinator.next ∧
    w ∉ c.coordinator.inProgress ∧ ∀ k ∈ c.commits, k.id ≠ w

theorem lawful_new : Lawful new where
  inv := inv_new
  invalid w hw := by simp [new, Coordinator.new] at hw

/-- Whoever is over and did not commit will not commit later. -/
theorem Advances.over (h : Advances c d)
    (hw : 0 < w ∧ w < c.coordinator.next ∧ w ∉ c.coordinator.inProgress ∧
      ∀ k ∈ c.commits, k.id ≠ w) :
    0 < w ∧ w < d.coordinator.next ∧ w ∉ d.coordinator.inProgress ∧ ∀ k ∈ d.commits, k.id ≠ w := by
  obtain ⟨hpos, hlt, hrun, hcommits⟩ := hw
  obtain ⟨later, e, hlater⟩ := h.commits
  have hnext := h.next_le
  refine ⟨hpos, by omega, fun hm => ?_, fun k hk => ?_⟩
  · rcases h.running w hm with hm | hm
    · exact hrun hm
    · omega
  · rw [e] at hk
    rcases List.mem_append.1 hk with hk | hk
    · exact hcommits k hk
    · rintro rfl
      exact hrun (hlater k hk).1

theorem Lawful.serve (h : Lawful c) (hr : c.Allows r) : Lawful (c.serve r) where
  inv := h.inv.serve r
  invalid w hw := by
    rcases (effect_serve c r).of_mem_invalid hw with hw | ⟨tx, rfl, rfl⟩
    · exact (advances_serve c r hr).over (h.invalid w hw)
    · have hm := hr tx rfl
      obtain ⟨hpos, hlt⟩ := h.inv.running _ hm
      refine ⟨hpos, ?_, fun hm => (Coordinator.mem_finish.1 hm).1 rfl, fun k hk e => ?_⟩
      · exact Nat.lt_of_lt_of_le hlt (advances_serve c _ hr).next_le
      · exact (h.inv.fresh k hk).1 (e ▸ hm)

end Chronicle

/-! ## What a snapshot shows -/

/-- Does the transaction see, of all known writers, itself and those that committed with a smaller
number than its own? -/
structure Transaction.Views (tx : Transaction) (c : Chronicle) : Prop where
  id_lt : tx.id < c.coordinator.next
  readPointer : tx.readPointer < tx.id
  sees : ∀ w, c.Knows w → w ≠ tx.id → tx.sees w = c.isBefore tx.id w

namespace Transaction.Views

variable {c d : Chronicle} {tx : Transaction}

/-- A snapshot stays as it is. -/
theorem advance (h : tx.Views c) (hc : c.Inv) (hcd : c.Advances d) : tx.Views d where
  id_lt := Nat.lt_of_lt_of_le h.id_lt hcd.next_le
  readPointer := h.readPointer
  sees w hw hne := by
    have hlt := h.id_lt
    rw [hcd.isBefore_eq (Nat.le_of_lt hlt)]
    rcases hcd.knows hw with hw | hw
    · exact h.sees w hw hne
    · -- a writer that came after the snapshot
      have hlater : tx.id < w := Nat.lt_of_lt_of_le hlt hw
      have hpos : 0 < w := Nat.zero_lt_of_lt hlater
      rw [Chronicle.isBefore_eq_false hpos fun k hk e => ?_]
      · rw [Bool.eq_false_iff, Ne, Transaction.sees_iff]
        rintro (e | e | ⟨hle, -⟩)
        · exact Nat.ne_of_gt hpos e
        · exact hne e
        · exact Nat.not_le.2 (Nat.lt_trans h.readPointer hlater) hle
      · have := hc.numbers k hk
        omega

/-- Whoever begins sees just what committed before. -/
theorem of_begin (h : c.Lawful) : c.coordinator.begin.1.Views (c.serve .begin) where
  id_lt := Nat.lt_succ_self _
  readPointer := Nat.sub_lt h.inv.next_pos Nat.one_pos
  sees w hw hne := by
    have unseen : 0 < w → w ∈ c.coordinator.begin.1.excluded →
        c.coordinator.begin.1.sees w = false := by
      intro hpos hw
      rw [Bool.eq_false_iff, Ne, Transaction.sees_iff]
      rintro (e | e | ⟨-, hnot⟩)
      · exact Nat.ne_of_gt hpos e
      · exact hne e
      · exact hnot hw
    change c.coordinator.begin.1.sees w = c.isBefore c.coordinator.next w
    rcases hw with rfl | ⟨k, hk, rfl⟩ | hr | hi
    · rw [(Transaction.sees_iff _ _).2 (.inl rfl), Chronicle.isBefore_iff.2 (.inl rfl)]
    · obtain ⟨-, hid, hp⟩ := h.inv.numbers k hk
      obtain ⟨hfresh, -⟩ := h.inv.fresh k hk
      have hle : k.id ≤ c.coordinator.next - 1 := Nat.le_sub_one_of_lt (Nat.lt_trans hid hp)
      have hnot : k.id ∉ c.coordinator.begin.1.excluded := fun hm =>
        (Coordinator.mem_excluded_begin.1 hm).elim hfresh fun hm => (h.invalid _ hm).2.2.2 k hk rfl
      rw [(Transaction.sees_iff _ _).2 (.inr (.inr ⟨hle, hnot⟩))]
      exact (Chronicle.isBefore_iff.2 (.inr ⟨k, hk, rfl, hp⟩)).symm
    · have hr : w ∈ c.coordinator.inProgress := (Chronicle.Inv.mem_begin.1 hr).resolve_left hne
      rw [h.inv.isBefore_of_running hr]
      exact unseen (h.inv.running w hr).1 (Coordinator.mem_excluded_begin.2 (.inl hr))
    · obtain ⟨hpos, -, -, hcommits⟩ := h.invalid w hi
      rw [Chronicle.isBefore_eq_false hpos hcommits]
      exact unseen hpos (Coordinator.mem_excluded_begin.2 (.inr hi))

end Transaction.Views

namespace Chronicle

variable {c d : Chronicle} {r : Request} {w : Nat}

theorem Lawful.lt_of_knows (h : c.Lawful) (hw : c.Knows w) : w < c.coordinator.next := by
  rcases hw with rfl | ⟨k, hk, rfl⟩ | hw | hw
  · exact h.inv.next_pos
  · have := h.inv.numbers k hk
    omega
  · exact (h.inv.running w hw).2
  · exact (h.invalid w hw).2.1

/-- Who begins next sees all that committed. -/
theorem Lawful.sees_begin_iff (h : c.Lawful) (hw : c.Knows w) :
    c.coordinator.begin.1.sees w ↔ w = TxId.base ∨ ∃ k ∈ c.commits, k.id = w := by
  have hknown : (c.serve .begin).Knows w :=
    hw.imp_right (.imp_right (.imp_left fun hr => Inv.mem_begin.2 (.inr hr)))
  rw [(Transaction.Views.of_begin h).sees w hknown (Nat.ne_of_lt (h.lt_of_knows hw)), isBefore_iff]
  refine or_congr_right (exists_congr fun k => and_congr_right fun hk => and_iff_left ?_)
  exact (h.inv.numbers k hk).2.2

/-- A transaction commits once. -/
theorem Inv.eq_of_id_eq (h : c.Inv) {k l : Commit} (hk : k ∈ c.commits) (hl : l ∈ c.commits)
    (e : k.id = l.id) : k = l :=
  List.inj_on_of_nodup_map (List.pairwise_map.2 (h.precedes.imp Precedes.id_ne)) hk hl e

/-! ## Who is settled -/

/-- Is `w` seen by every transaction that runs, and by every one that will begin?  It is if it
committed before all those began that run; the number of a writer that was aborted or forgotten is
not looked at any more. -/
def Settles (c : Chronicle) (w : Nat) : Prop :=
  w = TxId.base ∨ w ∉ c.coordinator.inProgress ∧ w ∉ c.coordinator.invalid ∧
    w < c.coordinator.next ∧
      ∀ k ∈ c.commits, k.id = w → ∀ i : Nat, i ∈ c.coordinator.inProgress → k.pointer < i

theorem Settles.advance (h : c.Settles w) (hc : c.Inv) (hcd : c.Advances d) : d.Settles w := by
  obtain ⟨later, e, hlater⟩ := hcd.commits
  have hnext := hcd.next_le
  refine h.imp_right fun ⟨hrun, hinvalid, hlt, hbefore⟩ => ⟨?_, ?_, ?_, ?_⟩
  · intro hm
    rcases hcd.running w hm with hm | hm
    · exact hrun hm
    · omega
  · exact fun hm => (hcd.invalid w hm).elim hinvalid hrun
  · omega
  · rintro k hk rfl i hi
    rw [e] at hk
    rcases List.mem_append.1 hk with hk | hk
    · rcases hcd.running i hi with hi | hi
      · exact hbefore k hk rfl i hi
      · exact Nat.lt_of_lt_of_le (hc.numbers k hk).2.2 hi
    · exact absurd (hlater k hk).1 hrun

/-- Who is known and settled has committed. -/
theorem Settles.exists_commit (h : c.Settles w) (hw : c.Knows w) :
    w = TxId.base ∨ ∃ k ∈ c.commits, k.id = w := by
  rcases h with rfl | ⟨hrun, hinvalid, -⟩
  · exact .inl rfl
  · rcases hw with hw | hw | hw | hw
    · exact .inl hw
    · exact .inr hw
    · exact absurd hw hrun
    · exact absurd hw hinvalid

/-- A horizon keeps what it says when it is taken. -/
theorem Lawful.past_horizon (h : c.Lawful) : c.coordinator.horizon.Past c where
  settled w hw := by
    refine (Coordinator.isSettled_horizon.1 hw).imp_right fun ⟨hlt, ⟨hrun, hrecent⟩, hinvalid⟩ =>
      ⟨hrun, hinvalid, hlt, fun k hk e i hi => ?_⟩
    by_contra hle
    have hne : k.pointer ≠ i := fun e => (h.inv.fresh k hk).2 (e ▸ hi)
    have := h.inv.recent_kept k hk i hi (by omega)
    rw [e] at this
    exact hrecent (Std.ExtTreeMap.mem_iff_isSome_getElem?.2 (Option.isSome_of_eq_some this))
  dead w hw := h.invalid w (Coordinator.isDead_horizon.1 hw)

/-- A writer is recent as long as a transaction runs that began before its commit. -/
theorem mem_recent_iff {full : Coordinator} (h : Recalls c full) :
    w ∈ c.coordinator.recent ↔
      ∃ k ∈ c.commits, k.id = w ∧ ∃ i : Nat, i ∈ c.coordinator.inProgress ∧ i ≤ k.pointer := by
  rw [Std.ExtTreeMap.mem_iff_isSome_getElem?, Option.isSome_iff_exists, h.pruned]
  simp only [Coordinator.recent_prune_eq_some_iff, h.recent, Coordinator.inProgress_prune]
  constructor
  · rintro ⟨_, ⟨k, hk, rfl, rfl⟩, hi⟩
    exact ⟨k, hk, rfl, hi⟩
  · rintro ⟨k, hk, rfl, hi⟩
    exact ⟨k.pointer, ⟨k, hk, rfl, rfl⟩, hi⟩

/-- A horizon calls those settled that are. -/
theorem isSettled_horizon_iff {full : Coordinator} (h : Recalls c full) :
    c.coordinator.horizon.isSettled w ↔ c.Settles w := by
  have hrecent : w ∉ c.coordinator.recent ↔
      ∀ k ∈ c.commits, k.id = w → ∀ i : Nat, i ∈ c.coordinator.inProgress → k.pointer < i := by
    simp [mem_recent_iff h]
  rw [Coordinator.isSettled_horizon, hrecent]
  unfold Settles
  tauto

/-! ## Histories -/

theorem run_append (requests later : List Request) :
    run (requests ++ later) = later.foldl serve (run requests) := by
  rw [run, List.foldl_append]
  rfl

theorem run_concat (requests : List Request) (r : Request) :
    run (requests ++ [r]) = (run requests).serve r := run_append requests [r]

/-- Are only running transactions invalidated? -/
def Orderly (requests : List Request) : Prop :=
  ∀ earlier tx, earlier ++ [.invalidate tx] <+: requests →
    tx.id ∈ (run earlier).coordinator.inProgress

/-- Is `tx` a handle of a transaction that began?  A handle may have been used to finish it. -/
def Began (requests : List Request) (tx : Transaction) : Prop :=
  ∃ earlier state, earlier ++ [.begin] <+: requests ∧
    tx = { (run earlier).coordinator.begin.1 with state }

/-- Was the transaction aborted while it ran? -/
def Aborted (requests : List Request) (w : TxId) : Prop :=
  ∃ earlier tx, earlier ++ [.abort tx] <+: requests ∧ tx.isActive ∧ tx.id = w ∧
    w ∈ (run earlier).coordinator.inProgress

/-- Was the transaction invalidated and then forgotten? -/
def Forgotten (requests : List Request) (w : TxId) : Prop :=
  ∃ earlier ids, earlier ++ [.forgetInvalid ids] <+: requests ∧ w ∈ ids ∧
    w ∈ (run earlier).coordinator.invalid

/-- A transaction of which tables may hold versions: it began, and was neither aborted nor
forgotten. -/
structure Remains (requests : List Request) (w : TxId) : Prop where
  began : ∃ tx, Began requests tx ∧ tx.id = w
  not_aborted : ¬ Aborted requests w
  not_forgotten : ¬ Forgotten requests w

section Histories

variable {requests later : List Request} {tx : Transaction}

theorem concat_prefix_concat_iff {earlier : List Request} {q : Request} :
    earlier ++ [q] <+: requests ++ [r] ↔
      earlier ++ [q] <+: requests ∨ earlier = requests ∧ q = r := by
  rw [List.prefix_concat_iff]
  refine or_comm.trans (or_congr_right ?_)
  constructor
  · intro e
    obtain ⟨h, hq⟩ := List.append_inj' e rfl
    exact ⟨h, List.singleton_inj.1 hq⟩
  · rintro ⟨rfl, rfl⟩
    rfl

theorem Orderly.left (h : Orderly (requests ++ later)) : Orderly requests :=
  fun earlier tx he => h earlier tx (he.trans (List.prefix_append requests later))

theorem mem_of_prefix_concat {earlier : List Request} (h : earlier ++ [r] <+: requests) :
    r ∈ requests :=
  h.subset (List.mem_append_right earlier (List.mem_singleton.2 rfl))

theorem orderly_of_not_invalidate (h : ∀ tx, .invalidate tx ∉ requests) : Orderly requests :=
  fun _ tx he => absurd (mem_of_prefix_concat he) (h tx)

theorem Orderly.concat (h : Orderly requests) (hr : (run requests).Allows r) :
    Orderly (requests ++ [r]) := by
  intro earlier tx he
  rcases concat_prefix_concat_iff.1 he with he | ⟨rfl, rfl⟩
  · exact h earlier tx he
  · exact hr tx rfl

theorem Orderly.allows (h : Orderly (requests ++ [r])) : (run requests).Allows r := by
  rintro tx rfl
  exact h requests tx List.prefix_rfl

theorem Began.mono (h : Began requests tx) (hp : requests <+: later) : Began later tx := by
  obtain ⟨earlier, state, he, rfl⟩ := h
  exact ⟨earlier, state, he.trans hp, rfl⟩

theorem Aborted.mono (h : Aborted requests w) (hp : requests <+: later) :
    Aborted later w := by
  obtain ⟨earlier, tx, he, ht⟩ := h
  exact ⟨earlier, tx, he.trans hp, ht⟩

theorem Forgotten.mono (h : Forgotten requests w) (hp : requests <+: later) :
    Forgotten later w := by
  obtain ⟨earlier, ids, he, hi⟩ := h
  exact ⟨earlier, ids, he.trans hp, hi⟩

theorem lawful_run (h : Orderly requests) : (run requests).Lawful := by
  induction requests using List.reverseRecOn with
  | nil => exact lawful_new
  | append_singleton requests r ih =>
    rw [run_concat]
    exact (ih h.left).serve h.allows

/-- What holds at the start of an orderly run, and is kept by every request, holds at its end. -/
theorem lawful_induction {P : List Request → Prop} (h : Orderly (requests ++ later))
    (start : P requests)
    (step : ∀ between r, Orderly (between ++ [r]) → (run between).Lawful →
      (run between).Advances (run (between ++ [r])) → P between → P (between ++ [r])) :
    P (requests ++ later) := by
  induction later using List.reverseRecOn with
  | nil => rwa [List.append_nil]
  | append_singleton later r ih =>
    rw [← List.append_assoc] at h ⊢
    have hp : Orderly (requests ++ later) := h.left
    refine step _ _ h (lawful_run hp) ?_ (ih hp)
    rw [run_concat]
    exact advances_serve _ r h.allows

theorem Settles.run_append (hw : (run requests).Settles w) (h : Orderly (requests ++ later)) :
    (run (requests ++ later)).Settles w :=
  lawful_induction (P := fun requests => (run requests).Settles w) h hw
    fun _ _ _ hl adv hs => hs.advance hl.inv adv

/-- Whoever began sees what committed before it. -/
theorem views_of_began (h : Orderly requests) (ht : Began requests tx) :
    tx.Views (run requests) := by
  obtain ⟨earlier, state, ⟨later, rfl⟩, rfl⟩ := ht
  have hstart : Orderly (earlier ++ [.begin]) := h.left
  have hbegin := Transaction.Views.of_begin
    (lawful_run (hstart.left))
  rw [← run_concat] at hbegin
  -- a snapshot does not depend on how its transaction was finished
  refine lawful_induction (P := fun requests => Transaction.Views _ (run requests)) h
    ⟨hbegin.id_lt, hbegin.readPointer, hbegin.sees⟩ fun _ _ _ hl adv hv => hv.advance hl.inv adv

/-- Whoever began is known, unless it was aborted or forgotten. -/
theorem knows_of_began (ht : Began requests tx) :
    (run requests).Knows tx.id ∨ Aborted requests tx.id ∨ Forgotten requests tx.id := by
  obtain ⟨earlier, state, ⟨later, rfl⟩, rfl⟩ := ht
  induction later using List.reverseRecOn with
  | nil =>
    rw [List.append_nil, run_concat]
    exact .inl (.inr (.inr (.inl (Inv.mem_begin.2 (.inl rfl)))))
  | append_singleton later r ih =>
    rw [← List.append_assoc]
    have hp := List.prefix_append (earlier ++ [.begin] ++ later) [r]
    rcases ih with hw | hw | hw
    · rw [run_concat]
      rcases knows_serve hw r with hw | ⟨tx, rfl, ht, hid, hr⟩ | ⟨ids, rfl, hm, hi⟩
      · exact .inl hw
      · exact .inr (.inl ⟨_, tx, List.prefix_rfl, ht, hid, hr⟩)
      · exact .inr (.inr ⟨_, ids, List.prefix_rfl, hm, hi⟩)
    · exact .inr (.inl (hw.mono hp))
    · exact .inr (.inr (hw.mono hp))

theorem Remains.knows (hw : Remains requests w) : (run requests).Knows w := by
  obtain ⟨tx, ht, rfl⟩ := hw.began
  exact (knows_of_began ht).resolve_right
    fun h => h.elim hw.not_aborted hw.not_forgotten

theorem Remains.pos (hw : Remains requests w) (h : Orderly requests) : 0 < w := by
  obtain ⟨tx, ht, rfl⟩ := hw.began
  exact Nat.zero_lt_of_lt (views_of_began h ht).readPointer

/-- Whatever runs began. -/
theorem began_of_running {i : Nat} (hi : i ∈ (run requests).coordinator.inProgress) :
    ∃ tx, Began requests tx ∧ tx.id = i := by
  induction requests using List.reverseRecOn with
  | nil => simp [run, new, Coordinator.new] at hi
  | append_singleton requests r ih =>
    rw [run_concat] at hi
    rcases (effect_serve _ r).of_mem_inProgress hi with hi | ⟨rfl, rfl⟩
    · obtain ⟨tx, ht, hid⟩ := ih hi
      exact ⟨tx, ht.mono (List.prefix_append _ _), hid⟩
    · exact ⟨_, ⟨requests, .active, List.prefix_rfl, rfl⟩, rfl⟩

/-- What is invalid stays so until it is forgotten. -/
theorem mem_invalid_run_append (hw : w ∈ (run requests).coordinator.invalid) :
    w ∈ (run (requests ++ later)).coordinator.invalid ∨ Forgotten (requests ++ later) w := by
  induction later using List.reverseRecOn with
  | nil =>
    rw [List.append_nil]
    exact .inl hw
  | append_singleton later r ih =>
    rw [← List.append_assoc]
    rcases ih with hw | hw
    · rw [run_concat]
      rcases (effect_serve _ r).invalid hw with h | ⟨ids, rfl, hm⟩
      · exact .inl h
      · exact .inr ⟨_, ids, List.prefix_rfl, hm, hw⟩
    · exact .inr (hw.mono (List.prefix_append _ _))

/-- What was forgotten is over. -/
theorem not_invalid_of_forgotten (h : Orderly requests) (hw : Forgotten requests w) :
    w ∉ (run requests).coordinator.invalid := by
  obtain ⟨earlier, ids, ⟨later, rfl⟩, hm, hi⟩ := hw
  suffices w ∉ (run (earlier ++ [.forgetInvalid ids] ++ later)).coordinator.invalid ∧
      w ∉ (run (earlier ++ [.forgetInvalid ids] ++ later)).coordinator.inProgress ∧
      w < (run (earlier ++ [.forgetInvalid ids] ++ later)).coordinator.next from this.1
  have hearlier : Orderly earlier :=
    h.left.left
  obtain ⟨-, hlt, hrun, -⟩ := (lawful_run hearlier).invalid w hi
  refine lawful_induction (P := fun requests => w ∉ (run requests).coordinator.invalid ∧
    w ∉ (run requests).coordinator.inProgress ∧ w < (run requests).coordinator.next) h ?_ ?_
  · rw [run_concat]
    exact ⟨fun hm' => (Coordinator.mem_eraseMany.1 hm').2 hm, hrun, hlt⟩
  · rintro between r - - adv ⟨hinvalid, hrun, hlt⟩
    have hnext := adv.next_le
    refine ⟨fun hm => (adv.invalid w hm).elim hinvalid hrun, fun hm => ?_, by omega⟩
    rcases adv.running w hm with hm | hm
    · exact hrun hm
    · omega

theorem mem_commits_run_append {k : Commit} (hk : k ∈ (run requests).commits)
    (later : List Request) : k ∈ (run (requests ++ later)).commits := by
  obtain ⟨after, e, -⟩ := exists_commits_foldl later (run requests)
  rw [run_append, e]
  exact List.mem_append_left after hk

/-- A writer is settled if all who run see it, and all will who begin. -/
theorem settles_iff (h : Orderly requests) (hw : (run requests).Knows w) (hpos : 0 < w) :
    (run requests).Settles w ↔
      (∀ tx, Began requests tx → tx.id ∈ (run requests).coordinator.inProgress → tx.sees w) ∧
      ∀ later, Orderly (requests ++ later) →
        (run (requests ++ later)).coordinator.begin.1.sees w := by
  have hlawful := lawful_run h
  have hbase : w ≠ TxId.base := Nat.ne_of_gt hpos
  constructor
  · intro hs
    obtain ⟨hrun, -, -, hbefore⟩ := hs.resolve_left hbase
    obtain ⟨k, hk, rfl⟩ := (hs.exists_commit hw).resolve_left hbase
    refine ⟨fun tx ht hi => ?_, fun later hlater => ?_⟩
    · rw [(views_of_began h ht).sees _ hw fun e => hrun (e ▸ hi)]
      exact isBefore_iff.2 (.inr ⟨k, hk, rfl, hbefore k hk rfl _ hi⟩)
    · have hk := mem_commits_run_append hk later
      exact ((lawful_run hlater).sees_begin_iff (.inr (.inl ⟨k, hk, rfl⟩))).2 (.inr ⟨k, hk, rfl⟩)
  · rintro ⟨hrunning, hlater⟩
    have hnow := hlater [] (by rwa [List.append_nil])
    rw [List.append_nil] at hnow
    obtain ⟨k, hk, rfl⟩ := ((hlawful.sees_begin_iff hw).1 hnow).resolve_left hbase
    have hrun := (hlawful.inv.fresh k hk).1
    refine .inr ⟨hrun, fun hi => (hlawful.invalid _ hi).2.2.2 k hk rfl,
      hlawful.lt_of_knows hw, fun l hl e i hi => ?_⟩
    obtain ⟨tx, ht, rfl⟩ := began_of_running hi
    have hsees := hrunning tx ht hi
    rw [(views_of_began h ht).sees _ hw fun e => hrun (e ▸ hi)] at hsees
    obtain ⟨m, hm, hid, hlt⟩ := (isBefore_iff.1 hsees).resolve_left hbase
    rwa [hlawful.inv.eq_of_id_eq hl hm (e.trans hid.symm)]

/-- What is invalid is seen by no other transaction, as long as it is not forgotten. -/
theorem sees_eq_false_of_invalid (h : Orderly requests)
    (hw : w ∈ (run requests).coordinator.invalid) (ht : Began requests tx) (hne : tx.id ≠ w) :
    tx.sees w = false := by
  obtain ⟨hpos, -, -, hcommits⟩ := (lawful_run h).invalid w hw
  rw [(views_of_began h ht).sees w (.inr (.inr (.inr hw))) hne.symm]
  exact isBefore_eq_false hpos hcommits

/-- Snapshots and horizons tell the order of commits.  A transaction sees a writer that remains if
the writer is itself, or has a commit number below its own.  A horizon calls a writer settled if all
transactions that run see it and all that begin later will, and calls it dead only if no other one
sees it until it is forgotten.  What is settled stays so. -/
theorem snapshots_tell_commit_order (h : Orderly requests) :
    (∀ w tx, Remains requests w → Began requests tx →
      (tx.sees w ↔ w = tx.id ∨ ∃ k ∈ (run requests).commits, k.id = w ∧ k.pointer < tx.id)) ∧
    (∀ w, Remains requests w → ((run requests).coordinator.horizon.isSettled w ↔
      (∀ tx, Began requests tx → tx.id ∈ (run requests).coordinator.inProgress → tx.sees w) ∧
      ∀ later, Orderly (requests ++ later) →
        (run (requests ++ later)).coordinator.begin.1.sees w)) ∧
    (∀ w, (run requests).coordinator.horizon.isDead w →
      ¬ Forgotten requests w ∧
      ∀ later, Orderly (requests ++ later) → ¬ Forgotten (requests ++ later) w →
        ∀ tx, Began (requests ++ later) tx → tx.id ≠ w → tx.sees w = false) ∧
    ∀ w later, Orderly (requests ++ later) → (run requests).coordinator.horizon.isSettled w →
      (run (requests ++ later)).coordinator.horizon.isSettled w := by
  refine ⟨fun w tx hw ht => ?_, fun w hw => ?_, fun w hw => ?_, fun w later hlater hw => ?_⟩
  · by_cases e : w = tx.id
    · simp [e, Transaction.sees_iff]
    · have hbase : w ≠ TxId.base := Nat.ne_of_gt (hw.pos h)
      rw [(views_of_began h ht).sees w hw.knows e, isBefore_iff, or_iff_right hbase, or_iff_right e]
  · rw [isSettled_horizon_iff (recalls_run requests)]
    exact settles_iff h hw.knows (hw.pos h)
  · rw [Coordinator.isDead_horizon] at hw
    refine ⟨fun hf => not_invalid_of_forgotten h hf hw, fun later hlater hf tx ht hne => ?_⟩
    exact sees_eq_false_of_invalid hlater ((mem_invalid_run_append hw).resolve_right hf) ht hne
  · rw [isSettled_horizon_iff (recalls_run _)] at hw ⊢
    exact hw.run_append hlater

end Histories

/-- Of three that began together, the first commits and the second becomes invalid. -/
def overlapping : List Request :=
  [.begin, .begin, .begin, .commit ⟨1, 0, [], .active⟩, .invalidate ⟨2, 1, [1], .active⟩]

/-- The third does not see the first, which is not settled therefore; whoever begins next does not
see the second. -/
theorem unseen_beside_running :
    Orderly overlapping ∧ Remains overlapping 1 ∧
      (∃ k ∈ (run overlapping).commits, k.id = 1) ∧
      (run [.begin, .begin]).coordinator.begin.1.sees 1 = false ∧
      (run overlapping).coordinator.horizon.isSettled 1 = false ∧
      (run overlapping).coordinator.horizon.isDead 2 = true ∧
      (run overlapping).coordinator.begin.1.sees 2 = false := by
  have hrecalls := recalls_run overlapping
  have horderly : Orderly overlapping := by
    have hfirst : Orderly (overlapping.take 4) :=
      orderly_of_not_invalidate (by simp [overlapping])
    refine hfirst.concat ?_
    rintro tx ⟨⟩
    exact (recalls_run _).mem_inProgress.1 (by decide +kernel)
  have hremains : Remains overlapping 1 := by
    refine ⟨⟨new.coordinator.begin.1, ⟨[], .active, by simp [overlapping], rfl⟩, rfl⟩, ?_, ?_⟩
    · rintro ⟨earlier, tx, he, -⟩
      simpa [overlapping] using mem_of_prefix_concat he
    · rintro ⟨earlier, ids, he, -⟩
      simpa [overlapping] using mem_of_prefix_concat he
  have hthird : Began overlapping (run [.begin, .begin]).coordinator.begin.1 :=
    ⟨[.begin, .begin], .active, by simp [overlapping], rfl⟩
  have hcommit : ∀ pointer : Nat,
      (∃ k ∈ (run overlapping).commits, k.id = 1 ∧ k.pointer = pointer) ↔ 4 = pointer := by
    intro pointer
    rw [← hrecalls.recent, show (runFully overlapping).recent[1]? = some 4 by decide +kernel,
      Option.some_inj]
  obtain ⟨hsees, hsettled, hdead, -⟩ := snapshots_tell_commit_order horderly
  have hunseen : (run [.begin, .begin]).coordinator.begin.1.sees 1 = false := by
    rw [Bool.eq_false_iff]
    intro hs
    rcases (hsees 1 _ hremains hthird).1 hs with e | ⟨k, hk, hid, hlt⟩
    · exact absurd e (by decide)
    · rw [← (hcommit k.pointer).1 ⟨k, hk, hid, rfl⟩] at hlt
      exact absurd hlt (by decide)
  have hinvalid : (run overlapping).coordinator.horizon.isDead 2 = true := by
    rw [Coordinator.isDead_horizon, hrecalls.pruned, Coordinator.invalid_prune]
    decide +kernel
  refine ⟨horderly, hremains, ?_, hunseen, ?_, hinvalid, ?_⟩
  · obtain ⟨k, hk, hid, -⟩ := (hcommit 4).2 rfl
    exact ⟨k, hk, hid⟩
  · rw [Bool.eq_false_iff]
    intro hs
    have hrun := hrecalls.mem_inProgress.1
      (show (3 : Nat) ∈ (runFully overlapping).inProgress by decide +kernel)
    have := ((hsettled 1 hremains).1 hs).1 _ hthird hrun
    simp [hunseen] at this
  · refine (hdead 2 hinvalid).2 [.begin] (horderly.concat nofun) ?_ _
      ⟨overlapping, .active, List.prefix_rfl, rfl⟩ ?_
    · rintro ⟨earlier, ids, he, -⟩
      simpa [overlapping] using mem_of_prefix_concat he
    · show (run overlapping).coordinator.next ≠ 2
      rw [← hrecalls.next_eq]
      decide +kernel

end Chronicle

end NamespaceCatalog
