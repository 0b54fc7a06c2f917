import NamespaceCatalog.Proofs.Snapshot

/-!
# Readers

A horizon promises something about the readers that come after it: they see what is settled, and
nothing dead (`Transaction.Heeds`).  A transaction that begins keeps the promise of the moment
(`Coordinator.heeds_begin`).

`Horizon.Agrees` says that two lists of versions are one row to all such readers.  Pruning a row
keeps to it, and so does writing the same on top of both.

A coordinator comes back to where it was when a transaction is over that began in between
(`Coordinator.Returns`): what was settled stays settled, and whoever begins now sees of the earlier
writers what he would have seen then.
-/

namespace NamespaceCatalog

/-! ## Readers after a horizon -/

/-- Does the transaction see what is settled, and nothing dead? -/
structure Transaction.Heeds (tx : Transaction) (h : Horizon) : Prop where
  settled : ∀ w : Nat, h.isSettled w → tx.sees w
  dead : ∀ w : Nat, h.isDead w → tx.sees w = false

namespace Horizon

/-- Is everything that was settled settled later, and everything that was dead dead? -/
structure Until (h g : Horizon) : Prop where
  settled : ∀ w : Nat, h.isSettled w → g.isSettled w
  dead : ∀ w : Nat, h.isDead w → g.isDead w

/-- Are the two lists one row to every reader after the horizon? -/
def Agrees (h : Horizon) (vs ws : List Version) : Prop :=
  ∀ tx : Transaction, tx.Heeds h → Version.newest tx.sees vs = Version.newest tx.sees ws

variable {h g : Horizon} {us vs ws : List Version}

theorem Until.heeds (hg : h.Until g) {tx : Transaction} (htx : tx.Heeds g) : tx.Heeds h where
  settled w hw := htx.settled w (hg.settled w hw)
  dead w hw := htx.dead w (hg.dead w hw)

theorem Agrees.refl (h : Horizon) (vs : List Version) : h.Agrees vs vs := fun _ _ => rfl

theorem Agrees.trans (huv : h.Agrees us vs) (hvw : h.Agrees vs ws) : h.Agrees us ws :=
  fun tx htx => (huv tx htx).trans (hvw tx htx)

theorem Agrees.later (hvw : h.Agrees vs ws) (hg : h.Until g) : g.Agrees vs ws :=
  fun tx htx => hvw tx (hg.heeds htx)

/-- Versions that are added to both come first in both. -/
theorem Agrees.append (hvw : h.Agrees vs ws) (us : List Version) :
    h.Agrees (us ++ vs) (us ++ ws) := by
  intro tx htx
  induction us with
  | nil => exact hvw tx htx
  | cons u us ih => rw [List.cons_append, List.cons_append, Version.newest_cons,
      Version.newest_cons, ih]

theorem agrees_prune (h : Horizon) (vs : List Version) : h.Agrees (Version.prune h vs) vs := by
  intro tx htx
  apply Version.newest_prune
  · exact fun v _ hv => htx.settled v.writer hv
  · exact fun v _ hv => Bool.not_eq_true _ ▸ htx.dead v.writer hv

end Horizon

namespace Coordinator

variable {c : Coordinator}

/-- A transaction that begins sees what is settled, and nothing dead. -/
theorem heeds_begin (h : ∀ w : Nat, w ∈ c.invalid → 0 < w ∧ w < c.next) :
    c.begin.1.Heeds c.horizon where
  settled w hw := by
    rw [Transaction.sees_iff, mem_excluded_begin]
    rcases isSettled_horizon.1 hw with hw | ⟨hlt, ⟨hrun, -⟩, hinv⟩
    · exact .inl hw
    · refine .inr (.inr ⟨Nat.le_sub_one_of_lt hlt, ?_⟩)
      rintro (hw | hw)
      · exact hrun hw
      · exact hinv hw
  dead w hw := by
    have hw := isDead_horizon.1 hw
    obtain ⟨hpos, hlt⟩ := h w hw
    rw [Bool.eq_false_iff, Ne, Transaction.sees_iff, mem_excluded_begin]
    rintro (e | e | ⟨-, hn⟩)
    · exact Nat.ne_of_gt hpos e
    · exact Nat.ne_of_lt hlt e
    · exact hn (.inr hw)

end Coordinator

/-! ## The coordinator before and after -/

namespace Coordinator

variable {c d e : Coordinator}

/-- Is everything over that began since `c`, with nothing invalidated and nothing else touched? -/
structure Returns (c d : Coordinator) : Prop where
  next_le : c.next ≤ d.next
  inProgress : d.inProgress = c.inProgress
  reserved : d.reserved = c.reserved
  invalid : d.invalid = c.invalid
  recent : ∀ w : Nat, w ∈ d.recent → w ∈ c.recent ∨ c.next ≤ w
  invalidated : d.stats.invalidated = c.stats.invalidated
  committed_le : c.stats.committed ≤ d.stats.committed
  aborted_le : c.stats.aborted ≤ d.stats.aborted
  started : d.stats.started = c.stats.started +
    ((d.stats.committed - c.stats.committed) + (d.stats.aborted - c.stats.aborted))

namespace Returns

theorem refl (c : Coordinator) : c.Returns c where
  next_le := Nat.le_refl _
  inProgress := rfl
  reserved := rfl
  invalid := rfl
  recent _ hw := .inl hw
  invalidated := rfl
  committed_le := Nat.le_refl _
  aborted_le := Nat.le_refl _
  started := by omega

theorem trans (h : c.Returns d) (h' : d.Returns e) : c.Returns e where
  next_le := Nat.le_trans h.next_le h'.next_le
  inProgress := h'.inProgress.trans h.inProgress
  reserved := h'.reserved.trans h.reserved
  invalid := h'.invalid.trans h.invalid
  recent w hw := by
    rcases h'.recent w hw with hw | hw
    · exact h.recent w hw
    · exact .inr (Nat.le_trans h.next_le hw)
  invalidated := h'.invalidated.trans h.invalidated
  committed_le := Nat.le_trans h.committed_le h'.committed_le
  aborted_le := Nat.le_trans h.aborted_le h'.aborted_le
  started := by
    have := h.committed_le
    have := h.aborted_le
    have := h'.committed_le
    have := h'.aborted_le
    have := h.started
    have := h'.started
    omega

/-- What was settled or dead before still is. -/
theorem horizon (h : c.Returns d) : c.horizon.Until d.horizon where
  settled w hw := by
    rw [isSettled_horizon] at hw ⊢
    refine hw.imp_right ?_
    rintro ⟨hlt, ⟨hrun, hrecent⟩, hinv⟩
    refine ⟨Nat.lt_of_lt_of_le hlt h.next_le, ⟨h.inProgress ▸ hrun, fun hw => ?_⟩, h.invalid ▸ hinv⟩
    rcases h.recent w hw with hw | hw
    · exact hrecent hw
    · exact Nat.not_lt.2 hw hlt
  dead w hw := isDead_horizon.2 (h.invalid ▸ isDead_horizon.1 hw)

/-- Of the writers before it, a transaction that begins now sees what one saw that began then. -/
theorem sees_begin (h : c.Returns d) {w : Nat} (hw : w < c.next) :
    d.begin.1.sees w = c.begin.1.sees w := by
  have sees_iff : ∀ {c : Coordinator}, w < c.next →
      (c.begin.1.sees w ↔ w = TxId.base ∨ ¬ (w ∈ c.inProgress ∨ w ∈ c.invalid)) := by
    intro c hw
    rw [Transaction.sees_iff, mem_excluded_begin]
    have hne : w ≠ c.begin.1.id := Nat.ne_of_lt hw
    have hle : w ≤ c.begin.1.readPointer := Nat.le_sub_one_of_lt hw
    simp [hne, hle]
  rw [Bool.eq_iff_iff, sees_iff hw, sees_iff (Nat.lt_of_lt_of_le hw h.next_le), h.inProgress,
    h.invalid]

end Returns

theorem mem_recent_of_finish {id : TxId} {w : Nat} (h : w ∈ (c.finish id).recent) :
    w ∈ c.recent := by
  rw [finish_eq, Std.ExtTreeMap.mem_iff_isSome_getElem?, Option.isSome_iff_exists] at h
  obtain ⟨pointer, h⟩ := h
  have := (recent_prune_eq_some_iff.1 h).1
  exact Std.ExtTreeMap.mem_iff_isSome_getElem?.2 (Option.isSome_iff_exists.2 ⟨pointer, this⟩)

/-- Has the next transaction of `c` begun, and nothing else happened but its reservation? -/
structure Serving (c d : Coordinator) : Prop where
  next : d.next = c.next + 1
  inProgress : d.inProgress = c.inProgress.insert c.next
  reserved : d.reserved.erase c.next = c.reserved
  invalid : d.invalid = c.invalid
  recent : d.recent = c.recent
  started : d.stats.started = c.stats.started + 1
  committed : d.stats.committed = c.stats.committed
  aborted : d.stats.aborted = c.stats.aborted
  invalidated : d.stats.invalidated = c.stats.invalidated

theorem serving_begin (h : c.next ∉ c.reserved) : c.Serving c.begin.2 where
  next := rfl
  inProgress := rfl
  reserved := by
    refine Std.ExtTreeMap.ext_getElem? fun i => ?_
    rw [Std.ExtTreeMap.getElem?_erase]
    split
    · next e =>
      obtain rfl : c.next = i := Nat.compare_eq_eq.1 e
      exact (Std.ExtTreeMap.getElem?_eq_none h).symm
    · rfl
  invalid := rfl
  recent := rfl
  started := rfl
  committed := rfl
  aborted := rfl
  invalidated := rfl

namespace Serving

theorem mem (h : c.Serving d) : c.next ∈ d.inProgress := by
  rw [h.inProgress]
  exact Std.ExtTreeSet.mem_insert_self

theorem reserve (h : c.Serving d) (changes : ChangeSet) :
    c.Serving (d.reserve c.begin.1 changes).2 := by
  unfold Coordinator.reserve
  split
  · exact h
  · dsimp only
    split
    · exact { h with }
    · refine { h with reserved := ?_ }
      show (d.reserved.insert c.next changes).erase c.next = c.reserved
      rw [← h.reserved]
      refine Std.ExtTreeMap.ext_getElem? fun i => ?_
      simp only [Std.ExtTreeMap.getElem?_erase, Std.ExtTreeMap.getElem?_insert]
      split <;> rfl

theorem erase_inProgress (h : c.Serving d) (hrun : c.next ∉ c.inProgress) :
    d.inProgress.erase c.next = c.inProgress := by
  refine Std.ExtTreeSet.ext_mem fun i => ?_
  rw [h.inProgress, Std.ExtTreeSet.mem_erase, Std.ExtTreeSet.mem_insert, Ne, Nat.compare_eq_eq]
  constructor
  · rintro ⟨hne, hi | hi⟩
    · exact absurd hi hne
    · exact hi
  · intro hi
    exact ⟨fun e => hrun (e ▸ hi), .inr hi⟩

/-- The transaction can commit. -/
theorem commit (h : c.Serving d) (hrun : c.next ∉ c.inProgress) :
    ∃ pointer tx d', d.commit c.begin.1 = .ok (pointer, tx, d') ∧ c.Returns d' ∧
      d'.stats.committed = c.stats.committed + 1 ∧ c.next < d'.next := by
  have hcommitted := h.committed
  have haborted := h.aborted
  have hstarted := h.started
  have hnext := h.next
  have hlt : c.next < d.next + 1 := by omega
  refine ⟨_, _, _, commit_of_mem rfl h.mem, ?_, by simp [publish, h.committed],
    by simpa [publish] using hlt⟩
  exact {
    next_le := by simpa [publish] using Nat.le_of_lt hlt
    inProgress := (inProgress_finish _ _).trans (h.erase_inProgress hrun)
    reserved := (reserved_finish _ _).trans h.reserved
    invalid := (invalid_finish _ _).trans h.invalid
    recent := fun w hw => by
      have hw : w ∈ d.recent.insert c.next d.next := mem_recent_of_finish hw
      rw [Std.ExtTreeMap.mem_insert, Nat.compare_eq_eq, h.recent] at hw
      exact hw.symm.imp_right Nat.le_of_eq
    invalidated := by simp [publish, h.invalidated]
    committed_le := by simp [publish, h.committed]
    aborted_le := by simp [publish, h.aborted]
    started := by
      simp only [stats_finish, publish]
      omega }

/-- The transaction can be aborted. -/
theorem abort (h : c.Serving d) (hrun : c.next ∉ c.inProgress) :
    ∃ tx d', d.abort c.begin.1 = .ok (tx, d') ∧ c.Returns d' ∧
      d'.stats.committed = c.stats.committed := by
  have hcommitted := h.committed
  have haborted := h.aborted
  have hstarted := h.started
  have hnext := h.next
  refine ⟨_, _, rfl, ?_, by simp [h.committed]⟩
  exact {
    next_le := by
      simp only [next_finish]
      omega
    inProgress := (inProgress_finish _ _).trans (h.erase_inProgress hrun)
    reserved := (reserved_finish _ _).trans h.reserved
    invalid := (invalid_finish _ _).trans h.invalid
    recent := fun w hw => by
      have hw := mem_recent_of_finish hw
      exact .inl (h.recent ▸ hw)
    invalidated := by simp [h.invalidated]
    committed_le := by simp [h.committed]
    aborted_le := by simp [h.aborted]
    started := by
      simp only [stats_finish]
      omega }

end Serving

end Coordinator

end NamespaceCatalog
