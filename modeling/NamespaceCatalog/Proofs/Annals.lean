import NamespaceCatalog.Proofs.Chronicle

/-!
# Annals

A coordinator forgets the change sets and the writers that no running transaction can ask about any
more (`Coordinator.prune`).  Here it is held against one that forgets nothing: `answerFully` answers
a request as `answer` does, but ends transactions by `close`, which is `finish` without pruning.

`Recalls` ties the two together: at every moment the coordinator is the other one, pruned, and the
tables of the other one list all commits of the chronicle.  What was pruned began no later than
every running transaction, so that the search for conflicts does not look at it
(`conflicts_prune`).
-/

namespace NamespaceCatalog

/-- What a coordinator answers to a request. -/
inductive Answer
  | begun (tx : Transaction)
  | reserved (result : Except Error Unit)
  | committed (result : Except Error (Nat × Transaction))
  | aborted (result : Except Error Transaction)
  | invalidated (tx : Transaction)
  | forgot (count : Nat)

namespace Coordinator

variable {c : Coordinator}

/-- The answer to a request, and the coordinator after it, where transactions end in the ways
given. -/
def replyBy (commit : Coordinator → Transaction → Except Error (Nat × Transaction × Coordinator))
    (abort : Coordinator → Transaction → Except Error (Transaction × Coordinator))
    (invalidate : Coordinator → Transaction → Transaction × Coordinator) (c : Coordinator) :
    Request → Answer × Coordinator
  | .begin => (.begun c.begin.1, c.begin.2)
  | .reserve tx changes => (.reserved (c.reserve tx changes).1, (c.reserve tx changes).2)
  | .commit tx =>
    match commit c tx with
    | .ok (pointer, tx, d) => (.committed (.ok (pointer, tx)), d)
    | .error e => (.committed (.error e), c)
  | .abort tx =>
    match abort c tx with
    | .ok (tx, d) => (.aborted (.ok tx), d)
    | .error e => (.aborted (.error e), c)
  | .invalidate tx => (.invalidated (invalidate c tx).1, (invalidate c tx).2)
  | .forgetInvalid ids => (.forgot (c.forgetInvalid ids).1, (c.forgetInvalid ids).2)

/-- The answer of the coordinator to a request, and the coordinator after it. -/
def answer : Coordinator → Request → Answer × Coordinator := replyBy commit abort invalidate

/-! ## The coordinator that forgets nothing -/

/-- Ends a transaction, and keeps all that is known. -/
def close (c : Coordinator) (id : TxId) : Coordinator :=
  { c with inProgress := c.inProgress.erase id, reserved := c.reserved.erase id }

/-- Commits `tx` with the rows it reserved, and forgets nothing. -/
def commitFully (c : Coordinator) (tx : Transaction) :
    Except Error (Nat × Transaction × Coordinator) :=
  match c.checkRunning tx with
  | .error e => .error e
  | .ok () =>
    .ok (c.next, { tx with state := .committed },
      (c.publish tx.id { c.stats with committed := c.stats.committed + 1 }).close tx.id)

/-- Aborts `tx`, and forgets nothing. -/
def abortFully (c : Coordinator) (tx : Transaction) : Except Error (Transaction × Coordinator) :=
  match tx.checkActive with
  | .error e => .error e
  | .ok () =>
    let c := { c with stats := { c.stats with aborted := c.stats.aborted + 1 } }
    .ok ({ tx with state := .aborted }, c.close tx.id)

/-- Invalidates `tx`, and forgets nothing. -/
def invalidateFully (c : Coordinator) (tx : Transaction) : Transaction × Coordinator :=
  let c :=
    { c with
      invalid := c.invalid.insert tx.id
      stats :=
        { c.stats with
          aborted := c.stats.aborted + 1
          invalidated := c.stats.invalidated + 1 } }
  ({ tx with state := .invalidated }, c.close tx.id)

/-- The answer of the coordinator that never drops a change set or a writer. -/
def answerFully : Coordinator → Request → Answer × Coordinator :=
  replyBy commitFully abortFully invalidateFully

/-- The answers that `reply` gives to requests, the first of the list first. -/
def answers (reply : Coordinator → Request → Answer × Coordinator) :
    Coordinator → List Request → List Answer
  | _, [] => []
  | c, r :: rs => (reply c r).1 :: answers reply (reply c r).2 rs

/-! ## What pruning takes away -/

@[simp] theorem next_prune (c : Coordinator) : c.prune.next = c.next := by
  unfold prune
  split <;> rfl

@[simp] theorem inProgress_prune (c : Coordinator) : c.prune.inProgress = c.inProgress := by
  unfold prune
  split <;> rfl

@[simp] theorem reserved_prune (c : Coordinator) : c.prune.reserved = c.reserved := by
  unfold prune
  split <;> rfl

@[simp] theorem invalid_prune (c : Coordinator) : c.prune.invalid = c.invalid := by
  unfold prune
  split <;> rfl

@[simp] theorem stats_prune (c : Coordinator) : c.prune.stats = c.stats := by
  unfold prune
  split <;> rfl

theorem finish_eq (c : Coordinator) (id : TxId) : c.finish id = (c.close id).prune := rfl

theorem mem_close {i id : Nat} : i ∈ (c.close id).inProgress ↔ i ≠ id ∧ i ∈ c.inProgress := by
  rw [← mem_finish, finish_eq, inProgress_prune]

/-- The oldest running transaction, if it began before number `pointer` was given out. -/
theorem exists_oldest_iff {pointer : Nat} :
    (∃ oldest, c.inProgress.min? = some oldest ∧ oldest ≤ pointer) ↔
      ∃ i : Nat, i ∈ c.inProgress ∧ i ≤ pointer := by
  constructor
  · rintro ⟨oldest, ho, hle⟩
    exact ⟨oldest, (Std.ExtTreeSet.min?_eq_some_iff_mem_and_forall.1 ho).1, hle⟩
  · rintro ⟨i, hi, hle⟩
    cases hm : c.inProgress.min? with
    | none =>
      rw [Std.ExtTreeSet.min?_eq_none_iff] at hm
      simp [hm] at hi
    | some oldest => exact ⟨oldest, rfl, Nat.le_trans (oldest_le hm hi) hle⟩

/-- Exactly the change sets stay that some running transaction may conflict with. -/
theorem committed_prune_eq_some_iff {pointer : Nat} {set : ChangeSet} :
    c.prune.committed[pointer]? = some set ↔
      c.committed[pointer]? = some set ∧ ∃ i : Nat, i ∈ c.inProgress ∧ i ≤ pointer := by
  rw [← exists_oldest_iff]
  unfold prune
  split
  · next oldest h => simp [h, Option.filter_eq_some_iff]
  · next h => simp [h]

/-- Exactly the writers stay that some running transaction may not see. -/
theorem recent_prune_eq_some_iff {w : TxId} {pointer : Nat} :
    c.prune.recent[w]? = some pointer ↔
      c.recent[w]? = some pointer ∧ ∃ i : Nat, i ∈ c.inProgress ∧ i ≤ pointer := by
  rw [← exists_oldest_iff]
  unfold prune
  split
  · next oldest h => simp [h, Option.filter_eq_some_iff]
  · next h => simp [h]

/-- A running transaction finds the conflicts that it finds with the full history. -/
theorem conflicts_prune {id : Nat} (hid : id ∈ c.inProgress) (changes : ChangeSet) :
    c.prune.conflicts id changes = c.conflicts id changes := by
  have : c.prune.committed.toList.filter (id < ·.1) = c.committed.toList.filter (id < ·.1) := by
    unfold prune
    split
    · next oldest h =>
      have := oldest_le h hid
      rw [Std.ExtTreeMap.toList_filter, List.filter_filter]
      refine List.filter_congr fun p _ => ?_
      simp only [Bool.and_eq_left_iff_imp, decide_eq_true_eq]
      exact fun hlt => Nat.le_trans this (Nat.le_of_lt hlt)
    · next h =>
      rw [Std.ExtTreeSet.min?_eq_none_iff] at h
      simp [h] at hid
  unfold conflicts rivals
  rw [this, reserved_prune]

theorem checkRunning_prune (c : Coordinator) (tx : Transaction) :
    c.prune.checkRunning tx = c.checkRunning tx := by
  unfold checkRunning
  rw [inProgress_prune]

theorem prune_eq (c : Coordinator) :
    c.prune = { c with committed := c.prune.committed, recent := c.prune.recent } := by
  unfold prune
  split <;> rfl

/-- A coordinator is the pruned one if it differs only in what pruning drops. -/
theorem eq_prune {d : Coordinator}
    (hd : d = { c with committed := d.committed, recent := d.recent })
    (hcommitted : ∀ pointer set, d.committed[pointer]? = some set ↔
      c.committed[pointer]? = some set ∧ ∃ i : Nat, i ∈ c.inProgress ∧ i ≤ pointer)
    (hrecent : ∀ (w : TxId) pointer, d.recent[w]? = some pointer ↔
      c.recent[w]? = some pointer ∧ ∃ i : Nat, i ∈ c.inProgress ∧ i ≤ pointer) :
    d = c.prune := by
  have hc : d.committed = c.prune.committed :=
    Std.ExtTreeMap.ext_getElem? fun pointer => Option.ext fun set =>
      (hcommitted pointer set).trans committed_prune_eq_some_iff.symm
  have hr : d.recent = c.prune.recent :=
    Std.ExtTreeMap.ext_getElem? fun w => Option.ext fun pointer =>
      (hrecent w pointer).trans recent_prune_eq_some_iff.symm
  rw [hd, prune_eq, hc, hr]

/-- What a running transaction is told that wants to reserve rows. -/
theorem reserve_of_mem {tx : Transaction} (ht : tx.isActive = true) (hm : tx.id ∈ c.inProgress)
    (changes : ChangeSet) :
    (c.reserve tx changes).1 =
      if c.conflicts tx.id changes = 0 then .ok ()
      else .error (.conflict tx.id (c.conflicts tx.id changes)) := by
  have hrun : c.checkRunning tx = .ok () := by
    have : tx.state = .active := by simpa [Transaction.isActive] using ht
    simp [checkRunning, Transaction.checkActive, this, hm]
  unfold reserve
  rw [hrun]
  dsimp only
  split <;> split <;> first | rfl | omega

/-! ## Every step, before pruning and after -/

/-- The commits that are known of have numbers that were given out. -/
structure Dated (c : Coordinator) : Prop where
  committed : ∀ pointer set, c.committed[pointer]? = some set → pointer < c.next
  recent : ∀ (w : TxId) pointer, c.recent[w]? = some pointer → pointer < c.next

theorem committed_publish_eq_some_iff (h : c.Dated) (id : TxId) (stats : Stats) (pointer : Nat)
    (set : ChangeSet) :
    (c.publish id stats).committed[pointer]? = some set ↔
      c.committed[pointer]? = some set ∨
        c.next = pointer ∧ c.reserved.getD id ∅ = set ∧ set.isEmpty = false := by
  have hnew : c.committed[c.next]? ≠ some set := fun e => Nat.lt_irrefl _ (h.committed _ _ e)
  by_cases hp : c.next = pointer
  · subst hp
    unfold publish
    dsimp only
    split <;> grind
  · have : (c.publish id stats).committed[pointer]? = c.committed[pointer]? := by
      unfold publish
      dsimp only
      split
      · rfl
      · rw [Std.ExtTreeMap.getElem?_insert, if_neg fun e => hp (Nat.compare_eq_eq.1 e)]
    simp [this, hp]

theorem recent_publish_eq_some_iff {id : TxId} (hid : c.recent[id]? = none) (stats : Stats)
    (w : TxId) (pointer : Nat) :
    (c.publish id stats).recent[w]? = some pointer ↔
      c.recent[w]? = some pointer ∨ id = w ∧ c.next = pointer := by
  show (c.recent.insert id c.next)[w]? = some pointer ↔ _
  by_cases hw : id = w
  · subst hw
    simp [hid]
  · rw [Std.ExtTreeMap.getElem?_insert, if_neg fun e => hw (Nat.compare_eq_eq.1 e)]
    simp [hw]

theorem begin_prune (h : c.Dated) : c.prune.begin = (c.begin.1, c.begin.2.prune) := by
  have running : ∀ {pointer}, pointer < c.next →
      ((∃ i : Nat, i ∈ c.inProgress ∧ i ≤ pointer) ↔
        ∃ i : Nat, i ∈ c.begin.2.inProgress ∧ i ≤ pointer) := by
    intro pointer hp
    constructor
    · rintro ⟨i, hi, hle⟩
      exact ⟨i, Chronicle.Inv.mem_begin.2 (.inr hi), hle⟩
    · rintro ⟨i, hi, hle⟩
      rcases Chronicle.Inv.mem_begin.1 hi with rfl | hi
      · omega
      · exact ⟨i, hi, hle⟩
  refine Prod.ext (by simp [begin]) (eq_prune (by simp [begin]) ?_ ?_)
  · intro pointer set
    exact committed_prune_eq_some_iff.trans
      (and_congr_right fun hset => running (h.committed pointer set hset))
  · intro w pointer
    exact recent_prune_eq_some_iff.trans
      (and_congr_right fun hp => running (h.recent w pointer hp))

/-- Pruning does not look at the reservations, the invalid transactions and the counts. -/
theorem prune_with (c : Coordinator) (reserved : Std.ExtTreeMap TxId ChangeSet)
    (invalid : Std.ExtTreeSet TxId) (stats : Stats) :
    { c with reserved, invalid, stats }.prune = { c.prune with reserved, invalid, stats } := by
  unfold prune
  dsimp only
  split <;> rfl

theorem reserve_prune (c : Coordinator) (tx : Transaction) (changes : ChangeSet) :
    c.prune.reserve tx changes =
      ((c.reserve tx changes).1, (c.reserve tx changes).2.prune) := by
  unfold reserve
  rw [checkRunning_prune]
  cases hr : c.checkRunning tx with
  | error e => rfl
  | ok u =>
    dsimp only
    rw [conflicts_prune (mem_of_checkRunning hr)]
    split <;> simp [prune_with]

theorem forgetInvalid_prune (c : Coordinator) (ids : List TxId) :
    c.prune.forgetInvalid ids = ((c.forgetInvalid ids).1, (c.forgetInvalid ids).2.prune) := by
  simp [forgetInvalid, prune_with]

/-- Two coordinators that differ in nothing a running transaction can ask about. -/
structure Alike (c d : Coordinator) : Prop where
  rest : d = { c with committed := d.committed, recent := d.recent }
  committed : ∀ i pointer : Nat, i ∈ c.inProgress → i ≤ pointer →
    d.committed[pointer]? = c.committed[pointer]?
  recent : ∀ (w : TxId) (i pointer : Nat), i ∈ c.inProgress → i ≤ pointer →
    (d.recent[w]? = some pointer ↔ c.recent[w]? = some pointer)

theorem alike_prune (c : Coordinator) : Alike c c.prune where
  rest := prune_eq c
  committed _ _ hi hp := committed_prune hi hp
  recent _ i _ hi hp := recent_prune_eq_some_iff.trans (and_iff_left ⟨i, hi, hp⟩)

namespace Alike

variable {d : Coordinator}

theorem prune_eq (h : Alike c d) : d.prune = c.prune := by
  have hrun : d.inProgress = c.inProgress := by rw [h.rest]
  refine eq_prune ?_ (fun pointer set => ?_) (fun w pointer => ?_)
  · rw [Coordinator.prune_eq d, h.rest]
  · rw [committed_prune_eq_some_iff, hrun]
    exact and_congr_left fun ⟨i, hi, hp⟩ => by rw [h.committed i pointer hi hp]
  · rw [recent_prune_eq_some_iff, hrun]
    exact and_congr_left fun ⟨i, hi, hp⟩ => h.recent w i pointer hi hp

theorem close (h : Alike c d) (id : TxId) : Alike (c.close id) (d.close id) where
  rest := by
    unfold Coordinator.close
    rw [h.rest]
  committed i pointer hi := h.committed i pointer (mem_close.1 hi).2
  recent w i pointer hi := h.recent w i pointer (mem_close.1 hi).2

theorem publish (h : Alike c d) (id : TxId) (stats : Stats) :
    Alike (c.publish id stats) (d.publish id stats) where
  rest := by
    unfold Coordinator.publish
    rw [h.rest]
  committed i pointer hi hp := by
    have := h.committed i pointer hi hp
    have hrest := h.rest
    generalize d.committed = committed at *
    generalize d.recent = recent at *
    subst hrest
    unfold Coordinator.publish
    dsimp only
    split
    · exact this
    · rw [Std.ExtTreeMap.getElem?_insert, Std.ExtTreeMap.getElem?_insert, this]
  recent w i pointer hi hp := by
    have := h.recent w i pointer hi hp
    have hnext : d.next = c.next := by rw [h.rest]
    unfold Coordinator.publish
    dsimp only
    rw [Std.ExtTreeMap.getElem?_insert, Std.ExtTreeMap.getElem?_insert, hnext]
    split
    · rfl
    · exact this

end Alike

/-- What is pruned when a transaction ends may have been pruned before. -/
theorem finish_prune (c : Coordinator) (id : TxId) : c.prune.finish id = c.finish id :=
  ((alike_prune c).close id).prune_eq

theorem commit_prune (c : Coordinator) (tx : Transaction) :
    c.prune.commit tx =
      (c.commitFully tx).map fun (pointer, tx, d) => (pointer, tx, d.prune) := by
  unfold commit commitFully
  rw [checkRunning_prune]
  cases c.checkRunning tx with
  | error e => rfl
  | ok u =>
    have := (((alike_prune c).publish tx.id
      { c.stats with committed := c.stats.committed + 1 }).close tx.id).prune_eq
    simp only [Except.map, ← this, next_prune, stats_prune]
    simp only [publish, next_prune]
    rfl

theorem abort_prune (c : Coordinator) (tx : Transaction) :
    c.prune.abort tx = (c.abortFully tx).map fun (tx, d) => (tx, d.prune) := by
  unfold abort abortFully
  cases tx.checkActive with
  | error e => rfl
  | ok u =>
    simp only [Except.map, reserved_prune, invalid_prune, stats_prune, ← prune_with, finish_prune]
    rfl

theorem invalidate_prune (c : Coordinator) (tx : Transaction) :
    c.prune.invalidate tx = ((c.invalidateFully tx).1, (c.invalidateFully tx).2.prune) := by
  unfold invalidate invalidateFully
  simp only [reserved_prune, invalid_prune, stats_prune, ← prune_with, finish_prune]
  rfl

/-- The answers are the same before pruning and after, and so is what is left once pruned. -/
theorem answer_prune (h : c.Dated) (r : Request) :
    c.prune.answer r = ((c.answerFully r).1, (c.answerFully r).2.prune) := by
  unfold answer answerFully replyBy
  cases r with
  | begin => simp only [begin_prune h]
  | reserve tx changes => simp only [reserve_prune]
  | commit tx =>
    simp only [commit_prune]
    cases c.commitFully tx <;> rfl
  | abort tx =>
    simp only [abort_prune]
    cases c.abortFully tx <;> rfl
  | invalidate tx => simp only [invalidate_prune]
  | forgetInvalid ids => simp only [forgetInvalid_prune]

end Coordinator

namespace Chronicle

open Coordinator

variable {s : Chronicle} {d : Coordinator}

theorem coordinator_serve (s : Chronicle) (r : Request) :
    (s.serve r).coordinator = (s.coordinator.answer r).2 := by
  cases r with
  | begin | invalidate | forgetInvalid => rfl
  | reserve tx changes =>
    simp only [serve, answer, replyBy]
    split <;> simp_all
  | commit tx =>
    simp only [serve, answer, replyBy]
    split <;> simp_all
  | abort tx =>
    simp only [serve, answer, replyBy]
    split <;> simp_all

/-! ## The coordinator is the other one, pruned -/

/-- How the coordinator of a chronicle goes with the one that forgot nothing. -/
structure Recalls (s : Chronicle) (d : Coordinator) : Prop where
  pruned : s.coordinator = d.prune
  committed : ∀ pointer set, d.committed[pointer]? = some set ↔
    ∃ k ∈ s.commits, k.pointer = pointer ∧ k.changes = set ∧ set.isEmpty = false
  recent : ∀ (w : TxId) pointer, d.recent[w]? = some pointer ↔
    ∃ k ∈ s.commits, k.id = w ∧ k.pointer = pointer

theorem recalls_new : Recalls new Coordinator.new where
  pruned := by simp [new, Coordinator.new, prune]
  committed pointer set := by simp [new, Coordinator.new]
  recent w pointer := by simp [new, Coordinator.new]

namespace Recalls

theorem next_eq (h : Recalls s d) : d.next = s.coordinator.next := by
  rw [h.pruned, next_prune]

theorem mem_inProgress (h : Recalls s d) {i : Nat} :
    i ∈ d.inProgress ↔ i ∈ s.coordinator.inProgress := by
  rw [h.pruned, inProgress_prune]

theorem dated (h : Recalls s d) (hs : s.Inv) : d.Dated where
  committed pointer set hp := by
    obtain ⟨k, hk, rfl, -⟩ := (h.committed pointer set).1 hp
    exact h.next_eq ▸ (hs.numbers k hk).2.2
  recent w pointer hp := by
    obtain ⟨k, hk, -, rfl⟩ := (h.recent w pointer).1 hp
    exact h.next_eq ▸ (hs.numbers k hk).2.2

theorem answer_eq (h : Recalls s d) (hs : s.Inv) (r : Request) :
    s.coordinator.answer r = ((d.answerFully r).1, (d.answerFully r).2.prune) := by
  rw [h.pruned]
  exact answer_prune (h.dated hs) r

/-- Only commits add to the history. -/
theorem of_commits_eq {r : Request} (h : Recalls s d) (hs : s.Inv)
    (hr : ∀ tx, r ≠ .commit tx) (hcommitted : (d.answerFully r).2.committed = d.committed)
    (hrecent : (d.answerFully r).2.recent = d.recent) :
    Recalls (s.serve r) (d.answerFully r).2 where
  pruned := by rw [coordinator_serve, h.answer_eq hs]
  committed := by
    rw [commits_serve s hr, hcommitted]
    exact h.committed
  recent := by
    rw [commits_serve s hr, hrecent]
    exact h.recent

theorem commit (h : Recalls s d) (hs : s.Inv) (tx : Transaction) :
    Recalls (s.serve (.commit tx)) (d.answerFully (.commit tx)).2 := by
  have hpruned : (s.serve (.commit tx)).coordinator = (d.answerFully (.commit tx)).2.prune := by
    rw [coordinator_serve, h.answer_eq hs]
  have hcommit : s.coordinator.commit tx = _ := h.pruned ▸ commit_prune d tx
  unfold commitFully at hcommit
  cases hrun : d.checkRunning tx with
  | error e =>
    have hd : (d.answerFully (.commit tx)).2 = d := by
      simp [answerFully, replyBy, commitFully, hrun]
    have hc : s.serve (.commit tx) = s := by simp [Chronicle.serve, hcommit, hrun, Except.map]
    rw [hd, hc]
    exact h
  | ok u =>
    obtain ⟨stats, hd⟩ :
        ∃ stats, (d.answerFully (.commit tx)).2 = (d.publish tx.id stats).close tx.id :=
      ⟨{ d.stats with committed := d.stats.committed + 1 },
        by simp [answerFully, replyBy, commitFully, hrun]⟩
    have hc : (s.serve (.commit tx)).commits =
        s.commits ++ [⟨tx.id, d.next, d.reserved.getD tx.id ∅⟩] := by
      have hheld := hs.held_eq tx.id (.inl (h.mem_inProgress.1 (mem_of_checkRunning hrun)))
      rw [h.pruned, reserved_prune] at hheld
      simp [Chronicle.serve, hcommit, hrun, Except.map, hheld]
    have hrecent : d.recent[tx.id]? = none := by
      rw [Option.eq_none_iff_forall_ne_some]
      intro pointer hp
      obtain ⟨k, hk, hid, -⟩ := (h.recent _ _).1 hp
      exact (hs.fresh k hk).1 (hid ▸ h.mem_inProgress.1 (mem_of_checkRunning hrun))
    refine ⟨hpruned, fun pointer set => ?_, fun w pointer => ?_⟩
    · rw [hc, hd]
      refine (committed_publish_eq_some_iff (h.dated hs) _ stats _ _).trans ?_
      simp [h.committed, or_and_right, exists_or]
    · rw [hc, hd]
      refine (recent_publish_eq_some_iff hrecent stats _ _).trans ?_
      simp [h.recent, or_and_right, exists_or]

theorem serve (h : Recalls s d) (hs : s.Inv) (r : Request) :
    Recalls (s.serve r) (d.answerFully r).2 := by
  cases r with
  | begin => exact h.of_commits_eq hs nofun rfl rfl
  | reserve tx changes =>
    have : (d.reserve tx changes).2.committed = d.committed ∧
        (d.reserve tx changes).2.recent = d.recent := by
      obtain ⟨e, -⟩ | ⟨_, _, e⟩ := reserve_cases d tx changes
      all_goals simp [e]
    exact h.of_commits_eq hs nofun this.1 this.2
  | commit tx => exact h.commit hs tx
  | abort tx =>
    have : (d.answerFully (.abort tx)).2.committed = d.committed ∧
        (d.answerFully (.abort tx)).2.recent = d.recent := by
      simp only [answerFully, replyBy, abortFully]
      cases tx.checkActive <;> exact ⟨rfl, rfl⟩
    exact h.of_commits_eq hs nofun this.1 this.2
  | invalidate tx => exact h.of_commits_eq hs nofun rfl rfl
  | forgetInvalid ids => exact h.of_commits_eq hs nofun rfl rfl

end Recalls

/-- The coordinator that forgot nothing, after requests. -/
def runFully (requests : List Request) : Coordinator :=
  requests.foldl (fun d r => (d.answerFully r).2) Coordinator.new

theorem recalls_run (requests : List Request) : Recalls (run requests) (runFully requests) := by
  suffices ∀ s d, Inv s → Recalls s d →
      Recalls (requests.foldl serve s) (requests.foldl (fun d r => (d.answerFully r).2) d) from
    this new Coordinator.new inv_new recalls_new
  induction requests with
  | nil => exact fun s d _ h => h
  | cons r rs ih => exact fun s d hs h => ih _ _ (hs.serve r) (h.serve hs r)

theorem answers_eq (requests : List Request) :
    answers answer Coordinator.new requests = answers answerFully Coordinator.new requests := by
  suffices ∀ s d, Inv s → Recalls s d →
      answers answer s.coordinator requests = answers answerFully d requests from
    this new Coordinator.new inv_new recalls_new
  induction requests with
  | nil => exact fun s d _ _ => rfl
  | cons r rs ih =>
    intro s d hs h
    unfold answers
    rw [← coordinator_serve, ih _ _ (hs.serve r) (h.serve hs r), h.answer_eq hs]

/-! ## Conflicts with the whole history -/

/-- What `id` must stay apart from: the change sets of all commits since `id` was given out, and
what others have reserved. -/
def rivals (s : Chronicle) (id : TxId) : List ChangeSet :=
  (s.commits.filter (id < ·.pointer)).map (·.changes) ++
    (s.coordinator.reserved.toList.filter (·.1 ≠ id)).map (·.2)

/-- The number of changes that are also in a set of a rival, counted for each set. -/
def overlaps (s : Chronicle) (id : TxId) (changes : ChangeSet) : Nat :=
  ((s.rivals id).flatMap changes.common).length

theorem mem_rivals {id : TxId} {set : ChangeSet} :
    set ∈ s.rivals id ↔
      (∃ k ∈ s.commits, id < k.pointer ∧ k.changes = set) ∨
        ∃ other : TxId, s.coordinator.reserved[other]? = some set ∧ other ≠ id := by
  simp [rivals, Std.ExtTreeMap.mem_toList_iff_getElem?_eq_some, and_assoc]

theorem overlaps_ne_zero_iff {id : TxId} {changes : ChangeSet} :
    s.overlaps id changes ≠ 0 ↔
      (∃ k ∈ s.commits, id < k.pointer ∧ changes.Overlap k.changes) ∨
        ∃ (other : TxId) (set : ChangeSet), s.coordinator.reserved[other]? = some set ∧
          other ≠ id ∧ changes.Overlap set := by
  have : s.overlaps id changes ≠ 0 ↔ ∃ set ∈ s.rivals id, changes.Overlap set := by
    rw [overlaps, Ne, List.length_eq_zero_iff, List.flatMap_eq_nil_iff]
    simp [ChangeSet.common_eq_nil_iff]
  rw [this]
  constructor
  · rintro ⟨set, hset, ho⟩
    rcases mem_rivals.1 hset with ⟨k, hk, hlt, rfl⟩ | ⟨other, hr, hne⟩
    · exact .inl ⟨k, hk, hlt, ho⟩
    · exact .inr ⟨other, set, hr, hne, ho⟩
  · rintro (⟨k, hk, hlt, ho⟩ | ⟨other, set, hr, hne, ho⟩)
    · exact ⟨k.changes, mem_rivals.2 (.inl ⟨k, hk, hlt, rfl⟩), ho⟩
    · exact ⟨set, mem_rivals.2 (.inr ⟨other, hr, hne⟩), ho⟩

/-- The table of change sets of the coordinator that forgot nothing is the history, but for the
commits without changes. -/
theorem Recalls.toList_committed (h : Recalls s d) (hs : s.Inv) :
    d.committed.toList =
      (s.commits.filter (!·.changes.isEmpty)).map fun k => (k.pointer, k.changes) := by
  have htable : d.committed.toList.Pairwise (·.1 < ·.1) :=
    Std.ExtTreeMap.ordered_keys_toList.imp Nat.compare_eq_lt.1
  have hcommits : ((s.commits.filter (!·.changes.isEmpty)).map
      fun k => (k.pointer, k.changes)).Pairwise (·.1 < ·.1) :=
    List.pairwise_map.2 ((hs.precedes.filter _).imp fun p => p.pointer_lt)
  have nodup : ∀ {l : List (Nat × ChangeSet)}, l.Pairwise (·.1 < ·.1) → l.Nodup :=
    fun hl => hl.imp fun hlt e => Nat.ne_of_lt hlt (congrArg Prod.fst e)
  refine List.Perm.eq_of_pairwise (fun a b _ _ hab hba => absurd hba (Nat.lt_asymm hab))
    htable hcommits ((List.perm_ext_iff_of_nodup (nodup htable) (nodup hcommits)).2 ?_)
  rintro ⟨pointer, set⟩
  rw [Std.ExtTreeMap.mem_toList_iff_getElem?_eq_some, h.committed]
  simp only [List.mem_map, List.mem_filter, Prod.mk.injEq, Bool.not_eq_true']
  constructor
  · rintro ⟨k, hk, rfl, rfl, he⟩
    exact ⟨k, ⟨hk, he⟩, rfl, rfl⟩
  · rintro ⟨k, ⟨hk, he⟩, rfl, rfl⟩
    exact ⟨k, hk, rfl, rfl, he⟩

theorem flatMap_filter_of_eq_nil {α β : Type} {p : α → Bool} {f : α → List β} {l : List α}
    (h : ∀ a ∈ l, p a = false → f a = []) : (l.filter p).flatMap f = l.flatMap f := by
  induction l with
  | nil => rfl
  | cons a l ih =>
    have ih := ih fun b hb => h b (List.mem_cons_of_mem _ hb)
    by_cases hp : p a
    · rw [List.filter_cons_of_pos hp, List.flatMap_cons, List.flatMap_cons, ih]
    · rw [List.filter_cons_of_neg hp, List.flatMap_cons, ih,
        h a List.mem_cons_self (Bool.eq_false_iff.2 hp), List.nil_append]

theorem Recalls.conflicts_eq (h : Recalls s d) (hs : s.Inv) (id : TxId) (changes : ChangeSet) :
    d.conflicts id changes = s.overlaps id changes := by
  have hreserved : d.reserved = s.coordinator.reserved := by rw [h.pruned, reserved_prune]
  -- a commit without changes is in no table, and has nothing in common with any set
  have hhistory :
      ((d.committed.toList.filter (id < ·.1)).map (·.2)).flatMap changes.common =
        ((s.commits.filter (id < ·.pointer)).map (·.changes)).flatMap changes.common := by
    have hempty : ∀ k ∈ s.commits.filter (id < ·.pointer),
        (!k.changes.isEmpty) = false → changes.common k.changes = [] := by
      intro k _ he
      have : k.changes = ∅ := by simpa using he
      rw [this, ChangeSet.common_eq_nil_iff]
      exact ChangeSet.not_overlap_empty _
    rw [h.toList_committed hs, List.filter_map, List.map_map, List.filter_filter,
      List.flatMap_map, List.flatMap_map, ← flatMap_filter_of_eq_nil hempty, List.filter_filter]
    exact congrArg (List.flatMap _) (List.filter_congr fun k _ => Bool.and_comm _ _)
  rw [conflicts, Coordinator.rivals, List.flatMap_append, hhistory, hreserved,
    ← List.flatMap_append]
  rfl

/-! ## Numbers and time -/

theorem exists_commits_serve (s : Chronicle) (r : Request) :
    s.coordinator.next ≤ (s.serve r).coordinator.next ∧
      ∃ later, (s.serve r).commits = s.commits ++ later ∧
        ∀ k ∈ later, s.coordinator.next ≤ k.pointer := by
  by_cases hr : ∃ tx, r = .invalidate tx
  · obtain ⟨tx, rfl⟩ := hr
    have hnext : (s.serve (.invalidate tx)).coordinator.next = s.coordinator.next :=
      next_finish _ _
    exact ⟨Nat.le_of_eq hnext.symm, [], (List.append_nil _).symm, nofun⟩
  · have h := advances_serve s r fun tx e => absurd ⟨tx, e⟩ hr
    obtain ⟨later, e, hlater⟩ := h.commits
    exact ⟨h.next_le, later, e, fun k hk => (hlater k hk).2⟩

theorem exists_commits_foldl (requests : List Request) (s : Chronicle) :
    ∃ later, (requests.foldl serve s).commits = s.commits ++ later ∧
      ∀ k ∈ later, s.coordinator.next ≤ k.pointer := by
  induction requests generalizing s with
  | nil => exact ⟨[], (List.append_nil _).symm, nofun⟩
  | cons r rs ih =>
    obtain ⟨hnext, first, hfirst, hnumbers⟩ := exists_commits_serve s r
    obtain ⟨rest, hrest, hnumbers'⟩ := ih (s.serve r)
    refine ⟨first ++ rest, by rw [List.foldl_cons, hrest, hfirst, List.append_assoc], ?_⟩
    intro k hk
    rcases List.mem_append.1 hk with hk | hk
    · exact hnumbers k hk
    · exact Nat.le_trans hnext (hnumbers' k hk)

/-- The commits with a number above that of a transaction are those made after it began. -/
theorem commits_filter_of_begin (earlier later : List Request) :
    (run (earlier ++ .begin :: later)).commits =
      (run earlier).commits ++ (run (earlier ++ .begin :: later)).commits.filter
        ((run earlier).coordinator.begin.1.id < ·.pointer) := by
  have hs := inv_run earlier
  obtain ⟨after, hafter, hnumbers⟩ := exists_commits_foldl later ((run earlier).serve .begin)
  have hrun : (run (earlier ++ .begin :: later)).commits = (run earlier).commits ++ after := by
    rw [run, List.foldl_append, List.foldl_cons]
    exact hafter
  rw [hrun, List.filter_append, List.filter_eq_nil_iff.2, List.filter_eq_self.2, List.nil_append]
  · intro k hk
    exact decide_eq_true (hnumbers k hk)
  · intro k hk
    have : k.pointer ≤ (run earlier).coordinator.begin.1.id := Nat.le_of_lt (hs.numbers k hk).2.2
    simpa using this

/-! ## Pruning is invisible -/

/-- A coordinator that keeps all change sets and writers would give the same answers.  What a
running transaction is refused for are overlaps with commits made since it began, of the whole
history, and with reservations of others; and exactly those commits are kept that have changes and
came after the oldest running transaction began. -/
theorem pruning_is_invisible (requests : List Request) :
    answers answer Coordinator.new requests = answers answerFully Coordinator.new requests ∧
    (run requests).coordinator = (runFully requests).prune ∧
    (∀ (tx : Transaction) (changes : ChangeSet), tx.isActive = true →
      tx.id ∈ (run requests).coordinator.inProgress →
      ((run requests).coordinator.reserve tx changes).1 =
        (if (run requests).overlaps tx.id changes = 0 then .ok ()
          else .error (.conflict tx.id ((run requests).overlaps tx.id changes))) ∧
      ((run requests).overlaps tx.id changes ≠ 0 ↔
        (∃ k ∈ (run requests).commits, tx.id < k.pointer ∧ changes.Overlap k.changes) ∨
        ∃ (other : TxId) (set : ChangeSet),
          (run requests).coordinator.reserved[other]? = some set ∧
            other ≠ tx.id ∧ changes.Overlap set)) ∧
    (∀ earlier later, requests = earlier ++ .begin :: later →
      (run requests).commits = (run earlier).commits ++ (run requests).commits.filter
        ((run earlier).coordinator.begin.1.id < ·.pointer)) ∧
    (∀ pointer set, (run requests).coordinator.committed[pointer]? = some set ↔
      (∃ k ∈ (run requests).commits, k.pointer = pointer ∧ k.changes = set ∧
        set.isEmpty = false) ∧
      ∃ oldest, (run requests).coordinator.inProgress.min? = some oldest ∧ oldest < pointer) ∧
    ∀ (w : TxId) pointer, (run requests).coordinator.recent[w]? = some pointer ↔
      (∃ k ∈ (run requests).commits, k.id = w ∧ k.pointer = pointer) ∧
      ∃ oldest, (run requests).coordinator.inProgress.min? = some oldest ∧ oldest < pointer := by
  have hs := inv_run requests
  have h := recalls_run requests
  have late : ∀ {pointer}, (∃ k ∈ (run requests).commits, k.pointer = pointer) →
      ((∃ i : Nat, i ∈ (runFully requests).inProgress ∧ i ≤ pointer) ↔
        ∃ oldest, (run requests).coordinator.inProgress.min? = some oldest ∧
          oldest < pointer) := by
    rintro _ ⟨k, hk, rfl⟩
    rw [← exists_oldest_iff, h.pruned, inProgress_prune]
    refine exists_congr fun oldest => and_congr_right fun ho => ?_
    -- no transaction has the number of a commit
    have hmem := (Std.ExtTreeSet.min?_eq_some_iff_mem_and_forall.1 ho).1
    have hne : oldest ≠ k.pointer :=
      fun e => (hs.fresh k hk).2 (h.mem_inProgress.1 (e ▸ hmem))
    exact ⟨fun hle => Nat.lt_of_le_of_ne hle hne, Nat.le_of_lt⟩
  refine ⟨answers_eq requests, h.pruned, fun tx changes ht hid => ⟨?_, overlaps_ne_zero_iff⟩,
    ?_, fun pointer set => ?_, fun w pointer => ?_⟩
  · rw [← h.conflicts_eq hs, h.pruned, reserve_prune]
    exact reserve_of_mem ht (h.mem_inProgress.2 hid) changes
  · rintro earlier later rfl
    exact commits_filter_of_begin earlier later
  · rw [h.pruned, committed_prune_eq_some_iff, h.committed, ← h.pruned]
    exact and_congr_right fun ⟨k, hk, hp, _⟩ => late ⟨k, hk, hp⟩
  · rw [h.pruned, recent_prune_eq_some_iff, h.recent, ← h.pruned]
    exact and_congr_right fun ⟨k, hk, _, hp⟩ => late ⟨k, hk, hp⟩

/-- A transaction as it began with number `id`, with nobody running. -/
def opened (id : Nat) : Transaction := ⟨id, id - 1, [], .active⟩

/-- Two commits of one row: nobody runs that began before the first, one transaction that began
before the second. -/
def lifetimes : List Request :=
  [.begin, .begin, .reserve (opened 2) {[10]}, .commit (opened 2), .abort (opened 1), .begin,
    .begin, .reserve (opened 5) {[10]}, .commit (opened 5)]

/-- The first commit is forgotten, and the second is still found. -/
theorem conflict_after_pruning :
    ((run lifetimes).coordinator.reserve (opened 4) {[10]}).1 = .error (.conflict 4 1) ∧
      (∃ k ∈ (run lifetimes).commits, k.pointer = 3 ∧ [10] ∈ k.changes) ∧
      (run lifetimes).coordinator.committed[3]? = none := by
  have hs := inv_run lifetimes
  have h := recalls_run lifetimes
  obtain ⟨-, -, hreserve, -, hkept, -⟩ := pruning_is_invisible lifetimes
  have hid : (opened 4).id ∈ (run lifetimes).coordinator.inProgress :=
    h.mem_inProgress.1 (by decide +kernel)
  have hone : (run lifetimes).overlaps (opened 4).id {[10]} = 1 :=
    (h.conflicts_eq hs _ _).symm.trans (by decide +kernel)
  refine ⟨?_, ?_, ?_⟩
  · rw [(hreserve (opened 4) {[10]} rfl hid).1, hone]
    rfl
  · have : ((runFully lifetimes).committed[3]?.any (·.contains [10])) = true := by decide +kernel
    obtain ⟨set, hset, hrow⟩ := (Option.any_eq_true _ _).1 this
    obtain ⟨k, hk, hp, rfl, -⟩ := (h.committed 3 set).1 hset
    exact ⟨k, hk, hp, Std.ExtTreeSet.contains_iff_mem.1 hrow⟩
  · rw [Option.eq_none_iff_forall_ne_some]
    intro set hset
    obtain ⟨-, oldest, ho, hlt⟩ := (hkept 3 set).1 hset
    have hmem : oldest ∈ (runFully lifetimes).inProgress.toList := by
      rw [Std.ExtTreeSet.mem_toList]
      exact h.mem_inProgress.2 (Std.ExtTreeSet.min?_eq_some_iff_mem_and_forall.1 ho).1
    rw [show (runFully lifetimes).inProgress.toList = [4] by decide +kernel] at hmem
    obtain rfl := List.mem_singleton.1 hmem
    exact absurd hlt (by decide)

end Chronicle

end NamespaceCatalog
