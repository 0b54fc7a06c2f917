import NamespaceCatalog.Proofs.Horizons

/-!
# Copies of a transaction

A handle of a transaction can be copied, and each copy remembers for itself whether it was finished.
A `Desk` is a coordinator with the handles that are around, and a `Deed` is what can be done with
them.

Once a transaction was finished through one of its handles, none of them commits it any more, and
those that were finished do not abort it.  But an abort asks only the handle: through a copy that
was not finished it succeeds, and counts the transaction once more.  `Desk.late` is how often this
happened, and the counts differ by as much (`Desk.finished_once`).
-/

namespace NamespaceCatalog

theorem Transaction.checkActive_of_ne {tx : Transaction} (h : tx.state ≠ .active) :
    ∃ misuse, tx.checkActive = .error (.invalidOperation misuse) := by
  unfold checkActive
  split
  · next hs => exact absurd hs h
  · exact ⟨_, rfl⟩
  · exact ⟨_, rfl⟩
  · exact ⟨_, rfl⟩

/-! ## Ends of transactions -/

namespace Coordinator

variable {c d : Coordinator} {tx tx' : Transaction} {i : Nat}

/-- Is this the coordinator after the transaction ended?  It may not have been running. -/
structure Ends (c : Coordinator) (id : TxId) (d : Coordinator) : Prop where
  next_le : c.next ≤ d.next
  inProgress : d.inProgress = c.inProgress.erase id
  started : d.stats.started = c.stats.started
  ended : d.stats.committed + d.stats.aborted = c.stats.committed + c.stats.aborted + 1

theorem checkRunning_of_not_mem (h : tx.id ∉ c.inProgress) :
    ∃ misuse, c.checkRunning tx = .error (.invalidOperation misuse) := by
  by_cases hs : tx.state = .active
  · exact ⟨.notInProgress tx.id, by simp [checkRunning, Transaction.checkActive, hs, h]⟩
  · obtain ⟨misuse, hm⟩ := Transaction.checkActive_of_ne hs
    exact ⟨misuse, by rw [checkRunning, hm]⟩

theorem commit_of_not_mem (h : tx.id ∉ c.inProgress) :
    ∃ misuse, c.commit tx = .error (.invalidOperation misuse) := by
  obtain ⟨misuse, hm⟩ := checkRunning_of_not_mem h
  exact ⟨misuse, by rw [commit, hm]⟩

theorem abort_of_ne (h : tx.state ≠ .active) :
    ∃ misuse, c.abort tx = .error (.invalidOperation misuse) := by
  obtain ⟨misuse, hm⟩ := Transaction.checkActive_of_ne h
  exact ⟨misuse, by rw [abort, hm]⟩

theorem active_of_checkRunning (h : c.checkRunning tx = .ok ()) : tx.state = .active := by
  refine Decidable.byContradiction fun hs => ?_
  obtain ⟨misuse, hm⟩ := Transaction.checkActive_of_ne hs
  rw [checkRunning, hm] at h
  cases h

theorem of_commit_ok {pointer : Nat} (h : c.commit tx = .ok (pointer, tx', d)) :
    tx.state = .active ∧ tx.id ∈ c.inProgress ∧ tx' = { tx with state := .committed } ∧
      c.Ends tx.id d := by
  unfold commit at h
  split at h
  · cases h
  · next hrun =>
    cases h
    refine ⟨active_of_checkRunning hrun, mem_of_checkRunning hrun, rfl, ?_, ?_, ?_, ?_⟩
    · simp
    · simp
    · simp
    · simp only [stats_finish]; omega

theorem of_abort_ok (h : c.abort tx = .ok (tx', d)) :
    tx.state = .active ∧ tx' = { tx with state := .aborted } ∧ c.Ends tx.id d := by
  have hs : tx.state = .active := Decidable.byContradiction fun hs => by
    obtain ⟨misuse, hm⟩ := abort_of_ne (c := c) hs
    rw [hm] at h
    cases h
  unfold abort at h
  split at h
  · cases h
  · cases h
    refine ⟨hs, rfl, ?_, ?_, ?_, ?_⟩ <;> simp
    omega

theorem ends_invalidate (c : Coordinator) (tx : Transaction) :
    c.Ends tx.id (c.invalidate tx).2 where
  next_le := by simp [invalidate]
  inProgress := by simp [invalidate]
  started := by simp [invalidate]
  ended := by simp only [invalidate, stats_finish]; omega

/-- A reservation starts and ends nothing. -/
theorem exists_reserve_eq (c : Coordinator) (tx : Transaction) (changes : ChangeSet) :
    ∃ reserved conflicts, (c.reserve tx changes).2 =
      { c with reserved, stats := { c.stats with conflicts } } := by
  unfold reserve
  split
  · exact ⟨_, _, rfl⟩
  · dsimp only
    split
    · exact ⟨_, _, rfl⟩
    · exact ⟨_, _, rfl⟩

theorem size_erase_add (ids : Std.ExtTreeSet TxId) (i : TxId) :
    (ids.erase i).size + (if i ∈ ids then 1 else 0) = ids.size := by
  simp only [Std.ExtTreeSet.size_erase, Std.ExtTreeSet.contains_iff_mem]
  by_cases hi : i ∈ ids
  · have hne : ids.size ≠ 0 := fun h => by
      rw [← Std.ExtTreeSet.eq_empty_iff_size_eq_zero] at h
      simp [h] at hi
    rw [if_pos hi, if_pos hi]
    omega
  · rw [if_neg hi, if_neg hi, Nat.add_zero]

/-! ## What a coordinator can have come to -/

/-- Can a coordinator without history have come to this? -/
def Reached (c : Coordinator) : Prop := ∃ requests, (Chronicle.run requests).coordinator = c

theorem Reached.new : Reached new := ⟨[], rfl⟩

theorem Reached.answer (h : c.Reached) (r : Request) : (c.answer r).2.Reached := by
  obtain ⟨requests, rfl⟩ := h
  exact ⟨requests ++ [r], by rw [Chronicle.run_concat, Chronicle.coordinator_serve]⟩

theorem Reached.prune_eq (h : c.Reached) : c.prune = c := by
  obtain ⟨requests, rfl⟩ := h
  rw [(Chronicle.recalls_run requests).pruned, (alike_prune _).prune_eq]

theorem Reached.lt_next (h : c.Reached) (hi : i ∈ c.inProgress) : i < c.next := by
  obtain ⟨requests, rfl⟩ := h
  exact ((Chronicle.inv_run requests).running i hi).2

theorem Reached.not_mem_reserved (h : c.Reached) (hi : i ∉ c.inProgress) : i ∉ c.reserved := by
  obtain ⟨requests, rfl⟩ := h
  exact mt ((Chronicle.inv_run requests).reserved_running i) hi

/-- A transaction that does not run any more is aborted through a handle that was not finished.
Nothing comes of it, but that it is counted. -/
theorem Reached.abort_of_active (h : c.Reached) (hs : tx.state = .active)
    (hi : tx.id ∉ c.inProgress) :
    c.abort tx = .ok ({ tx with state := .aborted },
      { c with stats := { c.stats with aborted := c.stats.aborted + 1 } }) := by
  have hrun : c.inProgress.erase tx.id = c.inProgress := by
    refine Std.ExtTreeSet.ext_mem fun i => ?_
    rw [Std.ExtTreeSet.mem_erase]
    exact and_iff_right_of_imp fun hm e => hi (Nat.compare_eq_eq.1 e ▸ hm)
  have hreserved : c.reserved.erase tx.id = c.reserved := by
    refine Std.ExtTreeMap.ext_getElem? fun i => ?_
    rw [Std.ExtTreeMap.getElem?_erase]
    split
    · next e =>
      obtain rfl : tx.id = i := Nat.compare_eq_eq.1 e
      exact (Std.ExtTreeMap.getElem?_eq_none (h.not_mem_reserved hi)).symm
    · rfl
  have hprune := prune_with c c.reserved c.invalid
    { c.stats with aborted := c.stats.aborted + 1 }
  rw [h.prune_eq] at hprune
  simp only [abort, Transaction.checkActive, hs, finish, hrun, hreserved]
  rw [hprune]

end Coordinator

/-! ## Desks -/

/-- What can be done with a handle. -/
inductive Use
  | copy
  | reserve (changes : ChangeSet)
  | commit
  | abort
  | invalidate

/-- What can be done with a coordinator and the handles it gave out, which are known by their
places. -/
inductive Deed
  | begin
  | forgetInvalid (ids : List TxId)
  | through (place : Nat) (use : Use)

/-- A coordinator and the handles of its transactions. -/
structure Desk where
  coordinator : Coordinator
  handles : List Transaction
  /-- How often a transaction was ended that was not running. -/
  late : Nat

namespace Desk

/-- A coordinator without history. -/
def new : Desk := ⟨Coordinator.new, [], 0⟩

/-- Keeps the handle through which a transaction was ended. -/
def finish (d : Desk) (place : Nat) (tx : Transaction) (c : Coordinator) : Desk where
  coordinator := c
  handles := d.handles.set place tx
  late := if tx.id ∈ d.coordinator.inProgress then d.late else d.late + 1

/-- Uses a handle. -/
def useHandle (d : Desk) (place : Nat) (tx : Transaction) : Use → Desk
  | .copy => { d with handles := d.handles ++ [tx] }
  | .reserve changes => { d with coordinator := (d.coordinator.reserve tx changes).2 }
  | .commit =>
    match d.coordinator.commit tx with
    | .ok (_, tx, c) => d.finish place tx c
    | .error _ => d
  | .abort =>
    match d.coordinator.abort tx with
    | .ok (tx, c) => d.finish place tx c
    | .error _ => d
  | .invalidate => d.finish place (d.coordinator.invalidate tx).1 (d.coordinator.invalidate tx).2

/-- Does something. -/
def act (d : Desk) : Deed → Desk
  | .begin =>
    { d with
      coordinator := d.coordinator.begin.2
      handles := d.handles ++ [d.coordinator.begin.1] }
  | .forgetInvalid ids => { d with coordinator := (d.coordinator.forgetInvalid ids).2 }
  | .through place use =>
    match d.handles[place]? with
    | some tx => d.useHandle place tx use
    | none => d

/-- What becomes of a coordinator without history. -/
def run (deeds : List Deed) : Desk := deeds.foldl act new

variable {d : Desk} {place : Nat} {tx : Transaction} {use : Use} {i : Nat}

/-- Did the transaction begin, and end? -/
def Past (d : Desk) (i : TxId) : Prop := i < d.coordinator.next ∧ i ∉ d.coordinator.inProgress

/-- What holds at every moment. -/
structure Inv (d : Desk) : Prop where
  reached : d.coordinator.Reached
  handle : ∀ tx ∈ d.handles, tx.id < d.coordinator.next
  finished : ∀ tx ∈ d.handles, tx.state ≠ .active → tx.id ∉ d.coordinator.inProgress
  balance : d.coordinator.stats.started + d.late =
    d.coordinator.stats.committed + d.coordinator.stats.aborted + d.coordinator.runningCount

theorem inv_new : Inv new where
  reached := .new
  handle := nofun
  finished := nofun
  balance := rfl

namespace Inv

/-- A transaction is ended through a handle. -/
theorem finish (hd : d.Inv) (hh : d.handles[place]? = some tx) {state : TransactionState}
    {c : Coordinator} (hc : c.Reached) (he : d.coordinator.Ends tx.id c) :
    (d.finish place { tx with state } c).Inv where
  reached := hc
  handle other ho := by
    refine Nat.lt_of_lt_of_le ?_ he.next_le
    rcases List.mem_or_eq_of_mem_set ho with ho | rfl
    · exact hd.handle other ho
    · exact hd.handle tx (List.mem_of_getElem? hh)
  finished other ho hne := by
    show other.id ∉ c.inProgress
    rw [he.inProgress, Std.ExtTreeSet.mem_erase]
    rcases List.mem_or_eq_of_mem_set ho with ho | rfl
    · exact fun h => hd.finished other ho hne h.2
    · exact fun h => h.1 (Nat.compare_eq_eq.2 rfl)
  balance := by
    have hbalance := hd.balance
    have hsize := Coordinator.size_erase_add d.coordinator.inProgress tx.id
    have hstarted := he.started
    have hended := he.ended
    simp only [Desk.finish, Coordinator.runningCount, he.inProgress] at hbalance ⊢
    by_cases hm : tx.id ∈ d.coordinator.inProgress
    · rw [if_pos hm] at hsize ⊢
      omega
    · rw [if_neg hm] at hsize ⊢
      omega

theorem useHandle (hd : d.Inv) (hh : d.handles[place]? = some tx) (use : Use) :
    (d.useHandle place tx use).Inv := by
  cases use with
  | copy =>
    have hmem : ∀ other, other ∈ d.handles ++ [tx] → other ∈ d.handles := by
      intro other ho
      rcases List.mem_append.1 ho with ho | ho
      · exact ho
      · rw [List.mem_singleton.1 ho]
        exact List.mem_of_getElem? hh
    exact ⟨hd.reached, fun other ho => hd.handle other (hmem other ho),
      fun other ho => hd.finished other (hmem other ho), hd.balance⟩
  | reserve changes =>
    obtain ⟨reserved, conflicts, hreserve⟩ := d.coordinator.exists_reserve_eq tx changes
    have hreached := hd.reached.answer (.reserve tx changes)
    simp only [Coordinator.answer, Coordinator.replyBy] at hreached
    simp only [Desk.useHandle]
    rw [hreserve] at hreached ⊢
    exact ⟨hreached, hd.handle, hd.finished, hd.balance⟩
  | commit =>
    have hreached := hd.reached.answer (.commit tx)
    simp only [Desk.useHandle]
    split
    · next hcommit =>
      obtain ⟨-, -, rfl, he⟩ := Coordinator.of_commit_ok hcommit
      simp only [Coordinator.answer, Coordinator.replyBy, hcommit] at hreached
      exact hd.finish hh hreached he
    · exact hd
  | abort =>
    have hreached := hd.reached.answer (.abort tx)
    simp only [Desk.useHandle]
    split
    · next habort =>
      obtain ⟨-, rfl, he⟩ := Coordinator.of_abort_ok habort
      simp only [Coordinator.answer, Coordinator.replyBy, habort] at hreached
      exact hd.finish hh hreached he
    · exact hd
  | invalidate =>
    exact hd.finish hh (hd.reached.answer (.invalidate tx)) (d.coordinator.ends_invalidate tx)

theorem act (hd : d.Inv) (deed : Deed) : (d.act deed).Inv := by
  cases deed with
  | begin =>
    have hnext : d.coordinator.next ∉ d.coordinator.inProgress := fun h =>
      Nat.lt_irrefl _ (hd.reached.lt_next h)
    refine ⟨hd.reached.answer .begin, fun tx ht => ?_, fun tx ht hs => ?_, ?_⟩
    · rcases List.mem_append.1 ht with ht | ht
      · exact Nat.lt_succ_of_lt (hd.handle tx ht)
      · rw [List.mem_singleton.1 ht]
        exact Nat.lt_succ_self _
    · rcases List.mem_append.1 ht with ht | ht
      · rw [Desk.act, Chronicle.Inv.mem_begin]
        rintro (h | h)
        · exact Nat.ne_of_lt (hd.handle tx ht) h
        · exact hd.finished tx ht hs h
      · rw [List.mem_singleton.1 ht] at hs
        exact absurd rfl hs
    · have hbalance := hd.balance
      have hsize : (d.coordinator.inProgress.insert d.coordinator.next).size =
          d.coordinator.inProgress.size + 1 := by
        simp only [Std.ExtTreeSet.size_insert, Std.ExtTreeSet.contains_iff_mem, hnext, if_false]
      simp only [Desk.act, Coordinator.begin, Coordinator.runningCount, hsize] at hbalance ⊢
      omega
  | forgetInvalid ids =>
    exact ⟨hd.reached.answer (.forgetInvalid ids), hd.handle, hd.finished, hd.balance⟩
  | through place use =>
    simp only [Desk.act]
    split
    · next tx hh => exact hd.useHandle hh use
    · exact hd

end Inv

theorem run_append (deeds later : List Deed) : run (deeds ++ later) = later.foldl act (run deeds) :=
  List.foldl_append

theorem inv_run (deeds : List Deed) : (run deeds).Inv := by
  suffices ∀ d : Desk, d.Inv → (deeds.foldl act d).Inv from this new inv_new
  induction deeds with
  | nil => exact fun d hd => hd
  | cons deed deeds ih => exact fun d hd => ih _ (hd.act deed)

/-! ## Transactions that ended -/

theorem past_of_finished (hd : d.Inv) (hh : d.handles[place]? = some tx) (hs : tx.state ≠ .active) :
    d.Past tx.id :=
  have hm := List.mem_of_getElem? hh
  ⟨hd.handle tx hm, hd.finished tx hm hs⟩

theorem Past.finish (h : d.Past i) {c : Coordinator} (he : d.coordinator.Ends tx.id c) (tx') :
    (d.finish place tx' c).Past i :=
  ⟨Nat.lt_of_lt_of_le h.1 he.next_le, fun hi => h.2 (Std.ExtTreeSet.mem_of_mem_erase
    (he.inProgress ▸ hi))⟩

theorem Past.act (h : d.Past i) (deed : Deed) : (d.act deed).Past i := by
  cases deed with
  | begin =>
    refine ⟨Nat.lt_succ_of_lt h.1, ?_⟩
    rw [Desk.act, Chronicle.Inv.mem_begin]
    rintro (hi | hi)
    · exact Nat.ne_of_lt h.1 hi
    · exact h.2 hi
  | forgetInvalid ids => exact h
  | through place use =>
    simp only [Desk.act]
    split
    · next tx hh =>
      cases use with
      | copy => exact h
      | reserve changes =>
        obtain ⟨reserved, conflicts, hreserve⟩ := d.coordinator.exists_reserve_eq tx changes
        simp only [Past, useHandle]
        rw [hreserve]
        exact h
      | commit =>
        simp only [useHandle]
        split
        · next hcommit => exact h.finish (Coordinator.of_commit_ok hcommit).2.2.2 _
        · exact h
      | abort =>
        simp only [useHandle]
        split
        · next habort => exact h.finish (Coordinator.of_abort_ok habort).2.2 _
        · exact h
      | invalidate => exact h.finish (d.coordinator.ends_invalidate tx) _
    · exact h

theorem Past.foldl (h : d.Past i) (deeds : List Deed) : (deeds.foldl Desk.act d).Past i := by
  induction deeds generalizing d with
  | nil => exact h
  | cons deed deeds ih => exact ih (h.act deed)

/-- What comes of a handle whose transaction ended.  It is not committed, and not aborted if it was
finished through this handle.  Otherwise it is aborted, and counted again. -/
structure Refused (d : Desk) (place : Nat) (tx : Transaction) : Prop where
  commit : ∃ misuse, d.coordinator.commit tx = .error (.invalidOperation misuse)
  act_commit : d.act (.through place .commit) = d
  abort : tx.state ≠ .active →
    (∃ misuse, d.coordinator.abort tx = .error (.invalidOperation misuse)) ∧
      d.act (.through place .abort) = d
  abort_again : tx.state = .active →
    (d.coordinator.abort tx).isOk ∧
      d.act (.through place .abort) =
        { coordinator :=
            { d.coordinator with
              stats := { d.coordinator.stats with aborted := d.coordinator.stats.aborted + 1 } }
          handles := d.handles.set place { tx with state := .aborted }
          late := d.late + 1 }

theorem Inv.refused (hd : d.Inv) (hh : d.handles[place]? = some tx) (h : d.Past tx.id) :
    d.Refused place tx where
  commit := Coordinator.commit_of_not_mem h.2
  act_commit := by
    obtain ⟨misuse, hm⟩ := Coordinator.commit_of_not_mem h.2
    simp only [Desk.act, hh, Desk.useHandle, hm]
  abort hs := by
    obtain ⟨misuse, hm⟩ := Coordinator.abort_of_ne (c := d.coordinator) hs
    exact ⟨⟨misuse, hm⟩, by simp only [Desk.act, hh, Desk.useHandle, hm]⟩
  abort_again hs := by
    have habort := hd.reached.abort_of_active hs h.2
    refine ⟨by rw [habort]; rfl, ?_⟩
    simp only [Desk.act, hh, Desk.useHandle, habort, Desk.finish, if_neg h.2]

/-! ## Without copies -/

/-- Has each transaction one handle, that was finished when it ended? -/
structure Single (d : Desk) : Prop where
  distinct : ∀ {place other : Nat} {tx tx' : Transaction}, d.handles[place]? = some tx →
    d.handles[other]? = some tx' → tx.id = tx'.id → place = other
  running : ∀ {place : Nat} {tx : Transaction}, d.handles[place]? = some tx →
    tx.state = .active → tx.id ∈ d.coordinator.inProgress
  onTime : d.late = 0

namespace Single

theorem finish (h : d.Single) (hh : d.handles[place]? = some tx)
    (hm : tx.id ∈ d.coordinator.inProgress) {state : TransactionState} (hs : state ≠ .active)
    {c : Coordinator} (he : d.coordinator.Ends tx.id c) :
    (d.finish place { tx with state } c).Single := by
  have hset : ∀ {other tx'}, (d.handles.set place { tx with state })[other]? = some tx' →
      (other = place ∧ tx' = { tx with state }) ∨
        (other ≠ place ∧ d.handles[other]? = some tx') := by
    intro other tx' ho
    rw [List.getElem?_set] at ho
    split at ho
    · next e =>
      split at ho
      · exact .inl ⟨e.symm, (Option.some.inj ho).symm⟩
      · cases ho
    · next hne => exact .inr ⟨Ne.symm hne, ho⟩
  refine ⟨fun {p q tx₁ tx₂} h₁ h₂ e => ?_, fun {p tx₁} h₁ hs₁ => ?_, ?_⟩
  · rcases hset h₁ with ⟨hp, rfl⟩ | ⟨-, hp⟩ <;> rcases hset h₂ with ⟨hq, rfl⟩ | ⟨-, hq⟩
    · rw [hp, hq]
    · exact hp ▸ h.distinct hh hq e
    · exact hq ▸ h.distinct hp hh e
    · exact h.distinct hp hq e
  · rcases hset h₁ with ⟨-, rfl⟩ | ⟨hne, h₁⟩
    · exact absurd hs₁ hs
    · show tx₁.id ∈ c.inProgress
      rw [he.inProgress, Std.ExtTreeSet.mem_erase]
      exact ⟨fun e => hne (h.distinct h₁ hh (Nat.compare_eq_eq.1 e).symm), h.running h₁ hs₁⟩
  · exact (if_pos hm).trans h.onTime

theorem begin (h : d.Single) (hd : d.Inv) : (d.act .begin).Single := by
  have hold : ∀ {place : Nat} {tx : Transaction}, d.handles[place]? = some tx →
      tx.id < d.coordinator.next := fun hh => hd.handle _ (List.mem_of_getElem? hh)
  have hnew : ∀ {place : Nat} {tx : Transaction},
      (d.handles ++ [d.coordinator.begin.1])[place]? = some tx →
      d.handles[place]? = some tx ∨ (place = d.handles.length ∧ tx = d.coordinator.begin.1) := by
    intro place tx hh
    rw [List.getElem?_append] at hh
    split at hh
    · exact .inl hh
    · next hle =>
      rw [List.getElem?_singleton] at hh
      split at hh
      · exact .inr ⟨by omega, (Option.some.inj hh).symm⟩
      · cases hh
  refine ⟨fun {p q tx₁ tx₂} h₁ h₂ e => ?_, fun {p tx₁} h₁ hs => ?_, h.onTime⟩
  · rcases hnew h₁ with h₁ | ⟨rfl, rfl⟩ <;> rcases hnew h₂ with h₂ | ⟨rfl, rfl⟩
    · exact h.distinct h₁ h₂ e
    · exact absurd e (Nat.ne_of_lt (hold h₁))
    · exact absurd e.symm (Nat.ne_of_lt (hold h₂))
    · rfl
  · rw [Desk.act, Chronicle.Inv.mem_begin]
    rcases hnew h₁ with h₁ | ⟨-, rfl⟩
    · exact .inr (h.running h₁ hs)
    · exact .inl rfl

theorem act (h : d.Single) (hd : d.Inv) {deed : Deed} (hcopy : ∀ place, deed ≠ .through place .copy)
    (hinvalidate : ∀ place, deed ≠ .through place .invalidate) : (d.act deed).Single := by
  cases deed with
  | begin => exact h.begin hd
  | forgetInvalid ids => exact ⟨h.distinct, h.running, h.onTime⟩
  | through place use =>
    simp only [Desk.act]
    split
    · next tx hh =>
      cases use with
      | copy => exact absurd rfl (hcopy place)
      | invalidate => exact absurd rfl (hinvalidate place)
      | reserve changes =>
        obtain ⟨reserved, conflicts, hreserve⟩ := d.coordinator.exists_reserve_eq tx changes
        simp only [Desk.useHandle]
        rw [hreserve]
        exact ⟨h.distinct, h.running, h.onTime⟩
      | commit =>
        simp only [Desk.useHandle]
        split
        · next hcommit =>
          obtain ⟨-, hm, rfl, he⟩ := Coordinator.of_commit_ok hcommit
          exact h.finish hh hm (by decide) he
        · exact h
      | abort =>
        simp only [Desk.useHandle]
        split
        · next habort =>
          obtain ⟨hs, rfl, he⟩ := Coordinator.of_abort_ok habort
          exact h.finish hh (h.running hh hs) (by decide) he
        · exact h
    · exact h

end Single

theorem single_run {deeds : List Deed} (hcopy : ∀ place, .through place .copy ∉ deeds)
    (hinvalidate : ∀ place, .through place .invalidate ∉ deeds) : (run deeds).Single := by
  have hnew : new.Single := ⟨nofun, nofun, rfl⟩
  suffices ∀ d : Desk, d.Inv → d.Single → (deeds.foldl act d).Single from this new inv_new hnew
  induction deeds with
  | nil => exact fun d _ h => h
  | cons deed deeds ih =>
    intro d hd h
    refine ih (fun place hm => hcopy place (List.mem_cons_of_mem _ hm))
      (fun place hm => hinvalidate place (List.mem_cons_of_mem _ hm)) _ (hd.act deed)
      (h.act hd ?_ ?_)
    · exact fun place e => hcopy place (e ▸ List.mem_cons_self)
    · exact fun place e => hinvalidate place (e ▸ List.mem_cons_self)

/-- At every moment as many transactions have begun as were committed, were aborted, or are running,
but for those that were ended when they were not running.  There are none of these as long as no
handle is copied, and none invalidated.  Once a transaction was finished through one of its handles,
the others are refused, but for an abort through one that was not finished. -/
theorem finished_once (deeds : List Deed) :
    (run deeds).coordinator.stats.started + (run deeds).late =
      (run deeds).coordinator.stats.committed + (run deeds).coordinator.stats.aborted +
        (run deeds).coordinator.runningCount ∧
    ((∀ place, .through place .copy ∉ deeds ∧ .through place .invalidate ∉ deeds) →
      (run deeds).late = 0) ∧
    ∀ (place : Nat) (tx : Transaction),
      (run deeds).handles[place]? = some tx → tx.state ≠ .active →
      ∀ (later : List Deed) (other : Nat) (tx' : Transaction),
        (run (deeds ++ later)).handles[other]? = some tx' → tx'.id = tx.id →
        (run (deeds ++ later)).Refused other tx' := by
  refine ⟨(inv_run deeds).balance, fun h => ?_, fun place tx hh hs later other tx' hh' e => ?_⟩
  · exact (single_run (fun place => (h place).1) fun place => (h place).2).onTime
  · have hpast := (past_of_finished (inv_run deeds) hh hs).foldl later
    rw [← run_append, ← e] at hpast
    exact (inv_run _).refused hh' hpast

/-- A transaction is committed through one handle, and aborted through a copy of it. -/
theorem finished_once_beside_copy :
    ∃ (deeds later : List Deed) (place other : Nat) (tx tx' : Transaction),
      (run deeds).handles[place]? = some tx ∧ tx.state ≠ .active ∧
      (run (deeds ++ later)).handles[other]? = some tx' ∧ tx'.id = tx.id ∧
      (run (deeds ++ later)).Refused other tx' ∧
      (run deeds).coordinator.stats = ⟨1, 1, 0, 0, 0⟩ ∧
      (run (deeds ++ [.through other .abort])).coordinator.stats = ⟨1, 1, 1, 0, 0⟩ := by
  let deeds : List Deed := [.begin, .through 0 .copy, .through 0 .commit]
  have hh : (run deeds).handles[0]? = some ⟨1, 0, [], .committed⟩ := by decide +kernel
  have hh' : (run (deeds ++ [])).handles[1]? = some ⟨1, 0, [], .active⟩ := by decide +kernel
  have hrefused := (finished_once deeds).2.2 0 _ hh (by decide) [] 1 _ hh' rfl
  have hstats : (run deeds).coordinator.stats = ⟨1, 1, 0, 0, 0⟩ := by
    have hcommit : Coordinator.new.begin.2.commit Coordinator.new.begin.1 = _ :=
      Coordinator.commit_of_mem rfl (by decide +kernel)
    show (useHandle ⟨Coordinator.new.begin.2, _, _⟩ 0 Coordinator.new.begin.1 .commit).1.stats = _
    simp only [useHandle, hcommit, Desk.finish, Coordinator.stats_finish]
    rfl
  refine ⟨deeds, [], 0, 1, _, _, hh, by decide, hh', rfl, hrefused, hstats, ?_⟩
  rw [List.append_nil] at hrefused
  have hact := (hrefused.abort_again rfl).2
  rw [run_append, List.foldl_cons, List.foldl_nil, hact, hstats]

end Desk

end NamespaceCatalog
