import NamespaceCatalog.Proofs.Versions

/-!
# What a prune leaves of a row

A row is pruned when none of its writers is dead, at most one of its versions is settled, and the
oldest one is no settled delete (`IsPruned`).  A prune makes every row so (`isPruned_prune`), and
the rows it leaves as they are are just these (`prune_eq_self_iff`).  Nobody who sees the settled
writers and no dead one can tell whether a row was pruned (`prune_keeps_reads`).
-/

namespace NamespaceCatalog.Version

variable {h : Horizon} {v : Version} {vs : List Version}

theorem isDead_of_mem_prune (hv : v ∈ prune h vs) : h.isDead v.writer = false := by
  have := (dropHidden_sublist h _).subset ((dropLastDelete_sublist h _).subset hv)
  simpa using (List.mem_filter.1 this).2

theorem countP_settled_dropHidden (h : Horizon) (vs : List Version) :
    (dropHidden h vs).countP (fun v => h.isSettled v.writer) ≤ 1 := by
  induction vs with
  | nil => exact Nat.zero_le 1
  | cons v vs ih =>
    rw [dropHidden]
    split
    · next hv =>
      have hrest : (vs.filter fun v => !h.isSettled v.writer).countP
          (fun v => h.isSettled v.writer) = 0 := by simp
      simp only [List.countP_cons, hrest, if_pos hv, Nat.zero_add, Nat.le_refl]
    · next hv =>
      rw [List.countP_cons, if_neg hv, Nat.add_zero]
      exact ih

/-- A prune leaves one settled version of a row at most. -/
theorem countP_settled_prune (h : Horizon) (vs : List Version) :
    (prune h vs).countP (fun v => h.isSettled v.writer) ≤ 1 :=
  Nat.le_trans (dropLastDelete_sublist h _).countP_le (countP_settled_dropHidden h _)

/-! ## Pruned rows -/

/-- Is there nothing that a prune could drop? -/
structure IsPruned (h : Horizon) (vs : List Version) : Prop where
  alive : ∀ v ∈ vs, h.isDead v.writer = false
  settled : vs.countP (fun v => h.isSettled v.writer) ≤ 1
  oldest : ∀ v, vs.getLast? = some v → isSettledDelete h v = false

/-- There is no second settled delete behind the one that is dropped. -/
theorem oldest_dropLastDelete (hvs : vs.countP (fun v => h.isSettled v.writer) ≤ 1)
    (hv : (dropLastDelete h vs).getLast? = some v) : isSettledDelete h v = false := by
  obtain ⟨d, e, hd⟩ | ⟨e, hlast⟩ := dropLastDelete_cases h vs
  · rw [e, List.countP_append, List.countP_singleton,
      if_pos (isSettledDelete_iff.1 hd).2] at hvs
    have hfront : (dropLastDelete h vs).countP (fun v => h.isSettled v.writer) = 0 := by omega
    have hunsettled := List.countP_eq_zero.1 hfront v (List.mem_of_getLast? hv)
    exact Bool.eq_false_iff.2 fun hv => hunsettled (isSettledDelete_iff.1 hv).2
  · exact Bool.eq_false_iff.2 (hlast v (e ▸ hv))

theorem isPruned_prune (h : Horizon) (vs : List Version) : IsPruned h (prune h vs) where
  alive _ := isDead_of_mem_prune
  settled := countP_settled_prune h vs
  oldest _ := oldest_dropLastDelete (countP_settled_dropHidden h _)

theorem dropHidden_eq_self (hvs : vs.countP (fun v => h.isSettled v.writer) ≤ 1) :
    dropHidden h vs = vs := by
  induction vs with
  | nil => rfl
  | cons v vs ih =>
    rw [dropHidden]
    split
    · next hv =>
      have hrest : vs.countP (fun v => h.isSettled v.writer) = 0 := by
        rw [List.countP_cons, if_pos hv] at hvs
        omega
      have hkept : ∀ w ∈ vs, (!h.isSettled w.writer) = true := fun w hw => by
        simpa using List.countP_eq_zero.1 hrest w hw
      rw [List.filter_eq_self.2 hkept]
    · next hv =>
      rw [List.countP_cons, if_neg hv, Nat.add_zero] at hvs
      rw [ih hvs]

/-- A prune leaves a row as it is when it is pruned, and not otherwise. -/
theorem prune_eq_self_iff : prune h vs = vs ↔ IsPruned h vs := by
  constructor
  · intro e
    exact e ▸ isPruned_prune h vs
  · intro hvs
    have halive : vs.filter (fun v => !h.isDead v.writer) = vs :=
      List.filter_eq_self.2 fun v hv => by rw [hvs.alive v hv, Bool.not_false]
    have hlast : ¬ vs.getLast?.any (isSettledDelete h) := by
      rw [Option.any_eq_true]
      rintro ⟨v, hv, hdelete⟩
      rw [hvs.oldest v hv] at hdelete
      cases hdelete
    rw [prune, halive, dropHidden_eq_self hvs.settled, dropLastDelete, if_neg hlast]

/-! ## Rows that need no other prune -/

theorem isUnsettled_eq_false_iff :
    isUnsettled h vs = false ↔ vs = [] ∨ ∃ v, vs = [v] ∧ h.isSettled v.writer := by
  match vs with
  | [] => simp [isUnsettled]
  | [v] => simp [isUnsettled]
  | v :: w :: vs => simp [isUnsettled]

/-- Nothing more can be dropped of a row, if none of its writers runs. -/
theorem isUnsettled_prune_of_forall (hs : ∀ v ∈ vs, h.isSettled v.writer ∨ h.isDead v.writer) :
    isUnsettled h (prune h vs) = false := by
  have hsettled : ∀ v ∈ prune h vs, h.isSettled v.writer := fun v hv =>
    (hs v ((prune_sublist h vs).subset hv)).resolve_right
      (Bool.eq_false_iff.1 (isDead_of_mem_prune hv))
  have hlen := countP_settled_prune h vs
  rw [List.countP_eq_length.2 hsettled] at hlen
  cases e : prune h vs with
  | nil => rfl
  | cons v ws =>
    obtain rfl : ws = [] := by simpa [e] using hlen
    simpa [isUnsettled] using hsettled v (e ▸ List.mem_cons_self)

/-- What is left of a row that is not dirty any more. -/
theorem prune_eq_singleton (hne : prune h vs ≠ []) (hu : isUnsettled h (prune h vs) = false) :
    ∃ v, prune h vs = [v] ∧ v.value ≠ none ∧ h.isSettled v.writer := by
  obtain ⟨v, hv, hs⟩ := (isUnsettled_eq_false_iff.1 hu).resolve_left hne
  refine ⟨v, hv, fun hn => ?_, hs⟩
  have hold : isSettledDelete h v = false := (isPruned_prune h vs).oldest v (by rw [hv]; rfl)
  exact Bool.eq_false_iff.1 hold (isSettledDelete_iff.2 ⟨hn, hs⟩)

/-! ## Reading a pruned row -/

/-- Who sees every settled writer of the row and no dead one reads the same after a prune.  Another
prune with the same horizon drops nothing.  The row is done with if no version of it is left, or a
single one that is settled; otherwise a later horizon may drop more. -/
theorem prune_keeps_reads (h : Horizon) (vs : List Version) :
    (∀ tx : Transaction, (∀ v ∈ vs, h.isSettled v.writer → tx.sees v.writer) →
      (∀ v ∈ vs, h.isDead v.writer → ¬ tx.sees v.writer) →
      visible tx (prune h vs) = visible tx vs) ∧
    IsPruned h (prune h vs) ∧ prune h (prune h vs) = prune h vs ∧
    (isUnsettled h (prune h vs) = false ↔
      prune h vs = [] ∨ ∃ v, prune h vs = [v] ∧ h.isSettled v.writer) := by
  refine ⟨fun tx hsettled hdead => ?_, isPruned_prune h vs, ?_, isUnsettled_eq_false_iff⟩
  · rw [visible_eq_newest, visible_eq_newest]
    exact newest_prune hsettled hdead
  · exact prune_eq_self_iff.2 (isPruned_prune h vs)

/-- The writer 3 is dead, and 5 is running. -/
def midway : Horizon := ⟨7, Std.ExtTreeSet.ofList [5], Std.ExtTreeSet.ofList [3]⟩

/-- One who began beside 5. -/
def bystander : Transaction := ⟨6, 5, [3, 5], .active⟩

/-- A row on which 2 and 3 wrote a value, 4 deleted it, and 5 writes one again. -/
def rewritten : List Version := [⟨5, some [8]⟩, ⟨4, none⟩, ⟨3, some [7]⟩, ⟨2, some [6]⟩]

/-- Nothing is left but the version of 5, and the row still reads as deleted. -/
theorem prune_keeps_reads_beside_writer :
    (∀ v ∈ rewritten, midway.isSettled v.writer → bystander.sees v.writer) ∧
    (∀ v ∈ rewritten, midway.isDead v.writer → ¬ bystander.sees v.writer) ∧
    prune midway rewritten = [⟨5, some [8]⟩] ∧
    visible bystander (prune midway rewritten) = visible bystander rewritten ∧
    visible bystander rewritten = none ∧ isUnsettled midway (prune midway rewritten) := by
  have hsettled : ∀ v ∈ rewritten, midway.isSettled v.writer → bystander.sees v.writer := by
    decide +kernel
  have hdead : ∀ v ∈ rewritten, midway.isDead v.writer → ¬ bystander.sees v.writer := by
    decide +kernel
  have hkept : prune midway rewritten = [⟨5, some [8]⟩] := by decide +kernel
  obtain ⟨hreads, -, -, hdone⟩ := prune_keeps_reads midway rewritten
  refine ⟨hsettled, hdead, hkept, hreads bystander hsettled hdead, by decide +kernel, ?_⟩
  rw [← Bool.not_eq_false, hdone, hkept]
  rintro (e | ⟨v, e, hv⟩)
  · cases e
  · cases e
    exact absurd hv (by decide +kernel)

end NamespaceCatalog.Version
