import NamespaceCatalog.Proofs.Attempts

/-!
# Calls

A call of an executor is a run of a scene that its attempts take part in, one after the other
(`Scene.called_execute`).  If the call fails, all of them were rolled back, and none of them
committed; if it succeeds, the last one committed, and no other.

So what a failing call wrote to a table with a journal is gone when the table is opened again, but
for the frames that were written before a flush failed (`Scene.reopened_rows_of_call`).
-/

namespace NamespaceCatalog

namespace Scene

variable {ρ α : Type} {s d : Scene} {w w' : World ρ} {m : Nat} {tx : Transaction}
  {ps : List Overlay} {p : Progress} {x : Executor ρ Overlay} {body : Body ρ Overlay α}

/-! ## Who acts in a run -/

theorem Inv.running_of_actsAt (h : Inv s) {e : Event} {i : TxId} {t : TableId} (hd : Step s e d)
    (he : e.ActsAt i t) : i ∈ s.coordinator.inProgress := by
  refine (h.running i).2 ?_
  rcases he with rfl | rfl | rfl
  · cases hd with
    | install ha hp => exact ⟨_, ha, by simp [hp]⟩
  · cases hd with
    | failInstall ha hp => exact ⟨_, ha, by simp [hp]⟩
  · cases hd with
    | rollback ha hp => exact ⟨_, ha, by simp [hp]⟩

/-- Who began after a run has not acted in it. -/
theorem Run.not_actsAt_of_next_le {tr : Trace} (h : Run s tr d) (hs : Inv s) :
    Inv d ∧ ∀ i : Nat, d.coordinator.next ≤ i → ∀ q ∈ tr, ∀ t, ¬q.2.ActsAt i t := by
  induction h with
  | refl => exact ⟨hs, by simp⟩
  | tail _ hd ih =>
    obtain ⟨inv, ih⟩ := ih
    refine ⟨inv.step hd, fun i hi => ?_⟩
    have hi := Nat.le_trans (inv.advances hd).1.next_le hi
    refine List.forall_mem_cons.2 ⟨fun t he => ?_, ih i hi⟩
    exact inv.chronicle.not_running_of_next_le hi (inv.running_of_actsAt hd he)

/-- Who is over does not act any more. -/
theorem Run.not_actsAt_of_over {tr : Trace} (h : Run s tr d) (hs : Inv s) {i : Nat}
    (hi : i ∉ s.coordinator.inProgress) (hlt : i < s.coordinator.next) :
    Inv d ∧ i ∉ d.coordinator.inProgress ∧ i < d.coordinator.next ∧
      ∀ q ∈ tr, ∀ t, ¬q.2.ActsAt i t := by
  induction h with
  | refl => exact ⟨hs, hi, hlt, by simp⟩
  | tail _ hd ih =>
    obtain ⟨inv, hi, hlt, ih⟩ := ih
    have adv := (inv.advances hd).1
    refine ⟨inv.step hd, fun hrun => ?_, Nat.lt_of_lt_of_le hlt adv.next_le,
      List.forall_mem_cons.2 ⟨fun t he => hi (inv.running_of_actsAt hd he), ih⟩⟩
    exact (adv.running i hrun).elim hi (Nat.not_le.2 hlt)

/-! ## One attempt after another -/

/-- The scene `d` shows the world after a call of which these attempts failed, the last one first,
and that one committed, if one did. -/
structure Called (s : Scene) (m : Nat) (attempts : List TxId) (done : Option TxId) (tr : Trace)
    (d : Scene) (w : World ρ) : Prop where
  run : Run s tr d
  inv : Inv d
  shows : d.Shows m w
  next_le : s.coordinator.next ≤ d.coordinator.next
  events : ∀ q ∈ tr, ∃ i, (i ∈ attempts ∨ done = some i) ∧ q.2.IsOf i
  numbers : ∀ i, i ∈ attempts ∨ done = some i → s.coordinator.next ≤ i ∧ i < d.coordinator.next
  ended : ∀ i, i ∈ attempts ∨ done = some i → i ∉ d.coordinator.inProgress
  failed : tr.Failed attempts
  committed : ∀ i, (∃ d, (d, .commit i) ∈ tr) ↔ done = some i

theorem called_nil (hs : Inv s) (hw : s.Shows m w) : s.Called m [] none [] s w where
  run := .refl
  inv := hs
  shows := hw
  next_le := Nat.le_refl _
  events := by simp
  numbers := by simp
  ended := by simp
  failed := by simp [Trace.Failed]
  committed := by simp

namespace Called

variable {attempts : List TxId} {tr tr' : Trace} {d' : Scene} {a : Actor}

theorem congr {done : Option TxId} (h : s.Called m attempts done tr d w)
    (hc : w'.coordinator = w.coordinator) (hs : w'.site = w.site) :
    s.Called m attempts done tr d w' :=
  { h with
    shows := h.shows.congr hc hs }

/-- No event of the next attempt is one of an attempt before it. -/
theorem ne_of_mem (h : s.Called m attempts none tr d w) (h' : d.Acting m tx p w' ps tr' d' a)
    {i : TxId} (hi : i ∈ attempts) : i ≠ tx.id := by
  rintro rfl
  exact absurd (h.numbers _ (.inl hi)).2 (Nat.not_lt.2 h'.leads.born.1)

theorem failed_append (h : s.Called m attempts none tr d w) (h' : d.Acting m tx p w' ps tr' d' a) :
    Trace.Failed (tr' ++ tr) attempts := by
  intro i hi
  obtain ⟨⟨d₁, hd₁⟩, hroll⟩ := h.failed i hi
  refine ⟨⟨d₁, hd₁.imp (List.mem_append_right _) (List.mem_append_right _)⟩, ?_⟩
  rintro t ⟨d₂, hd₂⟩
  rcases List.mem_append.1 hd₂ with hd₂ | hd₂
  · exact absurd (h'.leads.events _ hd₂) (h.ne_of_mem h' hi)
  · obtain ⟨d₃, hd₃⟩ := hroll t ⟨d₂, hd₂⟩
    exact ⟨d₃, List.mem_append_right _ hd₃⟩

theorem failed_cons (h : s.Called m attempts none tr d w) (h' : d.Acting m tx p w' ps tr' d' a)
    (htx : tx.state = .aborted) : Trace.Failed (tr' ++ tr) (tx.id :: attempts) := by
  refine List.forall_mem_cons.2 ⟨?_, h.failed_append h'⟩
  obtain ⟨⟨d₁, hd₁⟩, hroll⟩ := h'.ends.aborted htx
  refine ⟨⟨d₁, .inl (List.mem_append_left _ hd₁)⟩, ?_⟩
  rintro t ⟨d₂, hd₂⟩
  rcases List.mem_append.1 hd₂ with hd₂ | hd₂
  · obtain ⟨d₃, hd₃⟩ := hroll t (h'.ends.installs t d₂ hd₂)
    exact ⟨d₃, List.mem_append_left _ hd₃⟩
  · obtain ⟨i, hi | hi, e⟩ := h.events _ hd₂
    · exact absurd e.symm (h.ne_of_mem h' hi)
    · cases hi

/-- One more attempt. -/
theorem tail (h : s.Called m attempts none tr d w) (h' : d.Acting m tx .over w' ps tr' d' a)
    {attempts' : List TxId} {done : Option TxId}
    (hids : ∀ i, i ∈ attempts' ∨ done = some i ↔ i = tx.id ∨ i ∈ attempts)
    (hfailed : Trace.Failed (tr' ++ tr) attempts')
    (hdone : ∀ i, (∃ d, (d, .commit i) ∈ tr') ↔ done = some i) :
    s.Called m attempts' done (tr' ++ tr) d' w' where
  run := h.run.trans h'.leads.run
  inv := h'.leads.inv
  shows := h'.shows
  next_le := Nat.le_trans h.next_le (Nat.le_trans h'.leads.born.1 (Nat.le_of_lt h'.leads.born.2))
  events q hq := by
    rcases List.mem_append.1 hq with hq | hq
    · exact ⟨tx.id, (hids _).2 (.inl rfl), h'.leads.events q hq⟩
    · obtain ⟨i, hi | hi, e⟩ := h.events q hq
      · exact ⟨i, (hids _).2 (.inr hi), e⟩
      · cases hi
  numbers i hi := by
    obtain ⟨hle, hlt⟩ := h'.leads.born
    rcases (hids i).1 hi with rfl | hi
    · exact ⟨Nat.le_trans h.next_le hle, hlt⟩
    · obtain ⟨hle', hlt'⟩ := h.numbers i (.inl hi)
      exact ⟨hle', Nat.lt_trans (Nat.lt_of_lt_of_le hlt' hle) hlt⟩
  ended i hi := by
    rcases (hids i).1 hi with rfl | hi
    · intro hrun
      obtain ⟨b, hb, hp⟩ := (h'.leads.inv.running _).1 hrun
      obtain rfl := Option.some.inj (h'.actor.symm.trans hb)
      exact hp h'.progress
    · have hi := Or.inl (b := none = some i) hi
      exact (h'.leads.run.not_actsAt_of_over h.inv (h.ended i hi) (h.numbers i hi).2).2.1
  failed := hfailed
  committed i := by
    rw [← hdone i]
    constructor
    · rintro ⟨d₁, hd₁⟩
      rcases List.mem_append.1 hd₁ with hd₁ | hd₁
      · exact ⟨d₁, hd₁⟩
      · cases (h.committed i).1 ⟨d₁, hd₁⟩
    · rintro ⟨d₁, hd₁⟩
      exact ⟨d₁, List.mem_append_left _ hd₁⟩

theorem attempt_ok (h : s.Called m attempts none tr d w) (hx : x.Enlists m) (hb : body.Works)
    {r : α} (hr : x.attempt body w = (.ok r, w')) :
    ∃ i tr d, s.Called m attempts (some i) tr d w' := by
  rcases attempt_cases hx hb h.inv h.shows with
    ⟨e, v, hrun, -⟩ | ⟨e, v, tx, ps, hrun, -⟩ | ⟨r', v, tx, ps, hrun, ⟨tr', d', a, h'⟩, htx⟩
  · cases hr.symm.trans hrun
  · cases hr.symm.trans hrun
  · cases hr.symm.trans hrun
    refine ⟨tx.id, tr' ++ tr, d', h.tail h' (fun i => ?_) (h.failed_append h') fun i => ?_⟩
    · rw [Option.some.injEq, eq_comm]
      exact or_comm
    · rw [h'.exists_commit_iff, htx, Option.some.injEq, eq_comm]
      exact and_iff_left rfl

theorem attempt_error (h : s.Called m attempts none tr d w) (hx : x.Enlists m) (hb : body.Works)
    {e : Error} (hr : x.attempt body w = (.error e, w')) :
    ∃ attempts tr d, s.Called m attempts none tr d w' := by
  rcases attempt_cases hx hb h.inv h.shows with
    ⟨e, v, hrun, hshows⟩ | ⟨e, v, tx, ps, hrun, ⟨tr', d', a, h'⟩, htx⟩ |
    ⟨r', v, tx, ps, hrun, -⟩
  · cases hr.symm.trans hrun
    exact ⟨attempts, tr, d, { h with shows := hshows }⟩
  · cases hr.symm.trans hrun
    refine ⟨tx.id :: attempts, tr' ++ tr, d', h.tail h' (fun i => ?_) (h.failed_cons h' htx)
      fun i => ?_⟩
    · rw [List.mem_cons]
      exact or_iff_left (Option.some_ne_none i).symm
    · rw [h'.exists_commit_iff, htx]
      exact iff_of_false (fun e => nomatch e.2) (Option.some_ne_none i).symm
  · cases hr.symm.trans hrun

theorem attempt_error_policy (h : s.Called m attempts none tr d w) (hx : x.Enlists m)
    (hb : body.Works) {e : Error} {n : Nat} {delay : Option Nat} {v : World ρ}
    (hr : x.attempt body w = (.error e, w')) (hp : x.policy e n w' = (delay, v)) :
    ∃ attempts tr d, s.Called m attempts none tr d v := by
  obtain ⟨attempts', tr', d', h'⟩ := h.attempt_error hx hb hr
  obtain ⟨hc, hs⟩ := hx.policy e n w' delay v hp
  exact ⟨attempts', tr', d', h'.congr hc hs⟩

/-- A failed attempt after which somebody slept. -/
theorem attempt_error_sleep (h : s.Called m attempts none tr d w) (hx : x.Enlists m)
    (hb : body.Works) {e : Error} {n delay : Nat} {u v : World ρ} {stop : Signal × ρ → Bool}
    {up : Option Bool} (hr : x.attempt body w = (.error e, w'))
    (hp : x.policy e n w' = (some delay, u)) (hv : x.meanwhile.sleep stop delay u = (up, v)) :
    ∃ attempts tr d, s.Called m attempts none tr d v := by
  obtain ⟨attempts', tr', d', h'⟩ := h.attempt_error_policy hx hb hr hp
  exact ⟨attempts', tr', d', h'.congr (Meanwhile.coordinator_eq hv) (Meanwhile.site_eq hv)⟩

/-- Attempts until one succeeds, or there is to be no other. -/
theorem retry (h : s.Called m attempts none tr d w) (hx : x.Enlists m) (hb : body.Works)
    (stop : Signal × ρ → Bool) (more n : Nat) :
    ∃ attempts done tr d, s.Called m attempts done tr d (x.retry stop body more n w).2 ∧
      (x.retry stop body more n w).1.any (·.isOk) = done.isSome := by
  fun_induction Executor.retry x stop body more n w generalizing attempts tr d with
  | case1 more n w r w' hr =>
    obtain ⟨i, tr', d', h'⟩ := h.attempt_ok hx hb hr
    exact ⟨attempts, some i, tr', d', h', rfl⟩
  | case2 more n w e w' hr v hp =>
    obtain ⟨attempts', tr', d', h'⟩ := h.attempt_error_policy hx hb hr hp
    exact ⟨attempts', none, tr', d', h', rfl⟩
  | case3 more n w e w' hr delay u hp v hv =>
    obtain ⟨attempts', tr', d', h'⟩ := h.attempt_error_sleep hx hb hr hp hv
    exact ⟨attempts', none, tr', d', h', rfl⟩
  | case4 more n w e w' hr delay u hp up v hv e' hwake =>
    obtain ⟨attempts', tr', d', h'⟩ := h.attempt_error_sleep hx hb hr hp hv
    exact ⟨attempts', none, tr', d', h', rfl⟩
  | case5 n w e w' hr delay u hp up v hv hwake =>
    obtain ⟨attempts', tr', d', h'⟩ := h.attempt_error_sleep hx hb hr hp hv
    exact ⟨attempts', none, tr', d', h', rfl⟩
  | case6 n w e w' hr delay u hp up v hv hwake more ih =>
    obtain ⟨attempts', tr', d', h'⟩ := h.attempt_error_sleep hx hb hr hp hv
    exact ih h'

end Called

/-- A call is a run: of its attempts the ones that failed were rolled back, and one committed if
and only if the call succeeds. -/
theorem called_execute (hs : Inv s) (hw : s.Shows m w) (hx : x.Enlists m) (hb : body.Works) :
    ∃ attempts done tr d, s.Called m attempts done tr d (x.execute body w).2 ∧
      (x.execute body w).1.any (·.isOk) = done.isSome :=
  (called_nil hs hw).retry hx hb ..

/-- The same with a token that ends the sleeps. -/
theorem called_executeWith (hs : Inv s) (hw : s.Shows m w) (hx : x.Enlists m) (hb : body.Works)
    (token : ρ → Signal) :
    ∃ attempts done tr d, s.Called m attempts done tr d (x.executeWith token body w).2 ∧
      (x.executeWith token body w).1.any (·.isOk) = done.isSome :=
  (called_nil hs hw).retry hx hb ..

/-! ## Reopening after a call -/

/-- In a run that a call is part of, its failed attempts failed. -/
theorem Called.failed_of_run {attempts : List TxId} {done : Option TxId} {before tr after : Trace}
    {s₀ d' : Scene} (h : s.Called m attempts done tr d w) (hs₀ : Inv s₀) (h₀ : Run s₀ before s)
    (h' : Run d after d') : Trace.Failed (after ++ (tr ++ before)) attempts := by
  intro i hi
  obtain ⟨⟨d₁, hd₁⟩, hroll⟩ := h.failed i hi
  have hin : ∀ {q}, q ∈ tr → q ∈ after ++ (tr ++ before) := fun hq =>
    List.mem_append_right _ (List.mem_append_left _ hq)
  refine ⟨⟨d₁, hd₁.imp hin hin⟩, ?_⟩
  rintro t ⟨d₂, hd₂⟩
  obtain ⟨hle, hlt⟩ := h.numbers i (.inl hi)
  rcases List.mem_append.1 hd₂ with hd₂ | hd₂
  · have hno := (h'.not_actsAt_of_over h.inv (h.ended i (.inl hi)) hlt).2.2.2
    exact absurd (.inl rfl) (hno _ hd₂ t)
  · rcases List.mem_append.1 hd₂ with hd₂ | hd₂
    · obtain ⟨d₃, hd₃⟩ := hroll t ⟨d₂, hd₂⟩
      exact ⟨d₃, hin hd₃⟩
    · exact absurd (.inl rfl) ((h₀.not_actsAt_of_next_le hs₀).2 i hle _ hd₂ t)

/-- What a failing call wrote to a table with a journal comes back with the next opening if and only
if the flush after the frame of one of its attempts failed. -/
theorem reopened_rows_of_call {names : TableId → String}
    {base : TableId → Std.ExtTreeMap Bytes Bytes} {logs : TableId → Option LogWriter}
    {stream left : Stream} {sync : Bool} {t : TableId} {before : Trace} {e : Error}
    (hsize : stream.size = stream.bytes.length) (hwhole : stream.Whole)
    (hload : Table.load (names t) stream sync =
      (.ok ⟨names t, Table.baseRows (base t), ∅, logs t⟩, left))
    (h : Run (opened names base logs) before s) (hw : s.Shows m w) (hx : x.Enlists m)
    (hb : body.Works) (he : (x.execute body w).1 = some (.error e)) :
    ∃ attempts tr d, s.Called m attempts none tr d (x.execute body w).2 ∧
      ∀ after d', Run d after d' → (d'.tables t).unwritten = 0 →
        ∃ kept : List (TxId × List RowWrite), d'.Reopens t (names t) stream (kept.map (·.2)) ∧
          ((∃ k ∈ kept, k.1 ∈ attempts) ↔
            ∃ i ∈ attempts, ∃ ws, Trace.Stray (after ++ (tr ++ before)) i t ws) := by
  have hs := inv_of_steps h.steps
  obtain ⟨attempts, done, tr, d, hcall, hdone⟩ := called_execute hs hw hx hb
  rw [he] at hdone
  cases done with
  | some i => cases hdone
  | none =>
    refine ⟨attempts, tr, d, hcall, fun after d' h' hclosed => ?_⟩
    have hrun := (h.trans hcall.run).trans h'
    obtain ⟨kept, hopen, hkept⟩ := exists_kept hsize hwhole hload hrun hclosed
    have hfailed := hcall.failed_of_run (inv_opened names base logs) h h'
    exact ⟨kept, hopen, hfailed.exists_kept_iff hkept⟩

end Scene

end NamespaceCatalog
