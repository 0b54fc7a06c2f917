import NamespaceCatalog.Proofs.Service
import NamespaceCatalog.Record.Sample

/-!
# Linearizability

The replies of a service, in the order of their points, are those that a roster gives to the same
operations one after the other (`Service.linearizable`).

A transaction that only reads has its point where it began, since it reads the rows of that moment.
One that writes has it at its commit: by then others may have committed, but none that wrote the
same row, and what an operation that writes does depends on no other row.
-/

namespace NamespaceCatalog

/-! ## Lists in the order of numbers -/

section Sorted

variable {α : Type} {g : α → Nat} {l : List α}

theorem filter_lt_succ_of_mem (hl : l.Pairwise fun a b => g a < g b) {a : α} (ha : a ∈ l) :
    l.filter (g · < g a + 1) = l.filter (g · < g a) ++ [a] := by
  obtain ⟨front, rest, rfl⟩ := List.append_of_mem ha
  obtain ⟨-, hrest, hfront⟩ := List.pairwise_append.1 hl
  have hlt : ∀ b ∈ front, g b < g a := fun b hb => hfront b hb a List.mem_cons_self
  have hgt : ∀ b ∈ rest, g a < g b := (List.pairwise_cons.1 hrest).1
  have hnil : ∀ n ≤ g a + 1, rest.filter (g · < n) = [] := by
    intro n hn
    refine List.filter_eq_nil_iff.2 fun b hb => ?_
    have := hgt b hb
    simp only [decide_eq_true_eq]
    omega
  have hall : ∀ n ≥ g a, front.filter (g · < n) = front := by
    intro n hn
    refine List.filter_eq_self.2 fun b hb => ?_
    have := hlt b hb
    simp only [decide_eq_true_eq]
    omega
  rw [List.filter_append, List.filter_append, hall _ (Nat.le_succ _), hall _ (Nat.le_refl _),
    List.filter_cons_of_pos (by simp), List.filter_cons_of_neg (by simp), hnil _ (Nat.le_refl _),
    hnil _ (Nat.le_succ _), List.append_nil]

theorem filter_lt_succ_of_forall_ne {n : Nat} (hn : ∀ a ∈ l, g a ≠ n) :
    l.filter (g · < n + 1) = l.filter (g · < n) := by
  refine List.filter_congr fun a ha => ?_
  have := hn a ha
  rw [decide_eq_decide]
  omega

end Sorted

/-! ## Rows from one number to the next -/

namespace Scene

variable {s : Scene} {t : TableId}

theorem Inv.rowsBefore_succ (h : Inv s) {k : Commit} (hk : k ∈ s.chronicle.commits) :
    s.rowsBefore (k.pointer + 1) t =
      (s.written k.id t).foldl Table.applyWrite (s.rowsBefore k.pointer t) := by
  have hsorted := h.chronicle.precedes.imp Chronicle.Precedes.pointer_lt
  rw [rowsBefore, filter_lt_succ_of_mem hsorted hk, List.flatMap_append, List.foldl_append]
  simp only [List.flatMap_singleton]
  rfl

theorem rowsBefore_succ_of_forall_ne {n : Nat} (hn : ∀ k ∈ s.chronicle.commits, k.pointer ≠ n) :
    s.rowsBefore (n + 1) t = s.rowsBefore n t := by
  rw [rowsBefore, filter_lt_succ_of_forall_ne hn]
  rfl

theorem Inv.precedes (h : Inv s) {j k : Commit} (hj : j ∈ s.chronicle.commits)
    (hk : k ∈ s.chronicle.commits) (hlt : j.pointer < k.pointer) : Chronicle.Precedes j k := by
  obtain ⟨m, hm, rfl⟩ := List.getElem_of_mem hj
  obtain ⟨n, hn, rfl⟩ := List.getElem_of_mem hk
  have hp := List.pairwise_iff_getElem.1 h.chronicle.precedes
  rcases Nat.lt_trichotomy m n with e | rfl | e
  · exact hp m n hm hn e
  · exact absurd hlt (Nat.lt_irrefl _)
  · exact absurd hlt (Nat.lt_asymm (hp n m hn hm e).pointer_lt)

/-- While a transaction ran, nobody else changed a row that it wrote. -/
theorem Inv.getElem?_rowsBefore (h : Inv s) {k : Commit} (hk : k ∈ s.chronicle.commits)
    {w : RowWrite} (hw : w ∈ s.written k.id t) {n : Nat} (hn : k.id ≤ n) (hn' : n ≤ k.pointer) :
    (s.rowsBefore n t)[w.1]? = (s.rowsBefore k.id t)[w.1]? := by
  induction hn with
  | refl => rfl
  | @step n hle ih =>
    rw [← ih (Nat.le_of_succ_le hn')]
    by_cases hj : ∃ j ∈ s.chronicle.commits, j.pointer = n
    · obtain ⟨j, hj, rfl⟩ := hj
      have hnil : (s.written j.id t).filter (·.1 = w.1) = [] := by
        refine List.filter_eq_nil_iff.2 fun w' hw' e => ?_
        have e : w'.1 = w.1 := by simpa using e
        have hboth : j.changes.Overlap k.changes :=
          ⟨_, h.written j hj t w' hw', e ▸ h.written k hk t w hw⟩
        exact Nat.not_lt.2 hle ((h.precedes hj hk hn').apart hboth)
      rw [h.rowsBefore_succ hj, Table.getElem?_foldl_applyWrite, hnil]
      rfl
    · rw [rowsBefore_succ_of_forall_ne fun k hk e => hj ⟨k, hk, e⟩]

end Scene

/-- Rosters whose rows agree about a record do so themselves. -/
theorem Roster.StoredIn.getElem?_eq {m m' : Roster} {f : Codec}
    {rows rows' : Std.ExtTreeMap Bytes Bytes} (h : m.StoredIn f rows) (h' : m'.StoredIn f rows')
    {id : Id} (e : rows[Rows.key id.name]? = rows'[Rows.key id.name]?) :
    m[id.name]? = m'[id.name]? := by
  rw [h.row, h'.row] at e
  cases hm : m[id.name]? with
  | none =>
    cases hm' : m'[id.name]? with
    | none => rfl
    | some r' => simp [hm, hm'] at e
  | some r =>
    cases hm' : m'[id.name]? with
    | none => simp [hm, hm'] at e
    | some r' =>
      have e : f.stored r = f.stored r' := by simpa [hm, hm'] using e
      have hr := (h.readable _ r hm).decode_eq
      rw [e, (h'.readable _ r' hm').decode_eq] at hr
      rw [Except.ok.inj hr]

namespace Service

variable {f : Codec} {t : TableId} {s : Service}

namespace Inv

/-! ## Points -/

theorem pairwise_replies (h : s.Inv f t) : s.replies.Pairwise fun a b =>
    a.id ≠ b.id ∧ a.pointer < b.pointer ∧ a.pointer ≠ b.id ∧ a.id < a.pointer := by
  have hcommits : (s.scene.chronicle.commits.map fun k => (k.id, k.pointer)).Pairwise fun a b =>
      a.1 ≠ b.1 ∧ a.2 < b.2 ∧ a.2 ≠ b.1 ∧ a.1 < a.2 :=
    List.pairwise_map.2 <| h.scene.chronicle.precedes.imp_of_mem fun hj _ p =>
      ⟨p.id_ne, p.pointer_lt, p.pointer_ne, (h.scene.chronicle.numbers _ hj).2.1⟩
  rw [h.commits] at hcommits
  exact List.pairwise_map.1 hcommits

theorem point_lt_next (h : s.Inv f t) {a : Reply} (ha : a ∈ s.replies) :
    a.id ≤ a.point ∧ a.point ≤ a.pointer ∧ a.pointer < s.scene.coordinator.next := by
  obtain ⟨k, hk, hid, hpointer⟩ := h.exists_commit ha
  obtain ⟨-, h₁, h₂⟩ := h.scene.chronicle.numbers k hk
  rw [hid, hpointer] at h₁
  rw [hpointer] at h₂
  unfold Reply.point
  split
  · exact ⟨Nat.le_of_lt h₁, Nat.le_refl _, h₂⟩
  · exact ⟨Nat.le_refl _, Nat.le_of_lt h₁, h₂⟩

theorem pairwise_points (h : s.Inv f t) : s.replies.Pairwise fun a b => a.point ≠ b.point := by
  refine h.pairwise_replies.imp fun ⟨hid, hpointer, hcross, hlt⟩ => ?_
  unfold Reply.point
  split <;> split <;> omega

/-! ## Each reply at its point -/

/-- What the course of a reply gave and wrote is what the roster of that moment says. -/
theorem serve_of_storedIn (h : s.Inv f t) {a : Reply} (ha : a ∈ s.replies)
    (hop : a.op.Readable f) {m : Roster} (hm : m.StoredIn f (s.scene.rowsBefore a.id t)) :
    (Roster.serve a.op m).1 = .ok a.outcome ∧
      s.scene.written a.id t = (a.op.write? f m).toList ∧
      ∃ c, a.op.course f = .ok c := by
  obtain ⟨-, c, tx, x, hc, hrun, hwritten⟩ := h.replies a ha
  obtain ⟨outcome, buffer, hrun', hserve, hbuffer⟩ :=
    hm.run_course (x := .serving tx ∅) hop hc rfl rfl (Table.get_ofRows _ tx)
  have e := hrun.symm.trans hrun'
  rw [Except.ok.injEq, Prod.mk.injEq] at e
  refine ⟨e.1 ▸ hserve, ?_, c, hc⟩
  rw [hwritten, e.2]
  exact hbuffer

/-- A reply without writes at the rows before its transaction. -/
theorem serve_of_not_wrote (h : s.Inv f t) {a : Reply} (ha : a ∈ s.replies)
    (hw : a.wrote = false) (hop : a.op.Readable f) {m : Roster}
    (hm : m.StoredIn f (s.scene.rowsBefore a.id t)) :
    (Roster.serve a.op m).1 = .ok a.outcome ∧
      (Roster.serve a.op m).2.StoredIn f (s.scene.rowsBefore (a.id + 1) t) := by
  obtain ⟨hserve, hwritten, c, hc⟩ := h.serve_of_storedIn ha hop hm
  refine ⟨hserve, ?_⟩
  have hnil : (a.op.write? f m).toList = [] := by
    rw [← hwritten]
    simpa [hw] using (h.replies a ha).1
  obtain ⟨k, hk, hid, hpointer⟩ := h.exists_commit ha
  rw [Scene.rowsBefore_succ_of_forall_ne fun j hj => ?_]
  · have := hm.serve hop hc
    rwa [hnil] at this
  · rw [← hid]
    rcases Nat.lt_or_ge j.pointer k.pointer with hlt | hge
    · exact (h.scene.precedes hj hk hlt).pointer_ne
    · exact Nat.ne_of_gt (Nat.lt_of_lt_of_le (h.scene.chronicle.numbers k hk).2.1 hge)

/-- A reply with writes at the rows before the commit. -/
theorem serve_of_wrote (h : s.Inv f t) {a : Reply} (ha : a ∈ s.replies) (hw : a.wrote = true)
    (hop : a.op.Readable f) {m m' : Roster} (hm : m.StoredIn f (s.scene.rowsBefore a.id t))
    (hm' : m'.StoredIn f (s.scene.rowsBefore a.pointer t)) :
    (Roster.serve a.op m').1 = .ok a.outcome ∧
      (Roster.serve a.op m').2.StoredIn f (s.scene.rowsBefore (a.pointer + 1) t) := by
  obtain ⟨hserve, hwritten, c, hc⟩ := h.serve_of_storedIn ha hop hm
  obtain ⟨k, hk, hid, hpointer⟩ := h.exists_commit ha
  have hne : s.scene.written a.id t ≠ [] := by
    simpa [hw] using (h.replies a ha).1
  cases hwrite : a.op.write? f m with
  | none => exact absurd (by rw [hwritten, hwrite]; rfl) hne
  | some w =>
    rw [hwrite] at hwritten
    obtain ⟨id, hkey, hsame⟩ := Operation.of_write? hc hwrite
    have hrow : (s.scene.rowsBefore a.pointer t)[w.1]? = (s.scene.rowsBefore a.id t)[w.1]? := by
      rw [← hid, ← hpointer]
      refine h.scene.getElem?_rowsBefore hk ?_ ?_ (Nat.le_refl _)
      · rw [hid, hwritten]
        exact List.mem_singleton.2 rfl
      · exact Nat.le_of_lt (h.scene.chronicle.numbers k hk).2.1
    rw [hkey] at hrow
    obtain ⟨hwrite', hserve'⟩ := hsame m' (hm'.getElem?_eq hm hrow)
    refine ⟨hserve'.trans hserve, ?_⟩
    have := hm'.serve hop hc
    rw [hwrite', ← hwritten] at this
    rwa [← hpointer, h.scene.rowsBefore_succ hk, hid, hpointer]

theorem serve_point (h : s.Inv f t) {a : Reply} (ha : a ∈ s.replies) (hop : a.op.Readable f)
    {m m' : Roster} (hm : m.StoredIn f (s.scene.rowsBefore a.id t))
    (hm' : m'.StoredIn f (s.scene.rowsBefore a.point t)) :
    (Roster.serve a.op m').1 = .ok a.outcome ∧
      (Roster.serve a.op m').2.StoredIn f (s.scene.rowsBefore (a.point + 1) t) := by
  cases hw : a.wrote with
  | false =>
    have hp : a.point = a.id := by simp [Reply.point, hw]
    rw [hp] at hm' ⊢
    exact h.serve_of_not_wrote ha hw hop hm'
  | true =>
    have hp : a.point = a.pointer := by simp [Reply.point, hw]
    rw [hp] at hm' ⊢
    exact h.serve_of_wrote ha hw hop hm hm'

/-- Where no reply has its point, no row changes. -/
theorem rowsBefore_succ (h : s.Inv f t) {n : Nat} (hn : ∀ a ∈ s.replies, a.point ≠ n) :
    s.scene.rowsBefore (n + 1) t = s.scene.rowsBefore n t := by
  by_cases hk : ∃ k ∈ s.scene.chronicle.commits, k.pointer = n
  · obtain ⟨k, hk, rfl⟩ := hk
    obtain ⟨a, ha, hid, hpointer⟩ := h.exists_reply hk
    have hw : a.wrote = false := by
      by_contra hw
      exact hn a ha (by simpa [Reply.point, hw] using hpointer)
    have hnil : s.scene.written k.id t = [] := by
      rw [← hid]
      simpa [hw] using (h.replies a ha).1
    rw [h.scene.rowsBefore_succ hk, hnil]
    rfl
  · exact Scene.rowsBefore_succ_of_forall_ne fun k hk' e => hk ⟨k, hk', e⟩

/-! ## All replies -/

variable {m₀ : Roster} {l : List Reply}

/-- The replies with points below a number are those of the roster, which then has the rows before
that number. -/
theorem replay (h : s.Inv f t) (hop : ∀ op ∈ s.calls, op.Readable f)
    (hm₀ : m₀.StoredIn f (s.scene.base t)) (hl : l.Perm s.replies)
    (hsorted : l.Pairwise fun a b => a.point < b.point) (n : Nat) :
    Roster.answers ((l.filter (·.point < n)).map (·.op)) m₀ =
        (l.filter (·.point < n)).map (fun a => .ok a.outcome) ∧
      (Roster.after ((l.filter (·.point < n)).map (·.op)) m₀).StoredIn f
        (s.scene.rowsBefore n t) := by
  induction n using Nat.strongRecOn with
  | ind n ih =>
    cases n with
    | zero =>
      have hnil : l.filter (·.point < 0) = [] := List.filter_eq_nil_iff.2 (by simp)
      have hcommits : s.scene.chronicle.commits.filter (·.pointer < 0) = [] :=
        List.filter_eq_nil_iff.2 (by simp)
      rw [hnil, Scene.rowsBefore, hcommits]
      exact ⟨rfl, hm₀⟩
    | succ n =>
      obtain ⟨hanswers, hstored⟩ := ih n (Nat.lt_succ_self n)
      by_cases hn : ∃ a ∈ l, a.point = n
      · obtain ⟨a, ha, rfl⟩ := hn
        have ha' := hl.mem_iff.1 ha
        have hid := ih a.id (Nat.lt_succ_of_le (h.point_lt_next ha').1)
        obtain ⟨hserve, hnext⟩ := h.serve_point ha' (hop a.op (h.replied a ha')) hid.2 hstored
        rw [filter_lt_succ_of_mem hsorted ha, List.map_append, List.map_append,
          Roster.answers_append, Roster.after_append, hanswers]
        refine ⟨congrArg _ ?_, hnext⟩
        exact congrArg (fun r => [r]) hserve
      · have hnone : ∀ a ∈ l, a.point ≠ n := fun a ha e => hn ⟨a, ha, e⟩
        rw [filter_lt_succ_of_forall_ne hnone,
          h.rowsBefore_succ fun a ha => hnone a (hl.mem_iff.2 ha)]
        exact ⟨hanswers, hstored⟩

end Inv

/-- Take the replies in the order of their points, each between the beginning of the transaction and
its commit.  A roster gives the same replies to the same operations, one after the other, and in the
end it has the records that the next transaction will read. -/
theorem linearizable {names : TableId → String} {base : TableId → Std.ExtTreeMap Bytes Bytes}
    {logs : TableId → Option LogWriter} (h : Steps f t (opened (.opened names base logs)) s)
    {m₀ : Roster} (hm₀ : m₀.StoredIn f (base t)) (hop : ∀ op ∈ s.calls, op.Readable f)
    {l : List Reply} (hl : l.Perm s.replies) (hsorted : l.Pairwise fun a b => a.point ≤ b.point) :
    Roster.answers (l.map (·.op)) m₀ = l.map (fun a => .ok a.outcome) ∧
      (Roster.after (l.map (·.op)) m₀).StoredIn f
        (s.scene.rowsBefore s.scene.coordinator.next t) ∧
      l.Pairwise (fun a b => a.point ≠ b.point) ∧
      ∀ a ∈ l, a.id ≤ a.point ∧ a.point ≤ a.pointer := by
  obtain ⟨inv, hbase⟩ := inv_of_steps h
  have hne := inv.pairwise_points.perm hl.symm Ne.symm
  have hlt : l.Pairwise fun a b => a.point < b.point :=
    (hsorted.and hne).imp fun ⟨hle, hne⟩ => Nat.lt_of_le_of_ne hle hne
  have hpoint : ∀ a ∈ l, a.id ≤ a.point ∧ a.point ≤ a.pointer ∧
      a.pointer < s.scene.coordinator.next := fun a ha => inv.point_lt_next (hl.mem_iff.1 ha)
  have hall : l.filter (·.point < s.scene.coordinator.next) = l := by
    refine List.filter_eq_self.2 fun a ha => ?_
    obtain ⟨-, hle, hlt⟩ := hpoint a ha
    exact decide_eq_true (Nat.lt_of_le_of_lt hle hlt)
  have hreplay := inv.replay hop (hbase ▸ hm₀) hl hlt s.scene.coordinator.next
  rw [hall] at hreplay
  exact ⟨hreplay.1, hreplay.2, hne, fun a ha => ⟨(hpoint a ha).1, (hpoint a ha).2.1⟩⟩

/-- Two clients at the same time: the one that reads comes first, although it commits last. -/
theorem linearizable_of_overlapping :
    ∃ s : Service, Steps Format.json.sampleCodec 0
        (opened (.opened (fun _ => "t") (fun _ => ∅) fun _ => none)) s ∧
      s.replies.map (fun a => (a.op, a.point)) = [(.create (.ofName "a"), 3), (.get "a", 2)] ∧
      Roster.answers [.get "a", .create (.ofName "a")] ∅ =
        [.ok (.record none), .ok (.record none)] := by
  have h₁ : Steps Format.json.sampleCodec 0
      (opened (.opened (fun _ => "t") (fun _ => ∅) fun _ => none)) _ :=
    .single (.call _ (.create (.ofName "a")))
  have h₂ := h₁.tail (.call _ (.get "a"))
  have h₃ := h₂.tail (@Step.attempt _ _ _ (.create (.ofName "a")) _ _ (.tail _ (.head _)) rfl
    (.begin _))
  have h₄ := h₃.tail (@Step.attempt _ _ _ (.get "a") _ _ (.head _) rfl (.begin _))
  have h₅ := h₄.tail (.other (e := .start 1 0) trivial (.start (i := 1) (t := 0) rfl rfl rfl))
  have h₆ := h₅.tail (.other (e := .start 2 0) trivial (.start (i := 2) (t := 0) rfl rfl rfl))
  have h₇ := h₆.tail (.perform (i := 1) (t := 0) rfl (.perform rfl rfl rfl))
  have h₈ := h₇.tail (.perform (i := 1) (t := 0) rfl (.perform rfl rfl rfl))
  have h₉ := h₈.tail (.perform (i := 2) (t := 0) rfl (.perform rfl rfl rfl))
  have h₁₀ := h₉.tail (.reserve (i := 2) rfl (.reserve rfl rfl rfl))
  have h₁₁ := h₁₀.tail (.reserve (i := 1) rfl (.reserve rfl rfl rfl))
  have h₁₂ := h₁₁.tail (.other (e := .install 1 0) trivial (.install (i := 1) rfl rfl rfl rfl))
  have h₁₃ := h₁₂.tail (.commit (i := 1) rfl (.commit rfl rfl (fun t => ?_) rfl))
  have h₁₄ := h₁₃.tail (.commit (i := 2) rfl (.commit rfl rfl (fun t => ?_)
    (Coordinator.commit_of_mem rfl
      (Coordinator.mem_finish.2 ⟨Nat.succ_ne_self 1, by decide +kernel⟩))))
  · refine ⟨_, h₁₄, by decide +kernel, ?_⟩
    refine (linearizable (l := List.reverse _) h₁₄ (.empty _) (fun op hop => ?_)
      (List.reverse_perm _) (by decide +kernel)).1
    rcases List.mem_cons.1 hop with rfl | hop
    · trivial
    · obtain rfl := List.mem_singleton.1 hop
      show Format.json.sampleCodec.RoundTrips (.ofName "a")
      decide +kernel
  · by_cases e : t = 0
    · subst e
      exact .inl rfl
    · refine .inl ?_
      simp only [Actor.put, Function.update_of_ne e]
      rfl
  · by_cases e : t = 0
    · subst e
      exact .inr rfl
    · refine .inl ?_
      simp only [Actor.put, Function.update_of_ne e]
      rfl

end Service

end NamespaceCatalog
