import NamespaceCatalog.Proofs.Rosters
import NamespaceCatalog.Proofs.Snapshot

/-!
# Services

A service serves the operations of any number of clients in a scene.  Each attempt to serve an
operation is an actor of the scene, which goes through the course of the operation at one table; an
attempt that fails may be followed by another one, or the client gives up.  `Service.Step` says what
can happen next.

`Reply.point` is where a reply stands among the others: at the commit of its transaction if that
wrote something, and else at its beginning.  `Service.Inv` is what holds after every run.
-/

namespace NamespaceCatalog

/-- An attempt to serve an operation, and what is left of the course. -/
structure Attempt where
  op : Operation
  rest : Course Outcome

/-- What a client was answered, by which transaction. -/
structure Reply where
  op : Operation
  outcome : Outcome
  id : Nat
  /-- The number of the commit. -/
  pointer : Nat
  /-- Did the transaction write anything? -/
  wrote : Bool

/-- The place of a reply among the others. -/
def Reply.point (a : Reply) : Nat := if a.wrote then a.pointer else a.id

/-- A scene whose actors serve operations. -/
structure Service where
  scene : Scene
  /-- What clients asked for so far, the last first. -/
  calls : List Operation
  /-- What they ask for and no attempt serves at the moment. -/
  waiting : List Operation
  attempts : TxId → Option Attempt
  /-- The replies, in the order of the commits. -/
  replies : List Reply

/-- Does the event leave the courses of all attempts as they are? -/
def Scene.Event.IsQuiet : Event → Prop
  | begin | perform .. | reserve _ | commit _ | abort _ | invalidate _ => False
  | _ => True

namespace Service

/-- The service before the first call. -/
def opened (s : Scene) : Service := ⟨s, [], [], fun _ => none, []⟩

/-- What can happen next, if records are stored in the format `f` and in the table `t`. -/
inductive Step (f : Codec) (t : TableId) : Service → Service → Prop
  | call (s : Service) (op : Operation) :
    Step f t s { s with calls := op :: s.calls, waiting := op :: s.waiting }
  /-- A client is told that the operation failed. -/
  | giveUp {s : Service} {op : Operation} (hop : op ∈ s.waiting) :
    Step f t s { s with waiting := s.waiting.erase op }
  | attempt {s : Service} {op : Operation} {c : Course Outcome} {d : Scene} (hop : op ∈ s.waiting)
    (hc : op.course f = .ok c) (hd : s.scene.Step .begin d) :
    Step f t s { s with
      scene := d
      waiting := s.waiting.erase op
      attempts := Function.update s.attempts s.scene.coordinator.next (some ⟨op, c⟩) }
  /-- The table answers what the course asks for. -/
  | perform {s : Service} {i : TxId} {op : Operation} {q : TableOperation}
    {next : TableAnswer → Course Outcome} {answer : TableAnswer} {d : Scene}
    (ha : s.attempts i = some ⟨op, .ask q next⟩) (hd : s.scene.Step (.perform i t q answer) d) :
    Step f t s { s with
      scene := d
      attempts := Function.update s.attempts i (some ⟨op, next answer⟩) }
  | reserve {s : Service} {i : TxId} {op : Operation} {outcome : Outcome} {d : Scene}
    (ha : s.attempts i = some ⟨op, .done outcome⟩) (hd : s.scene.Step (.reserve i) d) :
    Step f t s { s with scene := d }
  /-- The transaction commits, and the client gets its answer. -/
  | commit {s : Service} {i : TxId} {op : Operation} {outcome : Outcome} {d : Scene}
    (ha : s.attempts i = some ⟨op, .done outcome⟩) (hd : s.scene.Step (.commit i) d) :
    Step f t s { s with
      scene := d
      attempts := Function.update s.attempts i none
      replies := s.replies ++
        [⟨op, outcome, i, s.scene.coordinator.next, !(d.written i t).isEmpty⟩] }
  /-- The attempt failed. -/
  | retire {s : Service} {i : TxId} {p : Attempt} {e : Scene.Event} {d : Scene}
    (ha : s.attempts i = some p) (he : e = .abort i ∨ e = .invalidate i)
    (hd : s.scene.Step e d) :
    Step f t s { s with
      scene := d
      waiting := p.op :: s.waiting
      attempts := Function.update s.attempts i none }
  | other {s : Service} {e : Scene.Event} {d : Scene} (he : e.IsQuiet) (hd : s.scene.Step e d) :
    Step f t s { s with scene := d }

/-- One service after another, with any number of steps between. -/
def Steps (f : Codec) (t : TableId) : Service → Service → Prop :=
  Relation.ReflTransGen (Step f t)

end Service

/-! ## Steps of a scene -/

namespace Scene

variable {s d : Scene} {e : Event} {i : TxId}

/-- The events that leave the buffers of an actor as they are, if it may still commit. -/
def Event.Spares (e : Event) (i next : TxId) : Prop :=
  (e = .begin → i ≠ next) ∧ ∀ t op answer, e ≠ .perform i t op answer

theorem Event.IsQuiet.spares (h : e.IsQuiet) {next : TxId} : e.Spares i next := by
  constructor
  · rintro rfl
    exact h.elim
  · rintro t op answer rfl
    exact h.elim

theorem Event.spares_commit (j : TxId) {next : TxId} : (Event.commit j).Spares i next :=
  ⟨nofun, nofun⟩

/-- Only a commit adds to the commits. -/
theorem commits_of_step (hd : Step s e d) (he : ∀ i, e ≠ .commit i) :
    d.chronicle.commits = s.chronicle.commits := by
  cases hd with
  | start | perform | install | failInstall | post | fail | rollback | takeHorizon | prune => rfl
  | begin | reserve | refuse | abort | invalidate | forget => exact Chronicle.commits_serve _ nofun
  | commit => exact absurd rfl (he _)

theorem Inv.commits_of_commit (h : Inv s) (hd : Step s (.commit i) d) :
    d.chronicle.commits.map (fun k => (k.id, k.pointer)) =
      s.chronicle.commits.map (fun k => (k.id, k.pointer)) ++ [(i, s.coordinator.next)] := by
  cases hd with
  | @commit _ a pointer tx c ha hp hall hc =>
    obtain ⟨stats, hask⟩ := Chronicle.serve_commit_of_ok hc
    have hid := (h.fits i a ha (by simp [hp])).id
    show (s.chronicle.serve (.commit a.tx)).commits.map _ = _
    rw [hask, List.map_append, hid]
    rfl

/-- Who may commit could so before, and had written the same. -/
theorem Inv.spares (h : Inv s) (hd : Step s e d) (he : e.Spares i s.coordinator.next) {a : Actor}
    (ha : d.actors i = some a) (hp : a.MayCommit) :
    ∃ b, s.actors i = some b ∧ b.MayCommit ∧ b.tx = a.tx ∧
      ∀ t, (b.overlays t).buffer = (a.overlays t).buffer := by
  have same : s.actors i = some a → ∃ b, s.actors i = some b ∧ b.MayCommit ∧ b.tx = a.tx ∧
      ∀ t, (b.overlays t).buffer = (a.overlays t).buffer := fun ha => ⟨a, ha, hp, rfl, fun _ => rfl⟩
  have put : ∀ (o : Actor) (t : TableId) (x : Overlay), x.buffer = (o.overlays t).buffer → ∀ u,
      (o.overlays u).buffer = ((o.put t x).overlays u).buffer := by
    intro o t x hx u
    by_cases e : u = t
    · subst e
      simp only [Actor.put, Function.update_self, hx]
    · simp only [Actor.put, Function.update_of_ne e]
  cases hd with
  | takeHorizon | prune | forget => exact same ha
  | begin =>
    rcases actors_put_cases ha with ⟨e, -⟩ | ⟨-, ha⟩
    · exact absurd e (he.1 rfl)
    · exact same ha
  | @start j o t x ho hq hx =>
    rcases actors_put_cases ha with ⟨rfl, rfl⟩ | ⟨-, ha⟩
    · obtain ⟨htx, rfl⟩ := Overlay.of_start_ok hx
      have hb : (o.overlays t).buffer = ∅ := by
        rcases (h.fits i o ho hp.progress_ne).attached t with ⟨e, -⟩ | ⟨-, hb, -⟩
        · rw [htx] at e
          cases e
        · exact hb
      exact ⟨o, ho, hp, rfl, put o t _ hb.symm⟩
    · exact same ha
  | perform ho hq hx =>
    rcases actors_put_cases ha with ⟨rfl, -⟩ | ⟨-, ha⟩
    · exact absurd rfl (he.2 _ _ _)
    · exact same ha
  | reserve ho hq =>
    rcases actors_put_cases ha with ⟨rfl, rfl⟩ | ⟨-, ha⟩
    · exact ⟨_, ho, .inl hq, rfl, fun _ => rfl⟩
    · exact same ha
  | refuse | failInstall | commit | fail | abort | invalidate =>
    rcases actors_put_cases ha with ⟨rfl, rfl⟩ | ⟨-, ha⟩
    · exact absurd hp (by simp [Actor.MayCommit])
    · exact same ha
  | @install j o t x table ho hq hn hx =>
    rcases actors_put_cases ha with ⟨rfl, rfl⟩ | ⟨-, ha⟩
    · obtain ⟨_, _, _, -, rfl, -⟩ := Overlay.of_commit_ok hx
      exact ⟨o, ho, hp, rfl, put o t _ rfl⟩
    · exact same ha
  | post ho hq | rollback ho hq =>
    rcases actors_put_cases ha with ⟨rfl, rfl⟩ | ⟨-, ha⟩
    · exact absurd hp (by simp [Actor.MayCommit, Actor.put, hq])
    · exact same ha

/-- The answers at a table while the body runs are those at the rows before the transaction. -/
theorem Inv.runAt_perform (h : Inv s) {a : Actor} {t : TableId} {q : TableOperation}
    {answer : TableAnswer} {x : Overlay} (ha : s.actors i = some a) (hp : a.progress = .working)
    (hx : (a.overlays t).perform q (s.tables t) = .ok (answer, x))
    (next : TableAnswer → Course Outcome) :
    (Course.ask q next).runAt (s.rowsBefore i t) a.tx (a.overlays t).buffer =
      (next answer).runAt (s.rowsBefore i t) a.tx x.buffer := by
  have hp' : a.progress ≠ .over := by simp [hp]
  have f := h.fits i a ha hp'
  refine Course.runAt_ask hx ?_ fun key => h.get_eq ha hp' (Actor.own_eq_nil (f.working hp t) key)
  exact (f.attached t).imp (·.1) (·.1)

end Scene

/-! ## The invariant -/

/-- An attempt can be gone on with as if the actor had the rows before it for itself. -/
def Attempt.Fits (p : Attempt) (f : Codec) (rows : Std.ExtTreeMap Bytes Bytes) (tx : Transaction)
    (buffer : Std.ExtTreeMap Bytes (Option Bytes)) : Prop :=
  ∃ c, p.op.course f = .ok c ∧ p.rest.runAt rows tx buffer = c.runAt rows tx ∅

/-- The reply is what the course gives at the rows before the transaction, and the transaction wrote
what the course writes there. -/
def Reply.Fits (a : Reply) (f : Codec) (rows : Std.ExtTreeMap Bytes Bytes)
    (written : List RowWrite) : Prop :=
  a.wrote = !written.isEmpty ∧ ∃ c tx x, a.op.course f = .ok c ∧
    c.runAt rows tx ∅ = .ok (a.outcome, x) ∧ written = x.buffer.toList

namespace Service

/-- What holds after every run. -/
structure Inv (f : Codec) (t : TableId) (s : Service) : Prop where
  scene : s.scene.Inv
  waiting : ∀ op ∈ s.waiting, op ∈ s.calls
  attempted : ∀ i p, s.attempts i = some p → p.op ∈ s.calls
  replied : ∀ a ∈ s.replies, a.op ∈ s.calls
  attempts : ∀ i p, s.attempts i = some p → ∀ a, s.scene.actors i = some a → a.MayCommit →
    p.Fits f (s.scene.rowsBefore i t) a.tx (a.overlays t).buffer
  commits : s.scene.chronicle.commits.map (fun k => (k.id, k.pointer)) =
    s.replies.map fun a => (a.id, a.pointer)
  replies : ∀ a ∈ s.replies, a.Fits f (s.scene.rowsBefore a.id t) (s.scene.written a.id t)

variable {f : Codec} {t : TableId} {s s' : Service} {d : Scene} {e : Scene.Event} {i : TxId}

namespace Inv

theorem exists_commit (h : s.Inv f t) {a : Reply} (ha : a ∈ s.replies) :
    ∃ k ∈ s.scene.chronicle.commits, k.id = a.id ∧ k.pointer = a.pointer := by
  have hm : (a.id, a.pointer) ∈ s.scene.chronicle.commits.map fun k => (k.id, k.pointer) := by
    rw [h.commits]
    exact List.mem_map_of_mem ha
  obtain ⟨k, hk, e⟩ := List.mem_map.1 hm
  rw [Prod.mk.injEq] at e
  exact ⟨k, hk, e.1, e.2⟩

theorem exists_reply (h : s.Inv f t) {k : Commit} (hk : k ∈ s.scene.chronicle.commits) :
    ∃ a ∈ s.replies, a.id = k.id ∧ a.pointer = k.pointer := by
  have hm : (k.id, k.pointer) ∈ s.replies.map fun a => (a.id, a.pointer) := by
    rw [← h.commits]
    exact List.mem_map_of_mem hk
  obtain ⟨a, ha, e⟩ := List.mem_map.1 hm
  rw [Prod.mk.injEq] at e
  exact ⟨a, ha, e.1, e.2⟩

/-! ### What an event keeps -/

theorem keep_replies (h : s.Inv f t) (hd : s.scene.Step e d) :
    ∀ a ∈ s.replies, a.Fits f (d.rowsBefore a.id t) (d.written a.id t) := by
  intro a ha
  obtain ⟨k, hk, hid, -⟩ := h.exists_commit ha
  obtain ⟨hadv, hbase, hwritten⟩ := h.scene.advances hd
  have hlt : a.id ≤ s.scene.coordinator.next := by
    obtain ⟨-, h₁, h₂⟩ := h.scene.chronicle.numbers k hk
    rw [← hid]
    exact Nat.le_of_lt (Nat.lt_trans h₁ h₂)
  rw [Scene.rowsBefore_of_advances hadv hlt hbase hwritten, ← hid, hwritten k hk, hid]
  exact h.replies a ha

theorem keep_attempt (h : s.Inv f t) (hd : s.scene.Step e d)
    (he : e.Spares i s.scene.coordinator.next) {p : Attempt} (hp : s.attempts i = some p) :
    ∀ a, d.actors i = some a → a.MayCommit →
      p.Fits f (d.rowsBefore i t) a.tx (a.overlays t).buffer := by
  intro a ha hmay
  obtain ⟨b, hb, hb', htx, hbuffer⟩ := h.scene.spares hd he ha hmay
  obtain ⟨hadv, hbase, hwritten⟩ := h.scene.advances hd
  have hi := (h.scene.chronicle.running i
    ((h.scene.running i).2 ⟨b, hb, hb'.progress_ne⟩)).2
  rw [Scene.rowsBefore_of_advances hadv (Nat.le_of_lt hi) hbase hwritten, ← htx, ← hbuffer]
  exact h.attempts i p hp b hb hb'

/-- Anything but a commit keeps the invariant if it does so at the attempts. -/
theorem move (h : s.Inv f t) (hd : s.scene.Step e d) (he : ∀ i, e ≠ .commit i)
    {waiting : List Operation} {attempts : TxId → Option Attempt}
    (hwaiting : ∀ op ∈ waiting, op ∈ s.calls)
    (hattempts : ∀ i p, attempts i = some p → p.op ∈ s.calls ∧
      ∀ a, d.actors i = some a → a.MayCommit →
        p.Fits f (d.rowsBefore i t) a.tx (a.overlays t).buffer) :
    Inv f t { s with scene := d, waiting, attempts } where
  scene := h.scene.step hd
  waiting := hwaiting
  attempted i p hp := (hattempts i p hp).1
  replied := h.replied
  attempts i p hp := (hattempts i p hp).2
  commits := by
    rw [Scene.commits_of_step hd he]
    exact h.commits
  replies := h.keep_replies hd

/-! ### One lemma for each step -/

theorem attempt (h : s.Inv f t) {op : Operation} {c : Course Outcome} (hop : op ∈ s.waiting)
    (hc : op.course f = .ok c) (hd : s.scene.Step .begin d) :
    Inv f t { s with
      scene := d
      waiting := s.waiting.erase op
      attempts := Function.update s.attempts s.scene.coordinator.next (some ⟨op, c⟩) } := by
  refine h.move hd nofun (fun o ho => h.waiting o (List.mem_of_mem_erase ho)) fun i p hp => ?_
  by_cases e : i = s.scene.coordinator.next
  · subst e
    rw [Function.update_self, Option.some.injEq] at hp
    subst hp
    refine ⟨h.waiting op hop, fun a ha _ => ⟨c, hc, ?_⟩⟩
    cases hd
    rw [Scene.actors_put_self, Option.some.injEq] at ha
    subst ha
    rfl
  · rw [Function.update_of_ne e] at hp
    exact ⟨h.attempted i p hp, h.keep_attempt hd ⟨fun _ => e, nofun⟩ hp⟩

theorem perform (h : s.Inv f t) {op : Operation} {q : TableOperation}
    {next : TableAnswer → Course Outcome} {answer : TableAnswer}
    (ha : s.attempts i = some ⟨op, .ask q next⟩) (hd : s.scene.Step (.perform i t q answer) d) :
    Inv f t { s with
      scene := d
      attempts := Function.update s.attempts i (some ⟨op, next answer⟩) } := by
  have hop := h.attempted i _ ha
  refine h.move hd (fun _ => Scene.Event.noConfusion) h.waiting fun j p hp => ?_
  by_cases e : j = i
  · subst e
    rw [Function.update_self, Option.some.injEq] at hp
    subst hp
    refine ⟨hop, fun a ha' _ => ?_⟩
    cases hd with
    | @perform _ o _ _ _ x ho hq hx =>
      obtain ⟨c, hc, e⟩ := h.attempts j _ ha o ho (.inl hq)
      rw [Scene.actors_put_self, Option.some.injEq] at ha'
      subst ha'
      have hbuffer : ((o.put t x).overlays t).buffer = x.buffer := by
        simp only [Actor.put, Function.update_self]
      refine ⟨c, hc, ?_⟩
      rw [hbuffer]
      exact (h.scene.runAt_perform ho hq hx next).symm.trans e
  · rw [Function.update_of_ne e] at hp
    refine ⟨h.attempted j p hp, h.keep_attempt hd ⟨Scene.Event.noConfusion, ?_⟩ hp⟩
    rintro u q' answer' e'
    exact e (Scene.Event.perform.inj e').1.symm

theorem attempt_of_update {attempts : TxId → Option Attempt} {j : TxId} {p : Attempt}
    (hp : Function.update attempts i none j = some p) : j ≠ i ∧ attempts j = some p := by
  by_cases e : j = i
  · subst e
    rw [Function.update_self] at hp
    cases hp
  · rw [Function.update_of_ne e] at hp
    exact ⟨e, hp⟩

/-- The reply that a commit gives. -/
theorem fits_of_commit (h : s.Inv f t) {op : Operation} {outcome : Outcome}
    (ha : s.attempts i = some ⟨op, .done outcome⟩) (hd : s.scene.Step (.commit i) d)
    (pointer : Nat) : Reply.Fits ⟨op, outcome, i, pointer, !(d.written i t).isEmpty⟩ f
      (d.rowsBefore i t) (d.written i t) := by
  obtain ⟨hadv, hbase, hwritten⟩ := h.scene.advances hd
  cases hd with
  | @commit _ o pointer' tx c ho hp hall hc =>
    have hi := (h.scene.chronicle.running i ((h.scene.running i).2 ⟨o, ho, by simp [hp]⟩)).2
    obtain ⟨c, hc, e⟩ := h.attempts i _ ha o ho (.inr hp)
    rw [Scene.rowsBefore_of_advances hadv (Nat.le_of_lt hi) hbase hwritten]
    refine ⟨rfl, c, o.tx, _, hc, e.symm, ?_⟩
    simp only [Function.update_self]
    rfl

theorem commit (h : s.Inv f t) {op : Operation} {outcome : Outcome}
    (ha : s.attempts i = some ⟨op, .done outcome⟩) (hd : s.scene.Step (.commit i) d) :
    Inv f t { s with
      scene := d
      attempts := Function.update s.attempts i none
      replies := s.replies ++
        [⟨op, outcome, i, s.scene.coordinator.next, !(d.written i t).isEmpty⟩] } where
  scene := h.scene.step hd
  waiting := h.waiting
  attempted j p hp := h.attempted j p (attempt_of_update hp).2
  replied a ha' := by
    rcases List.mem_append.1 ha' with ha' | ha'
    · exact h.replied a ha'
    · obtain rfl := List.mem_singleton.1 ha'
      exact h.attempted i _ ha
  attempts j p hp := h.keep_attempt hd (Scene.Event.spares_commit i) (attempt_of_update hp).2
  commits := by
    rw [h.scene.commits_of_commit hd, h.commits, List.map_append]
    rfl
  replies a ha' := by
    rcases List.mem_append.1 ha' with ha' | ha'
    · exact h.keep_replies hd a ha'
    · obtain rfl := List.mem_singleton.1 ha'
      exact h.fits_of_commit ha hd _

theorem retire (h : s.Inv f t) {p : Attempt} (ha : s.attempts i = some p)
    (he : e = .abort i ∨ e = .invalidate i) (hd : s.scene.Step e d) :
    Inv f t { s with
      scene := d
      waiting := p.op :: s.waiting
      attempts := Function.update s.attempts i none } := by
  have hspares : ∀ j, e.Spares j s.scene.coordinator.next := by
    rintro j
    rcases he with rfl | rfl <;> exact ⟨nofun, nofun⟩
  refine h.move hd (by rcases he with rfl | rfl <;> exact nofun) ?_ fun j p' hp => ?_
  · intro o ho
    rcases List.mem_cons.1 ho with rfl | ho
    · exact h.attempted i p ha
    · exact h.waiting o ho
  · have hp := (attempt_of_update hp).2
    exact ⟨h.attempted j p' hp, h.keep_attempt hd (hspares j) hp⟩

theorem stay (h : s.Inv f t) (hd : s.scene.Step e d) (he : ∀ i, e ≠ .commit i)
    (hspares : ∀ j, e.Spares j s.scene.coordinator.next) : Inv f t { s with scene := d } :=
  h.move hd he h.waiting fun j p hp => ⟨h.attempted j p hp, h.keep_attempt hd (hspares j) hp⟩

theorem step (h : s.Inv f t) (hs : Step f t s s') : s'.Inv f t := by
  cases hs with
  | call op =>
    exact { h with
      waiting := fun o ho => List.mem_cons.2 ((List.mem_cons.1 ho).imp_right (h.waiting o))
      attempted := fun i p hp => List.mem_cons_of_mem op (h.attempted i p hp)
      replied := fun a ha => List.mem_cons_of_mem op (h.replied a ha) }
  | giveUp => exact { h with waiting := fun o ho => h.waiting o (List.mem_of_mem_erase ho) }
  | attempt hop hc hd => exact h.attempt hop hc hd
  | perform ha hd => exact h.perform ha hd
  | reserve ha hd => exact h.stay hd nofun fun _ => ⟨nofun, nofun⟩
  | commit ha hd => exact h.commit ha hd
  | retire ha he hd => exact h.retire ha he hd
  | other he hd =>
    refine h.stay hd ?_ fun _ => he.spares
    rintro i rfl
    exact he.elim

end Inv

theorem inv_opened (names : TableId → String) (base : TableId → Std.ExtTreeMap Bytes Bytes)
    (logs : TableId → Option LogWriter) : Inv f t (opened (.opened names base logs)) where
  scene := Scene.inv_opened names base logs
  waiting _ hop := absurd hop List.not_mem_nil
  attempted _ p hp := absurd hp (Option.some_ne_none p).symm
  replied _ ha := absurd ha List.not_mem_nil
  attempts _ p hp := absurd hp (Option.some_ne_none p).symm
  commits := rfl
  replies _ ha := absurd ha List.not_mem_nil

theorem Step.base_eq (h : s.Inv f t) (hs : Step f t s s') : s'.scene.base = s.scene.base := by
  cases hs with
  | call | giveUp => rfl
  | attempt _ _ hd | perform _ hd | reserve _ hd | commit _ hd | retire _ _ hd | other _ hd =>
    exact (h.scene.advances hd).2.1

/-- The invariant holds after every run. -/
theorem inv_of_steps {names : TableId → String} {base : TableId → Std.ExtTreeMap Bytes Bytes}
    {logs : TableId → Option LogWriter} (h : Steps f t (opened (.opened names base logs)) s) :
    s.Inv f t ∧ s.scene.base = base := by
  induction h with
  | refl => exact ⟨inv_opened names base logs, rfl⟩
  | tail _ hs ih => exact ⟨ih.1.step hs, (Step.base_eq ih.1 hs).trans ih.2⟩

end Service

end NamespaceCatalog
