import NamespaceCatalog.Proofs.Retries
import NamespaceCatalog.Rehearsal.Run

/-!
# What a rehearsal writes down

Whatever is rehearsed, a policy for retries was asked about attempts `1`, `2`, `3` and so on, once
about each, and all of them but the last had met a conflict; the only attempt that it was not asked
about is one that committed (`Cast.calls_of_execute`).

Nothing that goes on within an attempt touches what is written down about it: `Participant.Leaves`
says so of participants, and an attempt then does the same (`Participant.Leaves.attempt`).
-/

namespace NamespaceCatalog

/-! ## What participants leave alone -/

section Participants

variable {σ π β γ : Type} {obs : σ → β}

theorem obs_actUntil {f : π → σ → Except Error Unit × π × σ}
    (hf : ∀ p s, obs (f p s).2.2 = obs s) (ps : List π) (s : σ) :
    obs (actUntil f ps s).2.2 = obs s := by
  induction ps generalizing s with
  | nil => rfl
  | cons p ps ih =>
    have hp := hf p s
    unfold actUntil
    split
    · next hr => rwa [hr] at hp
    · next hr =>
      rw [hr] at hp
      exact (ih _).trans hp

theorem obs_actAll {f : π → σ → γ × π × σ} (hf : ∀ p s, obs (f p s).2.2 = obs s) (ps : List π)
    (s : σ) : obs (actAll f ps s).2.2 = obs s := by
  induction ps generalizing s with
  | nil => rfl
  | cons p ps ih => exact (ih _).trans (hf p s)

end Participants

/-- Do the participants leave alone what is observed, and does the coordinator not show in it? -/
structure Participant.Leaves {ρ β : Type} (π : Type) [Participant ρ π] (obs : World ρ → β) :
    Prop where
  coordinator : ∀ w c, obs { w with coordinator := c } = obs w
  start : ∀ tx (p : π) w, obs (start tx p w).2.2 = obs w
  changes : ∀ (p : π) w, obs (changes p w).2.2 = obs w
  commit : ∀ (p : π) w, obs (commit p w).2.2 = obs w
  post : ∀ (p : π) w, obs (post p w).2 = obs w
  rollback : ∀ (p : π) w, obs (rollback p w).2.2 = obs w
  reclaim : ∀ h (p : π) w, obs (reclaim h p w).2 = obs w

namespace Participant.Leaves

open Executor

variable {ρ π α β : Type} [Participant ρ π] {obs : World ρ → β} {body : Body ρ π α}

theorem steps (h : Leaves π obs) (hb : ∀ ps w, obs (body ps w).2.2 = obs w) (tx : Transaction)
    (ps : List π) (w : World ρ) : obs (steps tx body ps w).2.2 = obs w := by
  have hstart := obs_actUntil (h.start tx) ps w
  unfold Executor.steps
  split
  · next hr => rwa [hr] at hstart
  · next ps₁ w₁ hr =>
    rw [hr] at hstart
    have hbody := (hb ps₁ w₁).trans hstart
    split
    · next hr => rwa [hr] at hbody
    · next a ps₂ w₂ hr =>
      rw [hr] at hbody
      have hchanges := (obs_actAll h.changes ps₂ w₂).trans hbody
      rcases hr : actAll Participant.changes ps₂ w₂ with ⟨changes, ps₃, w₃⟩
      rw [hr] at hchanges
      dsimp only
      split
      · exact (h.coordinator _ _).trans hchanges
      · next c _ =>
        have hcommit := (obs_actUntil h.commit ps₃ { w₃ with coordinator := c }).trans
          ((h.coordinator _ _).trans hchanges)
        split
        · next hr => rwa [hr] at hcommit
        · next ps₄ w₄ hr =>
          rw [hr] at hcommit
          split
          · exact hcommit
          · exact (obs_actAll h.post _ _).trans ((h.coordinator _ _).trans hcommit)

theorem fail (h : Leaves π obs) (tx : Transaction) (ps : List π) (w : World ρ) :
    obs (fail tx ps w).2 = obs w := by
  have hroll := obs_actAll h.rollback ps w
  unfold Executor.fail
  rcases hr : actAll Participant.rollback ps w with ⟨results, ps₁, w₁⟩
  rw [hr] at hroll
  dsimp only
  split
  · split
    · exact (h.coordinator _ _).trans hroll
    · exact hroll
  · exact (h.coordinator _ _).trans hroll

theorem reclaim_all (h : Leaves π obs) (ps : List π) (w : World ρ) :
    obs (Executor.reclaim ps w) = obs w := by
  unfold Executor.reclaim
  split
  · rfl
  · exact obs_actAll (h.reclaim _) ps w

/-- An attempt leaves alone what its participants and its body do. -/
theorem attempt (h : Leaves π obs) (hb : ∀ ps w, obs (body ps w).2.2 = obs w)
    (x : Executor ρ π) (w : World ρ) : obs (x.attempt body w).2 = obs (x.bind w).2 := by
  unfold Executor.attempt
  rcases x.bind w with ⟨_ | ps, v⟩
  · rfl
  · dsimp only
    have hsteps := (h.steps hb v.coordinator.begin.1 ps _).trans
      (h.coordinator v v.coordinator.begin.2)
    split
    · next hr =>
      rw [hr] at hsteps
      exact (h.reclaim_all _ _).trans hsteps
    · next ps₁ w₁ hr =>
      rw [hr] at hsteps
      exact (h.reclaim_all _ _).trans ((h.fail _ ps₁ w₁).trans hsteps)

end Participant.Leaves

/-! ## What performers and acts leave alone -/

/-- The number of the attempt, and what the policy was asked in the run. -/
def Rehearsal.log (r : Rehearsal) : Nat × List (Nat × Error) := (r.attempt, r.calls)

namespace Performer

variable {stage : Stage} {act : Overlay → Theatre → Except Error Unit × Overlay × Theatre}

theorem log_play (hact : ∀ x w, (act x w).2.2.extra = w.extra) (x : Performer) (w : Theatre) :
    (play stage act x w).2.2.extra.log = w.extra.log := by
  unfold play
  split
  · rfl
  · dsimp only
    split
    · rfl
    · split
      · rfl
      · exact (congrArg Rehearsal.log (hact x.overlay _)).trans rfl

theorem log_steal (x : Performer) (w : Theatre) : (x.steal w).2.2.extra = w.extra := by
  unfold steal
  split
  · split
    · split <;> rfl
    · rfl
  · rfl

theorem leaves_log : Participant.Leaves Performer fun w : Theatre => w.extra.log where
  coordinator _ _ := rfl
  start tx x w := by
    refine (log_play (fun x w => ?_) _ _).trans ?_
    · simp only [Participant.start]
      split <;> rfl
    · split <;> rfl
  changes x w := log_play (fun _ _ => rfl) _ _
  commit x w := by
    have hsteal := congrArg Rehearsal.log (log_steal x w)
    simp only [Participant.commit]
    split
    · next hr => rwa [hr] at hsteal
    · next hr =>
      rw [hr] at hsteal
      exact (log_play (fun _ _ => rfl) _ _).trans hsteal
  post x w := log_play (fun _ _ => rfl) _ _
  rollback x w := log_play (fun _ _ => rfl) _ _
  reclaim h x w := log_play (fun _ _ => rfl) _ _

end Performer

namespace Cast

variable {α : Type} {c : Cast} {p : RetryPolicy} {run : Run α}

theorem extra_undo (e : Error) (tx : Transaction) (x : Overlay) (w : Theatre) :
    (undo e tx x w).2.extra = w.extra := by
  unfold undo
  dsimp only
  split <;> rfl

theorem extra_commitRival (tx : Transaction) (x : Overlay) (w : Theatre) :
    (commitRival tx x w).2.extra = w.extra := by
  unfold commitRival
  dsimp only
  split
  · exact extra_undo _ _ _ _
  · split
    · exact extra_undo _ _ _ _
    · rfl

theorem log_rival (id : TableId) (key : Bytes) (value : Option Bytes) (hold : Bool) (w : Theatre) :
    (rival id key value hold w).2.extra.log = w.extra.log := by
  unfold rival
  dsimp only
  split
  · rfl
  · split
    · exact congrArg Rehearsal.log (extra_undo _ _ _ _)
    · split
      · rfl
      · exact congrArg Rehearsal.log (extra_commitRival _ _ _)

theorem log_act (c : Cast) (a : Act) (ps : List Performer) (w : Theatre) :
    (c.act a ps w).2.2.extra.log = w.extra.log := by
  cases a with
  | operate i op => rfl
  | rival i key value hold =>
    unfold act
    dsimp only
    split
    · rfl
    · exact log_rival ..
  | release => rfl
  | interrupt => rfl
  | raiseToken => rfl
  | faults i f =>
    unfold act
    dsimp only
    split <;> rfl

theorem log_actAll (c : Cast) (as : List Act) (ps : List Performer) (w : Theatre) :
    (c.actAll as ps w).2.2.2.extra.log = w.extra.log := by
  induction as generalizing ps w with
  | nil => rfl
  | cons a as ih =>
    have ha := c.log_act a ps w
    unfold actAll
    split
    · next hr => rwa [hr] at ha
    · next hr =>
      rw [hr] at ha
      exact (ih _ _).trans ha

theorem log_body [Inhabited α] (c : Cast) (run : Run α) (ps : List Performer) (w : Theatre) :
    (c.body run ps w).2.2.extra.log = w.extra.log := by
  have hacts := c.log_actAll (scriptOf run w).1 ps w
  unfold body
  dsimp only
  split <;> exact hacts

theorem log_bind (c : Cast) (run : Run α) (w : Theatre) :
    (c.bind run w).2.extra.log = (w.extra.attempt + 1, w.extra.calls) := by
  unfold bind
  dsimp only
  split <;> rfl

/-! ## Runs -/

variable [Inhabited α]

theorem log_ask (c : Cast) (e : Error) (n : Nat) (w : Theatre) :
    (c.ask e n w).2.extra.log = (w.extra.attempt, (n, e) :: w.extra.calls) := by
  unfold ask
  dsimp only
  split
  · rfl
  · split
    · rfl
    · split <;> split <;> rfl

theorem log_attempt (c : Cast) (run : Run α) (w : Theatre) :
    ((c.executor run).attempt (c.body run) w).2.extra.log =
      (w.extra.attempt + 1, w.extra.calls) :=
  (Performer.leaves_log.attempt (c.log_body run) _ w).trans (c.log_bind run w)

omit [Inhabited α] in
theorem follows_executor (h : c.policy = .policy p) (run : Run α) :
    (c.executor run).Follows p := by
  intro e n w
  refine ⟨0, ?_⟩
  simp only [executor, ask, h]

/-- What is written down when the policy was asked after a failed attempt. -/
theorem log_question {e : Error} {n : Nat} {delay : Option Nat} {w u z : Theatre}
    (ha : (c.executor run).attempt (c.body run) w = (.error e, u))
    (hz : (c.executor run).policy e n u = (delay, z)) :
    z.extra.log = (w.extra.attempt + 1, (n, e) :: w.extra.calls) := by
  have hattempt := c.log_attempt run w
  have hask := c.log_ask e n u
  rw [ha] at hattempt
  rw [show c.ask e n u = (delay, z) from hz] at hask
  obtain ⟨hnumber, hcalls⟩ := Prod.mk.inj hattempt
  rw [hask, hnumber, hcalls]

/-- Nor does a sleep change that. -/
theorem log_sleep {e : Error} {n delay : Nat} {w u z v : Theatre} {up : Option Bool}
    {stop : Signal × Rehearsal → Bool}
    (ha : (c.executor run).attempt (c.body run) w = (.error e, u))
    (hz : (c.executor run).policy e n u = (some delay, z))
    (hv : (c.executor run).meanwhile.sleep stop delay z = (up, v)) :
    v.extra.log = (w.extra.attempt + 1, (n, e) :: w.extra.calls) := by
  have hsame : v.extra = z.extra := congrArg Prod.snd (Meanwhile.signals_of_quiet hv)
  rw [hsame, log_question ha hz]

/-! ## Questions to the policy -/

/-- What is written down after questions about the attempts `1` to `k`, the last one first. -/
structure Asked (k : Nat) (calls : List (Nat × Error)) : Prop where
  numbers : calls.map (·.1) = (List.range' 1 k).reverse
  conflicts : ∀ call ∈ calls.tail, call.2.isConflict

theorem asked_nil : Asked 0 [] := ⟨rfl, by simp⟩

theorem Asked.cons {k : Nat} {calls : List (Nat × Error)} (h : Asked k calls)
    (hc : ∀ call ∈ calls, call.2.isConflict) (e : Error) : Asked (k + 1) ((k + 1, e) :: calls) where
  numbers := by
    rw [List.map_cons, h.numbers, List.range'_1_concat, List.reverse_append, Nat.add_comm]
    rfl
  conflicts := hc

/-- Does the log agree with the result?  The policy was asked about all attempts, but not about one
that commits, and there were at most as many as `most`. -/
def Agrees (most : Nat) (r : Option (Except Error α)) (v : Theatre) : Prop :=
  ∃ m, Asked m v.extra.calls ∧ v.extra.attempt = (if r.any (·.isOk) then m + 1 else m) ∧
    v.extra.attempt ≤ most

omit [Inhabited α] in
theorem agrees_of_question {most : Nat} {r : Option (Except Error α)} {w v : Theatre} {e : Error}
    (hlog : v.extra.log = (w.extra.attempt + 1, (w.extra.attempt + 1, e) :: w.extra.calls))
    (hr : r.any (·.isOk) = false) (h : Asked w.extra.attempt w.extra.calls)
    (hc : ∀ call ∈ w.extra.calls, call.2.isConflict) (hk : w.extra.attempt + 1 ≤ most) :
    Agrees most r v := by
  obtain ⟨hattempt, hcalls⟩ := Prod.mk.inj hlog
  exact ⟨w.extra.attempt + 1, hcalls ▸ h.cons hc e, by rw [hattempt, hr]; rfl, hattempt ▸ hk⟩

/-- From any attempt on, if all before it met conflicts, and the policy was asked about them. -/
theorem agrees_of_retry (hp : c.policy = .policy p) (stop : Signal × Rehearsal → Bool)
    {more n : Nat} {w : Theatre} (hn : n = w.extra.attempt + 1)
    (hk : w.extra.attempt + 1 ≤ max 1 p.attempts) (hmore : p.attempts ≤ n + more)
    (h : Asked w.extra.attempt w.extra.calls) (hc : ∀ call ∈ w.extra.calls, call.2.isConflict) :
    Agrees (max 1 p.attempts) ((c.executor run).retry stop (c.body run) more n w).1
      ((c.executor run).retry stop (c.body run) more n w).2 := by
  have hx := follows_executor hp run
  fun_induction Executor.retry (c.executor run) stop (c.body run) more n w with
  | case1 more n w a u ha =>
    have hlog := c.log_attempt run w
    rw [ha] at hlog
    obtain ⟨hattempt, hcalls⟩ := Prod.mk.inj hlog
    exact ⟨w.extra.attempt, hcalls ▸ h, hattempt, hattempt ▸ hk⟩
  | case2 more n w e u ha z hz =>
    subst hn
    exact agrees_of_question (log_question ha hz) rfl h hc hk
  | case3 more n w e u ha delay z hz v hv =>
    subst hn
    exact agrees_of_question (log_sleep ha hz hv) rfl h hc hk
  | case4 more n w e u ha delay z hz up v hv e' hwake =>
    subst hn
    exact agrees_of_question (log_sleep ha hz hv) rfl h hc hk
  | case5 n w e u ha delay z hz up v hv =>
    subst hn
    exact agrees_of_question (log_sleep ha hz hv) rfl h hc hk
  | case6 n w e u ha delay z hz up v hv more hwake ih =>
    subst hn
    obtain ⟨he, hlt⟩ := hx.conflict_of_some (Nat.succ_pos _) hz
    obtain ⟨hattempt, hcalls⟩ := Prod.mk.inj (log_sleep ha hz hv)
    rw [hattempt, hcalls] at ih
    exact ih rfl (by omega) (by omega) (h.cons hc e) (List.forall_mem_cons.2 ⟨he, hc⟩)

theorem agrees_of_start (hp : c.policy = .policy p) (hattempts : p.attempts < UInt32.size)
    (stop : Signal × Rehearsal → Bool) {w : Theatre} (hw : w.extra.log = (0, [])) :
    Agrees (max 1 p.attempts)
      ((c.executor run).retry stop (c.body run) (Executor.mostAttempts - 1) 1 w).1
      ((c.executor run).retry stop (c.body run) (Executor.mostAttempts - 1) 1 w).2 := by
  have hmost : Executor.mostAttempts = UInt32.size - 1 := rfl
  obtain ⟨hattempt, hcalls⟩ := Prod.mk.inj hw
  refine agrees_of_retry hp stop ?_ ?_ ?_ ?_ ?_
  · rw [hattempt]
  · rw [hattempt]
    omega
  · omega
  · rw [hattempt, hcalls]
    exact asked_nil
  · simp [hcalls]

theorem agrees_of_perform (hp : c.policy = .policy p) (hattempts : p.attempts < UInt32.size)
    {w : Theatre} (hw : w.extra.log = (0, [])) :
    Agrees (max 1 p.attempts) (c.perform run w).1 (c.perform run w).2 := by
  unfold perform
  split <;> exact agrees_of_start hp hattempts _ hw

/-- A run with a policy for retries asks it about attempts `1`, `2`, `3` and so on, once about each,
and goes on only after conflicts.  There is one attempt more exactly if that commits; and there are
at most as many as the policy allows, or one. -/
theorem calls_of_execute (hp : c.policy = .policy p) (hattempts : p.attempts < UInt32.size)
    (run : Run α) (w : Theatre) :
    ∃ m, Asked m (c.execute run w).2.extra.calls ∧
      (c.execute run w).2.extra.attempt = (if (c.execute run w).1.isOk then m + 1 else m) ∧
      (c.execute run w).2.extra.attempt ≤ max 1 p.attempts := by
  have hagrees : Agrees _ (c.perform run (enter run w)).1 (c.perform run (enter run w)).2 :=
    agrees_of_perform hp hattempts rfl
  rcases hr : c.perform run (enter run w) with ⟨r, v⟩
  rw [hr] at hagrees
  obtain ⟨m, hasked, hattempt, hmost⟩ := hagrees
  have hexecute : c.execute run w =
      (r.getD (.error .interrupted), if run.released then release v else v) := by
    unfold execute
    rw [hr]
    rfl
  have hok : (r.getD (.error .interrupted)).isOk = r.any (·.isOk) := by
    cases r <;> rfl
  rw [hexecute, hok]
  cases run.released <;> exact ⟨m, hasked, hattempt, hmost⟩

/-- A body that meets a conflict in each attempt, of which three are allowed. -/
example :
    let recorder : Part := ⟨"a", none, [], fun _ => [], none, []⟩
    let cast : Cast := ⟨[], [recorder], false, .policy (.fixed ⟨3, 1⟩)⟩
    let run : Run Nat := ⟨[([], .error (.conflict 1 1))], [], none, false, false⟩
    let r := cast.execute run (World.new Site.empty Rehearsal.new)
    r.1.isOk = false ∧ r.2.extra.calls.map (·.1) = [3, 2, 1] ∧ r.2.extra.attempt = 3 := by
  decide +kernel

end Cast

end NamespaceCatalog
