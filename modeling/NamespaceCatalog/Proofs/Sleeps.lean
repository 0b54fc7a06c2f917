import NamespaceCatalog.Sleep

/-!
# How a sleep goes

A sleep is cut short by the first stir after which the sleeper is to stop, or all of its time passes
without such a stir, or it is one that only a stir could end and none does (`World.Slept`).  From
how the sleep of an executor ends, `Meanwhile.of_sleep_true`, `of_sleep_false` and `of_sleep_none`
say what has passed in it.

The induction is on the stirs: one that does not stop the sleeper is put before the rest of the
sleep, which has that much less time left (`World.Slept.cons`).
-/

namespace NamespaceCatalog

variable {ρ : Type}

namespace Stir

/-- The time in which stirs happen. -/
def span : List (Stir ρ) → Nat
  | [] => 0
  | s :: stirs => s.after + span stirs

/-- What stirs make of signals. -/
def disturb (stirs : List (Stir ρ)) (p : Signal × ρ) : Signal × ρ :=
  stirs.foldl (fun p s => s.act p) p

/-- Does the sleeper go on, before the first stir and after each of them? -/
def Ignored (stop : Signal × ρ → Bool) (stirs : List (Stir ρ)) (p : Signal × ρ) : Prop :=
  ∀ front, front <+: stirs → ¬stop (disturb front p)

/-- Is the sleeper to stop after these stirs, and not before? -/
def Heeded (stop : Signal × ρ → Bool) (stirs : List (Stir ρ)) (p : Signal × ρ) : Prop :=
  stop (disturb stirs p) ∧ ∀ front, front <+: stirs → front ≠ stirs → ¬stop (disturb front p)

variable {stop : Signal × ρ → Bool} {stirs : List (Stir ρ)} {s : Stir ρ} {p : Signal × ρ}

@[simp] theorem span_nil : span ([] : List (Stir ρ)) = 0 := rfl

@[simp] theorem span_cons : span (s :: stirs) = s.after + span stirs := rfl

@[simp] theorem disturb_nil : disturb [] p = p := rfl

@[simp] theorem disturb_cons : disturb (s :: stirs) p = disturb stirs (s.act p) := rfl

theorem ignored_nil (hp : ¬stop p) : Ignored stop [] p := by
  intro front hfront
  obtain rfl := List.prefix_nil.1 hfront
  exact hp

theorem heeded_nil (hp : stop p) : Heeded stop [] p :=
  ⟨hp, fun _ hfront hne => absurd (List.prefix_nil.1 hfront) hne⟩

theorem Ignored.cons (hp : ¬stop p) (h : Ignored stop stirs (s.act p)) :
    Ignored stop (s :: stirs) p := by
  intro front hfront
  obtain rfl | ⟨front, rfl, hrest⟩ := List.prefix_cons_iff.1 hfront
  · exact hp
  · exact h front hrest

theorem Heeded.cons (hp : ¬stop p) (h : Heeded stop stirs (s.act p)) :
    Heeded stop (s :: stirs) p := by
  refine ⟨h.1, fun front hfront hne => ?_⟩
  obtain rfl | ⟨front, rfl, hrest⟩ := List.prefix_cons_iff.1 hfront
  · exact hp
  · exact h.2 front hrest fun e => hne (by rw [e])

end Stir

namespace World

/-- Is this world what a time with stirs makes of another one?  Nothing else has changed. -/
structure Passes (w : World ρ) (stirs : List (Stir ρ)) (time : Nat) (v : World ρ) : Prop where
  clock : v.clock = w.clock + time
  signals : v.signals = Stir.disturb stirs w.signals
  coordinator : v.coordinator = w.coordinator
  site : v.site = w.site

variable {w v : World ρ} {stop : Signal × ρ → Bool} {stirs done : List (Stir ρ)} {s : Stir ρ}
  {d : Nat} {r : Option Bool}

theorem passes_wait (w : World ρ) (time : Nat) : w.Passes [] time (w.wait time) :=
  ⟨rfl, rfl, rfl, rfl⟩

theorem Passes.cons {time : Nat} (h : (w.stir s).Passes stirs time v) :
    w.Passes (s :: stirs) (s.after + time) v where
  clock := h.clock.trans (Nat.add_assoc ..)
  signals := h.signals
  coordinator := h.coordinator
  site := h.site

/-- How a sleep goes, with the time that is left and what stirs there are. -/
inductive Slept (stop : Signal × ρ → Bool) (stirs : List (Stir ρ)) (w : World ρ) :
    (left : Option Nat) → Option Bool → World ρ → Prop
  /-- A stir within the time ends it. -/
  | stopped {left : Option Nat} {done : List (Stir ρ)} {v : World ρ} (pre : done <+: stirs)
    (within : ∀ d, left = some d → Stir.span done ≤ d) (heeded : Stir.Heeded stop done w.signals)
    (passes : w.Passes done (Stir.span done) v) : Slept stop stirs w left (some true) v
  /-- The time passes, and none of the stirs within it ends the sleep. -/
  | passed {d : Nat} {done : List (Stir ρ)} {v : World ρ} (pre : done <+: stirs)
    (within : Stir.span done ≤ d)
    (next : ∀ s, done ++ [s] <+: stirs → d < Stir.span (done ++ [s]))
    (ignored : Stir.Ignored stop done w.signals) (passes : w.Passes done d v) :
    Slept stop stirs w (some d) (some false) v
  /-- No stir ends a sleep without an end of its own. -/
  | never {v : World ρ} (ignored : Stir.Ignored stop stirs w.signals)
    (passes : w.Passes stirs (Stir.span stirs) v) : Slept stop stirs w none none v

theorem slept_of_stop (h : stop w.signals) (left : Option Nat) (stirs : List (Stir ρ)) :
    w.Slept stop stirs left (some true) w :=
  .stopped List.nil_prefix (fun d _ => Nat.zero_le d) (Stir.heeded_nil h) (passes_wait w 0)

/-- One more stir before a sleep, which had that much more time. -/
theorem Slept.cons {left left' : Option Nat} (hw : ¬stop w.signals)
    (h : (w.stir s).Slept stop stirs left' r v)
    (hleft : left' = left.map (· - s.after)) (hs : ∀ d, left = some d → s.after ≤ d) :
    w.Slept stop (s :: stirs) left r v := by
  cases h with
  | @stopped left' done v pre within heeded passes =>
    refine .stopped ((List.prefix_cons_inj s).2 pre) (fun d hd => ?_) (heeded.cons hw) ?_
    · subst hd
      have hle : Stir.span done ≤ d - s.after := within _ hleft
      have hd := hs d rfl
      rw [Stir.span_cons]
      omega
    · rw [Stir.span_cons]
      exact passes.cons
  | @passed d' done v pre within next ignored passes =>
    obtain ⟨d, rfl, hd⟩ := Option.map_eq_some_iff.1 hleft.symm
    have hle := hs d rfl
    have e : d = s.after + d' := by omega
    refine .passed ((List.prefix_cons_inj s).2 pre) (by rw [Stir.span_cons]; omega) ?_
      (ignored.cons hw) (e ▸ passes.cons)
    intro s' hs'
    have hlt := next s' ((List.prefix_cons_inj s).1 hs')
    rw [List.cons_append, Stir.span_cons]
    omega
  | @never v ignored passes =>
    obtain rfl := Option.map_eq_none_iff.1 hleft.symm
    refine .never (ignored.cons hw) ?_
    rw [Stir.span_cons]
    exact passes.cons

theorem slept_sleep (stop : Signal × ρ → Bool) (left : Option Nat) (stirs : List (Stir ρ))
    (w : World ρ) :
    w.Slept stop stirs left (w.sleep stop left stirs).1 (w.sleep stop left stirs).2 := by
  fun_induction sleep stop left stirs w with
  | case1 left w h => exact slept_of_stop h left []
  | case2 w h => exact .never (Stir.ignored_nil h) (passes_wait w 0)
  | case3 w h d =>
    exact .passed List.nil_prefix (Nat.zero_le d) (fun s hs => by simp at hs) (Stir.ignored_nil h)
      (passes_wait w d)
  | case4 left s stirs w h => exact slept_of_stop h left _
  | case5 s stirs w h ih => exact ih.cons h rfl fun _ hd => by cases hd
  | case6 s stirs w h d hle ih =>
    refine ih.cons h rfl fun d' hd => ?_
    cases hd
    exact hle
  | case7 s stirs w h d hlt =>
    refine .passed List.nil_prefix (Nat.zero_le d) (fun s' hs' => ?_) (Stir.ignored_nil h)
      (passes_wait w d)
    obtain rfl : s' = s := (List.cons_prefix_cons.1 hs').1
    simpa using hlt

end World

namespace Meanwhile

/-- A whole sleep: its end can be told, and these are the stirs that come before it. -/
structure Passed (m : Meanwhile ρ) (delay : Nat) (w : World ρ) (done : List (Stir ρ))
    (v : World ρ) : Prop where
  told : w.clock + delay ≤ m.lastInstant
  pre : done <+: m.stirs w
  within : Stir.span done ≤ delay
  next : ∀ s, done ++ [s] <+: m.stirs w → delay < Stir.span (done ++ [s])
  passes : w.Passes done delay v

/-- A sleep that ends with these stirs, before its end if that can be told. -/
structure Cut (m : Meanwhile ρ) (delay : Nat) (w : World ρ) (done : List (Stir ρ)) (v : World ρ) :
    Prop where
  pre : done <+: m.stirs w
  within : w.clock + delay ≤ m.lastInstant → Stir.span done ≤ delay
  passes : w.Passes done (Stir.span done) v

/-- A sleep whose end cannot be told, after all stirs. -/
structure Endless (m : Meanwhile ρ) (delay : Nat) (w v : World ρ) : Prop where
  untold : m.lastInstant < w.clock + delay
  passes : w.Passes (m.stirs w) (Stir.span (m.stirs w)) v

variable {m : Meanwhile ρ} {stop : Signal × ρ → Bool} {delay : Nat} {w v : World ρ}
  {r : Option Bool}

theorem slept_of_sleep (h : m.sleep stop delay w = (r, v)) :
    ∃ left, m.left delay w = left ∧ w.Slept stop (m.stirs w) left r v := by
  have hs := World.slept_sleep stop (m.left delay w) (m.stirs w) w
  rw [show w.sleep stop (m.left delay w) (m.stirs w) = (r, v) from h] at hs
  exact ⟨_, rfl, hs⟩

theorem left_eq_some_iff {d : Nat} :
    m.left delay w = some d ↔ w.clock + delay ≤ m.lastInstant ∧ delay = d := by
  simp [left]

/-- A sleep that stops is cut short by the first stir after which it is to. -/
theorem of_sleep_true (h : m.sleep stop delay w = (some true, v)) :
    ∃ done, m.Cut delay w done v ∧ Stir.Heeded stop done w.signals := by
  obtain ⟨left, hleft, hs⟩ := slept_of_sleep h
  cases hs with
  | @stopped _ done _ pre within heeded passes =>
    refine ⟨done, ⟨pre, fun htold => within delay ?_, passes⟩, heeded⟩
    exact hleft.symm.trans (left_eq_some_iff.2 ⟨htold, rfl⟩)

/-- If a sleep is over, all of its time has passed. -/
theorem of_sleep_false (h : m.sleep stop delay w = (some false, v)) :
    ∃ done, m.Passed delay w done v ∧ Stir.Ignored stop done w.signals := by
  obtain ⟨left, hleft, hs⟩ := slept_of_sleep h
  cases hs with
  | @passed d done _ pre within next ignored passes =>
    obtain ⟨htold, rfl⟩ := left_eq_some_iff.1 hleft
    exact ⟨done, ⟨htold, pre, within, next, passes⟩, ignored⟩

/-- A sleep that goes on has no end of its own, and no stir stops it. -/
theorem of_sleep_none (h : m.sleep stop delay w = (none, v)) :
    m.Endless delay w v ∧ Stir.Ignored stop (m.stirs w) w.signals := by
  obtain ⟨left, hleft, hs⟩ := slept_of_sleep h
  cases hs with
  | never ignored passes =>
    refine ⟨⟨Nat.lt_of_not_le fun htold => ?_, passes⟩, ignored⟩
    cases hleft.symm.trans (left_eq_some_iff.2 ⟨htold, rfl⟩)

/-- Where nobody does anything, a sleep leaves the signals as they are. -/
theorem signals_of_quiet (h : quiet.sleep stop delay w = (r, v)) : v.signals = w.signals := by
  obtain ⟨left, -, hs⟩ := slept_of_sleep h
  cases hs with
  | stopped pre _ _ passes | passed pre _ _ _ passes =>
    obtain rfl := List.prefix_nil.1 pre
    exact passes.signals
  | never _ passes => exact passes.signals

end Meanwhile

end NamespaceCatalog
