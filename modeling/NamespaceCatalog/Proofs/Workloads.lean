import NamespaceCatalog.Proofs.Rosters
import NamespaceCatalog.Workload

/-!
# What a mixed workload exercises

A mixed workload goes round the names and round the four kinds of operations at the same time.  One
name comes up again after as many operations as there are names, and so the remainder of that number
by four says which kind of operation meets which: the record that a create adds is next met by a
read, an update, a delete or another create (`meets_add_iff`).  `meets_iff` tells from it for
every operation whether there is a record of its name.

All operations succeed all the same (`perform_mixed`).  That one of the updates replaces a record,
and one of the deletes removes one, depends on the number of names (`mixed_exercises`).
-/

namespace NamespaceCatalog

/-! ## Which names are in a roster -/

namespace Roster

variable {m : Roster} {name : String}

theorem mem_create {r : Record} : name ∈ (m.create r).2 ↔ name = r.name ∨ name ∈ m := by
  rw [Std.ExtTreeMap.mem_iff_isSome_getElem?, getElem?_create,
    Std.ExtTreeMap.mem_iff_isSome_getElem?]
  by_cases e : name = r.name
  · simp [e]
  · simp [e]

theorem mem_update {r : Record} : name ∈ m.update r ↔ name ∈ m := by
  unfold update
  split
  · next h =>
    rw [Std.ExtTreeMap.mem_insert, Std.LawfulEqCmp.compare_eq_iff_eq]
    refine ⟨?_, .inr⟩
    rintro (rfl | hm)
    · exact h
    · exact hm
  · rfl

theorem mem_delete {id : Id} : name ∈ (m.delete id).2 ↔ name ≠ id.name ∧ name ∈ m := by
  rw [delete, Std.ExtTreeMap.mem_erase, Ne, Std.LawfulEqCmp.compare_eq_iff_eq, eq_comm]

end Roster

namespace Workload

/-! ## Names -/

theorem padded_injective (w : Nat) : Function.Injective (padded w) := by
  intro i j h
  have hdigits : ∀ n, Nat.ofDigitChars 10 (padded w n).toList 0 = n := by
    intro n
    simp only [padded, String.toList_ofList, Nat.ofDigitChars_append,
      Nat.ofDigitChars_replicate_zero, Nat.mul_zero]
    exact Nat.ofDigitChars_ten_toDigits
  rw [← hdigits i, h, hdigits j]

theorem name_injective : Function.Injective name := fun _ _ h =>
  padded_injective 5 ((String.append_right_inj _).1 h)

theorem isNameCharacter_of_mem_padded {w n : Nat} {c : Char} (h : c ∈ (padded w n).toList) :
    isNameCharacter c := by
  rw [padded, String.toList_ofList, List.mem_append] at h
  rcases h with h | h
  · rw [List.eq_of_mem_replicate h]
    decide
  · have hdigit := Nat.isDigit_of_mem_toDigits (by decide) (by decide) h
    simp [isNameCharacter, Char.isAlphanum, hdigit]

/-- The names of a workload are names that a namespace may have. -/
theorem exists_id (i : Nat) : ∃ id, Id.ofName (name i) = .ok id ∧ id.name = name i := by
  have hvalid : ∃ id, Id.ofName (name i) = .ok id := by
    rw [Id.ofName_ok_iff]
    constructor
    · intro h
      have := congrArg String.length h
      simp [name] at this
    · intro c hc
      rw [name, String.toList_append, List.mem_append] at hc
      rcases hc with hc | hc
      · have hfront : "stress_".toList.all isNameCharacter = true := by decide
        exact List.all_eq_true.1 hfront c hc
      · exact isNameCharacter_of_mem_padded hc
  obtain ⟨id, hid⟩ := hvalid
  exact ⟨id, hid, Id.name_of_ofName hid⟩

/-! ## Whatever serves the operations -/

section Store

variable {σ : Type} (serve : Operation → σ → Except Error Outcome × σ)

/-- The state after operations. -/
def after (ops : List Operation) (s : σ) : σ := ops.foldl (fun s op => (serve op s).2) s

/-- Is an operation, whatever came before it, answered as a roster that was empty answers it? -/
def AnswersAsRoster (s : σ) : Prop := ∀ (ops : List Operation) (op : Operation),
  (serve op (after serve ops s)).1 = (Roster.serve op (Roster.after ops ∅)).1

/-- Does `p` hold of one of the operations, in the state in which it is served? -/
def Happens (p : Operation → σ → Prop) (ops : List Operation) (s : σ) : Prop :=
  ∃ front op back, ops = front ++ op :: back ∧ p op (after serve front s)

/-- Is the operation an update that finds a record to replace? -/
def Replaces : Operation → σ → Prop
  | .update r, s => found (serve (.get r.name) s).1
  | _, _ => False

/-- Is the operation a delete that finds a record to remove? -/
def Removes : Operation → σ → Prop
  | .delete name, s => found (serve (.delete name) s).1
  | _, _ => False

variable {serve} {s : σ} {ops : List Operation}

theorem run_cons (good : Except Error Outcome → Bool) (op : Operation) (t : Tally) :
    run serve good (op :: ops) t s =
      run serve good ops (t.count (good (serve op s).1)) (serve op s).2 := rfl

/-- A run in which all operations are good. -/
theorem run_of_forall {good : Except Error Outcome → Bool}
    (h : ∀ front op back, ops = front ++ op :: back → good (serve op (after serve front s)).1)
    (t : Tally) :
    run serve good ops t s = (⟨t.succeeded + ops.length, t.failed⟩, after serve ops s) := by
  induction ops generalizing t s with
  | nil => rfl
  | cons op ops ih =>
    have hop : good (serve op s).1 = true := h [] op ops rfl
    have hops := fun front op' back (e : ops = front ++ op' :: back) =>
      h (op :: front) op' back (by rw [e, List.cons_append])
    rw [run_cons, hop, ih hops]
    simp only [Tally.count, if_true, List.length_cons, Nat.add_assoc, Nat.add_comm 1]
    rfl

theorem AnswersAsRoster.replaces_iff (h : AnswersAsRoster serve s) (op : Operation) :
    Replaces serve op (after serve ops s) ↔ Replaces Roster.serve op (Roster.after ops ∅) := by
  cases op with
  | update r => rw [Replaces, Replaces, h ops]
  | _ => exact Iff.rfl

theorem AnswersAsRoster.removes_iff (h : AnswersAsRoster serve s) (op : Operation) :
    Removes serve op (after serve ops s) ↔ Removes Roster.serve op (Roster.after ops ∅) := by
  cases op with
  | delete name => rw [Removes, Removes, h ops]
  | _ => exact Iff.rfl

end Store

/-! ## Operations of a mixed workload -/

variable (w : Workload)

/-- The roster when the operation number `i` of a mixed workload is served. -/
def roster (i : Nat) : Roster := Roster.after ((List.range i).map w.mixedOperation) ∅

/-- Is there a record of the name with which the operation number `i` has to do? -/
def Meets (i : Nat) : Prop := name (i % w.names) ∈ w.roster i

variable {w} {m : Roster} {i j : Nat}

/-- The four kinds of operations come one after the other. -/
theorem mixedOperation_cases (w : Workload) (i : Nat) :
    i % 4 = 0 ∧ w.mixedOperation i = .create (w.record (i % w.names)) ∨
    i % 4 = 1 ∧ w.mixedOperation i = .get (name (i % w.names)) ∨
    i % 4 = 2 ∧ w.mixedOperation i = .update (w.record (i % w.names)) ∨
    i % 4 = 3 ∧ w.mixedOperation i = .delete (name (i % w.names)) := by
  have hkind : i % 4 = 0 ∨ i % 4 = 1 ∨ i % 4 = 2 ∨ i % 4 = 3 := by omega
  rcases hkind with h | h | h | h <;> simp [mixedOperation, h]

theorem isOk_serve_mixedOperation (w : Workload) (i : Nat) (m : Roster) :
    (Roster.serve (w.mixedOperation i) m).1.isOk := by
  obtain ⟨id, hid, -⟩ := exists_id (i % w.names)
  have hrecord : (w.record (i % w.names)).id = .ok id := hid
  obtain ⟨-, e⟩ | ⟨-, e⟩ | ⟨-, e⟩ | ⟨-, e⟩ := w.mixedOperation_cases i
  all_goals
    simp only [e, Roster.serve, hid, hrecord]
    rfl

/-- Creates add the name and deletes remove it. -/
theorem mem_serve_mixedOperation :
    name j ∈ (Roster.serve (w.mixedOperation i) m).2 ↔
      if i % w.names = j then i % 4 = 0 ∨ i % 4 ≠ 3 ∧ name j ∈ m else name j ∈ m := by
  obtain ⟨id, hid, hname⟩ := exists_id (i % w.names)
  have hrecord : (w.record (i % w.names)).id = .ok id := hid
  have hsame : name j = name (i % w.names) ↔ i % w.names = j := by
    rw [name_injective.eq_iff, eq_comm]
  obtain ⟨h, e⟩ | ⟨h, e⟩ | ⟨h, e⟩ | ⟨h, e⟩ := w.mixedOperation_cases i
  · have hnew : (w.record (i % w.names)).name = name (i % w.names) := rfl
    simp only [e, Roster.serve, hrecord, Roster.mem_create, hnew, hsame]
    by_cases hj : i % w.names = j <;> simp [hj, h]
  · simp only [e, Roster.serve, hid]
    by_cases hj : i % w.names = j <;> simp [hj, h]
  · simp only [e, Roster.serve, hrecord, Roster.mem_update]
    by_cases hj : i % w.names = j <;> simp [hj, h]
  · simp only [e, Roster.serve, hid, Roster.mem_delete, hname, Ne, hsame]
    by_cases hj : i % w.names = j <;> simp [hj, h]

theorem roster_succ (w : Workload) (i : Nat) :
    w.roster (i + 1) = (Roster.serve (w.mixedOperation i) (w.roster i)).2 := by
  rw [roster, List.range_succ, List.map_append, Roster.after_append]
  rfl

/-- A name is there only after an operation that had to do with it. -/
theorem exists_of_mem_roster (h : name j ∈ w.roster i) : ∃ k < i, k % w.names = j := by
  induction i with
  | zero => exact absurd h Std.ExtTreeMap.not_mem_empty
  | succ i ih =>
    rw [roster_succ, mem_serve_mixedOperation] at h
    by_cases e : i % w.names = j
    · exact ⟨i, Nat.lt_succ_self i, e⟩
    · rw [if_neg e] at h
      obtain ⟨k, hk, hkj⟩ := ih h
      exact ⟨k, Nat.lt_succ_of_lt hk, hkj⟩

theorem not_meets_of_lt (h : i < w.names) : ¬ w.Meets i := by
  intro hm
  obtain ⟨k, hk, hki⟩ := exists_of_mem_roster hm
  rw [Nat.mod_eq_of_lt h, Nat.mod_eq_of_lt (Nat.lt_trans hk h)] at hki
  exact Nat.ne_of_lt hk hki

/-- Nothing happens to a name while the others are gone through. -/
theorem mem_roster_add {d : Nat} (hd : d < w.names) :
    name (i % w.names) ∈ w.roster (i + 1 + d) ↔ name (i % w.names) ∈ w.roster (i + 1) := by
  induction d with
  | zero => rfl
  | succ d ih =>
    have hne : (i + 1 + d) % w.names ≠ i % w.names := by
      intro e
      have hgap := Nat.sub_mod_eq_zero_of_mod_eq e
      rw [show i + 1 + d - i = d + 1 by omega, Nat.mod_eq_of_lt hd] at hgap
      exact Nat.succ_ne_zero d hgap
    rw [← Nat.add_assoc, roster_succ, mem_serve_mixedOperation, if_neg hne,
      ih (Nat.lt_of_succ_lt hd)]

/-- When a name comes up again, it depends on the operation before whether there is a record. -/
theorem meets_add_iff (hn : 0 < w.names) :
    w.Meets (i + w.names) ↔ i % 4 = 0 ∨ i % 4 ≠ 3 ∧ w.Meets i := by
  have hlast : i + w.names = i + 1 + (w.names - 1) := by omega
  rw [Meets, Nat.add_mod_right, hlast, mem_roster_add (Nat.sub_lt hn Nat.zero_lt_one), roster_succ,
    mem_serve_mixedOperation, if_pos rfl, Meets]

/-- Which operations find a record of their name. -/
theorem meets_iff (hn : 0 < w.names) : w.Meets i ↔
    w.names % 4 = 0 ∧ i % 4 = 0 ∧ w.names ≤ i ∨
    w.names % 4 = 1 ∧ (i % 4 = 1 ∧ w.names ≤ i ∨ i % 4 = 2 ∧ 2 * w.names ≤ i ∨
      i % 4 = 3 ∧ 3 * w.names ≤ i) ∨
    w.names % 4 = 2 ∧ (i % 4 = 2 ∧ w.names ≤ i ∨ i % 4 = 0 ∧ 2 * w.names ≤ i) ∨
    w.names % 4 = 3 ∧ i % 4 = 3 ∧ w.names ≤ i := by
  induction i using Nat.strongRecOn with
  | ind i ih =>
    by_cases h : i < w.names
    · have := not_meets_of_lt h
      simp only [this, false_iff]
      omega
    · obtain ⟨k, rfl⟩ := Nat.exists_eq_add_of_le' (Nat.le_of_not_lt h)
      rw [meets_add_iff hn, ih k (by omega)]
      have hkinds : w.names % 4 = 0 ∨ w.names % 4 = 1 ∨ w.names % 4 = 2 ∨ w.names % 4 = 3 := by
        omega
      rcases hkinds with h4 | h4 | h4 | h4 <;> simp [h4] <;> omega

/-- When an update or a delete, whose number is `kind` in the round of kinds, finds a record. -/
theorem exists_meets_iff (hn : 0 < w.names) {kind : Nat} (hkind : kind = 2 ∨ kind = 3) :
    (∃ i < w.operations, i % 4 = kind ∧ w.Meets i) ↔
      w.names % 4 = 1 ∧ kind * w.names < w.operations ∨
      w.names % 4 = kind ∧ w.names < w.operations := by
  constructor
  · rintro ⟨i, hi, hi4, hm⟩
    rw [meets_iff hn] at hm
    rcases hkind with rfl | rfl <;> omega
  · have hmeets : w.names % 4 = 1 → w.Meets (kind * w.names) := by
      intro h4
      rcases hkind with rfl | rfl <;> exact (meets_iff hn).2 (by omega)
    rintro (⟨h4, hlong⟩ | ⟨h4, hlong⟩)
    · exact ⟨kind * w.names, hlong, by rcases hkind with rfl | rfl <;> omega, hmeets h4⟩
    · exact ⟨w.names, hlong, h4, (meets_iff hn).2 (by omega)⟩

/-! ## Whole workloads -/

/-- The operations before one of a mixed workload. -/
theorem exists_mixed_eq_iff {front : List Operation} {op : Operation} :
    (∃ back, w.mixed = front ++ op :: back) ↔ ∃ i < w.operations,
      front = (List.range i).map w.mixedOperation ∧ op = w.mixedOperation i := by
  constructor
  · rintro ⟨back, e⟩
    obtain ⟨before, rest, hrange, rfl, hrest⟩ := List.map_eq_append_iff.1 e
    rw [List.range_eq_range'] at hrange
    obtain ⟨i, -, rfl, rfl⟩ := List.range'_eq_append_iff.1 hrange
    obtain ⟨k, ks, hks, rfl, -⟩ := List.map_eq_cons_iff.1 hrest
    obtain ⟨rfl, hi, -⟩ := List.range'_eq_cons_iff.1 hks
    rw [Nat.zero_add, Nat.mul_one, ← List.range_eq_range']
    exact ⟨i, Nat.lt_of_sub_pos hi, rfl, rfl⟩
  · rintro ⟨i, hi, rfl, rfl⟩
    obtain ⟨d, hd⟩ := Nat.exists_eq_add_of_lt hi
    have hrange : List.range w.operations = List.range i ++ i :: List.range' (i + 1) d := by
      rw [hd, Nat.add_assoc, List.range_eq_range', ← List.range'_append_1, List.range'_succ,
        Nat.zero_add, List.range_eq_range']
    exact ⟨_, by rw [mixed, hrange, List.map_append, List.map_cons]⟩

theorem happens_mixed_iff {σ : Type} {serve : Operation → σ → Except Error Outcome × σ} {s : σ}
    (p : Operation → σ → Prop) : Happens serve p w.mixed s ↔ ∃ i < w.operations,
      p (w.mixedOperation i) (after serve ((List.range i).map w.mixedOperation) s) := by
  constructor
  · rintro ⟨front, op, back, e, hp⟩
    obtain ⟨i, hi, rfl, rfl⟩ := exists_mixed_eq_iff.1 ⟨back, e⟩
    exact ⟨i, hi, hp⟩
  · rintro ⟨i, hi, hp⟩
    obtain ⟨back, e⟩ := exists_mixed_eq_iff.2 ⟨i, hi, rfl, rfl⟩
    exact ⟨_, _, back, e, hp⟩

theorem found_get_iff : found (Roster.serve (.get (name j)) m).1 ↔ name j ∈ m := by
  obtain ⟨id, hid, hname⟩ := exists_id j
  rw [Std.ExtTreeMap.mem_iff_isSome_getElem?, ← hname, Roster.serve, Id.ofName_name]
  rfl

theorem found_delete_iff : found (Roster.serve (.delete (name j)) m).1 ↔ name j ∈ m := by
  obtain ⟨id, hid, hname⟩ := exists_id j
  rw [Std.ExtTreeMap.mem_iff_isSome_getElem?, ← hname, Roster.serve, Id.ofName_name]
  rfl

theorem replaces_mixedOperation_iff :
    Replaces Roster.serve (w.mixedOperation i) (w.roster i) ↔ i % 4 = 2 ∧ w.Meets i := by
  obtain ⟨h, e⟩ | ⟨h, e⟩ | ⟨h, e⟩ | ⟨h, e⟩ := w.mixedOperation_cases i
  · simp [e, h, Replaces]
  · simp [e, h, Replaces]
  · rw [e, Replaces, and_iff_right h]
    exact found_get_iff
  · simp [e, h, Replaces]

theorem removes_mixedOperation_iff :
    Removes Roster.serve (w.mixedOperation i) (w.roster i) ↔ i % 4 = 3 ∧ w.Meets i := by
  obtain ⟨h, e⟩ | ⟨h, e⟩ | ⟨h, e⟩ | ⟨h, e⟩ := w.mixedOperation_cases i
  · simp [e, h, Removes]
  · simp [e, h, Removes]
  · simp [e, h, Removes]
  · rw [e, Removes, and_iff_right h]
    exact found_delete_iff

section

variable {σ : Type} {serve : Operation → σ → Except Error Outcome × σ} {s : σ}

theorem perform_mixed (hn : 0 < w.names) (h : AnswersAsRoster serve s) :
    w.perform serve .mixed s = some (⟨w.operations, 0⟩, after serve w.mixed s) := by
  have hall : ∀ front op back, w.mixed = front ++ op :: back →
      succeeded (serve op (after serve front s)).1 := by
    intro front op back e
    obtain ⟨i, -, rfl, rfl⟩ := exists_mixed_eq_iff.1 ⟨back, e⟩
    rw [h]
    exact isOk_serve_mixedOperation w i _
  rw [perform, runAlone, if_pos (by simp [isPossible, hn]), run_of_forall hall]
  simp [Tally.zero]

theorem happens_replaces_iff (hn : 0 < w.names) (h : AnswersAsRoster serve s) :
    Happens serve (Replaces serve) w.mixed s ↔
      w.names % 4 = 1 ∧ 2 * w.names < w.operations ∨
      w.names % 4 = 2 ∧ w.names < w.operations := by
  have hmeets : Happens serve (Replaces serve) w.mixed s ↔
      ∃ i < w.operations, i % 4 = 2 ∧ w.Meets i := by
    rw [happens_mixed_iff]
    exact exists_congr fun i => and_congr_right fun _ =>
      (h.replaces_iff _).trans replaces_mixedOperation_iff
  rw [hmeets, exists_meets_iff hn (.inl rfl)]

theorem happens_removes_iff (hn : 0 < w.names) (h : AnswersAsRoster serve s) :
    Happens serve (Removes serve) w.mixed s ↔
      w.names % 4 = 1 ∧ 3 * w.names < w.operations ∨
      w.names % 4 = 3 ∧ w.names < w.operations := by
  have hmeets : Happens serve (Removes serve) w.mixed s ↔
      ∃ i < w.operations, i % 4 = 3 ∧ w.Meets i := by
    rw [happens_mixed_iff]
    exact exists_congr fun i => and_congr_right fun _ =>
      (h.removes_iff _).trans removes_mixedOperation_iff
  rw [hmeets, exists_meets_iff hn (.inr rfl)]

end

/-- All operations of a mixed workload succeed.  An update replaces a record only if the name of a
create comes up again for an update and was not up for a delete in between, which depends on the
number of names; and it is likewise with the deletes.  A workload that goes round all names four
times has both just if the number of names is one more than a multiple of four. -/
theorem mixed_exercises (w : Workload) (hn : 0 < w.names) {σ : Type}
    {serve : Operation → σ → Except Error Outcome × σ} {s : σ} (h : AnswersAsRoster serve s) :
    (∃ s', w.perform serve .mixed s = some (⟨w.operations, 0⟩, s')) ∧
    (Happens serve (Replaces serve) w.mixed s ↔
      w.names % 4 = 1 ∧ 2 * w.names < w.operations ∨
      w.names % 4 = 2 ∧ w.names < w.operations) ∧
    (Happens serve (Removes serve) w.mixed s ↔
      w.names % 4 = 1 ∧ 3 * w.names < w.operations ∨
      w.names % 4 = 3 ∧ w.names < w.operations) ∧
    (4 * w.names ≤ w.operations →
      (Happens serve (Replaces serve) w.mixed s ∧ Happens serve (Removes serve) w.mixed s ↔
        w.names % 4 = 1)) := by
  have hreplaces := happens_replaces_iff hn h
  have hremoves := happens_removes_iff hn h
  refine ⟨⟨_, perform_mixed hn h⟩, hreplaces, hremoves, fun hlong => ?_⟩
  rw [hreplaces, hremoves]
  omega

/-- In the workload for which nothing else is asked no update finds a record and no delete does;
with 101 names some do. -/
theorem mixed_exercises_of_standard :
    AnswersAsRoster Roster.serve ∅ ∧ 0 < standard.names ∧
    4 * standard.names ≤ standard.operations ∧
    (∃ m, standard.perform Roster.serve .mixed ∅ = some (⟨1000, 0⟩, m)) ∧
    ¬ Happens Roster.serve (Replaces Roster.serve) standard.mixed ∅ ∧
    ¬ Happens Roster.serve (Removes Roster.serve) standard.mixed ∅ ∧
    Happens Roster.serve (Replaces Roster.serve) { standard with names := 101 }.mixed ∅ ∧
    Happens Roster.serve (Removes Roster.serve) { standard with names := 101 }.mixed ∅ := by
  have hroster : AnswersAsRoster Roster.serve ∅ := fun _ _ => rfl
  obtain ⟨hrun, hreplaces, hremoves, -⟩ := mixed_exercises standard (by decide) hroster
  obtain ⟨-, -, -, hboth⟩ :=
    mixed_exercises { standard with names := 101 } (by decide) hroster
  obtain ⟨hreplaces', hremoves'⟩ := (hboth (by decide)).2 (by decide)
  refine ⟨hroster, by decide, by decide, hrun, ?_, ?_, hreplaces', hremoves'⟩
  · rw [hreplaces]
    decide
  · rw [hremoves]
    decide

end Workload

end NamespaceCatalog
