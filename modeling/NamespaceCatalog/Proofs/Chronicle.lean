import Mathlib.Logic.Function.Basic
import NamespaceCatalog.Transaction.Coordinator

/-!
# Chronicles

A chronicle is a coordinator with the memory it does not have itself: all commits so far (`commits`,
oldest first) and what each transaction reserved last (`held`).  `serve` lets the coordinator answer
a request and writes down what happened; `run` serves a list of requests.  The handles in requests
are any values of `Transaction`, so copies of one transaction, and finished ones, are among them.

`Inv` holds after every run (`inv_run`).  It ties the tables that the coordinator keeps, and forgets
parts of, to the full memory.  From it follows that the first committer wins
(`first_committer_wins`).
-/

namespace NamespaceCatalog

/-! ## What the steps of a coordinator do -/

namespace ChangeSet

/-- Do the sets share a row? -/
def Overlap (a b : ChangeSet) : Prop := ∃ row, row ∈ a ∧ row ∈ b

theorem Overlap.symm {a b : ChangeSet} (h : a.Overlap b) : b.Overlap a := by
  obtain ⟨row, ha, hb⟩ := h
  exact ⟨row, hb, ha⟩

theorem not_overlap_empty (a : ChangeSet) : ¬ a.Overlap ∅ := by
  rintro ⟨row, -, h⟩
  simp at h

theorem common_eq_nil_iff (a b : ChangeSet) : a.common b = [] ↔ ¬ a.Overlap b := by
  simp [common, Overlap, List.filter_eq_nil_iff]

end ChangeSet

namespace Coordinator

variable {c : Coordinator}

theorem eraseMany_eq_foldl (set : Std.ExtTreeSet TxId) (ids : List TxId) :
    set.eraseMany ids = ids.foldl (fun set id => set.erase id) set := by
  simp only [Std.ExtTreeSet.eraseMany, Std.ExtTreeMap.eraseMany, Std.ExtDTreeMap.eraseMany,
    bind_pure_comp, map_pure, List.forIn_pure_yield_eq_foldl, Id.run_pure]
  refine (List.foldl_hom (fun acc => Std.ExtTreeSet.mk (.mk (Subtype.val acc))) ?_).symm
  intros
  rfl

theorem mem_eraseMany {ids : List TxId} {set : Std.ExtTreeSet TxId} {id : TxId} :
    id ∈ set.eraseMany ids ↔ id ∈ set ∧ id ∉ ids := by
  rw [eraseMany_eq_foldl]
  induction ids generalizing set with
  | nil => simp
  | cons a ids ih =>
    rw [List.foldl_cons, ih, Std.ExtTreeSet.mem_erase, List.mem_cons, not_or]
    have : compare a id ≠ .eq ↔ id ≠ a := not_congr (Nat.compare_eq_eq.trans eq_comm)
    rw [this]
    exact ⟨fun ⟨⟨h₁, h₂⟩, h₃⟩ => ⟨h₂, h₁, h₃⟩, fun ⟨h₂, h₁, h₃⟩ => ⟨⟨h₁, h₂⟩, h₃⟩⟩

theorem oldest_le {i oldest : TxId} (h : c.inProgress.min? = some oldest)
    (hi : i ∈ c.inProgress) : oldest ≤ i :=
  Nat.isLE_compare.1 ((Std.ExtTreeSet.min?_eq_some_iff_mem_and_forall.1 h).2 i hi)

/-- A change set is kept while a transaction runs that began before its commit. -/
theorem committed_prune {i pointer : Nat} (hi : i ∈ c.inProgress) (hp : i ≤ pointer) :
    c.prune.committed[pointer]? = c.committed[pointer]? := by
  unfold prune
  split
  · next oldest h =>
    have : oldest ≤ pointer := Nat.le_trans (oldest_le h hi) hp
    cases hq : c.committed[pointer]? <;> simp [hq, this]
  · next h =>
    rw [Std.ExtTreeSet.min?_eq_none_iff] at h
    simp [h] at hi

theorem recent_prune {i pointer : Nat} {id : TxId} (hi : i ∈ c.inProgress) (hp : i ≤ pointer)
    (h : c.recent[id]? = some pointer) : c.prune.recent[id]? = some pointer := by
  unfold prune
  split
  · next oldest ho =>
    have : oldest ≤ pointer := Nat.le_trans (oldest_le ho hi) hp
    simp [h, this]
  · next hn =>
    rw [Std.ExtTreeSet.min?_eq_none_iff] at hn
    simp [hn] at hi

theorem mem_finish {i id : Nat} :
    i ∈ (c.finish id).inProgress ↔ i ≠ id ∧ i ∈ c.inProgress := by
  rw [inProgress_finish, Std.ExtTreeSet.mem_erase]
  exact and_congr_left' (not_congr (Nat.compare_eq_eq.trans eq_comm))

theorem committed_finish {i id pointer : Nat} (hi : i ∈ (c.finish id).inProgress)
    (hp : i ≤ pointer) : (c.finish id).committed[pointer]? = c.committed[pointer]? :=
  committed_prune (inProgress_finish c id ▸ hi) hp

theorem recent_finish {i id w pointer : Nat} (hi : i ∈ (c.finish id).inProgress)
    (hp : i ≤ pointer) (h : c.recent[w]? = some pointer) :
    (c.finish id).recent[w]? = some pointer :=
  recent_prune (inProgress_finish c id ▸ hi) hp h

theorem reserved_finish_running (hr : ∀ i : Nat, i ∈ c.reserved → i ∈ c.inProgress) {id i : Nat}
    (hi : i ∈ (c.finish id).reserved) : i ∈ (c.finish id).inProgress := by
  rw [reserved_finish, Std.ExtTreeMap.mem_erase] at hi
  exact mem_finish.2 ⟨fun e => hi.1 (Nat.compare_eq_eq.2 e.symm), hr i hi.2⟩

theorem getD_reserved_finish (hr : ∀ i : Nat, i ∈ c.reserved → i ∈ c.inProgress) {id i : Nat}
    (hi : i ∈ (c.finish id).inProgress ∨ i ∉ c.inProgress) :
    (c.finish id).reserved.getD i ∅ = c.reserved.getD i ∅ := by
  rw [reserved_finish]
  by_cases e : id = i
  · subst e
    have hn : id ∉ c.inProgress := hi.elim (fun h => absurd rfl (mem_finish.1 h).1) fun h => h
    rw [Std.ExtTreeMap.getD_erase_self,
      Std.ExtTreeMap.getD_eq_fallback fun hm => hn (hr id hm)]
  · rw [Std.ExtTreeMap.getD_erase, if_neg fun hc => e (Nat.compare_eq_eq.1 hc)]

theorem conflicts_eq_zero_iff {id : TxId} {changes : ChangeSet} :
    c.conflicts id changes = 0 ↔
      (∀ pointer set, c.committed[pointer]? = some set → id < pointer → ¬ changes.Overlap set) ∧
        ∀ other set, c.reserved[other]? = some set → other ≠ id → ¬ changes.Overlap set := by
  simp only [conflicts, rivals, List.length_eq_zero_iff, List.flatMap_eq_nil_iff, List.mem_append,
    List.mem_map, List.mem_filter, Prod.exists, ChangeSet.common_eq_nil_iff,
    Std.ExtTreeMap.mem_toList_iff_getElem?_eq_some]
  constructor
  · intro h
    refine ⟨fun p set hs hp => ?_, fun j set hs hj => ?_⟩
    · exact h set (.inl ⟨p, set, ⟨hs, by simpa using hp⟩, rfl⟩)
    · exact h set (.inr ⟨j, set, ⟨hs, by simpa using hj⟩, rfl⟩)
  · rintro ⟨h₁, h₂⟩ set (⟨p, _, ⟨hs, hp⟩, rfl⟩ | ⟨j, _, ⟨hs, hj⟩, rfl⟩)
    · exact h₁ p _ hs (by simpa using hp)
    · exact h₂ j _ hs (by simpa using hj)

theorem mem_of_checkRunning {tx : Transaction} (h : c.checkRunning tx = .ok ()) :
    tx.id ∈ c.inProgress := by
  unfold checkRunning at h
  split at h
  · cases h
  · split at h
    · next hm => simpa using hm
    · cases h

/-- Everything that `reserve` can do. -/
theorem reserve_cases (c : Coordinator) (tx : Transaction) (changes : ChangeSet) :
    (c.reserve tx changes = (.ok (), { c with reserved := c.reserved.insert tx.id changes }) ∧
      tx.id ∈ c.inProgress ∧ c.conflicts tx.id changes = 0) ∨
    ∃ e stats, c.reserve tx changes = (.error e, { c with stats }) := by
  unfold reserve
  split
  · exact .inr ⟨_, _, rfl⟩
  · next h =>
    dsimp only
    split
    · exact .inr ⟨_, _, rfl⟩
    · next hn => exact .inl ⟨rfl, mem_of_checkRunning h, Nat.eq_zero_of_not_pos hn⟩

/-- The coordinator that has given out a number for the commit of `id`, before `id` is finished. -/
def publish (c : Coordinator) (id : TxId) (stats : Stats) : Coordinator :=
  { c with
    next := c.next + 1
    committed :=
      if (c.reserved.getD id ∅).isEmpty then c.committed
      else c.committed.insert c.next (c.reserved.getD id ∅)
    recent := c.recent.insert id c.next
    stats }

/-- Everything that `commit` can do. -/
theorem commit_cases (c : Coordinator) (tx : Transaction) :
    (∃ stats, c.commit tx =
        .ok (c.next, { tx with state := .committed }, (c.publish tx.id stats).finish tx.id) ∧
      tx.id ∈ c.inProgress) ∨
    ∃ e, c.commit tx = .error e := by
  unfold commit
  split
  · exact .inr ⟨_, rfl⟩
  · next h => exact .inl ⟨_, rfl, mem_of_checkRunning h⟩

theorem commit_of_mem {c : Coordinator} {tx : Transaction} (ht : tx.state = .active)
    (hm : tx.id ∈ c.inProgress) :
    c.commit tx = .ok (c.next, { tx with state := .committed },
      (c.publish tx.id { c.stats with committed := c.stats.committed + 1 }).finish tx.id) := by
  have hrun : c.checkRunning tx = .ok () := by
    simp [checkRunning, Transaction.checkActive, ht, hm]
  unfold commit
  rw [hrun]
  rfl

/-- Everything that `abort` can do. -/
theorem abort_cases (c : Coordinator) (tx : Transaction) :
    (∃ stats, c.abort tx =
      .ok ({ tx with state := .aborted }, Coordinator.finish { c with stats } tx.id)) ∨
    ∃ e, c.abort tx = .error e := by
  unfold abort
  split
  · exact .inr ⟨_, rfl⟩
  · exact .inl ⟨_, rfl⟩

end Coordinator

/-! ## Requests and their memory -/

/-- What a coordinator is asked for. -/
inductive Request
  | begin
  | reserve (tx : Transaction) (changes : ChangeSet)
  | commit (tx : Transaction)
  | abort (tx : Transaction)
  | invalidate (tx : Transaction)
  | forgetInvalid (ids : List TxId)

/-- A transaction that committed. -/
structure Commit where
  /-- The number of the transaction. -/
  id : Nat
  /-- The commit number. -/
  pointer : Nat
  /-- The rows it had reserved last. -/
  changes : ChangeSet

/-- A coordinator and what happened at it. -/
structure Chronicle where
  coordinator : Coordinator
  /-- The rows that each transaction reserved last. -/
  held : TxId → ChangeSet
  /-- The commits, oldest first. -/
  commits : List Commit

namespace Chronicle

/-- Nothing happened yet. -/
def new : Chronicle := ⟨Coordinator.new, fun _ => ∅, []⟩

/-- Lets the coordinator answer a request. -/
def serve (s : Chronicle) : Request → Chronicle
  | .begin => { s with coordinator := s.coordinator.begin.2 }
  | .reserve tx changes =>
    match s.coordinator.reserve tx changes with
    | (.ok (), coordinator) =>
      { s with coordinator, held := Function.update s.held tx.id changes }
    | (.error _, coordinator) => { s with coordinator }
  | .commit tx =>
    match s.coordinator.commit tx with
    | .ok (pointer, _, coordinator) =>
      { s with coordinator, commits := s.commits ++ [⟨tx.id, pointer, s.held tx.id⟩] }
    | .error _ => s
  | .abort tx =>
    match s.coordinator.abort tx with
    | .ok (_, coordinator) => { s with coordinator }
    | .error _ => s
  | .invalidate tx => { s with coordinator := (s.coordinator.invalidate tx).2 }
  | .forgetInvalid ids => { s with coordinator := (s.coordinator.forgetInvalid ids).2 }

/-- Serves requests, the first of the list first. -/
def run (requests : List Request) : Chronicle := requests.foldl serve new

/-! ## The invariant -/

/-- What holds of two commits, of which `a` came first. -/
structure Precedes (a b : Commit) : Prop where
  pointer_lt : a.pointer < b.pointer
  id_ne : a.id ≠ b.id
  pointer_ne : a.pointer ≠ b.id
  apart : a.changes.Overlap b.changes → a.pointer < b.id

/-- What holds after every run. -/
structure Inv (s : Chronicle) : Prop where
  next_pos : 0 < s.coordinator.next
  running : ∀ i : Nat, i ∈ s.coordinator.inProgress → 0 < i ∧ i < s.coordinator.next
  numbers : ∀ k ∈ s.commits, 0 < k.id ∧ k.id < k.pointer ∧ k.pointer < s.coordinator.next
  fresh : ∀ k ∈ s.commits, k.id ∉ s.coordinator.inProgress ∧ k.pointer ∉ s.coordinator.inProgress
  precedes : s.commits.Pairwise Precedes
  reserved_running : ∀ i : Nat, i ∈ s.coordinator.reserved → i ∈ s.coordinator.inProgress
  held_eq : ∀ i : Nat, i ∈ s.coordinator.inProgress ∨ s.coordinator.next ≤ i →
    s.held i = s.coordinator.reserved.getD i ∅
  held_apart : ∀ i : Nat, i ∈ s.coordinator.inProgress → ∀ j : Nat,
    j ∈ s.coordinator.inProgress → i ≠ j → ¬ (s.held i).Overlap (s.held j)
  held_after : ∀ i : Nat, i ∈ s.coordinator.inProgress → ∀ k ∈ s.commits,
    k.changes.Overlap (s.held i) → k.pointer < i
  committed_kept : ∀ k ∈ s.commits, k.changes.isEmpty = false →
    ∀ i : Nat, i ∈ s.coordinator.inProgress → i < k.pointer →
      s.coordinator.committed[k.pointer]? = some k.changes
  recent_kept : ∀ k ∈ s.commits, ∀ i : Nat, i ∈ s.coordinator.inProgress → i < k.pointer →
    s.coordinator.recent[k.id]? = some k.pointer

theorem inv_new : Inv new where
  next_pos := Nat.one_pos
  running i h := by simp [new, Coordinator.new] at h
  numbers k h := by cases h
  fresh k h := by cases h
  precedes := .nil
  reserved_running i h := by simp [new, Coordinator.new] at h
  held_eq i _ := by simp [new, Coordinator.new]
  held_apart i h := by simp [new, Coordinator.new] at h
  held_after i h := by simp [new, Coordinator.new] at h
  committed_kept k h := by cases h
  recent_kept k h := by cases h

namespace Inv

variable {s : Chronicle}

/-- The counts, and which transactions are invalid, do not matter. -/
theorem with_stats (h : Inv s) (stats : Stats) (invalid : Std.ExtTreeSet TxId) :
    Inv { s with coordinator := { s.coordinator with stats, invalid } } := by
  cases h
  constructor <;> assumption

theorem mem_begin {c : Coordinator} {i : Nat} :
    i ∈ c.begin.2.inProgress ↔ i = c.next ∨ i ∈ c.inProgress :=
  Std.ExtTreeSet.mem_insert.trans (or_congr_left (Nat.compare_eq_eq.trans eq_comm))

/-- What has no number yet holds nothing. -/
theorem held_of_next_le (h : Inv s) {i : Nat} (hi : s.coordinator.next ≤ i) : s.held i = ∅ := by
  rw [h.held_eq i (.inr hi)]
  refine Std.ExtTreeMap.getD_eq_fallback fun hm => ?_
  exact Nat.not_lt.2 hi (h.running i (h.reserved_running i hm)).2

theorem not_running_of_next_le (h : Inv s) {i : Nat} (hi : s.coordinator.next ≤ i) :
    i ∉ s.coordinator.inProgress :=
  fun hm => Nat.not_lt.2 hi (h.running i hm).2

theorem begin (h : Inv s) : Inv (s.serve .begin) where
  next_pos := Nat.succ_pos _
  running i hi := by
    show 0 < i ∧ i < s.coordinator.next + 1
    have hn := h.next_pos
    rcases mem_begin.1 hi with rfl | hi
    · omega
    · have := h.running i hi
      omega
  numbers k hk := by
    obtain ⟨h₀, h₁, h₂⟩ := h.numbers k hk
    exact ⟨h₀, h₁, Nat.lt_succ_of_lt h₂⟩
  fresh k hk := by
    obtain ⟨-, h₁, h₂⟩ := h.numbers k hk
    obtain ⟨hid, hp⟩ := h.fresh k hk
    refine ⟨fun hm => ?_, fun hm => ?_⟩
    · rcases mem_begin.1 hm with e | hm
      · omega
      · exact hid hm
    · rcases mem_begin.1 hm with e | hm
      · omega
      · exact hp hm
  precedes := h.precedes
  reserved_running i hi := mem_begin.2 (.inr (h.reserved_running i hi))
  held_eq i hi := by
    refine h.held_eq i ?_
    rcases hi with hi | hi
    · rcases mem_begin.1 hi with rfl | hi
      · exact .inr (Nat.le_refl _)
      · exact .inl hi
    · exact .inr (Nat.le_of_succ_le hi)
  held_apart i hi j hj hij := by
    rcases mem_begin.1 hi with rfl | hi
    · intro ho
      exact ChangeSet.not_overlap_empty _ (h.held_of_next_le (Nat.le_refl _) ▸ ho.symm)
    · rcases mem_begin.1 hj with rfl | hj
      · intro ho
        exact ChangeSet.not_overlap_empty _ (h.held_of_next_le (Nat.le_refl _) ▸ ho)
      · exact h.held_apart i hi j hj hij
  held_after i hi k hk ho := by
    rcases mem_begin.1 hi with rfl | hi
    · exact (h.numbers k hk).2.2
    · exact h.held_after i hi k hk ho
  committed_kept k hk hn i hi hlt := by
    rcases mem_begin.1 hi with rfl | hi
    · exact absurd (h.numbers k hk).2.2 (Nat.lt_asymm hlt)
    · exact h.committed_kept k hk hn i hi hlt
  recent_kept k hk i hi hlt := by
    rcases mem_begin.1 hi with rfl | hi
    · exact absurd (h.numbers k hk).2.2 (Nat.lt_asymm hlt)
    · exact h.recent_kept k hk i hi hlt

/-- What a transaction may reserve is apart from what committed after it began, and from what
others hold. -/
theorem apart_of_conflicts (h : Inv s) {id : Nat} {changes : ChangeSet}
    (hid : id ∈ s.coordinator.inProgress) (hc : s.coordinator.conflicts id changes = 0) :
    (∀ k ∈ s.commits, k.changes.Overlap changes → k.pointer < id) ∧
      ∀ j : Nat, j ∈ s.coordinator.inProgress → j ≠ id → ¬ changes.Overlap (s.held j) := by
  obtain ⟨hcommitted, hreserved⟩ := Coordinator.conflicts_eq_zero_iff.1 hc
  refine ⟨fun k hk ho => ?_, fun j hj hne ho => ?_⟩
  · by_contra hlt
    have hne : k.pointer ≠ id := fun e => (h.fresh k hk).2 (e ▸ hid)
    have hlt : id < k.pointer := by omega
    have hn : k.changes.isEmpty = false := by
      obtain ⟨row, hrow, -⟩ := ho
      rw [Std.ExtTreeSet.isEmpty_eq_false_iff]
      rintro e
      simp [e] at hrow
    exact hcommitted _ _ (h.committed_kept k hk hn id hid hlt) hlt ho.symm
  · rw [h.held_eq j (.inl hj)] at ho
    cases hr : s.coordinator.reserved[j]? with
    | none =>
      rw [Std.ExtTreeMap.getD_eq_getD_getElem?, hr] at ho
      exact ChangeSet.not_overlap_empty _ ho
    | some set =>
      rw [Std.ExtTreeMap.getD_eq_getD_getElem?, hr] at ho
      exact hreserved j set hr hne ho

theorem reserve (h : Inv s) (tx : Transaction) (changes : ChangeSet) :
    Inv (s.serve (.reserve tx changes)) := by
  obtain ⟨e, hid, hc⟩ | ⟨e, stats, he⟩ := Coordinator.reserve_cases s.coordinator tx changes
  · simp only [serve, e]
    obtain ⟨hafter, hapart⟩ := h.apart_of_conflicts hid hc
    have held_of_ne : ∀ i, i ≠ tx.id → Function.update s.held tx.id changes i = s.held i :=
      fun i hi => Function.update_of_ne hi _ _
    constructor
    case next_pos => exact h.next_pos
    case running => exact h.running
    case numbers => exact h.numbers
    case fresh => exact h.fresh
    case precedes => exact h.precedes
    case reserved_running =>
      intro i hi
      rcases Std.ExtTreeMap.mem_insert.1 hi with hi | hi
      · exact Nat.compare_eq_eq.1 hi ▸ hid
      · exact h.reserved_running i hi
    case held_eq =>
      intro i hi
      dsimp only at hi ⊢
      rw [Std.ExtTreeMap.getD_insert]
      by_cases hi' : i = tx.id
      · subst hi'
        simp
      · rw [held_of_ne i hi', if_neg fun e => hi' (Nat.compare_eq_eq.1 e).symm]
        exact h.held_eq i hi
    case held_apart =>
      intro i hi j hj hij
      dsimp only at hi hj ⊢
      by_cases hi' : i = tx.id
      · subst hi'
        rw [Function.update_self, held_of_ne j hij.symm]
        exact hapart j hj hij.symm
      · by_cases hj' : j = tx.id
        · subst hj'
          rw [Function.update_self, held_of_ne i hi']
          exact fun ho => hapart i hi hi' ho.symm
        · rw [held_of_ne i hi', held_of_ne j hj']
          exact h.held_apart i hi j hj hij
    case held_after =>
      intro i hi k hk
      dsimp only at hi hk ⊢
      by_cases hi' : i = tx.id
      · subst hi'
        rw [Function.update_self]
        exact hafter k hk
      · rw [held_of_ne i hi']
        exact h.held_after i hi k hk
    case committed_kept => exact h.committed_kept
    case recent_kept => exact h.recent_kept
  · simp only [serve, he]
    exact h.with_stats stats s.coordinator.invalid

theorem finish (h : Inv s) (id : Nat) :
    Inv { s with coordinator := s.coordinator.finish id } where
  next_pos := by
    rw [Coordinator.next_finish]
    exact h.next_pos
  running i hi := by
    rw [Coordinator.next_finish]
    exact h.running i (Coordinator.mem_finish.1 hi).2
  numbers k hk := by
    rw [Coordinator.next_finish]
    exact h.numbers k hk
  fresh k hk :=
    ⟨fun hm => (h.fresh k hk).1 (Coordinator.mem_finish.1 hm).2,
      fun hm => (h.fresh k hk).2 (Coordinator.mem_finish.1 hm).2⟩
  precedes := h.precedes
  reserved_running i hi := Coordinator.reserved_finish_running h.reserved_running hi
  held_eq i hi := by
    rw [Coordinator.next_finish] at hi
    rw [Coordinator.getD_reserved_finish h.reserved_running (hi.imp_right h.not_running_of_next_le)]
    exact h.held_eq i (hi.imp_left fun hm => (Coordinator.mem_finish.1 hm).2)
  held_apart i hi j hj :=
    h.held_apart i (Coordinator.mem_finish.1 hi).2 j (Coordinator.mem_finish.1 hj).2
  held_after i hi := h.held_after i (Coordinator.mem_finish.1 hi).2
  committed_kept k hk hn i hi hlt := by
    rw [Coordinator.committed_finish hi (Nat.le_of_lt hlt)]
    exact h.committed_kept k hk hn i (Coordinator.mem_finish.1 hi).2 hlt
  recent_kept k hk i hi hlt :=
    Coordinator.recent_finish hi (Nat.le_of_lt hlt)
      (h.recent_kept k hk i (Coordinator.mem_finish.1 hi).2 hlt)

theorem commit_precedes (h : Inv s) {id : Nat} (hid : id ∈ s.coordinator.inProgress) :
    ∀ k ∈ s.commits, Precedes k ⟨id, s.coordinator.next, s.held id⟩ := by
  intro k hk
  obtain ⟨hid', hp⟩ := h.fresh k hk
  exact {
    pointer_lt := (h.numbers k hk).2.2
    id_ne := fun e => hid' (e ▸ hid)
    pointer_ne := fun e => hp (e ▸ hid)
    apart := h.held_after id hid k hk }

theorem committed_publish_of_lt {c : Coordinator} {id pointer : Nat} {stats : Stats}
    (hp : pointer < c.next) : (c.publish id stats).committed[pointer]? = c.committed[pointer]? := by
  unfold Coordinator.publish
  dsimp only
  split
  · rfl
  · rw [Std.ExtTreeMap.getElem?_insert,
      if_neg fun e => Nat.ne_of_gt hp (Nat.compare_eq_eq.1 e)]

theorem commit (h : Inv s) (tx : Transaction) : Inv (s.serve (.commit tx)) := by
  obtain ⟨stats, he, hid⟩ | ⟨e, he⟩ := Coordinator.commit_cases s.coordinator tx
  · simp only [serve, he]
    obtain ⟨hid₀, hid₁⟩ := h.running _ hid
    generalize tx.id = id at *
    have running_of : ∀ {i}, i ∈ ((s.coordinator.publish id stats).finish id).inProgress →
        i ≠ id ∧ i ∈ s.coordinator.inProgress := Coordinator.mem_finish.1
    constructor
    case next_pos => simp [Coordinator.publish]
    case running =>
      intro i hi
      have := h.running i (running_of hi).2
      rw [Coordinator.next_finish]
      show 0 < i ∧ i < s.coordinator.next + 1
      omega
    case numbers =>
      intro k hk
      rw [Coordinator.next_finish]
      show 0 < k.id ∧ k.id < k.pointer ∧ k.pointer < s.coordinator.next + 1
      rcases List.mem_append.1 hk with hk | hk
      · have := h.numbers k hk
        omega
      · obtain rfl := List.mem_singleton.1 hk
        exact ⟨hid₀, hid₁, Nat.lt_succ_self _⟩
    case fresh =>
      intro k hk
      rcases List.mem_append.1 hk with hk | hk
      · exact ⟨fun hm => (h.fresh k hk).1 (running_of hm).2,
          fun hm => (h.fresh k hk).2 (running_of hm).2⟩
      · obtain rfl := List.mem_singleton.1 hk
        exact ⟨fun hm => (running_of hm).1 rfl,
          fun hm => Nat.lt_irrefl _ (h.running _ (running_of hm).2).2⟩
    case precedes =>
      refine List.pairwise_append.2 ⟨h.precedes, List.pairwise_singleton _ _, ?_⟩
      intro a ha b hb
      obtain rfl := List.mem_singleton.1 hb
      exact h.commit_precedes hid a ha
    case reserved_running =>
      exact fun i hi => Coordinator.reserved_finish_running
        (c := s.coordinator.publish id stats) h.reserved_running hi
    case held_eq =>
      intro i hi
      rw [Coordinator.next_finish] at hi
      have hi := hi.imp_right Nat.le_of_succ_le
      dsimp only
      rw [Coordinator.getD_reserved_finish (c := s.coordinator.publish id stats)
        h.reserved_running (hi.imp_right h.not_running_of_next_le)]
      exact h.held_eq i (hi.imp_left fun hm => (running_of hm).2)
    case held_apart => exact fun i hi j hj => h.held_apart i (running_of hi).2 j (running_of hj).2
    case held_after =>
      intro i hi k hk ho
      rcases List.mem_append.1 hk with hk | hk
      · exact h.held_after i (running_of hi).2 k hk ho
      · obtain rfl := List.mem_singleton.1 hk
        exact absurd ho (h.held_apart id hid i (running_of hi).2 (running_of hi).1.symm)
    case committed_kept =>
      intro k hk hn i hi hlt
      rw [Coordinator.committed_finish hi (Nat.le_of_lt hlt)]
      rcases List.mem_append.1 hk with hk | hk
      · rw [committed_publish_of_lt (h.numbers k hk).2.2]
        exact h.committed_kept k hk hn i (running_of hi).2 hlt
      · obtain rfl := List.mem_singleton.1 hk
        rw [h.held_eq id (.inl hid)] at hn ⊢
        simp [Coordinator.publish, hn]
    case recent_kept =>
      intro k hk i hi hlt
      refine Coordinator.recent_finish hi (Nat.le_of_lt hlt) ?_
      rcases List.mem_append.1 hk with hk | hk
      · have hne : id ≠ k.id := fun e => (h.fresh k hk).1 (e ▸ hid)
        show (s.coordinator.recent.insert id s.coordinator.next)[k.id]? = some k.pointer
        rw [Std.ExtTreeMap.getElem?_insert, if_neg fun e => hne (Nat.compare_eq_eq.1 e)]
        exact h.recent_kept k hk i (running_of hi).2 hlt
      · obtain rfl := List.mem_singleton.1 hk
        exact Std.ExtTreeMap.getElem?_insert_self
  · simp only [serve, he]
    exact h

theorem serve (h : Inv s) (r : Request) : Inv (s.serve r) := by
  cases r with
  | begin => exact h.begin
  | reserve tx changes => exact h.reserve tx changes
  | commit tx => exact h.commit tx
  | abort tx =>
    obtain ⟨stats, he⟩ | ⟨e, he⟩ := Coordinator.abort_cases s.coordinator tx
    · simp only [Chronicle.serve, he]
      exact (h.with_stats stats s.coordinator.invalid).finish tx.id
    · simp only [Chronicle.serve, he]
      exact h
  | invalidate tx => exact (h.with_stats _ _).finish tx.id
  | forgetInvalid ids => exact h.with_stats s.coordinator.stats _

end Inv

/-- The invariant holds after every run. -/
theorem inv_run (requests : List Request) : Inv (run requests) := by
  suffices ∀ s, Inv s → Inv (requests.foldl serve s) from this new inv_new
  induction requests with
  | nil => exact fun s h => h
  | cons r rs ih => exact fun s h => ih (s.serve r) (h.serve r)

/-! ## Later chronicles -/

/-- What a request changes: numbers are given out, and who was running commits or becomes
invalid. -/
structure Advances (c d : Chronicle) : Prop where
  next_le : c.coordinator.next ≤ d.coordinator.next
  running : ∀ i : Nat, i ∈ d.coordinator.inProgress →
    i ∈ c.coordinator.inProgress ∨ c.coordinator.next ≤ i
  invalid : ∀ i : Nat, i ∈ d.coordinator.invalid →
    i ∈ c.coordinator.invalid ∨ i ∈ c.coordinator.inProgress
  commits : ∃ later, d.commits = c.commits ++ later ∧
    ∀ k ∈ later, k.id ∈ c.coordinator.inProgress ∧ c.coordinator.next ≤ k.pointer

theorem Advances.refl (c : Chronicle) : Advances c c where
  next_le := Nat.le_refl _
  running _ hi := .inl hi
  invalid _ hi := .inl hi
  commits := ⟨[], (List.append_nil _).symm, fun _ hk => nomatch hk⟩

theorem advances_of_commits_eq {c d : Chronicle}
    (hnext : d.coordinator.next = c.coordinator.next)
    (hrun : ∀ i : Nat, i ∈ d.coordinator.inProgress → i ∈ c.coordinator.inProgress)
    (hinvalid : ∀ i : Nat, i ∈ d.coordinator.invalid →
      i ∈ c.coordinator.invalid ∨ i ∈ c.coordinator.inProgress)
    (hcommits : d.commits = c.commits) : Advances c d where
  next_le := Nat.le_of_eq hnext.symm
  running i hi := .inl (hrun i hi)
  invalid := hinvalid
  commits := ⟨[], by rw [hcommits, List.append_nil], fun k hk => nomatch hk⟩

/-- Only running transactions are invalidated by those who keep to the order. -/
theorem advances_serve (c : Chronicle) (r : Request)
    (hr : ∀ tx, r = .invalidate tx → tx.id ∈ c.coordinator.inProgress) :
    Advances c (c.serve r) := by
  cases r with
  | begin =>
    exact {
      next_le := Nat.le_succ _
      running := fun i hi => (Inv.mem_begin.1 hi).symm.imp_right fun e => Nat.le_of_eq e.symm
      invalid := fun i hi => .inl hi
      commits := ⟨[], (List.append_nil _).symm, fun k hk => nomatch hk⟩ }
  | reserve tx changes =>
    obtain ⟨e, -⟩ | ⟨_, _, e⟩ := Coordinator.reserve_cases c.coordinator tx changes
    · simp only [serve, e]
      exact advances_of_commits_eq rfl (fun _ h => h) (fun _ h => .inl h) rfl
    · simp only [serve, e]
      exact advances_of_commits_eq rfl (fun _ h => h) (fun _ h => .inl h) rfl
  | commit tx =>
    obtain ⟨stats, e, hid⟩ | ⟨_, e⟩ := Coordinator.commit_cases c.coordinator tx
    · simp only [serve, e]
      refine ⟨?_, fun i hi => .inl (Coordinator.mem_finish.1 hi).2, fun i hi => .inl ?_,
        [_], rfl, fun k hk => ?_⟩
      · rw [Coordinator.next_finish]
        exact Nat.le_succ _
      · rwa [Coordinator.invalid_finish] at hi
      · obtain rfl := List.mem_singleton.1 hk
        exact ⟨hid, Nat.le_refl _⟩
    · simp only [serve, e]
      exact advances_of_commits_eq rfl (fun _ h => h) (fun _ h => .inl h) rfl
  | abort tx =>
    obtain ⟨stats, e⟩ | ⟨_, e⟩ := Coordinator.abort_cases c.coordinator tx
    · simp only [serve, e]
      refine advances_of_commits_eq ?_ (fun i hi => (Coordinator.mem_finish.1 hi).2) ?_ rfl
      · exact Coordinator.next_finish _ _
      · intro i hi
        rw [Coordinator.invalid_finish] at hi
        exact .inl hi
    · simp only [serve, e]
      exact advances_of_commits_eq rfl (fun _ h => h) (fun _ h => .inl h) rfl
  | invalidate tx =>
    refine advances_of_commits_eq ?_ (fun i hi => (Coordinator.mem_finish.1 hi).2) ?_ rfl
    · exact Coordinator.next_finish _ _
    · intro i hi
      change i ∈ (Coordinator.finish _ tx.id).invalid at hi
      rw [Coordinator.invalid_finish] at hi
      rcases Std.ExtTreeSet.mem_insert.1 hi with hi | hi
      · exact .inr (Nat.compare_eq_eq.1 hi ▸ hr tx rfl)
      · exact .inl hi
  | forgetInvalid ids =>
    refine advances_of_commits_eq rfl (fun _ h => h) (fun i hi => .inl ?_) rfl
    exact (Coordinator.mem_eraseMany.1 hi).1

/-- Had `w` committed when the number `n` was given out? -/
def isBefore (c : Chronicle) (n : Nat) (w : TxId) : Bool :=
  w = TxId.base || c.commits.any fun k => k.id = w && k.pointer < n

theorem isBefore_iff {c : Chronicle} {n : Nat} {w : TxId} :
    c.isBefore n w ↔ w = TxId.base ∨ ∃ k ∈ c.commits, k.id = w ∧ k.pointer < n := by
  simp [isBefore]

theorem isBefore_eq_false {c : Chronicle} {n w : Nat} (h₀ : 0 < w)
    (h : ∀ k ∈ c.commits, k.id ≠ w) : c.isBefore n w = false := by
  rw [Bool.eq_false_iff]
  intro hb
  rcases isBefore_iff.1 hb with e | ⟨k, hk, e, -⟩
  · exact Nat.ne_of_gt h₀ e
  · exact h k hk e

theorem Inv.isBefore_of_running {c : Chronicle} (h : c.Inv) {i : Nat}
    (hi : i ∈ c.coordinator.inProgress) (n : Nat) : c.isBefore n i = false :=
  isBefore_eq_false (h.running i hi).1 fun k hk e => (h.fresh k hk).1 (e ▸ hi)

/-- Later commits have greater numbers. -/
theorem Advances.isBefore_eq {c d : Chronicle} (h : Advances c d) {n : Nat}
    (hn : n ≤ c.coordinator.next) : d.isBefore n = c.isBefore n := by
  obtain ⟨later, e, hlater⟩ := h.commits
  funext w
  have : (later.any fun k => k.id = w && k.pointer < n) = false := by
    simp only [List.any_eq_false, Bool.and_eq_true, decide_eq_true_eq, not_and]
    intro k hk _
    exact Nat.not_lt.2 (Nat.le_trans hn (hlater k hk).2)
  simp only [isBefore, e, List.any_append, this, Bool.or_false]

/-! ## What the coordinator answers -/

section Answers

variable {c : Chronicle} {tx : Transaction}

theorem serve_reserve_of_ok {changes : ChangeSet}
    (h : (c.coordinator.reserve tx changes).1 = .ok ()) :
    c.serve (.reserve tx changes) =
      { c with
        coordinator := { c.coordinator with
          reserved := c.coordinator.reserved.insert tx.id changes }
        held := Function.update c.held tx.id changes } := by
  obtain ⟨e, -⟩ | ⟨_, _, e⟩ := Coordinator.reserve_cases c.coordinator tx changes
  · simp only [serve, e]
  · rw [e] at h
    cases h

theorem serve_reserve_of_error {changes : ChangeSet} {e : Error}
    (h : (c.coordinator.reserve tx changes).1 = .error e) :
    ∃ stats, c.serve (.reserve tx changes) =
      { c with coordinator := { c.coordinator with stats } } := by
  obtain ⟨e, -⟩ | ⟨_, stats, e⟩ := Coordinator.reserve_cases c.coordinator tx changes
  · rw [e] at h
    cases h
  · exact ⟨stats, by simp only [serve, e]⟩

theorem serve_commit_of_ok {r : Nat × Transaction × Coordinator}
    (h : c.coordinator.commit tx = .ok r) :
    ∃ stats, c.serve (.commit tx) =
      { c with
        coordinator := (c.coordinator.publish tx.id stats).finish tx.id
        commits := c.commits ++ [⟨tx.id, c.coordinator.next, c.held tx.id⟩] } := by
  obtain ⟨stats, e, -⟩ | ⟨_, e⟩ := Coordinator.commit_cases c.coordinator tx
  · exact ⟨stats, by simp only [serve, e]⟩
  · rw [e] at h
    cases h

theorem serve_abort_of_ok {r : Transaction × Coordinator}
    (h : c.coordinator.abort tx = .ok r) :
    ∃ stats, c.serve (.abort tx) =
      { c with coordinator := Coordinator.finish { c.coordinator with stats } tx.id } := by
  obtain ⟨stats, e⟩ | ⟨_, e⟩ := Coordinator.abort_cases c.coordinator tx
  · exact ⟨stats, by simp only [serve, e]⟩
  · rw [e] at h
    cases h

theorem commits_serve (c : Chronicle) {r : Request} (hr : ∀ tx, r ≠ .commit tx) :
    (c.serve r).commits = c.commits := by
  cases r with
  | begin | invalidate | forgetInvalid => rfl
  | reserve tx changes =>
    simp only [serve]
    split <;> rfl
  | commit tx => exact absurd rfl (hr tx)
  | abort tx =>
    simp only [serve]
    split <;> rfl

end Answers

/-! ## The first committer wins -/

/-- Of two transactions that committed with a row in common, one had committed before the other
began.  At every moment only running transactions hold reservations, and no two of them hold the
same row. -/
theorem first_committer_wins (requests : List Request) :
    (run requests).commits.Pairwise (fun a b => a.id ≠ b.id ∧ a.pointer < b.pointer ∧
      (a.changes.Overlap b.changes → a.pointer < b.id)) ∧
    (∀ id ∈ (run requests).coordinator.reserved, id ∈ (run requests).coordinator.inProgress) ∧
    ∀ (i j : TxId) (a b : ChangeSet), (run requests).coordinator.reserved[i]? = some a →
      (run requests).coordinator.reserved[j]? = some b → i ≠ j → ¬ a.Overlap b := by
  have h := inv_run requests
  refine ⟨h.precedes.imp fun p => ⟨p.id_ne, p.pointer_lt, p.apart⟩, h.reserved_running, ?_⟩
  intro i j a b ha hb hne
  have running : ∀ {k set}, (run requests).coordinator.reserved[k]? = some set →
      k ∈ (run requests).coordinator.inProgress ∧ (run requests).held k = set := by
    intro k set hk
    have hm := h.reserved_running k (Std.ExtTreeMap.mem_iff_isSome_getElem?.2 (by simp [hk]))
    refine ⟨hm, ?_⟩
    rw [h.held_eq k (.inl hm), Std.ExtTreeMap.getD_eq_getD_getElem?, hk]
    rfl
  obtain ⟨hi, rfl⟩ := running ha
  obtain ⟨hj, rfl⟩ := running hb
  exact h.held_apart i hi j hj hne

end Chronicle

end NamespaceCatalog
