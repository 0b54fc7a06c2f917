import Mathlib.Data.List.Induction
import Mathlib.Data.List.Sort
import NamespaceCatalog.Proofs.Compactions
import NamespaceCatalog.Proofs.TornFrames

/-!
# Logs with a torn tail

A log that ends in the front of a frame is read as if the front were not there, and is left without
it (`torn_tail_recovery`).

What is read are the writes of the commits that survive.  `Undoes` states the rule by places in the
log, without a replay: a rollback undoes the latest earlier commit of its transaction that is not
undone yet.  `Survivors` are the writes of the commits that no entry undoes, in order, and these are
what a replay collects (`survivors_survivors`).  The induction is on the log from its end: an entry
is undone by earlier places only, so a log that goes on keeps what was undone before
(`undoes_append_iff`), and only the new entry can undo one more (`undoes_length_iff`).
-/

namespace NamespaceCatalog

namespace Entry

variable {es : List Entry} {e : Entry} {tx : TxId} {writes : List RowWrite} {i j : Nat}

/-! ## The rule -/

/-- The commit at a place of a log, if there is one. -/
def commitAt (es : List Entry) (i : Nat) : Option (TxId × List RowWrite) :=
  match es[i]? with
  | some (.commit tx writes) => some (tx, writes)
  | _ => none

/-- Is there a commit of the transaction at the place? -/
def Commits (es : List Entry) (tx : TxId) (i : Nat) : Prop :=
  ∃ writes, commitAt es i = some (tx, writes)

/-- Does the entry at `j` undo the one at `i`?  It is a rollback then, and the other one the latest
earlier commit of its transaction that is not undone before. -/
def Undoes (es : List Entry) (j i : Nat) : Prop :=
  ∃ tx, es[j]? = some (.rollback tx) ∧ i < j ∧ Commits es tx i ∧ (∀ k, k < j → ¬ Undoes es k i) ∧
    ∀ later, i < later → later < j → Commits es tx later → ∃ k, ∃ _ : k < j, Undoes es k later
termination_by j

/-- Is there a commit at the place that no entry undoes? -/
def Survives (es : List Entry) (i : Nat) : Prop :=
  (∃ commit, commitAt es i = some commit) ∧ ∀ j, ¬ Undoes es j i

/-- Are these the writes of the commits that survive, in order? -/
def Survivors (es : List Entry) (result : List (List RowWrite)) : Prop :=
  ∃ places : List Nat, places.Pairwise (· < ·) ∧ (∀ i, i ∈ places ↔ Survives es i) ∧
    result.map some = places.map fun i => (commitAt es i).map (·.2)

/-! ## One more entry -/

theorem commitAt_append_of_lt (h : i < es.length) : commitAt (es ++ [e]) i = commitAt es i := by
  rw [commitAt, commitAt, List.getElem?_append_left h]

theorem commits_append_iff (h : i < es.length) : Commits (es ++ [e]) tx i ↔ Commits es tx i := by
  rw [Commits, Commits, commitAt_append_of_lt h]

theorem lt_or_eq_of_lt_length (h : i < (es ++ [e]).length) : i < es.length ∨ i = es.length := by
  rw [List.length_append, List.length_singleton] at h
  omega

theorem lt_of_commitAt {commit : TxId × List RowWrite} (h : commitAt es i = some commit) :
    i < es.length := by
  apply Nat.lt_of_not_le
  intro hle
  rw [commitAt, List.getElem?_eq_none hle] at h
  cases h

theorem Survives.lt (h : Survives es i) : i < es.length := by
  obtain ⟨⟨commit, hcommit⟩, -⟩ := h
  exact lt_of_commitAt hcommit

theorem lt_of_undoes (h : Undoes es j i) : j < es.length := by
  rw [Undoes] at h
  obtain ⟨tx, htx, -⟩ := h
  exact (List.getElem?_eq_some_iff.1 htx).1

/-- What an entry undoes is settled by the log up to it. -/
theorem undoes_append_iff (h : j < es.length) : Undoes (es ++ [e]) j i ↔ Undoes es j i := by
  induction j using Nat.strongRecOn generalizing i with
  | ind j ih =>
    have hcommits : ∀ tx k, k < j → (Commits (es ++ [e]) tx k ↔ Commits es tx k) :=
      fun tx k hk => commits_append_iff (Nat.lt_trans hk h)
    have hundoes : ∀ later k, k < j → (Undoes (es ++ [e]) k later ↔ Undoes es k later) :=
      fun later k hk => ih k hk (Nat.lt_trans hk h)
    rw [Undoes, Undoes, List.getElem?_append_left h]
    refine exists_congr fun tx => and_congr_right fun _ => and_congr_right fun hi => ?_
    refine and_congr (hcommits tx i hi) (and_congr ?_ ?_)
    · exact forall_congr' fun k => forall_congr' fun hk => not_congr (hundoes i k hk)
    · refine forall_congr' fun later => forall_congr' fun _ => forall_congr' fun hl => ?_
      refine imp_congr (hcommits tx later hl) ?_
      exact exists_congr fun k => exists_congr fun hk => hundoes later k hk

theorem Undoes.append (h : Undoes es j i) : Undoes (es ++ [e]) j i :=
  (undoes_append_iff (lt_of_undoes h)).2 h

/-- The last entry undoes the latest commit of its transaction that survives. -/
theorem undoes_length_iff :
    Undoes (es ++ [.rollback tx]) es.length i ↔ Survives es i ∧ Commits es tx i ∧
      ∀ k, Survives es k → Commits es tx k → k ≤ i := by
  rw [Undoes]
  constructor
  · rintro ⟨tx', htx, hi, hc, hnot, hlater⟩
    obtain rfl : tx = tx' := by simpa using htx
    rw [commits_append_iff hi] at hc
    refine ⟨⟨hc.imp' _ fun writes h => h, fun k hk => ?_⟩, hc, fun k hk hck => ?_⟩
    · exact hnot k (lt_of_undoes hk) hk.append
    · apply Nat.le_of_not_lt
      intro hik
      obtain ⟨l, hl, hundoes⟩ := hlater k hik hk.lt ((commits_append_iff hk.lt).2 hck)
      exact hk.2 l ((undoes_append_iff hl).1 hundoes)
  · rintro ⟨hs, hc, hmax⟩
    refine ⟨tx, by simp, hs.lt, (commits_append_iff hs.lt).2 hc, fun k hk h => ?_,
      fun k hik hk hck => ?_⟩
    · exact hs.2 k ((undoes_append_iff hk).1 h)
    · rw [commits_append_iff hk] at hck
      -- a later commit that survived would be the one to be undone
      apply Classical.byContradiction
      intro hno
      refine absurd (hmax k ⟨hck.imp' _ fun writes h => h, fun l hl => hno ?_⟩ hck)
        (Nat.not_le_of_lt hik)
      exact ⟨l, lt_of_undoes hl, hl.append⟩

theorem not_undoes_commit (h : Undoes (es ++ [.commit tx writes]) j i) : j < es.length := by
  refine (lt_or_eq_of_lt_length (lt_of_undoes h)).resolve_right ?_
  rintro rfl
  rw [Undoes] at h
  obtain ⟨tx', htx, -⟩ := h
  simp at htx

/-- A commit survives at the end, and leaves the others as they are. -/
theorem survives_append_commit_iff :
    Survives (es ++ [.commit tx writes]) i ↔ i = es.length ∨ Survives es i := by
  constructor
  · rintro ⟨⟨commit, hcommit⟩, hs⟩
    rcases lt_or_eq_of_lt_length (lt_of_commitAt hcommit) with hi | hi
    · rw [commitAt_append_of_lt hi] at hcommit
      exact .inr ⟨⟨commit, hcommit⟩, fun k hk => hs k hk.append⟩
    · exact .inl hi
  · rintro (rfl | h)
    · refine ⟨⟨(tx, writes), by simp [commitAt]⟩, fun k hk => ?_⟩
      -- who undoes an entry comes after it
      have hlt := not_undoes_commit hk
      rw [Undoes] at hk
      obtain ⟨-, -, hle, -⟩ := hk
      omega
    · refine ⟨?_, fun k hk => ?_⟩
      · rw [commitAt_append_of_lt h.lt]
        exact h.1
      · exact h.2 k ((undoes_append_iff (not_undoes_commit hk)).1 hk)

/-- A rollback takes away the latest commit of its transaction that survived. -/
theorem survives_append_rollback_iff :
    Survives (es ++ [.rollback tx]) i ↔ Survives es i ∧
      ¬ (Commits es tx i ∧ ∀ k, Survives es k → Commits es tx k → k ≤ i) := by
  constructor
  · rintro ⟨⟨commit, hcommit⟩, hs⟩
    have hi : i < es.length := by
      refine (lt_or_eq_of_lt_length (lt_of_commitAt hcommit)).resolve_right ?_
      rintro rfl
      simp [commitAt] at hcommit
    rw [commitAt_append_of_lt hi] at hcommit
    have hsurvives : Survives es i := ⟨⟨commit, hcommit⟩, fun k hk => hs k hk.append⟩
    exact ⟨hsurvives, fun hlatest => hs _ (undoes_length_iff.2 ⟨hsurvives, hlatest⟩)⟩
  · rintro ⟨h, hnot⟩
    refine ⟨?_, fun k hk => ?_⟩
    · rw [commitAt_append_of_lt h.lt]
      exact h.1
    · rcases lt_or_eq_of_lt_length (lt_of_undoes hk) with hk' | rfl
      · exact h.2 k ((undoes_append_iff hk').1 hk)
      · exact hnot (undoes_length_iff.1 hk).2

/-! ## What a replay collects -/

/-- In a list with the latest first, the first place that is found is the latest one. -/
theorem mem_eraseP_iff {p : Nat → Bool} {places : List Nat} (hs : places.Pairwise (· > ·)) :
    i ∈ places.eraseP p ↔ i ∈ places ∧ ¬ (p i ∧ ∀ k ∈ places, p k → k ≤ i) := by
  induction places with
  | nil => simp
  | cons a places ih =>
    obtain ⟨ha, hs⟩ := List.pairwise_cons.1 hs
    by_cases hp : p a
    · rw [List.eraseP_cons_of_pos hp]
      constructor
      · intro hi
        refine ⟨List.mem_cons_of_mem a hi, fun h => ?_⟩
        exact absurd (h.2 a List.mem_cons_self hp) (Nat.not_le_of_lt (ha i hi))
      · rintro ⟨hi, hnot⟩
        rcases List.mem_cons.1 hi with rfl | hi
        · refine absurd ⟨hp, fun k hk _ => ?_⟩ hnot
          rcases List.mem_cons.1 hk with rfl | hk
          · exact Nat.le_refl _
          · exact Nat.le_of_lt (ha k hk)
        · exact hi
    · rw [List.eraseP_cons_of_neg hp, List.mem_cons, List.mem_cons, ih hs]
      have hforall : (∀ k ∈ a :: places, p k → k ≤ i) ↔ ∀ k ∈ places, p k → k ≤ i := by
        rw [List.forall_mem_cons]
        exact and_iff_right fun h => absurd h hp
      rw [hforall]
      constructor
      · rintro (rfl | ⟨hi, hnot⟩)
        · exact ⟨.inl rfl, fun h => hp h.1⟩
        · exact ⟨.inr hi, hnot⟩
      · rintro ⟨rfl | hi, hnot⟩
        · exact .inl rfl
        · exact .inr ⟨hi, hnot⟩

/-- The places of the commits that survive, the latest first, are those of the commits that a replay
has not undone. -/
theorem exists_places (es : List Entry) :
    ∃ places : List Nat, places.Pairwise (· > ·) ∧ (∀ i, i ∈ places ↔ Survives es i) ∧
      (standing es).map some = places.map (commitAt es) := by
  induction es using List.reverseRecOn with
  | nil =>
    refine ⟨[], .nil, fun i => ?_, rfl⟩
    refine iff_of_false List.not_mem_nil fun h => ?_
    exact absurd h.lt (Nat.not_lt_zero _)
  | append_singleton es e ih =>
    obtain ⟨places, hs, hmem, hstanding⟩ := ih
    have hsame : ∀ later : List Nat, later ⊆ places →
        later.map (commitAt (es ++ [e])) = later.map (commitAt es) := by
      intro later hsub
      refine List.map_congr_left fun i hi => ?_
      exact commitAt_append_of_lt ((hmem i).1 (hsub hi)).lt
    cases e with
    | commit tx writes =>
      refine ⟨es.length :: places, List.pairwise_cons.2 ⟨fun i hi => ?_, hs⟩, fun i => ?_, ?_⟩
      · exact ((hmem i).1 hi).lt
      · rw [List.mem_cons, survives_append_commit_iff, hmem]
      · rw [standing_append_commit, List.map_cons, List.map_cons, hsame places (List.Subset.refl _),
          hstanding]
        simp [commitAt]
    | rollback tx =>
      let p : Nat → Bool := fun i => (commitAt es i).any fun c => c.1 = tx
      have hp : ∀ i, p i = true ↔ Commits es tx i := by
        intro i
        simp only [p, Commits, Option.any_eq_true, decide_eq_true_eq, Prod.exists]
        constructor
        · rintro ⟨_, writes, h, rfl⟩
          exact ⟨writes, h⟩
        · rintro ⟨writes, h⟩
          exact ⟨tx, writes, h, rfl⟩
      refine ⟨places.eraseP p, hs.sublist List.eraseP_sublist, fun i => ?_, ?_⟩
      · simp only [mem_eraseP_iff hs, survives_append_rollback_iff, hmem, hp]
      · have herase : (standing (es ++ [.rollback tx])).map some =
            ((standing es).map some).eraseP fun c => c.any fun c => c.1 = tx := by
          rw [List.eraseP_map]
          simp [standing, replayEntry, Function.comp_def]
        rw [herase, hstanding, List.eraseP_map, hsame _ List.eraseP_subset]
        rfl

/-- A replay collects the writes of the commits that survive. -/
theorem survivors_survivors (es : List Entry) : Survivors es (survivors es) := by
  obtain ⟨places, hs, hmem, hstanding⟩ := exists_places es
  refine ⟨places.reverse, List.pairwise_reverse.2 hs, fun i => by rw [List.mem_reverse, hmem], ?_⟩
  rw [survivors_eq, List.map_map, List.map_reverse, List.map_reverse]
  congr 1
  have h := congrArg (List.map (Option.map (·.2))) hstanding
  rw [List.map_map, List.map_map] at h
  exact h

/-- The rule leaves no choice: it holds of what a replay collects, and of nothing else. -/
theorem survivors_iff {result : List (List RowWrite)} :
    Survivors es result ↔ result = survivors es := by
  constructor
  · rintro ⟨places, hs, hmem, hresult⟩
    obtain ⟨others, hs', hmem', hresult'⟩ := survivors_survivors es
    have hsame : places = others :=
      hs.eq_of_mem_iff hs' fun i => (hmem i).trans (hmem' i).symm
    rw [hsame, ← hresult'] at hresult
    exact (List.map_inj_right fun _ _ => Option.some.inj).1 hresult
  · rintro rfl
    exact survivors_survivors es

end Entry

/-! ## Torn tails -/

namespace Journal

variable {es : List Entry} {e : Entry} {j : Journal} {bs part frame : Bytes}

/-- Is this the journal's log, and does nothing go wrong with its stream? -/
structure Works (j : Journal) (bs : Bytes) : Prop where
  bytes : j.stream.bytes = bs
  sized : j.stream.Sized
  sound : ∀ n, j.stream.faults n = Faults.none

/-- A row of frames is read, and stays. -/
theorem Works.replay_eq (h : j.Works bs) (hes : Frames es bs) :
    j.replay = (.ok (survivors es), ⟨j.stream.tick, j.sync, es.length⟩) := by
  refine replay_eq_of_frames ?_ h.sized ?_
  · rw [h.bytes]
    exact hes
  · rw [Stream.now, h.sound]
    rfl

/-- The front of a frame behind the others is cut off. -/
theorem Works.exists_replay (h : j.Works (bs ++ part)) (hes : Frames es bs)
    (he : e.HasFront part) :
    ∃ k, j.replay = (.ok (survivors es), k) ∧ k.frames = es.length ∧ k.Works bs := by
  by_cases hne : part = []
  · rw [hne, List.append_nil] at h
    exact ⟨_, h.replay_eq hes, rfl, h.bytes, h.sized, h.sound⟩
  · have hnow : ∀ n, (j.stream.faults n).read = false ∧ (j.stream.faults n).truncate = false := by
      intro n
      rw [h.sound n]
      exact ⟨rfl, rfl⟩
    have hscan : Scan.ofBytes j.stream.bytes = ⟨es, bs.length, .torn⟩ := by
      rw [h.bytes]
      exact hes.ofBytes_append_front he hne
    refine ⟨_, replay_eq_of_torn h.bytes h.sized (hnow _).1 (hnow _).2 hscan, rfl, rfl, rfl, ?_⟩
    exact h.sound

theorem Works.exists_append (h : j.Works bs) (he : e.encode = .ok frame) :
    ∃ offset k, j.append e = (.ok offset, k) ∧ k.Works (bs ++ frame) := by
  obtain ⟨offset, k, hk⟩ := exists_append_of_sound h.sound he
  refine ⟨offset, k, hk, ?_, ?_, fun n => ?_⟩
  · obtain ⟨written, hwritten, hbytes⟩ := bytes_append_of_ok hk
    rw [he, Except.ok.injEq] at hwritten
    rw [hbytes, h.bytes, hwritten]
  · have hsized := Table.sized_append j e h.sized
    rwa [hk] at hsized
  · rw [faults_of_append hk]
    exact h.sound n

/-- A log of frames that ends in the front of another frame.  It is read as the frames alone, which
are counted and left; reading it again gives the same and changes nothing; and an entry that is
appended afterwards is read after them. -/
theorem torn_tail_recovery (hes : Entry.encodeAll es = .ok bs) (he : e.HasFront part)
    (hj : j.Works (bs ++ part)) :
    ∃ result k, j.replay = (.ok result, k) ∧ (∀ r, Entry.Survivors es r ↔ r = result) ∧
      k.frames = es.length ∧ k.stream.bytes = bs ∧
      k.replay = (.ok result, { k with stream := k.stream.tick }) ∧
      ∀ later frame, later.encode = .ok frame → ∃ offset l more m,
        k.append later = (.ok offset, l) ∧ l.replay = (.ok more, m) ∧
          (∀ r, Entry.Survivors (es ++ [later]) r ↔ r = more) ∧ m.frames = es.length + 1 ∧
          m.stream.bytes = bs ++ frame := by
  have hframes := Frames.iff_encodeAll.2 hes
  obtain ⟨k, hreplay, hcount, hk⟩ := hj.exists_replay hframes he
  refine ⟨survivors es, k, hreplay, fun r => Entry.survivors_iff, hcount, hk.bytes, ?_, ?_⟩
  · rw [hk.replay_eq hframes, ← hcount]
  · intro later frame hlater
    obtain ⟨offset, l, hl, hworks⟩ := hk.exists_append hlater
    refine ⟨offset, l, _, _, hl, hworks.replay_eq (hframes.append_encode hlater), fun r =>
      Entry.survivors_iff, ?_, hworks.bytes⟩
    rw [List.length_append, List.length_singleton]

/-- Three frames and the header of a fourth: the second commit is undone, the first survives. -/
theorem torn_tail_recovery_of_header :
    ∃ (bs : Bytes) (j k : Journal),
      Entry.encodeAll [.commit 1 [([7], some [8])], .commit 1 [([7], none)], .rollback 1] =
        .ok bs ∧
      longCommit.HasFront longHeader ∧ j.Works (bs ++ longHeader) ∧
      j.replay = (.ok [[([7], some [8])]], k) ∧ k.frames = 3 ∧ k.stream.bytes = bs := by
  obtain ⟨first, hfirst⟩ : ∃ frame, (Entry.commit 1 [([7], some [8])]).encode = .ok frame :=
    Entry.encode_commit_iff.2
      ⟨by decide, by decide, [1, 0, 0, 0, 7, 1, 1, 0, 0, 0, 8], rfl, by decide⟩
  obtain ⟨second, hsecond⟩ : ∃ frame, (Entry.commit 1 [([7], none)]).encode = .ok frame :=
    Entry.encode_commit_iff.2 ⟨by decide, by decide, [1, 0, 0, 0, 7, 0], rfl, by decide⟩
  obtain ⟨third, hthird⟩ := Entry.exists_encode_rollback (show 1 < Bytes.bound 8 by decide)
  have hrollback : Entry.encodeAll [.rollback 1] = .ok (third ++ []) :=
    Entry.encodeAll_cons_eq_ok_iff.2 ⟨third, [], hthird, rfl, rfl⟩
  have hall := Entry.encodeAll_cons_eq_ok_iff.2 ⟨first, _, hfirst,
    Entry.encodeAll_cons_eq_ok_iff.2 ⟨second, _, hsecond, hrollback, rfl⟩, rfl⟩
  have hworks : (ofStream (Stream.ofBytes (first ++ (second ++ (third ++ [])) ++ longHeader))
      true).Works (first ++ (second ++ (third ++ [])) ++ longHeader) := ⟨rfl, rfl, fun _ => rfl⟩
  obtain ⟨result, k, hreplay, hresult, hcount, hbytes, -⟩ :=
    torn_tail_recovery hall hasFront_longHeader hworks
  obtain rfl := (hresult _).1 (Entry.survivors_survivors _)
  exact ⟨_, _, k, hall, hasFront_longHeader, hworks, hreplay, hcount, hbytes⟩

end Journal

end NamespaceCatalog
