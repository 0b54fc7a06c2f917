import Mathlib.Data.List.Perm.Subperm
import NamespaceCatalog.Proofs.Ledgers

/-!
# Sessions

A session opens a table from the bytes of a stream and runs.  Sessions follow each other if each
opens the table from the bytes that the one before left; the numbers of transactions start again in
each.

What was acknowledged in any of them stands in the log, but for as many commits as rollbacks' frames
were written with the flush after them failing (`acknowledged_stand`).  If no flush fails after a
rollback's frame, nothing that was acknowledged is ever lost.
-/

namespace NamespaceCatalog

open Scene

/-- A session at a table: what it opened, and how far it has come. -/
structure Session (t : TableId) where
  stream : Stream
  sync : Bool
  names : TableId → String
  base : TableId → Std.ExtTreeMap Bytes Bytes
  logs : TableId → Option LogWriter
  trace : Trace
  scene : Scene
  sized : stream.size = stream.bytes.length
  whole : stream.Whole
  opens : ∃ left, Table.load (names t) stream sync =
    (.ok ⟨names t, Table.baseRows (base t), ∅, logs t⟩, left)
  run : Run (opened names base logs) trace scene

namespace Session

variable {t : TableId} {start : Bytes}

/-- The bytes of the table's log. -/
def bytes (σ : Session t) : Bytes := (σ.scene.tables t).stream.elim [] (·.bytes)

/-- The commits that stood when the session began, the latest first. -/
def before (σ : Session t) : List (TxId × List RowWrite) :=
  standing (Scan.ofBytes σ.stream.bytes).entries

theorem recorded (σ : Session t) : σ.scene.Recorded σ.trace t σ.before := by
  obtain ⟨left, hload⟩ := σ.opens
  obtain ⟨w, e, hwait, hes⟩ := Table.holds_of_load σ.sized σ.whole hload
  obtain ⟨-, -, -, hw⟩ := Table.mk.inj e
  exact recorded_of_run hw hwait hes σ.run

theorem bytes_eq {σ : Session t} {w : LogWriter} (h : (σ.scene.tables t).log = some w) :
    σ.bytes = w.journal.stream.bytes := by
  rw [bytes, Table.stream, h]
  rfl

/-- The bytes that sessions leave, the latest of them first. -/
def leave (start : Bytes) : List (Session t) → Bytes
  | [] => start
  | σ :: _ => σ.bytes

/-- Does each session begin with the bytes that the one before left?  The latest is the first. -/
def Chain (start : Bytes) : List (Session t) → Prop
  | [] => True
  | σ :: past => σ.stream.bytes = leave start past ∧ Chain start past

/-- What was committed in the sessions, and what stood before the first. -/
def promised (start : Bytes) : List (Session t) → List (TxId × List RowWrite)
  | [] => standing (Scan.ofBytes start).entries
  | σ :: past => σ.scene.acknowledged t ++ promised start past

/-- How often a rollback's frame was written with the flush after it failing. -/
def rollbacksLeft : List (Session t) → Nat
  | [] => 0
  | σ :: past => σ.trace.rollbacksLeft t + rollbacksLeft past

/-- No transaction commits twice. -/
theorem nodup_acknowledged {s : Scene} (h : Inv s) : (s.acknowledged t).Nodup := by
  refine List.Nodup.sublist List.filter_sublist (List.Pairwise.map _ ?_ h.chronicle.precedes)
  intro k l hkl e
  exact hkl.id_ne (congrArg Prod.fst e)

/-- What stands after one more session, if all that was promised stood before but for `gone`. -/
theorem exists_lost (σ : Session t) {promises gone : List (TxId × List RowWrite)}
    (h : promises.Subperm (gone ++ σ.before)) :
    ∃ es lost, Frames es σ.bytes ∧ lost.length ≤ σ.trace.rollbacksLeft t ∧
      (σ.scene.acknowledged t ++ promises).Subperm (lost ++ gone ++ standing es) := by
  obtain ⟨w, live, old, hw, hpromises, hold, hlen, hledger⟩ := σ.recorded
  obtain ⟨es, hes, hsub⟩ := hpromises.exists_sublist
  obtain ⟨lost, hlost⟩ := hold.exists_perm_append
  refine ⟨es, lost, by rw [bytes_eq hw]; exact hes, ?_, ?_⟩
  · have := hlost.length_eq
    rw [List.length_append] at this
    omega
  · have hack : (σ.scene.acknowledged t).Subperm live :=
      List.subperm_of_subset (nodup_acknowledged (inv_of_steps σ.run.steps)) hledger.acknowledged
    have hboth : (σ.scene.acknowledged t ++ promises).Subperm (live ++ (gone ++ σ.before)) :=
      ((List.subperm_append_right promises).2 hack).trans ((List.subperm_append_left live).2 h)
    have hperm : (live ++ (gone ++ σ.before)).Perm (lost ++ gone ++ (live ++ old)) := by
      refine List.perm_iff_count.2 fun c => ?_
      simp only [List.count_append, hlost.count_eq]
      omega
    exact (hboth.trans hperm.subperm).trans ((List.subperm_append_left _).2 hsub.subperm)

/-- What sessions promised stands in what they leave, but for as many commits as rollbacks were
left. -/
theorem exists_gone {σs : List (Session t)} (h : Chain start σs) :
    ∃ gone, gone.length ≤ rollbacksLeft σs ∧ (promised start σs).Subperm
      (gone ++ standing (Scan.ofBytes (leave start σs)).entries) := by
  induction σs with
  | nil => exact ⟨[], Nat.zero_le _, List.Subperm.refl _⟩
  | cons σ past ih =>
    obtain ⟨hbytes, hpast⟩ := h
    obtain ⟨gone, hgone, hstand⟩ := ih hpast
    rw [← hbytes] at hstand
    obtain ⟨es, lost, hes, hlost, hstand'⟩ := σ.exists_lost hstand
    refine ⟨lost ++ gone, ?_, ?_⟩
    · rw [List.length_append, rollbacksLeft]
      exact Nat.add_le_add hlost hgone
    · rw [leave, hes.ofBytes]
      exact hstand'

/-- Whatever sessions were there before and however far the latest has come, its log can be read,
and what was committed in any of them stands in it, but for at most as many commits as rollbacks'
frames were written with the flush after them failing. -/
theorem acknowledged_stand {σ : Session t} {past : List (Session t)} (h : Chain start (σ :: past)) :
    ∃ es gone, (∀ sync, ∃ j, (Journal.ofStream (Stream.ofBytes σ.bytes) sync).replay =
        (.ok ((standing es).reverse.map (·.2)), j)) ∧
      (promised start (σ :: past)).Subperm (gone ++ standing es) ∧
      gone.length ≤ rollbacksLeft (σ :: past) := by
  obtain ⟨gone, hgone, hstand⟩ := exists_gone h
  have hself : σ.before.Subperm ([] ++ σ.before) := .refl _
  obtain ⟨es, -, hes, -⟩ := σ.exists_lost hself
  rw [leave, hes.ofBytes] at hstand
  exact ⟨es, gone, fun sync => ⟨_, Journal.replay_of_frames hes rfl rfl sync⟩, hstand, hgone⟩

/-- The log after one commit. -/
def firstLog : Bytes :=
  match Entry.encode (.commit 1 [([7], some [8])]) with
  | .ok frame => frame
  | .error _ => []

theorem frames_firstLog : Frames [.commit 1 [([7], some [8])]] firstLog :=
  Frames.nil.append_encode (by decide +kernel)

/-- That log in a stream whose use number 4 is a flush that fails. -/
def secondStream : Stream := { Stream.ofBytes firstLog with faults := (failingFlush 4).faults }

theorem exists_first_session :
    ∃ σ : Session 0, σ.stream.bytes = [] ∧ σ.bytes = firstLog ∧
      σ.scene.acknowledged 0 = [(1, [([7], some [8])])] ∧ σ.trace.rollbacksLeft 0 = 0 := by
  have h₁ : Run (opened (fun _ => "t") (fun _ => ∅)
      fun _ => some ⟨⟨(Stream.ofBytes []).tick, true, 0⟩, []⟩) [] _ := .refl
  have h₂ := h₁.tail (.begin _)
  have h₃ := h₂.tail (.start (i := 1) (t := 0) rfl rfl rfl)
  have h₄ := h₃.tail (@Step.perform _ 1 _ 0 (.write [7] [8]) _ _ rfl rfl rfl)
  have h₅ := h₄.tail (.reserve (i := 1) rfl rfl rfl)
  have h₆ := h₅.tail (.install (i := 1) (t := 0) rfl rfl rfl rfl)
  have h₇ := h₆.tail (.commit (i := 1) rfl rfl (fun t => ?_) rfl)
  · exact ⟨⟨Stream.ofBytes [], true, _, _, _, _, _, rfl, Stream.whole_ofBytes [], ⟨_, rfl⟩, h₇⟩,
      rfl, rfl, rfl, rfl⟩
  · by_cases e : t = 0
    · subst e
      exact .inr rfl
    · refine .inl ?_
      simp only [Actor.put, Function.update_of_ne e]
      rfl

set_option maxRecDepth 8000 in
/-- The first transaction is rolled back, and its rollback is written twice before the second one
commits. -/
theorem exists_second_session :
    ∃ σ : Session 0, σ.stream.bytes = firstLog ∧
      σ.scene.acknowledged 0 = [(2, [([10], some [11])])] ∧ σ.trace.rollbacksLeft 0 = 1 ∧
      survivors (Scan.ofBytes σ.bytes).entries = [[([10], some [11])]] := by
  have hwhole : secondStream.Whole := by
    intro k
    simp only [secondStream, failingFlush]
    split <;> exact .inl rfl
  have hload : Table.load "t" secondStream true =
      (.ok ⟨"t", Table.baseRows (Table.rowsOf [[([7], some [8])]]), ∅,
        some ⟨⟨secondStream.tick, true, 1⟩, []⟩⟩, secondStream.tick) := by
    rw [Table.load, Journal.replay_of_frames frames_firstLog rfl rfl]
    rfl
  have h₁ : Run (opened (fun _ => "t") (fun _ => Table.rowsOf [[([7], some [8])]])
      fun _ => some ⟨⟨secondStream.tick, true, 1⟩, []⟩) [] _ := .refl
  have h₂ := h₁.tail (.begin _)
  have h₃ := h₂.tail (.start (i := 1) (t := 0) rfl rfl rfl)
  have h₄ := h₃.tail (@Step.perform _ 1 _ 0 (.write [9] [9]) _ _ rfl rfl rfl)
  have h₅ := h₄.tail (.reserve (i := 1) rfl rfl rfl)
  have h₆ := h₅.tail (.install (i := 1) (t := 0) rfl rfl rfl rfl)
  have h₇ := h₆.tail (.fail (i := 1) rfl (.inr rfl))
  have h₈ := h₇.tail (.rollback (i := 1) (t := 0) rfl rfl rfl)
  have h₉ := h₈.tail (.begin _)
  have h₁₀ := h₉.tail (.start (i := 2) (t := 0) rfl rfl rfl)
  have h₁₁ := h₁₀.tail (@Step.perform _ 2 _ 0 (.write [10] [11]) _ _ rfl rfl rfl)
  have h₁₂ := h₁₁.tail (.reserve (i := 2) rfl rfl rfl)
  have h₁₃ := h₁₂.tail (.install (i := 2) (t := 0) rfl rfl rfl rfl)
  have h₁₄ := h₁₃.tail (.commit (i := 2) rfl rfl (fun t => ?_) rfl)
  · exact ⟨⟨secondStream, true, _, _, _, _, _, rfl, hwhole, ⟨_, hload⟩, h₁₄⟩, rfl, rfl, rfl, rfl⟩
  · by_cases e : t = 0
    · subst e
      exact .inr rfl
    · refine .inl ?_
      simp only [Actor.put, Function.update_of_ne e]
      rfl

/-- A commit of the first session is gone after the second, in which one flush failed after the
frame of the rollback of the transaction with the same number. -/
theorem acknowledged_stand_but_one :
    ∃ σ₂ σ₁ : Session 0, Chain [] [σ₂, σ₁] ∧ rollbacksLeft [σ₂, σ₁] = 1 ∧
      promised [] [σ₂, σ₁] = [(2, [([10], some [11])]), (1, [([7], some [8])])] ∧
      ∃ es gone, (standing es).reverse.map (·.2) = [[([10], some [11])]] ∧
        (promised [] [σ₂, σ₁]).Subperm (gone ++ standing es) ∧ gone.length ≤ 1 := by
  obtain ⟨σ₁, hstart, hleft, hack, hn⟩ := exists_first_session
  obtain ⟨σ₂, hstart', hack', hn', hlog⟩ := exists_second_session
  have hchain : Chain [] [σ₂, σ₁] := ⟨hstart'.trans hleft.symm, hstart, trivial⟩
  have hsum : rollbacksLeft [σ₂, σ₁] = 1 := by simp [rollbacksLeft, hn, hn']
  have hpromised : promised [] [σ₂, σ₁] =
      [(2, [([10], some [11])]), (1, [([7], some [8])])] := by
    simp only [promised, hack, hack']
    rfl
  obtain ⟨es, gone, hreplay, hstand, hgone⟩ := acknowledged_stand hchain
  refine ⟨σ₂, σ₁, hchain, hsum, hpromised, es, gone, ?_, hstand, hsum ▸ hgone⟩
  obtain ⟨j, hj⟩ := hreplay true
  obtain ⟨es', -, hes', -⟩ := σ₂.exists_lost (show σ₂.before.Subperm ([] ++ σ₂.before) from .refl _)
  rw [Journal.replay_of_frames hes' rfl rfl, Prod.mk.injEq, Except.ok.injEq] at hj
  rw [← hj.1, ← hlog, hes'.ofBytes]

end Session

end NamespaceCatalog
