import NamespaceCatalog.Proofs.Journals
import NamespaceCatalog.Proofs.Versions
import NamespaceCatalog.Site

/-!
# Tables with journals of their own

`Site.Apart` says that every table of a site has its journal in a file of its own, of which its
stream knows the size.  Then a table that is put back is what is taken next, and the other tables
stay as they are (`table_putTable_self`, `table_putTable_of_ne`).  Whatever a transaction does to a
table keeps it so (`Table.Replaces`).  Of the rows this is true in every site (`rows_putTable`).
-/

namespace NamespaceCatalog

/-! ## Sizes -/

/-- Does the owner of the stream know its size? -/
def Stream.Sized (s : Stream) : Prop := s.size = s.bytes.length

theorem Stream.Sized.append {s : Stream} (h : s.Sized) (data : Bytes) :
    (s.append data).2.Sized := by
  have hext : ∀ data : Bytes, (s.extend data).tick.Sized := by
    intro data
    show s.size + data.length = (s.bytes ++ data).length
    rw [List.length_append, show s.size = s.bytes.length from h]
  unfold Stream.append
  split
  · exact hext data
  · exact hext _

theorem Stream.Sized.flush {s : Stream} (h : s.Sized) : s.flush.2.Sized := by
  unfold Stream.flush
  split <;> exact h

namespace Table

variable {t t' : Table}

/-- Does the table know the size of its journal, if it has one? -/
def Sized (t : Table) : Prop := ∀ w, t.log = some w → w.journal.stream.Sized

/-- Can the first table be put in the place of the second? -/
structure Replaces (t' t : Table) : Prop where
  log : t'.log = none ↔ t.log = none
  sized : t.Sized → t'.Sized

theorem withStream_eq_self {w : LogWriter} (h : t.log = some w) :
    t.withStream w.journal.stream = t := by
  obtain ⟨name, rows, dirty, log⟩ := t
  cases h
  rfl

theorem Replaces.of_log_eq (h : t'.log = t.log) : t'.Replaces t where
  log := by rw [h]
  sized hs w hw := hs w (h ▸ hw)

theorem Replaces.of_log {w v : LogWriter} (h : t.log = some w) (h' : t'.log = some v)
    (hs : w.journal.stream.Sized → v.journal.stream.Sized) : t'.Replaces t where
  log := by simp [h, h']
  sized ht u hu := by
    rw [h', Option.some.injEq] at hu
    exact hu ▸ hs (ht w h)

theorem sized_append (j : Journal) (e : Entry) (h : j.stream.Sized) : (j.append e).2.stream.Sized :=
  Journal.append_induction (fun _ data h => h.append data) (fun _ h => h.flush) h e

theorem replaces_install (t : Table) (tx : TxId) (writes : List RowWrite) :
    (t.install tx writes).2.Replaces t := by
  unfold install
  split
  · exact .of_log_eq rfl
  · cases hl : t.log with
    | none => exact .of_log_eq (log_addVersions ..)
    | some w =>
      have hs := LogWriter.append_induction sized_append (w := w)
      cases ha : w.append (.commit tx writes) with
      | mk r w' =>
        cases r with
        | error e =>
          simp only [ha]
          refine .of_log hl rfl fun h => ?_
          simpa [ha] using hs h (.commit tx writes)
        | ok _ =>
          simp only [ha]
          refine .of_log hl rfl fun h => ?_
          simpa [ha] using hs h (.commit tx writes)

theorem replaces_revert (t : Table) (tx : TxId) (logged : Bool) :
    (t.revert tx logged).Replaces t := by
  unfold revert
  split
  · cases hl : t.log with
    | none => exact .of_log_eq (by simp [withdraw, hl])
    | some w =>
      refine .of_log hl (v := w.rollback tx) (by simp [withdraw, hl]) fun h => ?_
      exact LogWriter.writeRollbacks_induction sized_append h _
  · exact .of_log_eq rfl

end Table

namespace Overlay

theorem replaces_commit (x : Overlay) (t : Table) : (x.commit t).2.2.Replaces t := by
  unfold commit
  split
  · exact .of_log_eq rfl
  · next tx _ =>
    have hi := t.replaces_install tx.id x.buffer.toList
    split <;> next h => simpa [h] using hi

theorem replaces_rollback (x : Overlay) (t : Table) : (x.rollback t).2.Replaces t := by
  unfold rollback
  split
  · exact t.replaces_revert _ _
  · exact .of_log_eq rfl

end Overlay

/-! ## Sites -/

namespace Site

variable {site : Site} {i j : TableId} {t : Table}

/-- Is the journal of the table in the stream `o` with the number `n`? -/
def HasJournal (site : Site) (i : TableId) (n : StreamId) (o : OpenStream) : Prop :=
  ∃ p, site.tables[i]? = some p ∧ p.journal = some n ∧ site.streams[n]? = some o

/-- Every table has its journal in a file of its own, of which its stream knows the size. -/
structure Apart (site : Site) : Prop where
  journal : ∀ (i : TableId) (p : OpenTable), site.tables[i]? = some p →
    p.journal = none ∧ p.table.log = none ∨ p.table.log ≠ none ∧ ∃ n o, p.journal = some n ∧
      site.streams[n]? = some o ∧
      (o.inMemory = true ∨ o.stream.size = (site.disk.read o.file).length)
  file : ∀ i j n m o p, site.HasJournal i n o → site.HasJournal j m p → o.file = p.file → i = j

theorem tables_putStream (site : Site) (n : StreamId) (s : Stream) :
    (site.putStream n s).tables = site.tables := by
  unfold putStream
  split <;> rfl

theorem size_putTable (site : Site) (i : TableId) (t : Table) :
    (site.putTable i t).tables.size = site.tables.size := by
  unfold putTable
  split
  · rfl
  · dsimp only
    split <;> simp [tables_putStream]

theorem table_eq_of_none {p : OpenTable} (hp : site.tables[i]? = some p) (hj : p.journal = none) :
    site.table i = p.table := by
  simp [table, table?, hp, hj]

theorem table_eq_of_some {p : OpenTable} {n : StreamId} (hp : site.tables[i]? = some p)
    (hj : p.journal = some n) : site.table i = p.table.withStream (site.stream n) := by
  simp [table, table?, hp, hj]

theorem stream_eq {n : StreamId} {o : OpenStream} (ho : site.streams[n]? = some o) :
    site.stream n = { o.stream with
      bytes := site.disk.read o.file
      size := if o.inMemory then (site.disk.read o.file).length else o.stream.size } := by
  simp [stream, ho]

theorem getElem?_set!_self {α : Type} {xs : Array α} {i : Nat} {y : α} (h : xs[i]? = some y)
    (x : α) : (xs.set! i x)[i]? = some x := by
  rw [Array.set!_eq_setIfInBounds,
    Array.getElem?_setIfInBounds_self_of_lt (Array.getElem?_eq_some_iff.1 h).1]

theorem getElem?_set!_of_ne {α : Type} (xs : Array α) {i j : Nat} (h : j ≠ i) (x : α) :
    (xs.set! i x)[j]? = xs[j]? := by
  rw [Array.set!_eq_setIfInBounds, Array.getElem?_setIfInBounds_ne (Ne.symm h)]

theorem getElem?_tables_putTable (site : Site) (t : Table) (hne : j ≠ i) :
    (site.putTable i t).tables[j]? = site.tables[j]? := by
  unfold putTable
  split
  · rfl
  · dsimp only
    split
    · rw [tables_putStream]
      exact getElem?_set!_of_ne _ hne _
    · exact getElem?_set!_of_ne _ hne _

theorem getElem?_tables_putTable_self {p : OpenTable} (hp : site.tables[i]? = some p) (t : Table) :
    (site.putTable i t).tables[i]? = some { p with table := t } := by
  unfold putTable
  rw [hp]
  dsimp only
  split
  · rw [tables_putStream]
    exact getElem?_set!_self hp _
  · exact getElem?_set!_self hp _

/-! ### Rows -/

/-- The rows of a table do not depend on its stream. -/
theorem rows_table (site : Site) (i : TableId) :
    (site.table i).rows = site.tables[i]?.elim ∅ (·.table.rows) := by
  unfold table table?
  cases site.tables[i]? with
  | none => rfl
  | some o =>
    cases hj : o.journal with
    | none => simp [hj]
    | some s => simp [hj, Table.withStream]

theorem rows_putTable (site : Site) (i : TableId) (t : Table) (j : TableId) :
    ((site.putTable i t).table j).rows =
      if j = i ∧ i < site.tables.size then t.rows else (site.table j).rows := by
  rw [rows_table, rows_table]
  by_cases e : j = i
  · subst e
    cases hp : site.tables[j]? with
    | none =>
      have := Array.getElem?_eq_none_iff.1 hp
      rw [if_neg fun h => Nat.not_lt.2 this h.2]
      simp [putTable, hp]
    | some p =>
      rw [getElem?_tables_putTable_self hp t, if_pos ⟨rfl, (Array.getElem?_eq_some_iff.1 hp).1⟩]
      rfl
  · rw [getElem?_tables_putTable site t e, if_neg fun h => e h.1]

/-! ### Tables and their streams -/

section Journal

variable {p : OpenTable} {n : StreamId} {o : OpenStream} {w : LogWriter}

/-- A table with a journal is put back with its stream. -/
theorem putTable_of_journal (hp : site.tables[i]? = some p) (hj : p.journal = some n)
    (ho : site.streams[n]? = some o) (hw : t.log = some w) :
    site.putTable i t = { site with
      tables := site.tables.set! i { p with table := t }
      disk := site.disk.write o.file w.journal.stream.bytes
      streams := site.streams.set! n { o with stream := w.journal.stream } } := by
  simp [putTable, hp, hj, Table.stream, hw, putStream, ho]

/-- A table with a journal that is put back is what is taken next, if the size of its stream is
right wherever it is counted anew. -/
theorem table_putTable_of_journal (hp : site.tables[i]? = some p) (hj : p.journal = some n)
    (ho : site.streams[n]? = some o) (hw : t.log = some w)
    (hs : o.inMemory = true → w.journal.stream.Sized) : (site.putTable i t).table i = t := by
  have e := putTable_of_journal hp hj ho hw
  have hp' := getElem?_tables_putTable_self hp t
  have ho' : (site.putTable i t).streams[n]? = some { o with stream := w.journal.stream } := by
    rw [e]
    exact getElem?_set!_self ho _
  have hstream : (site.putTable i t).stream n = w.journal.stream := by
    rw [stream_eq ho', e]
    by_cases hm : o.inMemory = true
    · simp [Disk.read_write, hm, ← show w.journal.stream.size = _ from hs hm]
    · simp [Disk.read_write, hm]
  rw [table_eq_of_some hp' hj, hstream]
  exact Table.withStream_eq_self hw

end Journal

namespace Apart

theorem log_eq_none_iff (h : site.Apart) {p : OpenTable} (hp : site.tables[i]? = some p) :
    (site.table i).log = none ↔ p.journal = none := by
  rcases h.journal i p hp with ⟨hj, hl⟩ | ⟨hl, n, o, hj, -⟩
  · rw [table_eq_of_none hp hj]
    simp [hj, hl]
  · rw [table_eq_of_some hp hj]
    simp [hj, Table.withStream, hl]

theorem sized (h : site.Apart) (i : TableId) : (site.table i).Sized := by
  intro w hw
  cases hp : site.tables[i]? with
  | none => simp [table, table?, hp, Table.inMemory] at hw
  | some p =>
    rcases h.journal i p hp with ⟨hj, hl⟩ | ⟨-, n, o, hj, ho, hs⟩
    · rw [table_eq_of_none hp hj, hl] at hw
      cases hw
    · rw [table_eq_of_some hp hj, Table.withStream, Option.map_eq_some_iff] at hw
      obtain ⟨v, -, rfl⟩ := hw
      show (site.stream n).Sized
      rw [stream_eq ho]
      rcases hs with hs | hs
      · simp [Stream.Sized, hs]
      · simp [Stream.Sized, hs]

end Apart

/-- Everything that putting a table back can do to a site. -/
theorem Apart.putTable_cases (h : site.Apart) (ht : t.Replaces (site.table i)) :
    site.putTable i t = site ∧ site.tables.size ≤ i ∨
    (∃ p, site.tables[i]? = some p ∧ p.journal = none ∧ t.log = none ∧
      site.putTable i t = { site with tables := site.tables.set! i { p with table := t } }) ∨
    ∃ p n o w, site.tables[i]? = some p ∧ p.journal = some n ∧ site.streams[n]? = some o ∧
      t.log = some w ∧ w.journal.stream.Sized ∧
      site.putTable i t = { site with
        tables := site.tables.set! i { p with table := t }
        disk := site.disk.write o.file w.journal.stream.bytes
        streams := site.streams.set! n { o with stream := w.journal.stream } } := by
  cases hp : site.tables[i]? with
  | none => exact .inl ⟨by simp [putTable, hp], Array.getElem?_eq_none_iff.1 hp⟩
  | some p =>
    refine .inr ?_
    have hlog := ht.log.trans (h.log_eq_none_iff hp)
    rcases h.journal i p hp with ⟨hj, -⟩ | ⟨-, n, o, hj, ho, -⟩
    · exact .inl ⟨p, rfl, hj, hlog.2 hj, by simp [putTable, hp, hj]⟩
    · cases hw : t.log with
      | none =>
        rw [hlog.1 hw] at hj
        cases hj
      | some w =>
        exact .inr ⟨p, n, o, w, rfl, hj, ho, rfl, ht.sized (h.sized i) w hw,
          putTable_of_journal hp hj ho hw⟩

theorem table_putTable_self (h : site.Apart) (ht : t.Replaces (site.table i))
    (hi : i < site.tables.size) : (site.putTable i t).table i = t := by
  rcases h.putTable_cases ht with
    ⟨-, hle⟩ | ⟨p, hp, hj, -, e⟩ | ⟨p, n, o, w, hp, hj, ho, hw, hs, e⟩
  · exact absurd hi (Nat.not_lt.2 hle)
  · rw [table_eq_of_none (getElem?_tables_putTable_self hp t) hj]
  · exact table_putTable_of_journal hp hj ho hw fun _ => hs

/-- Two tables have different streams in different files. -/
theorem Apart.ne_of_ne (h : site.Apart) (hne : j ≠ i) {n m : StreamId} {o p : OpenStream}
    (ho : site.HasJournal i n o) (hp : site.HasJournal j m p) : m ≠ n ∧ p.file ≠ o.file := by
  have hfile : p.file ≠ o.file := fun e => hne (h.file j i m n p o hp ho e)
  refine ⟨?_, hfile⟩
  rintro rfl
  obtain ⟨-, -, -, ho⟩ := ho
  obtain ⟨-, -, -, hp⟩ := hp
  rw [ho, Option.some.injEq] at hp
  exact hfile (hp ▸ rfl)

theorem Apart.hasJournal_putTable (h : site.Apart) (ht : t.Replaces (site.table i)) (hne : j ≠ i)
    {m : StreamId} {r : OpenStream} (hr : site.HasJournal j m r) :
    (site.putTable i t).streams[m]? = some r ∧
      (site.putTable i t).disk.read r.file = site.disk.read r.file := by
  obtain ⟨q, hq, hj', hr'⟩ := hr
  rcases h.putTable_cases ht with
    ⟨e, -⟩ | ⟨p, hp, hj, -, e⟩ | ⟨p, n, o, w, hp, hj, ho, hw, hs, e⟩
  · rw [e]
    exact ⟨hr', rfl⟩
  · rw [e]
    exact ⟨hr', rfl⟩
  · obtain ⟨hmn, hfile⟩ := h.ne_of_ne hne ⟨p, hp, hj, ho⟩ ⟨q, hq, hj', hr'⟩
    rw [e]
    exact ⟨(getElem?_set!_of_ne _ hmn _).trans hr', (Disk.read_write ..).trans (if_neg hfile)⟩

theorem table_putTable_of_ne (h : site.Apart) (ht : t.Replaces (site.table i)) (hne : j ≠ i) :
    (site.putTable i t).table j = site.table j := by
  have htables := getElem?_tables_putTable site t hne
  cases hq : site.tables[j]? with
  | none =>
    rw [hq] at htables
    simp only [table, table?, htables, hq, Option.map_none]
  | some q =>
    rw [hq] at htables
    rcases h.journal j q hq with ⟨hj, -⟩ | ⟨-, m, r, hj, hr, -⟩
    · rw [table_eq_of_none htables hj, table_eq_of_none hq hj]
    · obtain ⟨hr', hread⟩ := h.hasJournal_putTable ht hne ⟨q, hq, hj, hr⟩
      rw [table_eq_of_some htables hj, table_eq_of_some hq hj, stream_eq hr', stream_eq hr, hread]

theorem Apart.of_hasJournal_putTable (h : site.Apart) (ht : t.Replaces (site.table i)) {k : TableId}
    {m : StreamId} {r : OpenStream} (hr : (site.putTable i t).HasJournal k m r) :
    ∃ r', site.HasJournal k m r' ∧ r'.file = r.file := by
  obtain ⟨q, hq, hj', hr⟩ := hr
  by_cases hne : k = i
  · subst hne
    rcases h.putTable_cases ht with
      ⟨e, -⟩ | ⟨p, hp, hj, -, e⟩ | ⟨p, n, o, w, hp, hj, ho, hw, hs, e⟩
    · rw [e] at hq hr
      exact ⟨r, ⟨q, hq, hj', hr⟩, rfl⟩
    · rw [e] at hq
      obtain rfl := Option.some.inj ((getElem?_set!_self hp _).symm.trans hq)
      exact absurd (hj.symm.trans hj') (Option.some_ne_none m).symm
    · rw [e] at hq hr
      obtain rfl := Option.some.inj ((getElem?_set!_self hp _).symm.trans hq)
      obtain rfl := Option.some.inj (hj.symm.trans hj')
      obtain rfl := Option.some.inj ((getElem?_set!_self ho _).symm.trans hr)
      exact ⟨o, ⟨p, hp, hj, ho⟩, rfl⟩
  · rw [getElem?_tables_putTable site t hne] at hq
    rcases h.journal k q hq with ⟨hn, -⟩ | ⟨-, n, o, hn, ho, -⟩
    · exact absurd (hn.symm.trans hj') (Option.some_ne_none m).symm
    · obtain rfl := Option.some.inj (hn.symm.trans hj')
      obtain ⟨ho', -⟩ := h.hasJournal_putTable ht hne ⟨q, hq, hn, ho⟩
      obtain rfl := Option.some.inj (ho'.symm.trans hr)
      exact ⟨o, ⟨q, hq, hn, ho⟩, rfl⟩

theorem Apart.putTable (h : site.Apart) (ht : t.Replaces (site.table i)) :
    (site.putTable i t).Apart where
  journal k q hq := by
    by_cases hne : k = i
    · subst hne
      rcases h.putTable_cases ht with
        ⟨e, -⟩ | ⟨p, hp, hj, hl, e⟩ | ⟨p, n, o, w, hp, hj, ho, hw, hs, e⟩
      · rw [e] at hq ⊢
        exact h.journal k q hq
      · rw [e] at hq
        obtain rfl := Option.some.inj ((getElem?_set!_self hp _).symm.trans hq)
        exact .inl ⟨hj, hl⟩
      · rw [e] at hq ⊢
        obtain rfl := Option.some.inj ((getElem?_set!_self hp _).symm.trans hq)
        refine .inr ⟨by simp [hw], n, _, hj, getElem?_set!_self ho _, .inr ?_⟩
        exact (show w.journal.stream.size = _ from hs).trans (by simp [Disk.read_write])
    · rw [getElem?_tables_putTable site t hne] at hq
      rcases h.journal k q hq with hj | ⟨hl, m, r, hj, hr, hs⟩
      · exact .inl hj
      · obtain ⟨hr', hread⟩ := h.hasJournal_putTable ht hne ⟨q, hq, hj, hr⟩
        exact .inr ⟨hl, m, r, hj, hr', by rwa [hread]⟩
  file k l n m o p ho hp e := by
    obtain ⟨o', ho', eo⟩ := h.of_hasJournal_putTable ht ho
    obtain ⟨p', hp', ep⟩ := h.of_hasJournal_putTable ht hp
    exact h.file k l n m o' p' ho' hp' (eo.trans (e.trans ep.symm))

end Site

end NamespaceCatalog
