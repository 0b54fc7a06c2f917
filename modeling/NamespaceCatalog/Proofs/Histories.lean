import NamespaceCatalog.Proofs.KeyPrefixes
import NamespaceCatalog.Proofs.Rosters
import NamespaceCatalog.Proofs.Sheets
import NamespaceCatalog.Record.Sample

/-!
# Records by their history

Within one transaction the records of a table are known from what was done so far: a record
`Lives` if nothing since it was created has created or deleted one of its name, or if the snapshot
holds it and nothing ever did.  `Rows.answers_of_history` says that every query is answered
accordingly, whatever the names have in common, and whatever else is in the table under other tags.

What is done so far is kept as a roster (`Keeps`): its records are those that live, and the rows
that the transaction sees hold it.  Each query keeps this (`Keeps.perform`), and so do queries one
after the other (`Keeps.performAll`).
-/

namespace NamespaceCatalog

namespace Overlay

variable {x : Overlay} {t : Table} {tx : Transaction} {rows : Std.ExtTreeMap Bytes Bytes}

theorem matches_view (hx : x.tx = some tx) (rows : Std.ExtTreeMap Bytes Bytes) :
    x.Matches tx rows ⟨x.view rows, .ofList x.buffer.keys⟩ where
  tx := hx
  rows := rfl
  touched key := by simp

theorem exists_write_view (hx : x.tx = some tx) (rows : Std.ExtTreeMap Bytes Bytes)
    (key value : Bytes) : ∃ y, x.write key value = .ok y ∧ y.tx = some tx ∧
      y.view rows = Table.applyWrite (x.view rows) (key, some value) := by
  obtain ⟨y, hy, hm⟩ := (matches_view hx rows).write key value (.inMemory "")
  obtain ⟨z, hz, e⟩ := map_eq_ok_iff.1 hy
  cases e
  exact ⟨y, hz, hm.tx, hm.rows⟩

theorem exists_deleteAll_view (hx : x.tx = some tx) (ht : t.IsSeenAs tx rows) (start : Bytes) :
    ∃ y, x.deleteAll t start = .ok y ∧ y.tx = some tx ∧
      y.view rows = (x.view rows).filter fun key _ => !start.isPrefixOf key := by
  obtain ⟨y, hy, hm⟩ := (matches_view hx rows).deleteAll start ht
  obtain ⟨z, hz, e⟩ := map_eq_ok_iff.1 hy
  cases e
  exact ⟨y, hz, hm.tx, hm.rows⟩

end Overlay

namespace Roster

variable {m : Roster} {f : Codec} {rows : Std.ExtTreeMap Bytes Bytes} {r : Record}

theorem mem_list_iff (h : m.StoredIn f rows) : r ∈ m.list ↔ m[r.name]? = some r := by
  rw [list_eq, List.mem_map]
  constructor
  · rintro ⟨⟨name, r⟩, hmem, rfl⟩
    have hm := Std.ExtTreeMap.mem_toList_iff_getElem?_eq_some.1 hmem
    rwa [(h.name name r hm).1]
  · exact fun hm => ⟨(r.name, r), Std.ExtTreeMap.mem_toList_iff_getElem?_eq_some.2 hm, rfl⟩

theorem pairwise_list (h : m.StoredIn f rows) :
    m.list.Pairwise fun a b => compare a.name b.name = .lt := by
  rw [list_eq, List.pairwise_map]
  refine m.ordered_keys_toList.imp_of_mem fun {a b} ha hb hab => ?_
  rw [(h.name a.1 a.2 (Std.ExtTreeMap.mem_toList_iff_getElem?_eq_some.1 ha)).1,
    (h.name b.1 b.2 (Std.ExtTreeMap.mem_toList_iff_getElem?_eq_some.1 hb)).1]
  exact hab

/-- Deleting what is under the key of a record deletes one row. -/
theorem StoredIn.filter_eq (h : m.StoredIn f rows) (id : Id) :
    (rows.filter fun key _ => !(Rows.key id.name).isPrefixOf key) =
      Table.applyWrite rows (Rows.key id.name, none) := by
  refine Std.ExtTreeMap.ext_getElem? fun key => ?_
  rw [Std.ExtTreeMap.getElem?_filter', Table.getElem?_applyWrite]
  by_cases e : Rows.key id.name = key
  · subst e
    rw [if_pos rfl, Rows.isPrefixOf_key_iff.2 rfl]
    cases rows[Rows.key id.name]? <;> rfl
  · rw [if_neg e]
    cases hk : rows[key]? with
    | none => rfl
    | some value =>
      have hmem : key ∈ rows := Std.ExtTreeMap.mem_iff_isSome_getElem?.2 (by simp [hk])
      have hp : (Rows.key id.name).isPrefixOf key = false :=
        Bool.eq_false_iff.2 fun hp => e (h.eq_key_of_isPrefixOf hmem hp)
      simp [hp]

end Roster

namespace Rows

/-! ## Queries -/

/-- What may be asked of the records. -/
inductive Query
  | create (r : Record)
  | get (id : Id)
  | has (id : Id)
  | delete (id : Id)
  | list

/-- The answer to a query. -/
inductive Reply
  | done
  | record (r : Option Record)
  | known (b : Bool)
  | records (rs : List Record)

/-- Answers a query. -/
def perform (f : Codec) (q : Query) (x : Overlay) (t : Table) : Except Error (Reply × Overlay) :=
  match q with
  | .create r => (create f r x).map (.done, ·)
  | .get id => (get f id x t).map (.record ·, x)
  | .has id => (exists? f id x t).map (.known ·, x)
  | .delete id => (delete id x t).map (.done, ·)
  | .list => (list f x t).map (.records ·, x)

/-- Answers queries one after the other, each through the table as it is then. -/
def performAll (f : Codec) : List (Query × Table) → Overlay →
    Except Error (List Reply × Overlay)
  | [], x => .ok ([], x)
  | (q, t) :: steps, x =>
    match perform f q x t with
    | .error e => .error e
    | .ok (reply, y) => (performAll f steps y).map fun (replies, z) => (reply :: replies, z)

/-! ## Rows of records, and other rows -/

/-- May the record be kept in a row?  Its name is one of a namespace, and it can be read again. -/
structure Storable (f : Codec) (r : Record) : Prop where
  named : ∃ id : Id, id.name = r.name
  readable : f.RoundTrips r

/-- Is this the key of a row with another tag? -/
def IsForeign (key : Bytes) : Prop :=
  ∃ other segments, key = Key.ofSegments (.text other :: segments) ∧
    other ≠ tag ∧ '\x00' ∉ other.toList

/-- Rows that hold records, each under its name, beside rows with other tags. -/
def Kept (f : Codec) (rows : Std.ExtTreeMap Bytes Bytes) : Prop :=
  ∀ k value, rows[k]? = some value →
    (∃ r, Storable f r ∧ k = key r.name ∧ f.encode r = .ok value) ∨ IsForeign k

/-- Is the record in the rows? -/
def Holds (f : Codec) (rows : Std.ExtTreeMap Bytes Bytes) (r : Record) : Prop :=
  ∃ value, rows[key r.name]? = some value ∧ f.decode value = .ok r

variable {f : Codec} {rows : Std.ExtTreeMap Bytes Bytes} {r : Record}

theorem IsForeign.not_isPrefixOf {k : Bytes} (h : IsForeign k) :
    ¬ (Key.ofTag tag).isPrefixOf k := by
  obtain ⟨other, segments, rfl, hne, hzero⟩ := h
  intro hp
  obtain ⟨s, back, e, hs⟩ := Key.covers_singleton_iff.1 (Key.isPrefixOf_ofSegments_iff.1 hp)
  obtain ⟨rfl, rfl⟩ : other = s ∧ segments = back := by simpa using e
  rcases hs with rfl | ⟨rest, rfl⟩
  · exact hne rfl
  · exact hzero (by simp)

theorem Kept.of_key (h : Kept f rows) {id : Id} {value : Bytes}
    (hv : rows[key id.name]? = some value) :
    ∃ r, Storable f r ∧ r.name = id.name ∧ f.stored r = value := by
  rcases h _ _ hv with ⟨r, hr, hk, he⟩ | hforeign
  · exact ⟨r, hr, (key_injective hk).symm, Codec.stored_of_encode he⟩
  · exact absurd (ofTag_isPrefixOf_key id) hforeign.not_isPrefixOf

theorem Kept.storable (h : Kept f rows) (hr : Holds f rows r) : Storable f r := by
  obtain ⟨value, hv, hd⟩ := hr
  rcases h _ _ hv with ⟨r', hr', -, he⟩ | hforeign
  · rw [← Codec.stored_of_encode he, hr'.readable.decode_eq] at hd
    exact Except.ok.inj hd ▸ hr'
  · refine absurd ?_ hforeign.not_isPrefixOf
    rw [List.isPrefixOf_iff_prefix]
    exact ⟨Key.ofSegments [.text r.name], (Key.ofSegments_append [.text tag] _).symm⟩

/-- The record in a row, with its name. -/
def named? (f : Codec) (row : Bytes × Bytes) : Option (String × Record) :=
  match f.decode row.2 with
  | .error _ => none
  | .ok r => if key r.name = row.1 then some (r.name, r) else none

theorem named?_eq_some_iff {row : Bytes × Bytes} {name : String} :
    named? f row = some (name, r) ↔
      r.name = name ∧ key name = row.1 ∧ f.decode row.2 = .ok r := by
  unfold named?
  constructor
  · intro h
    split at h
    · cases h
    · next r' hd =>
      split at h
      · next hk =>
        cases h
        exact ⟨rfl, hk, hd⟩
      · cases h
  · rintro ⟨rfl, hk, hd⟩
    simp only [hd, if_pos hk]

/-- The records that rows hold. -/
def roster (f : Codec) (rows : Std.ExtTreeMap Bytes Bytes) : Roster :=
  Std.ExtTreeMap.ofList (rows.toList.filterMap (named? f))

theorem getElem?_roster_eq_some_iff {name : String} :
    (roster f rows)[name]? = some r ↔ r.name = name ∧ Holds f rows r := by
  have hmem : ∀ e, e ∈ rows.toList.filterMap (named? f) ↔
      e.2.name = e.1 ∧ Holds f rows e.2 := by
    rintro ⟨name, r⟩
    simp only [List.mem_filterMap, named?_eq_some_iff, Holds]
    constructor
    · rintro ⟨row, hrow, rfl, hk, hd⟩
      exact ⟨rfl, row.2, hk ▸ Std.ExtTreeMap.mem_toList_iff_getElem?_eq_some.1 hrow, hd⟩
    · rintro ⟨rfl, value, hv, hd⟩
      exact ⟨(key r.name, value), Std.ExtTreeMap.mem_toList_iff_getElem?_eq_some.2 hv, rfl, rfl, hd⟩
  have hdistinct : (rows.toList.filterMap (named? f)).Pairwise
      fun a b => ¬ compare a.1 b.1 = .eq := by
    refine List.pairwise_filterMap.2 (rows.ordered_keys_toList.imp ?_)
    rintro row row' hlt ⟨name, r⟩ he ⟨name', r'⟩ he' heq
    obtain rfl : name = name' := Std.LawfulEqCmp.eq_of_compare heq
    have hsame : row.1 = row'.1 :=
      (named?_eq_some_iff.1 he).2.1.symm.trans (named?_eq_some_iff.1 he').2.1
    rw [hsame, Std.ReflOrd.compare_self] at hlt
    cases hlt
  constructor
  · intro h
    have hmem' : name ∈ roster f rows := Std.ExtTreeMap.mem_iff_isSome_getElem?.2 (by simp [h])
    rw [roster, Std.ExtTreeMap.mem_ofList, List.contains_iff_mem, List.mem_map] at hmem'
    obtain ⟨⟨name', r'⟩, he, rfl⟩ := hmem'
    have hget : (roster f rows)[name']? = some r' :=
      Std.ExtTreeMap.getElem?_ofList_of_mem (Std.ReflCmp.compare_self) hdistinct he
    obtain rfl : r' = r := Option.some.inj (hget.symm.trans h)
    exact (hmem _).1 he
  · rintro ⟨rfl, hr⟩
    exact Std.ExtTreeMap.getElem?_ofList_of_mem Std.ReflCmp.compare_self hdistinct
      ((hmem (r.name, r)).2 ⟨rfl, hr⟩)

theorem Kept.storedIn_roster (h : Kept f rows) : (roster f rows).StoredIn f rows where
  row id := by
    cases hv : rows[key id.name]? with
    | none =>
      cases hm : (roster f rows)[id.name]? with
      | none => rfl
      | some r =>
        obtain ⟨hname, value, hv', -⟩ := getElem?_roster_eq_some_iff.1 hm
        rw [hname, hv] at hv'
        cases hv'
    | some value =>
      obtain ⟨r, hr, hname, rfl⟩ := h.of_key hv
      have hm : (roster f rows)[id.name]? = some r :=
        getElem?_roster_eq_some_iff.2 ⟨hname, f.stored r, by rw [hname, hv], hr.readable.decode_eq⟩
      rw [hm, Option.map_some]
  key k hk hp := by
    obtain ⟨value, hv⟩ := Option.isSome_iff_exists.1 (Std.ExtTreeMap.mem_iff_isSome_getElem?.1 hk)
    rcases h k value hv with ⟨r, hr, rfl, -⟩ | hforeign
    · obtain ⟨id, hid⟩ := hr.named
      exact ⟨id, by rw [hid]⟩
    · exact absurd hp hforeign.not_isPrefixOf
  name name r hm := by
    obtain ⟨rfl, hr⟩ := getElem?_roster_eq_some_iff.1 hm
    exact ⟨rfl, (h.storable hr).named⟩
  readable name r hm := (h.storable (getElem?_roster_eq_some_iff.1 hm).2).readable

/-! ## Histories -/

/-- Does the query settle which record there is of a name? -/
def Query.Settles (name : String) : Query → Prop
  | .create r => r.name = name
  | .delete id => id.name = name
  | .get _ | .has _ | .list => False

/-- Is the record there after what was done?  It was created and no record of its name was created
or deleted since, or it was there before and none ever was. -/
def Lives (f : Codec) (rows : Std.ExtTreeMap Bytes Bytes) (done : List Query) (r : Record) :
    Prop :=
  (∃ front back, done = front ++ .create r :: back ∧ ∀ q ∈ back, ¬ q.Settles r.name) ∨
    (Holds f rows r ∧ ∀ q ∈ done, ¬ q.Settles r.name)

/-- Is this the answer to the query after what was done? -/
def Answers (f : Codec) (rows : Std.ExtTreeMap Bytes Bytes) (done : List Query) (reply : Reply) :
    Query → Prop
  | .create _ => reply = .done
  | .delete _ => reply = .done
  | .get id => ∃ found, reply = .record found ∧
      ∀ r, found = some r ↔ r.name = id.name ∧ Lives f rows done r
  | .has id => ∃ known, reply = .known known ∧
      (known = true ↔ ∃ r : Record, r.name = id.name ∧ Lives f rows done r)
  | .list => ∃ rs, reply = .records rs ∧ (∀ r, r ∈ rs ↔ Lives f rows done r) ∧
      rs.Pairwise fun a b => compare a.name b.name = .lt

theorem lives_nil : Lives f rows [] r ↔ Holds f rows r := by
  simp [Lives]

/-- One more query creates a record, or leaves those that it does not settle. -/
theorem lives_concat_iff {done : List Query} {q : Query} :
    Lives f rows (done ++ [q]) r ↔
      q = .create r ∨ (Lives f rows done r ∧ ¬ q.Settles r.name) := by
  constructor
  · rintro (⟨front, back, e, hback⟩ | ⟨hr, hdone⟩)
    · rcases back.eq_nil_or_concat' with rfl | ⟨back, last, rfl⟩
      · exact .inl (List.cons.inj (List.append_inj' e rfl).2).1
      · rw [← List.cons_append, ← List.append_assoc] at e
        obtain ⟨rfl, e⟩ := List.append_inj' e rfl
        obtain rfl : q = last := by simpa using e
        exact .inr ⟨.inl ⟨front, back, rfl, fun q hq => hback q (by simp [hq])⟩,
          hback _ (by simp)⟩
    · exact .inr ⟨.inr ⟨hr, fun q hq => hdone q (by simp [hq])⟩, hdone q (by simp)⟩
  · rintro (rfl | ⟨⟨front, back, rfl, hback⟩ | ⟨hr, hdone⟩, hq⟩)
    · exact .inl ⟨done, [], rfl, by simp⟩
    · refine .inl ⟨front, back ++ [q], by simp, ?_⟩
      rw [List.forall_mem_append]
      exact ⟨hback, by simpa using hq⟩
    · refine .inr ⟨hr, ?_⟩
      rw [List.forall_mem_append]
      exact ⟨hdone, by simpa using hq⟩

/-- The overlay shows a roster: the records that live after what was done.  Rows with other tags are
as they were. -/
structure Keeps (f : Codec) (rows : Std.ExtTreeMap Bytes Bytes) (tx : Transaction)
    (done : List Query) (x : Overlay) (m : Roster) : Prop where
  tx : x.tx = some tx
  stored : m.StoredIn f (x.view rows)
  lives : ∀ name r, m[name]? = some r ↔ r.name = name ∧ Lives f rows done r
  others : ∀ k, ¬ (Key.ofTag tag).isPrefixOf k → (x.view rows)[k]? = rows[k]?

namespace Keeps

variable {tx : Transaction} {done : List Query} {x : Overlay} {t : Table} {m : Roster}

theorem start (h : Kept f rows) (id : TableId) (tx : Transaction) :
    Keeps f rows tx [] { Overlay.ofTable id with tx := some tx } (roster f rows) := by
  have hview : Overlay.view { Overlay.ofTable id with tx := some tx } rows = rows :=
    (Overlay.matches_start id tx rows).rows
  refine ⟨rfl, ?_, fun name r => ?_, fun k _ => by rw [hview]⟩
  · rw [hview]
    exact h.storedIn_roster
  · rw [getElem?_roster_eq_some_iff, lives_nil]

/-- A query that settles nothing leaves the records as they are. -/
theorem of_not_settles (h : Keeps f rows tx done x m) {q : Query} (hq : ∀ name, ¬ q.Settles name)
    (hcreate : ∀ r, q ≠ .create r) : Keeps f rows tx (done ++ [q]) x m where
  tx := h.tx
  stored := h.stored
  lives name r := by
    rw [h.lives, lives_concat_iff, or_iff_right (hcreate r), and_iff_left (hq r.name)]
  others := h.others

theorem create (h : Keeps f rows tx done x m) (hr : Storable f r) (t : Table) :
    ∃ y m', Rows.perform f (.create r) x t = .ok (.done, y) ∧
      Keeps f rows tx (done ++ [.create r]) y m' := by
  obtain ⟨id, hid⟩ := hr.named
  obtain ⟨y, hy, htx, hview⟩ := Overlay.exists_write_view h.tx rows (key r.name) (f.stored r)
  refine ⟨y, m.insert r.name r, ?_, htx, ?_, ?_, ?_⟩
  · simp only [perform, Rows.create, hr.readable.encode_eq, hy]
    rfl
  · rw [hview]
    exact h.stored.insert hid hr.readable
  · intro name r'
    rw [lives_concat_iff, Std.ExtTreeMap.getElem?_insert, Query.create.injEq, Query.Settles]
    by_cases e : r.name = name
    · subst e
      simp only [Std.ReflCmp.compare_self, if_true, Option.some.injEq]
      constructor
      · rintro rfl
        exact ⟨rfl, .inl rfl⟩
      · rintro ⟨e, rfl | ⟨-, hne⟩⟩
        · rfl
        · exact absurd e.symm hne
    · rw [if_neg fun e' => e (Std.LawfulEqCmp.eq_of_compare e'), h.lives]
      constructor
      · rintro ⟨rfl, hl⟩
        exact ⟨rfl, .inr ⟨hl, e⟩⟩
      · rintro ⟨rfl, rfl | ⟨hl, -⟩⟩
        · exact absurd rfl e
        · exact ⟨rfl, hl⟩
  · intro k hk
    have hne : key r.name ≠ k := by
      rintro rfl
      exact hk (hid ▸ ofTag_isPrefixOf_key id)
    rw [hview, Table.getElem?_applyWrite, if_neg hne, h.others k hk]

theorem delete (h : Keeps f rows tx done x m) (id : Id) (ht : t.IsSeenAs tx rows) :
    ∃ y m', Rows.perform f (.delete id) x t = .ok (.done, y) ∧
      Keeps f rows tx (done ++ [.delete id]) y m' := by
  obtain ⟨y, hy, htx, hview⟩ := Overlay.exists_deleteAll_view h.tx ht (key id.name)
  rw [h.stored.filter_eq id] at hview
  refine ⟨y, m.erase id.name, by rw [perform, Rows.delete, hy]; rfl, htx, ?_, ?_, ?_⟩
  · rw [hview]
    exact h.stored.erase id
  · intro name r
    rw [lives_concat_iff, or_iff_right (by simp), Std.ExtTreeMap.getElem?_erase, Query.Settles]
    by_cases e : id.name = name
    · subst e
      simp only [Std.ReflCmp.compare_self, if_true, reduceCtorEq, false_iff]
      rintro ⟨e, -, hne⟩
      exact hne e.symm
    · rw [if_neg fun e' => e (Std.LawfulEqCmp.eq_of_compare e'), h.lives]
      constructor
      · rintro ⟨rfl, hl⟩
        exact ⟨rfl, hl, e⟩
      · rintro ⟨rfl, hl, -⟩
        exact ⟨rfl, hl⟩
  · intro k hk
    have hne : key id.name ≠ k := by
      rintro rfl
      exact hk (ofTag_isPrefixOf_key id)
    rw [hview, Table.getElem?_applyWrite, if_neg hne, h.others k hk]

/-- Every query is answered from what was done before it. -/
theorem perform (h : Keeps f rows tx done x m) (q : Query) (hq : ∀ r, q = .create r → Storable f r)
    (ht : t.IsSeenAs tx rows) :
    ∃ reply y m', Rows.perform f q x t = .ok (reply, y) ∧ Answers f rows done reply q ∧
      Keeps f rows tx (done ++ [q]) y m' := by
  have hget := h.stored.get_eq h.tx ht
  cases q with
  | create r =>
    obtain ⟨y, m', hy, hm⟩ := h.create (hq r rfl) t
    exact ⟨_, y, m', hy, rfl, hm⟩
  | delete id =>
    obtain ⟨y, m', hy, hm⟩ := h.delete id ht
    exact ⟨_, y, m', hy, rfl, hm⟩
  | get id =>
    refine ⟨_, x, m, by rw [Rows.perform, hget]; rfl, ⟨m[id.name]?, rfl, h.lives id.name⟩,
      h.of_not_settles (fun _ => not_false) fun _ => Query.noConfusion⟩
  | has id =>
    refine ⟨_, x, m, by rw [Rows.perform, exists?, hget]; rfl, ⟨m[id.name]?.isSome, rfl, ?_⟩,
      h.of_not_settles (fun _ => not_false) fun _ => Query.noConfusion⟩
    rw [Option.isSome_iff_exists]
    exact exists_congr (h.lives id.name)
  | list =>
    refine ⟨_, x, m, by rw [Rows.perform, h.stored.list_eq h.tx ht]; rfl,
      ⟨m.list, rfl, fun r => ?_, Roster.pairwise_list h.stored⟩,
      h.of_not_settles (fun _ => not_false) fun _ => Query.noConfusion⟩
    rw [Roster.mem_list_iff h.stored, h.lives, and_iff_right rfl]

theorem performAll {steps : List (Query × Table)} (h : Keeps f rows tx done x m)
    (hcreate : ∀ r, .create r ∈ steps.map (·.1) → Storable f r)
    (ht : ∀ s ∈ steps, s.2.IsSeenAs tx rows) :
    ∃ replies y m', Rows.performAll f steps x = .ok (replies, y) ∧
      replies.length = steps.length ∧
      (∀ front q back, steps.map (·.1) = front ++ q :: back → ∃ reply,
        replies[front.length]? = some reply ∧ Answers f rows (done ++ front) reply q) ∧
      Keeps f rows tx (done ++ steps.map (·.1)) y m' := by
  induction steps generalizing done x m with
  | nil => exact ⟨[], x, m, rfl, rfl, by simp, by simpa using h⟩
  | cons s steps ih =>
    obtain ⟨q, t⟩ := s
    obtain ⟨ht, hrest⟩ := List.forall_mem_cons.1 ht
    obtain ⟨reply, y, m', hy, hreply, hm⟩ :=
      h.perform q (fun r e => hcreate r (by simp [e])) ht
    obtain ⟨replies, z, m'', hz, hlength, hreplies, hm'⟩ :=
      ih hm (fun r hr => hcreate r (List.mem_cons_of_mem _ hr)) hrest
    refine ⟨reply :: replies, z, m'', ?_, congrArg (· + 1) hlength, ?_, by simpa using hm'⟩
    · rw [Rows.performAll, hy]
      dsimp only
      rw [hz]
      rfl
    · rintro (_ | ⟨p, front⟩) q' back e
      · obtain ⟨rfl, -⟩ := List.cons.inj e
        exact ⟨reply, rfl, by simpa using hreply⟩
      · obtain ⟨rfl, hsplit⟩ := List.cons.inj e
        obtain ⟨reply', hreply', ha⟩ := hreplies front q' back hsplit
        exact ⟨reply', by simpa using hreply', by simpa using ha⟩

end Keeps

/-- In a transaction, every query about records is answered, and the answer is known from what was
done before.  There is one record of a name: the last that was created under it, unless one of that
name was deleted since; lists are in the order of the names.  Rows with other tags are not touched.
-/
theorem answers_of_history (id : TableId) {tx : Transaction} (hrows : Kept f rows)
    {steps : List (Query × Table)} (hcreate : ∀ r, .create r ∈ steps.map (·.1) → Storable f r)
    (ht : ∀ s ∈ steps, s.2.IsSeenAs tx rows) :
    ∃ x y replies, (∀ t, (Overlay.ofTable id).start t tx = .ok x) ∧
      performAll f steps x = .ok (replies, y) ∧ replies.length = steps.length ∧
      (∀ front q back, steps.map (·.1) = front ++ q :: back → ∃ reply,
        replies[front.length]? = some reply ∧ Answers f rows front reply q) ∧
      ∀ (t : Table) (k : Bytes), t.IsSeenAs tx rows → IsForeign k → y.read t k = .ok rows[k]? := by
  obtain ⟨replies, y, m, hy, hlength, hreplies, hm⟩ :=
    (Keeps.start hrows id tx).performAll hcreate ht
  refine ⟨_, y, replies, fun _ => rfl, hy, hlength, fun front q back e => ?_, fun t k ht hk => ?_⟩
  · simpa using hreplies front q back e
  · rw [Overlay.read_eq hm.tx fun key _ => ht key, hm.others k hk.not_isPrefixOf]

/-- A record is deleted beside one whose name goes on from its own, and beside a row whose tag goes
on from that of records. -/
theorem answers_of_history_beside_prefixes :
    ∃ (rows : Std.ExtTreeMap Bytes Bytes) (t : Table) (tx : Transaction) (a ab : Id) (k : Bytes)
      (x y : Overlay) (replies : List Reply),
      Kept Format.json rows ∧ t.IsSeenAs tx rows ∧ IsForeign k ∧
      Holds Format.json rows (.ofName "a") ∧
      performAll Format.json
          [(.create (.ofName "ab"), t), (.delete a, t), (.get a, t), (.get ab, t)] x =
        .ok (replies, y) ∧
      replies[2]? = some (.record none) ∧ replies[3]? = some (.record (some (.ofName "ab"))) ∧
      y.read t k = .ok (some [1]) := by
  let a : Id := ⟨"a", by decide +kernel⟩
  let ab : Id := ⟨"ab", by decide +kernel⟩
  let k := Key.ofSegments [.text "namespaces", .text "a"]
  let rows : Std.ExtTreeMap Bytes Bytes :=
    ((∅ : Std.ExtTreeMap Bytes Bytes).insert k [1]).insert (key "a")
      (Format.json.sampleCodec.stored (.ofName "a"))
  have ha : Storable Format.json (.ofName "a") := ⟨⟨a, rfl⟩, by decide +kernel⟩
  have hab : Storable Format.json (.ofName "ab") := ⟨⟨ab, rfl⟩, by decide +kernel⟩
  have hk : IsForeign k := ⟨"namespaces", [.text "a"], rfl, by decide, by decide⟩
  have hne : key "a" ≠ k := by decide +kernel
  have hrows : Kept Format.json rows := by
    intro other value hv
    simp only [rows, Std.ExtTreeMap.getElem?_insert, Std.LawfulEqCmp.compare_eq_iff_eq] at hv
    split at hv
    · next e => exact .inl ⟨.ofName "a", ha, e.symm, Option.some.inj hv ▸ ha.readable.encode_eq⟩
    · split at hv
      · next e => exact .inr (e ▸ hk)
      · simp at hv
  let tx : Transaction := ⟨5, 4, [], .active⟩
  let t := Table.ofRows rows
  have ht : t.IsSeenAs tx rows := Table.get_ofRows rows tx
  let steps : List (Query × Table) :=
    [(.create (.ofName "ab"), t), (.delete a, t), (.get a, t), (.get ab, t)]
  have hcreate : ∀ r, .create r ∈ steps.map (·.1) → Storable Format.json r := by simp [steps, hab]
  have hsteps : ∀ s ∈ steps, s.2.IsSeenAs tx rows := by simp [steps, ht]
  obtain ⟨x, y, replies, -, hy, -, hreplies, hforeign⟩ := answers_of_history 0 hrows hcreate hsteps
  refine ⟨rows, t, tx, a, ab, k, x, y, replies, hrows, ht, hk,
    ⟨_, by simp [rows, Record.ofName], ha.readable.decode_eq⟩, hy, ?_, ?_, ?_⟩
  · obtain ⟨_, hreply, found, rfl, hfound⟩ :=
      hreplies [.create (.ofName "ab"), .delete a] (.get a) [.get ab] rfl
    obtain rfl : found = none := by
      refine Option.eq_none_iff_forall_ne_some.2 fun r hr => ?_
      obtain ⟨hname, hl⟩ := (hfound r).1 hr
      have hl : Lives Format.json rows ([.create (.ofName "ab")] ++ [.delete a]) r := hl
      rcases lives_concat_iff.1 hl with h | ⟨-, h⟩
      · cases h
      · exact h hname.symm
    exact hreply
  · obtain ⟨_, hreply, found, rfl, hfound⟩ :=
      hreplies [.create (.ofName "ab"), .delete a, .get a] (.get ab) [] rfl
    have hl : Lives Format.json rows [.create (.ofName "ab"), .delete a, .get a] (.ofName "ab") :=
      .inl ⟨[], [.delete a, .get a], rfl, by simp [Query.Settles, Record.ofName, a]⟩
    rw [(hfound (.ofName "ab")).2 ⟨rfl, hl⟩] at hreply
    exact hreply
  · have hother : rows[k]? = some [1] := by
      simp only [rows, Std.ExtTreeMap.getElem?_insert, Std.LawfulEqCmp.compare_eq_iff_eq, hne,
        if_false, if_true]
    rw [hforeign t k ht hk, hother]

end Rows

end NamespaceCatalog
