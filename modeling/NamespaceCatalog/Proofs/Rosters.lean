import NamespaceCatalog.Catalog.Roster
import NamespaceCatalog.Proofs.Course
import NamespaceCatalog.Proofs.Keys

/-!
# Rosters in rows

`Roster.StoredIn` says that the rows of a table hold the records of a roster.  The course of an
operation answers at such rows as the roster does (`StoredIn.run_course`), and it writes at most one
row, after which the rows hold the next roster (`StoredIn.serve`).  What it writes depends on no
record but the one it writes (`Operation.of_write?`).
-/

namespace NamespaceCatalog

namespace Roster

/-- The answers to operations, one after the other. -/
def answers : List Operation → Roster → List (Except Error Outcome)
  | [], _ => []
  | op :: ops, m => (serve op m).1 :: answers ops (serve op m).2

/-- The roster after operations. -/
def after (ops : List Operation) (m : Roster) : Roster := ops.foldl (fun m op => (serve op m).2) m

theorem answers_append (ops later : List Operation) (m : Roster) :
    answers (ops ++ later) m = answers ops m ++ answers later (after ops m) := by
  induction ops generalizing m with
  | nil => rfl
  | cons op ops ih => exact congrArg (_ :: ·) (ih _)

theorem after_append (ops later : List Operation) (m : Roster) :
    after (ops ++ later) m = after later (after ops m) :=
  List.foldl_append

theorem list_eq (m : Roster) : m.list = m.toList.map (·.2) := by
  rcases m with ⟨m⟩
  induction m with
  | mk m =>
    show m.inner.values = (Std.DTreeMap.Internal.Impl.Const.toList m.inner).map (·.2)
    rw [Std.DTreeMap.Internal.Impl.values_eq_map_snd,
      Std.DTreeMap.Internal.Impl.Const.toList_eq_toListModel_map, List.map_map]
    rfl

/-- The rows hold the records of the roster.  There may be other rows, if they are not where records
are kept. -/
structure StoredIn (m : Roster) (f : Codec) (rows : Std.ExtTreeMap Bytes Bytes) : Prop where
  row : ∀ id : Id, rows[Rows.key id.name]? = m[id.name]?.map f.stored
  key : ∀ key ∈ rows, (Key.ofTag Rows.tag).isPrefixOf key → ∃ id : Id, Rows.key id.name = key
  name : ∀ (name : String) (r : Record), m[name]? = some r →
    r.name = name ∧ ∃ id : Id, id.name = name
  readable : ∀ (name : String) (r : Record), m[name]? = some r → f.RoundTrips r

end Roster

namespace Operation

/-- Can the record in the operation be read after it was written? -/
def Readable (f : Codec) : Operation → Prop
  | .create r | .update r => f.RoundTrips r
  | _ => True

/-- The row that the operation writes if the records are those of a roster. -/
def write? (f : Codec) (m : Roster) : Operation → Option RowWrite
  | .create r => if r.name ∈ m then none else some (Rows.key r.name, some (f.stored r))
  | .update r => if r.name ∈ m then some (Rows.key r.name, some (f.stored r)) else none
  | .delete name => if name ∈ m then some (Rows.key name, none) else none
  | .get _ | .list => none

end Operation

theorem Id.name_of_ofName {name : String} {id : Id} (h : ofName name = .ok id) : id.name = name := by
  unfold ofName at h
  split at h
  · cases h
    rfl
  · cases h

namespace Roster.StoredIn

variable {m : Roster} {f : Codec} {rows : Std.ExtTreeMap Bytes Bytes} {x : Overlay} {t : Table}
  {tx : Transaction}

theorem empty (f : Codec) : (∅ : Roster).StoredIn f ∅ where
  row id := by simp
  key key hk := absurd hk Std.ExtTreeMap.not_mem_empty
  name name r hm := by simp at hm
  readable name r hm := by simp at hm

/-! ## Reading records -/

theorem get_eq (h : m.StoredIn f (x.view rows)) (hx : x.tx = some tx)
    (ht : ∀ key, t.get tx key = rows[key]?) (id : Id) : Rows.get f id x t = .ok m[id.name]? := by
  rw [Rows.get, Overlay.read_eq hx fun key _ => ht key, h.row id]
  cases hm : m[id.name]? with
  | none => rfl
  | some r =>
    simp only [Option.map_some, (h.readable _ r hm).decode_eq]
    rfl

/-- There is nothing under the key of a record but the record. -/
theorem eq_key_of_isPrefixOf (h : m.StoredIn f rows) {id : Id} {key : Bytes} (hk : key ∈ rows)
    (hp : (Rows.key id.name).isPrefixOf key) : Rows.key id.name = key := by
  obtain ⟨other, rfl⟩ := h.key key hk (List.isPrefixOf_iff_prefix.2
    ((List.isPrefixOf_iff_prefix.1 (Rows.ofTag_isPrefixOf_key id)).trans
      (List.isPrefixOf_iff_prefix.1 hp)))
  rw [Rows.isPrefixOf_key_iff.1 hp]

/-- The rows of records, in the order of the names. -/
theorem toList_filter (h : m.StoredIn f rows) :
    (rows.filter fun key _ => (Key.ofTag Rows.tag).isPrefixOf key).toList =
      m.toList.map fun r => (Rows.key r.1, f.stored r.2) := by
  have hmem : ∀ r : String × Record, r ∈ m.toList → m[r.1]? = some r.2 := fun r =>
    Std.ExtTreeMap.mem_toList_iff_getElem?_eq_some.1
  have hsorted := (rows.filter fun key _ => (Key.ofTag Rows.tag).isPrefixOf key).ordered_keys_toList
  have hsorted' : (m.toList.map fun r => (Rows.key r.1, f.stored r.2)).Pairwise
      fun a b => compare a.1 b.1 = .lt := by
    refine List.pairwise_map.2 (m.ordered_keys_toList.imp_of_mem fun {a b} ha hb hab => ?_)
    obtain ⟨-, id, hid⟩ := h.name a.1 a.2 (hmem a ha)
    obtain ⟨-, id', hid'⟩ := h.name b.1 b.2 (hmem b hb)
    rw [← hid, ← hid']
    exact Rows.compare_key_lt (by rwa [hid, hid'])
  refine hsorted.eq_of_mem_iff hsorted' fun row => ?_
  obtain ⟨key, value⟩ := row
  rw [Std.ExtTreeMap.mem_toList_iff_getElem?_eq_some, Overlay.getElem?_filter_start,
    List.mem_map]
  constructor
  · intro hrow
    split at hrow
    · next hp =>
      obtain ⟨id, rfl⟩ := h.key key (Std.ExtTreeMap.mem_iff_isSome_getElem?.2 (by simp [hrow])) hp
      rw [h.row id] at hrow
      obtain ⟨r, hr, rfl⟩ := Option.map_eq_some_iff.1 hrow
      exact ⟨(id.name, r), Std.ExtTreeMap.mem_toList_iff_getElem?_eq_some.2 hr, rfl⟩
    · cases hrow
  · rintro ⟨r, hr, e⟩
    cases e
    obtain ⟨-, id, hid⟩ := h.name r.1 r.2 (hmem r hr)
    rw [← hid, if_pos (Rows.ofTag_isPrefixOf_key id), h.row id, hid, hmem r hr]
    rfl

theorem list_eq (h : m.StoredIn f (x.view rows)) (hx : x.tx = some tx)
    (ht : ∀ key, t.get tx key = rows[key]?) : Rows.list f x t = .ok m.list := by
  have hrows : ∀ l : List (String × Record), (∀ r ∈ l, m[r.1]? = some r.2) →
      Rows.ofRows f (l.map fun r => (Rows.key r.1, f.stored r.2)) = .ok (l.map (·.2)) := by
    intro l hl
    induction l with
    | nil => rfl
    | cons r l ih =>
      have hr := hl r List.mem_cons_self
      have hrow : Rows.ofRow f (Rows.key r.1, f.stored r.2) = .ok r.2 := by
        simp only [Rows.ofRow, Rows.nameOfKey_key, (h.readable _ _ hr).decode_eq,
          if_pos (h.name _ _ hr).1]
      rw [List.map_cons, Rows.ofRows, hrow, ih fun r' hr' => hl r' (List.mem_cons_of_mem r hr')]
      rfl
  rw [Rows.list, Overlay.scan_eq hx fun key _ => ht key, h.toList_filter, Roster.list_eq]
  exact hrows m.toList fun r => Std.ExtTreeMap.mem_toList_iff_getElem?_eq_some.1

/-! ## Writing records -/

theorem insert (h : m.StoredIn f rows) {r : Record} {id : Id} (hid : id.name = r.name)
    (hr : f.RoundTrips r) :
    Roster.StoredIn (m.insert r.name r) f
      (Table.applyWrite rows (Rows.key r.name, some (f.stored r))) where
  row other := by
    rw [Table.getElem?_applyWrite, Std.ExtTreeMap.getElem?_insert]
    by_cases e : r.name = other.name
    · simp [e]
    · have hkey : Rows.key r.name ≠ Rows.key other.name := fun e' => e (Rows.key_injective e')
      simp only [if_neg hkey, Std.LawfulEqCmp.compare_eq_iff_eq, e, if_false]
      exact h.row other
  key key hk hp := by
    rw [Std.ExtTreeMap.mem_iff_isSome_getElem?, Table.getElem?_applyWrite] at hk
    split at hk
    · next e => exact ⟨id, by rw [hid, ← e]⟩
    · exact h.key key (Std.ExtTreeMap.mem_iff_isSome_getElem?.2 hk) hp
  name name r' hm := by
    rw [Std.ExtTreeMap.getElem?_insert] at hm
    split at hm
    · next e =>
      cases hm
      have e := Std.LawfulEqCmp.eq_of_compare e
      exact ⟨e, id, hid.trans e⟩
    · exact h.name name r' hm
  readable name r' hm := by
    rw [Std.ExtTreeMap.getElem?_insert] at hm
    split at hm
    · cases hm
      exact hr
    · exact h.readable name r' hm

theorem erase (h : m.StoredIn f rows) (id : Id) :
    Roster.StoredIn (m.erase id.name) f
      (Table.applyWrite rows (Rows.key id.name, none)) where
  row other := by
    rw [Table.getElem?_applyWrite, Std.ExtTreeMap.getElem?_erase]
    by_cases e : id.name = other.name
    · simp [e]
    · have hkey : Rows.key id.name ≠ Rows.key other.name := fun e' => e (Rows.key_injective e')
      simp only [if_neg hkey, Std.LawfulEqCmp.compare_eq_iff_eq, e, if_false]
      exact h.row other
  key key hk hp := by
    rw [Std.ExtTreeMap.mem_iff_isSome_getElem?, Table.getElem?_applyWrite] at hk
    split at hk
    · cases hk
    · exact h.key key (Std.ExtTreeMap.mem_iff_isSome_getElem?.2 hk) hp
  name name r' hm := by
    rw [Std.ExtTreeMap.getElem?_erase] at hm
    split at hm
    · cases hm
    · exact h.name name r' hm
  readable name r' hm := by
    rw [Std.ExtTreeMap.getElem?_erase] at hm
    split at hm
    · cases hm
    · exact h.readable name r' hm

/-- A deletion of what is there marks one row. -/
theorem deleteAll_eq (h : m.StoredIn f rows) (hx : x.tx = some tx) (hb : x.buffer = ∅)
    (ht : ∀ key, t.get tx key = rows[key]?) {id : Id} {r : Record} (hm : m[id.name]? = some r) :
    x.deleteAll t (Rows.key id.name) = .ok { x with
      buffer := (∅ : Std.ExtTreeMap Bytes (Option Bytes)).insert (Rows.key id.name) none } := by
  obtain ⟨buffer, hdelete, hbuffer⟩ := Overlay.deleteAll_eq hx t (Rows.key id.name)
  suffices buffer = (∅ : Std.ExtTreeMap Bytes (Option Bytes)).insert (Rows.key id.name) none by
    rw [hdelete, this]
  refine Std.ExtTreeMap.ext_getElem? fun key => ?_
  have hunder : ((Rows.key id.name).isPrefixOf key ∧ (t.get tx key ≠ none ∨ key ∈ x.buffer)) ↔
      Rows.key id.name = key := by
    rw [ht, hb]
    constructor
    · rintro ⟨hp, hk | hk⟩
      · exact h.eq_key_of_isPrefixOf
          (Std.ExtTreeMap.mem_iff_isSome_getElem?.2 (Option.isSome_iff_ne_none.2 hk)) hp
      · exact absurd hk Std.ExtTreeMap.not_mem_empty
    · rintro rfl
      exact ⟨Rows.isPrefixOf_key_iff.2 rfl, .inl (by simp [h.row id, hm])⟩
  simp only [hbuffer, hunder, Std.ExtTreeMap.getElem?_insert, Std.LawfulEqCmp.compare_eq_iff_eq]
  rw [hb]

/-! ## Whole operations -/

/-- The row that an operation writes turns the rows of one roster into those of the next. -/
theorem serve (h : m.StoredIn f rows) {op : Operation} (hop : op.Readable f) {c : Course Outcome}
    (hc : op.course f = .ok c) :
    (Roster.serve op m).2.StoredIn f ((op.write? f m).toList.foldl Table.applyWrite rows) := by
  cases op with
  | create r =>
    obtain ⟨id, hr, -⟩ := map_eq_ok_iff.1 hc
    simp only [Roster.serve, hr, Roster.create, Operation.write?,
      Std.ExtTreeMap.mem_iff_isSome_getElem?]
    cases m[r.name]? with
    | some old => exact h
    | none => exact h.insert (Id.name_of_ofName hr) hop
  | update r =>
    obtain ⟨id, hr, -⟩ := map_eq_ok_iff.1 hc
    simp only [Roster.serve, hr, Roster.update, Operation.write?, Std.ExtTreeMap.contains_iff_mem]
    split
    · exact h.insert (Id.name_of_ofName hr) hop
    · exact h
  | get name =>
    obtain ⟨id, hr, -⟩ := map_eq_ok_iff.1 hc
    simp only [Roster.serve, hr]
    exact h
  | delete name =>
    obtain ⟨id, hr, -⟩ := map_eq_ok_iff.1 hc
    obtain rfl := Id.name_of_ofName hr
    simp only [Roster.serve, hr, Roster.delete, Operation.write?]
    split
    · exact h.erase id
    · next hm =>
      have herase : m.erase id.name = m := Std.ExtTreeMap.ext_getElem? fun name => by
        rw [Std.ExtTreeMap.getElem?_erase]
        split
        · next e =>
          rw [← Std.LawfulEqCmp.eq_of_compare e, Std.ExtTreeMap.getElem?_eq_none hm]
        · rfl
      rwa [herase]
  | list => exact h

/-- The course of an operation answers as the roster does, and writes the row it should. -/
theorem run_course (h : m.StoredIn f rows) {op : Operation} (hop : op.Readable f)
    {c : Course Outcome} (hc : op.course f = .ok c) (hx : x.tx = some tx) (hb : x.buffer = ∅)
    (ht : ∀ key, t.get tx key = rows[key]?) :
    ∃ outcome buffer, c.run x t = .ok (outcome, { x with buffer }) ∧
      (Roster.serve op m).1 = .ok outcome ∧ buffer.toList = (op.write? f m).toList := by
  have hview : m.StoredIn f (x.view rows) := by
    have : x.view rows = rows := by
      rw [Overlay.view, hb]
      rfl
    rwa [this]
  have hget := hview.get_eq hx ht
  have hwrite : ∀ key value, x.write key value =
      .ok { x with buffer := (∅ : Std.ExtTreeMap Bytes (Option Bytes)).insert key (some value) } := by
    intro key value
    rw [Overlay.write, Overlay.active, hx, hb]
  cases op with
  | create r =>
    obtain ⟨id, hr, rfl⟩ := map_eq_ok_iff.1 hc
    have hname := Id.name_of_ofName hr
    rw [Course.run_map, Operation.run_createCourse, Catalog.createRow, hget, hname]
    simp only [Roster.serve, hr, Roster.create, Operation.write?,
      Std.ExtTreeMap.mem_iff_isSome_getElem?]
    cases m[r.name]? with
    | some old => exact ⟨_, x.buffer, rfl, rfl, by rw [hb]; rfl⟩
    | none =>
      simp only [Rows.create, hop.encode_eq, hwrite]
      exact ⟨_, _, rfl, rfl, rfl⟩
  | update r =>
    obtain ⟨id, hr, rfl⟩ := map_eq_ok_iff.1 hc
    have hname := Id.name_of_ofName hr
    rw [Course.run_map, Operation.run_updateCourse, Catalog.updateRow, Rows.exists?, hget, hname]
    simp only [Roster.serve, hr, Operation.write?, Std.ExtTreeMap.mem_iff_isSome_getElem?,
      Except.map]
    cases m[r.name]? with
    | some old =>
      simp only [Option.isSome_some, Rows.create, hop.encode_eq, hwrite]
      exact ⟨_, _, rfl, rfl, rfl⟩
    | none => exact ⟨_, x.buffer, rfl, rfl, by rw [hb]; rfl⟩
  | get name =>
    obtain ⟨id, hr, rfl⟩ := map_eq_ok_iff.1 hc
    rw [Course.run_map, Course.run_get, hget]
    simp only [Roster.serve, hr]
    exact ⟨_, x.buffer, rfl, rfl, by rw [hb]; rfl⟩
  | delete name =>
    obtain ⟨id, hr, rfl⟩ := map_eq_ok_iff.1 hc
    obtain rfl := Id.name_of_ofName hr
    rw [Course.run_map, Operation.run_deleteCourse, Catalog.deleteRow, hget]
    simp only [Roster.serve, hr, Roster.delete, Operation.write?,
      Std.ExtTreeMap.mem_iff_isSome_getElem?]
    cases hm : m[id.name]? with
    | none => exact ⟨_, x.buffer, rfl, rfl, by rw [hb]; rfl⟩
    | some old =>
      rw [Rows.delete, h.deleteAll_eq hx hb ht hm]
      exact ⟨_, _, rfl, rfl, rfl⟩
  | list =>
    obtain rfl := Except.ok.inj hc
    rw [Course.run_map, Course.run_list, hview.list_eq hx ht]
    exact ⟨_, x.buffer, rfl, rfl, by rw [hb]; rfl⟩

end Roster.StoredIn

/-- What an operation that writes does depends only on the record it writes. -/
theorem Operation.of_write? {f : Codec} {m : Roster} {op : Operation} {c : Course Outcome}
    (hc : op.course f = .ok c) {w : RowWrite} (hw : op.write? f m = some w) :
    ∃ id : Id, w.1 = Rows.key id.name ∧ ∀ m' : Roster, m'[id.name]? = m[id.name]? →
      op.write? f m' = some w ∧ (Roster.serve op m').1 = (Roster.serve op m).1 := by
  cases op with
  | create r =>
    obtain ⟨id, hr, -⟩ := map_eq_ok_iff.1 hc
    have hname := Id.name_of_ofName hr
    simp only [write?, Std.ExtTreeMap.mem_iff_isSome_getElem?] at hw ⊢
    split at hw
    · cases hw
    · next hm =>
      cases hw
      refine ⟨id, by rw [hname], fun m' e => ?_⟩
      rw [hname] at e
      simp only [Roster.serve, hr, Roster.create, e, if_neg hm, true_and]
      cases m[r.name]? <;> rfl
  | update r =>
    obtain ⟨id, hr, -⟩ := map_eq_ok_iff.1 hc
    have hname := Id.name_of_ofName hr
    simp only [write?, Std.ExtTreeMap.mem_iff_isSome_getElem?] at hw ⊢
    split at hw
    · next hm =>
      cases hw
      refine ⟨id, by rw [hname], fun m' e => ?_⟩
      rw [hname] at e
      simp only [Roster.serve, hr, e, if_pos hm, true_and]
    · cases hw
  | delete name =>
    obtain ⟨id, hr, -⟩ := map_eq_ok_iff.1 hc
    obtain rfl := Id.name_of_ofName hr
    simp only [write?, Std.ExtTreeMap.mem_iff_isSome_getElem?] at hw ⊢
    split at hw
    · next hm =>
      cases hw
      refine ⟨id, rfl, fun m' e => ?_⟩
      simp only [Roster.serve, hr, Roster.delete, e, if_pos hm, true_and]
    · cases hw
  | get name => cases hw
  | list => cases hw

end NamespaceCatalog
