import Mathlib.Data.List.Nodup
import NamespaceCatalog.Record.Document

/-!
# Records come back from their documents

The document of a record has the shape of records (`Record.fits_toDocument`), and the record is read
from it again (`Record.ofDocument_toDocument`), which takes the settings that are overridden and no
other.

`Takes` is about bytes: a reader which is given written values one after the other, each with
anything after it, takes them all.  In which way the keys and values are set apart from each other
is left to a format.
-/

namespace NamespaceCatalog

/-! ## Members that were written -/

/-- Does a reader take the values that were written under the keys, and come from `s` to `s'`? -/
def Takes {σ : Type} (member : σ → String → Bytes → Option (σ × Bytes)) :
    List (String × Bytes) → σ → σ → Prop
  | [], s, s' => s = s'
  | (key, value) :: kvs, s, s' =>
    ∃ t, (∀ rest, member s key (value ++ rest) = some (t, rest)) ∧ Takes member kvs t s'

/-- What reads each of the documents takes them all, under their keys. -/
theorem exists_takes {write : Document → Option Bytes}
    (read : String → Bytes → Option (Document × Bytes)) {ms : List (String × Document)}
    (h : ∀ m ∈ ms, ∃ bs, write m.2 = some bs ∧ ∀ rest, read m.1 (bs ++ rest) = some (m.2, rest))
    (before : List (String × Document)) :
    ∃ kvs, ms.mapM (fun m => (write m.2).map (m.1, ·)) = some kvs ∧
      kvs.map (·.1) = ms.map (·.1) ∧
      Takes (fun ms key bs => (read key bs).map fun (d, rest) => ((key, d) :: ms, rest)) kvs before
        (ms.reverse ++ before) := by
  induction ms generalizing before with
  | nil => exact ⟨[], rfl, rfl, rfl⟩
  | cons m ms ih =>
    obtain ⟨⟨bs, hwrite, hread⟩, h⟩ := List.forall_mem_cons.1 h
    obtain ⟨kvs, hkvs, hkeys, htakes⟩ := ih h (m :: before)
    refine ⟨(m.1, bs) :: kvs, by simp [List.mapM_cons, hwrite, hkvs], by simp [hkeys],
      m :: before, fun rest => congrArg _ (hread rest), ?_⟩
    simpa using htakes

/-! ## Shapes -/

/-- A document that fits is a text, or the map of a structure. -/
theorem Document.Fits.text_or_map {levels : Nat} {shape : Shape} {d : Document}
    (h : d.Fits levels shape) :
    (∃ s, d = .text s) ∨ ∃ lower members, levels = lower + 1 ∧ d = .map members ∧
      members.length < UInt64.size ∧ ∀ m ∈ members, (Utf8.encode m.1).length ≤ keyLimit ∧
        ∃ part, shape.field? m.1 = some part ∧ m.2.Fits lower part := by
  unfold Fits at h
  split at h
  · next s => exact .inl ⟨s, rfl⟩
  · next lower fields members => exact .inr ⟨lower, members, rfl, rfl, h.2⟩
  · exact h.elim

namespace Fields

theorem lookup_map {φ : Type} (l : List φ) (label : φ → String) (shapeOf : φ → Shape)
    (key : String) :
    (l.map fun f => (label f, shapeOf f)).lookup key =
      (l.find? (label · = key)).map shapeOf := by
  induction l with
  | nil => rfl
  | cons f l ih =>
    rw [List.map_cons, List.lookup_cons, List.find?_cons, ih]
    by_cases e : label f = key
    · simp [e]
    · have e' : (key == label f) = false := beq_eq_false_iff_ne.2 (Ne.symm e)
      simp [e, e']

/-- Of a structure each field has its shape. -/
theorem field?_label {φ σ : Type} [DecidableEq φ] (x : Fields φ σ) (f : φ) :
    x.shape.field? (x.label f) = some (x.shapeOf f) := by
  have h := lookup_map x.all x.label x.shapeOf (x.label f)
  rwa [x.find_label] at h

end Fields

/-! ## Overrides -/

theorem Setting.name_injective : Function.Injective Setting.name := by
  intro s t h
  have hs := SettingsDraft.fields.find_label s
  rw [show SettingsDraft.fields.label s = SettingsDraft.fields.label t from h,
    SettingsDraft.fields.find_label t] at hs
  exact (Option.some.inj hs).symm

theorem Setting.length_name_le (s : Setting) : (Utf8.encode s.name).length ≤ keyLimit := by
  cases s <;> decide +kernel

namespace Overrides

theorem map_fst_toList (o : Overrides) :
    o.toList.map (·.1) = Setting.all.filter fun s => (o.get s).isSome := by
  unfold toList
  induction Setting.all with
  | nil => rfl
  | cons s l ih => cases h : o.get s <;> simp [h, ih]

theorem nodup_toList (o : Overrides) : (o.toList.map (·.1)).Nodup := by
  rw [map_fst_toList]
  exact List.Nodup.sublist List.filter_sublist (by decide)

/-- The overridden settings, once they are read, make the overrides again. -/
theorem finish_toList (o : Overrides) :
    SettingsDraft.finish (o.toList.map fun (s, v) => (s, some v)).reverse = o := by
  obtain ⟨_ | _, _ | _, _ | _, _ | _⟩ := o <;> rfl

theorem foldlM_putPair (l : List (Setting × String)) (d : SettingsDraft) :
    (l.map fun p => (p.1, Document.text p.2)).foldlM SettingsDraft.fields.putPair d =
      .ok ((l.map fun p => (p.1, some p.2)).reverse ++ d) := by
  induction l generalizing d with
  | nil => rfl
  | cons p l ih =>
    have hput : SettingsDraft.fields.putPair d (p.1, Document.text p.2) =
        .ok ((p.1, some p.2) :: d) := rfl
    rw [List.map_cons, List.foldlM_cons, hput]
    refine (ih _).trans ?_
    simp

theorem ofDocument_toDocument (o : Overrides) (field : String) :
    ofDocument field o.toDocument = .ok o := by
  have hmap : o.toDocument = .map ((o.toList.map fun p => (p.1, Document.text p.2)).map
      fun p => (SettingsDraft.fields.label p.1, p.2)) := by
    rw [toDocument, List.map_map]
    rfl
  have hnodup : ((o.toList.map fun p => (p.1, Document.text p.2)).map (·.1)).Nodup := by
    rw [List.map_map]
    exact o.nodup_toList
  rw [ofDocument, hmap, Fields.read_map _ _ hnodup fun _ _ => rfl, foldlM_putPair, List.append_nil]
  exact congrArg Except.ok o.finish_toList

theorem fits_toDocument (o : Overrides) (levels : Nat) :
    o.toDocument.Fits (levels + 1) SettingsDraft.fields.shape := by
  have hkeys : (o.toList.map fun p => (p.1.name, Document.text p.2)).map (·.1) =
      (o.toList.map (·.1)).map Setting.name := by
    simp
  refine ⟨hkeys ▸ o.nodup_toList.map Setting.name_injective, ?_, fun m hm => ?_⟩
  · rw [List.length_map]
    exact Nat.lt_of_le_of_lt (List.length_filterMap_le _ Setting.all) (by decide)
  · obtain ⟨⟨s, v⟩, -, rfl⟩ := List.mem_map.1 hm
    refine ⟨s.length_name_le, .text, ?_, by cases levels <;> trivial⟩
    exact SettingsDraft.fields.field?_label s

end Overrides

/-! ## Records -/

theorem Field.length_label_le (f : Field) : (Utf8.encode f.label).length ≤ keyLimit := by
  cases f <;> decide +kernel

namespace Record

/-- A record is read from its document. -/
theorem ofDocument_toDocument (r : Record) : ofDocument r.toDocument = .ok r := by
  have hread : Draft.fields.read "record" Draft.empty r.toDocument =
      [(Field.name, .text r.name), (Field.description, .text r.description),
        (Field.overrides, r.overrides.toDocument)].foldlM Draft.fields.putPair Draft.empty := by
    refine Fields.read_map Draft.fields "record" (s := Draft.empty)
      (l := [(Field.name, .text r.name), (Field.description, .text r.description),
        (Field.overrides, r.overrides.toDocument)]) (by simp) fun p hp => ?_
    obtain ⟨f, d⟩ := p
    cases f <;> rfl
  have hput : ∀ d : Draft, Draft.fields.putPair d (Field.overrides, r.overrides.toDocument) =
      .ok { d with overrides := some r.overrides } := fun d => by
    show (Overrides.ofDocument Field.overrides.label r.overrides.toDocument).map _ = _
    rw [Overrides.ofDocument_toDocument]
    rfl
  rw [ofDocument, hread]
  simp only [List.foldlM_cons, List.foldlM_nil, hput]
  rfl

/-- The document of a record has the shape of records. -/
theorem fits_toDocument (r : Record) : r.toDocument.Fits 2 shape := by
  have hkeys : (Field.all.map Field.label).Nodup := by decide +kernel
  refine ⟨hkeys, show 3 < UInt64.size by decide, fun m hm => ?_⟩
  simp only [List.mem_cons, List.not_mem_nil, or_false] at hm
  rcases hm with rfl | rfl | rfl
  · exact ⟨Field.name.length_label_le, _, Draft.fields.field?_label .name, trivial⟩
  · exact ⟨Field.description.length_label_le, _, Draft.fields.field?_label .description, trivial⟩
  · exact ⟨Field.overrides.length_label_le, _, Draft.fields.field?_label .overrides,
      r.overrides.fits_toDocument 0⟩

end Record

end NamespaceCatalog
