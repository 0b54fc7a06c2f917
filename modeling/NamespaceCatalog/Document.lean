import NamespaceCatalog.Text.Utf8

/-!
# Documents

A document is data without its bytes, as the library of a data format takes it to write it and gives
it when it is read.  A reader is told which structure is wanted (`Shape`), and passes over all else.
The libraries themselves are not part of this development: a `DataFormat` is any pair of a writer
and a reader.  What is relied on is that structures of texts come back as they were written
(`DataFormat.Keeps`).

`Fields` is how a structure is read from a document, by the names of its fields or, from a list, by
their order.
-/

namespace NamespaceCatalog

/-- Data without its bytes. -/
inductive Document
  | text (s : String)
  | null
  | list (items : List Document)
  | map (members : List (String × Document))
  /-- Data of any other kind. -/
  | other

/-- What is wanted of a document. -/
inductive Shape
  /-- A text or an absent value. -/
  | text
  | struct (fields : List (String × Shape))

namespace Shape

/-- The fields of a structure. -/
def fields : Shape → List (String × Shape)
  | text => []
  | struct fields => fields

/-- What is wanted under a key, if anything. -/
def field? (shape : Shape) (key : String) : Option Shape := shape.fields.lookup key

/-- What is wanted of the item number `i` of a list, if anything. -/
def item? (shape : Shape) (i : Nat) : Option Shape := shape.fields[i]?.map (·.2)

end Shape

/-- Why a document is not what it should be. -/
inductive DocumentFault
  | missing (field : String)
  | duplicate (field : String)
  /-- The document has not the kind that belongs to the given field or structure. -/
  | wrongKind (expected : String)
  | tooManyItems (count : Nat)
  deriving DecidableEq, Repr

/-- The fault as a sentence. -/
def DocumentFault.message : DocumentFault → String
  | missing field => "missing field `" ++ field ++ "`"
  | duplicate field => "duplicate field `" ++ field ++ "`"
  | wrongKind expected => "invalid type, expected " ++ expected
  | tooManyItems count => "invalid length " ++ toString count

/-- The greatest length of a key that every format can read, in bytes. -/
def keyLimit : Nat := 4096

namespace Document

/-- Is the document a text, or the map of a structure with at most so many levels below it?  Its
keys are distinct, short and wanted. -/
def Fits : (levels : Nat) → Shape → Document → Prop
  | _, .text, text _ => True
  | levels + 1, .struct fields, map members =>
    (members.map (·.1)).Nodup ∧ members.length < UInt64.size ∧
      ∀ m ∈ members, (Utf8.encode m.1).length ≤ keyLimit ∧
        ∃ shape, fields.lookup m.1 = some shape ∧ m.2.Fits levels shape
  | _, _, _ => False

/-- The text of a document, which belongs to the given field. -/
def text? (field : String) : Document → Except DocumentFault String
  | text s => .ok s
  | _ => .error (.wrongKind field)

/-- The text of a document or an absent value, which belongs to the given field. -/
def optional? (field : String) : Document → Except DocumentFault (Option String)
  | null => .ok none
  | d => (d.text? field).map some

end Document

/-- A library for a data format. -/
structure DataFormat where
  write : Document → Except String Bytes
  read : Shape → Bytes → Except String Document
  /-- The words for a document that is read, and refused. -/
  refuse : DocumentFault → String

/-- Do texts and structures of at most two levels come back as they were written? -/
def DataFormat.Keeps (lib : DataFormat) : Prop :=
  ∀ (shape : Shape) (d : Document), d.Fits 2 shape →
    ∃ bs, lib.write d = .ok bs ∧ lib.read shape bs = .ok d

/-! ## Structures -/

/-- How the fields of a structure are read, one by one. -/
structure Fields (φ σ : Type) [DecidableEq φ] where
  /-- The fields, in the order in which they are declared. -/
  all : List φ
  label : φ → String
  shapeOf : φ → Shape
  /-- Is the field read? -/
  has : σ → φ → Bool
  /-- Reads a field. -/
  put : σ → φ → Document → Except DocumentFault σ
  find_label : ∀ f, all.find? (label · = label f) = some f
  has_put : ∀ {s s' f d}, put s f d = .ok s' → ∀ g, has s' g = (has s g || decide (f = g))

namespace Fields

variable {φ σ : Type} [DecidableEq φ]

/-- The shape of the structure. -/
def shape (x : Fields φ σ) : Shape := .struct (x.all.map fun f => (x.label f, x.shapeOf f))

/-- Reads a member of a map.  One that is no field is passed over. -/
def take (x : Fields φ σ) (s : σ) (m : String × Document) : Except DocumentFault σ :=
  match x.all.find? (x.label · = m.1) with
  | none => .ok s
  | some f => if x.has s f then .error (.duplicate m.1) else x.put s f m.2

/-- Reads a field and its value. -/
def putPair (x : Fields φ σ) (s : σ) (p : φ × Document) : Except DocumentFault σ := x.put s p.1 p.2

/-- Reads a structure from a map or a list. -/
def read (x : Fields φ σ) (name : String) (s : σ) : Document → Except DocumentFault σ
  | .map members => members.foldlM x.take s
  | .list items =>
    if items.length ≤ x.all.length then (x.all.zip items).foldlM x.putPair s
    else .error (.tooManyItems items.length)
  | _ => .error (.wrongKind name)

/-- Of a map whose keys are distinct fields each one is read. -/
theorem read_map (x : Fields φ σ) (name : String) {s : σ} {l : List (φ × Document)}
    (hl : (l.map (·.1)).Nodup) (hs : ∀ p ∈ l, x.has s p.1 = false) :
    x.read name s (.map (l.map fun p => (x.label p.1, p.2))) = l.foldlM x.putPair s := by
  rw [read]
  induction l generalizing s with
  | nil => rfl
  | cons p l ih =>
    obtain ⟨hp, hl⟩ := List.nodup_cons.1 hl
    obtain ⟨hsp, hs⟩ := List.forall_mem_cons.1 hs
    have htake : x.take s (x.label p.1, p.2) = x.putPair s p := by
      simp only [take, x.find_label, hsp, putPair]
      rfl
    rw [List.map_cons, List.foldlM_cons, List.foldlM_cons, htake]
    cases hput : x.putPair s p with
    | error fault => rfl
    | ok s' =>
      refine ih hl fun q hq => ?_
      have hne : p.1 ≠ q.1 := fun e => hp (List.mem_map.2 ⟨q, hq, e.symm⟩)
      simp [x.has_put hput, hs q hq, hne]

end Fields

end NamespaceCatalog
