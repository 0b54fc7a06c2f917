import NamespaceCatalog.Document
import NamespaceCatalog.Json.Basic

/-!
# Documents as JSON text

A library for JSON text, to run catalogs with.  It writes texts and maps, and reads any text; of
what is not wanted it reads the form only.
-/

namespace NamespaceCatalog.Json

/-- Writes a document of texts and maps, with at most so many levels of maps. -/
def writeDocument : (levels : Nat) → Document → Option Bytes
  | _, .text s => some (string s)
  | levels + 1, .map members =>
    (members.mapM fun m => (writeDocument levels m.2).map (m.1, ·)).map object
  | _, _ => none

/-- Reads a text or an absent value. -/
def readScalar (bs : Bytes) : Option (Document × Bytes) :=
  (readOptional bs).map fun (v, rest) => (v.elim .null .text, rest)

/-- Passes over a document. -/
def pass (bs : Bytes) : Option (Document × Bytes) := (skipValue bs).map (.other, ·)

/-- Reads a document of the given shape, with at most so many levels, and passes over what is not
wanted. -/
def readDocument : (levels : Nat) → Shape → Bytes → Option (Document × Bytes)
  | 0, _, bs => (readScalar bs).orElse fun _ => pass bs
  | levels + 1, shape, bs =>
    let part (wanted : Option Shape) (bs : Bytes) :=
      wanted.elim (pass bs) fun shape => readDocument levels shape bs
    let member (ms : List (String × Document)) (key : String) (bs : Bytes) :=
      (part (shape.field? key) bs).map fun (d, rest) => ((key, d) :: ms, rest)
    let item (ds : List Document) (bs : Bytes) :=
      (part (shape.item? ds.length) bs).map fun (d, rest) => (d :: ds, rest)
    (readScalar bs).orElse fun _ =>
      ((readObject member [] bs).map fun (ms, rest) => (.map ms.reverse, rest)).orElse fun _ =>
        ((readList item [] bs).map fun (ds, rest) => (.list ds.reverse, rest)).orElse fun _ =>
          pass bs

/-- JSON text with nothing but blanks after it. -/
def dataFormat : DataFormat where
  write d := (writeDocument 2 d).elim (.error "cannot be written as JSON") .ok
  read shape bs :=
    match readDocument 2 shape bs with
    | none => .error "invalid JSON"
    | some (d, rest) => if (skipBlanks rest).isEmpty then .ok d else .error "trailing characters"
  refuse := DocumentFault.message

end NamespaceCatalog.Json
