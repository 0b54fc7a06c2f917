import NamespaceCatalog.Cbor.Basic

/-!
# Documents as CBOR

A library for CBOR, to run catalogs with.  It writes texts and maps, and reads any item; what is not
wanted it passes over.  What follows the item is not looked at.
-/

namespace NamespaceCatalog.Cbor

/-- A text, in pieces of one character if its length is too great for a header. -/
def anyText (s : String) : Bytes :=
  if (Utf8.encode s).length < UInt64.size then text s
  else openText (s.toList.map String.singleton)

/-- Writes a document of texts and maps, with at most so many levels of maps. -/
def writeDocument : (levels : Nat) → Document → Option Bytes
  | _, .text s => some (anyText s)
  | levels + 1, .map members =>
    (members.mapM fun m => (writeDocument levels m.2).map (m.1, ·)).map map
  | _, _ => none

/-- How deep items may be nested. -/
def depthLimit : Nat := 256

/-- Reads a text or an absent value. -/
def readScalar (bs : Bytes) : Option (Document × Bytes) :=
  (readOptional bs).map fun (v, rest) => (v.elim .null .text, rest)

/-- Passes over a document that is nested at most `depth` deep. -/
def pass (depth : Nat) (bs : Bytes) : Option (Document × Bytes) :=
  (skipValue depth bs).map (.other, ·)

/-- Reads a document of the given shape, with at most so many levels, and passes over what is not
wanted. -/
def readDocument : (levels depth : Nat) → Shape → Bytes → Option (Document × Bytes)
  | 0, depth, _, bs => (readScalar bs).orElse fun _ => pass depth bs
  | levels + 1, depth, shape, bs =>
    let part (wanted : Option Shape) (bs : Bytes) :=
      wanted.elim (pass (depth - 1) bs) fun shape => readDocument levels (depth - 1) shape bs
    let entry (ms : List (String × Document)) (key : Option String) (bs : Bytes) :=
      (part (key.bind shape.field?) bs).map fun (d, rest) =>
        ((key.map (·, d)).toList ++ ms, rest)
    (readScalar bs).orElse fun _ =>
      ((readMap entry [] bs).map fun (ms, rest) => (.map ms.reverse, rest)).orElse fun _ =>
        pass depth bs

/-- The item that a byte string starts with. -/
def dataFormat : DataFormat where
  write d := (writeDocument 2 d).elim (.error "cannot be written as CBOR") .ok
  read shape bs :=
    ((readDocument 2 depthLimit shape bs).map (·.1)).elim (.error "invalid CBOR") .ok
  refuse := DocumentFault.message

end NamespaceCatalog.Cbor
