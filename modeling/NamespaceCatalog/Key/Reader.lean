import NamespaceCatalog.Error
import NamespaceCatalog.Key.Basic

/-!
# Reading a key

A `Reader` splits a key: it stands between two segments of a key, or after a fault somewhere in one.
`text?` and `integer?` read a segment of the expected type; a fault leaves the reader where it was
noticed: before a wrong tag, at the end of an unterminated text, after a text that is not UTF-8,
after the tag of an integer that is cut short.  `segments` reads a whole key, `render` shows it.

`content_escaped` says that the content of a text segment is what was escaped, whatever follows the
segment, if only it does not start with the byte that marks a zero.
-/

namespace NamespaceCatalog.Key

/-- A place in a key: how many bytes are read, and the bytes that follow. -/
structure Reader where
  position : Nat
  rest : Bytes

namespace Reader

/-- The reader at the start of a key. -/
def start (key : Bytes) : Reader := ⟨0, key⟩

/-- Is the whole key read? -/
def isEmpty (r : Reader) : Bool := r.rest.isEmpty

/-- The reader moved to where `rest` follows. -/
def moveTo (r : Reader) (rest : Bytes) : Reader :=
  ⟨r.position + (r.rest.length - rest.length), rest⟩

/-- The bytes after the tag of a segment, if the segment has that tag. -/
def afterTag (r : Reader) (tag : UInt8) (expected : String) : Except CodecFault Bytes :=
  match r.rest with
  | [] => .error (.keyEnded expected)
  | b :: bs => if b = tag then .ok bs else .error (.wrongSegment expected r.position b)

/-- The content of a text segment whose tag is read, and what follows the segment. -/
def content : Bytes → Option (Bytes × Bytes)
  | [] => none
  | [b] => if b = terminator then some ([], []) else none
  | b :: c :: bs =>
    if b = terminator then
      if c = escape then (content bs).map fun (s, rest) => (b :: s, rest)
      else some ([], c :: bs)
    else (content (c :: bs)).map fun (s, rest) => (b :: s, rest)

theorem content_escaped (s : Bytes) {rest : Bytes} (h : rest.head? ≠ some escape) :
    content (escaped s ++ rest) = some (s, rest) := by
  induction s with
  | nil =>
    cases rest with
    | nil => rfl
    | cons c bs =>
      have hc : c ≠ escape := by simpa using h
      simp [escaped, content, hc]
  | cons b s ih =>
    by_cases hb : b = terminator
    · simp [escaped, content, hb, ih]
    · have hne : escaped s ++ rest ≠ [] := by
        cases s with
        | nil => simp [escaped]
        | cons d s => simp only [escaped]; split <;> simp
      obtain ⟨c, bs, hs⟩ := List.exists_cons_of_ne_nil hne
      rw [hs] at ih
      simp [escaped, hb, content, hs, ih]

/-- Reads a text segment. -/
def text? (r : Reader) : Except CodecFault String × Reader :=
  match r.afterTag textTag "string" with
  | .error fault => (.error fault, r)
  | .ok bs =>
    match content bs with
    | none => (.error .unterminatedText, r.moveTo [])
    | some (s, rest) => ((Utf8.decode s).mapError .badText, r.moveTo rest)

/-- Reads an integer segment. -/
def integer? (r : Reader) : Except CodecFault Int64 × Reader :=
  match r.afterTag integerTag "integer" with
  | .error fault => (.error fault, r)
  | .ok bs =>
    if bs.length < 8 then (.error .truncatedInteger, r.moveTo bs)
    else (.ok (Int64.ofInt (Bytes.ofBigEndian (bs.take 8) - bias)), r.moveTo (bs.drop 8))

/-- Reads a segment by the type of its tag; a segment of unknown type is taken for a text. -/
def next (r : Reader) : Except CodecFault Segment × Reader :=
  if r.rest.head? = some integerTag then
    let (n, r) := r.integer?
    (n.map .integer, r)
  else
    let (s, r) := r.text?
    (s.map .text, r)

/-- Reads past a segment. -/
def skip (r : Reader) : Except CodecFault Unit × Reader :=
  let (s, r) := r.next
  (s.map fun _ => (), r)

/-- Reads segments to the end of the key or the first fault, at most `fuel` of them. -/
def readAll : (fuel : Nat) → Reader → List Segment × Option CodecFault
  | 0, _ => ([], none)
  | fuel + 1, r =>
    if r.isEmpty then ([], none)
    else
      match r.next with
      | (.error fault, _) => ([], some fault)
      | (.ok s, r) =>
        let (ss, fault) := readAll fuel r
        (s :: ss, fault)

end Reader

/-- The segments of a key up to its first fault, and the fault.  A segment has at least one byte, so
the length of the key bounds their number. -/
def read (key : Bytes) : List Segment × Option CodecFault :=
  Reader.readAll key.length (Reader.start key)

/-- The segments of a key, if it is well formed. -/
def segments (key : Bytes) : Except CodecFault (List Segment) :=
  match read key with
  | (ss, none) => .ok ss
  | (_, some fault) => .error fault

/-- A segment as diagnostics show it. -/
def Segment.label : Segment → String
  | text s => s
  | integer n => toString n.toInt

/-- A key as diagnostics show it: its segments, and a mark where it is not well formed. -/
def render (key : Bytes) : String :=
  let (ss, fault) := read key
  String.intercalate "/" (ss.map Segment.label ++ (fault.map fun _ => "<malformed>").toList)

end NamespaceCatalog.Key
