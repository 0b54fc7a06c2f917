import NamespaceCatalog.Document

/-!
# CBOR items

Writing and reading the parts of CBOR that stored records are made of.  An item starts with a
header: a type and a number, which is the value of the item or the length of what follows; a length
may be left open, and the item then ends at a break.  Written headers are the shortest ones.

Texts must be UTF-8 piece by piece.  A value that nobody asks for is passed over (`skipValue`), and
its lists, maps and tags may be nested only to a given depth.  A tag that makes an integer of the
byte string after it (`skipBigInteger`) opens no level, and the integer has to fit 128 bits.
-/

namespace NamespaceCatalog.Cbor

/-- What an item starts with. -/
inductive Header
  | positive (n : Nat)
  | negative (n : Nat)
  | bytes (length : Option Nat)
  | text (length : Option Nat)
  | list (length : Option Nat)
  | map (length : Option Nat)
  | tag (n : Nat)
  | simple (n : Nat)
  | float
  | break
  deriving DecidableEq, Repr

/-! ## Writing -/

/-- A header of type `major` with the number `n`, in the fewest bytes that hold it. -/
def header (major n : Nat) : Bytes :=
  let first (minor : Nat) := UInt8.ofNat (major * 32 + minor)
  if n < 24 then [first n]
  else if n < 0x100 then first 24 :: Bytes.bigEndian 1 n
  else if n < 0x10000 then first 25 :: Bytes.bigEndian 2 n
  else if n < 0x100000000 then first 26 :: Bytes.bigEndian 4 n
  else first 27 :: Bytes.bigEndian 8 n

/-- A text. -/
def text (s : String) : Bytes :=
  let bs := Utf8.encode s
  header 3 bs.length ++ bs

/-- A text whose length is left open, in the given pieces. -/
def openText (pieces : List String) : Bytes := 0x7F :: (pieces.flatMap text ++ [0xFF])

/-- A map with texts as keys, whose values are written already. -/
def map (entries : List (String × Bytes)) : Bytes :=
  header 5 entries.length ++ entries.flatMap fun (k, v) => text k ++ v

/-! ## Reading headers and texts -/

/-- The header of the given type.  The number is absent if the length is left open. -/
def Header.ofParts (major : Nat) (minor : Nat) (number : Option Nat) : Option Header :=
  match major with
  | 0 => number.map .positive
  | 1 => number.map .negative
  | 2 => some (.bytes number)
  | 3 => some (.text number)
  | 4 => some (.list number)
  | 5 => some (.map number)
  | 6 => number.map .tag
  | _ =>
    match number with
    | none => some .break
    | some n => some (if minor < 25 then .simple n else .float)

/-- Reads a header. -/
def readHeader : Bytes → Option (Header × Bytes)
  | [] => none
  | b :: bs =>
    let major := b.toNat / 32
    let minor := b.toNat % 32
    if minor < 24 then (Header.ofParts major minor (some minor)).map (·, bs)
    else if minor < 28 then
      match Bytes.split? (1 <<< (minor - 24)) bs with
      | none => none
      | some (number, rest) =>
        (Header.ofParts major minor (some (Bytes.ofBigEndian number))).map (·, rest)
    else if minor = 31 then (Header.ofParts major minor none).map (·, bs)
    else none

/-- Reads the first header that is no tag.  The measure `fuel` bounds the number of tags. -/
def readUntaggedFrom : (fuel : Nat) → Bytes → Option (Header × Bytes)
  | 0, _ => none
  | fuel + 1, bs =>
    match readHeader bs with
    | some (.tag _, rest) => readUntaggedFrom fuel rest
    | other => other

/-- Reads the first header that is no tag. -/
def readUntagged (bs : Bytes) : Option (Header × Bytes) := readUntaggedFrom bs.length bs

/-- The length of a header of the wanted type, which `length` picks, of pieces `depth` levels deep;
reads them up to the break of the outermost level. -/
def piecesFrom (length : Header → Option (Option Nat)) :
    (fuel depth : Nat) → Bytes → Option (List Bytes × Bytes)
  | 0, _, _ => none
  | fuel + 1, depth, bs =>
    match readHeader bs with
    | none => none
    | some (.break, rest) =>
      match depth with
      | 0 => some ([], rest)
      | depth + 1 => piecesFrom length fuel depth rest
    | some (h, rest) =>
      match length h with
      | none => none
      | some none => piecesFrom length fuel (depth + 1) rest
      | some (some n) =>
        match Bytes.split? n rest with
        | none => none
        | some (piece, rest) =>
          (piecesFrom length fuel depth rest).map fun (ps, rest) => (piece :: ps, rest)

/-- Reads the pieces of a text or a byte string whose header is read. -/
def pieces (length : Header → Option (Option Nat)) (n : Option Nat) (bs : Bytes) :
    Option (List Bytes × Bytes) :=
  match n with
  | some n => (Bytes.split? n bs).map fun (piece, rest) => ([piece], rest)
  | none => piecesFrom length bs.length 0 bs

/-- The length of a text. -/
def textLength : Header → Option (Option Nat)
  | .text n => some n
  | _ => none

/-- The length of a byte string. -/
def bytesLength : Header → Option (Option Nat)
  | .bytes n => some n
  | _ => none

/-- The text made of the given pieces, if each of them is UTF-8. -/
def joinTexts : List Bytes → Option String
  | [] => some ""
  | p :: ps =>
    match Utf8.decode p with
    | .ok s => (joinTexts ps).map (s ++ ·)
    | .error _ => none

/-- Reads a text whose header is read. -/
def textBody (n : Option Nat) (bs : Bytes) : Option (String × Bytes) :=
  match pieces textLength n bs with
  | none => none
  | some (ps, rest) => (joinTexts ps).map (·, rest)

/-- Reads a text. -/
def readText (bs : Bytes) : Option (String × Bytes) :=
  match readUntagged bs with
  | some (.text n, rest) => textBody n rest
  | _ => none

/-- Reads a text or an absent value. -/
def readOptional (bs : Bytes) : Option (Option String × Bytes) :=
  match readHeader bs with
  | some (.simple 22, rest) | some (.simple 23, rest) => some (none, rest)
  | _ => (readText bs).map fun (s, rest) => (some s, rest)

/-- Reads a key: a text or a byte string of known length.  Of a byte string that is no text there is
no name. -/
def readKey (bs : Bytes) : Option (Option String × Bytes) :=
  match readUntagged bs with
  | some (.text (some n), rest) =>
    if n ≤ keyLimit then (textBody (some n) rest).map fun (s, rest) => (some s, rest) else none
  | some (.bytes (some n), rest) =>
    if n ≤ keyLimit then
      (Bytes.split? n rest).map fun (key, rest) => ((Utf8.decode key).toOption, rest)
    else none
  | _ => none

/-! ## Passing over values -/

/-- What a reader that passes over values is inside of. -/
inductive Inside
  /-- So many values are left. -/
  | values (n : Nat)
  /-- A list that ends at a break. -/
  | openList
  /-- A map that ends at a break, before a key or before a value. -/
  | openMap (atKey : Bool)
  deriving DecidableEq

/-- The tag of a byte string that is a natural number, most significant byte first. -/
def bigNatTag : Nat := 2

/-- The tag of a byte string `n` that is the integer `-1 - n`. -/
def bigNegativeTag : Nat := 3

/-- The greatest length of the byte string of an integer. -/
def bigLimit : Nat := 16

/-- Passes over the byte string after the tag `tag` if the two are an integer, which has to fit 128
bits with its sign; `none` if they are no integer. -/
def skipBigInteger (tag : Nat) (bs : Bytes) : Option (Option Bytes) :=
  if tag = bigNatTag ∨ tag = bigNegativeTag then
    match readHeader bs with
    | some (.bytes (some n), rest) =>
      if n ≤ bigLimit then
        match Bytes.split? n rest with
        | none => some none
        | some (digits, rest) =>
          if tag = bigNegativeTag ∧ Bytes.bound bigLimit ≤ 2 * Bytes.ofBigEndian digits then
            some none
          else some (some rest)
      else none
    | _ => none
  else none

/-- What a header opens or passes; `none` if it is no value. -/
def skipBody (h : Header) (bs : Bytes) : Option (Option Inside × Bytes) :=
  match h with
  | .positive _ | .negative _ | .float => some (none, bs)
  | .simple n => if 20 ≤ n ∧ n ≤ 23 then some (none, bs) else none
  | .bytes n => (pieces bytesLength n bs).map fun (_, rest) => (none, rest)
  | .text n => (textBody n bs).map fun (_, rest) => (none, rest)
  | .list (some n) => some (some (.values n), bs)
  | .list none => some (some .openList, bs)
  | .map (some n) => some (some (.values (2 * n)), bs)
  | .map none => some (some (.openMap true), bs)
  | .tag n =>
    match skipBigInteger n bs with
    | some rest => rest.map (none, ·)
    | none => some (some (.values 1), bs)
  | .break => none

/-- Passes over what is left inside the given items, innermost first, of which `depth` more may be
opened.  The number of steps is at most `fuel`. -/
def skipFrom : (fuel depth : Nat) → List Inside → Bytes → Option Bytes
  | 0, _, _, _ => none
  | _ + 1, _, [], bs => some bs
  | fuel + 1, depth, .values 0 :: outer, bs => skipFrom fuel (depth + 1) outer bs
  | fuel + 1, depth, inside :: outer, bs =>
    match readHeader bs with
    | none => none
    | some (h, rest) =>
      if h = .break then
        if inside = .openList ∨ inside = .openMap true then skipFrom fuel (depth + 1) outer rest
        else none
      else
        let inside :=
          match inside with
          | .values n => .values (n - 1)
          | .openList => .openList
          | .openMap atKey => .openMap !atKey
        match skipBody h rest with
        | none => none
        | some (none, rest) => skipFrom fuel depth (inside :: outer) rest
        | some (some opened, rest) =>
          match depth with
          | 0 => none
          | depth + 1 => skipFrom fuel depth (opened :: inside :: outer) rest

/-- Passes over a value with at most `depth` levels.  A step reads a header or leaves an item, so
there are at most two for every byte, and two for the value itself. -/
def skipValue (depth : Nat) (bs : Bytes) : Option Bytes :=
  skipFrom (2 * bs.length + 3) depth [.values 1] bs

/-! ## Reading maps -/

section Map

variable {σ : Type}

/-- Reads the entries of a map: `n` of them, or all up to a break.  `entry` takes what was read so
far and the key. -/
def entries (entry : σ → Option String → Bytes → Option (σ × Bytes)) :
    (fuel : Nat) → (n : Option Nat) → σ → Bytes → Option (σ × Bytes)
  | _, some 0, s, bs => some (s, bs)
  | 0, _, _, _ => none
  | fuel + 1, n, s, bs =>
    match n, readHeader bs with
    | none, some (.break, rest) => some (s, rest)
    | n, _ =>
      match readKey bs with
      | none => none
      | some (key, rest) =>
        match entry s key rest with
        | none => none
        | some (s, rest) => entries entry fuel (n.map (· - 1)) s rest

/-- Reads a map. -/
def readMap (entry : σ → Option String → Bytes → Option (σ × Bytes)) (s : σ) (bs : Bytes) :
    Option (σ × Bytes) :=
  match readUntagged bs with
  | some (.map n, rest) => entries entry (rest.length + 1) n s rest
  | _ => none

end Map

end NamespaceCatalog.Cbor
