import NamespaceCatalog.Text.Utf8

/-!
# JSON text

Writing and reading the parts of JSON text that stored records are made of.  Written text has no
blanks; in a string only the quote, the backslash and control characters are escaped.

Reading takes bytes from the front and gives what follows.  The contents of a string are cut out
first (`rawString`), with escapes checked for their form only, and translated when they are wanted
(`unescape`), so that a value which nobody asks for is passed over (`skipValue`) by its form alone.
-/

namespace NamespaceCatalog.Json

/-! ## Bytes of the syntax -/

/-- The quote around strings. -/
def quote : UInt8 := 0x22

/-- The first byte of an escape. -/
def backslash : UInt8 := 0x5C

/-- The comma between members and items. -/
def comma : UInt8 := 0x2C

/-- The colon between a key and its value. -/
def colon : UInt8 := 0x3A

/-- The bracket before the items of a list. -/
def openList : UInt8 := 0x5B

/-- The bracket after the items of a list. -/
def closeList : UInt8 := 0x5D

/-- The brace before the members of an object. -/
def openObject : UInt8 := 0x7B

/-- The brace after the members of an object. -/
def closeObject : UInt8 := 0x7D

/-- Is the byte a blank between tokens? -/
def isBlank (b : UInt8) : Bool := b = 0x20 || b = 0x0A || b = 0x09 || b = 0x0D

/-- Is the byte a decimal digit? -/
def isDigit (b : UInt8) : Bool := 0x30 ≤ b && b ≤ 0x39

/-- The value of a hexadecimal digit. -/
def hexValue? (b : UInt8) : Option Nat :=
  if isDigit b then some (b.toNat - 0x30)
  else if 0x61 ≤ b && b ≤ 0x66 then some (b.toNat - 0x61 + 10)
  else if 0x41 ≤ b && b ≤ 0x46 then some (b.toNat - 0x41 + 10)
  else none

/-- The hexadecimal digit of a value below 16. -/
def hexDigit (n : Nat) : UInt8 := UInt8.ofNat (if n < 10 then 0x30 + n else 0x61 + (n - 10))

/-- The letter that stands for a byte after a backslash, if there is one. -/
def shortEscape (b : UInt8) : Option UInt8 :=
  if b = quote ∨ b = backslash then some b
  else if b = 0x08 then some 0x62
  else if b = 0x09 then some 0x74
  else if b = 0x0A then some 0x6E
  else if b = 0x0C then some 0x66
  else if b = 0x0D then some 0x72
  else none

/-! ## Writing -/

/-- A byte of a text inside a string. -/
def escapeByte (b : UInt8) : Bytes :=
  match shortEscape b with
  | some letter => [backslash, letter]
  | none =>
    if b < 0x20 then
      [backslash, 0x75, 0x30, 0x30, hexDigit (b.toNat / 16), hexDigit (b.toNat % 16)]
    else [b]

/-- A text as a string. -/
def string (s : String) : Bytes := quote :: (Utf8.encode s).flatMap escapeByte ++ [quote]

/-- An object of the given members, whose values are written already. -/
def object (members : List (String × Bytes)) : Bytes :=
  openObject :: [comma].intercalate (members.map fun (k, v) => string k ++ colon :: v) ++
    [closeObject]

/-! ## Reading strings -/

/-- The bytes after any blanks. -/
def skipBlanks (bs : Bytes) : Bytes := bs.dropWhile isBlank

/-- The bytes after the byte `b`, which has to come next but for blanks. -/
def expect (b : UInt8) (bs : Bytes) : Option Bytes :=
  match skipBlanks bs with
  | c :: rest => if c = b then some rest else none
  | [] => none

/-- The number written in four hexadecimal digits. -/
def hexNumber? (a b c d : UInt8) : Option Nat :=
  match hexValue? a, hexValue? b, hexValue? c, hexValue? d with
  | some a, some b, some c, some d => some (((a * 16 + b) * 16 + c) * 16 + d)
  | _, _, _, _ => none

/-- The byte that a letter after a backslash stands for. -/
def unescapeLetter (b : UInt8) : Option UInt8 :=
  if b = quote ∨ b = backslash ∨ b = 0x2F then some b
  else if b = 0x62 then some 0x08
  else if b = 0x74 then some 0x09
  else if b = 0x6E then some 0x0A
  else if b = 0x66 then some 0x0C
  else if b = 0x72 then some 0x0D
  else none

/-- The bytes of a string up to its closing quote, escapes left as they are, and what follows. -/
def rawString : Bytes → Option (Bytes × Bytes)
  | [] => none
  | b :: bs =>
    if b = quote then some ([], bs)
    else if b = backslash then
      match bs with
      | [] => none
      | c :: bs =>
        if c = 0x75 then
          match bs with
          | d :: e :: f :: g :: bs =>
            if (hexNumber? d e f g).isSome then
              (rawString bs).map fun (s, rest) => (b :: c :: d :: e :: f :: g :: s, rest)
            else none
          | _ => none
        else if (unescapeLetter c).isSome then
          (rawString bs).map fun (s, rest) => (b :: c :: s, rest)
        else none
    else if b < 0x20 then none
    else (rawString bs).map fun (s, rest) => (b :: s, rest)

/-- Is the number the first half of a pair? -/
def isHighSurrogate (n : Nat) : Bool := 0xD800 ≤ n && n ≤ 0xDBFF

/-- Is the number the second half of a pair? -/
def isLowSurrogate (n : Nat) : Bool := 0xDC00 ≤ n && n ≤ 0xDFFF

/-- The bytes that a raw string stands for.  A number outside the basic plane is written as a pair
of halves; a half on its own is refused. -/
def unescape : Bytes → Option Bytes
  | [] => some []
  | b :: bs =>
    if b = backslash then
      match bs with
      | [] => none
      | c :: bs =>
        if c = 0x75 then
          match bs with
          | d :: e :: f :: g :: bs =>
            match hexNumber? d e f g with
            | none => none
            | some n =>
              if isLowSurrogate n then none
              else if isHighSurrogate n then
                match bs with
                | x :: y :: d :: e :: f :: g :: bs =>
                  match hexNumber? d e f g with
                  | none => none
                  | some m =>
                    if x = backslash ∧ y = 0x75 ∧ isLowSurrogate m then
                      let c := Char.ofNat (0x10000 + (n - 0xD800) * 0x400 + (m - 0xDC00))
                      (unescape bs).map (String.utf8EncodeChar c ++ ·)
                    else none
                | _ => none
              else (unescape bs).map (String.utf8EncodeChar (Char.ofNat n) ++ ·)
          | _ => none
        else
          match unescapeLetter c with
          | none => none
          | some letter => (unescape bs).map (letter :: ·)
    else (unescape bs).map (b :: ·)

/-- Reads the text of a string whose opening quote is read. -/
def stringBody (bs : Bytes) : Option (String × Bytes) :=
  match rawString bs with
  | none => none
  | some (raw, rest) =>
    match unescape raw with
    | none => none
    | some text => (Utf8.decode text).toOption.map (·, rest)

/-- Reads a string. -/
def readString (bs : Bytes) : Option (String × Bytes) := (expect quote bs).bind stringBody

/-- The word for an absent value. -/
def nullWord : Bytes := Utf8.encode "null"

/-- The bytes after a word. -/
def expectWord (word bs : Bytes) : Option Bytes :=
  if word.isPrefixOf bs then some (bs.drop word.length) else none

/-- Reads a string or the word `null`. -/
def readOptional (bs : Bytes) : Option (Option String × Bytes) :=
  match expectWord nullWord (skipBlanks bs) with
  | some rest => some (none, rest)
  | none => (readString bs).map fun (s, rest) => (some s, rest)

/-! ## Passing over values -/

/-- Passes over at least one digit. -/
def skipDigits (bs : Bytes) : Option Bytes :=
  if bs.head?.any isDigit then some (bs.dropWhile isDigit) else none

/-- Passes over an exponent, if there is one. -/
def skipExponent : Bytes → Option Bytes
  | [] => some []
  | b :: bs =>
    if b = 0x65 || b = 0x45 then
      match bs with
      | c :: rest => if c = 0x2B || c = 0x2D then skipDigits rest else skipDigits bs
      | [] => none
    else some (b :: bs)

/-- Passes over the digits after a point, if there is a point, and an exponent. -/
def skipFraction : Bytes → Option Bytes
  | [] => some []
  | b :: bs => if b = 0x2E then (skipDigits bs).bind skipExponent else skipExponent (b :: bs)

/-- Passes over a number: a sign, digits without leading zeros, a fraction, an exponent. -/
def skipNumber (bs : Bytes) : Option Bytes :=
  let digits := if bs.head? = some 0x2D then bs.drop 1 else bs
  match digits with
  | b :: rest =>
    if b = 0x30 then (if rest.head?.any isDigit then none else skipFraction rest)
    else if isDigit b then skipFraction (rest.dropWhile isDigit)
    else none
  | [] => none

/-- Passes over a value that is neither a list nor an object. -/
def skipScalar (bs : Bytes) : Option Bytes :=
  match bs with
  | [] => none
  | b :: rest =>
    if b = quote then (rawString rest).map (·.2)
    else if b = 0x2D || isDigit b then skipNumber bs
    else (expectWord nullWord bs).orElse fun _ =>
      (expectWord (Utf8.encode "true") bs).orElse fun _ => expectWord (Utf8.encode "false") bs

/-- Passes over a key and its colon. -/
def skipKey (bs : Bytes) : Option Bytes :=
  ((expect quote bs).bind rawString).bind fun (_, rest) => expect colon rest

/-- Where a reader that passes over a value stands. -/
inductive Place
  /-- A value comes next. -/
  | value
  /-- An opening bracket was the last token. -/
  | opened
  /-- A value was passed. -/
  | passed
  deriving DecidableEq

/-- Passes over a value and what closes the lists and objects around it, innermost first; `true` on
the stack stands for an object.  The number of steps is at most `fuel`. -/
def skipFrom : (fuel : Nat) → Place → (inside : List Bool) → Bytes → Option Bytes
  | 0, _, _, _ => none
  | fuel + 1, .value, inside, bs =>
    match skipBlanks bs with
    | [] => none
    | b :: rest =>
      if b = openList then skipFrom fuel .opened (false :: inside) rest
      else if b = openObject then skipFrom fuel .opened (true :: inside) rest
      else (skipScalar (b :: rest)).bind (skipFrom fuel .passed inside)
  | fuel + 1, .opened, inside, bs =>
    match inside, skipBlanks bs with
    | false :: outer, b :: rest =>
      if b = closeList then skipFrom fuel .passed outer rest
      else skipFrom fuel .value inside (b :: rest)
    | true :: outer, b :: rest =>
      if b = closeObject then skipFrom fuel .passed outer rest
      else (skipKey (b :: rest)).bind (skipFrom fuel .value inside)
    | _, _ => none
  | fuel + 1, .passed, inside, bs =>
    match inside with
    | [] => some bs
    | isObject :: outer =>
      match skipBlanks bs with
      | [] => none
      | b :: rest =>
        if b = comma then
          if isObject then (skipKey rest).bind (skipFrom fuel .value inside)
          else skipFrom fuel .value inside rest
        else if b = (if isObject then closeObject else closeList) then
          skipFrom fuel .passed outer rest
        else none

/-- Passes over a value.  Between two bytes there are at most two steps. -/
def skipValue (bs : Bytes) : Option Bytes := skipFrom (2 * bs.length + 2) .value [] bs

/-! ## Reading lists and objects -/

section Composite

variable {σ : Type}

/-- Reads the items of a list up to the closing bracket.  `item` takes what was read so far. -/
def items (item : σ → Bytes → Option (σ × Bytes)) : (fuel : Nat) → σ → Bytes → Option (σ × Bytes)
  | 0, _, _ => none
  | fuel + 1, s, bs =>
    match item s bs with
    | none => none
    | some (s, rest) =>
      match skipBlanks rest with
      | [] => none
      | b :: rest =>
        if b = comma then items item fuel s rest
        else if b = closeList then some (s, rest)
        else none

/-- Reads a list whose opening bracket is read. -/
def listBody (item : σ → Bytes → Option (σ × Bytes)) (s : σ) (bs : Bytes) : Option (σ × Bytes) :=
  match expect closeList bs with
  | some rest => some (s, rest)
  | none => items item bs.length s bs

/-- Reads a list. -/
def readList (item : σ → Bytes → Option (σ × Bytes)) (s : σ) (bs : Bytes) : Option (σ × Bytes) :=
  (expect openList bs).bind (listBody item s)

/-- Reads the members of an object up to the closing brace.  `member` takes what was read so far and
the key. -/
def members (member : σ → String → Bytes → Option (σ × Bytes)) :
    (fuel : Nat) → σ → Bytes → Option (σ × Bytes)
  | 0, _, _ => none
  | fuel + 1, s, bs =>
    match readString bs with
    | none => none
    | some (key, rest) =>
      match (expect colon rest).bind (member s key) with
      | none => none
      | some (s, rest) =>
        match skipBlanks rest with
        | [] => none
        | b :: rest =>
          if b = comma then members member fuel s rest
          else if b = closeObject then some (s, rest)
          else none

/-- Reads an object whose opening brace is read. -/
def objectBody (member : σ → String → Bytes → Option (σ × Bytes)) (s : σ) (bs : Bytes) :
    Option (σ × Bytes) :=
  match expect closeObject bs with
  | some rest => some (s, rest)
  | none => members member bs.length s bs

/-- Reads an object. -/
def readObject (member : σ → String → Bytes → Option (σ × Bytes)) (s : σ) (bs : Bytes) :
    Option (σ × Bytes) :=
  (expect openObject bs).bind (objectBody member s)

end Composite

end NamespaceCatalog.Json
