import NamespaceCatalog.Text.Hidden

/-!
# Quoted texts and durations

Diagnostics show a text in double quotes and a character in single quotes.  The quote itself, the
backslash and four control characters are escaped by a letter, every other character that does not
show by its code point.  A span of time is shown in its largest unit that is not zero.
-/

namespace NamespaceCatalog.Text

/-- A character by its code point, as in `\u{e0001}`. -/
def codePoint (c : Char) : String :=
  "\\u\x7b" ++ String.ofList (Nat.toDigits 16 c.toNat) ++ "\x7d"

/-- A character inside quotes of the kind `quote`. -/
def escaped (quote c : Char) : String :=
  match c with
  | '\x00' => "\\0"
  | '\t' => "\\t"
  | '\r' => "\\r"
  | '\n' => "\\n"
  | '\\' => "\\\\"
  | c =>
    if c = quote then String.ofList ['\\', c]
    else if isHidden c then codePoint c
    else String.singleton c

/-- A character in single quotes. -/
def quotedChar (c : Char) : String := "'" ++ escaped '\'' c ++ "'"

/-- A text in double quotes. -/
def quoted (s : String) : String := "\"" ++ String.join (s.toList.map (escaped '"')) ++ "\""

/-- A truth value as a word. -/
def word (b : Bool) : String := if b then "true" else "false"

/-- The digits of a fraction `n / 10 ^ w` after the point, without trailing zeros. -/
def fractionDigits (w n : Nat) : List Char :=
  let digits := Nat.toDigits 10 n
  let padded := List.replicate (w - digits.length) '0' ++ digits
  (padded.reverse.dropWhile (· = '0')).reverse

/-- The number `whole + part / 10 ^ w` in decimal, without trailing zeros. -/
def decimal (w whole part : Nat) : String :=
  let digits := fractionDigits w part
  toString whole ++ (if digits.isEmpty then "" else "." ++ String.ofList digits)

/-- A span of `ns` nanoseconds, in seconds, milliseconds, microseconds or nanoseconds. -/
def duration (ns : Nat) : String :=
  if 1000000000 ≤ ns then decimal 9 (ns / 1000000000) (ns % 1000000000) ++ "s"
  else if 1000000 ≤ ns then decimal 6 (ns / 1000000) (ns % 1000000) ++ "ms"
  else if 1000 ≤ ns then decimal 3 (ns / 1000) (ns % 1000) ++ "µs"
  else toString ns ++ "ns"

end NamespaceCatalog.Text
