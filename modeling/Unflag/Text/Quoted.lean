/-
Quoted texts.

Two ways of quoting are used. `quoted` is for messages: the quotes are single unless only
double ones avoid an escape, and what cannot be printed is escaped by its code point.
`jsonQuoted` is for JSON: double quotes, and everything beyond printable ASCII escaped by
its UTF-16 units.
-/
import Unflag.Text.Printable

set_option autoImplicit false

namespace Unflag

namespace Text

/-- A number in hexadecimal digits, filled up with zeros to `width`. -/
def hex (width n : Nat) : Text :=
  let ds := Nat.toDigits 16 n
  List.replicate (width - ds.length) '0' ++ ds

/-! ## Messages -/

/-- The quote for a text: single, unless the text holds single quotes and no double one. -/
def quoteFor (s : Text) : Char :=
  if s.contains '\'' && !s.contains '\x22' then '\x22' else '\''

/-- A character inside quotes. -/
def escaped (quote c : Char) : Text :=
  if c == quote || c == '\\' then ['\\', c]
  else if c == '\t' then ['\\', 't']
  else if c == '\n' then ['\\', 'n']
  else if c == '\r' then ['\\', 'r']
  else if isPrintable c then [c]
  else if c.toNat < 0x100 then ['\\', 'x'] ++ hex 2 c.toNat
  else if c.toNat < 0x10000 then ['\\', 'u'] ++ hex 4 c.toNat
  else ['\\', 'U'] ++ hex 8 c.toNat

/-- A text in quotes, for a message. -/
def quoted (s : Text) : Text :=
  let q := quoteFor s
  q :: s.flatMap (escaped q) ++ [q]

/-! ## JSON -/

/-- The UTF-16 units of a character. -/
def units16 (c : Char) : List Nat :=
  let n := c.toNat
  if n < 0x10000 then [n]
  else [0xD800 + (n - 0x10000) / 0x400, 0xDC00 + (n - 0x10000) % 0x400]

/-- A character inside a JSON string. -/
def jsonEscaped (c : Char) : Text :=
  if c == '\x22' || c == '\\' then ['\\', c]
  else if c == '\n' then ['\\', 'n']
  else if c == '\r' then ['\\', 'r']
  else if c == '\t' then ['\\', 't']
  else if c == '\x0c' then ['\\', 'f']
  else if c == '\x08' then ['\\', 'b']
  else if ' ' ≤ c && c ≤ '~' then [c]
  else (units16 c).flatMap fun u => ['\\', 'u'] ++ hex 4 u

/-- A text as a JSON string. -/
def jsonQuoted (s : Text) : Text := '\x22' :: s.flatMap jsonEscaped ++ ['\x22']

end Text

end Unflag
