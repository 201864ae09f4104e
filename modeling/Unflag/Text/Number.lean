/-
Numbers as texts: digits in a base up to 16, and whole numbers.

Every script that counts by tens has ten digits in a row, so a table of the zeros is enough to
read all of them. In decimal, numbers are read and written up to a limit of digits; in the bases
that are powers of two there is none.
-/
import Unflag.Fault

set_option autoImplicit false

namespace Unflag

namespace Text

/-- The value of a digit, if it is one in this base. -/
def digitValue? (base : Nat) (c : Char) : Option Nat :=
  let n := c.toNat
  let v :=
    if '0' ≤ c && c ≤ '9' then n - '0'.toNat
    else if 'a' ≤ c && c ≤ 'f' then n - 'a'.toNat + 10
    else if 'A' ≤ c && c ≤ 'F' then n - 'A'.toNat + 10
    else base
  if v < base then some v else none

/-- The positional value of a non-empty list of digits. -/
def positional? (base : Nat) (ds : Text) : Option Nat :=
  if ds.isEmpty then none
  else ds.foldlM (fun acc c => (digitValue? base c).map (acc * base + ·)) 0

/-- A whole number in decimal digits. -/
def decimal : Int → Text
  | .ofNat n => Nat.toDigits 10 n
  | .negSucc n => '-' :: Nat.toDigits 10 (n + 1)

/-- A whole number as a text, as long as it has no more digits than are written. -/
def ofInteger (n : Int) : Except Fault Text :=
  if Fault.digitLimit < (Nat.toDigits 10 n.natAbs).length then .error .tooLongToWrite
  else .ok (decimal n)

/-- The value of digits in a base, with single underscores between digits. -/
def readDigits? (base : Nat) (s : Text) : Option Nat :=
  let wellPlaced := !s.isEmpty && s.head? != some '_' && s.getLast? != some '_'
    && !occursIn "__".toList s
  if wellPlaced then positional? base (s.filter (· != '_')) else none

/-- The zeros of all scripts that have decimal digits. -/
def zeros : List Nat :=
  [0x30, 0x660, 0x6F0, 0x7C0, 0x966, 0x9E6, 0xA66, 0xAE6, 0xB66, 0xBE6, 0xC66, 0xCE6, 0xD66,
    0xDE6, 0xE50, 0xED0, 0xF20, 0x1040, 0x1090, 0x17E0, 0x1810, 0x1946, 0x19D0, 0x1A80, 0x1A90,
    0x1B50, 0x1BB0, 0x1C40, 0x1C50, 0xA620, 0xA8D0, 0xA900, 0xA9D0, 0xA9F0, 0xAA50, 0xABF0,
    0xFF10, 0x104A0, 0x10D30, 0x11066, 0x110F0, 0x11136, 0x111D0, 0x112F0, 0x11450, 0x114D0,
    0x11650, 0x116C0, 0x11730, 0x118E0, 0x11950, 0x11C50, 0x11D50, 0x11DA0, 0x16A60, 0x16AC0,
    0x16B50, 0x1D7CE, 0x1D7D8, 0x1D7E2, 0x1D7EC, 0x1D7F6, 0x1E140, 0x1E2F0, 0x1E950, 0x1FBF0]

/-- A decimal digit of any script as an ASCII digit; other characters stay as they are. -/
def asciiDigit (c : Char) : Char :=
  match zeros.find? fun z => z ≤ c.toNat && c.toNat ≤ z + 9 with
  | some z => Char.ofNat ('0'.toNat + (c.toNat - z))
  | none => c

/-- The blanks that may stand around a number: those of every script, but no information
separators. -/
def isMargin (c : Char) : Bool := isBlank c && !inRanges [(0x1C, 0x1F)] c.toNat

/-- A text without margins. -/
def withoutMargins (s : Text) : Text :=
  ((s.dropWhile isMargin).reverse.dropWhile isMargin).reverse

/-- A text without its sign, and whether the sign is a minus. -/
def unsigned : Text → Text × Bool
  | '+' :: r => (r, false)
  | '-' :: r => (r, true)
  | s => (s, false)

/-- A whole number with its sign. -/
def withSign (isNegative : Bool) (n : Nat) : Int := if isNegative then -(n : Int) else n

/-- The letter of the mark that may stand in front of digits in this base. -/
def baseMark? (base : Nat) : Option Char :=
  if base = 2 then some 'b' else if base = 8 then some 'o' else if base = 16 then some 'x'
  else none

/-- Digits without the mark of their base, behind which an underscore may stand. -/
def withoutMark (base : Nat) : Text → Text
  | '0' :: c :: r =>
    if baseMark? base = some c.toLower then (if r.head? == some '_' then r.tail else r)
    else '0' :: c :: r
  | s => s

/-- The whole number a text stands for in a base: perhaps a sign, perhaps the mark of the
base, and digits, decimal ones of any script, with margins around them. -/
def readInteger? (base : Nat) (s : Text) : Option Int :=
  let (ds, isNegative) := unsigned (withoutMargins s)
  (readDigits? base (withoutMark base (ds.map asciiDigit))).map (withSign isNegative)

/-- The number of digits, of any script, that a decimal number starts with behind its margins and
its sign. Underscores between them do not count. -/
def leadingDigits (s : Text) : Nat :=
  let ds := (unsigned (withoutMargins s)).1.map asciiDigit
  (ds.takeWhile fun c => c.isDigit || c == '_').countP Char.isDigit

/-- The whole number a text stands for in decimal, as long as it has no more digits than are
read. The digits are counted before anything else about the text is looked at. -/
def toInteger (s : Text) : Except Fault Int :=
  if Fault.digitLimit < leadingDigits s then .error (.tooManyDigits (leadingDigits s))
  else
    match readInteger? 10 s with
    | some n => .ok n
    | none => .error (.notInteger 10 s)

end Text

end Unflag
