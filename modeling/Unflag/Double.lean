/-
Numbers of double precision.

A finite number is a sign, a mantissa of at most 53 bits and a power of two. It is kept
exactly, so nothing here depends on the arithmetic of a machine: an operation is carried out
on whole numbers and rounded once, by `nearest`. A tie goes to the even mantissa, and what is
too large for the format becomes infinite.

Every number has one form: the mantissa has 53 bits unless the exponent is the least one.
-/
import Unflag.Text.Number

set_option autoImplicit false

namespace Unflag

/-- A number of double precision. -/
inductive Double where
  /-- `mantissa · 2 ^ exponent` with a sign. -/
  | finite (isNegative : Bool) (mantissa : Nat) (exponent : Int)
  | infinite (isNegative : Bool)
  | notANumber
  deriving DecidableEq, Repr

namespace Double

/-! ## Rounding -/

/-- The nearest whole number to a quotient; a tie goes to the even one. -/
def roundQuotient (num den : Nat) : Nat :=
  let q := num / den
  let r := num % den
  if 2 * r < den then q
  else if den < 2 * r then q + 1
  else if q % 2 = 0 then q else q + 1

/-- The least exponent of the format. -/
def leastExponent : Int := -1074

/-- The greatest exponent of the format. -/
def greatestExponent : Int := 971

/-- `n · 2 ^ k`, and `n` itself if `k` is negative. -/
def doubled (n : Nat) (k : Int) : Nat := n * Nat.pow 2 k.toNat

/-- The greatest `k` for which `2 ^ k` is not above a positive quotient. -/
def binaryOrder (num den : Nat) : Int :=
  let k : Int := (num.log2 : Int) - den.log2
  if doubled num (-k) < doubled den k then k - 1 else k

/-- The number of double precision that is nearest to a quotient. -/
def nearest (isNegative : Bool) (num den : Nat) : Double :=
  if num = 0 then .finite isNegative 0 leastExponent
  else
    let e := max leastExponent (binaryOrder num den - 52)
    let m := roundQuotient (doubled num (-e)) (doubled den e)
    let (m, e) := if m = Nat.pow 2 53 then (Nat.pow 2 52, e + 1) else (m, e)
    if greatestExponent < e then .infinite isNegative else .finite isNegative m e

/-- The number that is nearest to `digits · 10 ^ power`. Powers far outside of the format are
not worked out. -/
def ofDecimal (isNegative : Bool) (digits : Nat) (power : Int) : Double :=
  let order := power + (Nat.toDigits 10 digits).length
  if digits = 0 || order < -330 then .finite isNegative 0 leastExponent
  else if 310 < order then .infinite isNegative
  else
    nearest isNegative (digits * Nat.pow 10 power.toNat) (Nat.pow 10 (-power).toNat)

/-! ## Values -/

/-- The whole number that a number is, if it is one. -/
def integer? : Double → Option Int
  | .finite isNegative m e =>
    let unit := doubled 1 (-e)
    if m % unit = 0 then some (Text.withSign isNegative (doubled (m / unit) e)) else none
  | _ => none

/-- The number with the other sign. -/
def neg : Double → Double
  | .finite isNegative m e => .finite (!isNegative) m e
  | .infinite isNegative => .infinite (!isNegative)
  | .notANumber => .notANumber

/-- The sum of two numbers. A sum of zero is positive unless both of them are negative. -/
def add : Double → Double → Double
  | .finite a m e, .finite b n f =>
    let least := min e f
    let sum := Text.withSign a (doubled m (e - least)) + Text.withSign b (doubled n (f - least))
    nearest (if sum = 0 then a && b else sum < 0) (doubled sum.natAbs least) (doubled 1 (-least))
  | .notANumber, _ => .notANumber
  | _, .notANumber => .notANumber
  | .infinite a, .infinite b => if a = b then .infinite a else .notANumber
  | .infinite a, _ => .infinite a
  | _, .infinite b => .infinite b

/-- The product of two numbers. -/
def mul : Double → Double → Double
  | .finite a m e, .finite b n f =>
    nearest (a != b) (doubled (m * n) (e + f)) (doubled 1 (-(e + f)))
  | .notANumber, _ => .notANumber
  | _, .notANumber => .notANumber
  | .infinite a, .infinite b => .infinite (a != b)
  | .infinite a, .finite b n _ => if n = 0 then .notANumber else .infinite (a != b)
  | .finite a m _, .infinite b => if m = 0 then .notANumber else .infinite (a != b)

/-! ## Text -/

/-- The power of ten behind the digits of a number: nothing, or a mark, perhaps a sign, and
digits. -/
def power? : Text → Option Int
  | [] => some 0
  | mark :: r =>
    let (ds, isNegative) := Text.unsigned r
    if (mark == 'e' || mark == 'E') && ds.all Char.isDigit then
      (Text.positional? 10 ds).map (Text.withSign isNegative)
    else none

/-- The number of a text without sign: digits, perhaps with a point among or around them, and
perhaps a power of ten. -/
def ofDigits? (isNegative : Bool) (s : Text) : Option Double := do
  let whole := s.takeWhile Char.isDigit
  let rest := s.drop whole.length
  let behind := if rest.head? == some '.' then rest.tail else []
  let fraction := behind.takeWhile Char.isDigit
  let power ← power? (if rest.head? == some '.' then behind.drop fraction.length else rest)
  let digits ← Text.positional? 10 (whole ++ fraction)
  return ofDecimal isNegative digits (power - fraction.length)

/-- The number of a text, with margins around it and perhaps a sign in front. -/
def ofText? (s : Text) : Option Double :=
  let (t, isNegative) := Text.unsigned (Text.withoutMargins s)
  let word := String.ofList (t.map Char.toLower)
  if word == "inf" || word == "infinity" then some (.infinite isNegative)
  else if word == "nan" then some .notANumber
  else ofDigits? isNegative (t.map Text.asciiDigit)

end Double

end Unflag
