/-
The text of a number of double precision.

A number is written with the fewest digits that are read back as the same number, and of
several such texts the one nearest to it. For every count of digits only two decimals can be
meant, the one below the number and the one above it, so the search tries those two for one
digit, for two digits, and so on. Seventeen digits are always enough.

Numbers from `10 ^ -4` on and below `10 ^ 16` are written out, with at least one digit on
either side of the point; all others have one digit in front of the point and a power of ten
with a sign and at least two digits.
-/
import Unflag.Double

set_option autoImplicit false

namespace Unflag

namespace Double

/-- `digits · 10 ^ power`. -/
structure Decimal where
  digits : Nat
  power : Int
  deriving DecidableEq, Repr

/-- A positive number as a quotient. -/
def quotient (m : Nat) (e : Int) : Nat × Nat := (doubled m e, doubled 1 (-e))

/-- `n · 10 ^ k`, and `n` itself if `k` is negative. -/
def tenfold (n : Nat) (k : Int) : Nat := n * Nat.pow 10 k.toNat

/-- The least `k` for which a positive quotient is below `10 ^ k`. -/
def decimalOrder (num den : Nat) : Int :=
  let k : Int := ((Nat.toDigits 10 num).length : Int) - (Nat.toDigits 10 den).length
  if tenfold num (-k) < tenfold den k then k else k + 1

/-- The decimal with so many digits that is read back as a positive number, if there is one;
of two, the nearer, and on a tie the one with an even last digit. -/
def decimalWith? (m : Nat) (e : Int) (count : Nat) : Option Decimal :=
  let (num, den) := quotient m e
  let power := decimalOrder num den - count
  let num := tenfold num (-power)
  let den := tenfold den power
  let below := num / den
  let isRead (digits : Nat) : Bool := ofDecimal false digits power == .finite false m e
  match isRead below, isRead (below + 1) with
  | true, true => some ⟨roundQuotient num den, power⟩
  | true, false => some ⟨below, power⟩
  | false, true => some ⟨below + 1, power⟩
  | false, false => none

/-- The shortest decimal of a positive number. -/
def shortest (m : Nat) (e : Int) : Decimal :=
  ((List.range 17).findSome? fun n => decimalWith? m e (n + 1)).getD ⟨m, e⟩

/-- The digits of a decimal without zeros at the end, and the place of the point behind
them, counted from the front. -/
def Decimal.layout (d : Decimal) : Text × Int :=
  let ds := Nat.toDigits 10 d.digits
  ((ds.reverse.dropWhile (· == '0')).reverse, d.power + ds.length)

/-- Digits with a point in them, written out. -/
def writeOut (ds : Text) (point : Int) : Text :=
  let zeros (k : Int) : Text := List.replicate k.toNat '0'
  let whole := ds.take point.toNat ++ zeros (point - ds.length)
  let fraction := zeros (-point) ++ ds.drop point.toNat
  (if whole.isEmpty then ['0'] else whole) ++ '.' :: if fraction.isEmpty then ['0'] else fraction

/-- Digits with a power of ten. -/
def writeScaled (ds : Text) (power : Int) : Text :=
  let exponent := Nat.toDigits 10 power.natAbs
  ds.take 1 ++ (if ds.length ≤ 1 then [] else '.' :: ds.drop 1)
    ++ ['e', if power < 0 then '-' else '+']
    ++ List.replicate (2 - exponent.length) '0' ++ exponent

/-- The text of a number. -/
def text : Double → Text
  | .notANumber => "nan".toList
  | .infinite isNegative => (if isNegative then ['-'] else []) ++ "inf".toList
  | .finite isNegative m e =>
    let sign := if isNegative then ['-'] else []
    if m = 0 then sign ++ "0.0".toList
    else
      let (ds, point) := (shortest m e).layout
      sign ++ if -4 < point && point ≤ 16 then writeOut ds point else writeScaled ds (point - 1)

end Double

end Unflag
