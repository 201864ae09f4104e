/-
Durations, in milliseconds, and their two texts.

A duration is known to the millisecond, and its seconds are a number of double precision.
Reports give that number with as few decimals as it needs. The log gives hundredths of a
second, and these are rounded from the number of double precision, not from the decimal one:
15 ms lies below the middle between two hundredths there, and 35 ms above it.

A clock that is set back gives a duration below zero.
-/
import Unflag.Double.Shortest

set_option autoImplicit false

namespace Unflag

/-- A length of time. -/
structure Duration where
  millis : Int
  deriving DecidableEq, Repr

namespace Duration

/-- The seconds in double precision. -/
def seconds (d : Duration) : Double := .nearest (d.millis < 0) d.millis.natAbs 1000

/-- The hundredths nearest to a number, without its sign. -/
def nearestHundredths : Double → Nat
  | .finite _ m e => Double.roundQuotient (Double.doubled (m * 100) e) (Double.doubled 1 (-e))
  | _ => 0

/-- A number of hundredths: the whole part, a point, and two decimals. -/
def fixedPoint (n : Nat) : Text :=
  let frac := Nat.toDigits 10 (n % 100)
  Nat.toDigits 10 (n / 100) ++ ['.'] ++ List.replicate (2 - frac.length) '0' ++ frac

/-- The seconds with two decimals. -/
def hundredths (d : Duration) : Text :=
  (if d.millis < 0 then ['-'] else []) ++ fixedPoint (nearestHundredths d.seconds)

/-- The seconds with as few decimals as they need, but at least one. Double precision keeps the
milliseconds as long as it can tell them apart, so nothing has to be rounded first. -/
def shortest (d : Duration) : Text := d.seconds.text

end Duration

end Unflag
