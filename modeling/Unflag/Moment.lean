/-
Moments: a day and a time of day, and their two texts.

A report gives the moment its run started, to the microsecond if it does not fall on a full
second. The log gives the time of day only.
-/
import Unflag.Text

set_option autoImplicit false

namespace Unflag

/-- A day and a time of day. -/
structure Moment where
  year : Nat
  month : Nat
  day : Nat
  hour : Nat
  minute : Nat
  second : Nat
  micros : Nat
  deriving DecidableEq, Repr

namespace Moment

/-- A number with at least so many digits. -/
def padded (width n : Nat) : Text :=
  let digits := Nat.toDigits 10 n
  List.replicate (width - digits.length) '0' ++ digits

/-- The time of day, to the second. -/
def timeOfDay (m : Moment) : Text :=
  Text.joinWith [':'] [padded 2 m.hour, padded 2 m.minute, padded 2 m.second]

/-- The day. -/
def date (m : Moment) : Text :=
  Text.joinWith ['-'] [padded 4 m.year, padded 2 m.month, padded 2 m.day]

/-- The whole moment. -/
def text (m : Moment) : Text :=
  m.date ++ 'T' :: m.timeOfDay ++ if m.micros = 0 then [] else '.' :: padded 6 m.micros

/-! ## Counting -/

/-- The number of a day. Years are counted from March, so that a leap day is the last of its
year. -/
def dayNumber (year month day : Nat) : Nat :=
  let y := if month ≤ 2 then year - 1 else year
  365 * y + y / 4 - y / 100 + y / 400 + (153 * ((month + 9) % 12) + 2) / 5 + day

/-- The number of full seconds up to a moment. -/
def seconds (m : Moment) : Int :=
  (((dayNumber m.year m.month m.day * 24 + m.hour) * 60 + m.minute) * 60 + m.second : Nat)

end Moment

end Unflag
