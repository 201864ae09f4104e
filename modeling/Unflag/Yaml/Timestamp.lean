/-
Days and times in YAML documents.

A timestamp is a day, or a day with a time that may have a fraction and a time zone. Its text
is first read for its form and then checked: a text can have the form of a day that there
is not. The time zone is checked first, then the day, then the time.
-/
import Unflag.Fault
import Unflag.Settings.Value

set_option autoImplicit false

namespace Unflag

namespace Yaml

/-- A time of day, and the minutes by which its clock is ahead of the universal one. -/
structure Clock where
  hour : Nat
  minute : Nat
  second : Nat
  micros : Nat
  zone : Option Int
  deriving DecidableEq, Repr

/-- A day and perhaps a time, as they are written. -/
structure Timestamp where
  year : Nat
  month : Nat
  day : Nat
  clock : Option Clock
  /-- Whether month and day have two digits each. -/
  isFull : Bool
  deriving DecidableEq, Repr

namespace Timestamp

/-! ## Form -/

/-- The value of digits of which there are at least and at most so many. -/
def digits? (least most : Nat) (s : Text) : Option Nat :=
  if least ≤ s.length && s.length ≤ most && s.all Char.isDigit then Text.positional? 10 s
  else none

/-- A text up to a character, and what is behind that. -/
def cut? (c : Char) (s : Text) : Option (Text × Text) :=
  match s.dropWhile (· != c) with
  | [] => none
  | _ :: r => some (s.takeWhile (· != c), r)

/-- Spaces and tabs. -/
def isGap (c : Char) : Bool := c == ' ' || c == '\t'

/-- The minutes of a distance in hours and perhaps minutes. -/
def distance? (s : Text) : Option Nat :=
  match cut? ':' s with
  | none => (digits? 1 2 s).map (· * 60)
  | some (h, m) => do return (← digits? 1 2 h) * 60 + (← digits? 2 2 m)

/-- A time zone: nothing, a letter, or a distance with a sign. -/
def zone? (s : Text) : Option (Option Int) :=
  match s.dropWhile isGap with
  | [] => if s.isEmpty then some none else none
  | ['Z'] => some (some 0)
  | '+' :: r => (distance? r).map fun n => some (Text.withSign false n)
  | '-' :: r => (distance? r).map fun n => some (Text.withSign true n)
  | _ => none

/-- The microseconds of the digits behind the point of a second. Digits that are too many do
not count. -/
def microsOf (ds : Text) : Nat :=
  let ds := ds.take 6
  (Text.positional? 10 (ds ++ List.replicate (6 - ds.length) '0')).getD 0

/-- A time of day. -/
def clock? (s : Text) : Option Clock := do
  let (h, r) ← cut? ':' s
  let (m, r) ← cut? ':' r
  let hour ← digits? 1 2 h
  let minute ← digits? 2 2 m
  let second ← digits? 2 2 (r.take 2)
  let r := r.drop 2
  let behind := if r.head? == some '.' then r.tail else []
  let fraction := behind.takeWhile Char.isDigit
  let zone ← zone? (if r.head? == some '.' then behind.drop fraction.length else r)
  return ⟨hour, minute, second, microsOf fraction, zone⟩

/-- What is behind a day: a letter or blanks, and a time. -/
def clockBehind? : Text → Option Clock
  | 'T' :: r | 't' :: r => clock? r
  | c :: r => if isGap c then clock? (r.dropWhile isGap) else none
  | [] => none

/-- The timestamp of a text that has the form of one. -/
def ofText? (s : Text) : Option Timestamp := do
  let (y, r) ← cut? '-' s
  let (m, r) ← cut? '-' r
  let d := r.takeWhile Char.isDigit
  let year ← digits? 4 4 y
  let month ← digits? 1 2 m
  let day ← digits? 1 2 d
  let behind := r.drop d.length
  let clock ← if behind.isEmpty then some none else (clockBehind? behind).map some
  return ⟨year, month, day, clock, m.length = 2 && d.length = 2⟩

/-- Whether a plain text with this form is a timestamp: a day alone is written in full. -/
def isPlain (t : Timestamp) : Bool := t.isFull || t.clock.isSome

/-! ## Value -/

/-- The number of days of a month. -/
def daysIn (year month : Nat) : Nat :=
  if month = 2 then
    if year % 4 = 0 && (year % 100 != 0 || year % 400 = 0) then 29 else 28
  else if [4, 6, 9, 11].contains month then 30
  else 31

/-- What is wrong with a day. -/
def dayProblem? (t : Timestamp) : Option String :=
  if t.year = 0 then some "year 0 is out of range"
  else if t.month = 0 || 12 < t.month then some "month must be in 1..12"
  else if t.day = 0 || daysIn t.year t.month < t.day then some "day is out of range for month"
  else none

/-- What is wrong with a time zone: a clock is ahead or behind by less than a day. -/
def zoneProblem? (c : Clock) : Option String :=
  c.zone.bind fun minutes =>
    if minutes.natAbs < 24 * 60 then none
    else
      let text := Value.distanceText minutes
      some ("offset must be a timedelta strictly between -timedelta(hours=24) and "
        ++ s!"timedelta(hours=24), not {text}.")

/-- What is wrong with a time. -/
def timeProblem? (c : Clock) : Option String :=
  if 23 < c.hour then some "hour must be in 0..23"
  else if 59 < c.minute then some "minute must be in 0..59"
  else if 59 < c.second then some "second must be in 0..59"
  else none

/-- The value of a timestamp. -/
def value (t : Timestamp) : Except Fault Value :=
  let problem :=
    t.clock.bind zoneProblem? <|> t.dayProblem? <|> t.clock.bind timeProblem?
  match problem, t.clock with
  | some text, _ => .error (.noSuchValue text)
  | none, none => .ok (.date t.year t.month t.day)
  | none, some c =>
    .ok (.moment ⟨t.year, t.month, t.day, c.hour, c.minute, c.second, c.micros⟩ c.zone)

end Timestamp

end Yaml

end Unflag
