/-
Values of a configuration, before anything is known about them.

A configuration file may hold anything; settings are made from it by checking. A number
with a fraction is kept in double precision.
-/
import Unflag.Double.Shortest
import Unflag.Moment
import Unflag.Text.Encoding
import Unflag.Text.Number

set_option autoImplicit false

namespace Unflag

/-- A value of a configuration. -/
inductive Value where
  | null
  | bool (b : Bool)
  | int (n : Int)
  | float (d : Double)
  | string (s : Text)
  /-- A text with code points that are no characters, as it is shown. -/
  | broken (shown : Text)
  | bytes (bs : Bytes)
  | date (year month day : Nat)
  /-- A day and a time, and the minutes by which its clock is ahead of the universal one, if
  that is known. -/
  | moment (m : Moment) (zone : Option Int)
  | list (items : List Value)
  /-- Values without an order of their own; they are kept as they came. -/
  | set (items : List Value)
  | map (entries : List (Value × Value))

namespace Value

/-- The word for the kind of a value. -/
def kind : Value → String
  | .null => "NoneType"
  | .bool _ => "bool"
  | .int _ => "int"
  | .float _ => "float"
  | .string _ | .broken _ => "str"
  | .bytes _ => "bytes"
  | .date _ _ _ => "date"
  | .moment _ _ => "datetime"
  | .list _ => "list"
  | .set _ => "set"
  | .map _ => "dict"

/-! ## Text -/

/-- A byte inside quotes. -/
def byteText (quote : Char) (b : UInt8) : Text :=
  let c := Char.ofNat b.toNat
  if b.toNat < 0x7F then Text.escaped quote c else ['\\', 'x'] ++ Text.hex 2 b.toNat

/-- The text of bytes. -/
def bytesText (bs : Bytes) : Text :=
  let quote := Text.quoteFor (bs.map fun b => Char.ofNat b.toNat)
  'b' :: quote :: bs.flatMap (byteText quote) ++ [quote]

/-- Numbers with commas between them. -/
def listing (ns : List Nat) : String := ", ".intercalate (ns.map fun n => toString n)

/-- The text of a distance in minutes: full days, which may be negative, and seconds. -/
def distanceText (minutes : Int) : String :=
  let days := minutes / 1440
  let seconds := minutes % 1440 * 60
  let parts := (if days = 0 then [] else [s!"days={days}"])
    ++ if seconds = 0 then [] else [s!"seconds={seconds}"]
  let amount := if parts.isEmpty then "0" else ", ".intercalate parts
  s!"datetime.timedelta({amount})"

/-- The text of a time zone. -/
def zoneText (minutes : Int) : String :=
  if minutes = 0 then "datetime.timezone.utc" else s!"datetime.timezone({distanceText minutes})"

/-- The text of a moment: seconds and what is behind them only where they are not zero. -/
def momentText (m : Moment) (zone : Option Int) : String :=
  let fields := [m.year, m.month, m.day, m.hour, m.minute]
    ++ if m.micros != 0 then [m.second, m.micros] else if m.second != 0 then [m.second] else []
  let zone := match zone with
    | none => ""
    | some minutes => s!", tzinfo={zoneText minutes}"
  s!"datetime.datetime({listing fields}{zone})"

/-- The text by which a value is named as a key. Truth values count as the numbers 0 and 1;
lists, sets and mappings are no keys. -/
def keyText : Value → Text
  | .string s => s
  | .broken s => s
  | .bytes bs => bytesText bs
  | .int n => Text.decimal n
  | .bool b => if b then ['1'] else ['0']
  | .null => "None".toList
  | .float d => d.text
  | .date y m d => s!"datetime.date({listing [y, m, d]})".toList
  | .moment m zone => (momentText m zone).toList
  | .list _ | .set _ | .map _ => []

mutual

/-- The text of a value in a record. Whole numbers that are too long cannot be written. -/
def shown : Value → Except Fault Text
  | .string s => .ok (Text.quoted s)
  | .bool b => .ok (if b then "True".toList else "False".toList)
  | .int n => Text.ofInteger n
  | .list vs => (shownItems vs).map fun ts => '[' :: Text.joinWith ", ".toList ts ++ [']']
  | .set [] => .ok "set()".toList
  | .set vs => (shownItems vs).map fun ts => '\x7b' :: Text.joinWith ", ".toList ts ++ ['\x7d']
  | .map es => (shownEntries es).map fun ts => '\x7b' :: Text.joinWith ", ".toList ts ++ ['\x7d']
  | v => .ok v.keyText

/-- The texts of the items of a list. -/
def shownItems : List Value → Except Fault (List Text)
  | [] => .ok []
  | v :: vs => do return (← shown v) :: (← shownItems vs)

/-- The texts of the entries of a mapping. -/
def shownEntries : List (Value × Value) → Except Fault (List Text)
  | [] => .ok []
  | (k, v) :: es => do return ((← shown k) ++ ": ".toList ++ (← shown v)) :: (← shownEntries es)

end

/-! ## Keys -/

/-- What a key is told apart by. -/
inductive Identity where
  | null
  | number (n : Int)
  | float (d : Double)
  | string (s : Text)
  | broken (shown : Text)
  | bytes (bs : Bytes)
  | date (year month day : Nat)
  | moment (m : Moment)
  /-- A moment whose time zone is known. -/
  | instant (micros : Nat) (seconds : Int)
  deriving DecidableEq, Repr

/-- What a value is told apart by as a key. Truth values count as the numbers 0 and 1. What is no
number is never the same key again, and lists, sets and mappings are no keys. -/
def identity? : Value → Option Identity
  | .null => some .null
  | .bool b => some (.number (if b then 1 else 0))
  | .int n => some (.number n)
  | .float d =>
    match d.integer? with
    | some n => some (.number n)
    | none => if d = .notANumber then none else some (.float d)
  | .string s => some (.string s)
  | .broken shown => some (.broken shown)
  | .bytes bs => some (.bytes bs)
  | .date y m d => some (.date y m d)
  | .moment m none => some (.moment m)
  | .moment m (some zone) => some (.instant m.micros (m.seconds - zone * 60))
  | .list _ | .set _ | .map _ => none

/-- Whether two values are the same key. -/
def sameKey (a b : Value) : Bool := a.identity?.isSome && a.identity? == b.identity?

end Value

end Unflag
