/-
The values of YAML scalars, by the rules of YAML 1.1.

A quoted text is text. A plain one may be nothing, a truth value, a number, or a day, and its
form decides which: the words for the truth values include yes, no, on and off; a leading
zero makes a number octal; underscores in numbers do not count; and groups of digits between
colons are counted by sixties.

The form fixes the type, by `tagOf`, and the value is made afterwards. A type that is named
asks for the value whatever the form, so making it can fail; and so it can where a form lets
through a number without any digits.
-/
import Unflag.Text.Base64
import Unflag.Yaml.Tag
import Unflag.Yaml.Timestamp

set_option autoImplicit false

namespace Unflag

namespace Yaml

namespace Scalar

/-- Whether a text is not empty and all of it passes a test. -/
def isAll (test : Char → Bool) (s : Text) : Bool := !s.isEmpty && s.all test

/-- Digits and underscores. -/
def isDigitOrBar (c : Char) : Bool := c.isDigit || c == '_'

/-- A text without its underscores. -/
def withoutBars (s : Text) : Text := s.filter (· != '_')

/-- The pieces of a text between colons. -/
def splitColons : Text → List Text
  | [] => [[]]
  | c :: r =>
    match splitColons r with
    | [] => [[c]]
    | p :: ps => if c = ':' then [] :: p :: ps else (c :: p) :: ps

/-- One or two digits below sixty. -/
def isSixtieth : Text → Bool
  | [c] => c.isDigit
  | [d, c] => '0' ≤ d && d ≤ '5' && c.isDigit
  | _ => false

/-- A digit, and then digits and underscores. -/
def isCount (s : Text) : Bool := (s.head?.map Char.isDigit).getD false && s.all isDigitOrBar

/-- A count, and then groups of digits behind colons. -/
def isByColons (s : Text) : Bool :=
  match splitColons s with
  | first :: groups => isCount first && groups.all isSixtieth
  | [] => false

/-! ## Truth values and nothing -/

/-- A word as it is, capitalised, or in capitals. -/
def spellings (word : String) : List Text :=
  let w := word.toList
  [w, (w.take 1).map Char.toUpper ++ w.drop 1, w.map Char.toUpper]

/-- The truth value of a word. -/
def bool? (s : Text) : Option Bool :=
  if (["yes", "true", "on"].flatMap spellings).contains s then some true
  else if (["no", "false", "off"].flatMap spellings).contains s then some false
  else none

/-- Whether a text that is not empty stands for nothing. -/
def isNull (s : Text) : Bool := s == ['~'] || (spellings "null").contains s

/-- The truth value of a text that is said to be one. -/
def boolOf (s : Text) : Except Fault Bool :=
  let word := s.map Char.toLower
  match bool? word with
  | some b => .ok b
  | none => .error (.noSuchKey word)

/-! ## Whole numbers -/

/-- Whether a text has the form of a whole number. -/
def isInteger (s : Text) : Bool :=
  match (Text.unsigned s).1 with
  | ['0'] => true
  | '0' :: 'b' :: ds => isAll (fun c => (Text.digitValue? 2 c).isSome || c == '_') ds
  | '0' :: 'x' :: ds => isAll (fun c => (Text.digitValue? 16 c).isSome || c == '_') ds
  | '0' :: ds => isAll (fun c => (Text.digitValue? 8 c).isSome || c == '_') ds
  | t => isByColons t

/-- A whole number in a base. -/
def readInteger (base : Nat) (s : Text) : Except Fault Int :=
  match Text.readInteger? base s with
  | some n => .ok n
  | none => .error (.notInteger base s)

/-- The whole number of a text without sign. The marks in front say which base it has. -/
def magnitudeOf : Text → Except Fault Int
  | [] => .error .beyondEnd
  | '0' :: 'b' :: ds => readInteger 2 ds
  | '0' :: 'x' :: ds => readInteger 16 ds
  | '0' :: ds => readInteger 8 ('0' :: ds)
  | s => do
    let groups ← (splitColons s).mapM Text.toInteger
    return groups.foldl (fun n g => n * 60 + g) 0

/-- The whole number of a text that is said to be one. -/
def integerOf (s : Text) : Except Fault Int :=
  let (t, isNegative) := Text.unsigned (withoutBars s)
  (magnitudeOf t).map fun n => if isNegative then -n else n

/-! ## Numbers with a point -/

/-- Whether a text is nothing, or the power of ten behind the digits of a number, which has a
sign. -/
def isPower : Text → Bool
  | [] => true
  | e :: sign :: ds =>
    (e == 'e' || e == 'E') && (sign == '+' || sign == '-') && isAll Char.isDigit ds
  | _ => false

/-- Whether a text has the form of a number with a point. -/
def isFraction (s : Text) : Bool :=
  let t := (Text.unsigned s).1
  let whole := t.takeWhile (· != '.')
  match t.dropWhile (· != '.') with
  | [] => false
  | _ :: r =>
    let fraction := r.takeWhile isDigitOrBar
    let tail := r.drop fraction.length
    if whole.isEmpty then
      (spellings "inf").contains r
        || s.length = t.length
          && (["nan", "NaN", "NAN"].contains (String.ofList r) || isCount fraction && isPower tail)
    else isCount whole && isPower tail || isByColons whole && tail.isEmpty

/-- A number of double precision. -/
def readDouble (s : Text) : Except Fault Double :=
  match Double.ofText? s with
  | some d => .ok d
  | none => .error (.notNumber s)

/-- The number whose groups are counted by sixties, summed up from the last one, which has
this weight. -/
def sumBySixties (weight : Nat) (sum : Double) : List Double → Double
  | [] => sum
  | d :: ds => sumBySixties (weight * 60) (sum.add (d.mul (.nearest false weight 1))) ds

/-- The number of a text without sign. -/
def fractionBehindSign (s : Text) : Except Fault Double :=
  if s == ".inf".toList then .ok (.infinite false)
  else if s == ".nan".toList then .ok .notANumber
  else if s.contains ':' then do
    let groups ← (splitColons s).mapM readDouble
    return sumBySixties 1 (.nearest false 0 1) groups.reverse
  else readDouble s

/-- The number of double precision of a text that is said to be one. -/
def fractionOf (s : Text) : Except Fault Double :=
  match (withoutBars s).map Char.toLower with
  | [] => .error .beyondEnd
  | t =>
    let (t, isNegative) := Text.unsigned t
    (fractionBehindSign t).map fun d => if isNegative then d.neg else d

/-! ## Days and bytes -/

/-- A text without the line feed at its end. -/
def withoutLineFeed (s : Text) : Text := if s.getLast? == some '\n' then s.dropLast else s

/-- The day or moment of a text that is said to be one. -/
def timestampOf (s : Text) : Except Fault Value :=
  match Timestamp.ofText? (withoutLineFeed s) with
  | some t => t.value
  | none => .error (.missingPart "NoneType" "groupdict")

/-- The bytes of a text that is said to hold some, if it is well formed. -/
def bytesOf? (s : Text) : Option Bytes :=
  if s.all fun c => c.toNat < 0x80 then Base64.decode? s else none

/-! ## Types -/

/-- The type of a plain text, which its form decides. A line feed at the end does not count. -/
def tagOf (s : Text) : Tag :=
  let t := withoutLineFeed s
  if s.isEmpty then .null
  else if (bool? t).isSome then .bool
  else if isFraction t then .float
  else if isInteger t then .int
  else if t == ['<', '<'] then .merge
  else if isNull t then .null
  else if ((Timestamp.ofText? t).map Timestamp.isPlain).getD false then .timestamp
  else if t == ['='] then .value
  else .str

end Scalar

end Yaml

end Unflag
