/-
Settings, and how they are made from values.

Every setting has a default. A configuration is a mapping; each of its values is checked
against the setting it is for, and all problems are collected, those of the settings in
the order of the settings and then those of the keys that are no setting.

Checking is lenient where a value says clearly what is meant: numbers may be written as
text, truth values as numbers or words. Text is made from nothing but text and its bytes.
-/
import Unflag.Condition.Grouping
import Unflag.Settings.Value

set_option autoImplicit false

namespace Unflag

/-- The settings of a run. -/
structure Settings where
  swiftExtensions : List Text
  objcExtensions : List Text
  excludedDirs : List Text
  useRipgrep : Bool
  maxWorkers : Int
  conditionPrecedence : Text
  encoding : Text
  /-- The number of unchanged files listed per suffix; 0 lists all. -/
  reportLimit : Int
  deriving DecidableEq, Repr

namespace Settings

/-- The settings of a run that is not configured. -/
def default : Settings where
  swiftExtensions := [".swift".toList]
  objcExtensions := [".m".toList, ".mm".toList, ".h".toList]
  excludedDirs :=
    [".git".toList, ".build".toList, "DerivedData".toList, "Pods".toList, "Carthage".toList]
  useRipgrep := true
  maxWorkers := 4
  conditionPrecedence := "sequential".toList
  encoding := "utf-8".toList
  reportLimit := 0

/-- The suffixes of all source files. -/
def sourceExtensions (s : Settings) : List Text := s.swiftExtensions ++ s.objcExtensions

/-! ## Problems -/

/-- What is wrong with a value. -/
inductive Complaint where
  | notText
  | notCharacters
  | notList
  | notNumber
  | unreadableNumber
  | fraction
  | tooLarge
  | notFinite
  | notTruth
  | unreadableTruth
  | tooSmall
  | unknownChoice
  | unknownKey
  | keyNotText
  deriving DecidableEq, Repr

/-- The word for a complaint. -/
def Complaint.label : Complaint → String
  | .notText => "string_type"
  | .notCharacters => "string_unicode"
  | .notList => "list_type"
  | .notNumber => "int_type"
  | .unreadableNumber => "int_parsing"
  | .fraction => "int_from_float"
  | .tooLarge => "int_parsing_size"
  | .notFinite => "finite_number"
  | .notTruth => "bool_type"
  | .unreadableTruth => "bool_parsing"
  | .tooSmall => "greater_than_equal"
  | .unknownChoice => "value_error"
  | .unknownKey => "extra_forbidden"
  | .keyNotText => "invalid_key"

/-- A complaint and the place it is about. -/
structure Problem where
  place : List Text
  complaint : Complaint
  deriving DecidableEq, Repr

/-! ## Checks -/

/-- The result of checking one setting. -/
abbrev Checked (α : Type) := Except (List Problem) α

/-- A single complaint about a setting. -/
def complain {α : Type} (key : Text) (c : Complaint) : Checked α := .error [⟨[key], c⟩]

/-- The text of a value that has one: a text, or the bytes of one. All others have none; `bad`
is the complaint about bytes that are no text. -/
def textOf? (bad : Complaint) : Value → Option (Except Complaint Text)
  | .string s => some (.ok s)
  | .broken _ => some (.error .notCharacters)
  | .bytes bs => some ((Encoding.utf8.decode bs).mapError fun _ => bad)
  | _ => none

/-- Text is only made from text. -/
def asText (v : Value) : Except Complaint Text :=
  (textOf? .notCharacters v).getD (.error .notText)

/-- A setting that is a text. -/
def checkText (key : Text) (v : Value) : Checked Text :=
  match asText v with
  | .ok s => .ok s
  | .error c => complain key c

/-- The texts of a list, and a complaint for each item that is none. -/
def checkItems (key : Text) : Nat → List Value → List Text × List Problem
  | _, [] => ([], [])
  | i, v :: vs =>
    let (ts, ps) := checkItems key (i + 1) vs
    match asText v with
    | .ok s => (s :: ts, ps)
    | .error c => (ts, ⟨[key, Nat.toDigits 10 i], c⟩ :: ps)

/-- Lists of texts are only made from lists and sets. -/
def checkTexts (key : Text) (v : Value) : Checked (List Text) :=
  match v with
  | .list vs | .set vs =>
    match checkItems key 0 vs with
    | (ts, []) => .ok ts
    | (_, ps) => .error ps
  | _ => complain key .notList

/-- A number without the zeros in front of it, behind a zero or an underscore among them,
which is `last`. The zero in front of a point stays, and so does the last of nothing but
zeros. A minus behind the zeros counts. -/
def behindZeros (last : Char) : Text → Option Text
  | [] => some [last]
  | c :: r =>
    if c = '0' || c = '_' then behindZeros c r
    else if c.isDigit || c = '-' then some (c :: r)
    else if c = '.' then some (last :: c :: r)
    else none

/-- A number without the zeros in front of it. It has to start with a digit or a minus, and what
is behind a minus stays. -/
def withoutZeros : Text → Option Text
  | [] => none
  | c :: r =>
    if c = '0' then behindZeros c r
    else if c.isDigit || c = '-' then some (c :: r)
    else none

/-- A number without a point and the zeros behind it, of which there has to be one. -/
def withoutFraction (s : Text) : Text :=
  let zeros := (s.dropWhile (· != '.')).tail
  if !zeros.isEmpty && zeros.all (· == '0') then s.takeWhile (· != '.') else s

/-- A number without its underscores, if they stand alone and inside of it. -/
def withoutBars (s : Text) : Text :=
  if s.head? == some '_' || s.getLast? == some '_' || Text.occursIn "__".toList s then s
  else s.filter (· != '_')

/-- A whole number in digits, perhaps with a minus, behind which zeros do not count. -/
def plainNumber? : Text → Option Int
  | '-' :: ds => (Text.positional? 10 ds).map (Text.withSign true)
  | ds => (Text.positional? 10 ds).map (Text.withSign false)

/-- A number written as text. Margins do not count, nor does a plus that no minus follows, nor
do zeros in front, a fraction of zeros, and underscores between digits. -/
def readNumber? (s : Text) : Option Int := do
  let t := Text.withoutMargins s
  let t ← match t with
    | '+' :: '-' :: _ => none
    | '+' :: r => some r
    | _ => some t
  let t ← withoutZeros t
  plainNumber? (withoutBars (withoutFraction t))

/-- Whether a whole number has at most 63 bits beside its sign. -/
def isWord (n : Int) : Bool := -(Nat.pow 2 63 : Int) ≤ n && n < Nat.pow 2 63

/-- The whole number of a number in double precision, or what is wrong with it. The number and
its opposite have to have at most 63 bits. -/
def wholeOf (d : Double) : Except Complaint Int :=
  match d with
  | .finite _ _ _ =>
    match d.integer? with
    | none => .error .fraction
    | some n => if isWord n && isWord (-n) then .ok n else .error .tooLarge
  | _ => .error .notFinite

/-- The whole number of a value, from a number, a truth value or a text. -/
def asNumber (v : Value) : Except Complaint Int :=
  match v with
  | .int n => .ok n
  | .bool b => .ok (if b then 1 else 0)
  | .float d => wholeOf d
  | _ => do
    let s ← (textOf? .unreadableNumber v).getD (.error .notNumber)
    match readNumber? s with
    | some n => .ok n
    | none => .error .unreadableNumber

/-- A setting that is a number. -/
def checkInt (key : Text) (v : Value) : Checked Int :=
  match asNumber v with
  | .ok n => .ok n
  | .error c => complain key c

/-- A number that is at least `least`. -/
def checkAtLeast (least : Int) (key : Text) (v : Value) : Checked Int :=
  match checkInt key v with
  | .error ps => .error ps
  | .ok n => if least ≤ n then .ok n else complain key .tooSmall

/-- The words for the truth values. -/
def truthOf? (s : Text) : Option Bool :=
  let word := String.ofList (s.map Char.toLower)
  if ["0", "off", "f", "false", "n", "no"].contains word then some false
  else if ["1", "on", "t", "true", "y", "yes"].contains word then some true
  else none

/-- The truth value of a number. -/
def truthOfNumber (n : Int) : Except Complaint Bool :=
  if n = 0 then .ok false else if n = 1 then .ok true else .error .unreadableTruth

/-- The truth value of a value: of a truth value, one of the numbers 0 and 1, or a word. A
number that is not whole, or too large, is not looked at. -/
def asTruth (v : Value) : Except Complaint Bool :=
  match v with
  | .bool b => .ok b
  | .int n => if isWord n then truthOfNumber n else .error .notTruth
  | .float d => ((wholeOf d).mapError fun _ => .notTruth).bind truthOfNumber
  | _ => do
    let s ← (textOf? .unreadableTruth v).getD (.error .notTruth)
    match truthOf? s with
    | some b => .ok b
    | none => .error .unreadableTruth

/-- A setting that is a truth value. -/
def checkBool (key : Text) (v : Value) : Checked Bool :=
  match asTruth v with
  | .ok b => .ok b
  | .error c => complain key c

/-- Suffixes start with a dot, whether it is written or not. -/
def dotted (ext : Text) : Text := if ext.head? == some '.' then ext else '.' :: ext

/-- A list of suffixes. -/
def checkExtensions (key : Text) (v : Value) : Checked (List Text) :=
  (checkTexts key v).map fun ts => ts.map dotted

/-- The name of a grouping. -/
def checkGrouping (key : Text) (v : Value) : Checked Text :=
  match checkText key v with
  | .error ps => .error ps
  | .ok s =>
    if (Grouping.ofLabel? (String.ofList s)).isSome then .ok s else complain key .unknownChoice

/-! ## Mappings -/

/-- The names of the settings, in order. -/
def keys : List Text :=
  ["swift_extensions".toList, "objc_extensions".toList, "excluded_dirs".toList,
    "use_ripgrep".toList, "max_workers".toList, "condition_precedence".toList,
    "encoding".toList, "report_limit".toList]

/-- The value of a key, if the mapping has it. -/
def valueOf? (entries : List (Value × Value)) (key : Text) : Option Value :=
  (entries.find? fun e => match e.1 with | .string s => s == key | _ => false).map Prod.snd

/-- A setting from a mapping, or its default. -/
def setting {α : Type} (entries : List (Value × Value)) (key : String) (fallback : α)
    (check : Text → Value → Checked α) : Checked α :=
  match valueOf? entries key.toList with
  | some v => check key.toList v
  | none => .ok fallback

/-- The problems of a setting. -/
def problemsOf {α : Type} : Checked α → List Problem
  | .ok _ => []
  | .error ps => ps

/-- The problem of a key that is no setting. Bytes can name a key, but no setting is looked up
by them; they do not count beside the setting that they name. -/
def keyProblem? (entries : List (Value × Value)) (k : Value) : Option Problem :=
  match k, asText k with
  | .string s, _ => if keys.contains s then none else some ⟨[s], .unknownKey⟩
  | _, .ok s =>
    if keys.contains s && (valueOf? entries s).isSome then none
    else some ⟨[k.keyText], .unknownKey⟩
  | _, .error _ => some ⟨[k.keyText], .keyNotText⟩

/-- The settings of a mapping; everything it does not mention keeps its default. -/
def ofEntries (entries : List (Value × Value)) : Checked Settings :=
  let d := default
  let swift := setting entries "swift_extensions" d.swiftExtensions checkExtensions
  let objc := setting entries "objc_extensions" d.objcExtensions checkExtensions
  let excluded := setting entries "excluded_dirs" d.excludedDirs checkTexts
  let ripgrep := setting entries "use_ripgrep" d.useRipgrep checkBool
  let workers := setting entries "max_workers" d.maxWorkers (checkAtLeast 1)
  let grouping := setting entries "condition_precedence" d.conditionPrecedence checkGrouping
  let encoding := setting entries "encoding" d.encoding checkText
  let limit := setting entries "report_limit" d.reportLimit (checkAtLeast 0)
  let problems := problemsOf swift ++ problemsOf objc ++ problemsOf excluded
    ++ problemsOf ripgrep ++ problemsOf workers ++ problemsOf grouping ++ problemsOf encoding
    ++ problemsOf limit ++ entries.filterMap fun e => keyProblem? entries e.1
  match problems, swift, objc, excluded, ripgrep, workers, grouping, encoding, limit with
  | [], .ok a, .ok b, .ok c, .ok e, .ok f, .ok g, .ok h, .ok i => .ok ⟨a, b, c, e, f, g, h, i⟩
  | ps, _, _, _, _, _, _, _, _ => .error ps

/-! ## Overrides -/

/-- The settings as a mapping. -/
def toEntries (s : Settings) : List (Value × Value) :=
  let texts (ts : List Text) : Value := .list (ts.map .string)
  [(.string "swift_extensions".toList, texts s.swiftExtensions),
    (.string "objc_extensions".toList, texts s.objcExtensions),
    (.string "excluded_dirs".toList, texts s.excludedDirs),
    (.string "use_ripgrep".toList, .bool s.useRipgrep),
    (.string "max_workers".toList, .int s.maxWorkers),
    (.string "condition_precedence".toList, .string s.conditionPrecedence),
    (.string "encoding".toList, .string s.encoding),
    (.string "report_limit".toList, .int s.reportLimit)]

/-- A mapping with another value at a key. -/
def putEntry (key : Text) (v : Value) : List (Value × Value) → List (Value × Value)
  | [] => [(.string key, v)]
  | e :: r =>
    match e.1 with
    | .string s => if s = key then (e.1, v) :: r else e :: putEntry key v r
    | _ => e :: putEntry key v r

/-- The settings as a mapping, with the overrides that are given. -/
def overridden (s : Settings) (overrides : List (Text × Value)) : List (Value × Value) :=
  let given := overrides.filter fun o => match o.2 with | .null => false | _ => true
  given.foldl (fun es o => putEntry o.1 o.2 es) s.toEntries

end Settings

end Unflag
