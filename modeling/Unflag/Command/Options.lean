/-
The options of the command line.

All arguments are classified before any of them is acted on: an option by its full name, by a
beginning that only one long name has, or by its letter with more behind it; everything else
is a plain word. A value is the rest of its option's own argument or the plain word behind
it. What an option asks for is then done in order, so the first request for help or for the
version ends the reading, and what is missing or left over is only noticed at the end.

Two dashes are no value. An option that gets them counts as given all the same.
-/
import Unflag.Condition.Grouping
import Unflag.Fault
import Unflag.Path
import Unflag.Text.Number
import Unflag.Text.Quoted

set_option autoImplicit false

namespace Unflag

namespace Options

/-! ## Names -/

/-- The options there are. -/
inductive Switch where
  | help
  | flag
  | path
  | verbose
  | dryRun
  | config
  | jobs
  | precedence
  | report
  | version
  deriving DecidableEq, Repr

namespace Switch

/-- All options, in order. -/
def all : List Switch :=
  [.help, .flag, .path, .verbose, .dryRun, .config, .jobs, .precedence, .report, .version]

/-- The names of an option. -/
def names : Switch → List Text
  | .help => ["-h".toList, "--help".toList]
  | .flag => ["-f".toList, "--flag".toList]
  | .path => ["-p".toList, "--path".toList]
  | .verbose => ["-v".toList, "--verbose".toList]
  | .dryRun => ["--dry-run".toList]
  | .config => ["--config".toList]
  | .jobs => ["--jobs".toList]
  | .precedence => ["--precedence".toList]
  | .report => ["--report".toList]
  | .version => ["--version".toList]

/-- Whether an option has a value. -/
def takesValue : Switch → Bool
  | .help | .verbose | .dryRun | .version => false
  | .flag | .path | .config | .jobs | .precedence | .report => true

/-- An option in messages. -/
def title (o : Switch) : String := String.ofList (Text.joinWith ['/'] o.names)

/-- All names with their options, in order. -/
def table : List (Text × Switch) := all.flatMap fun o => o.names.map fun n => (n, o)

end Switch

end Options

/-- What the command line asks for. -/
structure Options where
  flag : Text
  /-- The directory to be cleaned, if it is not the present one. -/
  path : Option Path
  verbose : Bool
  dryRun : Bool
  config : Option Path
  jobs : Option Int
  precedence : Option Text
  report : Option Path
  /-- The options that are given without a value, though they have one. -/
  blank : List Options.Switch

namespace Options

/-! ## Messages -/

/-- Why the arguments are refused. -/
inductive Misuse where
  | ambiguous (arg : Text) (matching : List Text)
  | missingValue (o : Switch)
  | unwantedValue (o : Switch) (value : Text)
  | notANumber (o : Switch) (value : Text)
  | notAChoice (o : Switch) (value : Text) (choices : List Text)
  | missingOption (o : Switch)
  | leftOver (args : List Text)
  | badFlag (flag : Text)
  deriving DecidableEq, Repr

/-- The wording of a refusal. -/
def Misuse.message : Misuse → String
  | .ambiguous arg matching =>
    let names := String.ofList (Text.joinWith ", ".toList matching)
    s!"ambiguous option: {String.ofList arg} could match {names}"
  | .missingValue o => s!"argument {o.title}: expected one argument"
  | .unwantedValue o value =>
    s!"argument {o.title}: ignored explicit argument {String.ofList (Text.quoted value)}"
  | .notANumber o value =>
    s!"argument {o.title}: invalid int value: {String.ofList (Text.quoted value)}"
  | .notAChoice o value choices =>
    let names := String.ofList (Text.joinWith ", ".toList (choices.map Text.quoted))
    s!"argument {o.title}: invalid choice: {String.ofList (Text.quoted value)} "
      ++ s!"(choose from {names})"
  | .missingOption o => s!"the following arguments are required: {o.title}"
  | .leftOver args =>
    let words := String.ofList (Text.joinWith [' '] args)
    s!"unrecognized arguments: {words}"
  | .badFlag flag => s!"invalid flag name: {String.ofList (Text.quoted flag)}"

/-! ## Classification -/

/-- What an argument is taken for. -/
inductive Word where
  /-- A plain word. -/
  | plain
  /-- The two dashes behind which every argument is a plain word. -/
  | divider
  /-- It looks like an option, and is none. -/
  | unknown
  /-- An option under one of its names, with the value that is part of the argument. -/
  | option (o : Switch) (name : Text) (value : Option Text)
  deriving DecidableEq, Repr

/-- The text in front of the first equals sign, and the text behind it if there is one. -/
def splitEquals (arg : Text) : Text × Option Text :=
  match arg.dropWhile (· != '=') with
  | [] => (arg, none)
  | _ :: value => (arg.takeWhile (· != '='), some value)

/-- Whether a text behind a dash makes a negative number. -/
def isNumber (s : Text) : Bool :=
  let s := s.map Text.asciiDigit
  let whole := s.takeWhile (· != '.')
  match s.dropWhile (· != '.') with
  | [] => !s.isEmpty && s.all Char.isDigit
  | _ :: fraction => whole.all Char.isDigit && !fraction.isEmpty && fraction.all Char.isDigit

/-- The options that an argument with one or two dashes may stand for, apart from those it
names in full. -/
def readings (arg : Text) : List (Text × Switch × Option Text) :=
  match arg with
  | '-' :: '-' :: _ =>
    let (start, value) := splitEquals arg
    (Switch.table.filter fun e => start.isPrefixOf e.1).map fun e => (e.1, e.2, value)
  | _ =>
    Switch.table.filterMap fun e =>
      if e.1 = arg.take 2 then some (e.1, e.2, some (arg.drop 2))
      else if arg.isPrefixOf e.1 then some (e.1, e.2, none)
      else none

/-- What an argument is taken for. -/
def classify (arg : Text) : Except Misuse Word :=
  match arg with
  | '-' :: tail =>
    match Switch.table.lookup arg with
    | some o => .ok (.option o arg none)
    | none =>
      if tail.isEmpty then .ok .plain
      else
        let (start, value) := splitEquals arg
        match value.bind fun v => (Switch.table.lookup start).map fun o => (o, v) with
        | some (o, v) => .ok (.option o start (some v))
        | none =>
          match readings arg with
          | [(name, o, v)] => .ok (.option o name v)
          | [] => .ok (if isNumber tail || arg.contains ' ' then .plain else .unknown)
          | several => .error (.ambiguous arg (several.map Prod.fst))
  | _ => .ok .plain

/-- Classifies all arguments. -/
def classifyAll : List Text → Except Misuse (List (Text × Word))
  | [] => .ok []
  | arg :: args =>
    if arg = ['-', '-'] then .ok ((arg, .divider) :: args.map fun a => (a, .plain))
    else do
      let w ← classify arg
      let ws ← classifyAll args
      return (arg, w) :: ws

/-! ## Options in one argument -/

/-- The options of one argument with their values. Only the last option can have a value, which
may be in the next argument. -/
abbrev Cluster := List (Switch × Option Text)

/-- The options whose letters follow the letter of `o`, which has no value. A letter of no
option is taken for a value that is not wanted. -/
def letters (o : Switch) : Text → Except Misuse Cluster
  | [] => .error (.unwantedValue o [])
  | c :: r =>
    match Switch.table.lookup ['-', c] with
    | none => .error (.unwantedValue o (c :: r))
    | some p =>
      if r.isEmpty then .ok [(o, none), (p, none)]
      else if p.takesValue then .ok [(o, none), (p, some r)]
      else (letters p r).map ((o, none) :: ·)

/-- The options of an argument. A letter without a value may be followed by more letters, with
or without an equals sign between them. -/
def cluster (o : Switch) (name : Text) (value : Option Text) : Except Misuse Cluster :=
  match value with
  | none => .ok [(o, none)]
  | some v =>
    if o.takesValue then .ok [(o, some v)]
    else if name.take 2 = ['-', '-'] then .error (.unwantedValue o v)
    else letters o v

/-! ## Actions -/

/-- What has been asked for so far. -/
structure Draft where
  flag : Option Text
  options : Options

/-- Nothing has been asked for. -/
def Draft.empty : Draft := ⟨none, ⟨[], none, false, false, none, none, none, none, []⟩⟩

/-- Why reading the options ends early. -/
inductive Ending where
  | help
  | version
  | misuse (m : Misuse)
  | fault (f : Fault)

/-- Gives an option without a value. -/
def leaveBlank (o : Switch) (d : Draft) : Draft :=
  let x := { d.options with blank := o :: d.options.blank }
  match o with
  | .flag => ⟨some [], x⟩
  | .path => { d with options := { x with path := none } }
  | .config => { d with options := { x with config := none } }
  | .report => { d with options := { x with report := none } }
  | .jobs => { d with options := { x with jobs := none } }
  | .precedence => { d with options := { x with precedence := none } }
  | .help | .verbose | .dryRun | .version => d

/-- The value of an option in the form it is kept in. -/
def keep (o : Switch) (value : Text) (d : Draft) : Except Ending Draft :=
  let set (f : Options → Options) : Except Ending Draft := .ok { d with options := f d.options }
  match o with
  | .flag => .ok { d with flag := some value }
  | .path => set fun x => { x with path := some (Path.ofText value) }
  | .config => set fun x => { x with config := some (Path.ofText value) }
  | .report => set fun x => { x with report := some (Path.ofText value) }
  | .jobs =>
    match Text.toInteger value with
    | .ok n => set fun x => { x with jobs := some n }
    | .error _ => .error (.misuse (.notANumber o value))
  | .precedence =>
    if (Grouping.ofLabel? (String.ofList value)).isSome then
      set fun x => { x with precedence := some value }
    else .error (.misuse (.notAChoice o value (Grouping.all.map fun g => g.label.toList)))
  | .help | .verbose | .dryRun | .version => .ok d

/-- Gives an option a value; the last one counts. -/
def accept (o : Switch) (value : Text) (d : Draft) : Except Ending Draft :=
  let d := { d with options.blank := d.options.blank.filter (· != o) }
  if value = ['-', '-'] then .ok (leaveBlank o d) else keep o value d

/-- Does what an option without a value asks for. -/
def perform (o : Switch) (d : Draft) : Except Ending Draft :=
  match o with
  | .help => .error .help
  | .version => .error .version
  | .verbose => .ok { d with options := { d.options with verbose := true } }
  | .dryRun => .ok { d with options := { d.options with dryRun := true } }
  | _ => .ok d

/-- Does what the options of one argument ask for. -/
def performAll (d : Draft) (os : List (Switch × Option Text)) : Except Ending Draft :=
  os.foldlM (fun d e => match e.2 with | some v => accept e.1 v d | none => perform e.1 d) d

/-! ## Arguments -/

/-- The option of an argument that needs a value from the next one. -/
def Cluster.wanting? (k : Cluster) : Option Switch :=
  match k.getLast? with
  | some (last, none) => if last.takesValue then some last else none
  | _ => none

/-- Reads classified arguments; what belongs to no option is kept. -/
def readWords (d : Draft) (rest : List Text) :
    List (Text × Word) → Except Ending (Draft × List Text)
  | [] => .ok (d, rest)
  | (_, .option o name value) :: ws => do
    let k ← (cluster o name value).mapError .misuse
    match k.wanting? with
    | none =>
      let d ← performAll d k
      readWords d rest ws
    | some last =>
      match ws with
      | (next, .plain) :: ws' =>
        let d ← performAll d (k.dropLast ++ [(last, some next)])
        readWords d rest ws'
      | _ => .error (.misuse (.missingValue last))
  | (arg, _) :: ws => readWords d (rest ++ [arg]) ws

/-- Whether a text is the name of a flag; one line feed at its end is overlooked. -/
def isFlagName (s : Text) : Bool :=
  let name := if s.getLast? == some '\n' then s.dropLast else s
  match name with
  | [] => false
  | c :: r => (c.isAlpha || c == '_') && r.all fun c => c.isAlphanum || c == '_'

/-- The options of a command line. -/
def ofArguments (args : List Text) : Except Ending Options := do
  let words ← (classifyAll args).mapError .misuse
  let (d, rest) ← readWords .empty [] words
  match d.flag with
  | none => .error (.misuse (.missingOption .flag))
  | some flag =>
    if !rest.isEmpty then .error (.misuse (.leftOver rest))
    else if d.options.blank.contains .flag then .error (.fault .listForText)
    else if !isFlagName flag then .error (.misuse (.badFlag flag))
    else return { d.options with flag := flag }

end Options

end Unflag
