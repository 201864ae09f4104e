/-
Finding and reading the configuration of a run.

A configuration file is either named, and then has to be there, or lies in the directory
that is cleaned; without one the defaults hold. How the text of the file is read as a value, and how
settings are made from a value, are parameters, so that everything said here holds for any such
rules.
-/
import Unflag.Host
import Unflag.Settings

set_option autoImplicit false

namespace Unflag

namespace Configuration

/-- The name of a configuration file that is not named. -/
def fileName : Text := ".flagcleaner.yaml".toList

/-- Why there are no settings. -/
inductive Failure where
  | notFound (path : Path)
  | unreadable (path : Path)
  | notMapping (path : Path) (kind : String)
  /-- The file holds values that are no settings. -/
  | invalid (problems : List Settings.Problem)
  /-- The settings given on top of the file are none. -/
  | badOverride (problems : List Settings.Problem)
  deriving DecidableEq, Repr

/-- The number of problems, in words. -/
def problemCount (n : Nat) : String :=
  s!"{n} validation error" ++ (if n = 1 then "" else "s") ++ " for CleanerSettings"

/-- The wording of a failure. -/
def Failure.message : Failure → String
  | .notFound path => s!"Configuration file not found: {path.display}"
  | .unreadable path => s!"Cannot read configuration file {path.display}"
  | .notMapping path kind =>
    s!"Configuration file {path.display} must hold a mapping, got {kind}"
  | .invalid problems => s!"Invalid configuration: {problemCount problems.length}"
  | .badOverride problems => problemCount problems.length

/-- The result of loading: the records, and the settings or the reason why there are none. -/
abbrev Loaded (α : Type) := List Record × Except (Stop Failure) α

/-- How configurations are read and checked. -/
structure Rules where
  /-- The value of the text of a file. The text may not be well formed, and reading it may end with
  a fault. -/
  read : Text → Except (Stop Unit) Value
  /-- The text of a value, for a record. -/
  shown : Value → Except Fault Text
  /-- The settings of a mapping. -/
  validate : List (Value × Value) → Settings.Checked Settings

variable {σ : Type} (host : Host σ) (rules : Rules) (s : σ)

/-- The file that is to be read, if there is one. -/
def source? (named root : Option Path) : Except (Stop Failure) (Option Path) :=
  match named, root with
  | some p, _ =>
    match host.isFile s p with
    | .error f => .error (.fault f)
    | .ok true => .ok (some p)
    | .ok false => .error (.refused (.notFound p))
  | none, some r =>
    match host.isFile s (r.child fileName) with
    | .error f => .error (.fault f)
    | .ok there => .ok (if there then some (r.child fileName) else none)
  | none, none => .ok none

/-- The entries of a configuration file. -/
def entries (p : Path) : Loaded (List (Value × Value)) :=
  let opening := .info s!"Loading configuration from {p.display}"
  match host.readInParts s p with
  | .error f =>
    ([opening], .error (if f.family == .system then .refused (.unreadable p) else .fault f))
  | .ok text =>
    match rules.read text with
    | .error (.refused _) => ([opening], .error (.refused (.unreadable p)))
    | .error (.fault f) => ([opening], .error (.fault f))
    | .ok .null =>
      ([opening, .warning s!"Configuration file {p.display} is empty. Using defaults."], .ok [])
    | .ok (.map es) =>
      match rules.shown (.map es) with
      | .error f => ([opening], .error (.fault f))
      | .ok t =>
        ([opening, .debug s!"Raw configuration data from file: {String.ofList t}"], .ok es)
    | .ok v => ([opening], .error (.refused (.notMapping p v.kind)))

/-- Checks the entries of a configuration. -/
def check (es : List (Value × Value)) : Loaded Settings :=
  match rules.validate es with
  | .error ps => ([], .error (.refused (.invalid ps)))
  | .ok o =>
    match rules.shown (.map o.toEntries) with
    | .error f => ([], .error (.fault f))
    | .ok t => ([.debug s!"Final configuration: {String.ofList t}"], .ok o)

/-- The settings of a run. -/
def load (named root : Option Path) : Loaded Settings :=
  match source? host s named root with
  | .error stop => ([], .error stop)
  | .ok none =>
    let (rs, checked) := check rules []
    (.debug "No configuration file found. Using default configuration." :: rs, checked)
  | .ok (some p) =>
    match entries host rules s p with
    | (rs, .error stop) => (rs, .error stop)
    | (rs, .ok es) =>
      let (rs', checked) := check rules es
      (rs ++ rs', checked)

/-- The settings with overrides on top, checked again as a whole. -/
def override (o : Settings) (overrides : List (Text × Value)) : Except (Stop Failure) Settings :=
  (rules.validate (o.overridden overrides)).mapError fun ps => .refused (.badOverride ps)

/-- The rules by which values of the common kinds are shown and checked, for a reader of texts. -/
def Rules.standard (read : Text → Except (Stop Unit) Value) : Rules :=
  ⟨read, Value.shown, Settings.ofEntries⟩

end Configuration

end Unflag
