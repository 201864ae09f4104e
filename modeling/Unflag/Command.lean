/-
The command: options in, a changed state of the machine, a log and an exit code out.

A run loads its settings, cleans, sums up, and writes the report if one is asked for. It ends
with 2 if it could not start, with 1 if a file failed or the report could not be written, and
with 0 otherwise. The clock is not read here: the moment of the start and the time that the
cleaning took are given.
-/
import Unflag.Cleaning
import Unflag.Command.Options
import Unflag.Configuration

set_option autoImplicit false

namespace Unflag

/-- How a run ends. -/
inductive Exit where
  | success
  /-- A file failed, or the report could not be written. -/
  | failures
  /-- The run could not start. -/
  | refused
  deriving DecidableEq, Repr

/-- The number of an exit. -/
def Exit.code : Exit → Nat
  | .success => 0
  | .failures => 1
  | .refused => 2

namespace Command

/-! ## Texts -/

/-- The version of the program. -/
def version : String := "flagcleaner 0.1.0\n"

/-- How the program is called. -/
def usage : String :=
  "usage: flagcleaner [-h] -f FLAG [-p PATH] [-v] [--dry-run] [--config CONFIG]\n"
    ++ "                   [--jobs JOBS] [--precedence \x7bsequential,swift\x7d]\n"
    ++ "                   [--report REPORT] [--version]\n"

/-- What the program does, and its options. -/
def help : String :=
  usage
    ++ "\nRemove a feature flag and its #if scaffolding from Swift and Objective-C\nsources\n"
    ++ "\noptions:\n"
    ++ "  -h, --help            show this help message and exit\n"
    ++ "  -f FLAG, --flag FLAG  Flag to resolve as enabled\n"
    ++ "  -p PATH, --path PATH  Project directory to clean (default: current\n"
    ++ "                        directory)\n"
    ++ "  -v, --verbose         Verbose logging\n"
    ++ "  --dry-run             Report changes without writing files\n"
    ++ "  --config CONFIG       YAML settings file\n"
    ++ "  --jobs JOBS           Number of files processed in parallel\n"
    ++ "  --precedence \x7bsequential,swift\x7d\n"
    ++ "                        Grouping of && and || in #if conditions\n"
    ++ "  --report REPORT       Write a JSON report to this file\n"
    ++ "  --version             show program's version number and exit\n"

/-- What is said to arguments that are refused. -/
def complaint (m : Options.Misuse) : String := s!"{usage}flagcleaner: error: {m.message}\n"

/-! ## Settings -/

/-- The settings that the options put on top of the configuration. An option without a value
puts an empty list there, which no setting takes. -/
def overrides (o : Options) : List (Text × Value) :=
  let given (s : Options.Switch) (key : String) (v : Option Value) : Text × Value :=
    (key.toList, if o.blank.contains s then .list [] else v.getD .null)
  [given .jobs "max_workers" (o.jobs.map .int),
    given .precedence "condition_precedence" (o.precedence.map .string)]

variable {σ : Type} (host : Host σ) (rules : Configuration.Rules)

/-- The settings of a run on the directory `root`. -/
def settings (o : Options) (s : σ) (root : Path) : Configuration.Loaded Settings :=
  if o.blank.contains .config then ([], .error (.fault (.missingPart "list" "is_file")))
  else
    let (rs, loaded) := Configuration.load host rules s o.config (some root)
    (rs, loaded.bind fun loaded => Configuration.override rules loaded (overrides o))

/-- The directory that is cleaned, as an absolute path. -/
def root (o : Options) (s : σ) : Except Fault Path :=
  if o.blank.contains .path then .error (.missingPart "list" "resolve")
  else host.canonical s (o.path.getD ⟨.here, []⟩)

/-! ## Runs -/

/-- What a run leaves: the state, the records, and how it ends. A fault that nobody expected
ends it without an exit code of its own. -/
structure Run (σ : Type) where
  state : σ
  records : List Record
  ending : Except Fault Exit

/-- A run up to its summary: the settings and the report, or how the run has ended. -/
structure Cleaned (σ : Type) where
  state : σ
  records : List Record
  report : Except (Except Fault Exit) (Settings × Report)

/-- What is reported of a run that could not start. -/
def refusalRecord (message : String) : Record := .error s!"⛔ {message}"

/-- A failure that is reported and ends the run before it has changed anything. -/
def refuse (s : σ) (records : List Record) (message : String) : Cleaned σ :=
  ⟨s, records ++ [refusalRecord message], .error (.ok .refused)⟩

/-- Loads the settings and cleans. -/
def clean (o : Options) (startTime : Text) (s : σ) : Cleaned σ :=
  match root host o s with
  | .error f => ⟨s, [], .error (.error f)⟩
  | .ok root =>
    match settings host rules o s root with
    | (rs, .error (.refused f)) => refuse s rs f.message
    | (rs, .error (.fault f)) => ⟨s, rs, .error (.error f)⟩
    | (rs, .ok loaded) =>
      let r := (Cleaning.mk root o.flag loaded o.dryRun o.verbose).run host startTime s
      match r.report with
      | .error (.refused f) => refuse r.state (rs ++ r.records) f.message
      | .error (.fault f) => ⟨r.state, rs ++ r.records, .error (.error f)⟩
      | .ok report => ⟨r.state, rs ++ r.records, .ok (loaded, report)⟩

/-- The exit of a run whose files have all been dealt with. -/
def exitOf (r : Report) : Exit := if r.failed.isEmpty then .success else .failures

/-- What is reported of a report that could not be written. -/
def unwrittenRecord (p : Path) (f : Fault) : Record :=
  .error s!"⛔ Cannot write report {p.display}: {f.text}"

/-- Writes the report if one is asked for, and ends the run. Only the file system's refusal to
write is expected. -/
def writeReport (o : Options) (r : Report) (s : σ) : Run σ :=
  match o.report with
  | none => ⟨s, [], .ok (exitOf r)⟩
  | some p =>
    match host.overwrite s p r.json with
    | .ok s' => ⟨s', [.info s!"Report saved → {p.display}"], .ok (exitOf r)⟩
    | .error f =>
      if f.family == .system then ⟨s, [unwrittenRecord p f], .ok .failures⟩
      else ⟨s, [], .error f⟩

/-- Sums up a run whose cleaning took so long, and writes its report. -/
def finish (o : Options) (elapsed : Duration) (c : Cleaned σ) : Run σ :=
  match c.report with
  | .error ending => ⟨c.state, c.records, ending⟩
  | .ok (settings, report) =>
    let report := { report with elapsed }
    match report.summary settings.reportLimit o.verbose with
    | (rs, some f) => ⟨c.state, c.records ++ rs, .error f⟩
    | (rs, none) =>
      let r := writeReport host o report c.state
      { r with records := c.records ++ rs ++ r.records }

/-- The moment a run starts, as it is to be written, and the time its cleaning takes. -/
structure Clock where
  start : Text
  elapsed : Duration

/-- Runs the command. -/
def run (clock : Clock) (o : Options) (s : σ) : Run σ :=
  finish host o clock.elapsed (clean host rules o clock.start s)

/-- The least weight of the records that are shown. -/
def leastLevel (o : Options) : Level := if o.verbose then .debug else .info

end Command

end Unflag
