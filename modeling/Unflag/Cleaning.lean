/-
One run: remove a flag from every source below a directory.

The sources that mention the flag are found, each is given to the worker for its suffix,
and the outcomes are put together in a report. A suffix that is listed for both kinds of
source is given to the worker that parses.
-/
import Unflag.Batch
import Unflag.Report
import Unflag.Search.Walk
import Unflag.Worker

set_option autoImplicit false

namespace Unflag

/-- What a run is asked to do. -/
structure Cleaning where
  root : Path
  flag : Text
  settings : Settings
  dryRun : Bool
  /-- Whether every file that is looked at is reported. -/
  verbose : Bool

namespace Cleaning

/-- What a run leaves: the state, the records, and the report unless the search stopped. -/
structure Result (σ : Type) where
  state : σ
  records : List Record
  report : Except (Stop Search.Failure) Report

/-- Whether a file is given to the worker that parses. -/
def isParsed (s : Settings) (p : Path) : Bool := s.swiftExtensions.contains p.suffix

/-- Whether a file is given to the worker that takes sources as text. -/
def isText (s : Settings) (p : Path) : Bool :=
  !isParsed s p && s.objcExtensions.contains p.suffix

variable {σ : Type} (host : Host σ) (c : Cleaning)

/-- The worker for files that are parsed. -/
def parsedWork (p : Path) : σ → Session.Result σ :=
  (Worker.source (String.ofList c.settings.conditionPrecedence) c.dryRun c.flag p).run
    (host.store c.settings.encoding) p

/-- The worker for files that are taken as text. -/
def textWork (p : Path) : σ → Session.Result σ :=
  (Worker.chains c.dryRun c.flag p).run (host.store c.settings.encoding) p

/-- Works through the files that were found. No file is given to both workers, so their
ledgers have no path in common. -/
def process (found : List Path) (s : σ) : Batch.Result σ :=
  let parsed := Batch.run (parsedWork host c) (found.filter (isParsed c.settings)) s
  let text := Batch.run (textWork host c) (found.filter (isText c.settings)) parsed.state
  ⟨text.state, parsed.records ++ text.records, parsed.ledger ++ text.ledger⟩

/-- What is reported before the search. -/
def openingRecord : Record :=
  .info s!"Searching for {String.ofList c.flag} in {c.root.display}"

/-- What is reported between the search and the work. -/
def foundRecords (found : List Path) : List Record :=
  let parsed := (found.filter (isParsed c.settings)).length
  let text := (found.filter (isText c.settings)).length
  (if c.verbose then found.map fun p => .info s!"  Candidate: {p.display}" else [])
    ++ [.info s!"Found {parsed} Swift and {text} Objective-C file(s)"]

/-- The report of a run that found so many files and ended in these outcomes. -/
def reportOf (startTime : Text) (total : Nat) (os : List Outcome) : Report :=
  os.foldl Report.add { Report.start c.root c.flag c.dryRun startTime with total }

/-- Runs a cleaning that starts at the given moment. -/
def run (startTime : Text) (s : σ) : Result σ :=
  let (searchRecords, found) := Search.find host c.settings s c.root c.flag
  let opening := c.openingRecord :: searchRecords
  match found with
  | .error stop => ⟨s, opening, .error stop⟩
  | .ok paths =>
    let b := process host c paths s
    ⟨b.state, opening ++ c.foundRecords paths ++ b.records,
      .ok (c.reportOf startTime paths.length b.ledger.outcomes)⟩

end Cleaning

end Unflag
