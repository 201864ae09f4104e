/-
The report of a run.

A report collects outcomes and offers views of them: the paths of each status, the
unchanged files by suffix, a JSON document, and a summary for the log. All views list
paths in order.
-/
import Unflag.Duration
import Unflag.Fault
import Unflag.Json
import Unflag.Log
import Unflag.Outcome

set_option autoImplicit false

namespace Unflag

/-- What one run did. -/
structure Report where
  root : Path
  flag : Text
  /-- The number of files found, whether processed or not. -/
  total : Nat
  dryRun : Bool
  /-- The moment the run started, as it is to be written. -/
  startTime : Text
  elapsed : Duration
  ledger : Ledger

namespace Report

/-- A run that has found nothing yet. -/
def start (root : Path) (flag : Text) (dryRun : Bool) (startTime : Text) : Report :=
  ⟨root, flag, 0, dryRun, startTime, ⟨0⟩, []⟩

/-- Adds an outcome. -/
def add (r : Report) (o : Outcome) : Report := { r with ledger := r.ledger.put o.path o }

/-! ## Views -/

/-- The paths whose outcome passes a test, in order. -/
def pathsWhere (r : Report) (test : Outcome → Bool) : List Path :=
  Path.sort ((r.ledger.filter fun e => test e.2).map Prod.fst)

/-- Files that were written or deleted. -/
def changed (r : Report) : List Path := r.pathsWhere Outcome.changed

/-- Files that were deleted. -/
def deleted (r : Report) : List Path := r.pathsWhere fun o => o.status == .deleted

/-- Files that were left as they were. -/
def unchanged (r : Report) : List Path := r.pathsWhere fun o => o.status == .unchanged

/-- Files that failed. -/
def failed (r : Report) : List Path := r.pathsWhere Outcome.failed

/-- The outcome recorded for a path. -/
def outcome? (r : Report) (p : Path) : Option Outcome := r.ledger.lookup p

/-- The entries of the ledger in the order of their paths. -/
def entries (r : Report) : Ledger := r.ledger.mergeSort fun a b => Path.le a.1 b.1

/-- The heading a path is listed under: its suffix, or "Unknown". -/
def heading (p : Path) : Text := if p.suffix.isEmpty then "Unknown".toList else p.suffix

/-- The unchanged files by heading, headings and files in order. -/
def unchangedByHeading (r : Report) : List (Text × List Path) :=
  (Text.sortDistinct (r.unchanged.map heading)).map fun h =>
    (h, r.unchanged.filter fun p => heading p == h)

/-! ## JSON -/

/-- The JSON object of an outcome. -/
def outcomeJson (o : Outcome) : JsonValue :=
  .object
    [("path".toList, .string o.path.text),
      ("status".toList, .string o.status.label.toList),
      ("error".toList, match o.error with | some k => .string k.label.toList | none => .null),
      ("reason".toList, .string o.reason.toList),
      ("applied".toList, .bool o.applied)]

/-- The JSON document of a report. -/
def json (r : Report) : Text :=
  JsonValue.render <| .object
    [("root".toList, .string r.root.text),
      ("flag".toList, .string r.flag),
      ("start_time".toList, .string r.startTime),
      ("dry_run".toList, .bool r.dryRun),
      ("total_files".toList, .number (Nat.toDigits 10 r.total)),
      ("processed".toList, .number (Nat.toDigits 10 r.ledger.length)),
      ("elapsed_seconds".toList, .number r.elapsed.shortest),
      ("files".toList, .array (r.entries.map fun e => outcomeJson e.2))]

/-! ## Summary -/

/-- The files of a group that are listed: all of them without a limit, else the first so
many; a negative limit leaves out so many at the end. -/
def shown (limit : Int) (ps : List Path) : List Path :=
  match limit with
  | .ofNat 0 => ps
  | .ofNat n => ps.take n
  | .negSucc n => ps.take (ps.length - (n + 1))

/-- The records of one group of unchanged files. -/
def groupRecords (limit : Int) (group : Text × List Path) : List Record :=
  let listed := shown limit group.2
  [.warning s!"  {String.ofList group.1} ({group.2.length})"]
    ++ listed.map (fun p => .warning s!"    {p.display}")
    ++ if listed.length < group.2.length
      then [.warning s!"    ... and {group.2.length - listed.length} more"] else []

/-- The records of the unchanged files. -/
def unchangedRecords (limit : Int) (r : Report) : List Record :=
  match r.unchangedByHeading with
  | [] => []
  | groups =>
    .warning "⚠️  Files mentioning the flag that were left unchanged:"
      :: groups.flatMap (groupRecords limit)

/-- The records of the files that were changed. -/
def changedRecords (r : Report) : List Record :=
  r.changed.filterMap fun p =>
    (r.outcome? p).map fun o => .info s!"  ✓ {o.status.title} {p.display}"

/-- The records of failures, each with its kind. The first failure without a kind ends them with a
fault. -/
def failureRecords : List (Path × Outcome) → List Record × Option Fault
  | [] => ([], none)
  | (p, o) :: r =>
    match o.error with
    | none => ([], some (.missingPart "NoneType" "value"))
    | some kind =>
      let (rs, stop) := failureRecords r
      (.error s!"⛔ {p.display}: {kind.label} ({o.reason})" :: rs, stop)

/-- The records of the files that failed. -/
def failedRecords (r : Report) : List Record × Option Fault :=
  failureRecords (r.failed.filterMap fun p => (r.outcome? p).map fun o => (p, o))

/-- The last line of a run. -/
def closingRecord (r : Report) : Record :=
  let mark := if r.dryRun then "[DRY-RUN] " else ""
  let flag := String.ofList r.flag
  let seconds := String.ofList r.elapsed.hundredths
  .info <| s!"{mark}✓ Removed {flag} from {r.changed.length} of {r.total} file(s) "
    ++ s!"({r.deleted.length} deleted) in {seconds}s"

/-- The summary of a run for the log, and the fault that ends it if it cannot be finished. -/
def summary (limit : Int) (verbose : Bool) (r : Report) : List Record × Option Fault :=
  let opening := (if verbose then r.changedRecords else []) ++ r.unchangedRecords limit
  match r.failedRecords with
  | (rs, some f) => (opening ++ rs, some f)
  | (rs, none) =>
    (opening ++ rs ++ [r.closingRecord]
      ++ (if r.failed.isEmpty then [] else [.error s!"⛔ {r.failed.length} file(s) failed"]), none)

end Report

end Unflag
