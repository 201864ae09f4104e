/-
What became of one file.

Every file that is looked at ends in exactly one outcome. A dry run decides the same
outcomes and marks them as not applied.
-/
import Unflag.Path

set_option autoImplicit false

namespace Unflag

/-- The end of a file's way through a run. -/
inductive Status where
  | written
  | deleted
  | unchanged
  | failed
  deriving DecidableEq, Repr

/-- The word for a status. -/
def Status.label : Status → String
  | .written => "written"
  | .deleted => "deleted"
  | .unchanged => "unchanged"
  | .failed => "failed"

/-- The word for a status at the start of a sentence. -/
def Status.title : Status → String
  | .written => "Written"
  | .deleted => "Deleted"
  | .unchanged => "Unchanged"
  | .failed => "Failed"

/-- Why a file failed. -/
inductive ErrorKind where
  | notFound
  | readFailure
  | parseFailure
  | writeFailure
  | deleteFailure
  | transformFailure
  | internalError
  deriving DecidableEq, Repr

/-- The word for a kind of failure. -/
def ErrorKind.label : ErrorKind → String
  | .notFound => "not_found"
  | .readFailure => "read_failure"
  | .parseFailure => "parse_failure"
  | .writeFailure => "write_failure"
  | .deleteFailure => "delete_failure"
  | .transformFailure => "transform_failure"
  | .internalError => "internal_error"

/-- All kinds of failure. -/
def ErrorKind.all : List ErrorKind :=
  [.notFound, .readFailure, .parseFailure, .writeFailure, .deleteFailure, .transformFailure,
    .internalError]

/-- What became of one file. -/
structure Outcome where
  path : Path
  status : Status
  error : Option ErrorKind
  reason : String
  /-- Whether the file system was touched; false in a dry run. -/
  applied : Bool
  deriving DecidableEq, Repr

namespace Outcome

/-- A file that was dealt with. -/
def settled (path : Path) (status : Status) : Outcome := ⟨path, status, none, "", true⟩

/-- A file that a dry run would have dealt with. -/
def planned (path : Path) (status : Status) : Outcome := ⟨path, status, none, "", false⟩

/-- A file that failed. -/
def failure (path : Path) (kind : ErrorKind) (reason : String) : Outcome :=
  ⟨path, .failed, some kind, reason, true⟩

/-- Whether the file was, or would be, written or deleted. -/
def changed (o : Outcome) : Bool := o.status == .written || o.status == .deleted

/-- Whether the file failed. -/
def failed (o : Outcome) : Bool := o.status == .failed

end Outcome

/-- Outcomes by path, in the order in which the paths were first met. -/
abbrev Ledger := List (Path × Outcome)

namespace Ledger

/-- Records an outcome; a later outcome of a path takes the place of the earlier one. -/
def put (path : Path) (o : Outcome) : Ledger → Ledger
  | [] => [(path, o)]
  | e :: r => if e.1 = path then (path, o) :: r else e :: put path o r

/-- The paths of a ledger. -/
def paths (l : Ledger) : List Path := l.map Prod.fst

/-- The outcomes of a ledger. -/
def outcomes (l : Ledger) : List Outcome := l.map Prod.snd

end Ledger

end Unflag
