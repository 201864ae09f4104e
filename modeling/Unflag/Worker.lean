/-
The two workers.

One edits parsed sources and deletes a file that declares nothing any more; the other
replaces preprocessor chains as text and never deletes. Both turn every expected fault
into an outcome, and in a dry run both stop short of the last step.
-/
import Unflag.Chain
import Unflag.Edit
import Unflag.Session
import Unflag.Text.Quoted

set_option autoImplicit false

namespace Unflag

namespace Worker

/-- A failure that is reported and becomes the outcome. -/
def fail (path : Path) (kind : ErrorKind) (message reason : String) : Session :=
  .report (.error message) (.done (.failure path kind reason))

/-- Opens the file: it has to be there and to be readable as text. -/
def opening (path : Path) (next : Text → Session) : Session :=
  .probe fun there =>
    match there with
    | .error f => .raise f
    | .ok false => fail path .notFound s!"⛔ File not found: {path.display}" "file does not exist"
    | .ok true =>
      .read fun answer =>
        match answer with
        | .ok text => next text
        | .error f =>
          if f.family == .system || f.family == .decoding then
            fail path .readFailure s!"⛔ Cannot read {path.display}: {f.text}" f.text
          else .raise f

/-- Writes the new text, or says what would be written. -/
def writing (dryRun : Bool) (path : Path) (text : Text) : Session :=
  if dryRun then
    .report (.info s!"[DRY-RUN] Would write to {path.display}") (.done (.planned path .written))
  else
    .write text fun answer =>
      match answer with
      | .ok _ => .done (.settled path .written)
      | .error f =>
        if f.family == .system || f.family == .encoding then
          fail path .writeFailure s!"⛔ Cannot write {path.display}: {f.text}" f.text
        else .raise f

/-- Deletes the file, or says that it would be deleted. -/
def deleting (dryRun : Bool) (path : Path) : Session :=
  if dryRun then
    .report (.info s!"[DRY-RUN] Would delete {path.display}") (.done (.planned path .deleted))
  else
    .remove fun answer =>
      match answer with
      | .ok _ =>
        .report (.debug s!"Deleted empty file {path.display}") (.done (.settled path .deleted))
      | .error f =>
        if f.family == .system then
          fail path .deleteFailure s!"⛔ Cannot delete {path.display}: {f.text}" f.text
        else .raise f

/-- The worker for sources that are parsed; `grouping` names the grouping of conditions. -/
def source (grouping : String) (dryRun : Bool) (flag : Text) (path : Path) : Session :=
  opening path fun text =>
    .reportAll (Edit.records (Condition.ofTokensBy grouping) flag text) <|
      match Edit.ofSourceBy grouping flag text with
      | .error (.refused (.malformed f)) =>
        fail path .parseFailure s!"⛔ Cannot parse {path.display}: {f.message}" f.message
      | .error (.refused (.fault f)) => .raise f
      | .error (.broken f) =>
        let message := Edit.brokenMessage f
        fail path .transformFailure s!"⛔ {path.display}: {message}" message
      | .ok .untouched =>
        .report (.debug s!"No {String.ofList flag} block in {path.display}")
          (.done (.settled path .unchanged))
      | .ok (.rewritten new isEmpty) =>
        if isEmpty then deleting dryRun path else writing dryRun path new

/-- The worker for sources that are taken as text. -/
def chains (dryRun : Bool) (flag : Text) (path : Path) : Session :=
  opening path fun text =>
    let (new, count) := Chain.clean flag text
    if new == text then .done (.settled path .unchanged)
    else
      .report (.debug s!"Replaced {count} {String.ofList flag} block(s) in {path.display}")
        (writing dryRun path new)

end Worker

end Unflag
