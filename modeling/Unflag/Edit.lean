/-
Editing a source text.

A source is parsed, the blocks of the flag are resolved, and the text of the new tree is
parsed again: a rewritten source that no longer parses is never handed on, and whether
the file is now empty is decided on the text that would be written.
-/
import Unflag.Resolution.Note
import Unflag.Tree.Assembly
import Unflag.Tree.Emptiness

set_option autoImplicit false

namespace Unflag

/-- What becomes of a source text. -/
inductive Edit where
  /-- No block of the flag. -/
  | untouched
  /-- A new text; the file may be deleted instead if nothing is declared in it. -/
  | rewritten (text : Text) (isEmpty : Bool)
  deriving DecidableEq, Repr

/-- Why a source text is not edited. -/
inductive Edit.Fault where
  /-- The source itself is refused. -/
  | refused (r : Refusal)
  /-- The rewritten text is malformed. -/
  | broken (f : Failure)
  deriving DecidableEq, Repr

namespace Edit

/-- The wording of a rewritten text that is malformed. -/
def brokenMessage (f : Failure) : String := s!"rewritten text no longer parses: {f.message}"

/-- The edit that removes `flag` from a source, with `read` to read conditions. -/
def ofSourceWith (read : List Token → Except Refusal Condition) (flag source : Text) :
    Except Fault Edit :=
  match SourceTree.parseWith read source with
  | .error r => .error (.refused r)
  | .ok tree =>
    if tree.isEdited flag then
      let text := (tree.resolve flag).render
      match SourceTree.parseWith read text with
      | .error (.malformed f) => .error (.broken f)
      | .error r => .error (.refused r)
      | .ok again => .ok (.rewritten text again.isEmpty)
    else .ok .untouched

/-- The edit that removes `flag` from a source, under the grouping `g`. -/
def ofSource (g : Grouping) (flag source : Text) : Except Fault Edit :=
  ofSourceWith (Condition.ofTokens g) flag source

/-- The edit that removes `flag` from a source, under the grouping of this name. -/
def ofSourceBy (label : String) (flag source : Text) : Except Fault Edit :=
  ofSourceWith (Condition.ofTokensBy label) flag source

/-! ## Records -/

/-- What is reported of a parse. -/
def parseRecords (read : List Token → Except Refusal Condition) (source : Text) : List Record :=
  match tokenize source with
  | .error _ => []
  | .ok l =>
    .debug s!"Lexed {l.tokens.length + 1} tokens over {l.eof.line} lines" ::
      match Assembly.assemble read l with
      | .error _ => []
      | .ok tree => [.debug s!"Parsed {tree.members.length} top-level items"]

/-- What is reported of an edit, in the order of the work. -/
def records (read : List Token → Except Refusal Condition) (flag source : Text) : List Record :=
  parseRecords read source ++
    match SourceTree.parseWith read source with
    | .error _ => []
    | .ok tree =>
      (tree.notes flag).map Note.record ++
        if tree.isEdited flag then
          let text := (tree.resolve flag).render
          parseRecords read text ++
            match SourceTree.parseWith read text with
            | .error _ => []
            | .ok _ =>
              [.debug s!"Resolved {tree.resolvedCount flag} block(s) on {String.ofList flag}"]
        else []

end Edit

end Unflag
