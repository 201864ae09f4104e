/-
Trivia: the blanks and comments between tokens.

Trivia is kept in classified pieces. A *run* is one unit (a space, a tab, a line break
of one of the three kinds) repeated; every other piece is kept as the text it is. The
one operation on trivia that changes anything is `dropDirectiveLine`: it takes back the
line break that a removed directive line leaves behind.
-/
import Unflag.Text

set_option autoImplicit false

namespace Unflag

namespace Trivia

/-- What a piece of trivia is. -/
inductive Kind where
  | spaces
  | tabs
  | lineFeeds
  | carriageReturns
  /-- CR and LF together, one line break each. -/
  | returnFeeds
  | lineComment
  | blockComment
  | docLineComment
  | docBlockComment
  /-- The interpreter line at the very start of a source. -/
  | shebang
  /-- A form feed, a vertical tab or any other blank. -/
  | other
  deriving DecidableEq, Repr

/-- The unit that a run of this kind repeats; comments and the rest have none. -/
def Kind.unit? : Kind → Option Text
  | .spaces => some [' ']
  | .tabs => some ['\t']
  | .lineFeeds => some ['\n']
  | .carriageReturns => some ['\r']
  | .returnFeeds => some ['\r', '\n']
  | _ => none

/-- The three kinds of line break. -/
def Kind.isNewline : Kind → Bool
  | .lineFeeds | .carriageReturns | .returnFeeds => true
  | _ => false

/-- The four kinds of comment. -/
def Kind.isComment : Kind → Bool
  | .lineComment | .blockComment | .docLineComment | .docBlockComment => true
  | _ => false

/-- One piece of trivia, such as three line feeds or one comment. -/
structure Piece where
  kind : Kind
  text : Text
  deriving DecidableEq, Repr

/-- A unit, `n` times over. -/
def repeated (unit : Text) (n : Nat) : Text := (List.replicate n unit).flatten

/-- How many units a run holds; every other piece counts as one. -/
def Piece.count (p : Piece) : Nat :=
  match p.kind.unit? with
  | some unit => p.text.length / unit.length
  | none => 1

/-- The run of the same kind with `n` units; `none` for a kind that has no unit. -/
def Piece.withCount? (p : Piece) (n : Nat) : Option Piece :=
  p.kind.unit?.map fun unit => ⟨p.kind, repeated unit n⟩

end Trivia

/-- The trivia on one side of a token. -/
abbrev Trivia := List Trivia.Piece

namespace Trivia

/-- The text of the pieces, one after the other. -/
def text (ts : Trivia) : Text := ts.flatMap Piece.text

/-- Whether a piece is a line break. Comments that hold one do not count. -/
def hasNewline (ts : Trivia) : Bool := ts.any fun p => p.kind.isNewline

/-- The line breaks of the pieces, each piece counted on its own. -/
def lineBreaks (ts : Trivia) : Nat := ts.foldr (fun p n => Text.lineBreaks p.text + n) 0

/-- Removes one line break from a leading run of them, so that the line of a removed
directive goes with the directive. -/
def dropDirectiveLine : Trivia → Trivia
  | [] => []
  | p :: r =>
    if p.kind.isNewline then
      if 1 < p.count then
        match p.withCount? (p.count - 1) with
        | some q => q :: r
        | none => r
      else r
    else p :: r

end Trivia

end Unflag
