/-
Why a source is refused.

A refusal has a cause and the line it was noticed on. The causes are data, so that
each can be characterised on its own; their wording is one function.
-/
import Unflag.Fault

set_option autoImplicit false

namespace Unflag

/-- Why a source text has no tokens or no tree. -/
inductive Cause where
  /-- A block comment is still open at the end of the source. -/
  | openComment
  /-- A string literal is still open at the end of its line or of the source. -/
  | openString
  /-- An interpolation inside a string literal is still open at the end. -/
  | openInterpolation
  /-- A delimited regular expression has no closing delimiter. -/
  | openRegex
  /-- A clause directive or an end directive stands outside every block. -/
  | strayDirective (word : Text)
  /-- A closing brace stands outside every group. -/
  | strayToken (word : Text)
  /-- A block opens inside round or square brackets. -/
  | bracketedBlock
  /-- A directive of an outer block stands inside a group opened on `line`. -/
  | crossesGroup (word : Text) (line : Nat)
  /-- The group opened on `line` is not closed. -/
  | openGroup (line : Nat)
  /-- A directive that needs a condition has none. -/
  | missingCondition (word : Text)
  /-- The block opened on `line` is not ended. -/
  | openBlock (line : Nat)
  /-- Another clause follows the fallback clause. -/
  | afterFallback (word : Text)
  deriving DecidableEq, Repr

/-- The wording of a cause. -/
def Cause.message : Cause → String
  | .openComment => "unterminated block comment"
  | .openString => "unterminated string literal"
  | .openInterpolation => "unterminated string interpolation"
  | .openRegex => "unterminated regex literal"
  | .strayDirective word => s!"{String.ofList word} without matching #if"
  | .strayToken word => s!"unexpected '{String.ofList word}'"
  | .bracketedBlock => "#if inside brackets is not supported"
  | .crossesGroup word line =>
    s!"{String.ofList word} crosses the '\x7b' opened on line {line}"
  | .openGroup line => s!"missing '\x7d' for '\x7b' opened on line {line}"
  | .missingCondition word => s!"{String.ofList word} without a condition"
  | .openBlock line => s!"missing #endif for #if opened on line {line}"
  | .afterFallback word => s!"{String.ofList word} after #else"

/-- A refusal: its cause and the line it was noticed on. -/
structure Failure where
  cause : Cause
  line : Nat
  deriving DecidableEq, Repr

/-- A refusal is reported with its line in front. -/
def Failure.message (f : Failure) : String := s!"line {f.line}: {f.cause.message}"

/-- Why a source is not turned into a tree: it is malformed, or a fault strikes while one of its
conditions is read. -/
inductive Refusal where
  | malformed (f : Failure)
  | fault (f : Fault)
  deriving DecidableEq, Repr

end Unflag
