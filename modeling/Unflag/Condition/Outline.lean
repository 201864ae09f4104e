/-
Conditions with gaps.

A condition that arrives from outside may lack a part. An outline is a condition in which
any part may be missing, and the three questions about a condition (its text, its names,
its value) are answered for it as far as they can be: a gap matters only where it is
reached, which is everywhere for the text and for the names, and for the value only on
the way the evaluation takes.
-/
import Unflag.Condition

set_option autoImplicit false

namespace Unflag

/-- A condition some of whose parts may be missing. -/
inductive Outline where
  | gap
  | leaf (e : Condition)
  | not (operand : Outline)
  | binary (op : Connective) (left right : Outline)
  | paren (inner : Outline)
  deriving DecidableEq, Repr

namespace Outline

/-- The condition, if nothing is missing. -/
def complete? : Outline → Option Condition
  | .gap => none
  | .leaf e => some e
  | .not o => o.complete?.map .not
  | .binary op l r => l.complete?.bind fun a => r.complete?.map fun b => .binary op a b
  | .paren o => o.complete?.map .paren

/-- Why a question about an outline has no answer. -/
inductive Block where
  | gap
  | obstacle (o : Obstacle)
  deriving DecidableEq, Repr

/-- An answer about a complete part. -/
def lift {α : Type} : Except Obstacle α → Except Block α
  | .ok a => .ok a
  | .error o => .error (.obstacle o)

/-- The names of an outline. -/
def names : Outline → Except Block (List Text)
  | .gap => .error .gap
  | .leaf e => lift e.names
  | .not o => o.names
  | .binary _ l r => do return (← l.names) ++ (← r.names)
  | .paren o => o.names

/-- The value of an outline with `flag` on. -/
def holds (flag : Text) : Outline → Except Block Bool
  | .gap => .error .gap
  | .leaf e => lift (e.holds flag)
  | .not o => (o.holds flag).map (!·)
  | .binary .and l r =>
    match l.holds flag with
    | .ok true => r.holds flag
    | other => other
  | .binary .or l r =>
    match l.holds flag with
    | .ok false => r.holds flag
    | other => other
  | .paren o => o.holds flag

end Outline

end Unflag
