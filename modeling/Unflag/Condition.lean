/-
Compilation conditions, and what they say once one flag is known to be on.

A condition is built from names, literals, `!`, `&&`, `||` and parentheses. Anything else
(platform checks, version checks, comparisons) is kept as `unsupported` text, so that a
block on it can be left alone instead of being refused.

Two questions are asked of a condition. `names` lists what it mentions and is answered
only if nothing in it is unsupported. `holds` evaluates it with one flag on; it reads
the operands from left to right and stops as soon as the answer is known, so a name
other than the flag is an obstacle only where it is reached.
-/
import Unflag.Text.Number

set_option autoImplicit false

namespace Unflag

/-- The two binary operators of a condition. -/
inductive Connective where
  | and
  | or
  deriving DecidableEq, Repr

/-- A compilation condition. -/
inductive Condition where
  | name (name : Text)
  | int (value : Int)
  | bool (value : Bool)
  | not (operand : Condition)
  | binary (op : Connective) (left right : Condition)
  | paren (inner : Condition)
  /-- A construct outside the part that can be evaluated. -/
  | unsupported (text : Text)
  deriving DecidableEq, Repr

/-- What keeps a condition from being answered. -/
inductive Obstacle where
  /-- A construct outside the part that can be evaluated. -/
  | unsupported (text : Text)
  /-- A name other than the flag whose value is known. -/
  | unknownFlag (name : Text)
  deriving DecidableEq, Repr

/-- The wording of an obstacle. -/
def Obstacle.message : Obstacle → String
  | .unsupported text => s!"cannot evaluate '{String.ofList text}'"
  | .unknownFlag name => s!"unknown flag '{String.ofList name}'"

namespace Condition

/-! ## Text -/

/-- The sign of an operator, with the blanks around it. -/
def symbol : Connective → Text
  | .and => " && ".toList
  | .or => " || ".toList

/-- The text of a condition, with parentheses around every binary operator, so that it is
read the same way whichever operator binds tighter. A number can be too long to be written. -/
def render : Condition → Except Fault Text
  | .name n => .ok n
  | .int v => Text.ofInteger v
  | .bool v => .ok (if v then "true".toList else "false".toList)
  | .not e => do return '!' :: (← e.render)
  | .binary op l r => do return '(' :: (← l.render) ++ symbol op ++ (← r.render) ++ [')']
  | .paren e => do return '(' :: (← e.render) ++ [')']
  | .unsupported t => .ok t

/-! ## Names -/

/-- The names a condition mentions, in the order of the text and with repetitions. -/
def names : Condition → Except Obstacle (List Text)
  | .name n => .ok [n]
  | .int _ => .ok []
  | .bool _ => .ok []
  | .not e => e.names
  | .binary _ l r =>
    match l.names with
    | .error o => .error o
    | .ok ls =>
      match r.names with
      | .error o => .error o
      | .ok rs => .ok (ls ++ rs)
  | .paren e => e.names
  | .unsupported t => .error (.unsupported t)

/-- The names that several conditions mention; the first obstacle on the way is the
answer. -/
def namesAll : List Condition → Except Obstacle (List Text)
  | [] => .ok []
  | e :: es =>
    match e.names with
    | .error o => .error o
    | .ok ns =>
      match namesAll es with
      | .error o => .error o
      | .ok ms => .ok (ns ++ ms)

/-- Whether the distinct names of a list are exactly the one flag. -/
def onlyFlag (flag : Text) (ns : List Text) : Bool := !ns.isEmpty && ns.all (· == flag)

/-! ## Value -/

/-- The value of a condition with `flag` on. A number stands for "is positive". -/
def holds (flag : Text) : Condition → Except Obstacle Bool
  | .name n => if n = flag then .ok true else .error (.unknownFlag n)
  | .int v => .ok (decide (0 < v))
  | .bool v => .ok v
  | .not e => (e.holds flag).map (!·)
  | .binary .and l r =>
    match l.holds flag with
    | .ok true => r.holds flag
    | other => other
  | .binary .or l r =>
    match l.holds flag with
    | .ok false => r.holds flag
    | other => other
  | .paren e => e.holds flag
  | .unsupported t => .error (.unsupported t)

end Condition

end Unflag
