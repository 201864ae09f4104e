/-
The pieces a condition is read from.

Tokens are cut for source text at large: `&&!` is one operator token, and a platform
check such as `os(iOS)` is several. Here they become the pieces of the condition
grammar. A name directly in front of a parenthesis takes everything up to the matching
one, as a single unsupported piece; a token that has no place in a condition leaves the
whole without pieces.
-/
import Unflag.Condition
import Unflag.Fault
import Unflag.Text.Number
import Unflag.Token

set_option autoImplicit false

namespace Unflag

namespace Condition

/-- A piece of a condition. -/
inductive Piece where
  | bang
  | connective (op : Connective)
  | opening
  | closing
  | name (text : Text)
  | int (text : Text)
  | unsupported (text : Text)
  deriving DecidableEq, Repr

/-- The pieces of an operator token: `&&`, `||` and `!` in any order, and nothing else. -/
def Piece.ofOperator? : Text → Option (List Piece)
  | [] => some []
  | '&' :: '&' :: r => (ofOperator? r).map (.connective .and :: ·)
  | '|' :: '|' :: r => (ofOperator? r).map (.connective .or :: ·)
  | '!' :: r => (ofOperator? r).map (.bang :: ·)
  | _ => none

/-- The number of tokens up to the parenthesis that closes the first one, with `depth`
open around the current place. -/
def argumentLength (depth : Nat) : List Token → Option Nat
  | [] => none
  | t :: r =>
    if t.text == ['('] then (argumentLength (depth + 1) r).map (· + 1)
    else if t.text == [')'] then
      match depth with
      | 0 => none
      | 1 => some 1
      | d + 2 => (argumentLength (d + 1) r).map (· + 1)
    else (argumentLength depth r).map (· + 1)

/-- The texts of tokens, one after the other. -/
def joinTexts (ts : List Token) : Text := ts.flatMap Token.text

/-- The pieces of a single token. -/
def Piece.ofToken? (t : Token) : Option (List Piece) :=
  match t.kind with
  | .identifier => some [.name t.text]
  | .integer => some [.int t.text]
  | .float => some [.unsupported t.text]
  | .operator => ofOperator? t.text
  | .punctuation =>
    if t.text == ['('] then some [.opening]
    else if t.text == [')'] then some [.closing]
    else none
  | _ => none

/-- The pieces of a list of tokens, if each token has its place in a condition. -/
def Piece.ofTokens? : List Token → Option (List Piece)
  | [] => some []
  | t :: r =>
    if t.kind == .identifier && (r.head?.map Token.text) == some ['('] then
      match argumentLength 0 r with
      | none => none
      | some n => (ofTokens? (r.drop n)).map (.unsupported (joinTexts (t :: r.take n)) :: ·)
    else
      match Piece.ofToken? t with
      | none => none
      | some ps => (ofTokens? r).map (ps ++ ·)
termination_by ts => ts.length
decreasing_by
  all_goals
    simp only [List.length_drop, List.length_cons]
    omega

/-! ## Integers -/

/-- The base that the mark in front of digits gives. -/
def markedBase? : Text → Option Nat
  | '0' :: c :: _ => [2, 8, 16].find? fun base => Text.baseMark? base = some c.toLower
  | _ => none

/-- The whole number that a text stands for. Underscores do not count; a mark in front gives the
base, and without one the digits are decimal. Texts that are no literals are still read if they
only have blanks around them, a sign, or digits of another script. -/
def integerOf (t : Text) : Except Fault Int :=
  let ds := t.filter (· != '_')
  match markedBase? ds with
  | none => Text.toInteger ds
  | some base =>
    match Text.readInteger? base ds with
    | some n => .ok n
    | none => .error (.notInteger 0 ds)

end Condition

end Unflag
