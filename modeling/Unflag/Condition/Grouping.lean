/-
Reading a condition from its pieces.

Two ways of grouping are known. In the sequential one `&&` and `||` bind equally and
associate to the left; in the other, `&&` binds tighter. Both are one operator-precedence
machine that differs only in the binding powers: it reads the pieces from left to right
and keeps what is still waiting for its right-hand side on a stack. Reading is a fold of
`step`, so what it does to `xs ++ ys` is what it does to `xs` and then to `ys`.

A condition that is not in the grammar is kept whole as unsupported text. Reading fails only with
the fault of a number that has too many digits, and only if the number is reached.
-/
import Unflag.Condition.Piece
import Unflag.Failure

set_option autoImplicit false

namespace Unflag

/-- How `&&` and `||` group when no parentheses say it. -/
inductive Grouping where
  /-- From left to right, both binding equally. -/
  | sequential
  /-- `&&` before `||`, as the compiler of the language does. -/
  | swift
  deriving DecidableEq, Repr

namespace Grouping

/-- The binding power of an operator. -/
def power : Grouping → Connective → Nat
  | .sequential, _ => 1
  | .swift, .and => 2
  | .swift, .or => 1

/-- The name under which a grouping is chosen. -/
def label : Grouping → String
  | .sequential => "sequential"
  | .swift => "swift"

/-- All groupings, in the order they are offered. -/
def all : List Grouping := [.sequential, .swift]

/-- The grouping of a name. -/
def ofLabel? (name : String) : Option Grouping := all.find? fun g => g.label == name

end Grouping

namespace Condition

/-- What waits on the stack for the expression that is being read. -/
inductive Pending where
  /-- A negation waits for its operand. -/
  | negation
  /-- A parenthesis waits to be closed. -/
  | parenthesis
  /-- A left-hand side and its operator wait for the right-hand side. -/
  | operand (op : Connective) (left : Condition)
  deriving DecidableEq, Repr

/-- The state of the reader: the stack, and the operand just read, if there is one. -/
structure Reader where
  stack : List Pending
  operand : Option Condition
  deriving DecidableEq, Repr

namespace Reader

/-- Nothing read yet. -/
def start : Reader := ⟨[], none⟩

/-- An operand is complete: the negations directly in front of it apply to it. -/
def settle : List Pending → Condition → Reader
  | .negation :: up, e => settle up (.not e)
  | stack, e => ⟨stack, some e⟩

/-- Closes the operators on top of the stack that bind at least as tightly as `floor`. -/
def reduce (g : Grouping) (floor : Nat) : List Pending → Condition → List Pending × Condition
  | .operand op l :: up, e =>
    if floor ≤ g.power op then reduce g floor up (.binary op l e) else (.operand op l :: up, e)
  | stack, e => (stack, e)

/-- The leaf that a piece stands for, if it is one. The two truth values are names only in
the text. -/
def leaf : Piece → Except (Stop Unit) Condition
  | .name t =>
    .ok (if t == "true".toList then .bool true
      else if t == "false".toList then .bool false else .name t)
  | .int t =>
    match integerOf t with
    | .ok n => .ok (.int n)
    | .error f => .error (.fault f)
  | .unsupported t => .ok (.unsupported t)
  | _ => .error (.refused ())

/-- Reads one piece. -/
def step (g : Grouping) (s : Reader) (p : Piece) : Except (Stop Unit) Reader :=
  match s.operand with
  | none =>
    match p with
    | .bang => .ok ⟨.negation :: s.stack, none⟩
    | .opening => .ok ⟨.parenthesis :: s.stack, none⟩
    | _ => (leaf p).map (settle s.stack)
  | some e =>
    match p with
    | .connective op =>
      let (stack, left) := reduce g (g.power op) s.stack e
      .ok ⟨.operand op left :: stack, none⟩
    | .closing =>
      match reduce g 0 s.stack e with
      | (.parenthesis :: up, inner) => .ok (settle up (.paren inner))
      | _ => .error (.refused ())
    | _ => .error (.refused ())

/-- The condition that has been read, if nothing is left open. -/
def result (g : Grouping) (s : Reader) : Except (Stop Unit) Condition :=
  match s.operand with
  | none => .error (.refused ())
  | some e =>
    match reduce g 0 s.stack e with
    | ([], whole) => .ok whole
    | _ => .error (.refused ())

end Reader

/-- The condition of a list of pieces, if they form one. -/
def ofPieces (g : Grouping) (ps : List Piece) : Except (Stop Unit) Condition :=
  ps.foldlM (Reader.step g) Reader.start >>= Reader.result g

/-- Tokens that are kept as they are: their texts with single blanks between them. -/
def keep (ts : List Token) : Condition := .unsupported (Text.joinWith [' '] (ts.map Token.text))

/-- The condition of a list of tokens. What is no condition is kept as unsupported text. -/
def ofTokens (g : Grouping) (ts : List Token) : Except Refusal Condition :=
  match Piece.ofTokens? ts with
  | none => .ok (keep ts)
  | some ps =>
    match ofPieces g ps with
    | .ok e => .ok e
    | .error (.refused _) => .ok (keep ts)
    | .error (.fault f) => .error (.fault f)

/-- The condition of a list of tokens, read in the grouping of this name. -/
def ofTokensBy (label : String) (ts : List Token) : Except Refusal Condition :=
  match Grouping.ofLabel? label with
  | some g => ofTokens g ts
  | none => .error (.fault (.noSuchKey label.toList))

end Condition

end Unflag
