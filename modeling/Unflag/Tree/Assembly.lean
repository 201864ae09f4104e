/-
From tokens to a tree.

The assembly reads one token at a time. It keeps the member list it is filling and, on a
stack, the groups and clauses that list stands in; while the condition of a clause is
being read it keeps the tokens taken so far instead. Every token is put in exactly one
place by exactly one `step`, and the tree is a fold of `step` over the tokens, so nesting
costs no recursion and a statement about trees is an invariant of the state.

Where a condition ends is decided by the token behind it: a condition goes on over the
end of a line inside parentheses and on either side of an operator.
-/
import Unflag.Condition.Grouping
import Unflag.Token.Scan
import Unflag.Tree.Item

set_option autoImplicit false

namespace Unflag

namespace Assembly

/-! ## State -/

/-- A member list that is being filled: its finished nodes, the parts of the item in hand,
and the round and square brackets open in it. -/
structure Members where
  nodes : List Node
  parts : List Part
  depth : Nat

namespace Members

/-- Nothing yet. -/
def empty : Members := ⟨[], [], 0⟩

/-- Finishes the item in hand. The open brackets are those of the list and stay. -/
def flush (m : Members) : Members :=
  if m.parts.isEmpty then m
  else ⟨m.nodes ++ [.item (Item.classify m.parts) m.parts], [], m.depth⟩

/-- Adds a part to the item in hand. -/
def addPart (m : Members) (p : Part) : Members := { m with parts := m.parts ++ [p] }

/-- Adds a node behind everything else. -/
def addNode (m : Members) (n : Node) : Members := { m with nodes := m.nodes ++ [n] }

/-- The list with the item in hand finished. -/
def finish (m : Members) : List Node := m.flush.nodes

/-- Finishes the item in hand if the next token starts another one. -/
def breakBefore (m : Members) (t : Token) : Members :=
  if !m.parts.isEmpty && m.depth == 0 && Item.startsNewItem m.parts t then m.flush else m

/-- Adds a token that is no brace and no block directive. -/
def addToken (m : Members) (t : Token) : Members :=
  let added := m.addPart (.token t)
  if t.isOneOf .punctuation ["(", "["] then { added with depth := m.depth + 1 }
  else if t.isOneOf .punctuation [")", "]"] then { added with depth := m.depth - 1 }
  else if t.is .punctuation ";" && m.depth == 0 then added.flush
  else added

end Members

/-- A conditional block that is being read: the list it stands in, the line of its first
directive, and its finished clauses. -/
structure OpenBlock where
  outer : Members
  line : Nat
  clauses : List Clause

/-- What the member list in hand stands in. -/
inductive Frame where
  | group (outer : Members) (opening : Token)
  | clause (block : OpenBlock) (head : ClauseHead)

/-- Where the assembly stands. -/
inductive State where
  /-- Inside a member list. -/
  | listing (stack : List Frame) (members : Members)
  /-- Inside the condition of a clause, with the tokens taken and the parentheses open. -/
  | heading (stack : List Frame) (block : OpenBlock) (kind : ClauseKind) (directive : Token)
      (taken : List Token) (depth : Int)

/-! ## Steps -/

/-- Whether a token is one of the three directives that end a clause body. -/
def isBoundary (t : Token) : Bool := t.isOneOf .directive ["#elseif", "#else", "#endif"]

/-- Whether an operator at the end of a line wants the condition to go on. -/
def wantsMore (t : Token) : Bool :=
  t.kind == .operator &&
    ("&&".toList.isSuffixOf t.text || "||".toList.isSuffixOf t.text || "!".toList.isSuffixOf t.text)

/-- Whether an operator at the start of a line continues a condition. -/
def continuesCondition (t : Token) : Bool :=
  t.kind == .operator && ("&&".toList.isPrefixOf t.text || "||".toList.isPrefixOf t.text)

/-- Whether the condition read so far ends in front of a token. -/
def endsCondition (taken : List Token) (depth : Int) (t : Token) : Bool :=
  t.isDirective ||
    (t.startsLine &&
      match taken.getLast? with
      | none => true
      | some last => !(0 < depth || wantsMore last || continuesCondition t))

/-- The parentheses open behind a token of a condition. -/
def depthAfter (depth : Int) (t : Token) : Int :=
  if t.text == ['('] then depth + 1 else if t.text == [')'] then depth - 1 else depth

/-- A refusal at a token. -/
def refuse {α : Type} (cause : Cause) (t : Token) : Except Refusal α :=
  .error (.malformed ⟨cause, t.line⟩)

/-- The end of a condition: the member list of its clause begins. -/
def closeHeading (read : List Token → Except Refusal Condition) (stack : List Frame)
    (block : OpenBlock) (kind : ClauseKind) (directive : Token) (taken : List Token) :
    Except Refusal (List Frame) :=
  if taken.isEmpty then refuse (.missingCondition directive.text) directive
  else
    match read taken with
    | .error e => .error e
    | .ok e => .ok (.clause block ⟨kind, directive, taken, some e⟩ :: stack)

/-- A closing brace. -/
def closeGroup (stack : List Frame) (m : Members) (t : Token) : Except Refusal State :=
  match stack with
  | [] => refuse (.strayToken t.text) t
  | .group outer opening :: up =>
    .ok (.listing up (outer.addPart (.group opening m.finish t)))
  | .clause block _ :: _ => refuse (.openBlock block.line) t

/-- One of the directives that end a clause body. -/
def closeClause (stack : List Frame) (m : Members) (t : Token) : Except Refusal State :=
  match stack with
  | [] => refuse (.strayDirective t.text) t
  | .group _ opening :: _ => refuse (.crossesGroup t.text opening.line) t
  | .clause block head :: up =>
    let clauses := block.clauses ++ [.mk head m.finish]
    if t.is .directive "#endif" then
      .ok (.listing up (block.outer.addNode (.block clauses t)))
    else if head.kind == .fallback then refuse (.afterFallback t.text) t
    else if t.is .directive "#elseif" then
      .ok (.heading up { block with clauses } .alternative t [] 0)
    else .ok (.listing (.clause { block with clauses } ⟨.fallback, t, [], none⟩ :: up) .empty)

/-- A token inside a member list. -/
def stepList (stack : List Frame) (m : Members) (t : Token) : Except Refusal State :=
  if t.is .punctuation "\x7d" then closeGroup stack m t
  else if isBoundary t then closeClause stack m t
  else if t.is .directive "#if" then
    if 0 < m.depth then refuse .bracketedBlock t
    else .ok (.heading stack ⟨m.flush, t.line, []⟩ .primary t [] 0)
  else if t.is .punctuation "\x7b" then
    .ok (.listing (.group (m.breakBefore t) t :: stack) .empty)
  else .ok (.listing stack ((m.breakBefore t).addToken t))

/-- Reads one token. A token that ends a condition is read again inside the body. -/
def step (read : List Token → Except Refusal Condition) (s : State) (t : Token) :
    Except Refusal State :=
  match s with
  | .listing stack m => stepList stack m t
  | .heading stack block kind directive taken depth =>
    if endsCondition taken depth t then
      match closeHeading read stack block kind directive taken with
      | .error e => .error e
      | .ok inner => stepList inner .empty t
    else .ok (.heading stack block kind directive (taken ++ [t]) (depthAfter depth t))

/-- The end of the file: every group and block must be closed. -/
def finish (read : List Token → Except Refusal Condition) (s : State) (eof : Token) :
    Except Refusal SourceTree :=
  let close (stack : List Frame) (m : Members) : Except Refusal SourceTree :=
    match stack with
    | [] => .ok ⟨m.finish, eof⟩
    | .group _ opening :: _ => refuse (.openGroup opening.line) eof
    | .clause block _ :: _ => refuse (.openBlock block.line) eof
  match s with
  | .listing stack m => close stack m
  | .heading stack block kind directive taken _ =>
    match closeHeading read stack block kind directive taken with
    | .error e => .error e
    | .ok inner => close inner .empty

/-- The tree of the tokens of a source, with `read` to read the conditions. -/
def assemble (read : List Token → Except Refusal Condition) (l : Lexed) :
    Except Refusal SourceTree :=
  match l.tokens.foldlM (step read) (.listing [] .empty) with
  | .error e => .error e
  | .ok s => finish read s l.eof

end Assembly

/-- The tree of a source, with `read` to read the conditions. -/
def SourceTree.parseWith (read : List Token → Except Refusal Condition) (source : Text) :
    Except Refusal SourceTree :=
  match tokenize source with
  | .error f => .error (.malformed f)
  | .ok l => Assembly.assemble read l

/-- The tree of a source whose conditions are grouped by `g`. -/
def SourceTree.parse (g : Grouping) (source : Text) : Except Refusal SourceTree :=
  SourceTree.parseWith (Condition.ofTokens g) source

/-- The tree of a source whose conditions are grouped by the grouping of this name. -/
def SourceTree.parseBy (label : String) (source : Text) : Except Refusal SourceTree :=
  SourceTree.parseWith (Condition.ofTokensBy label) source

end Unflag
