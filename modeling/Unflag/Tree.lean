/-
The tree of a source: member lists, brace groups and conditional blocks.

The tree knows no expressions. A member list is a list of nodes: items (declarations and
statements), conditional blocks, and the placeholders that removed blocks leave behind.
An item is made of tokens and brace groups, and a group or a clause holds a member list
again.

Every function on trees is given by structural recursion over the three kinds of part and
the three kinds of list. `tokens` is the view that everything else is stated in: the text
of a tree is the text of its tokens.
-/
import Unflag.Condition
import Unflag.Token

set_option autoImplicit false

namespace Unflag

/-! ## Types -/

/-- What an item declares. -/
inductive ItemKind where
  /-- Structures, classes, enumerations, protocols, extensions and actors. -/
  | typeDecl
  | aliasDecl
  /-- Functions, initialisers, deinitialisers and subscripts. -/
  | functionDecl
  | variableDecl
  | macroDecl
  /-- A freestanding macro in use. -/
  | macroUse
  | importDecl
  /-- Operators and precedence groups. -/
  | operatorDecl
  | caseDecl
  /-- A directive that opens no block. -/
  | directive
  | statement
  deriving DecidableEq, Repr

/-- The kinds that make a file worth keeping. -/
def ItemKind.isMeaningful : ItemKind → Bool
  | .typeDecl | .aliasDecl | .functionDecl | .variableDecl | .macroDecl | .macroUse => true
  | _ => false

/-- The word that names a kind. -/
def ItemKind.label : ItemKind → String
  | .typeDecl => "type"
  | .aliasDecl => "typealias"
  | .functionDecl => "function"
  | .variableDecl => "variable"
  | .macroDecl => "macro"
  | .macroUse => "macro_expansion"
  | .importDecl => "import"
  | .operatorDecl => "operator"
  | .caseDecl => "enum_case"
  | .directive => "directive"
  | .statement => "statement"

/-- The three kinds of clause. -/
inductive ClauseKind where
  | primary
  | alternative
  | fallback
  deriving DecidableEq, Repr

/-- The directive that opens a clause of this kind. -/
def ClauseKind.word : ClauseKind → String
  | .primary => "#if"
  | .alternative => "#elseif"
  | .fallback => "#else"

/-- The line that opens a clause: its directive, and the tokens and the meaning of its
condition. A fallback has neither tokens nor condition. -/
structure ClauseHead where
  kind : ClauseKind
  directive : Token
  tokens : List Token
  condition : Option Condition
  deriving DecidableEq, Repr

mutual

/-- A node of a member list. -/
inductive Node where
  /-- A declaration or statement. -/
  | item (kind : ItemKind) (parts : List Part)
  /-- A conditional block, from its first directive to the one that ends it. -/
  | block (clauses : List Clause) (ending : Token)
  /-- What a removed block leaves: a token without text that keeps trivia. -/
  | placeholder (token : Token)

/-- A part of an item. -/
inductive Part where
  | token (t : Token)
  /-- A member list between braces. -/
  | group (opening : Token) (members : List Node) (closing : Token)

/-- A clause of a conditional block. -/
inductive Clause where
  | mk (head : ClauseHead) (body : List Node)

end

/-- The opening line of a clause. -/
def Clause.head : Clause → ClauseHead
  | .mk h _ => h

/-- The member list of a clause. -/
def Clause.body : Clause → List Node
  | .mk _ b => b

/-- The tree of a source: its member list and the end of the file. -/
structure SourceTree where
  members : List Node
  eof : Token

/-! ## Tokens and text -/

mutual

/-- The tokens of a node, in the order of the source. -/
def Node.tokens : Node → List Token
  | .item _ parts => tokensOfParts parts
  | .block clauses ending => tokensOfClauses clauses ++ [ending]
  | .placeholder t => [t]

/-- The tokens of a part. -/
def Part.tokens : Part → List Token
  | .token t => [t]
  | .group opening members closing => opening :: tokensOfNodes members ++ [closing]

/-- The tokens of a clause. -/
def Clause.tokens : Clause → List Token
  | .mk h body => h.directive :: h.tokens ++ tokensOfNodes body

/-- The tokens of a member list. -/
def tokensOfNodes : List Node → List Token
  | [] => []
  | n :: r => n.tokens ++ tokensOfNodes r

/-- The tokens of the parts of an item. -/
def tokensOfParts : List Part → List Token
  | [] => []
  | p :: r => p.tokens ++ tokensOfParts r

/-- The tokens of the clauses of a block. -/
def tokensOfClauses : List Clause → List Token
  | [] => []
  | c :: r => c.tokens ++ tokensOfClauses r

end

/-- The tokens of a tree, the end of the file last. -/
def SourceTree.tokens (t : SourceTree) : List Token := tokensOfNodes t.members ++ [t.eof]

/-- The text of a node. -/
def Node.render (n : Node) : Text := Token.sourceAll n.tokens

/-- The text of a part. -/
def Part.render (p : Part) : Text := Token.sourceAll p.tokens

/-- The text of a tree. -/
def SourceTree.render (t : SourceTree) : Text := Token.sourceAll t.tokens

/-- Whether a member list holds a token that is in the source, and not placeholders
only. -/
def hasContent (ns : List Node) : Bool :=
  (tokensOfNodes ns).any fun t => t.kind != .placeholder

/-! ## The first token -/

/-- The token a node starts with; `none` only for an item without parts or a block without
clauses. -/
def Node.firstToken? : Node → Option Token
  | .item _ (.token t :: _) => some t
  | .item _ (.group opening _ _ :: _) => some opening
  | .item _ [] => none
  | .block (.mk h _ :: _) _ => some h.directive
  | .block [] _ => none
  | .placeholder t => some t

/-- The node with another first token. -/
def Node.withFirstToken (t : Token) : Node → Node
  | .item kind (.token _ :: r) => .item kind (.token t :: r)
  | .item kind (.group _ members closing :: r) => .item kind (.group t members closing :: r)
  | .item kind [] => .item kind []
  | .block (.mk h body :: r) ending => .block (.mk { h with directive := t } body :: r) ending
  | .block [] ending => .block [] ending
  | .placeholder _ => .placeholder t

/-! ## Conditions of a block -/

/-- The conditions of the clauses that have one. -/
def conditionsOf (cs : List Clause) : List Condition := cs.filterMap fun c => c.head.condition

/-- The trivia in front of a block. -/
def leadingOf (cs : List Clause) : Trivia :=
  match cs with
  | [] => []
  | c :: _ => c.head.directive.leading

/-- The line a block starts on. -/
def lineOf (cs : List Clause) : Nat :=
  match cs with
  | [] => 0
  | c :: _ => c.head.directive.line

end Unflag
