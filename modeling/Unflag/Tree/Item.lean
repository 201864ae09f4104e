/-
Where an item ends and what it declares.

The boundaries of items come from line starts: a token that starts a line starts a new
item unless it, or what stands in front of it, shows that the item goes on. Attributes
and modifiers alone never make an item, so they wait for the declaration they belong to.
What an item declares is decided by its first word behind them.
-/
import Unflag.Tree

set_option autoImplicit false

namespace Unflag

namespace Item

/-! ## Words -/

/-- The words that may stand in front of a declaration. -/
def modifiers : List String :=
  ["public", "private", "fileprivate", "internal", "open", "package", "static", "final",
    "override", "mutating", "nonmutating", "lazy", "weak", "unowned", "dynamic", "convenience",
    "required", "optional", "indirect", "prefix", "postfix", "infix", "nonisolated", "isolated",
    "distributed", "consuming", "borrowing", "__consuming"]

/-- The words that `class` is a modifier in front of. -/
def classMembers : List String :=
  ["func", "var", "let", "subscript", "typealias", "init"] ++ modifiers

/-- The words that may stand in parentheses behind a modifier. -/
def modifierArguments : List String := ["set", "safe", "unsafe"]

/-- The words that declare, and what they declare. -/
def declarators : List (String × ItemKind) :=
  [("import", .importDecl), ("struct", .typeDecl), ("class", .typeDecl), ("enum", .typeDecl),
    ("protocol", .typeDecl), ("extension", .typeDecl), ("typealias", .aliasDecl),
    ("associatedtype", .aliasDecl), ("func", .functionDecl), ("init", .functionDecl),
    ("deinit", .functionDecl), ("subscript", .functionDecl), ("var", .variableDecl),
    ("let", .variableDecl), ("operator", .operatorDecl), ("precedencegroup", .operatorDecl),
    ("case", .caseDecl)]

/-- The words that declare only if a name follows. -/
def namedDeclarators : List (String × ItemKind) :=
  [("actor", .typeDecl), ("macro", .macroDecl)]

/-- What a word declares, by one of the tables above. -/
def lookup (table : List (String × ItemKind)) (word : Text) : Option ItemKind :=
  (table.find? fun e => word == e.1.toList).map Prod.snd

/-- Whether a text is one of these words. -/
def isWord (words : List String) (t : Text) : Bool := words.any fun w => t == w.toList

/-! ## Attributes and modifiers -/

/-- What follows the parenthesis that closes the `depth` open ones, and nothing if it is
missing. -/
def afterParentheses (depth : Nat) : List Part → List Part
  | [] => []
  | .token t :: r =>
    if t.is .punctuation "(" then afterParentheses (depth + 1) r
    else if t.is .punctuation ")" then
      match depth with
      | 0 => afterParentheses 0 r
      | 1 => r
      | d + 2 => afterParentheses (d + 1) r
    else afterParentheses depth r
  | .group _ _ _ :: r => afterParentheses depth r

/-- What follows a run in parentheses, if the parts start with one. -/
def skipParenthesized : List Part → List Part
  | .token t :: r =>
    if t.text == ['('] then afterParentheses 0 (.token t :: r) else .token t :: r
  | parts => parts

/-- What follows the argument of a modifier, such as `(set)`, if there is one. -/
def skipModifierArgument : List Part → List Part
  | .token a :: .token b :: .token c :: r =>
    if a.text == ['('] && isWord modifierArguments b.text && c.text == [')'] then r
    else .token a :: .token b :: .token c :: r
  | parts => parts

/-- Whether the first part is a name. -/
def startsWithName : List Part → Bool
  | .token t :: _ => t.kind == .identifier
  | _ => false

/-- What follows the name of an attribute: its arguments belong to it only on the same
line. -/
def skipAttributeArguments : List Part → List Part
  | .token t :: r => if t.startsLine then .token t :: r else skipParenthesized (.token t :: r)
  | parts => parts

theorem length_afterParentheses_le (depth : Nat) (parts : List Part) :
    (afterParentheses depth parts).length ≤ parts.length := by
  fun_induction afterParentheses depth parts <;> simp_all <;> omega

theorem length_skipParenthesized_le (parts : List Part) :
    (skipParenthesized parts).length ≤ parts.length := by
  unfold skipParenthesized
  split
  · split
    · exact length_afterParentheses_le _ _
    · exact Nat.le_refl _
  · exact Nat.le_refl _

theorem length_skipAttributeArguments_le (parts : List Part) :
    (skipAttributeArguments parts).length ≤ parts.length := by
  unfold skipAttributeArguments
  split
  · split
    · exact Nat.le_refl _
    · exact length_skipParenthesized_le _
  · exact Nat.le_refl _

theorem length_skipModifierArgument_le (parts : List Part) :
    (skipModifierArgument parts).length ≤ parts.length := by
  unfold skipModifierArgument
  split
  · split
    · simp; omega
    · exact Nat.le_refl _
  · exact Nat.le_refl _

/-- The parts behind the attributes and modifiers at the start. -/
def afterModifiers : List Part → List Part
  | [] => []
  | .group opening members closing :: r => .group opening members closing :: r
  | .token t :: r =>
    if t.is .punctuation "@" then
      if startsWithName r then afterModifiers (skipAttributeArguments r.tail)
      else afterModifiers r
    else if t.kind == .identifier && isWord modifiers t.text then
      if (skipModifierArgument r).isEmpty || startsWithName (skipModifierArgument r)
      then afterModifiers (skipModifierArgument r) else .token t :: r
    else if t.is .identifier "class"
        && (match r with | .token u :: _ => isWord classMembers u.text | _ => false)
    then afterModifiers r
    else .token t :: r
termination_by parts => parts.length
decreasing_by
  · have := length_skipAttributeArguments_le r.tail
    simp only [List.length_tail, List.length_cons] at *
    omega
  · simp
  · have := length_skipModifierArgument_le r
    simp only [List.length_cons]
    omega
  · simp

/-! ## Kind -/

/-- What an item made of these parts declares. -/
def classify (parts : List Part) : ItemKind :=
  match afterModifiers parts with
  | .token t :: r =>
    match t.kind with
    | .directive => .directive
    | .poundName => .macroUse
    | .identifier =>
      match lookup declarators t.text with
      | some kind => kind
      | none =>
        match lookup namedDeclarators t.text with
        | some kind => if startsWithName r then kind else .statement
        | none => .statement
    | _ => .statement
  | _ => .statement

/-! ## Boundaries -/

/-- The last token of a part. -/
def lastTokenOf : Part → Token
  | .token t => t
  | .group _ _ closing => closing

/-- The last token of an item, if it has parts. -/
def lastToken? (parts : List Part) : Option Token := parts.getLast?.map lastTokenOf

/-- Whether the parts end in an operator that waits for its right-hand side: an arrow, an
operator alone, or one with a blank in front. The name of an operator that is being
declared does not wait. -/
def endsInOperator (parts : List Part) : Bool :=
  match parts.getLast? with
  | some (.token t) =>
    t.kind == .operator &&
      (t.text == "->".toList ||
        match lastToken? parts.dropLast with
        | none => true
        | some b => !b.is .identifier "operator" && !b.trailing.isEmpty)
  | _ => false

/-- Whether the token that follows these parts starts an item of its own. -/
def startsNewItem (parts : List Part) (t : Token) : Bool :=
  t.startsLine
  && !(afterModifiers parts).isEmpty
  && !t.isOneOf .punctuation [".", ")", "]", ",", ":", "\x7b"]
  && !t.isOneOf .identifier ["else", "catch", "where", "throws", "rethrows"]
  && !(t.kind == .operator && !t.trailing.isEmpty)
  && !(match lastToken? parts with
      | some b => b.isOneOf .punctuation ["(", "[", ",", "@", ".", "\\"]
      | none => false)
  && !endsInOperator parts

end Item

end Unflag
