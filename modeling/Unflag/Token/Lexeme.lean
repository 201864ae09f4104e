/-
What starts at a character.

`triviaAt` and `tokenAt` look at one character and at what follows it, and say what
starts there and how many further characters belong to it. The first character always
belongs, so a step of the scan takes at least one character, and what it takes is a
piece of the source.

Only one rule looks back: a slash opens a regular expression when the token in front of
it cannot end an operand.
-/
import Unflag.Token.Literal
import Unflag.Token

set_option autoImplicit false

namespace Unflag

namespace Lexeme

open Text

/-! ## Names and operators -/

/-- The characters a name may start with: letters, the underscore and everything beyond
ASCII that is not blank. -/
def isNameStart (c : Char) : Bool :=
  c == '_' || c.isAlpha || (127 < c.toNat && !isBlank c)

/-- The characters of a name: those it may start with, and the ten digits. -/
def isNameChar (c : Char) : Bool := isNameStart c || c.isDigit

/-- The length of a run of name characters. -/
def nameLength (s : Text) : Nat := (s.takeWhile isNameChar).length

/-- The characters operators are made of. -/
def isOperatorChar (c : Char) : Bool := "/=-+!*%<>&|^~?".toList.contains c

/-- The characters that are a token each. -/
def isPunctuation (c : Char) : Bool := ".\x7b\x7d()[],;:@\\".toList.contains c

/-- The length of a run of operator characters, which ends where a comment starts. -/
def operatorLength : Text → Nat
  | [] => 0
  | c :: r =>
    if isOperatorChar c && !(c == '/' && (r.head? == some '/' || r.head? == some '*'))
    then operatorLength r + 1 else 0

/-! ## Trivia -/

/-- The number of CRLF pairs at the start. -/
def returnFeeds : Text → Nat
  | '\r' :: '\n' :: r => returnFeeds r + 1
  | _ => 0

/-- The number of carriage returns at the start that no line feed follows. -/
def loneReturns : Text → Nat
  | '\r' :: '\n' :: _ => 0
  | '\r' :: r => loneReturns r + 1
  | _ => 0

/-- The number of characters up to the end of the line. -/
def lineLength (s : Text) : Nat := (s.takeWhile fun c => !isLineEnd c).length

/-- The number of characters up to the end of a block comment with `depth` comments open
around the current one. Block comments nest. -/
def commentLength (depth : Nat) : Text → Option Nat
  | [] => none
  | '/' :: '*' :: r => (commentLength (depth + 1) r).map (· + 2)
  | '*' :: '/' :: r =>
    match depth with
    | 0 => some 2
    | d + 1 => (commentLength d r).map (· + 2)
  | _ :: r => (commentLength depth r).map (· + 1)

/-- A line comment documents what follows if it has exactly three slashes. -/
def lineCommentKind (comment : Text) : Trivia.Kind :=
  if "///".toList.isPrefixOf comment && !"////".toList.isPrefixOf comment
  then .docLineComment else .lineComment

/-- A block comment documents what follows if it has exactly two stars and is not the
empty comment. -/
def blockCommentKind (comment : Text) : Trivia.Kind :=
  if "/**".toList.isPrefixOf comment && comment != "/**/".toList
    && !"/***".toList.isPrefixOf comment
  then .docBlockComment else .blockComment

/-- The piece of trivia at `c :: r` and how many characters of `r` it takes; `none` when a
token starts there. -/
def triviaAt (c : Char) (r : Text) : Except Cause (Option (Trivia.Kind × Nat)) :=
  if c == ' ' then .ok (some (.spaces, (r.takeWhile (· == ' ')).length))
  else if c == '\t' then .ok (some (.tabs, (r.takeWhile (· == '\t')).length))
  else if c == '\n' then .ok (some (.lineFeeds, (r.takeWhile (· == '\n')).length))
  else if c == '\r' then
    match r with
    | '\n' :: q => .ok (some (.returnFeeds, 2 * returnFeeds q + 1))
    | _ => .ok (some (.carriageReturns, loneReturns r))
  else if c == '/' && r.head? == some '/' then
    let n := lineLength r
    .ok (some (lineCommentKind (c :: r.take n), n))
  else if c == '/' && r.head? == some '*' then
    match commentLength 0 r.tail with
    | some n => .ok (some (blockCommentKind (c :: r.take (n + 1)), n + 1))
    | none => .error .openComment
  else if isBlank c then .ok (some (.other, 0))
  else .ok none

/-! ## Tokens -/

/-- The words of conditional compilation. -/
def directives : List String := ["#if", "#elseif", "#else", "#endif", "#sourceLocation"]

/-- Whether a slash behind this token starts an operand: at the start of the source,
behind an operator, an opening or separating mark, or a keyword that an expression
follows. -/
def operandFollows : Option Token → Bool
  | none => true
  | some t =>
    t.kind == .operator
    || t.isOneOf .punctuation ["(", "[", "\x7b", ",", ":", ";"]
    || t.isOneOf .identifier
        ["return", "case", "in", "where", "if", "guard", "while", "try", "await"]

/-- The token that starts with a number sign; `r` follows the sign. -/
def poundAt (r : Text) : Except Cause (Token.Kind × Nat) :=
  let k := (r.takeWhile (· == '#')).length + 1
  match (r.drop (k - 1)) with
  | '\x22' :: _ =>
    match Literal.opening? '#' r with
    | some (level, n) =>
      (Literal.extent [level] (r.drop n)).map fun m => (.string, n + m)
    | none => .ok (.unknown, 0)
  | '/' :: q =>
    match find? ('/' :: Literal.hashes k) q with
    | some n => .ok (.regex, n + (2 * k + 1))
    | none => .error .openRegex
  | c :: _ =>
    if k == 1 && isNameStart c then
      let n := nameLength r
      let word := '#' :: r.take n
      .ok (if directives.any (fun d => word == d.toList) then .directive else .poundName, n)
    else .ok (.unknown, 0)
  | [] => .ok (.unknown, 0)

/-- The class of the token at `c :: r` behind the token `last`, and how many characters
of `r` belong to it. -/
def tokenAt (last : Option Token) (c : Char) (r : Text) : Except Cause (Token.Kind × Nat) :=
  if isNameStart c || c == '$' then .ok (.identifier, nameLength r)
  else if c == '\x60' then
    let name := r.takeWhile (· != '\x60')
    if name.length < r.length && name.all (fun d => !isLineEnd d)
    then .ok (.identifier, name.length + 1) else .ok (.unknown, 0)
  else if c.isDigit then
    let n := Literal.number (c :: r)
    .ok (if n.isFloat then .float else .integer, n.length - 1)
  else if c == '\x22' then
    match Literal.opening? c r with
    | some (level, n) =>
      (Literal.extent [level] (r.drop n)).map fun m => (.string, n + m)
    | none => .ok (.unknown, 0)
  else if c == '#' then poundAt r
  else if c == '.' && r.head? == some '.' then
    .ok (.operator, (r.takeWhile fun d => isOperatorChar d || d == '.').length)
  else
    match (if c == '/' && operandFollows last then Literal.bareRegex? r else none) with
    | some n => .ok (.regex, n)
    | none =>
      if isOperatorChar c then .ok (.operator, operatorLength r)
      else if isPunctuation c then .ok (.punctuation, 0)
      else .ok (.unknown, 0)

end Lexeme

end Unflag
