/-
Tokens: what a source text is made of, each with the trivia around it.

A token owns the blanks and comments beside it. Trailing trivia is what follows on the
same line; everything else up to the next token, and so every line break, is the next
token's leading trivia. Putting the texts of the tokens back together therefore gives
the source.
-/
import Unflag.Trivia

set_option autoImplicit false

namespace Unflag

namespace Token

/-- The lexical classes. -/
inductive Kind where
  /-- Names, keywords, names in back quotes and numbered closure arguments. -/
  | identifier
  | integer
  | float
  | string
  | regex
  | operator
  | punctuation
  /-- The words `#if`, `#elseif`, `#else`, `#endif` and `#sourceLocation`. -/
  | directive
  /-- Any other word behind a number sign. -/
  | poundName
  /-- A single character that starts nothing else. -/
  | unknown
  /-- The empty token that stands where a block was removed. -/
  | placeholder
  | endOfFile
  deriving DecidableEq, Repr

end Token

/-- A token with the trivia on both sides and the line its text starts on. -/
structure Token where
  kind : Token.Kind
  text : Text
  leading : Trivia
  trailing : Trivia
  line : Nat
  deriving DecidableEq, Repr

namespace Token

/-- The source text of a token, trivia included. -/
def source (t : Token) : Text := t.leading.text ++ t.text ++ t.trailing.text

/-- The source text of a list of tokens. -/
def sourceAll (ts : List Token) : Text := ts.flatMap source

/-- Whether the token is the first one of its line. -/
def startsLine (t : Token) : Bool := t.leading.hasNewline

/-- Whether the token is a word of conditional compilation. -/
def isDirective (t : Token) : Bool := t.kind == .directive

/-- Whether the token has this class and this text. -/
def is (t : Token) (kind : Kind) (word : String) : Bool :=
  t.kind == kind && t.text == word.toList

/-- Whether the token has this class and one of these texts. -/
def isOneOf (t : Token) (kind : Kind) (words : List String) : Bool :=
  t.kind == kind && words.any fun w => t.text == w.toList

/-- The token that stands where a block was removed: no text, only trivia. -/
def placeholder (leading : Trivia) : Token := ⟨.placeholder, [], leading, [], 0⟩

end Token

/-- A source cut into tokens. The end of the file is a token of its own, with no text
and no trailing trivia; its leading trivia is what follows the last real token. -/
structure Lexed where
  tokens : List Token
  eof : Token
  deriving DecidableEq, Repr

namespace Lexed

/-- All tokens, the end of the file last. -/
def toList (l : Lexed) : List Token := l.tokens ++ [l.eof]

/-- The same source with one more token in front. -/
def cons (t : Token) (l : Lexed) : Lexed := { l with tokens := t :: l.tokens }

/-- The source text of all tokens. -/
def source (l : Lexed) : Text := Token.sourceAll l.toList

end Lexed

end Unflag
