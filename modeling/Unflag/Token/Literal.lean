/-
How far a literal reaches.

A string literal may hold interpolations, an interpolation may hold string literals, and
each level has its own delimiters. The scanner keeps the open levels on a stack, so one
pass over the characters settles how far the outermost literal reaches and every step
shortens the text: `extent` is total because the text gets shorter, whatever the
nesting.

The results are lengths, never positions. A caller cuts with them, so a literal is a
piece of the source by construction.
-/
import Unflag.Failure

set_option autoImplicit false

namespace Unflag

namespace Literal

open Text

/-! ## String literals -/

/-- A level of a string literal that is still open. -/
inductive Level where
  /-- Inside a literal with so many number signs around its quotes; a multi-line one
  has three quotes at each end. -/
  | quoted (hashes : Nat) (multiline : Bool)
  /-- Inside an interpolation, with so many inner parentheses open. -/
  | spliced (depth : Nat)
  deriving DecidableEq, Repr

/-- The number signs of a delimiter. -/
def hashes (k : Nat) : Text := List.replicate k '#'

/-- The level that opens at `c :: r`, if a string literal starts there, and how many
characters of `r` its opening delimiter takes. -/
def opening? (c : Char) (r : Text) : Option (Level × Nat) :=
  let k := ((c :: r).takeWhile (· == '#')).length
  match (c :: r).drop k with
  | '\x22' :: q =>
    if ['\x22', '\x22'].isPrefixOf q then some (.quoted k true, k + 2)
    else some (.quoted k false, k)
  | _ => none

/-- What follows the first quote of a closing delimiter. -/
def closingTail (k : Nat) (multiline : Bool) : Text :=
  (if multiline then ['\x22', '\x22'] else []) ++ hashes k

/-- The number of characters up to the end of the outermost open level. An escape is a
backslash and the literal's number signs; it covers one more character, whatever that
is, unless it opens an interpolation. -/
def extent : List Level → Text → Except Cause Nat
  | [], _ => .ok 0
  | .quoted _ _ :: _, [] => .error .openString
  | .spliced _ :: _, [] => .error .openInterpolation
  | .quoted k m :: up, c :: r =>
    if !m && isLineEnd c then .error .openString
    else if c == '\\' && (hashes k).isPrefixOf r then
      let inside :=
        if (r.drop k).head? == some '(' then [.spliced 0, .quoted k m] else [.quoted k m]
      (extent (inside ++ up) (r.drop (k + 1))).map (· + (k + 2))
    else if c == '\x22' && (closingTail k m).isPrefixOf r then
      (extent up (r.drop (closingTail k m).length)).map (· + ((closingTail k m).length + 1))
    else (extent (.quoted k m :: up) r).map (· + 1)
  | .spliced d :: up, c :: r =>
    match opening? c r with
    | some (level, n) =>
      (extent (level :: .spliced d :: up) (r.drop n)).map (· + (n + 1))
    | none =>
      let now :=
        if c == '(' then .spliced (d + 1) :: up
        else if c == ')' then (match d with | 0 => up | d + 1 => .spliced d :: up)
        else .spliced d :: up
      (extent now r).map (· + 1)
termination_by _ s => s.length
decreasing_by
  all_goals
    simp only [List.length_drop, List.length_cons]
    omega

/-! ## Regular expressions -/

/-- The number of characters of a bare regular expression behind its first slash; `p` is
the character in front. It ends at a slash on the same line that no blank precedes, and
a backslash covers the next character. -/
def bareRegexFrom (p : Char) : Text → Option Nat
  | [] => none
  | c :: r =>
    if isLineEnd c then none
    else if c == '\\' then
      match r with
      | [] => none
      | d :: q => (bareRegexFrom d q).map (· + 2)
    else if c == '/' then (if isBlank p then none else some 1)
    else (bareRegexFrom c r).map (· + 1)

/-- A slash with `r` behind it opens a bare regular expression of this many further
characters. One that a blank or a closing parenthesis follows is an operator. -/
def bareRegex? (r : Text) : Option Nat :=
  match r with
  | [] => none
  | c :: _ => if isBlank c || c == ')' then none else bareRegexFrom '/' r

/-! ## Numbers -/

/-- Hexadecimal digits. -/
def isHexDigit (c : Char) : Bool :=
  c.isDigit || ('a' ≤ c && c ≤ 'f') || ('A' ≤ c && c ≤ 'F')

/-- Octal digits. -/
def isOctalDigit (c : Char) : Bool := '0' ≤ c && c ≤ '7'

/-- Binary digits. -/
def isBinaryDigit (c : Char) : Bool := c == '0' || c == '1'

/-- The length of a run of digits and underscores that starts with a digit; 0 when no
digit stands there. -/
def digits (isDigit : Char → Bool) : Text → Nat
  | [] => 0
  | c :: r =>
    if isDigit c then (r.takeWhile fun d => isDigit d || d == '_').length + 1 else 0

/-- The length of a fraction: a point and digits; 0 when there is none. -/
def fraction (isDigit : Char → Bool) : Text → Nat
  | '.' :: r => match digits isDigit r with | 0 => 0 | n + 1 => n + 2
  | _ => 0

/-- The length of an exponent: its mark, perhaps a sign, and decimal digits; 0 when there
is none. -/
def exponent (isMark : Char → Bool) : Text → Nat
  | [] => 0
  | c :: r =>
    if isMark c then
      match r with
      | [] => 0
      | s :: q =>
        if s == '+' || s == '-' then
          match digits Char.isDigit q with | 0 => 0 | n + 1 => n + 3
        else match digits Char.isDigit (s :: q) with | 0 => 0 | n + 1 => n + 2
    else 0

/-- A number's length and whether it has a fraction or an exponent. -/
structure Number where
  length : Nat
  isFloat : Bool
  deriving DecidableEq, Repr

/-- The number made of `n` characters of digits, with its fraction and exponent. -/
def withTail (isDigit isMark : Char → Bool) (n : Nat) (s : Text) : Number :=
  let f := fraction isDigit (s.drop n)
  let e := exponent isMark (s.drop (n + f))
  ⟨n + f + e, 0 < f + e⟩

/-- The number at the start of `s`. A base that no digit follows is not taken: only its
zero is. -/
def number (s : Text) : Number :=
  let decimal := withTail Char.isDigit (fun c => c == 'e' || c == 'E') (digits Char.isDigit s) s
  match s with
  | '0' :: 'x' :: r =>
    match digits isHexDigit r with
    | 0 => decimal
    | n + 1 => withTail isHexDigit (fun c => c == 'p' || c == 'P') (n + 3) s
  | '0' :: 'o' :: r =>
    match digits isOctalDigit r with
    | 0 => decimal
    | n + 1 => ⟨n + 3, false⟩
  | '0' :: 'b' :: r =>
    match digits isBinaryDigit r with
    | 0 => decimal
    | n + 1 => ⟨n + 3, false⟩
  | _ => decimal

end Literal

end Unflag
