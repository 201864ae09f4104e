/-
Text, and the few facts about characters that everything else rests on.

A text is a list of characters, so that its laws are the laws of lists: a scanner
says how many characters it takes, and "nothing is lost" is `take ++ drop`. Two
notions of line live here and they differ on purpose. The *line break* of a source
(`lineBreaks`) is LF, CR or CRLF, the last counted once; it is what line numbers
count. The *line boundary* of a tool's output (`splitLines`) also knows the form
feed, the information separators and the Unicode separators.
-/
set_option autoImplicit false

namespace Unflag

/-- A text, as the list of its characters. -/
abbrev Text := List Char

namespace Text

/-! ## Characters -/

/-- The code points of the blank characters, as closed ranges. -/
def blankRanges : List (Nat × Nat) :=
  [(0x09, 0x0D), (0x1C, 0x20), (0x85, 0x85), (0xA0, 0xA0), (0x1680, 0x1680),
    (0x2000, 0x200A), (0x2028, 0x2029), (0x202F, 0x202F), (0x205F, 0x205F),
    (0x3000, 0x3000)]

/-- Whether a code point lies in one of the closed ranges. -/
def inRanges (ranges : List (Nat × Nat)) (n : Nat) : Bool :=
  ranges.any fun r => r.1 ≤ n && n ≤ r.2

/-- Blank characters: white space of every script, and the four information
separators. -/
def isBlank (c : Char) : Bool := inRanges blankRanges c.toNat

/-- The two characters that can end a source line. -/
def isLineEnd (c : Char) : Bool := c == '\n' || c == '\r'

/-! ## Prefixes and occurrences -/

/-- What is left of `s` behind a leading `p`, if `s` starts with it. -/
def after? (p s : Text) : Option Text :=
  if p.isPrefixOf s then some (s.drop p.length) else none

/-- The position of the first occurrence of `needle`. -/
def find? (needle : Text) : Text → Option Nat
  | [] => if needle.isEmpty then some 0 else none
  | c :: r =>
    if needle.isPrefixOf (c :: r) then some 0 else (find? needle r).map (· + 1)

/-- Whether `needle` occurs in `s` as a contiguous piece. -/
def occursIn (needle s : Text) : Bool := (find? needle s).isSome

theorem occursIn_iff (needle s : Text) : occursIn needle s = true ↔ needle <:+: s := by
  unfold occursIn
  induction s with
  | nil => simp [find?]
  | cons c r ih =>
      rw [find?, List.infix_cons_iff, ← ih]
      by_cases hpre : needle.isPrefixOf (c :: r) = true
      · simp [hpre, List.isPrefixOf_iff_prefix.mp hpre]
      · have hnot : ¬ needle <+: c :: r := mt List.isPrefixOf_iff_prefix.mpr hpre
        simp [hpre, hnot]

/-- The text without blanks at either end. -/
def trim (s : Text) : Text :=
  ((s.dropWhile isBlank).reverse.dropWhile isBlank).reverse

/-! ## Lines -/

/-- The number of line breaks: LF, CR, and CRLF counted once. -/
def lineBreaks : Text → Nat
  | [] => 0
  | '\r' :: '\n' :: r => lineBreaks r + 1
  | c :: r => if isLineEnd c then lineBreaks r + 1 else lineBreaks r

/-- The text with every line break written as a single LF. -/
def normalizeLineEnds : Text → Text
  | [] => []
  | '\r' :: '\n' :: r => '\n' :: normalizeLineEnds r
  | c :: r => (if c = '\r' then '\n' else c) :: normalizeLineEnds r

/-- The characters that end a line of a tool's output. -/
def isLineBoundary (c : Char) : Bool :=
  inRanges [(0x0A, 0x0D), (0x1C, 0x1E), (0x85, 0x85), (0x2028, 0x2029)] c.toNat

/-- The lines of a tool's output without their ends; `line` is what has been read of
the current one, and a text that ends in a boundary has no further empty line. -/
def splitLinesFrom (line : Text) : Text → List Text
  | [] => if line.isEmpty then [] else [line]
  | '\r' :: '\n' :: r => line :: splitLinesFrom [] r
  | c :: r =>
    if isLineBoundary c then line :: splitLinesFrom [] r else splitLinesFrom (line ++ [c]) r

/-- The lines of a tool's output. -/
def splitLines (s : Text) : List Text := splitLinesFrom [] s

/-! ## Order -/

/-- Texts are ordered by code point, character by character. -/
def le : Text → Text → Bool
  | [], _ => true
  | _ :: _, [] => false
  | a :: r, b :: q => a.toNat < b.toNat || (a.toNat == b.toNat && le r q)

/-- Puts a text into an increasing list, once. -/
def insertSorted (t : Text) : List Text → List Text
  | [] => [t]
  | u :: r => if t = u then u :: r else if le t u then t :: u :: r else u :: insertSorted t r

/-- The distinct texts of a list, in increasing order. -/
def sortDistinct (ts : List Text) : List Text := ts.foldr insertSorted []

/-- The texts of a list with `sep` between neighbours. -/
def joinWith (sep : Text) : List Text → Text
  | [] => []
  | [t] => t
  | t :: r => t ++ sep ++ joinWith sep r

end Text

end Unflag
