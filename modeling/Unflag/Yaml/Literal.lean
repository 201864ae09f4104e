/-
The texts that YAML scalars stand for.

A scalar may run over several lines. Its line breaks are folded: a single one counts as a
space, and of several the first is dropped. Three forms are read here, each as a function on
what is left of the source: plain words, quoted texts, and indented blocks. Line ends are
LF, the next-line character and the two Unicode separators; a source is normalised first, so
that no CR is left.

A line of three dashes or three dots ends the document and cannot be part of a scalar.
-/
import Unflag.Fault
import Unflag.Text.Encoding
import Unflag.Text.Number

set_option autoImplicit false

namespace Unflag

namespace Yaml

/-! ## Results -/

/-- The result of reading. Reading is refused where the source is not well formed, and ends
with a fault where a value cannot be made from what is written. -/
abbrev Reading (α : Type) := Except (Stop Unit) α

/-- The result for what is not well formed. -/
def malformed {α : Type} : Reading α := .error (.refused ())

/-- What is there; nothing is not well formed. -/
def orMalformed {α : Type} : Option α → Reading α
  | some a => .ok a
  | none => malformed

/-! ## Characters -/

/-- Characters that end a line. -/
def isBreak (c : Char) : Bool :=
  c == '\n' || c == '\u0085' || c == '\u2028' || c == '\u2029'

/-- A line end as it is kept in a scalar. -/
def breakChar (c : Char) : Char := if c = '\u0085' then '\n' else c

/-- The two blanks inside a line. -/
def isSpace (c : Char) : Bool := c == ' ' || c == '\t'

/-- Whether a word ends before this character, or at the end of the source. -/
def isGap : Option Char → Bool
  | none => true
  | some c => isSpace c || isBreak c

/-- Whether a line ends before this character, or blanks begin that are no tabs. -/
def isLineGap : Option Char → Bool
  | none => true
  | some c => c == ' ' || isBreak c

/-- Whether the source goes on with this word, standing alone. -/
def standsAt (word : Text) (s : Text) : Bool :=
  match Text.after? word s with
  | some r => isGap r.head?
  | none => false

/-- Whether the line that starts here ends a document. -/
def isMarker (s : Text) : Bool := standsAt "---".toList s || standsAt "...".toList s

/-- What stands for a run of line breaks: the first one, and the others. -/
def foldBreaks (first : Char) (more : Text) : Text :=
  if first ≠ '\n' then first :: more else if more.isEmpty then [' '] else more

/-! ## Plain words -/

/-- Whether a plain word ends before `c`, with `next` behind it. -/
def endsPlain (inFlow : Bool) (c : Char) (next : Option Char) : Bool :=
  let isFlowMark (c : Char) : Bool := [',', '[', ']', '\x7b', '\x7d'].contains c
  isSpace c || isBreak c
    || (c == ':' && (isGap next || (inFlow && (next.map isFlowMark).getD false)))
    || (inFlow && (isFlowMark c || c == '?'))

/-- A plain word and what is behind it. -/
def plainWord (inFlow : Bool) : Text → Text × Text
  | [] => ([], [])
  | c :: r =>
    if endsPlain inFlow c r.head? then ([], c :: r)
    else
      let (word, rest) := plainWord inFlow r
      (c :: word, rest)

/-- What is between two words: the text that stands for it, what is behind it, and the
column there if a line has ended. No text means that the scalar ends. -/
structure Gap where
  glue : Text
  rest : Text
  column : Option Nat

/-- The line breaks from `column` on, up to a line with something on it: the breaks, what is
behind them, the column there, and whether that line ends the document. -/
def plainLines (column : Nat) : Text → Text × Text × Nat × Bool
  | [] => ([], [], column, false)
  | c :: r =>
    if c = ' ' then plainLines (column + 1) r
    else if isBreak c then
      if isMarker r then ([], r, 0, true)
      else
        let (breaks, rest, k, marker) := plainLines 0 r
        (breakChar c :: breaks, rest, k, marker)
    else ([], c :: r, column, false)

/-- What is behind a plain word. -/
def plainGap (s : Text) : Gap :=
  let blanks := s.takeWhile (· == ' ')
  match s.dropWhile (· == ' ') with
  | [] => ⟨blanks, [], none⟩
  | c :: r =>
    if isBreak c then
      if isMarker r then ⟨[], r, some 0⟩
      else
        match plainLines 0 r with
        | (_, rest, _, true) => ⟨[], rest, some 0⟩
        | (breaks, rest, k, false) => ⟨foldBreaks (breakChar c) breaks, rest, some k⟩
    else ⟨blanks, c :: r, none⟩

/-- A plain scalar: its text, what is behind it, and whether that is on a new line. Outside
of brackets its lines have to be indented by at least `indent`. -/
def plainScalar (inFlow : Bool) (indent : Nat) (s : Text) : Text × Text × Bool :=
  match plainWord inFlow s with
  | ([], _) => ([], s, false)
  | (word, r) =>
    let gap := plainGap r
    let tooShallow := !inFlow && (gap.column.map fun k => decide (k < indent)).getD false
    let isOver := gap.glue.isEmpty || gap.rest.head? == some '#' || tooShallow
      || (plainWord inFlow gap.rest).1.isEmpty
    if isOver then (word, gap.rest, gap.column.isSome)
    else if _shorter : gap.rest.length < s.length then
      let (more, rest, onNewLine) := plainScalar inFlow indent gap.rest
      (word ++ gap.glue ++ more, rest, onNewLine)
    else (word, gap.rest, gap.column.isSome)
termination_by s.length

/-! ## Quoted texts -/

/-- The line breaks inside quotes, up to a line with something on it. No line may end the
document; `lineStart` says whether a line starts here. -/
def quotedLines (lineStart : Bool) : Text → Option (Text × Text)
  | [] => some ([], [])
  | c :: r =>
    if lineStart && isMarker (c :: r) then none
    else if isSpace c then quotedLines false r
    else if isBreak c then
      (quotedLines true r).map fun (breaks, rest) => (breakChar c :: breaks, rest)
    else some ([], c :: r)

/-- Blanks inside quotes, or what stands for the line breaks among them. -/
def quotedGap (s : Text) : Option (Text × Text) :=
  match s.dropWhile isSpace with
  | [] => none
  | c :: r =>
    if isBreak c then
      (quotedLines true r).map fun (breaks, rest) => (foldBreaks (breakChar c) breaks, rest)
    else some (s.takeWhile isSpace, c :: r)

/-- The characters that are written with one letter behind a backslash. -/
def letterEscapes : List (Char × Char) :=
  [('0', '\x00'), ('a', '\x07'), ('b', '\x08'), ('t', '\t'), ('\t', '\t'), ('n', '\n'),
    ('v', '\x0b'), ('f', '\x0c'), ('r', '\r'), ('e', '\x1b'), (' ', ' '), ('\x22', '\x22'),
    ('\\', '\\'), ('/', '/'), ('N', '\u0085'), ('_', '\u00a0'), ('L', '\u2028'),
    ('P', '\u2029')]

/-- A text that was written in quotes. It is broken if it has code points in it that are no
characters; each of those is shown as replacements of its three bytes. -/
structure Written where
  text : Text
  isBroken : Bool

/-- One written text behind the other. -/
def Written.append (a b : Written) : Written := ⟨a.text ++ b.text, a.isBroken || b.isBroken⟩

/-- The character of so many hexadecimal digits, and what is behind them. -/
def codeEscape (digits : Nat) (s : Text) : Reading (Written × Text) :=
  let ds := s.take digits
  match Text.positional? 16 ds with
  | none => malformed
  | some n =>
    if ds.length ≠ digits then malformed
    else if n.isValidChar then .ok (⟨[Char.ofNat n], false⟩, s.drop digits)
    else if n < 0x110000 then
      .ok (⟨List.replicate 3 Encoding.replacement, true⟩, s.drop digits)
    else .error (.fault (.noSuchCodePoint n))

/-- A result without code points that are no characters. -/
def whole (r : Option (Text × Text)) : Reading (Written × Text) :=
  (orMalformed r).map fun (text, rest) => (⟨text, false⟩, rest)

/-- What an escape stands for, given what is behind the backslash. -/
def escape : Text → Reading (Written × Text)
  | [] => malformed
  | c :: r =>
    match letterEscapes.lookup c with
    | some d => whole (some ([d], r))
    | none =>
      if c = 'x' then codeEscape 2 r
      else if c = 'u' then codeEscape 4 r
      else if c = 'U' then codeEscape 8 r
      else if isBreak c then whole (quotedLines true r)
      else malformed

/-- The next piece of a quoted text, or nothing if its closing quote comes next, and what is
behind it. Only double quotes know escapes; single quotes are written twice. -/
def quotedPiece (double : Bool) : Text → Reading (Option Written × Text)
  | [] => malformed
  | c :: r =>
    let piece (p : Written × Text) : Option Written × Text := (some p.1, p.2)
    if isSpace c || isBreak c then (whole (quotedGap (c :: r))).map piece
    else if double then
      if c = '\x22' then .ok (none, r)
      else if c = '\\' then (escape r).map piece
      else .ok (some ⟨[c], false⟩, r)
    else if c = '\'' then
      match r with
      | '\'' :: q => .ok (some ⟨['\''], false⟩, q)
      | _ => .ok (none, r)
    else .ok (some ⟨[c], false⟩, r)

/-- A quoted text whose opening quote has been taken, and what is behind its closing one. -/
def quotedScalar (double : Bool) (s : Text) : Reading (Written × Text) :=
  match quotedPiece double s with
  | .error e => .error e
  | .ok (none, r) => .ok (⟨[], false⟩, r)
  | .ok (some piece, r) =>
    if _shorter : r.length < s.length then
      (quotedScalar double r).map fun (more, rest) => (piece.append more, rest)
    else malformed
termination_by s.length

/-! ## Blocks -/

/-- What becomes of the line breaks at the end of a block. -/
inductive Chomp where
  | strip
  | clip
  | keep
  deriving DecidableEq, Repr

/-- The chomping that a sign asks for. -/
def chomp? (c : Char) : Option Chomp :=
  if c = '+' then some .keep else if c = '-' then some .strip else none

/-- The indentation that a digit asks for. -/
def increment? (c : Char) : Option Nat :=
  if '1' ≤ c && c ≤ '9' then some (c.toNat - '0'.toNat) else none

/-- The signs behind the mark of a block, in either order. -/
def blockSigns (s : Text) : Chomp × Option Nat × Text :=
  match s with
  | [] => (.clip, none, [])
  | c :: r =>
    match chomp? c, increment? c with
    | some ch, _ =>
      match r with
      | d :: q => match increment? d with
        | some n => (ch, some n, q)
        | none => (ch, none, r)
      | [] => (ch, none, r)
    | none, some n =>
      match r with
      | d :: q => match chomp? d with
        | some ch => (ch, some n, q)
        | none => (.clip, some n, r)
      | [] => (.clip, some n, r)
    | none, none => (.clip, none, s)

/-- The rest of a line that may hold nothing but blanks and a comment; its end is taken. -/
def blankLine? (s : Text) : Option Text :=
  let r := s.dropWhile (· == ' ')
  let q := if r.head? == some '#' then r.dropWhile (fun c => !isBreak c) else r
  match q with
  | [] => some []
  | c :: q => if isBreak c then some q else none

/-- The blank lines in front of a block: their breaks, the widest of them, what is behind
them, and the column there. -/
def blockOpening (column widest : Nat) : Text → Text × Nat × Text × Nat
  | [] => ([], widest, [], column)
  | c :: r =>
    if c = ' ' then blockOpening (column + 1) (max widest (column + 1)) r
    else if isBreak c then
      let (breaks, w, rest, k) := blockOpening 0 widest r
      (breakChar c :: breaks, w, rest, k)
    else ([], widest, c :: r, column)

/-- The blank lines inside a block, and the indentation of the next line up to `indent`. -/
def blockBreaks (indent column : Nat) : Text → Text × Text × Nat
  | [] => ([], [], column)
  | c :: r =>
    if c = ' ' && column < indent then blockBreaks indent (column + 1) r
    else if isBreak c then
      let (breaks, rest, k) := blockBreaks indent 0 r
      (breakChar c :: breaks, rest, k)
    else ([], c :: r, column)

/-- The lines of a block: their text without the break behind the last one, that break, the
blank lines at the end, and what is behind them. -/
structure BlockText where
  text : Text
  lastBreak : Text
  blanks : Text
  rest : Text

/-- Reads the lines of a block whose indentation has been taken. -/
def blockLines (folded : Bool) (indent : Nat) (s : Text) : BlockText :=
  let line := s.takeWhile fun c => !isBreak c
  match s.dropWhile fun c => !isBreak c with
  | [] => ⟨line, [], [], []⟩
  | c :: r =>
    let (breaks, rest, k) := blockBreaks indent 0 r
    let isLast : BlockText := ⟨line, [breakChar c], breaks, rest⟩
    match rest with
    | [] => isLast
    | d :: _ =>
      if _shorter : rest.length < s.length then
        if k = indent then
          let joined := folded && breakChar c == '\n' && !isSpace d
            && !((s.head?.map isSpace).getD true)
          let glue := if joined then (if breaks.isEmpty then [' '] else []) else [breakChar c]
          let more := blockLines folded indent rest
          { more with text := line ++ glue ++ breaks ++ more.text }
        else isLast
      else isLast
termination_by s.length

/-- A block behind its mark, inside a structure that is indented by `parent`: its text and
what is behind it. -/
def blockScalar (folded : Bool) (parent : Int) (s : Text) : Option (Text × Text) := do
  let (chomp, increment, r) := blockSigns s
  if !isLineGap r.head? then none
  let r ← blankLine? r
  let least := (max 1 (parent + 1)).toNat
  let (opening, indent, rest, column) : Text × Nat × Text × Nat :=
    match increment with
    | some n =>
      let indent := least + n - 1
      let (breaks, rest, k) := blockBreaks indent 0 r
      (breaks, indent, rest, k)
    | none =>
      let (breaks, widest, rest, k) := blockOpening 0 0 r
      (breaks, max least widest, rest, k)
  let body : BlockText :=
    if column = indent && !rest.isEmpty then
      let b := blockLines folded indent rest
      { b with text := opening ++ b.text }
    else ⟨[], [], opening, rest⟩
  let ending := match chomp with
    | .strip => []
    | .clip => body.lastBreak
    | .keep => body.lastBreak ++ body.blanks
  return (body.text ++ ending, body.rest)

end Yaml

end Unflag
