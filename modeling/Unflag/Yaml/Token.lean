/-
The tokens of a YAML source.

Indentation is turned into tokens that open and close structures, so that reading nodes
needs to know nothing about columns.

A mapping key is recognised only at the colon behind it. The scanner therefore remembers, for
every depth of brackets, the last token that could turn out to be a key, and puts the mark of
a key in front of it when the colon comes. Such a token stops being a candidate at the end of
its line or after `keyLimit` characters; where a block mapping demands a key, that is a
fault.
-/
import Unflag.Yaml.Literal
import Unflag.Yaml.Tag

set_option autoImplicit false

namespace Unflag

namespace Yaml

/-- A token. -/
inductive Token where
  /-- A directive that gives the version, with its major number. -/
  | version (major : Nat)
  /-- A directive that says what a handle stands for. -/
  | handle (handle : Text) (name : Text)
  /-- Any other directive. -/
  | directive
  | documentStart
  | documentEnd
  | sequenceStart
  | mappingStart
  | blockEnd
  | listOpen
  | listClose
  | mapOpen
  | mapClose
  | key
  | value
  | blockEntry
  | flowEntry
  | alias (name : Text)
  | anchor (name : Text)
  | tag (t : Tag.Spelling)
  | scalar (text : Text) (isPlain isBroken : Bool)
  /-- A scalar of which there is no value. Nothing behind it is looked at. -/
  | fault (f : Fault)
  deriving DecidableEq, Repr

/-! ## Positions -/

/-- What is left of the source, and where it starts. -/
structure Cursor where
  rest : Text
  index : Nat
  line : Nat
  column : Nat

namespace Cursor

/-- One character further. -/
def next (c : Cursor) : Cursor :=
  match c.rest with
  | [] => c
  | ch :: r =>
    if isBreak ch then ⟨r, c.index + 1, c.line + 1, 0⟩
    else if ch = '\ufeff' then ⟨r, c.index + 1, c.line, c.column⟩
    else ⟨r, c.index + 1, c.line, c.column + 1⟩

/-- So many characters further. -/
def skip (c : Cursor) : Nat → Cursor
  | 0 => c
  | n + 1 => c.next.skip n

/-- Further until only `rest` is left. -/
def goTo (c : Cursor) (rest : Text) : Cursor := c.skip (c.rest.length - rest.length)

end Cursor

/-! ## The scanner -/

/-- A token that may turn out to be a key. -/
structure Candidate where
  /-- The number of tokens in front of it. -/
  position : Nat
  /-- Whether a block mapping demands a key here. -/
  required : Bool
  index : Nat
  line : Nat
  column : Nat

/-- The number of characters after which a token is no candidate any more. -/
def keyLimit : Nat := 1024

/-- The state of a scan. -/
structure Scanner where
  cursor : Cursor
  /-- The depth of brackets. -/
  depth : Nat
  tokens : List Token
  /-- The column of the innermost block, or -1. -/
  indent : Int
  /-- The columns of the blocks around it. -/
  outer : List Int
  /-- Whether a key may start here. -/
  keyAllowed : Bool
  /-- The candidates by depth. -/
  candidates : List (Nat × Candidate)

namespace Scanner

/-- The scanner at the start of a source. A mark of the byte order is passed over. -/
def start (source : Text) : Scanner :=
  ⟨⟨source, 0, 0, 0⟩, 0, [], -1, [], true, []⟩

/-- Whether the scanner is inside brackets. -/
def inFlow (s : Scanner) : Bool := s.depth != 0

/-- Adds a token and goes on behind `rest`. -/
def emit (s : Scanner) (t : Token) (rest : Text) : Scanner :=
  { s with tokens := s.tokens ++ [t], cursor := s.cursor.goTo rest }

/-- Adds a token without taking anything. -/
def emitHere (s : Scanner) (t : Token) : Scanner := { s with tokens := s.tokens ++ [t] }

/-- Puts tokens in front of the token at a position. -/
def insertAt (s : Scanner) (n : Nat) (ts : List Token) : Scanner :=
  { s with tokens := s.tokens.take n ++ ts ++ s.tokens.drop n }

/-! ### Candidates -/

/-- Drops the candidate at this depth; a key that is demanded may not be dropped. -/
def dropCandidate (s : Scanner) : Option Scanner :=
  match s.candidates.lookup s.depth with
  | none => some s
  | some k =>
    if k.required then none
    else some { s with candidates := s.candidates.filter fun e => e.1 != s.depth }

/-- Drops all candidates that have become too old. -/
def dropStale (s : Scanner) : Option Scanner :=
  let isStale (k : Candidate) : Bool :=
    k.line != s.cursor.line || s.cursor.index - k.index > keyLimit
  if s.candidates.any fun e => isStale e.2 && e.2.required then none
  else some { s with candidates := s.candidates.filter fun e => !isStale e.2 }

/-- Makes the next token a candidate, if a key may start here. -/
def saveCandidate (s : Scanner) : Option Scanner :=
  if s.keyAllowed then do
    let s ← s.dropCandidate
    let required := !s.inFlow && s.indent == (s.cursor.column : Int)
    let k : Candidate :=
      ⟨s.tokens.length, required, s.cursor.index, s.cursor.line, s.cursor.column⟩
    return { s with candidates := (s.depth, k) :: s.candidates }
  else some s

/-! ### Indentation -/

/-- Closes blocks while they are indented deeper than `column`. -/
def unwindTo (column : Int) (s : Scanner) : List Int → Scanner
  | [] => s
  | i :: is =>
    if column < s.indent then
      unwindTo column { s.emitHere .blockEnd with indent := i, outer := is } is
    else s

/-- Closes the blocks that are indented deeper than `column`. Inside brackets indentation
does not count. -/
def unwind (column : Int) (s : Scanner) : Scanner :=
  if s.inFlow then s else s.unwindTo column s.outer

/-- Opens a block at a column, if it is indented deeper than the present one. -/
def openBlock (s : Scanner) (column : Nat) (position : Nat) (t : Token) : Scanner :=
  if s.indent < (column : Int) then
    { s.insertAt position [t] with indent := column, outer := s.indent :: s.outer }
  else s

/-! ### Blanks -/

/-- Passes over blanks, comments and line ends; the flag says whether a line ended. -/
def blanks : Text → Text × Bool
  | [] => ([], false)
  | c :: r =>
    if c = ' ' then blanks r
    else if c = '#' then comment r
    else if isBreak c then ((blanks r).1, true)
    else (c :: r, false)
where
  /-- Passes over a comment and goes on. -/
  comment : Text → Text × Bool
  | [] => ([], false)
  | c :: r => if isBreak c then ((blanks r).1, true) else comment r

/-- Goes to the next token. A key may start on a new line, but inside brackets lines do not
count. -/
def toNextToken (s : Scanner) : Scanner :=
  let s :=
    if s.cursor.index == 0 && s.cursor.rest.head? == some '\ufeff'
    then { s with cursor := s.cursor.next } else s
  let (rest, newLine) := blanks s.cursor.rest
  { s with cursor := s.cursor.goTo rest, keyAllowed := s.keyAllowed || (newLine && !s.inFlow) }

/-! ### Directives and documents -/

/-- A number and what is behind it. -/
def number? (s : Text) : Option (Nat × Text) :=
  let ds := s.takeWhile Char.isDigit
  (Text.positional? 10 ds).map fun n => (n, s.drop ds.length)

/-- A directive behind its mark, and the line behind it. -/
def directive? (s : Text) : Option (Token × Text) := do
  let name := s.takeWhile Tag.isWordChar
  let r := s.drop name.length
  if name.isEmpty || !isLineGap r.head? then none
  if name = "YAML".toList then
    let (major, r) ← number? (r.dropWhile (· == ' '))
    let r ← Text.after? ['.'] r
    let (_, r) ← number? r
    if !isLineGap r.head? then none
    return (.version major, ← blankLine? r)
  else if name = "TAG".toList then
    let r ← Text.after? ['!'] (r.dropWhile (· == ' '))
    let (handle, r) ← if r.head? == some ' ' then some (['!'], r) else Tag.handle? r
    if r.head? != some ' ' then none
    let (name, r) ← Tag.name? (r.dropWhile (· == ' '))
    if !isLineGap r.head? then none
    return (.handle handle name, ← blankLine? r)
  else return (.directive, ← blankLine? (r.dropWhile fun c => !isBreak c))

/-- Ends every block, as a directive or the end of a document does. -/
def endBlocks (s : Scanner) : Option Scanner := do
  let s ← (s.unwind (-1)).dropCandidate
  return { s with keyAllowed := false }

/-! ### Tokens -/

/-- An opening bracket. -/
def openFlow (s : Scanner) (t : Token) (rest : Text) : Option Scanner := do
  let s ← s.saveCandidate
  return { s.emit t rest with depth := s.depth + 1, keyAllowed := true }

/-- A closing bracket. One without an opening one can belong to no document. -/
def closeFlow (s : Scanner) (t : Token) (rest : Text) : Option Scanner := do
  let s ← s.dropCandidate
  if s.depth = 0 then none
  return { s.emit t rest with depth := s.depth - 1, keyAllowed := false }

/-- A comma. -/
def flowEntry (s : Scanner) (rest : Text) : Option Scanner := do
  let s ← s.dropCandidate
  return { s.emit .flowEntry rest with keyAllowed := true }

/-- The dash of a block sequence. -/
def blockEntry (s : Scanner) (rest : Text) : Option Scanner := do
  if !s.inFlow && !s.keyAllowed then none
  let s := if s.inFlow then s else s.openBlock s.cursor.column s.tokens.length .sequenceStart
  let s ← s.dropCandidate
  return { s.emit .blockEntry rest with keyAllowed := true }

/-- The mark in front of a key. -/
def keyMark (s : Scanner) (rest : Text) : Option Scanner := do
  if !s.inFlow && !s.keyAllowed then none
  let s := if s.inFlow then s else s.openBlock s.cursor.column s.tokens.length .mappingStart
  let s ← s.dropCandidate
  return { s.emit .key rest with keyAllowed := !s.inFlow }

/-- The colon behind a key. A candidate becomes the key; without one the key is empty. -/
def valueMark (s : Scanner) (rest : Text) : Option Scanner := do
  match s.candidates.lookup s.depth with
  | some k =>
    let s := { s with candidates := s.candidates.filter fun e => e.1 != s.depth }
    let s := s.insertAt k.position [.key]
    let s := if s.inFlow then s else s.openBlock k.column k.position .mappingStart
    return { s.emit .value rest with keyAllowed := false }
  | none =>
    if !s.inFlow && !s.keyAllowed then none
    let s := if s.inFlow then s else s.openBlock s.cursor.column s.tokens.length .mappingStart
    let s ← s.dropCandidate
    return { s.emit .value rest with keyAllowed := !s.inFlow }

/-- A token that may be a key and allows none directly behind it. -/
def word (s : Scanner) (t : Token) (rest : Text) : Option Scanner := do
  let s ← s.saveCandidate
  return { s.emit t rest with keyAllowed := false }

/-- The name behind the mark of an anchor or an alias. -/
def anchorName? (s : Text) : Option (Text × Text) :=
  let name := s.takeWhile Tag.isWordChar
  let r := s.drop name.length
  let marks := "?:,]\x7d%@".toList ++ [Char.ofNat 0x60]
  if !name.isEmpty && (isGap r.head? || (r.head?.map marks.contains).getD false)
  then some (name, r) else none

/-- A tag behind its first mark. It has a handle of its own if another mark follows before the
next blank. -/
def spelling? (s : Text) : Option (Tag.Spelling × Text) :=
  match s with
  | '<' :: r => do
    let (name, r) ← Tag.name? r
    return (.full name, ← Text.after? ['>'] r)
  | _ =>
    if isGap s.head? then some (.mark, s)
    else do
      let (handle, r) ←
        if (s.takeWhile fun c => !isLineGap (some c)).contains '!' then Tag.handle? s
        else some (['!'], s)
      let (name, r) ← Tag.name? r
      return (.short handle name, r)

/-- A tag, behind which a blank has to follow. -/
def tag? (s : Text) : Option (Tag.Spelling × Text) :=
  (spelling? s).bind fun (t, r) => if isLineGap r.head? then some (t, r) else none

/-- A plain scalar. -/
def plain (s : Scanner) : Option Scanner := do
  let (text, rest, onNewLine) :=
    plainScalar s.inFlow (s.indent + 1).toNat s.cursor.rest
  let s ← s.saveCandidate
  return { s.emit (.scalar text true false) rest with keyAllowed := onNewLine }

/-- A block scalar behind its mark. -/
def block (s : Scanner) (folded : Bool) (rest : Text) : Option Scanner := do
  let s ← s.dropCandidate
  let (text, rest) ← blockScalar folded s.indent rest
  return { s.emit (.scalar text false false) rest with keyAllowed := true }

/-- A quoted scalar behind its opening quote. -/
def quoted (s : Scanner) (double : Bool) (rest : Text) : Reading Scanner := do
  let s ← orMalformed s.saveCandidate
  let (w, rest) ← quotedScalar double rest
  return { s.emit (.scalar w.text false w.isBroken) rest with keyAllowed := false }

/-- The characters that cannot start a plain scalar, whatever follows them. -/
def indicators : Text :=
  ",[]\x7b\x7d#&*!|>'%@".toList ++ ['\x22', Char.ofNat 0x60]

/-- Whether a plain scalar can start with `c`. -/
def startsPlain (inFlow : Bool) (c : Char) (next : Option Char) : Bool :=
  if c == '-' then !isGap next
  else if c == '?' || c == ':' then !inFlow && !isGap next
  else !(isGap (some c) || indicators.contains c)

/-- The token that starts with `c`, which is no quote. -/
def bareToken (s : Scanner) (c : Char) (r : Text) : Option Scanner :=
  let atLineStart := s.cursor.column == 0
  if c == '%' && atLineStart then do
    let s ← s.endBlocks
    let (t, rest) ← directive? r
    return s.emit t rest
  else if atLineStart && standsAt "---".toList (c :: r) then do
    let s ← s.endBlocks
    return s.emit .documentStart (r.drop 2)
  else if atLineStart && standsAt "...".toList (c :: r) then do
    let s ← s.endBlocks
    return s.emit .documentEnd (r.drop 2)
  else if c == '[' then s.openFlow .listOpen r
  else if c == '\x7b' then s.openFlow .mapOpen r
  else if c == ']' then s.closeFlow .listClose r
  else if c == '\x7d' then s.closeFlow .mapClose r
  else if c == ',' then s.flowEntry r
  else if c == '-' && isGap r.head? then s.blockEntry r
  else if c == '?' && (s.inFlow || isGap r.head?) then s.keyMark r
  else if c == ':' && (s.inFlow || isGap r.head?) then s.valueMark r
  else if c == '*' then do
    let (name, rest) ← anchorName? r
    s.word (.alias name) rest
  else if c == '&' then do
    let (name, rest) ← anchorName? r
    s.word (.anchor name) rest
  else if c == '!' then do
    let (t, rest) ← tag? r
    s.word (.tag t) rest
  else if c == '|' && !s.inFlow then s.block false r
  else if c == '>' && !s.inFlow then s.block true r
  else if startsPlain s.inFlow c r.head? then s.plain
  else none

/-- The token that starts with `c`. -/
def token (s : Scanner) (c : Char) (r : Text) : Reading Scanner :=
  if c == '\'' then s.quoted false r
  else if c == '\x22' then s.quoted true r
  else orMalformed (s.bareToken c r)

/-- Scans one more token; at the end of the source all blocks are closed. The flag says
whether the end has been reached. -/
def step (s : Scanner) : Reading (Scanner × Bool) := do
  let s ← orMalformed s.toNextToken.dropStale
  let s := s.unwind s.cursor.column
  match s.cursor.rest with
  | [] => return (← orMalformed s.endBlocks, true)
  | c :: r => return (← s.token c r, false)

/-- Scans to the end of the source, or to a scalar of which there is no value. -/
def run (s : Scanner) : Option (List Token) :=
  match s.step with
  | .error (.refused _) => none
  | .error (.fault f) => some (s.tokens ++ [.fault f])
  | .ok (s', true) => some s'.tokens
  | .ok (s', false) =>
    if _shorter : s'.cursor.rest.length < s.cursor.rest.length then s'.run else none
termination_by s.cursor.rest.length

end Scanner

/-- The tokens of a source, if it has any. -/
def tokens (source : Text) : Option (List Token) := (Scanner.start source).run

end Yaml

end Unflag
