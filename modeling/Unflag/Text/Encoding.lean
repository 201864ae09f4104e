/-
Texts as bytes.

Three encodings are known. Decoding cuts the bytes into pieces, each either the bytes of
one character or a longest stretch that cannot become one; the pieces together are always
all of the bytes. A strict reader stops at the first bad piece and says where it lies, a
lenient one puts a replacement character in its place, and the two agree wherever there is
no bad piece.

A lead byte fixes the range of every byte that has to follow it. That alone rules out
overlong forms, surrogates and values beyond the last code point, so no check is made on
the value that was read.
-/
import Unflag.Text.Quoted

set_option autoImplicit false

namespace Unflag

/-- The content of a file. -/
abbrev Bytes := List UInt8

/-- A way to write characters as bytes. -/
inductive Encoding where
  | utf8
  | latin1
  | ascii
  deriving DecidableEq, Repr

namespace Encoding

/-! ## Names -/

/-- The name of an encoding in messages. -/
def label : Encoding → String
  | .utf8 => "utf-8"
  | .latin1 => "latin-1"
  | .ascii => "ascii"

/-- The names an encoding goes by, words divided by underscores. -/
def names : Encoding → List String
  | .utf8 => ["utf_8", "utf8", "utf", "u8", "utf8_ucs2", "utf8_ucs4", "cp65001"]
  | .latin1 =>
    ["latin_1", "latin1", "latin", "l1", "8859", "iso8859", "iso8859_1", "iso_8859_1",
      "iso_8859_1_1987", "iso_ir_100", "cp819", "ibm819", "csisolatin1"]
  | .ascii =>
    ["ascii", "us_ascii", "us", "646", "ansi_x3.4_1968", "ansi_x3_4_1968", "ansi_x3.4_1986",
      "iso646_us", "iso_646.irv_1991", "iso_ir_6", "cp367", "ibm367", "csascii"]

/-- The words of a name with one underscore between neighbours: letters, digits and dots
make words, everything else divides them. -/
def foldName (s : Text) : Text :=
  let isWord (c : Char) : Bool := c.isAlphanum || c == '.'
  let marked := s.map fun c => if isWord c then c.toLower else '_'
  Text.joinWith ['_'] ((marked.splitBy fun a b => (a == '_') == (b == '_')).filter
    fun w => w.head? != some '_')

/-- The encoding of a name. Case does not count, nor does what divides the words. -/
def ofName? (s : Text) : Option Encoding :=
  let name := String.ofList (foldName s)
  [Encoding.utf8, .latin1, .ascii].find? fun e => e.names.contains name

/-! ## Pieces -/

/-- Why a stretch of bytes is no character. -/
inductive Defect where
  | badStart
  | badContinuation
  | truncated
  | beyondAscii
  deriving DecidableEq, Repr

/-- The wording of a defect. -/
def Defect.message : Defect → String
  | .badStart => "invalid start byte"
  | .badContinuation => "invalid continuation byte"
  | .truncated => "unexpected end of data"
  | .beyondAscii => "ordinal not in range(128)"

/-- A stretch of bytes behind its first byte, and what it reads as. -/
structure Reading where
  /-- The number of bytes that follow the first one. -/
  more : Nat
  char : Except Defect Char

/-- The range of an ordinary continuation byte. -/
def tail : Nat × Nat := (0x80, 0xBF)

/-- What a lead byte announces: the bits it brings, and the range of each byte that has to
follow. -/
def lead? (b : Nat) : Option (Nat × List (Nat × Nat)) :=
  if b < 0x80 then some (b, [])
  else if b < 0xC2 then none
  else if b < 0xE0 then some (b - 0xC0, [tail])
  else if b = 0xE0 then some (0, [(0xA0, 0xBF), tail])
  else if b = 0xED then some (0xD, [(0x80, 0x9F), tail])
  else if b < 0xF0 then some (b - 0xE0, [tail, tail])
  else if b = 0xF0 then some (0, [(0x90, 0xBF), tail, tail])
  else if b < 0xF4 then some (b - 0xF0, [tail, tail, tail])
  else if b = 0xF4 then some (4, [(0x80, 0x8F), tail, tail])
  else none

/-- Reads the bytes that have to follow; `value` holds the bits so far and `taken` counts
the bytes that fitted. -/
def follow : List (Nat × Nat) → Nat → Nat → Bytes → Reading
  | [], value, taken, _ => ⟨taken, .ok (Char.ofNat value)⟩
  | _ :: _, _, taken, [] => ⟨taken, .error .truncated⟩
  | range :: ranges, value, taken, b :: bs =>
    if range.1 ≤ b.toNat && b.toNat ≤ range.2 then
      follow ranges (value * 64 + (b.toNat - 0x80)) (taken + 1) bs
    else ⟨taken, .error .badContinuation⟩

/-- What the bytes from `b` on start with. -/
def reading (e : Encoding) (b : UInt8) (bs : Bytes) : Reading :=
  match e with
  | .latin1 => ⟨0, .ok (Char.ofNat b.toNat)⟩
  | .ascii => ⟨0, if b < 0x80 then .ok (Char.ofNat b.toNat) else .error .beyondAscii⟩
  | .utf8 =>
    match lead? b.toNat with
    | some (value, ranges) => follow ranges value 0 bs
    | none => ⟨0, .error .badStart⟩

/-- A stretch of bytes and what it reads as. -/
structure Piece where
  bytes : Bytes
  char : Except Defect Char

/-- The bytes cut into pieces. -/
def pieces (e : Encoding) : Bytes → List Piece
  | [] => []
  | b :: bs =>
    let r := e.reading b bs
    ⟨b :: bs.take r.more, r.char⟩ :: pieces e (bs.drop r.more)
termination_by bs => bs.length
decreasing_by
  simp only [List.length_drop, List.length_cons]
  omega

/-! ## Decoding -/

/-- Where bytes are no text, and why. -/
structure DecodeFault where
  start : Nat
  bytes : Bytes
  defect : Defect
  deriving DecidableEq, Repr

/-- Where a stretch lies, in words: `what` for a single place, else the first and the
last. -/
def stretch (single several : String) (start length : Nat) : String :=
  if length ≤ 1 then s!"{single} in position {start}"
  else s!"{several} in position {start}-{start + length - 1}"

/-- The wording of a decoding fault. -/
def DecodeFault.message (e : Encoding) (f : DecodeFault) : String :=
  let first := String.ofList (Text.hex 2 ((f.bytes.head?.map UInt8.toNat).getD 0))
  s!"'{e.label}' codec can't decode "
    ++ stretch s!"byte 0x{first}" "bytes" f.start f.bytes.length ++ s!": {f.defect.message}"

/-- The text of pieces, the first of which stands at `position`. -/
def joinPieces (position : Nat) : List Piece → Except DecodeFault Text
  | [] => .ok []
  | p :: ps =>
    match p.char with
    | .error d => .error ⟨position, p.bytes, d⟩
    | .ok c => (joinPieces (position + p.bytes.length) ps).map (c :: ·)

/-- The text of bytes. -/
def decode (e : Encoding) (bs : Bytes) : Except DecodeFault Text := joinPieces 0 (e.pieces bs)

/-- The character in the place of bytes that are none. -/
def replacement : Char := Char.ofNat 0xFFFD

/-- The text of bytes, with a replacement character for every bad piece. -/
def decodeLeniently (e : Encoding) (bs : Bytes) : Text :=
  (e.pieces bs).map fun p => match p.char with | .ok c => c | .error _ => replacement

/-! ## Encoding -/

/-- The bytes of a character, if the encoding has it. -/
def charBytes? (e : Encoding) (c : Char) : Option Bytes :=
  let n := c.toNat
  match e with
  | .latin1 => if n < 0x100 then some [n.toUInt8] else none
  | .ascii => if n < 0x80 then some [n.toUInt8] else none
  | .utf8 =>
    let low (k : Nat) : UInt8 := (0x80 + n / Nat.pow 64 k % 64).toUInt8
    some <|
      if n < 0x80 then [n.toUInt8]
      else if n < 0x800 then [(0xC0 + n / 64).toUInt8, low 0]
      else if n < 0x10000 then [(0xE0 + n / Nat.pow 64 2).toUInt8, low 1, low 0]
      else [(0xF0 + n / Nat.pow 64 3).toUInt8, low 2, low 1, low 0]

/-- Where a text cannot be written, and the characters that stand in the way. -/
structure EncodeFault where
  start : Nat
  chars : Text
  deriving DecidableEq, Repr

/-- A character by its code point, in quotes. -/
def codePoint (c : Char) : String :=
  let n := c.toNat
  let digits :=
    if n < 0x100 then 'x' :: Text.hex 2 n
    else if n < 0x10000 then 'u' :: Text.hex 4 n
    else 'U' :: Text.hex 8 n
  s!"'\\{String.ofList digits}'"

/-- The number of code points that an encoding with single bytes has. -/
def limit : Encoding → Nat
  | .ascii => 128
  | _ => 256

/-- The wording of an encoding fault. -/
def EncodeFault.message (e : Encoding) (f : EncodeFault) : String :=
  let first := codePoint ((f.chars.head?).getD replacement)
  s!"'{e.label}' codec can't encode "
    ++ stretch s!"character {first}" "characters" f.start f.chars.length
    ++ s!": ordinal not in range({e.limit})"

/-- The bytes of a text whose first character stands at `position`. -/
def encodeFrom (e : Encoding) (position : Nat) : Text → Except EncodeFault Bytes
  | [] => .ok []
  | c :: r =>
    match e.charBytes? c with
    | some bs => (encodeFrom e (position + 1) r).map (bs ++ ·)
    | none => .error ⟨position, c :: r.takeWhile fun d => (e.charBytes? d).isNone⟩

/-- The bytes of a text. -/
def encode (e : Encoding) (s : Text) : Except EncodeFault Bytes := e.encodeFrom 0 s

end Encoding

end Unflag
