/-
The types of YAML nodes, and how they are named.

A tag names a type. It is written in full between angle brackets, or as a handle and the rest
of the name; what a handle stands for is fixed by default or by a directive. Names are
written in the characters of URIs, and bytes behind percent signs stand for all others.
-/
import Unflag.Text.Encoding
import Unflag.Text.Number

set_option autoImplicit false

namespace Unflag

namespace Yaml

/-- The types of nodes. -/
inductive Tag where
  | null
  | bool
  | int
  | float
  | str
  | timestamp
  | binary
  | seq
  | map
  | set
  | omap
  | pairs
  /-- The key under which a mapping takes over the entries of others. -/
  | merge
  /-- The key of the scalar that a mapping stands for. -/
  | value
  /-- A type that nobody knows. -/
  | other
  deriving DecidableEq, Repr

namespace Tag

/-- What the names of the known types start with. -/
def space : Text := "tag:yaml.org,2002:".toList

/-- The known types by the rest of their names. -/
def named : List (String × Tag) :=
  [("null", .null), ("bool", .bool), ("int", .int), ("float", .float), ("str", .str),
    ("timestamp", .timestamp), ("binary", .binary), ("seq", .seq), ("map", .map),
    ("set", .set), ("omap", .omap), ("pairs", .pairs), ("merge", .merge), ("value", .value)]

/-- The type of a full name. -/
def ofName (s : Text) : Tag :=
  ((Text.after? space s).bind fun r => named.lookup (String.ofList r)).getD .other

/-- The types of nodes that hold other nodes. -/
def isCollection (t : Tag) : Bool :=
  match t with
  | .seq | .map | .set | .omap | .pairs => true
  | _ => false

/-- What the handles stand for unless a directive says otherwise. -/
def defaultHandles : List (Text × Text) := [(['!'], ['!']), (['!', '!'], space)]

/-! ## Names -/

/-- The characters of words. -/
def isWordChar (c : Char) : Bool := c.isAlphanum || c == '-' || c == '_'

/-- The characters of names that stand for themselves. -/
def isNameChar (c : Char) : Bool := isWordChar c || ";/?:@&=+$,.!~*'()[]".toList.contains c

/-- The bytes behind percent signs, and what is behind them. -/
def percentBytes : Text → Option (Bytes × Text)
  | '%' :: a :: b :: r => do
    let n ← Text.positional? 16 [a, b]
    let (bytes, rest) ← percentBytes r
    return (n.toUInt8 :: bytes, rest)
  | '%' :: _ => none
  | s => some ([], s)

/-- The characters of a name, and what is behind them. -/
def nameChars (s : Text) : Option (Text × Text) :=
  let word := s.takeWhile isNameChar
  match percentBytes (s.dropWhile isNameChar) with
  | none => none
  | some ([], rest) => some (word, rest)
  | some (bytes, rest) =>
    match Encoding.utf8.decode bytes with
    | .error _ => none
    | .ok chars =>
      if _shorter : rest.length < s.length then
        (nameChars rest).map fun (more, q) => (word ++ chars ++ more, q)
      else none
termination_by s.length

/-- A name of at least one character, and what is behind it. -/
def name? (s : Text) : Option (Text × Text) :=
  (nameChars s).bind fun (name, rest) => if name.isEmpty then none else some (name, rest)

/-- A handle of two marks with a word between them, behind its first mark, and what is behind
it. -/
def handle? (s : Text) : Option (Text × Text) :=
  let word := s.takeWhile isWordChar
  match s.dropWhile isWordChar with
  | '!' :: rest => some ('!' :: word ++ ['!'], rest)
  | _ => none

end Tag

/-- A tag as it is written. -/
inductive Tag.Spelling where
  /-- The mark alone, which asks for the type that a plain text would have. -/
  | mark
  | full (name : Text)
  | short (handle : Text) (rest : Text)
  deriving DecidableEq, Repr

/-- What a tag asks for. -/
inductive Typing where
  | untyped
  /-- The type that a plain text would have. -/
  | byForm
  | typed (t : Tag)
  deriving DecidableEq, Repr

namespace Typing

/-- What a full name asks for. -/
def ofName (s : Text) : Typing := if s == ['!'] then .byForm else .typed (.ofName s)

/-- What a tag asks for, if its handle is known. -/
def ofSpelling? (handles : List (Text × Text)) : Tag.Spelling → Option Typing
  | .mark => some .byForm
  | .full name => some (ofName name)
  | .short handle rest => (handles.lookup handle).map fun s => ofName (s ++ rest)

/-- The type of a node that has `t` by default. -/
def orElse (t : Tag) : Typing → Tag
  | .typed u => u
  | _ => t

end Typing

end Yaml

end Unflag
