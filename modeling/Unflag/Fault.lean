/-
Faults: what goes wrong outside of the program's own rules.

A fault has the name of its kind and a text, and both are shown where nobody expected it. The
family says which faults a worker counts on.
-/
import Unflag.Text.Quoted

set_option autoImplicit false

namespace Unflag

/-- What a fault is about. Only the first three are expected by the workers. -/
inductive Fault.Family where
  /-- The file system refused. -/
  | system
  /-- The bytes of a file are no text. -/
  | decoding
  /-- A text cannot be written as bytes. -/
  | encoding
  | other
  deriving DecidableEq, Repr

/-- A fault of a file operation: what it is about, the name of its kind, and its text. -/
structure Fault where
  family : Fault.Family
  kind : String
  text : String
  deriving DecidableEq, Repr

/-- The fault with the name of its kind in front. -/
def Fault.message (f : Fault) : String := s!"{f.kind}: {f.text}"

/-- Why work ends early: for a reason of its own, which is reported, or with a fault that
nobody expected. -/
inductive Stop (ε : Type) where
  | refused (reason : ε)
  | fault (f : Fault)

namespace Fault

/-- A value that there is not. -/
def noSuchValue (text : String) : Fault := ⟨.other, "ValueError", text⟩

/-- A number that is no code point. Numbers of more than 31 bits are not even looked at. -/
def noSuchCodePoint (n : Nat) : Fault :=
  if n < 0x80000000 then noSuchValue "chr() arg not in range(0x110000)"
  else ⟨.other, "OverflowError", "Python int too large to convert to C int"⟩

/-- A list where a text is needed. -/
def listForText : Fault :=
  ⟨.other, "TypeError", "expected string or bytes-like object, got 'list'"⟩

/-- A text that is no whole number in a base; the base 0 is the one its mark gives. Of a long
text only the start is shown. -/
def notInteger (base : Nat) (s : Text) : Fault :=
  let shown := String.ofList ((Text.quoted s).take 200)
  noSuchValue s!"invalid literal for int() with base {base}: {shown}"

/-- The number of decimal digits up to which whole numbers are read and written. -/
def digitLimit : Nat := 4300

/-- A whole number with more decimal digits than are read. -/
def tooManyDigits (count : Nat) : Fault :=
  noSuchValue <| s!"Exceeds the limit ({digitLimit} digits) for integer string conversion: " ++
    s!"value has {count} digits; use sys.set_int_max_str_digits() to increase the limit"

/-- A whole number with more decimal digits than are written. -/
def tooLongToWrite : Fault :=
  noSuchValue <| s!"Exceeds the limit ({digitLimit} digits) for integer string conversion; " ++
    "use sys.set_int_max_str_digits() to increase the limit"

/-- A text that is no number. -/
def notNumber (s : Text) : Fault :=
  let shown := String.ofList (Text.quoted s)
  noSuchValue s!"could not convert string to float: {shown}"

/-- A key that is in no table. -/
def noSuchKey (key : Text) : Fault := ⟨.other, "KeyError", String.ofList (Text.quoted key)⟩

/-- A place beyond the end of a text. -/
def beyondEnd : Fault := ⟨.other, "IndexError", "string index out of range"⟩

/-- Something of a kind that has no part of this name. -/
def missingPart (kind name : String) : Fault :=
  ⟨.other, "AttributeError", s!"'{kind}' object has no attribute '{name}'"⟩

end Fault

end Unflag
