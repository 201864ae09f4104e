/-
Paths.

A path is an anchor and a list of names. Reading a path drops empty names and single dots
and keeps double dots, which only a file system can resolve. Paths are ordered name by
name, with the anchor as the first name, and so not as their texts are: `/p/a/b` comes
before `/p/a.swift`.
-/
import Unflag.Text

set_option autoImplicit false

namespace Unflag

/-- Where a path starts. Exactly two slashes are an anchor of their own. -/
inductive Anchor where
  | here
  | root
  | doubleRoot
  deriving DecidableEq, Repr

/-- The text of an anchor. -/
def Anchor.text : Anchor → Text
  | .here => []
  | .root => ['/']
  | .doubleRoot => ['/', '/']

/-- A path: its anchor and its names. -/
structure Path where
  anchor : Anchor
  names : List Text
  deriving DecidableEq, Repr

namespace Path

/-! ## Text -/

/-- The pieces of a text between slashes. -/
def splitSlashes : Text → List Text
  | [] => [[]]
  | c :: r =>
    if c = '/' then [] :: splitSlashes r
    else
      match splitSlashes r with
      | [] => [[c]]
      | n :: ns => (c :: n) :: ns

/-- The anchor that the slashes at the start of a text stand for. -/
def anchorOf (s : Text) : Anchor :=
  match (s.takeWhile (· == '/')).length with
  | 0 => .here
  | 2 => .doubleRoot
  | _ => .root

/-- The path of a text. -/
def ofText (s : Text) : Path :=
  ⟨anchorOf s, (splitSlashes s).filter fun n => !n.isEmpty && n != ['.']⟩

/-- The text of a path; the path without anchor and names is a single dot. -/
def text (p : Path) : Text :=
  match p.anchor, p.names with
  | .here, [] => ['.']
  | a, ns => a.text ++ Text.joinWith ['/'] ns

/-- The text of a path, for messages. -/
def display (p : Path) : String := String.ofList p.text

/-! ## Parts -/

/-- The last name, if there is one. -/
def name? (p : Path) : Option Text := p.names.getLast?

/-- The path without its last name. -/
def parent (p : Path) : Path := { p with names := p.names.dropLast }

/-- The path with one more name. -/
def child (p : Path) (name : Text) : Path := { p with names := p.names ++ [name] }

/-- `q` seen from `p`: an anchored path stays what it is. -/
def join (p q : Path) : Path :=
  match q.anchor with
  | .here => { p with names := p.names ++ q.names }
  | _ => q

/-- The part of a name from its last dot on; a dot at either end of the name does not
count. -/
def suffixOf (name : Text) : Text :=
  let ext := (name.reverse.takeWhile (· != '.')).reverse
  if ext.isEmpty || name.length ≤ ext.length + 1 then [] else '.' :: ext

/-- The suffix of the last name. -/
def suffix (p : Path) : Text :=
  match p.name? with
  | some n => suffixOf n
  | none => []

/-! ## Order -/

/-- The anchor, if there is one, and the names. -/
def parts (p : Path) : List Text :=
  match p.anchor with
  | .here => p.names
  | a => a.text :: p.names

/-- Lists of names, compared name by name. -/
def leParts : List Text → List Text → Bool
  | [], _ => true
  | _ :: _, [] => false
  | a :: r, b :: q => if a = b then leParts r q else Text.le a b

/-- The order of paths. -/
def le (p q : Path) : Bool := leParts p.parts q.parts

/-- Paths in order. -/
def sort (ps : List Path) : List Path := ps.mergeSort le

end Path

end Unflag
