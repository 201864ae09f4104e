/-
JSON text.

Values are written over several lines, two blanks for each level, in ASCII only. Numbers
are given as they are to be written.
-/
import Unflag.Text.Quoted

set_option autoImplicit false

namespace Unflag

/-- A JSON value. -/
inductive JsonValue where
  | null
  | bool (b : Bool)
  | number (digits : Text)
  | string (s : Text)
  | array (items : List JsonValue)
  | object (fields : List (Text × JsonValue))

namespace JsonValue

/-- The start of a line at a level. -/
def newLine (level : Nat) : Text := '\n' :: List.replicate (2 * level) ' '

mutual

/-- The text of a value at a level. -/
def write (level : Nat) : JsonValue → Text
  | .null => "null".toList
  | .bool b => if b then "true".toList else "false".toList
  | .number digits => digits
  | .string s => Text.jsonQuoted s
  | .array [] => "[]".toList
  | .array (v :: vs) =>
    '[' :: newLine (level + 1) ++ write (level + 1) v ++ writeItems (level + 1) vs
      ++ newLine level ++ [']']
  | .object [] => ['\x7b', '\x7d']
  | .object ((k, v) :: fs) =>
    '\x7b' :: newLine (level + 1) ++ Text.jsonQuoted k ++ [':', ' '] ++ write (level + 1) v
      ++ writeFields (level + 1) fs ++ newLine level ++ ['\x7d']

/-- The items of an array behind the first. -/
def writeItems (level : Nat) : List JsonValue → Text
  | [] => []
  | v :: vs => ',' :: newLine level ++ write level v ++ writeItems level vs

/-- The fields of an object behind the first. -/
def writeFields (level : Nat) : List (Text × JsonValue) → Text
  | [] => []
  | (k, v) :: fs =>
    ',' :: newLine level ++ Text.jsonQuoted k ++ [':', ' '] ++ write level v
      ++ writeFields level fs

end

/-- The text of a value. -/
def render (v : JsonValue) : Text := write 0 v

end JsonValue

end Unflag
