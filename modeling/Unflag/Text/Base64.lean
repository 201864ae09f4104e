/-
Bytes written as text, six bits to a character.

Four characters make three bytes. Characters outside of the alphabet do not count. The text
ends where a group of four is filled up with padding; padding elsewhere does not count
either. A group that is not filled up at the end of the text is a fault.
-/
import Unflag.Text.Encoding

set_option autoImplicit false

namespace Unflag

namespace Base64

/-- The six bits of a character. -/
def value? (c : Char) : Option Nat :=
  if 'A' ≤ c && c ≤ 'Z' then some (c.toNat - 'A'.toNat)
  else if 'a' ≤ c && c ≤ 'z' then some (c.toNat - 'a'.toNat + 26)
  else if '0' ≤ c && c ≤ '9' then some (c.toNat - '0'.toNat + 52)
  else if c == '+' then some 62
  else if c == '/' then some 63
  else none

/-- Decodes a text. The open group has `count` characters, whose bits that are in no byte yet
are `left`; `pads` is the length of the padding directly in front. -/
def decodeFrom (count left pads : Nat) : Text → Option Bytes
  | [] => if count = 0 then some [] else none
  | c :: r =>
    if c = '=' then
      if 2 ≤ count && 4 ≤ count + pads + 1 then some []
      else decodeFrom count left (if 2 ≤ count then pads + 1 else pads) r
    else
      match value? c with
      | none => decodeFrom count left pads r
      | some v =>
        match count with
        | 0 => decodeFrom 1 v 0 r
        | 1 => (decodeFrom 2 (v % 16) 0 r).map ((left * 4 + v / 16).toUInt8 :: ·)
        | 2 => (decodeFrom 3 (v % 4) 0 r).map ((left * 16 + v / 4).toUInt8 :: ·)
        | _ => (decodeFrom 0 0 0 r).map ((left * 64 + v).toUInt8 :: ·)

/-- The bytes of a text. -/
def decode? (s : Text) : Option Bytes := decodeFrom 0 0 0 s

end Base64

end Unflag
