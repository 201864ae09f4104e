/-
Replacing a file in one step.

The new content goes into a temporary file beside the target, the temporary file takes over
the target's permission bits, and is then moved into the target's place. Each of the four
steps may fail, for a reason of its own or because something struck from outside, and a step that
is struck may have done a part of its work. The temporary file is then removed and the directory is
what it was before. A reader therefore finds the old file or the new one, and never a part of
either.

Everything happens in one directory, so the steps are functions on its listing.
-/
import Unflag.Disk

set_option autoImplicit false

namespace Unflag

/-- A step of a replacement. -/
inductive ReplacementStep where
  /-- Make the temporary file. -/
  | create
  /-- Encode the text and write it. -/
  | fill
  /-- Take over the permission bits. -/
  | copyMode
  /-- Move the temporary file into place. -/
  | move
  deriving DecidableEq, Repr

/-- What strikes from outside. Making a file and moving it are done or not done; the other two
steps can be struck behind their effect or within it. -/
structure Hazard where
  /-- For every step the fault it ends in, if any. -/
  strikes : ReplacementStep → Option Fault
  /-- How many bytes have been written when the writing is struck. -/
  written : Nat
  /-- Whether the permission bits have been taken over when that step is struck. -/
  modeTaken : Bool

/-- Nothing strikes. -/
def Hazard.none : Hazard := ⟨fun _ => Option.none, 0, false⟩

namespace Replacement

/-- The `n`th name for a temporary file beside `name`. -/
def temporaryName (name : Text) (n : Nat) : Text :=
  ['.'] ++ name ++ ['.'] ++ Text.hex 8 n ++ ".tmp".toList

/-- The first of so many names, counted from `n`, that is not in the listing. -/
def unusedName (l : Listing) (name : Text) : Nat → Nat → Text
  | 0, n => temporaryName name n
  | k + 1, n =>
    if (l.lookup (temporaryName name n)).isSome then unusedName l name k (n + 1)
    else temporaryName name n

/-- A name for a temporary file that is not in the listing. -/
def freshName (l : Listing) (name : Text) : Text := unusedName l name l.length 0

/-- The permission bits of a temporary file. -/
def temporaryMode : Nat := 0o600

/-- What a replacement is given. -/
structure Order where
  /-- The target's name. -/
  name : Text
  /-- The fault of making a temporary file, if none can be made. -/
  unmade : Option Fault
  /-- The bytes to be written, or the fault that keeps them from being written. -/
  content : Except Fault Bytes
  /-- The permission bits of what is at the target, if anything is. -/
  mode : Option Nat
  /-- The fault of moving a file onto the target, if none can be moved there. -/
  blocked : Option Fault

/-- The permission bits that the temporary file ends up with. -/
def finalMode (o : Order) : Nat := o.mode.getD temporaryMode

/-- Moves an entry of the listing to another name, in place of what was there. -/
def rename (l : Listing) (old new : Text) : Listing :=
  match l.lookup old with
  | some e => (l.erase old).put new e
  | none => l

/-- The clean-up: the temporary file is removed if it is there. -/
def cleanUp (temp : Text) (l : Listing) : Listing :=
  if (l.lookup temp).isSome then l.erase temp else l

/-- The steps behind the first one, on a listing with the temporary file in it: the listing that
they leave, and the fault if there was one. -/
def finish (h : Hazard) (o : Order) (temp : Text) (l : Listing) : Listing × Option Fault :=
  match o.content, h.strikes .fill with
  | .error own, strike => (l, some (strike.getD own))
  | .ok bytes, some f => (l.put temp (.file (bytes.take h.written) temporaryMode), some f)
  | .ok bytes, none =>
    let filled := l.put temp (.file bytes temporaryMode)
    let ready := filled.put temp (.file bytes (finalMode o))
    match h.strikes .copyMode with
    | some f => (if h.modeTaken then ready else filled, some f)
    | none =>
      match (h.strikes .move).or o.blocked with
      | some f => (ready, some f)
      | none => (rename ready temp o.name, none)

/-- Replaces a file: the listing afterwards, and the fault if there was one. -/
def run (h : Hazard) (o : Order) (l : Listing) : Listing × Option Fault :=
  match (h.strikes .create).or o.unmade with
  | some f => (l, some f)
  | none =>
    let temp := freshName l o.name
    match finish h o temp (l.put temp (.file [] temporaryMode)) with
    | (l', none) => (l', none)
    | (l', some f) => (cleanUp temp l', some f)

end Replacement

end Unflag
