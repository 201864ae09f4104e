/-
The canonical form of a path: anchored at the top, without links, dots and double dots.

A path need not lead anywhere to have one. Names that are not on the disk stay as they are,
and a double dot behind such a name takes it away again. Links are replaced by their targets
however many there are; only a link that is met while its own target is being looked up is
a loop. What then remains is the path up to that link with the names still to come, and it is
refused if the disk cannot look it up either.
-/
import Unflag.Disk

set_option autoImplicit false

namespace Unflag

namespace Disk

/-- A step on the way to a canonical form: a name to look up, or the mark behind the last
name of a link's target. -/
inductive Errand where
  | name (n : Text)
  | leave (link : List Text)

/-- The names that are still to be looked up. -/
def Errand.names (es : List Errand) : List Text :=
  es.filterMap fun e => match e with | .name n => some n | .leave _ => none

/-- The place one name further, as far as the text of the name says. -/
def stepTo (place : List Text) (n : Text) : List Text :=
  if n = ['.'] then place else if n = ['.', '.'] then place.dropLast else place ++ [n]

/-- The link at a place, if there is one. -/
def linkAt? (top : Listing) (place : List Text) (n : Text) : Option Text :=
  match (Listing.dirAt? place top).bind (List.lookup n) with
  | some (.link target) => some target
  | _ => none

/-- The canonical place behind `place`. The links in `inside` are those whose targets are
being looked up; `links` bounds the number of links that are followed. -/
def canonicalFrom (top : Listing) (links : Nat) (inside : List (List Text))
    (place : List Text) : List Errand → List Text
  | [] => place
  | .leave link :: rest => canonicalFrom top links (inside.erase link) place rest
  | .name n :: rest =>
    match linkAt? top place n with
    | none => canonicalFrom top links inside (stepTo place n) rest
    | some target =>
      let link := place ++ [n]
      match links with
      | 0 => (Errand.names rest).foldl stepTo link
      | k + 1 =>
        if inside.contains link then (Errand.names rest).foldl stepTo link
        else
          canonicalFrom top k (link :: inside) (targetStart place target)
            ((targetNames target).map .name ++ .leave link :: rest)
termination_by errands => (links, errands.length)

/-- The number of links that are followed on the way to a canonical form. -/
def canonicalLimit : Nat := 10000

/-- A path that cannot be looked up because its links go round in circles. -/
def loopFault (p : Path) : Fault :=
  ⟨.other, "RuntimeError", s!"Symlink loop from {String.ofList (Text.quoted p.text)}"⟩

/-- The canonical form of a path. -/
def canonical (d : Disk) (p : Path) : Except Fault Path :=
  if hasNull p then .error (Refused.fault .nullByte p)
  else
    let place := canonicalFrom d.top canonicalLimit [] (d.start p) (p.names.map .name)
    let q : Path := ⟨.root, place⟩
    match d.find q with
    | .refused .linkLoop => .error (loopFault q)
    | _ => .ok q

end Disk

end Unflag
