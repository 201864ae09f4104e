/-
Directories as trees.

A directory is a list of named entries, and a place below it is the list of the names that lead
there. A directory that is closed to everybody is an entry like any other, but nothing is known of
what is inside of it.
-/
import Unflag.Text.Encoding

set_option autoImplicit false

namespace Unflag

/-- An entry of a directory. -/
inductive Entry where
  /-- A file: its content and its permission bits. -/
  | file (bytes : Bytes) (mode : Nat)
  /-- A symbolic link to the path of this text. -/
  | link (target : Text)
  | dir (entries : List (Text × Entry))
  /-- A directory that may neither be listed nor searched, so that nobody sees what is in it. -/
  | shut

/-- Whether an entry is a directory. -/
def Entry.isDirectory : Entry → Bool
  | .dir _ | .shut => true
  | .file _ _ | .link _ => false

/-- The content of a directory. -/
abbrev Listing := List (Text × Entry)

namespace Listing

/-- The listing with another entry of this name; a new name comes last. -/
def put (name : Text) (e : Entry) : Listing → Listing
  | [] => [(name, e)]
  | x :: r => if x.1 = name then (name, e) :: r else x :: put name e r

/-- The listing without the entry of this name. -/
def erase (name : Text) (l : Listing) : Listing := l.filter fun x => x.1 != name

/-- The directory at a place below a listing. -/
def dirAt? : List Text → Listing → Option Listing
  | [], l => some l
  | n :: ns, l =>
    match l.lookup n with
    | some (.dir sub) => dirAt? ns sub
    | _ => none

/-- The listing with the directory at a place changed. -/
def change (f : Listing → Listing) : List Text → Listing → Listing
  | [], l => f l
  | n :: ns, l =>
    l.map fun x =>
      if x.1 = n then
        match x.2 with
        | .dir sub => (x.1, .dir (change f ns sub))
        | e => (x.1, e)
      else x

/-- The listing with all directories on the way to a place. -/
def withDirs : List Text → Listing → Listing
  | [], l => l
  | n :: ns, l =>
    match l.lookup n with
    | some (.dir sub) => put n (.dir (withDirs ns sub)) l
    | some _ => l
    | none => put n (.dir (withDirs ns [])) l

end Listing

end Unflag
