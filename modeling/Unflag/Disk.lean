/-
A disk: directories, files and symbolic links.

A disk is its top directory together with the directory that relative paths start from. A path
is looked up name by name. A symbolic
link on the way is replaced by its target, at most `linkLimit` times in one look-up, and
the last name is looked through only if asked to. `..` leads to the directory that holds
the present one, which need not be the one the path came from.

Places are lists of names from the top in which no link is left, so two paths lead to the
same file exactly if they are looked up to the same place.
-/
import Unflag.Listing
import Unflag.Path
import Unflag.Session

set_option autoImplicit false

namespace Unflag

/-- Why a path is refused. -/
inductive Refused where
  | noEntry
  /-- A directory on the way may not be searched, or the path leads into one. -/
  | denied
  | busy
  | notDirectory
  | isDirectory
  | nameTooLong
  | linkLoop
  /-- There is a null character in the path, which no file system is asked for. -/
  | nullByte
  deriving DecidableEq, Repr

namespace Refused

/-- A refusal of the file system as a fault: its number, its wording, the name of its kind, and the
path that was asked for. -/
def system (code : Nat) (message kind : String) (path : Path) : Fault :=
  ⟨.system, kind, s!"[Errno {code}] {message}: {String.ofList (Text.quoted path.text)}"⟩

/-- A refusal as a fault. -/
def fault (r : Refused) (path : Path) : Fault :=
  match r with
  | .noEntry => system 2 "No such file or directory" "FileNotFoundError" path
  | .denied => system 13 "Permission denied" "PermissionError" path
  | .busy => system 16 "Device or resource busy" "OSError" path
  | .notDirectory => system 20 "Not a directory" "NotADirectoryError" path
  | .isDirectory => system 21 "Is a directory" "IsADirectoryError" path
  | .nameTooLong => system 36 "File name too long" "OSError" path
  | .linkLoop => system 40 "Too many levels of symbolic links" "OSError" path
  | .nullByte => .noSuchValue "embedded null byte"

/-- Whether a refusal says no more than that nothing is there. -/
def isAbsence : Refused → Bool
  | .noEntry | .notDirectory | .linkLoop | .nullByte => true
  | .denied | .busy | .isDirectory | .nameTooLong => false

end Refused

/-- The top directory, and the place of the directory that relative paths start from. -/
structure Disk where
  top : Listing
  here : List Text

namespace Disk

/-! ## Looking up -/

/-- The number of links that one look-up follows. -/
def linkLimit : Nat := 40

/-- The number of bytes that the name of an entry may have. -/
def nameLimit : Nat := 255

/-- Whether no entry can have this name, for its length as UTF-8. -/
def isTooLong (name : Text) : Bool := nameLimit < name.foldl (fun n c => n + c.utf8Size) 0

/-- What a look-up finds. -/
inductive Found where
  /-- An entry and its place. A directory is given without its content. -/
  | directory (place : List Text)
  | shut (place : List Text)
  | file (place : List Text) (bytes : Bytes) (mode : Nat)
  | link (place : List Text) (target : Text)
  /-- Nothing, but the directory is there in which it would be. -/
  | vacant (place : List Text)
  | refused (r : Refused)

/-- The names of a link's target. A slash at its end asks for a directory. -/
def targetNames (target : Text) : List Text :=
  (Path.splitSlashes target).filter (fun n => !n.isEmpty)
    ++ if target.getLast? == some '/' then [['.']] else []

/-- Where a link's target is looked up from. -/
def targetStart (place : List Text) (target : Text) : List Text :=
  if target.head? == some '/' then [] else place

/-- Looks up names from the directory at `place`; `through` says whether the last name is
looked through if it is a link, and `links` how many more may be followed. -/
def lookUp (top : Listing) (through : Bool) (links : Nat) (place : List Text) :
    List Text → Found
  | [] => .directory place
  | n :: rest =>
    if n = ['.'] then lookUp top through links place rest
    else if n = ['.', '.'] then lookUp top through links place.dropLast rest
    else if isTooLong n then .refused .nameTooLong
    else
      match (Listing.dirAt? place top).bind (List.lookup n) with
      | none => if rest.isEmpty then .vacant (place ++ [n]) else .refused .noEntry
      | some (.dir _) => lookUp top through links (place ++ [n]) rest
      | some .shut => if rest.isEmpty then .shut (place ++ [n]) else .refused .denied
      | some (.file bytes mode) =>
        if rest.isEmpty then .file (place ++ [n]) bytes mode else .refused .notDirectory
      | some (.link target) =>
        if rest.isEmpty && !through then .link (place ++ [n]) target
        else
          match links with
          | 0 => .refused .linkLoop
          | k + 1 =>
            lookUp top through k (targetStart place target) (targetNames target ++ rest)
termination_by names => (links, names.length)

/-- The names of a path from the top, as far as its text says. -/
def start (d : Disk) (p : Path) : List Text :=
  match p.anchor with
  | .here => d.here
  | _ => []

/-- Whether there is a null character in a path. -/
def hasNull (p : Path) : Bool := p.names.any fun n => n.contains '\x00'

/-- What is at a path; `through` says whether a link at its end is looked through. -/
def seek (d : Disk) (through : Bool) (p : Path) : Found :=
  if hasNull p then .refused .nullByte
  else lookUp d.top through linkLimit (d.start p) p.names

/-- What is at a path; a link at its end is looked through. -/
def find (d : Disk) (p : Path) : Found := d.seek true p

/-- What is at a path; a link at its end is what is found. -/
def findLink (d : Disk) (p : Path) : Found := d.seek false p

/-- Whether what is found passes a test. A path that leads nowhere leads to nothing that does, but
it is a fault to be kept from looking. -/
def asks (test : Found → Bool) (d : Disk) (p : Path) : Except Fault Bool :=
  match d.find p with
  | .refused r => if r.isAbsence then .ok false else .error (r.fault p)
  | found => .ok (test found)

/-- Whether a path leads to anything. -/
def holds : Disk → Path → Except Fault Bool :=
  asks fun found => match found with
    | .vacant _ => false
    | _ => true

/-- Whether a path leads to a file. -/
def isFile : Disk → Path → Except Fault Bool :=
  asks fun found => match found with
    | .file _ _ _ => true
    | _ => false

/-- Whether a path leads to a directory. -/
def isDir : Disk → Path → Except Fault Bool :=
  asks fun found => match found with
    | .directory _ | .shut _ => true
    | _ => false

/-- Whether a link leads to a directory, as far as a walk can see. -/
def leadsToDir (d : Disk) (p : Path) : Bool := (d.isDir p).toOption == some true

/-- The permission bits of what is at a path. -/
def mode? (d : Disk) (p : Path) : Option Nat :=
  match d.find p with
  | .file _ _ mode => some mode
  | _ => none

/-! ## Changing -/

/-- The disk with the directory at a place changed. -/
def changeAt (d : Disk) (place : List Text) (f : Listing → Listing) : Disk :=
  { d with top := Listing.change f place d.top }

/-- The disk with another entry at a place. -/
def putAt (d : Disk) (place : List Text) (e : Entry) : Disk :=
  match place.getLast? with
  | some n => d.changeAt place.dropLast (Listing.put n e)
  | none => d

/-- The disk with a new entry at a path, and with the directories on the way. -/
def create (d : Disk) (p : Path) (e : Entry) : Disk :=
  let place := d.start p ++ p.names
  ({ d with top := Listing.withDirs place.dropLast d.top }).putAt place e

/-- The permission bits of a file that is made by opening it. -/
def newMode : Nat := 0o644

/-- The bytes of the file at a path. -/
def readBytes (d : Disk) (p : Path) : Except Fault Bytes :=
  match d.find p with
  | .file _ bytes _ => .ok bytes
  | .directory _ | .shut _ => .error (Refused.fault .isDirectory p)
  | .link _ _ => .error (Refused.fault .linkLoop p)
  | .vacant _ => .error (Refused.fault .noEntry p)
  | .refused r => .error (r.fault p)

/-- Opens the file at a path and writes it in place; a new file is made if there is none. -/
def overwrite (d : Disk) (p : Path) (bytes : Bytes) : Except Fault Disk :=
  match d.find p with
  | .file place _ mode => .ok (d.putAt place (.file bytes mode))
  | .vacant place => .ok (d.putAt place (.file bytes newMode))
  | .directory _ | .shut _ => .error (Refused.fault .isDirectory p)
  | .link _ _ => .error (Refused.fault .linkLoop p)
  | .refused r => .error (r.fault p)

/-- Sets the permission bits of the file at a path. -/
def setMode (d : Disk) (p : Path) (mode : Nat) : Except Fault Disk :=
  match d.find p with
  | .file place bytes _ => .ok (d.putAt place (.file bytes mode))
  | .directory _ | .shut _ => .ok d
  | .link _ _ => .error (Refused.fault .linkLoop p)
  | .vacant _ => .error (Refused.fault .noEntry p)
  | .refused r => .error (r.fault p)

/-- Removes what is at a path, unless it is a directory; a link goes and its target
stays. -/
def remove (d : Disk) (p : Path) : Except Fault Disk :=
  let erased (place : List Text) : Disk :=
    match place.getLast? with
    | some n => d.changeAt place.dropLast (Listing.erase n)
    | none => d
  match d.findLink p with
  | .file place _ _ => .ok (erased place)
  | .link place _ => .ok (erased place)
  | .directory _ | .shut _ => .error (Refused.fault .isDirectory p)
  | .vacant _ => .error (Refused.fault .noEntry p)
  | .refused r => .error (r.fault p)

end Disk

end Unflag
