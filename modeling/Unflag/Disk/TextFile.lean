/-
Text files on a disk.

Reading and writing keep line ends as they are. A file is opened before its encoding is
looked up, so a missing file is reported as missing even under an encoding that nobody knows.
-/
import Unflag.Disk.Replacement
import Unflag.Text.Codec

set_option autoImplicit false

namespace Unflag

namespace Disk

variable (codecs : Codecs)

/-- The text of the file at a path. -/
def readText (encoding : Text) (d : Disk) (p : Path) : Except Fault Text := do
  Codecs.allow encoding
  let bytes ← d.readBytes p
  let codec ← codecs.named encoding
  codec.decode bytes

/-- The text of the file at a path for a search: bytes that are no text are replaced, and
line ends are all alike. -/
def readLeniently (encoding : Text) (d : Disk) (p : Path) : Except Fault Text := do
  Codecs.allow encoding
  let bytes ← d.readBytes p
  let codec ← codecs.named encoding
  (codec.decodeLeniently bytes).map Text.normalizeLineEnds

/-- The text of a file that is read part by part as UTF-8, with its line ends all alike. A
character that is cut off by the end of the file is noticed when nothing else is left, so
its place is counted from itself. -/
def readInParts (d : Disk) (p : Path) : Except Fault Text := do
  let bytes ← d.readBytes p
  let place (f : Encoding.DecodeFault) : Encoding.DecodeFault :=
    if f.defect = .truncated then { f with start := 0 } else f
  match Encoding.utf8.decode bytes with
  | .ok text => .ok (Text.normalizeLineEnds text)
  | .error f => .error (Encoding.utf8.decodeFault (place f))

/-- The bytes of a text to be written. -/
def encodeText (encoding text : Text) : Except Fault Bytes := do
  let codec ← codecs.lookUp encoding
  codec.encode text

/-- Why no file can be moved to a path in this listing, if none can: a directory is there, or
the path leads up to one. -/
def blockedMove (l : Listing) (p : Path) : Option Fault :=
  match p.name? with
  | none => some (Refused.fault .busy p)
  | some name =>
    if name = ['.', '.'] then some (Refused.fault .busy p)
    else if (l.lookup name).any Entry.isDirectory then some (Refused.fault .isDirectory p)
    else none

/-- Why no temporary file can be made beside a path, if none can: its name would have a null
character in it, or be too long. -/
def unmadeTemporary (p : Path) : Option Fault :=
  if hasNull p then some (Refused.fault .nullByte p)
  else if isTooLong (Replacement.temporaryName ((p.name?).getD []) 0) then
    some (Refused.fault .nameTooLong p)
  else none

/-- What a replacement is given that writes a text to a path of this directory. -/
def orderOf (encoding : Text) (d : Disk) (p : Path) (text : Text) (l : Listing) :
    Replacement.Order where
  name := (p.name?).getD []
  unmade := unmadeTemporary p
  content := encodeText codecs encoding text
  mode := d.mode? p
  blocked := blockedMove l p

/-- Replaces the text of the file at a path in one step. A link is replaced by a file, which
takes over the permission bits of what the link led to. -/
def replaceText (h : Hazard) (encoding : Text) (d : Disk) (p : Path) (text : Text) :
    Except Fault Disk :=
  let noDirectory (r : Refused) : Except Fault Disk :=
    .error ((if hasNull p then Refused.nullByte else r).fault p)
  match d.find p.parent with
  | .directory place =>
    let l := (Listing.dirAt? place d.top).getD []
    match Replacement.run h (orderOf codecs encoding d p text l) l with
    | (l', none) => .ok (d.changeAt place fun _ => l')
    | (_, some f) => .error f
  | .shut _ => noDirectory .denied
  | .file _ _ _ => noDirectory .notDirectory
  | .link _ _ => noDirectory .linkLoop
  | .vacant _ => noDirectory .noEntry
  | .refused r => noDirectory r

/-- The operations on a disk whose texts are in this encoding. -/
def store (encoding : Text) : Store Disk where
  holds := isFile
  read := readText codecs encoding
  write d p text := replaceText codecs .none encoding d p text
  remove := remove
  wrote p := [.debug s!"Wrote {p.display}"]
  removed p := [.debug s!"Deleted {p.display}"]

end Disk

end Unflag
