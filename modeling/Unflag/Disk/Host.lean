/-
A disk as a machine to run on.

The codecs are those of the machine, and so is the tool that searches files; what is left to say is
what the calls on files do, and the disk says that.
-/
import Unflag.Disk.Canonical
import Unflag.Disk.TextFile
import Unflag.Host

set_option autoImplicit false

namespace Unflag

namespace Disk

/-- What is below the directory at a path. -/
def listing (d : Disk) (p : Path) : Listing :=
  match d.find p with
  | .directory place => (Listing.dirAt? place d.top).getD []
  | _ => []

/-- Writes a text in place, as UTF-8. -/
def overwriteText (d : Disk) (p : Path) (text : Text) : Except Fault Disk := do
  let bytes ← Encoding.utf8.codec.encode text
  d.overwrite p bytes

/-- The calls on a disk. -/
def host (codecs : Codecs) (tool : Option (Tool Disk)) : Host Disk where
  canonical := canonical
  holds := holds
  isDir := isDir
  isFile := isFile
  listing := listing
  leadsToDir := leadsToDir
  readInParts := readInParts
  readLeniently := readLeniently codecs
  store := store codecs
  overwrite := overwriteText
  tool := tool

end Disk

end Unflag
