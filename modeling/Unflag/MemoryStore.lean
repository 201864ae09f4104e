/-
A table of texts as a file store.

The table maps paths to texts, and each of the three operations that can fail may be made
to fail from some moment on.
-/
import Unflag.Session

set_option autoImplicit false

namespace Unflag

/-- A table of texts, and the fault each operation is set to end in. -/
structure MemoryStore where
  files : List (Path × Text)
  readFault : Option Fault
  writeFault : Option Fault
  removeFault : Option Fault

namespace MemoryStore

/-- No files, no faults. -/
def empty : MemoryStore := ⟨[], none, none, none⟩

/-- The table with another text at a path. -/
def putFile (path : Path) (text : Text) : List (Path × Text) → List (Path × Text)
  | [] => [(path, text)]
  | e :: r => if e.1 = path then (path, text) :: r else e :: putFile path text r

/-- The store with another text at a path. -/
def put (m : MemoryStore) (path : Path) (text : Text) : MemoryStore :=
  { m with files := putFile path text m.files }

/-- The store without the text at a path. -/
def erase (m : MemoryStore) (path : Path) : MemoryStore :=
  { m with files := m.files.filter fun e => e.1 != path }

/-- The store without faults. -/
def heal (m : MemoryStore) : MemoryStore := ⟨m.files, none, none, none⟩

/-- A path that is not in the table. -/
def missing (path : Path) : Fault := ⟨.system, "FileNotFoundError", path.display⟩

/-- The operations on a table. -/
def store : Store MemoryStore where
  holds m path := .ok (m.files.lookup path).isSome
  read m path :=
    match m.readFault with
    | some f => .error f
    | none =>
      match m.files.lookup path with
      | some text => .ok text
      | none => .error (missing path)
  write m path text :=
    match m.writeFault with
    | some f => .error f
    | none => .ok (m.put path text)
  remove m path :=
    match m.removeFault with
    | some f => .error f
    | none =>
      match m.files.lookup path with
      | some _ => .ok (m.erase path)
      | none => .error (missing path)
  wrote _ := []
  removed _ := []

end MemoryStore

end Unflag
