/-
What a run asks of the machine it runs on.

A run finds its files by path, reads and replaces them, and may call a tool that searches them. It
never sees more of its surroundings than the answers to these calls, so the calls are a structure
and the state behind them is any type at all: a disk is one, and so is whatever a real machine
keeps. Each call may end with a fault. A call that changes the state gives the new one, and one that
fails has changed nothing.
-/
import Unflag.Listing
import Unflag.Session

set_option autoImplicit false

namespace Unflag

/-- What a run of a tool returned. -/
structure ToolRun where
  code : Int
  output : Text
  complaint : Text

/-- A tool that searches files: where it lies, and what a run of its command line comes to. -/
structure Tool (σ : Type) where
  path : Text
  run : List Text → σ → Except Fault ToolRun

/-- The calls on a machine whose state is `σ`. -/
structure Host (σ : Type) where
  /-- The path without links, from the top. -/
  canonical : σ → Path → Except Fault Path
  /-- Whether a path leads to anything, -/
  holds : σ → Path → Except Fault Bool
  /-- to a directory, -/
  isDir : σ → Path → Except Fault Bool
  /-- or to a file. -/
  isFile : σ → Path → Except Fault Bool
  /-- What is below a directory, as far as it can be listed. -/
  listing : σ → Path → Listing
  /-- Whether a link leads to a directory, as far as a walk can see. -/
  leadsToDir : σ → Path → Bool
  /-- The text of a configuration file. -/
  readInParts : σ → Path → Except Fault Text
  /-- The text of a file in this encoding, for a search. -/
  readLeniently : Text → σ → Path → Except Fault Text
  /-- The calls on files whose texts are in this encoding. -/
  store : Text → Store σ
  /-- Writes a text in place. -/
  overwrite : σ → Path → Text → Except Fault σ
  /-- The tool that searches files, if there is one. -/
  tool : Option (Tool σ)

end Unflag
