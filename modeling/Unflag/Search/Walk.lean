/-
Which files mention the flag, by walking the directories, and the search as a whole.

A search calls the tool if there is one and it is to be used, and walks otherwise. The walk
takes every entry below the root that is no directory and has the suffix of a source.
Directories that are excluded by name, and bundles, are passed by at every depth; the root
itself is walked whatever its name is. A link to a directory is neither entered nor taken;
every other link counts as a file, even one that leads nowhere.
-/
import Unflag.Search

set_option autoImplicit false

namespace Unflag

namespace Search

/-! ## Walking -/

/-- Whether a directory of this name is passed by. -/
def isSkipped (s : Settings) (name : Text) : Bool :=
  s.excludedDirs.contains name || ".bundle".toList.isSuffixOf name

/-- Whether a path has the suffix of a source. -/
def isSource (s : Settings) (p : Path) : Bool := s.sourceExtensions.contains p.suffix

mutual

/-- The sources at an entry whose path is `p`; `leadsToDir` tells which links lead to
directories. -/
def sourcesAt (s : Settings) (leadsToDir : Path → Bool) (p : Path) : Entry → List Path
  | .file _ _ => if isSource s p then [p] else []
  | .link _ => if !leadsToDir p && isSource s p then [p] else []
  | .dir l => if isSkipped s ((p.name?).getD []) then [] else sourcesIn s leadsToDir p l
  | .shut => []

/-- The sources in a listing whose directory is at `p`. -/
def sourcesIn (s : Settings) (leadsToDir : Path → Bool) (p : Path) : Listing → List Path
  | [] => []
  | (name, e) :: r => sourcesAt s leadsToDir (p.child name) e ++ sourcesIn s leadsToDir p r

end

variable {σ : Type} (host : Host σ) (o : Settings) (s : σ)

/-- All sources below a directory, in order. -/
def sources (root : Path) : Except (Stop Failure) (List Path) :=
  (checkRoot host s root).map fun _ =>
    Path.sort (sourcesIn o (host.leadsToDir s) root (host.listing s root))

/-! ## Looking into the files -/

/-- The paths among `paths` whose text holds `needle`, with the records of the files that
could not be opened. A fault that is not the file system's ends the search. -/
def mentioning (needle : Text) : List Path → List Record × Except Fault (List Path)
  | [] => ([], .ok [])
  | p :: ps =>
    match host.readLeniently o.encoding s p with
    | .ok text =>
      let (rs, found) := mentioning needle ps
      (rs, if Text.occursIn needle text then found.map (p :: ·) else found)
    | .error f =>
      if f.family == .system then
        let (rs, found) := mentioning needle ps
        (.warning s!"⚠️ Cannot read {p.display}: {f.text}" :: rs, found)
      else ([], .error f)

/-- The sources below a directory that mention `needle`, in order. -/
def files (root : Path) (needle : Text) : Result :=
  match sources host o s root with
  | .error stop => ([], .error stop)
  | .ok ps =>
    let (rs, found) := mentioning host o s needle ps
    (rs, found.mapError .fault)

/-! ## The search -/

/-- The files below a directory that mention `needle`, in order, and what is reported of the
search. -/
def find (root : Path) (needle : Text) : Result :=
  match checkRoot host s root with
  | .error stop => ([], .error stop)
  | .ok _ =>
    let (rs, found) :=
      match tool? host o with
      | some tool => askTool tool o s root needle
      | none =>
        let (rs, found) := files host o s root needle
        (.debug "ripgrep not used; scanning files in Python" :: rs, found)
    match found with
    | .error stop => (rs, .error stop)
    | .ok ps =>
      (rs ++ [.debug
        s!"{ps.length} file(s) under {root.display} mention {String.ofList needle}"], .ok ps)

end Search

end Unflag
