/-
Which files mention the flag, by way of an external search tool.

The tool is told what to look for and where; its answer is a list of paths, one on each
line.
-/
import Unflag.Host
import Unflag.Settings

set_option autoImplicit false

namespace Unflag

namespace Search

/-- Why a search fails. -/
inductive Failure where
  | missingRoot (root : Path)
  | notADirectory (root : Path)
  | toolFailed (code : Int) (complaint : Text)
  deriving DecidableEq, Repr

/-- The wording of a failed search. -/
def Failure.message : Failure → String
  | .missingRoot root => s!"Path does not exist: {root.display}"
  | .notADirectory root => s!"Path is not a directory: {root.display}"
  | .toolFailed code complaint =>
    let digits := String.ofList (Text.decimal code)
    s!"ripgrep failed with exit code {digits}: {String.ofList (Text.trim complaint)}"

/-- The result of a search: what is reported of it, and the paths that it finds in order. -/
abbrev Result := List Record × Except (Stop Failure) (List Path)

variable {σ : Type}

/-- The root of a search has to be there, and to be a directory. -/
def checkRoot (host : Host σ) (s : σ) (root : Path) : Except (Stop Failure) Unit :=
  match host.holds s root with
  | .error f => .error (.fault f)
  | .ok false => .error (.refused (.missingRoot root))
  | .ok true =>
    match host.isDir s root with
    | .error f => .error (.fault f)
    | .ok false => .error (.refused (.notADirectory root))
    | .ok true => .ok ()

/-! ## The tool -/

/-- The tool of the machine, if it is to be used. -/
def tool? (host : Host σ) (o : Settings) : Option (Tool σ) :=
  if o.useRipgrep then host.tool else none

/-- The command line of the tool. -/
def toolCommand (s : Settings) (tool root needle : Text) : List Text :=
  [tool, "--files-with-matches".toList, "--hidden".toList, "--no-messages".toList, "-F".toList,
    needle]
    ++ s.sourceExtensions.flatMap (fun ext => ["--glob".toList, '*' :: ext])
    ++ s.excludedDirs.flatMap (fun name => ["--glob".toList, '!' :: name ++ ['/']])
    ++ ["--glob".toList, "!*.bundle/".toList, root]

/-- The files the tool found, in order. It ends with 1 if there are none. -/
def toolFiles (r : ToolRun) : Except Failure (List Path) :=
  if r.code = 0 || r.code = 1 then
    .ok (Path.sort (((Text.splitLines r.output).filter fun l => !(Text.trim l).isEmpty).map
      Path.ofText))
  else .error (.toolFailed r.code r.complaint)

/-- The files below a directory that mention `needle`, as the tool finds them. -/
def askTool (tool : Tool σ) (o : Settings) (s : σ) (root : Path) (needle : Text) : Result :=
  let command := toolCommand o tool.path root.text needle
  let line := String.ofList (Text.joinWith [' '] command)
  ([.debug s!"Running {line}"],
    match tool.run command s with
    | .error f => .error (.fault f)
    | .ok r => (toolFiles r).mapError .refused)

end Search

end Unflag
