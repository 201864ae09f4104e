/-
The program: arguments in, output and an exit code out.

The arguments are read first, and what is wrong with them is said before anything is looked at.
-/
import Unflag.Command
import Unflag.Yaml

set_option autoImplicit false

namespace Unflag

namespace Program

/-- What a call of the program gives: the state it leaves, what it prints, what it complains of, its
log, and its exit code. -/
structure Result (σ : Type) where
  state : σ
  output : String
  complaint : String
  records : List Record
  code : Except Fault Nat

/-- Configurations are written in YAML. -/
def rules : Configuration.Rules := .standard Yaml.load

/-- Runs the program. -/
def run {σ : Type} (host : Host σ) (rules : Configuration.Rules) (clock : Command.Clock)
    (args : List Text) (s : σ) : Result σ :=
  match Options.ofArguments args with
  | .error .help => ⟨s, Command.help, "", [], .ok 0⟩
  | .error .version => ⟨s, Command.version, "", [], .ok 0⟩
  | .error (.misuse m) => ⟨s, "", Command.complaint m, [], .ok Exit.refused.code⟩
  | .error (.fault f) => ⟨s, "", "", [], .error f⟩
  | .ok o =>
    let r := Command.run host rules clock o s
    ⟨r.state, "", "", (Command.leastLevel o).shown r.records, r.ending.map Exit.code⟩

end Program

end Unflag
