/-
Many files, one after the other.

Every file has a worker of its own, and a worker's unexpected fault becomes the outcome of
its file and of no other. The files are independent, so the number of workers at a time
changes nothing that can be seen.
-/
import Unflag.Session

set_option autoImplicit false

namespace Unflag

namespace Batch

/-- What a batch leaves: the state, the records, and the outcome of each path. -/
structure Result (σ : Type) where
  state : σ
  records : List Record
  ledger : Ledger

/-- The outcome of a file and what is reported of it: a fault becomes an internal error. -/
def settle (path : Path) : Except Fault Outcome → Outcome × List Record
  | .ok o => (o, [])
  | .error f =>
    (.failure path .internalError f.message,
      [.error s!"⛔ Unexpected error while processing {path.display}"])

/-- Runs one more file. -/
def step {σ : Type} (work : Path → σ → Session.Result σ) (b : Result σ) (path : Path) : Result σ :=
  let r := work path b.state
  let (o, rs) := settle path r.outcome
  ⟨r.state, b.records ++ r.records ++ rs, b.ledger.put path o⟩

/-- Runs every file. -/
def run {σ : Type} (work : Path → σ → Session.Result σ) (paths : List Path) (s : σ) : Result σ :=
  paths.foldl (step work) ⟨s, [], []⟩

end Batch

end Unflag
