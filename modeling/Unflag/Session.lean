/-
What a worker does to its file, as data.

A worker may ask whether its file is there, read it, write it or remove it, and report.
A session is the tree of these steps: each step says what is asked and, for every answer,
how the session goes on. No session names a file system, so the same worker runs on a
directory and on a table in memory, and the steps of several workers can be interleaved
one at a time.
-/
import Unflag.Fault
import Unflag.Log
import Unflag.Outcome

set_option autoImplicit false

namespace Unflag

/-- The steps of a worker on its file. -/
inductive Session where
  /-- The end, with an outcome. -/
  | done (o : Outcome)
  /-- The end, with a fault nobody expected. -/
  | raise (f : Fault)
  | report (r : Record) (next : Session)
  | probe (next : Except Fault Bool → Session)
  | read (next : Except Fault Text → Session)
  | write (text : Text) (next : Except Fault Unit → Session)
  | remove (next : Except Fault Unit → Session)

/-- The file operations a session runs on. An operation that fails changes nothing; one that
succeeds may leave records. -/
structure Store (σ : Type) where
  /-- Whether there is a file. Even that may be a fault to ask. -/
  holds : σ → Path → Except Fault Bool
  read : σ → Path → Except Fault Text
  write : σ → Path → Text → Except Fault σ
  remove : σ → Path → Except Fault σ
  /-- What is reported of a write. -/
  wrote : Path → List Record
  /-- What is reported of a removal. -/
  removed : Path → List Record

/-- The end of a session: the state it leaves, its records, and its outcome. -/
structure Session.Result (σ : Type) where
  state : σ
  records : List Record
  outcome : Except Fault Outcome

namespace Session

/-- The result with more records in front. -/
def Result.after {σ : Type} (rs : List Record) (r : Result σ) : Result σ :=
  { r with records := rs ++ r.records }

/-- Several records, one after the other. -/
def reportAll (rs : List Record) (next : Session) : Session := rs.foldr .report next

/-- Runs a session to its end. -/
def run {σ : Type} (store : Store σ) (path : Path) : Session → σ → Result σ
  | .done o, s => ⟨s, [], .ok o⟩
  | .raise f, s => ⟨s, [], .error f⟩
  | .report r next, s => (run store path next s).after [r]
  | .probe next, s => run store path (next (store.holds s path)) s
  | .read next, s => run store path (next (store.read s path)) s
  | .write text next, s =>
    match store.write s path text with
    | .error f => run store path (next (.error f)) s
    | .ok s' => (run store path (next (.ok ())) s').after (store.wrote path)
  | .remove next, s =>
    match store.remove s path with
    | .error f => run store path (next (.error f)) s
    | .ok s' => (run store path (next (.ok ())) s').after (store.removed path)

end Session

end Unflag
