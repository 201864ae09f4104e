/-
One file step: what a worker says of its file, and what it has done to it.

A worker can touch a file only through the calls of its session, and `calls` writes them
down with their answers. Two facts hold of every session, whoever wrote it. A run without a
call that changed something ends in the state it started from (`state_of_calls`), and on a
store that is a table the file in the end is what the calls make of it, while every other
file is what it was (`get_state_of_run`).

What is left is to know the calls. `Ending` lists the ways in which a step can end, each with
its calls and its outcome. Both workers end in one of them and differ in what they make of a
text alone (`ending_source`, `ending_chains`), so what an outcome says of the store is read
off the list once.
-/
import Mathlib.Logic.Function.Basic
import Unflag.MemoryStore
import Unflag.Worker

set_option autoImplicit false

namespace Unflag

/-! ## Calls -/

/-- A call of a session on its file, with the answer. -/
inductive Call where
  | read (answer : Except Fault Text)
  | write (text : Text) (answer : Except Fault Unit)
  | remove (answer : Except Fault Unit)

namespace Call

/-- Whether a call changed something. -/
def isChange : Call → Bool
  | .read _ => false
  | .write _ answer => answer.isOk
  | .remove answer => answer.isOk

/-- What a call makes of a table. -/
def apply (path : Path) (table : Path → Option Text) : Call → Path → Option Text
  | .write text (.ok _) => Function.update table path (some text)
  | .remove (.ok _) => Function.update table path none
  | _ => table

end Call

/-- A store is a table: every path has a text or none, a call that succeeds does what its
name says to its own path, and nothing is said of calls that fail. -/
structure Store.IsTable {σ : Type} (store : Store σ) (get : σ → Path → Option Text) : Prop where
  holds : ∀ s path, store.holds s path = .ok (get s path).isSome
  read : ∀ s path text, store.read s path = .ok text → get s path = some text
  write : ∀ s path text s', store.write s path text = .ok s' →
    get s' = Function.update (get s) path (some text)
  remove : ∀ s path s', store.remove s path = .ok s' → get s' = Function.update (get s) path none

namespace Session

variable {σ : Type} (store : Store σ) (path : Path)

/-- The calls of a run, in order. -/
def calls : Session → σ → List Call
  | .done _, _ => []
  | .raise _, _ => []
  | .report _ next, s => calls next s
  | .probe next, s => calls (next (store.holds s path)) s
  | .read next, s => .read (store.read s path) :: calls (next (store.read s path)) s
  | .write text next, s =>
    match store.write s path text with
    | .error f => .write text (.error f) :: calls (next (.error f)) s
    | .ok s' => .write text (.ok ()) :: calls (next (.ok ())) s'
  | .remove next, s =>
    match store.remove s path with
    | .error f => .remove (.error f) :: calls (next (.error f)) s
    | .ok s' => .remove (.ok ()) :: calls (next (.ok ())) s'

/-- Records are no calls, -/
theorem calls_reportAll (rs : List Record) (next : Session) (s : σ) :
    (reportAll rs next).calls store path s = next.calls store path s := by
  induction rs with
  | nil => rfl
  | cons r rs ih => exact ih

/-- and they change no outcome. -/
theorem outcome_reportAll (rs : List Record) (next : Session) (s : σ) :
    ((reportAll rs next).run store path s).outcome = (next.run store path s).outcome := by
  induction rs with
  | nil => rfl
  | cons r rs ih => exact ih

/-- **A run that changed nothing** ends where it started. -/
theorem state_of_calls (session : Session) (s : σ)
    (h : ∀ c ∈ session.calls store path s, c.isChange = false) :
    (session.run store path s).state = s := by
  induction session generalizing s with
  | done o => rfl
  | raise f => rfl
  | report r next ih => exact ih s h
  | probe next ih => exact ih _ s h
  | read next ih => exact ih _ s (List.forall_mem_cons.mp h).2
  | write text next ih =>
      rw [calls] at h
      rw [run]
      cases hwrite : store.write s path text with
      | error f =>
          rw [hwrite] at h
          exact ih _ s (List.forall_mem_cons.mp h).2
      | ok s' =>
          rw [hwrite] at h
          exact absurd (List.forall_mem_cons.mp h).1 Bool.false_ne_true.symm
  | remove next ih =>
      rw [calls] at h
      rw [run]
      cases hremove : store.remove s path with
      | error f =>
          rw [hremove] at h
          exact ih _ s (List.forall_mem_cons.mp h).2
      | ok s' =>
          rw [hremove] at h
          exact absurd (List.forall_mem_cons.mp h).1 Bool.false_ne_true.symm

variable {store}

/-- **A run does what its calls do**, to its own path and to no other. -/
theorem get_state_of_run {get : σ → Path → Option Text} (hstore : store.IsTable get)
    (session : Session) (s : σ) :
    get (session.run store path s).state
      = (session.calls store path s).foldl (Call.apply path) (get s) := by
  induction session generalizing s with
  | done o => rfl
  | raise f => rfl
  | report r next ih => exact ih s
  | probe next ih => exact ih _ s
  | read next ih => exact ih _ s
  | write text next ih =>
      rw [calls, run]
      cases hwrite : store.write s path text with
      | error f => exact ih _ s
      | ok s' =>
          rw [List.foldl_cons, Call.apply, ← hstore.write s path text s' hwrite]
          exact ih _ s'
  | remove next ih =>
      rw [calls, run]
      cases hremove : store.remove s path with
      | error f => exact ih _ s
      | ok s' =>
          rw [List.foldl_cons, Call.apply, ← hstore.remove s path s' hremove]
          exact ih _ s'

/-- No session touches another path than its own. -/
theorem get_state_of_ne {get : σ → Path → Option Text} (hstore : store.IsTable get)
    (session : Session) (s : σ) {q : Path} (hq : q ≠ path) :
    get (session.run store path s).state q = get s q := by
  have happly : ∀ (cs : List Call) (table : Path → Option Text),
      cs.foldl (Call.apply path) table q = table q := by
    intro cs
    induction cs with
    | nil => exact fun table => rfl
    | cons c cs ih =>
        intro table
        rw [List.foldl_cons, ih]
        unfold Call.apply
        split
        · exact Function.update_of_ne hq _ _
        · exact Function.update_of_ne hq _ _
        · rfl
  rw [get_state_of_run path hstore, happly]

end Session

/-! ## The ways a step can end -/

/-- The ways in which an edit is carried out on the file it was made for, with the calls and
the outcome. Only a fault that the call is known for becomes an outcome. -/
inductive CarriedOut (path : Path) :
    Bool → Except Edit.Fault Edit → List Call → Except Fault Outcome → Prop
  | malformed (dryRun : Bool) (f : Failure) (reason : String) :
    CarriedOut path dryRun (.error (.refused (.malformed f))) []
      (.ok (.failure path .parseFailure reason))
  | broken (dryRun : Bool) (f : Failure) (reason : String) :
    CarriedOut path dryRun (.error (.broken f)) [] (.ok (.failure path .transformFailure reason))
  | raised (dryRun : Bool) (f : Fault) :
    CarriedOut path dryRun (.error (.refused (.fault f))) [] (.error f)
  | untouched (dryRun : Bool) :
    CarriedOut path dryRun (.ok .untouched) [] (.ok (.settled path .unchanged))
  | planned (new : Text) (isEmpty : Bool) :
    CarriedOut path true (.ok (.rewritten new isEmpty)) []
      (.ok (.planned path (if isEmpty then .deleted else .written)))
  | written (new : Text) :
    CarriedOut path false (.ok (.rewritten new false)) [.write new (.ok ())]
      (.ok (.settled path .written))
  | unwritable (new : Text) (f : Fault) (hf : f.family = .system ∨ f.family = .encoding) :
    CarriedOut path false (.ok (.rewritten new false)) [.write new (.error f)]
      (.ok (.failure path .writeFailure f.text))
  | writeRaised (new : Text) (f : Fault) (hf : ¬ (f.family = .system ∨ f.family = .encoding)) :
    CarriedOut path false (.ok (.rewritten new false)) [.write new (.error f)] (.error f)
  | deleted (new : Text) :
    CarriedOut path false (.ok (.rewritten new true)) [.remove (.ok ())]
      (.ok (.settled path .deleted))
  | undeletable (new : Text) (f : Fault) (hf : f.family = .system) :
    CarriedOut path false (.ok (.rewritten new true)) [.remove (.error f)]
      (.ok (.failure path .deleteFailure f.text))
  | removeRaised (new : Text) (f : Fault) (hf : f.family ≠ .system) :
    CarriedOut path false (.ok (.rewritten new true)) [.remove (.error f)] (.error f)

/-- The text without its chains, as an edit. It never asks for a file to be deleted. -/
def Chain.edit (flag text : Text) : Edit :=
  if (Chain.clean flag text).1 = text then .untouched
  else .rewritten (Chain.clean flag text).1 false

theorem Chain.clean_of_edit {flag text new : Text} {isEmpty : Bool}
    (h : Chain.edit flag text = .rewritten new isEmpty) :
    new = (Chain.clean flag text).1 ∧ new ≠ text ∧ isEmpty = false := by
  unfold Chain.edit at h
  split at h
  · exact absurd h (by simp)
  · next hne =>
    cases h
    exact ⟨rfl, hne, rfl⟩

section Endings

variable {σ : Type} (store : Store σ) (edit : Text → Except Edit.Fault Edit) (dryRun : Bool)
  (path : Path) (s : σ)

/-- The ways in which a step can end; `edit` is what becomes of a text. -/
inductive Ending : List Call → Except Fault Outcome → Prop
  | probeRaised (f : Fault) (hholds : store.holds s path = .error f) : Ending [] (.error f)
  | absent (reason : String) (hholds : store.holds s path = .ok false) :
    Ending [] (.ok (.failure path .notFound reason))
  | unreadable (f : Fault) (hholds : store.holds s path = .ok true)
    (hread : store.read s path = .error f) (hf : f.family = .system ∨ f.family = .decoding) :
    Ending [.read (.error f)] (.ok (.failure path .readFailure f.text))
  | readRaised (f : Fault) (hholds : store.holds s path = .ok true)
    (hread : store.read s path = .error f) (hf : ¬ (f.family = .system ∨ f.family = .decoding)) :
    Ending [.read (.error f)] (.error f)
  | opened (text : Text) (e : Except Edit.Fault Edit) (calls : List Call)
    (outcome : Except Fault Outcome) (hholds : store.holds s path = .ok true)
    (hread : store.read s path = .ok text) (hedit : edit text = e)
    (hcarried : CarriedOut path dryRun e calls outcome) :
    Ending (.read (.ok text) :: calls) outcome

variable {store edit dryRun path s}

/-- A fault in the end makes no calls, -/
theorem calls_of_fault (isKnown : Bool) (kind : ErrorKind) (message reason : String) (f : Fault) :
    (if isKnown then Worker.fail path kind message reason else Session.raise f).calls store path s
      = [] := by
  cases isKnown <;> rfl

/-- and becomes an outcome if it is a known one. -/
theorem outcome_of_fault (isKnown : Bool) (kind : ErrorKind) (message reason : String) (f : Fault) :
    ((if isKnown then Worker.fail path kind message reason else Session.raise f).run
      store path s).outcome = if isKnown then .ok (.failure path kind reason) else .error f := by
  cases isKnown <;> rfl

/-- A file that was opened: what is left is to carry out the edit. -/
theorem ending_opening {next : Text → Session}
    (h : ∀ text, CarriedOut path dryRun (edit text) ((next text).calls store path s)
      ((next text).run store path s).outcome) :
    Ending store edit dryRun path s ((Worker.opening path next).calls store path s)
      ((Worker.opening path next).run store path s).outcome := by
  cases hholds : store.holds s path with
  | error f =>
      simp only [Worker.opening, Session.calls, Session.run, hholds]
      exact .probeRaised f hholds
  | ok there =>
      cases there with
      | false =>
          simp only [Worker.opening, Session.calls, Session.run, hholds]
          exact .absent _ hholds
      | true =>
          simp only [Worker.opening, Session.calls, Session.run, hholds]
          cases hread : store.read s path with
          | ok text => exact .opened text _ _ _ hholds hread rfl (h text)
          | error f =>
              dsimp only
              rw [calls_of_fault, outcome_of_fault]
              split
              · next hf => exact .unreadable f hholds hread (by simpa using hf)
              · next hf => exact .readRaised f hholds hread (by simpa using hf)

theorem carriedOut_writing (new : Text) :
    CarriedOut path dryRun (.ok (.rewritten new false))
      ((Worker.writing dryRun path new).calls store path s)
      ((Worker.writing dryRun path new).run store path s).outcome := by
  cases dryRun with
  | true => exact .planned new false
  | false =>
      simp only [Worker.writing, Bool.false_eq_true, if_false, Session.calls, Session.run]
      cases store.write s path new with
      | ok s' => exact .written new
      | error f =>
          dsimp only
          rw [calls_of_fault, outcome_of_fault]
          split
          · next hf => exact .unwritable new f (by simpa using hf)
          · next hf => exact .writeRaised new f (by simpa using hf)

theorem carriedOut_deleting (new : Text) :
    CarriedOut path dryRun (.ok (.rewritten new true))
      ((Worker.deleting dryRun path).calls store path s)
      ((Worker.deleting dryRun path).run store path s).outcome := by
  cases dryRun with
  | true => exact .planned new true
  | false =>
      simp only [Worker.deleting, Bool.false_eq_true, if_false, Session.calls, Session.run]
      cases store.remove s path with
      | ok s' => exact .deleted new
      | error f =>
          dsimp only
          rw [calls_of_fault, outcome_of_fault]
          split
          · next hf => exact .undeletable new f (by simpa using hf)
          · next hf => exact .removeRaised new f (by simpa using hf)

/-- The worker that parses ends in one of the ways of its edit, -/
theorem ending_source (grouping : String) (flag : Text) :
    Ending store (Edit.ofSourceBy grouping flag) dryRun path s
      ((Worker.source grouping dryRun flag path).calls store path s)
      ((Worker.source grouping dryRun flag path).run store path s).outcome := by
  apply ending_opening
  intro text
  rw [Session.calls_reportAll, Session.outcome_reportAll]
  cases Edit.ofSourceBy grouping flag text with
  | error fault =>
      cases fault with
      | broken f => exact .broken dryRun f _
      | refused r =>
          cases r with
          | malformed f => exact .malformed dryRun f _
          | fault f => exact .raised dryRun f
  | ok e =>
      cases e with
      | untouched => exact .untouched dryRun
      | rewritten new isEmpty =>
          cases isEmpty with
          | true => exact carriedOut_deleting new
          | false => exact carriedOut_writing new

/-- and so does the worker that takes sources as text. -/
theorem ending_chains (flag : Text) :
    Ending store (fun text => .ok (Chain.edit flag text)) dryRun path s
      ((Worker.chains dryRun flag path).calls store path s)
      ((Worker.chains dryRun flag path).run store path s).outcome := by
  apply ending_opening
  intro text
  dsimp only
  unfold Chain.edit
  by_cases hsame : (Chain.clean flag text).1 = text
  · simp only [if_pos hsame, if_pos (beq_iff_eq.mpr hsame)]
    exact .untouched dryRun
  · simp only [if_neg hsame, if_neg (mt beq_iff_eq.mp hsame)]
    exact carriedOut_writing _

end Endings

/-! ## What the outcome says -/

/-- A step has failed, for a reason of this kind. -/
def FailsAs (outcome : Except Fault Outcome) (kind : ErrorKind) : Prop :=
  ∃ o, outcome = .ok o ∧ o.status = .failed ∧ o.error = some kind

@[simp] theorem not_failsAs_error (f : Fault) (kind : ErrorKind) : ¬ FailsAs (.error f) kind := by
  rintro ⟨o, ho, _⟩
  exact absurd ho (by simp)

@[simp] theorem failsAs_failure {path : Path} {kind kind' : ErrorKind} {reason : String} :
    FailsAs (.ok (.failure path kind reason)) kind' ↔ kind = kind' := by
  simp [FailsAs, Outcome.failure]

@[simp] theorem not_failsAs_settled {path : Path} {status : Status} {kind : ErrorKind} :
    ¬ FailsAs (.ok (.settled path status)) kind := by
  simp [FailsAs, Outcome.settled]

@[simp] theorem not_failsAs_planned {path : Path} {status : Status} {kind : ErrorKind} :
    ¬ FailsAs (.ok (.planned path status)) kind := by
  simp [FailsAs, Outcome.planned]

@[simp] theorem Outcome.changed_failure (path : Path) (kind : ErrorKind) (reason : String) :
    (Outcome.failure path kind reason).changed = false := rfl

@[simp] theorem Outcome.changed_unchanged (path : Path) :
    (Outcome.settled path .unchanged).changed = false := rfl

namespace CarriedOut

variable {path : Path} {dryRun : Bool} {e : Except Edit.Fault Edit} {calls : List Call}
  {outcome : Except Fault Outcome}

theorem failsAs_parseFailure_iff (h : CarriedOut path dryRun e calls outcome) :
    FailsAs outcome .parseFailure ↔ ∃ f, e = .error (.refused (.malformed f)) := by
  cases h <;> simp

theorem failsAs_transformFailure_iff (h : CarriedOut path dryRun e calls outcome) :
    FailsAs outcome .transformFailure ↔ ∃ f, e = .error (.broken f) := by
  cases h <;> simp

theorem failsAs_writeFailure_iff (h : CarriedOut path dryRun e calls outcome) :
    FailsAs outcome .writeFailure ↔ ∃ new f, Call.write new (.error f) ∈ calls
      ∧ (f.family = .system ∨ f.family = .encoding) := by
  cases h with
  | unwritable new f hf =>
      exact iff_of_true (failsAs_failure.mpr rfl) ⟨new, f, List.mem_singleton_self _, hf⟩
  | writeRaised new f hf =>
      refine iff_of_false (not_failsAs_error f _) ?_
      rintro ⟨_, _, hcall, hknown⟩
      cases List.mem_singleton.mp hcall
      exact hf hknown
  | _ => simp

theorem failsAs_deleteFailure_iff (h : CarriedOut path dryRun e calls outcome) :
    FailsAs outcome .deleteFailure ↔ ∃ f, Call.remove (.error f) ∈ calls
      ∧ f.family = .system := by
  cases h with
  | undeletable new f hf => simpa using hf
  | removeRaised new f hf => simpa using hf
  | _ => simp

theorem read_notMem (h : CarriedOut path dryRun e calls outcome) (answer : Except Fault Text) :
    Call.read answer ∉ calls := by
  cases h <;> simp

theorem not_failsAs_opening (h : CarriedOut path dryRun e calls outcome) :
    ¬ FailsAs outcome .notFound ∧ ¬ FailsAs outcome .readFailure := by
  cases h <;> simp

/-- The three ways for a file to be told of as written or deleted. -/
theorem changed_cases (h : CarriedOut path dryRun e calls outcome) {o : Outcome}
    (ho : outcome = .ok o) (hchanged : o.changed = true) :
    (∃ new isEmpty, dryRun = true ∧ e = .ok (.rewritten new isEmpty) ∧ calls = []
      ∧ o = .planned path (if isEmpty then .deleted else .written))
    ∨ (∃ new, dryRun = false ∧ e = .ok (.rewritten new false)
      ∧ calls = [.write new (.ok ())] ∧ o = .settled path .written)
    ∨ ∃ new, dryRun = false ∧ e = .ok (.rewritten new true)
      ∧ calls = [.remove (.ok ())] ∧ o = .settled path .deleted := by
  cases h with
  | planned new isEmpty =>
      cases ho
      exact .inl ⟨new, isEmpty, rfl, rfl, rfl, rfl⟩
  | written new =>
      cases ho
      exact .inr (.inl ⟨new, rfl, rfl, rfl, rfl⟩)
  | deleted new =>
      cases ho
      exact .inr (.inr ⟨new, rfl, rfl, rfl, rfl⟩)
  | raised | writeRaised | removeRaised => exact absurd ho (by simp)
  | _ =>
      cases ho
      exact absurd hchanged (by simp)

/-- What changes the file is told in the outcome, and no dry run does it. -/
theorem of_isChange (h : CarriedOut path dryRun e calls outcome) {c : Call} (hc : c ∈ calls)
    (hchange : c.isChange = true) :
    dryRun = false ∧ ∃ o, outcome = .ok o ∧ o.changed = true := by
  cases h with
  | written new => exact ⟨rfl, _, rfl, rfl⟩
  | deleted new => exact ⟨rfl, _, rfl, rfl⟩
  | unwritable new f hf | writeRaised new f hf | undeletable new f hf | removeRaised new f hf =>
      cases List.mem_singleton.mp hc
      exact absurd hchange Bool.false_ne_true
  | _ => exact absurd hc List.not_mem_nil

end CarriedOut

namespace Ending

variable {σ : Type} {store : Store σ} {edit : Text → Except Edit.Fault Edit} {dryRun : Bool}
  {path : Path} {s : σ} {calls : List Call} {outcome : Except Fault Outcome}

theorem failsAs_notFound_iff (h : Ending store edit dryRun path s calls outcome) :
    FailsAs outcome .notFound ↔ store.holds s path = .ok false := by
  cases h with
  | probeRaised f hholds => simp [hholds]
  | absent reason hholds => simpa using hholds
  | unreadable f hholds | readRaised f hholds => simp [hholds]
  | opened text e calls outcome hholds hread hedit hcarried =>
      simp [hholds, hcarried.not_failsAs_opening.1]

theorem failsAs_readFailure_iff (h : Ending store edit dryRun path s calls outcome) :
    FailsAs outcome .readFailure ↔ ∃ f, Call.read (.error f) ∈ calls
      ∧ (f.family = .system ∨ f.family = .decoding) := by
  cases h with
  | probeRaised f hholds => simp
  | absent reason hholds => simp
  | unreadable f hholds hread hf => simpa using hf
  | readRaised f hholds hread hf => simpa using hf
  | opened text e calls outcome hholds hread hedit hcarried =>
      simp [hcarried.not_failsAs_opening.2, hcarried.read_notMem]

/-- A failure of the edit is one of the edit of the text that was read. -/
theorem failsAs_iff_of_edit (h : Ending store edit dryRun path s calls outcome) {kind : ErrorKind}
    (hkind : kind ≠ .notFound ∧ kind ≠ .readFailure) {P : Except Edit.Fault Edit → Prop}
    (hedits : ∀ e calls outcome, CarriedOut path dryRun e calls outcome →
      (FailsAs outcome kind ↔ P e)) :
    FailsAs outcome kind ↔ ∃ text, Call.read (.ok text) ∈ calls ∧ P (edit text) := by
  cases h with
  | probeRaised f hholds => simp
  | absent reason hholds => simpa using hkind.1.symm
  | unreadable f hholds hread hf => simpa using hkind.2.symm
  | readRaised f hholds hread hf => simp
  | opened text e calls outcome hholds hread hedit hcarried =>
      simp [hedits e calls outcome hcarried, hcarried.read_notMem, hedit]

theorem failsAs_writeFailure_iff (h : Ending store edit dryRun path s calls outcome) :
    FailsAs outcome .writeFailure ↔ ∃ new f, Call.write new (.error f) ∈ calls
      ∧ (f.family = .system ∨ f.family = .encoding) := by
  cases h with
  | opened text e calls outcome hholds hread hedit hcarried =>
      simp [hcarried.failsAs_writeFailure_iff]
  | _ => simp

theorem failsAs_deleteFailure_iff (h : Ending store edit dryRun path s calls outcome) :
    FailsAs outcome .deleteFailure ↔ ∃ f, Call.remove (.error f) ∈ calls
      ∧ f.family = .system := by
  cases h with
  | opened text e calls outcome hholds hread hedit hcarried =>
      simp [hcarried.failsAs_deleteFailure_iff]
  | _ => simp

/-- Only a file that was read is told of as written or deleted. -/
theorem opened_of_changed (h : Ending store edit dryRun path s calls outcome) {o : Outcome}
    (ho : outcome = .ok o) (hchanged : o.changed = true) :
    ∃ text rest, store.read s path = .ok text ∧ calls = .read (.ok text) :: rest
      ∧ CarriedOut path dryRun (edit text) rest outcome := by
  cases h with
  | opened text e rest outcome hholds hread hedit hcarried =>
      exact ⟨text, rest, hread, rfl, hedit ▸ hcarried⟩
  | probeRaised | readRaised => exact absurd ho (by simp)
  | _ =>
      cases ho
      exact absurd hchanged (by simp)

/-- What changes the file is told in the outcome, and no dry run does it. -/
theorem of_isChange (h : Ending store edit dryRun path s calls outcome) {c : Call}
    (hc : c ∈ calls) (hchange : c.isChange = true) :
    dryRun = false ∧ ∃ o, outcome = .ok o ∧ o.changed = true := by
  cases h with
  | probeRaised | absent => exact absurd hc List.not_mem_nil
  | unreadable | readRaised =>
      cases List.mem_singleton.mp hc
      exact absurd hchange Bool.false_ne_true
  | opened text e calls outcome hholds hread hedit hcarried =>
      rcases List.mem_cons.mp hc with rfl | hc
      · exact absurd hchange Bool.false_ne_true
      · exact hcarried.of_isChange hc hchange

/-- A step that is only planned, or that tells of no change, ends where it started. -/
theorem state_eq_of_unchanged {session : Session}
    (h : Ending store edit dryRun path s (session.calls store path s)
      (session.run store path s).outcome)
    (hend : dryRun = true ∨ ∀ o, (session.run store path s).outcome = .ok o → o.changed = false) :
    (session.run store path s).state = s := by
  apply Session.state_of_calls
  intro c hc
  by_contra hchange
  rw [Bool.not_eq_false] at hchange
  obtain ⟨hdry, o, ho, hchanged⟩ := h.of_isChange hc hchange
  rcases hend with htrue | houtcome
  · exact absurd (htrue.symm.trans hdry) (by simp)
  · exact absurd hchanged (by simp [houtcome o ho])

/-- Without a new text nothing is changed, and nothing is told of as changed. -/
theorem unchanged_of_no_edit {session : Session}
    (h : Ending store edit dryRun path s (session.calls store path s)
      (session.run store path s).outcome)
    (hnone : ∀ text, store.read s path = .ok text → ∀ new isEmpty,
      edit text ≠ .ok (.rewritten new isEmpty)) :
    (session.run store path s).state = s
      ∧ ∀ o, (session.run store path s).outcome = .ok o → o.changed = false := by
  have houtcome : ∀ o, (session.run store path s).outcome = .ok o → o.changed = false := by
    intro o ho
    by_contra hchanged
    rw [Bool.not_eq_false] at hchanged
    obtain ⟨text, rest, hread, _, hcarried⟩ := h.opened_of_changed ho hchanged
    rcases hcarried.changed_cases ho hchanged with
      ⟨new, isEmpty, _, hedit, _⟩ | ⟨new, _, hedit, _⟩ | ⟨new, _, hedit, _⟩
    · exact hnone text hread new isEmpty hedit
    · exact hnone text hread new false hedit
    · exact hnone text hread new true hedit
  exact ⟨h.state_eq_of_unchanged (.inr houtcome), houtcome⟩

end Ending

/-! ## Outcome and store -/

/-- The outcome of a step and the store agree. The step made the calls `calls`, and `edit` is
what becomes of a text. -/
structure StepAgrees {σ : Type} (get : σ → Path → Option Text)
    (edit : Text → Except Edit.Fault Edit) (dryRun : Bool) (path : Path) (s : σ)
    (calls : List Call) (r : Session.Result σ) : Prop where
  others : ∀ q, q ≠ path → get r.state q = get s q
  /-- A file that was written holds the new text of the edit. -/
  written : ∀ o, r.outcome = .ok o → o.status = .written → o.applied = true →
    ∃ text new, get s path = some text ∧ edit text = .ok (.rewritten new false)
      ∧ get r.state path = some new
  /-- A file that was deleted is gone, and its edit asked for that. -/
  deleted : ∀ o, r.outcome = .ok o → o.status = .deleted → o.applied = true →
    ∃ text new, get s path = some text ∧ edit text = .ok (.rewritten new true)
      ∧ get r.state path = none
  /-- Any other end, and any end of a dry run, leaves the store as it was. -/
  untouched : dryRun = true ∨ (∃ f, r.outcome = .error f)
      ∨ (∃ o, r.outcome = .ok o ∧ (o.status = .unchanged ∨ o.status = .failed)) → r.state = s
  applied : ∀ o, r.outcome = .ok o → o.status = .written ∨ o.status = .deleted →
    o.applied = !dryRun
  notFound : FailsAs r.outcome .notFound ↔ get s path = none
  readFailure : FailsAs r.outcome .readFailure ↔
    ∃ f, Call.read (.error f) ∈ calls ∧ (f.family = .system ∨ f.family = .decoding)
  parseFailure : FailsAs r.outcome .parseFailure ↔
    ∃ text, Call.read (.ok text) ∈ calls ∧ ∃ f, edit text = .error (.refused (.malformed f))
  transformFailure : FailsAs r.outcome .transformFailure ↔
    ∃ text, Call.read (.ok text) ∈ calls ∧ ∃ f, edit text = .error (.broken f)
  writeFailure : FailsAs r.outcome .writeFailure ↔
    ∃ new f, Call.write new (.error f) ∈ calls ∧ (f.family = .system ∨ f.family = .encoding)
  deleteFailure : FailsAs r.outcome .deleteFailure ↔
    ∃ f, Call.remove (.error f) ∈ calls ∧ f.family = .system

theorem Outcome.changed_iff (o : Outcome) :
    o.changed = true ↔ o.status = .written ∨ o.status = .deleted := by
  simp [Outcome.changed]

section Agreement

variable {σ : Type} {store : Store σ} {get : σ → Path → Option Text}
  {edit : Text → Except Edit.Fault Edit} {dryRun : Bool} {path : Path} {s : σ} {session : Session}

/-- What stands at the path of a file that is told of as written or deleted. -/
theorem Ending.get_of_changed (hstore : store.IsTable get)
    (h : Ending store edit dryRun path s (session.calls store path s)
      (session.run store path s).outcome)
    {o : Outcome} (ho : (session.run store path s).outcome = .ok o) (hchanged : o.changed = true) :
    ∃ text new isEmpty, get s path = some text ∧ edit text = .ok (.rewritten new isEmpty)
      ∧ o.status = (if isEmpty then .deleted else .written) ∧ o.applied = !dryRun
      ∧ (dryRun = false →
          get (session.run store path s).state path = if isEmpty then none else some new) := by
  obtain ⟨text, rest, hread, hcalls, hcarried⟩ := h.opened_of_changed ho hchanged
  have hbefore := hstore.read s path text hread
  rcases hcarried.changed_cases ho hchanged with
    ⟨new, isEmpty, rfl, hedit, _, rfl⟩ | ⟨new, rfl, hedit, hrest, rfl⟩
      | ⟨new, rfl, hedit, hrest, rfl⟩
  · refine ⟨text, new, isEmpty, hbefore, hedit, rfl, rfl, ?_⟩
    intro hdry
    exact absurd hdry Bool.false_ne_true.symm
  · refine ⟨text, new, false, hbefore, hedit, rfl, rfl, ?_⟩
    intro _
    rw [Session.get_state_of_run path hstore, hcalls, hrest]
    exact Function.update_self path _ _
  · refine ⟨text, new, true, hbefore, hedit, rfl, rfl, ?_⟩
    intro _
    rw [Session.get_state_of_run path hstore, hcalls, hrest]
    exact Function.update_self path _ _

/-- A session that ends in one of the ways of its edit tells what it has done. -/
theorem Ending.stepAgrees (hstore : store.IsTable get)
    (h : Ending store edit dryRun path s (session.calls store path s)
      (session.run store path s).outcome) :
    StepAgrees get edit dryRun path s (session.calls store path s) (session.run store path s) where
  others q hq := Session.get_state_of_ne path hstore session s hq
  written o ho hstatus happlied := by
    obtain ⟨text, new, isEmpty, hbefore, hedit, hkind, hdry, hafter⟩ :=
      h.get_of_changed hstore ho (o.changed_iff.mpr (.inl hstatus))
    rw [happlied, Bool.true_eq, Bool.not_eq_true'] at hdry
    cases isEmpty with
    | true => exact absurd (hstatus.symm.trans hkind) (by simp)
    | false => exact ⟨text, new, hbefore, hedit, hafter hdry⟩
  deleted o ho hstatus happlied := by
    obtain ⟨text, new, isEmpty, hbefore, hedit, hkind, hdry, hafter⟩ :=
      h.get_of_changed hstore ho (o.changed_iff.mpr (.inr hstatus))
    rw [happlied, Bool.true_eq, Bool.not_eq_true'] at hdry
    cases isEmpty with
    | true => exact ⟨text, new, hbefore, hedit, hafter hdry⟩
    | false => exact absurd (hstatus.symm.trans hkind) (by simp)
  untouched hend := by
    apply h.state_eq_of_unchanged
    rcases hend with hdry | ⟨f, hf⟩ | ⟨o, ho, hstatus⟩
    · exact .inl hdry
    · refine .inr fun o ho => ?_
      exact absurd (hf.symm.trans ho) (by simp)
    · refine .inr fun o' ho' => ?_
      obtain rfl : o = o' := Except.ok.inj (ho.symm.trans ho')
      rcases hstatus with hstatus | hstatus
      · simp [Outcome.changed, hstatus]
      · simp [Outcome.changed, hstatus]
  applied o ho hstatus := by
    obtain ⟨_, _, _, _, _, _, happlied, _⟩ :=
      h.get_of_changed hstore ho (o.changed_iff.mpr hstatus)
    exact happlied
  notFound := by
    rw [h.failsAs_notFound_iff, hstore.holds, Except.ok.injEq, Option.isSome_eq_false_iff,
      Option.isNone_iff_eq_none]
  readFailure := h.failsAs_readFailure_iff
  parseFailure := h.failsAs_iff_of_edit (by simp) fun _ _ _ hcarried =>
    hcarried.failsAs_parseFailure_iff
  transformFailure := h.failsAs_iff_of_edit (by simp) fun _ _ _ hcarried =>
    hcarried.failsAs_transformFailure_iff
  writeFailure := h.failsAs_writeFailure_iff
  deleteFailure := h.failsAs_deleteFailure_iff

end Agreement

/-! ## Tables -/

section Tables

variable {α β : Type} [BEq α] [LawfulBEq α] [DecidableEq α]

theorem lookup_cons_eq_ite (q : α) (e : α × β) (r : List (α × β)) :
    (e :: r).lookup q = if q = e.1 then some e.2 else r.lookup q := by
  by_cases hq : q = e.1
  · rw [if_pos hq, hq, List.lookup_cons_self]
  · rw [if_neg hq, List.lookup_cons, beq_false_of_ne hq]

/-- A table in which a value was put at a key: the value takes the place of the first entry of
the key, or comes last. -/
theorem lookup_of_put {k : α} {v : β} (put : List (α × β) → List (α × β)) (hnil : put [] = [(k, v)])
    (hcons : ∀ e r, put (e :: r) = if e.1 = k then (k, v) :: r else e :: put r)
    (l : List (α × β)) (q : α) : (put l).lookup q = if q = k then some v else l.lookup q := by
  induction l with
  | nil =>
      rw [hnil]
      exact lookup_cons_eq_ite q (k, v) []
  | cons e r ih =>
      by_cases he : e.1 = k
      · rw [hcons, if_pos he, lookup_cons_eq_ite, lookup_cons_eq_ite, he]
        by_cases hq : q = k
        · rw [if_pos hq, if_pos hq]
        · rw [if_neg hq, if_neg hq, if_neg hq]
      · rw [hcons, if_neg he, lookup_cons_eq_ite, lookup_cons_eq_ite, ih]
        by_cases hq : q = k
        · rw [if_pos hq, if_pos hq, if_neg (hq ▸ Ne.symm he)]
        · rw [if_neg hq, if_neg hq]

/-- A table without the entries of a key. -/
theorem lookup_filter_ne (k : α) (l : List (α × β)) (q : α) :
    (l.filter fun e => e.1 != k).lookup q = if q = k then none else l.lookup q := by
  induction l with
  | nil => simp
  | cons e r ih =>
      by_cases he : e.1 = k
      · rw [List.filter_cons_of_neg (by simpa using he), ih, lookup_cons_eq_ite, he]
        by_cases hq : q = k
        · rw [if_pos hq, if_pos hq]
        · rw [if_neg hq, if_neg hq, if_neg hq]
      · rw [List.filter_cons_of_pos (by simpa using he), lookup_cons_eq_ite, lookup_cons_eq_ite, ih]
        by_cases hq : q = k
        · rw [if_pos hq, if_pos hq, if_neg (hq ▸ Ne.symm he)]
        · rw [if_neg hq, if_neg hq]

end Tables

namespace MemoryStore

/-- The text at a path of a table. -/
def get (m : MemoryStore) (path : Path) : Option Text := m.files.lookup path

theorem lookup_putFile (path : Path) (text : Text) (files : List (Path × Text)) (q : Path) :
    (putFile path text files).lookup q = if q = path then some text else files.lookup q :=
  lookup_of_put (putFile path text) rfl (fun _ _ => rfl) files q

/-- The table in memory is a table, whatever its faults are. -/
theorem isTable_store : store.IsTable get where
  holds m path := rfl
  read m path text h := by
    simp only [store] at h
    split at h
    · exact absurd h (by simp)
    · split at h
      · next found hfound =>
        cases h
        exact hfound
      · exact absurd h (by simp)
  write m path text m' h := by
    simp only [store] at h
    split at h
    · exact absurd h (by simp)
    · cases h
      funext q
      rw [Function.update_apply]
      exact lookup_putFile path text m.files q
  remove m path m' h := by
    simp only [store] at h
    split at h
    · exact absurd h (by simp)
    · split at h
      · cases h
        funext q
        rw [Function.update_apply]
        exact lookup_filter_ne path m.files q
      · exact absurd h (by simp)

end MemoryStore

/-- **Outcome and store agree**, for both workers, whatever the store holds, whatever its
calls end in, and in dry runs as well. The worker that takes sources as text never tells of a
deletion. -/
theorem outcome_agrees_with_store {σ : Type} {store : Store σ} {get : σ → Path → Option Text}
    (hstore : store.IsTable get) (s : σ) (path : Path) (flag : Text) (dryRun : Bool) :
    (∀ grouping, StepAgrees get (Edit.ofSourceBy grouping flag) dryRun path s
      ((Worker.source grouping dryRun flag path).calls store path s)
      ((Worker.source grouping dryRun flag path).run store path s))
    ∧ StepAgrees get (fun text => .ok (Chain.edit flag text)) dryRun path s
      ((Worker.chains dryRun flag path).calls store path s)
      ((Worker.chains dryRun flag path).run store path s)
    ∧ ∀ o, ((Worker.chains dryRun flag path).run store path s).outcome = .ok o →
        o.status ≠ .deleted := by
  refine ⟨fun grouping => (ending_source grouping flag).stepAgrees hstore,
    (ending_chains flag).stepAgrees hstore, ?_⟩
  intro o ho hstatus
  have hchanged := o.changed_iff.mpr (.inr hstatus)
  obtain ⟨text, new, isEmpty, _, hedit, hkind, _⟩ :=
    (ending_chains flag).get_of_changed hstore ho hchanged
  obtain ⟨_, _, rfl⟩ := Chain.clean_of_edit (Except.ok.inj hedit)
  exact absurd (hstatus.symm.trans hkind) (by simp)

/-- A store that refuses to write: the step fails, and the file is what it was. -/
theorem outcome_agrees_with_store_memory :
    ∃ path text fault, text = "#if A\nlet a = 1\n#endif\n".toList
      ∧ fault = (⟨.system, "OSError", "disk full"⟩ : Fault)
      ∧ ((Worker.source "sequential" false "A".toList path).run MemoryStore.store path
          ⟨[(path, text)], none, some fault, none⟩).outcome.toOption
        = some (.failure path .writeFailure "disk full")
      ∧ StepAgrees MemoryStore.get (Edit.ofSourceBy "sequential" "A".toList) false path
          ⟨[(path, text)], none, some fault, none⟩
          ((Worker.source "sequential" false "A".toList path).calls MemoryStore.store path
            ⟨[(path, text)], none, some fault, none⟩)
          ((Worker.source "sequential" false "A".toList path).run MemoryStore.store path
            ⟨[(path, text)], none, some fault, none⟩) := by
  refine ⟨⟨.root, ["a.swift".toList]⟩, _, _, rfl, rfl, by decide +kernel, ?_⟩
  exact (outcome_agrees_with_store MemoryStore.isTable_store _ _ _ false).1 "sequential"

end Unflag
