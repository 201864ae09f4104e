/-
Many workers at a time.

A pool has a job for every file of a batch. A job waits until one of the workers is free, then
takes the steps of its session one by one on the store that all jobs share, and is finished; and
whoever collects the outcomes records the finished jobs one by one. `Pool.Step` lets any job move
that can, so a run of the pool is an arbitrary interleaving of the steps, and the outcomes are
recorded in an arbitrary order of completion.

On a separate store nothing of this can be seen in the end. What a job would still do if it were
left alone from now on, how it would end and in how many steps, does not change when another job
moves, for it depends on the cell of its own path alone; and when the job moves itself, it has
done one of these steps. That is the invariant of every run (`IsOnCourse`), and the number of
steps that are left shrinks with every move, so every run ends and ends as the serial run does.
-/
import Mathlib.Algebra.GroupWithZero.Nat
import Mathlib.Algebra.Order.BigOperators.Group.List
import Mathlib.Algebra.Order.Group.Nat
import Mathlib.Logic.Relation
import Unflag.Proofs.Separation

set_option autoImplicit false

namespace Unflag

/-! ## Pools -/

/-- How far the work on a file has come. -/
inductive Job where
  | waiting
  | running (session : Session)
  | finished (outcome : Except Fault Outcome)
  /-- The outcome has been collected. -/
  | recorded

/-- Whether a job keeps a worker busy. -/
def Job.isRunning : Job → Bool
  | .running _ => true
  | _ => false

/-- The store that all jobs share, the jobs by path, and the outcomes collected so far, in the
order in which the jobs were recorded. -/
structure Pool (σ : Type) where
  state : σ
  jobs : Path → Job
  ledger : Ledger

namespace Pool

variable {σ : Type}

/-- A pool in which nothing has been done yet. -/
def start (s : σ) : Pool σ := ⟨s, fun _ => .waiting, []⟩

/-- The number of workers that are busy. -/
def busy (paths : List Path) (pool : Pool σ) : Nat :=
  (paths.filter fun p => (pool.jobs p).isRunning).length

/-- The pool with another job at a path. -/
def withJob (pool : Pool σ) (p : Path) (job : Job) : Pool σ :=
  { pool with jobs := Function.update pool.jobs p job }

/-- One move of a pool with so many workers. -/
inductive Step (store : Store σ) (work : Path → Session) (paths : List Path) (workers : Nat) :
    Pool σ → Pool σ → Prop
  /-- A worker that is free takes up a job. -/
  | take (pool : Pool σ) (p : Path) (hp : p ∈ paths) (hjob : pool.jobs p = .waiting)
    (hfree : pool.busy paths < workers) :
    Step store work paths workers pool (pool.withJob p (.running (work p)))
  /-- A job takes a step of its session. -/
  | advance (pool : Pool σ) (p : Path) (session session' : Session) (s' : σ) (hp : p ∈ paths)
    (hjob : pool.jobs p = .running session)
    (hstep : session.step? store p pool.state = some (session', s')) :
    Step store work paths workers pool { pool.withJob p (.running session') with state := s' }
  /-- A session has ended, and its worker is free again. -/
  | finish (pool : Pool σ) (p : Path) (session : Session) (outcome : Except Fault Outcome)
    (hp : p ∈ paths) (hjob : pool.jobs p = .running session)
    (hending : session.ending? = some outcome) :
    Step store work paths workers pool (pool.withJob p (.finished outcome))
  /-- The outcome of a finished job is collected. -/
  | record (pool : Pool σ) (p : Path) (outcome : Except Fault Outcome) (hp : p ∈ paths)
    (hjob : pool.jobs p = .finished outcome) :
    Step store work paths workers pool
      { pool.withJob p .recorded with
        ledger := pool.ledger.put p (Batch.settle p outcome).1 }

/-- Every outcome has been collected. -/
def IsDone (paths : List Path) (pool : Pool σ) : Prop := ∀ p ∈ paths, pool.jobs p = .recorded

/-- The pools that a run of moves can lead to. -/
def Reachable (store : Store σ) (work : Path → Session) (paths : List Path) (workers : Nat)
    (s : σ) (pool : Pool σ) : Prop :=
  Relation.ReflTransGen (Step store work paths workers) (start s) pool

end Pool

namespace Batch

/-- The outcomes of a ledger in the order of these paths. -/
def inOrder (paths : List Path) (l : Ledger) : Ledger :=
  paths.filterMap fun p => (l.lookup p).map fun o => (p, o)

/-- What a batch with so many workers can end in: the state it leaves, and its outcomes. With one
worker, or with one file, the files are worked through one after the other. -/
inductive Gives {σ : Type} (store : Store σ) (work : Path → Session) (paths : List Path) (s : σ)
    (workers : Int) : σ → Ledger → Prop
  | serial (hfew : workers ≤ 1 ∨ paths.length ≤ 1) :
    Gives store work paths s workers (run (fun p => (work p).run store p) paths s).state
      (run (fun p => (work p).run store p) paths s).ledger
  | pooled (hmany : ¬ (workers ≤ 1 ∨ paths.length ≤ 1)) (pool : Pool σ)
    (hreach : pool.Reachable store work paths workers.toNat s) (hdone : pool.IsDone paths) :
    Gives store work paths s workers pool.state (inOrder paths pool.ledger)

end Batch

/-! ## The course of a job -/

section Course

variable {σ κ : Type} (store : Store σ) (cell : σ → Path → κ) (work : Path → Session)
  (paths : List Path) (s : σ)

/-- The job of a path will end, or has ended, as the session of the path ends alone on `s`. -/
def Pool.IsOnCourse (pool : Pool σ) (p : Path) : Prop :=
  match pool.jobs p with
  | .waiting => cell pool.state p = cell s p
  | .running session =>
    (session.run store p pool.state).outcome = ((work p).run store p s).outcome
      ∧ cell (session.run store p pool.state).state p = cell ((work p).run store p s).state p
  | .finished outcome =>
    outcome = ((work p).run store p s).outcome
      ∧ cell pool.state p = cell ((work p).run store p s).state p
  | .recorded =>
    pool.ledger.lookup p = some (Batch.aloneOutcome store work s p)
      ∧ cell pool.state p = cell ((work p).run store p s).state p

/-- The number of moves that a job has left. -/
def Job.left (p : Path) (t : σ) : Job → Nat
  | .waiting => (work p).length store p t + 3
  | .running session => session.length store p t + 2
  | .finished _ => 1
  | .recorded => 0

/-- The number of moves that a pool has left. -/
def Pool.left (pool : Pool σ) : Nat :=
  (paths.map fun p => (pool.jobs p).left store work p pool.state).sum

/-- The invariant of a run: every job is on its course, and no other file has been touched. -/
structure Pool.IsSound (ok : σ → Prop) (own : Path → Prop) (pool : Pool σ) : Prop where
  isOk : ok pool.state
  course : ∀ p ∈ paths, pool.IsOnCourse store cell work s p
  others : ∀ q, own q → q ∉ paths → cell pool.state q = cell s q

end Course

section Runs

variable {σ κ : Type} {store : Store σ} {ok : σ → Prop} {own : Path → Prop} {cell : σ → Path → κ}
  {work : Path → Session} {paths : List Path} {workers : Nat} {s : σ} {pool next : Pool σ}

namespace Pool

@[simp] theorem jobs_withJob_self (p : Path) (job : Job) : (pool.withJob p job).jobs p = job := by
  unfold withJob
  exact Function.update_self p job pool.jobs

theorem jobs_withJob_of_ne {p q : Path} (hne : q ≠ p) (job : Job) :
    (pool.withJob p job).jobs q = pool.jobs q := by
  unfold withJob
  exact Function.update_of_ne hne job pool.jobs

/-- **A move is the move of one job.** That job stays on its course and has less to do, and
nothing that another job can see has changed. -/
theorem Step.mover (hstore : store.IsSeparate ok own cell) (hown : ∀ p ∈ paths, own p)
    (hs : ok s) (hok : ok pool.state) (h : Step store work paths workers pool next) :
    ∃ p ∈ paths, ok next.state
      ∧ (pool.IsOnCourse store cell work s p → next.IsOnCourse store cell work s p)
      ∧ (next.jobs p).left store work p next.state < (pool.jobs p).left store work p pool.state
      ∧ ∀ q, q ≠ p → next.jobs q = pool.jobs q ∧ next.ledger.lookup q = pool.ledger.lookup q
          ∧ (own q → cell next.state q = cell pool.state q) := by
  cases h with
  | take p hp hjob hfree =>
      refine ⟨p, hp, hok, ?_, ?_, fun q hq => ⟨jobs_withJob_of_ne hq _, rfl, fun _ => rfl⟩⟩
      · -- its cell is as it was at the start, so the session comes to what it comes to alone
        intro hcourse
        simp only [IsOnCourse, hjob] at hcourse
        simp only [IsOnCourse, jobs_withJob_self]
        obtain ⟨houtcome, hcell, _⟩ := Session.run_congr hstore (hown p hp) (work p) hok hs hcourse
        exact ⟨houtcome, hcell⟩
      · rw [jobs_withJob_self, hjob, Job.left, Job.left]
        exact Nat.lt_succ_self _
  | advance p session session' s' hp hjob hstep =>
      obtain ⟨hok', hframe⟩ := Session.step?_frame hstore (hown p hp) hok hstep
      obtain ⟨houtcome, hstate, hlength⟩ := Session.run_of_step? hstep
      refine ⟨p, hp, hok', ?_, ?_, ?_⟩
      · intro hcourse
        simp only [IsOnCourse, hjob] at hcourse
        simp only [IsOnCourse, jobs_withJob_self]
        rw [← houtcome, ← hstate]
        exact hcourse
      · simp only [jobs_withJob_self]
        rw [hjob, Job.left, Job.left, hlength]
        omega
      · intro q hq
        exact ⟨jobs_withJob_of_ne hq _, rfl, fun hq' => hframe q hq' hq⟩
  | finish p session outcome hp hjob hending =>
      obtain ⟨houtcome, hstate, hlength⟩ := Session.run_of_ending? store p hending pool.state
      refine ⟨p, hp, hok, ?_, ?_, fun q hq => ⟨jobs_withJob_of_ne hq _, rfl, fun _ => rfl⟩⟩
      · intro hcourse
        simp only [IsOnCourse, hjob] at hcourse
        simp only [IsOnCourse, jobs_withJob_self]
        rw [houtcome, hstate] at hcourse
        exact hcourse
      · rw [jobs_withJob_self, hjob, Job.left, Job.left, hlength]
        omega
  | record p outcome hp hjob =>
      refine ⟨p, hp, hok, ?_, ?_, ?_⟩
      · intro hcourse
        simp only [IsOnCourse, hjob] at hcourse
        simp only [IsOnCourse, jobs_withJob_self]
        rw [Ledger.lookup_put, if_pos rfl, hcourse.1]
        exact ⟨rfl, hcourse.2⟩
      · simp only [jobs_withJob_self]
        rw [hjob, Job.left, Job.left]
        exact Nat.one_pos
      · intro q hq
        refine ⟨jobs_withJob_of_ne hq _, ?_, fun _ => rfl⟩
        rw [Ledger.lookup_put, if_neg hq]

/-- A job that does not move stays on its course, -/
theorem IsOnCourse.congr (hstore : store.IsSeparate ok own cell) {q : Path} (hq : own q)
    (hok : ok pool.state) (hok' : ok next.state) (hjob : next.jobs q = pool.jobs q)
    (hledger : next.ledger.lookup q = pool.ledger.lookup q)
    (hcell : cell next.state q = cell pool.state q)
    (hcourse : pool.IsOnCourse store cell work s q) : next.IsOnCourse store cell work s q := by
  unfold IsOnCourse at hcourse ⊢
  rw [hjob]
  cases hpool : pool.jobs q with
  | waiting =>
      rw [hpool] at hcourse
      exact hcell.trans hcourse
  | running session =>
      rw [hpool] at hcourse
      obtain ⟨houtcome, hend, _⟩ := Session.run_congr hstore hq session hok' hok hcell
      exact ⟨houtcome.trans hcourse.1, hend.trans hcourse.2⟩
  | finished outcome =>
      rw [hpool] at hcourse
      exact ⟨hcourse.1, hcell.trans hcourse.2⟩
  | recorded =>
      rw [hpool] at hcourse
      exact ⟨hledger.trans hcourse.1, hcell.trans hcourse.2⟩

/-- and has as much to do as before. -/
theorem left_congr (hstore : store.IsSeparate ok own cell) {q : Path} (hq : own q)
    (hok : ok pool.state) (hok' : ok next.state) (hcell : cell next.state q = cell pool.state q)
    (job : Job) : job.left store work q next.state = job.left store work q pool.state := by
  cases job with
  | waiting =>
      rw [Job.left, Job.left, (Session.run_congr hstore hq (work q) hok' hok hcell).2.2]
  | running session =>
      rw [Job.left, Job.left, (Session.run_congr hstore hq session hok' hok hcell).2.2]
  | finished outcome => rfl
  | recorded => rfl

/-- **Every move keeps the invariant, and less is left to do.** -/
theorem IsSound.step (hstore : store.IsSeparate ok own cell) (hown : ∀ p ∈ paths, own p)
    (hs : ok s) (hsound : pool.IsSound store cell work paths s ok own)
    (h : Step store work paths workers pool next) :
    next.IsSound store cell work paths s ok own
      ∧ next.left store work paths < pool.left store work paths := by
  obtain ⟨p, hp, hok', hmover, hless, hrest⟩ := h.mover hstore hown hs hsound.isOk
  refine ⟨⟨hok', ?_, ?_⟩, ?_⟩
  · intro q hq
    by_cases hqp : q = p
    · rw [hqp]
      exact hmover (hsound.course p hp)
    · obtain ⟨hjob, hledger, hcell⟩ := hrest q hqp
      exact (hsound.course q hq).congr hstore (hown q hq) hsound.isOk hok' hjob hledger
        (hcell (hown q hq))
  · intro q hq hnew
    have hqp : q ≠ p := fun heq => hnew (heq ▸ hp)
    rw [(hrest q hqp).2.2 hq]
    exact hsound.others q hq hnew
  · -- what is left is a sum over the jobs, and only that of `p` has changed
    apply List.sum_lt_sum
    · intro q hq
      by_cases hqp : q = p
      · rw [hqp]
        exact hless.le
      · obtain ⟨hjob, _, hcell⟩ := hrest q hqp
        rw [hjob, left_congr hstore (hown q hq) hsound.isOk hok' (hcell (hown q hq))]
    · exact ⟨p, hp, hless⟩

theorem isSound_start (hs : ok s) : (start s).IsSound store cell work paths s ok own :=
  ⟨hs, fun _ _ => rfl, fun _ _ _ => rfl⟩

theorem Reachable.isSound (hstore : store.IsSeparate ok own cell) (hown : ∀ p ∈ paths, own p)
    (hs : ok s) (h : pool.Reachable store work paths workers s) :
    pool.IsSound store cell work paths s ok own := by
  induction h with
  | refl => exact isSound_start hs
  | tail _ hstep ih => exact (ih.step hstore hown hs hstep).1

/-- **No run goes on for ever.** -/
theorem IsSound.acc (hstore : store.IsSeparate ok own cell) (hown : ∀ p ∈ paths, own p)
    (hs : ok s) (hsound : pool.IsSound store cell work paths s ok own) :
    Acc (fun after before => Step store work paths workers before after) pool := by
  induction hn : pool.left store work paths using Nat.strongRecOn generalizing pool with
  | ind n ih =>
      constructor
      intro next hstep
      obtain ⟨hsound', hless⟩ := hsound.step hstore hown hs hstep
      exact ih _ (hn ▸ hless) hsound' rfl

/-- **No run gets stuck**: as long as an outcome is missing, some job can move. A job that waits
is only kept waiting by jobs that are running. -/
theorem exists_step (hworkers : 0 < workers) (hdone : ¬ pool.IsDone paths) :
    ∃ next, Step store work paths workers pool next := by
  by_cases hbusy : ∃ p ∈ paths, ∃ session, pool.jobs p = .running session
  · obtain ⟨p, hp, session, hjob⟩ := hbusy
    rcases session.step?_or_ending? store p pool.state with ⟨session', s', hstep⟩ | ⟨o, hending⟩
    · exact ⟨_, .advance pool p session session' s' hp hjob hstep⟩
    · exact ⟨_, .finish pool p session o hp hjob hending⟩
  · simp only [IsDone, not_forall] at hdone
    obtain ⟨p, hp, hjob⟩ := hdone
    cases hpool : pool.jobs p with
    | waiting =>
        -- nobody is running, so every worker is free
        have hfree : pool.busy paths = 0 := by
          rw [busy, List.length_eq_zero_iff, List.filter_eq_nil_iff]
          intro q hq hrunning
          cases hjob : pool.jobs q with
          | running session => exact hbusy ⟨q, hq, session, hjob⟩
          | _ => simp [hjob, Job.isRunning] at hrunning
        exact ⟨_, .take pool p hp hpool (hfree ▸ hworkers)⟩
    | running session => exact absurd ⟨p, hp, session, hpool⟩ hbusy
    | finished outcome => exact ⟨_, .record pool p outcome hp hpool⟩
    | recorded => exact absurd hpool hjob

end Pool

/-- When every job is recorded, the outcomes in order are those of the sessions alone. -/
theorem Batch.inOrder_of_isSound (hsound : pool.IsSound store cell work paths s ok own)
    (hdone : pool.IsDone paths) :
    inOrder paths pool.ledger = paths.map fun p => (p, aloneOutcome store work s p) := by
  have hlookup : ∀ p ∈ paths, pool.ledger.lookup p = some (aloneOutcome store work s p) := by
    intro p hp
    have hcourse := hsound.course p hp
    simp only [Pool.IsOnCourse, hdone p hp] at hcourse
    exact hcourse.1
  rw [inOrder, ← List.filterMap_eq_map]
  apply List.filterMap_congr
  intro p hp
  rw [hlookup p hp]
  rfl

end Runs

/-! ## Every schedule -/

/-- What a batch has left and written down, said file by file: every file ends as its session
ends alone on the store that the batch started from. -/
structure Batch.Accounts {σ κ : Type} (store : Store σ) (own : Path → Prop) (cell : σ → Path → κ)
    (work : Path → Session) (paths : List Path) (s state : σ) (ledger : Ledger) : Prop where
  keys : ledger.paths = paths
  /-- The outcome is the one that the session ends with, -/
  outcome : ∀ p ∈ paths, ∀ o, ((work p).run store p s).outcome = .ok o → ledger.lookup p = some o
  /-- or an internal error with the kind and the text of the fault that it ends with. -/
  fault : ∀ p ∈ paths, ∀ f, ((work p).run store p s).outcome = .error f →
    ledger.lookup p = some (.failure p .internalError s!"{f.kind}: {f.text}")
  content : ∀ p ∈ paths, cell state p = cell ((work p).run store p s).state p
  others : ∀ q, own q → q ∉ paths → cell state q = cell s q

theorem Batch.accounts_of_run {σ κ : Type} {store : Store σ} {ok : σ → Prop} {own : Path → Prop}
    {cell : σ → Path → κ} (hstore : store.IsSeparate ok own cell) (work : Path → Session)
    {paths : List Path} (hnodup : paths.Nodup) (hown : ∀ p ∈ paths, own p) {s : σ} (hs : ok s) :
    Accounts store own cell work paths s (run (fun p => (work p).run store p) paths s).state
      (run (fun p => (work p).run store p) paths s).ledger := by
  obtain ⟨_, hledger, hcontent, hothers⟩ := run_alone hstore work hnodup hown hs
  refine ⟨?_, ?_, ?_, hcontent, hothers⟩
  · rw [hledger, Ledger.paths, List.map_map]
    exact List.map_id' paths
  · intro p hp o ho
    rw [hledger, Ledger.lookup_map _ hp, aloneOutcome, ho]
    rfl
  · intro p hp f hf
    rw [hledger, Ledger.lookup_map _ hp, aloneOutcome, hf]
    rfl

/-- **The number of workers cannot be seen.** Whatever the sessions are, and in whatever order
their steps and their completions fall, a batch of distinct files with any number of workers
leaves the outcomes of the serial run, in the order of the files, and a store that no file can
tell from the one of the serial run; and every run of a pool ends. In the serial run every file
ends as its session ends alone, so what becomes of the others makes no difference to it. -/
theorem batch_in_any_schedule {σ κ : Type} {store : Store σ} {ok : σ → Prop} {own : Path → Prop}
    {cell : σ → Path → κ} (hstore : store.IsSeparate ok own cell) (work : Path → Session)
    {paths : List Path} (hnodup : paths.Nodup) (hown : ∀ p ∈ paths, own p) (s : σ) (hs : ok s)
    (workers : Int) :
    let serial := Batch.run (fun p => (work p).run store p) paths s
    Batch.Accounts store own cell work paths s serial.state serial.ledger
    ∧ (∀ state ledger, Batch.Gives store work paths s workers state ledger →
        ledger = serial.ledger ∧ ∀ q, own q → cell state q = cell serial.state q)
    ∧ (1 < workers →
        Acc (fun after before => Pool.Step store work paths workers.toNat before after)
          (Pool.start s)
        ∧ ∀ pool : Pool σ, pool.Reachable store work paths workers.toNat s →
            ¬ pool.IsDone paths → ∃ next, Pool.Step store work paths workers.toNat pool next) := by
  have haccounts := Batch.accounts_of_run hstore work hnodup hown hs
  refine ⟨haccounts, ?_, ?_⟩
  · intro state ledger hgives
    cases hgives with
    | serial hfew => exact ⟨rfl, fun _ _ => rfl⟩
    | pooled hmany pool hreach hdone =>
        have hsound := hreach.isSound hstore hown hs
        have hledger := (Batch.run_alone hstore work hnodup hown hs).2.1
        refine ⟨(Batch.inOrder_of_isSound hsound hdone).trans hledger.symm, ?_⟩
        intro q hq
        by_cases hmem : q ∈ paths
        · have hcourse := hsound.course q hmem
          simp only [Pool.IsOnCourse, hdone q hmem] at hcourse
          rw [hcourse.2, haccounts.content q hmem]
        · rw [hsound.others q hq hmem, haccounts.others q hq hmem]
  · intro hworkers
    refine ⟨(Pool.isSound_start hs).acc hstore hown hs, ?_⟩
    intro pool _ hdone
    exact Pool.exists_step (by omega) hdone

namespace MemoryStore

/-- What a session can see of a table: the text at its path, and the faults that are set. -/
def cell (m : MemoryStore) (path : Path) :
    Option Text × Option Fault × Option Fault × Option Fault :=
  (m.get path, m.readFault, m.writeFault, m.removeFault)

theorem cell_put (m : MemoryStore) (p : Path) (text : Text) (q : Path) :
    (m.put p text).cell q
      = (if q = p then some text else m.get q, m.readFault, m.writeFault, m.removeFault) := by
  rw [cell, get, put, lookup_putFile]
  rfl

theorem cell_erase (m : MemoryStore) (p q : Path) :
    (m.erase p).cell q
      = (if q = p then none else m.get q, m.readFault, m.writeFault, m.removeFault) := by
  rw [cell, get, erase, lookup_filter_ne]
  rfl

/-- A table of texts is separate on all paths. -/
theorem isSeparate_store : store.IsSeparate (fun _ => True) (fun _ => True) cell where
  holds m n p _ _ _ hcell := by
    simp only [cell, get, Prod.mk.injEq] at hcell
    simp only [store, hcell]
  read m n p _ _ _ hcell := by
    simp only [cell, get, Prod.mk.injEq] at hcell
    simp only [store, hcell]
  write m n p text _ _ _ hcell := by
    simp only [cell, Prod.mk.injEq] at hcell
    simp only [store, hcell]
    cases n.writeFault with
    | some f => rfl
    | none => simp [Except.map, cell_put, hcell]
  remove m n p _ _ _ hcell := by
    simp only [cell, get, Prod.mk.injEq] at hcell
    simp only [store, hcell]
    cases n.removeFault with
    | some f => rfl
    | none =>
        cases n.files.lookup p with
        | none => rfl
        | some text => simp [Except.map, cell_erase, hcell]
  written m p text m' _ _ h := by
    simp only [store] at h
    split at h
    · exact absurd h (by simp)
    · cases h
      refine ⟨trivial, ?_⟩
      intro q _ hq
      rw [cell_put, if_neg hq, cell]
  removed m p m' _ _ h := by
    simp only [store] at h
    split at h
    · exact absurd h (by simp)
    · split at h
      · cases h
        refine ⟨trivial, ?_⟩
        intro q _ hq
        rw [cell_erase, if_neg hq, cell]
      · exact absurd h (by simp)

end MemoryStore

/-- Two workers at a time on a source that is rewritten and on a file that is not there: the
second one fails, and the first one is written all the same. -/
theorem batch_in_any_schedule_two :
    ∃ a b work s, [a, b].Nodup
      ∧ work = Worker.source "sequential" false "A".toList
      ∧ s = MemoryStore.mk [(a, "#if A\nlet a = 1\n#endif\n".toList)] none none none
      ∧ (Batch.run (fun p => (work p).run MemoryStore.store p) [a, b] s).ledger
        = [(a, .settled a .written), (b, .failure b .notFound "file does not exist")]
      ∧ Batch.Accounts MemoryStore.store (fun _ => True) MemoryStore.cell work [a, b] s
        (Batch.run (fun p => (work p).run MemoryStore.store p) [a, b] s).state
        (Batch.run (fun p => (work p).run MemoryStore.store p) [a, b] s).ledger
      ∧ (∀ state ledger, Batch.Gives MemoryStore.store work [a, b] s 2 state ledger →
        ledger = [(a, .settled a .written), (b, .failure b .notFound "file does not exist")]
          ∧ MemoryStore.get state a = some "let a = 1\n".toList)
      ∧ Acc (fun after before => Pool.Step MemoryStore.store work [a, b] 2 before after)
        (Pool.start s) := by
  let a : Path := ⟨.root, ["a.swift".toList]⟩
  let b : Path := ⟨.root, ["b.swift".toList]⟩
  let s := MemoryStore.mk [(a, "#if A\nlet a = 1\n#endif\n".toList)] none none none
  have hnodup : [a, b].Nodup := by decide +kernel
  obtain ⟨haccounts, hgives, hends⟩ :=
    batch_in_any_schedule MemoryStore.isSeparate_store
      (Worker.source "sequential" false "A".toList) hnodup (fun _ _ => trivial) s trivial 2
  have hledger : (Batch.run (fun p => (Worker.source "sequential" false "A".toList p).run
      MemoryStore.store p) [a, b] s).ledger
      = [(a, .settled a .written), (b, .failure b .notFound "file does not exist")] := by
    decide +kernel
  have hcontent : MemoryStore.get (Batch.run (fun p => (Worker.source "sequential" false "A".toList
      p).run MemoryStore.store p) [a, b] s).state a = some "let a = 1\n".toList := by
    decide +kernel
  refine ⟨a, b, _, s, hnodup, rfl, rfl, hledger, haccounts, ?_, (hends (by decide)).1⟩
  intro state ledger hrun
  obtain ⟨hsame, hcells⟩ := hgives state ledger hrun
  have hget := congrArg Prod.fst (hcells a trivial)
  exact ⟨hsame.trans hledger, hget.trans hcontent⟩

end Unflag
