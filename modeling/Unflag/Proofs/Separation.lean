/-
Files that do not get into each other's way.

A store is separate on some paths if each of them has a cell of its own: what a call on the
path answers, and what it leaves in the cell, depends on that cell alone, and the cells of the
other paths stay. Nothing more is asked of the store, so a table of texts is separate and so is
a disk without links on the files of a search.

On such a store a step of a session sees and changes the cell of its own path only
(`step?_congr`, `step?_frame`), and so does a whole run (`run_congr`, `run_frame`). Hence a batch
ends, for each of its files, as the session of that file would have ended alone on the store that
the batch started from (`Batch.run_alone`).
-/
import Mathlib.Data.List.Nodup
import Mathlib.Data.List.Induction
import Unflag.Batch
import Unflag.Proofs.FileStep

set_option autoImplicit false

namespace Unflag

/-! ## Steps of a session -/

namespace Session

variable {σ : Type} (store : Store σ) (path : Path)

/-- One step of a session, if it has not ended. -/
def step? : Session → σ → Option (Session × σ)
  | .done _, _ => none
  | .raise _, _ => none
  | .report _ next, s => some (next, s)
  | .probe next, s => some (next (store.holds s path), s)
  | .read next, s => some (next (store.read s path), s)
  | .write text next, s =>
    match store.write s path text with
    | .error f => some (next (.error f), s)
    | .ok s' => some (next (.ok ()), s')
  | .remove next, s =>
    match store.remove s path with
    | .error f => some (next (.error f), s)
    | .ok s' => some (next (.ok ()), s')

/-- How a session has ended, if it has. -/
def ending? : Session → Option (Except Fault Outcome)
  | .done o => some (.ok o)
  | .raise f => some (.error f)
  | _ => none

/-- The number of steps to the end of a session. -/
def length : Session → σ → Nat
  | .done _, _ => 0
  | .raise _, _ => 0
  | .report _ next, s => length next s + 1
  | .probe next, s => length (next (store.holds s path)) s + 1
  | .read next, s => length (next (store.read s path)) s + 1
  | .write text next, s =>
    match store.write s path text with
    | .error f => length (next (.error f)) s + 1
    | .ok s' => length (next (.ok ())) s' + 1
  | .remove next, s =>
    match store.remove s path with
    | .error f => length (next (.error f)) s + 1
    | .ok s' => length (next (.ok ())) s' + 1

/-- **Induction on the steps of a run.** -/
theorem stepInduction {motive : Session → σ → Prop}
    (ended : ∀ session s outcome, session.ending? = some outcome → motive session s)
    (step : ∀ session s session' s', session.step? store path s = some (session', s') →
      motive session' s' → motive session s)
    (session : Session) (s : σ) : motive session s := by
  induction session generalizing s with
  | done o => exact ended _ s (.ok o) rfl
  | raise f => exact ended _ s (.error f) rfl
  | report r next ih => exact step _ s next s rfl (ih s)
  | probe next ih => exact step _ s _ s rfl (ih _ s)
  | read next ih => exact step _ s _ s rfl (ih _ s)
  | write text next ih =>
      cases hwrite : store.write s path text with
      | error f => exact step _ s (next (.error f)) s (by simp [step?, hwrite]) (ih _ s)
      | ok s' => exact step _ s (next (.ok ())) s' (by simp [step?, hwrite]) (ih _ s')
  | remove next ih =>
      cases hremove : store.remove s path with
      | error f => exact step _ s (next (.error f)) s (by simp [step?, hremove]) (ih _ s)
      | ok s' => exact step _ s (next (.ok ())) s' (by simp [step?, hremove]) (ih _ s')

/-- A session takes a step or has ended. -/
theorem step?_or_ending? (session : Session) (s : σ) :
    (∃ session' s', session.step? store path s = some (session', s'))
      ∨ ∃ outcome, session.ending? = some outcome := by
  induction session, s using stepInduction store path with
  | ended session s outcome hend => exact .inr ⟨outcome, hend⟩
  | step session s session' s' hstep ih => exact .inl ⟨session', s', hstep⟩

/-- A session has ended, -/
theorem run_of_ending? {session : Session} {outcome : Except Fault Outcome}
    (h : session.ending? = some outcome) (s : σ) :
    (session.run store path s).outcome = outcome ∧ (session.run store path s).state = s
      ∧ session.length store path s = 0 := by
  cases session with
  | done o => exact ⟨Option.some.inj h, rfl, rfl⟩
  | raise f => exact ⟨Option.some.inj h, rfl, rfl⟩
  | _ => exact absurd h (by simp [ending?])

variable {store path} {session session' : Session} {s s' : σ}

/-- or its run goes on from its next step. -/
theorem run_of_step? (h : session.step? store path s = some (session', s')) :
    (session.run store path s).outcome = (session'.run store path s').outcome
      ∧ (session.run store path s).state = (session'.run store path s').state
      ∧ session.length store path s = session'.length store path s' + 1 := by
  cases session with
  | done o => exact absurd h (by simp [step?])
  | raise f => exact absurd h (by simp [step?])
  | report r next =>
      cases h
      exact ⟨rfl, rfl, rfl⟩
  | probe next =>
      cases h
      exact ⟨rfl, rfl, rfl⟩
  | read next =>
      cases h
      exact ⟨rfl, rfl, rfl⟩
  | write text next =>
      rw [step?] at h
      rw [run, length]
      cases hwrite : store.write s path text with
      | error f =>
          rw [hwrite] at h
          cases h
          exact ⟨rfl, rfl, rfl⟩
      | ok t =>
          rw [hwrite] at h
          cases h
          exact ⟨rfl, rfl, rfl⟩
  | remove next =>
      rw [step?] at h
      rw [run, length]
      cases hremove : store.remove s path with
      | error f =>
          rw [hremove] at h
          cases h
          exact ⟨rfl, rfl, rfl⟩
      | ok t =>
          rw [hremove] at h
          cases h
          exact ⟨rfl, rfl, rfl⟩

/-- What a step does to the state. -/
theorem state_of_step? (h : session.step? store path s = some (session', s')) :
    s' = s ∨ (∃ text, store.write s path text = .ok s') ∨ store.remove s path = .ok s' := by
  cases session with
  | done o => exact absurd h (by simp [step?])
  | raise f => exact absurd h (by simp [step?])
  | report r next =>
      cases h
      exact .inl rfl
  | probe next =>
      cases h
      exact .inl rfl
  | read next =>
      cases h
      exact .inl rfl
  | write text next =>
      rw [step?] at h
      split at h
      · cases h
        exact .inl rfl
      · next t hwrite =>
        cases h
        exact .inr (.inl ⟨text, hwrite⟩)
  | remove next =>
      rw [step?] at h
      split at h
      · cases h
        exact .inl rfl
      · next t hremove =>
        cases h
        exact .inr (.inr hremove)

/-- **A session keeps what its calls keep.** -/
theorem run_keeps (P : σ → Prop)
    (hwrite : ∀ a text b, P a → store.write a path text = .ok b → P b)
    (hremove : ∀ a b, P a → store.remove a path = .ok b → P b) (session : Session) {s : σ}
    (hs : P s) : P (session.run store path s).state := by
  induction session, s using stepInduction store path with
  | ended session s outcome hend =>
      rw [(run_of_ending? store path hend s).2.1]
      exact hs
  | step session s session' s' hstep ih =>
      rw [(run_of_step? hstep).2.1]
      apply ih
      rcases state_of_step? hstep with rfl | ⟨text, hcall⟩ | hcall
      · exact hs
      · exact hwrite s text s' hs hcall
      · exact hremove s s' hs hcall

end Session

/-! ## Cells -/

/-- The paths `own` have cells of their own, as long as the state is one of `ok`. -/
structure Store.IsSeparate {σ κ : Type} (store : Store σ) (ok : σ → Prop) (own : Path → Prop)
    (cell : σ → Path → κ) : Prop where
  holds : ∀ s t p, ok s → ok t → own p → cell s p = cell t p → store.holds s p = store.holds t p
  read : ∀ s t p, ok s → ok t → own p → cell s p = cell t p → store.read s p = store.read t p
  write : ∀ s t p text, ok s → ok t → own p → cell s p = cell t p →
    (store.write s p text).map (cell · p) = (store.write t p text).map (cell · p)
  remove : ∀ s t p, ok s → ok t → own p → cell s p = cell t p →
    (store.remove s p).map (cell · p) = (store.remove t p).map (cell · p)
  written : ∀ s p text s', ok s → own p → store.write s p text = .ok s' →
    ok s' ∧ ∀ q, own q → q ≠ p → cell s' q = cell s q
  removed : ∀ s p s', ok s → own p → store.remove s p = .ok s' →
    ok s' ∧ ∀ q, own q → q ≠ p → cell s' q = cell s q

/-- Two calls that look alike have both failed, with the same fault, or have both succeeded. -/
theorem map_eq_map_cases {σ κ : Type} {f : σ → κ} {a b : Except Fault σ} (h : a.map f = b.map f) :
    (∃ fault, a = .error fault ∧ b = .error fault)
      ∨ ∃ s t, a = .ok s ∧ b = .ok t ∧ f s = f t := by
  cases a with
  | error fault =>
      cases b with
      | error fault' => exact .inl ⟨fault, rfl, by rw [Except.error.inj h]⟩
      | ok t => exact absurd h (by simp [Except.map])
  | ok s =>
      cases b with
      | error fault => exact absurd h (by simp [Except.map])
      | ok t => exact .inr ⟨s, t, rfl, rfl, Except.ok.inj h⟩

section Separate

variable {σ κ : Type} {store : Store σ} {ok : σ → Prop} {own : Path → Prop} {cell : σ → Path → κ}
  {p : Path}

namespace Session

/-- A step changes the cell of its own path only. -/
theorem step?_frame (hstore : store.IsSeparate ok own cell) (hp : own p)
    {session session' : Session} {s s' : σ} (hs : ok s)
    (h : session.step? store p s = some (session', s')) :
    ok s' ∧ ∀ q, own q → q ≠ p → cell s' q = cell s q := by
  rcases state_of_step? h with rfl | ⟨text, hwrite⟩ | hremove
  · exact ⟨hs, fun q _ _ => rfl⟩
  · exact hstore.written s p text s' hs hp hwrite
  · exact hstore.removed s p s' hs hp hremove

/-- A step sees the cell of its own path only: on a state with the same cell it goes the same
way. -/
theorem step?_congr (hstore : store.IsSeparate ok own cell) (hp : own p)
    {session session' : Session} {s s' t : σ} (hs : ok s) (ht : ok t)
    (hcell : cell s p = cell t p) (h : session.step? store p s = some (session', s')) :
    ∃ t', session.step? store p t = some (session', t') ∧ cell s' p = cell t' p := by
  cases session with
  | done o => exact absurd h (by simp [step?])
  | raise f => exact absurd h (by simp [step?])
  | report r next =>
      cases h
      exact ⟨t, rfl, hcell⟩
  | probe next =>
      cases h
      exact ⟨t, by rw [step?, hstore.holds s t p hs ht hp hcell], hcell⟩
  | read next =>
      cases h
      exact ⟨t, by rw [step?, hstore.read s t p hs ht hp hcell], hcell⟩
  | write text next =>
      rw [step?] at h
      rcases map_eq_map_cases (hstore.write s t p text hs ht hp hcell) with
        ⟨f, hsf, htf⟩ | ⟨a, b, hsa, htb, hab⟩
      · rw [hsf] at h
        cases h
        exact ⟨t, by rw [step?, htf], hcell⟩
      · rw [hsa] at h
        cases h
        exact ⟨b, by rw [step?, htb], hab⟩
  | remove next =>
      rw [step?] at h
      rcases map_eq_map_cases (hstore.remove s t p hs ht hp hcell) with
        ⟨f, hsf, htf⟩ | ⟨a, b, hsa, htb, hab⟩
      · rw [hsf] at h
        cases h
        exact ⟨t, by rw [step?, htf], hcell⟩
      · rw [hsa] at h
        cases h
        exact ⟨b, by rw [step?, htb], hab⟩

/-- **A session changes its own cell only**, and leaves a state that is still separate. -/
theorem run_frame (hstore : store.IsSeparate ok own cell) (hp : own p) (session : Session) {s : σ}
    (hs : ok s) :
    ok (session.run store p s).state
      ∧ ∀ q, own q → q ≠ p → cell (session.run store p s).state q = cell s q := by
  refine run_keeps (fun a => ok a ∧ ∀ q, own q → q ≠ p → cell a q = cell s q) ?_ ?_ session
    ⟨hs, fun q _ _ => rfl⟩
  · rintro a text b ⟨ha, hcells⟩ hwrite
    obtain ⟨hb, hframe⟩ := hstore.written a p text b ha hp hwrite
    exact ⟨hb, fun q hq hne => (hframe q hq hne).trans (hcells q hq hne)⟩
  · rintro a b ⟨ha, hcells⟩ hremove
    obtain ⟨hb, hframe⟩ := hstore.removed a p b ha hp hremove
    exact ⟨hb, fun q hq hne => (hframe q hq hne).trans (hcells q hq hne)⟩

/-- **A session sees its own cell only**: on two states with the same cell it ends alike, and
after as many steps. -/
theorem run_congr (hstore : store.IsSeparate ok own cell) (hp : own p) (session : Session)
    {s t : σ} (hs : ok s) (ht : ok t) (hcell : cell s p = cell t p) :
    (session.run store p s).outcome = (session.run store p t).outcome
      ∧ cell (session.run store p s).state p = cell (session.run store p t).state p
      ∧ session.length store p s = session.length store p t := by
  induction session, s using stepInduction store p generalizing t with
  | ended session s outcome hend =>
      obtain ⟨hsout, hsstate, hslength⟩ := run_of_ending? store p hend s
      obtain ⟨htout, htstate, htlength⟩ := run_of_ending? store p hend t
      rw [hsout, htout, hsstate, htstate, hslength, htlength]
      exact ⟨rfl, hcell, rfl⟩
  | step session s session' s' hstep ih =>
      -- the other run makes the same step, and the cells are the same again
      obtain ⟨t', hstep', hcell'⟩ := step?_congr hstore hp hs ht hcell hstep
      have hs' := (step?_frame hstore hp hs hstep).1
      have ht' := (step?_frame hstore hp ht hstep').1
      obtain ⟨hsout, hsstate, hslength⟩ := run_of_step? hstep
      obtain ⟨htout, htstate, htlength⟩ := run_of_step? hstep'
      obtain ⟨houtcome, hend, hlength⟩ := ih hs' ht' hcell'
      rw [hsout, htout, hsstate, htstate, hslength, htlength, hlength]
      exact ⟨houtcome, hend, rfl⟩

end Session

/-! ## Ledgers -/

namespace Ledger

/-- A path that is not in the ledger yet comes last. -/
theorem put_of_notMem {l : Ledger} {o : Outcome} (h : p ∉ l.paths) : l.put p o = l ++ [(p, o)] := by
  induction l with
  | nil => rfl
  | cons e r ih =>
      rw [paths, List.map_cons, List.mem_cons, not_or] at h
      rw [put, if_neg (Ne.symm h.1), ih h.2, List.cons_append]

theorem lookup_put (l : Ledger) (o : Outcome) (q : Path) :
    (l.put p o).lookup q = if q = p then some o else l.lookup q :=
  lookup_of_put (put p o) rfl (fun _ _ => rfl) l q

/-- The outcome of a path in a ledger that gives each of its paths one. -/
theorem lookup_map {paths : List Path} (f : Path → Outcome) (hp : p ∈ paths) :
    (paths.map fun q => (q, f q)).lookup p = some (f p) := by
  induction paths with
  | nil => exact absurd hp List.not_mem_nil
  | cons q qs ih =>
      rw [List.map_cons, lookup_cons_eq_ite]
      by_cases hq : p = q
      · rw [if_pos hq, hq]
      · rw [if_neg hq]
        exact ih ((List.mem_cons.mp hp).resolve_left hq)

end Ledger

/-! ## Batches -/

namespace Batch

theorem run_append_singleton (work : Path → σ → Session.Result σ) (paths : List Path) (p : Path)
    (s : σ) : run work (paths ++ [p]) s = step work (run work paths s) p :=
  List.foldl_append

/-- The outcome that is recorded for a file whose session runs alone from `s`. -/
def aloneOutcome (store : Store σ) (work : Path → Session) (s : σ) (p : Path) : Outcome :=
  (settle p ((work p).run store p s).outcome).1

/-- **A batch runs each of its files alone**: every file ends as its session ends on the store
that the batch started from, and no other file is touched. -/
theorem run_alone (hstore : store.IsSeparate ok own cell) (work : Path → Session)
    {paths : List Path} (hnodup : paths.Nodup) (hown : ∀ p ∈ paths, own p) {s : σ} (hs : ok s) :
    let b := run (fun p => (work p).run store p) paths s
    ok b.state
      ∧ b.ledger = paths.map (fun p => (p, aloneOutcome store work s p))
      ∧ (∀ p ∈ paths, cell b.state p = cell ((work p).run store p s).state p)
      ∧ ∀ q, own q → q ∉ paths → cell b.state q = cell s q := by
  induction paths using List.reverseRecOn with
  | nil =>
      refine ⟨hs, rfl, ?_, fun q _ _ => rfl⟩
      intro p hp
      exact absurd hp List.not_mem_nil
  | append_singleton ps p ih =>
      rw [List.nodup_append_comm, List.singleton_append, List.nodup_cons] at hnodup
      have hp : own p := hown p List.mem_concat_self
      obtain ⟨hok, hledger, hcells, hothers⟩ :=
        ih hnodup.2 fun q hq => hown q (List.mem_append_left [p] hq)
      dsimp only
      rw [run_append_singleton, step]
      dsimp only
      -- no file before it has touched the cell of `p`, so its session runs as on `s`
      obtain ⟨houtcome, hcell, _⟩ :=
        Session.run_congr hstore hp (work p) hok hs (hothers p hp hnodup.1)
      obtain ⟨hok', hframe⟩ := Session.run_frame hstore hp (work p) hok
      refine ⟨hok', ?_, ?_, ?_⟩
      · have hnew : p ∉ (run (fun p => (work p).run store p) ps s).ledger.paths := by
          rw [hledger, Ledger.paths, List.map_map]
          simpa using hnodup.1
        rw [Ledger.put_of_notMem hnew, hledger, houtcome, List.map_append]
        rfl
      · intro q hq
        rcases List.mem_append.mp hq with hq | hq
        · have hne : q ≠ p := fun h => hnodup.1 (h ▸ hq)
          rw [hframe q (hown q (List.mem_append_left [p] hq)) hne]
          exact hcells q hq
        · rw [List.mem_singleton.mp hq]
          exact hcell
      · intro q hq hnew
        rw [List.mem_append, List.mem_singleton, not_or] at hnew
        rw [hframe q hq hnew.2]
        exact hothers q hq hnew.1

end Batch

end Separate

end Unflag
