/-
What the exit code says.

A run is put together from its stages (`Command.run_eq`). It ends with 2 if what it is asked to do
is refused, and without any code if a call ends with a fault that nobody expects, for one of the
causes in `Command.Escapes`. Once the files have been worked through, the report decides: its
failures all have a kind (`Cleaning.isExplained_report`), so it can be summed up, and what is left
is to write it (`writeReport_cases`).
-/
import Unflag.Proofs.Accounting
import Unflag.Proofs.ReportViews
import Unflag.Proofs.RunFaults

set_option autoImplicit false

namespace Unflag

/-! ## Stages of a run -/

/-- How a run ends that is stopped. -/
def Stop.ending {ε : Type} : Stop ε → Except Fault Exit
  | .refused _ => .ok .refused
  | .fault f => .error f

namespace Command

variable {σ : Type} {host : Host σ} {rules : Configuration.Rules} {o : Options} {s : σ}
  {clock : Clock} {f : Fault}

/-- The report of a run whose cleaning took so long is written, and the run ends; unless there is no
summing it up. -/
def close (host : Host σ) (o : Options) (s : σ) (elapsed : Duration) (c : Cleaning)
    (r : Report) : σ × Except Fault Exit :=
  let r := { r with elapsed }
  match (r.summary c.settings.reportLimit o.verbose).2 with
  | some f => (s, .error f)
  | none => ((writeReport host o r s).state, (writeReport host o r s).ending)

/-- **The stages of a run**: what it leaves, and how it ends. -/
theorem run_eq (host : Host σ) (rules : Configuration.Rules) (o : Options) (s : σ) (clock : Clock) :
    ((run host rules clock o s).state, (run host rules clock o s).ending)
      = match cleaning host rules o s with
        | .error stop => (s, stop.ending)
        | .ok c =>
          match (c.run host clock.start s).report with
          | .error stop => ((c.run host clock.start s).state, stop.ending)
          | .ok r => close host o (c.run host clock.start s).state clock.elapsed c r := by
  rw [run, clean, cleaning]
  cases root host o s with
  | error f => rfl
  | ok top =>
      dsimp only
      rcases settings host rules o s top with ⟨rs, stop | given⟩
      · cases stop <;> rfl
      · dsimp only [Except.map]
        cases ((Cleaning.mk top o.flag given o.dryRun o.verbose).run host clock.start s).report with
        | error stop => cases stop <;> rfl
        | ok r =>
            dsimp only [finish, close]
            split
            · next rs' f hsummary => rw [hsummary]
            · next rs' hsummary => rw [hsummary]

/-! ## The report -/

/-- A report is asked for, and the file system refuses to write it. -/
def IsUnwritten (host : Host σ) (o : Options) (s : σ) (r : Report) : Prop :=
  ∃ p f, o.report = some p ∧ host.overwrite s p r.json = .error f ∧ f.family = .system

/-- A report is lost for one fault only. -/
theorem LosesReport.eq {r : Report} {g : Fault} (hf : LosesReport host o s r f)
    (hg : LosesReport host o s r g) : f = g := by
  obtain ⟨p, hp, hover, _⟩ := hf
  obtain ⟨q, hq, hover', _⟩ := hg
  cases hp.symm.trans hq
  exact Except.error.inj (hover.symm.trans hover')

theorem exitOf_cases (r : Report) :
    (exitOf r = .success ∧ ∀ x ∈ r.ledger.outcomes, x.failed = false)
      ∨ (exitOf r = .failures ∧ ∃ x ∈ r.ledger.outcomes, x.failed = true) := by
  have hempty : r.failed.isEmpty = true ↔ ∀ x ∈ r.ledger.outcomes, x.failed = false := by
    rw [Report.failed, Report.pathsWhere, Path.sort, List.isEmpty_iff_length_eq_zero,
      List.length_mergeSort, List.length_map, List.length_eq_zero_iff, List.filter_eq_nil_iff,
      Ledger.outcomes, List.forall_mem_map]
    simp
  rw [exitOf]
  split
  · next h => exact .inl ⟨rfl, hempty.mp h⟩
  · next h =>
    rw [hempty] at h
    refine .inr ⟨rfl, ?_⟩
    simpa using h

/-- **The end of a run whose files have been worked through**: the report is lost, and then nothing
is written, or an outcome has failed, or the report was not written, or neither. -/
theorem writeReport_cases (host : Host σ) (o : Options) (r : Report) (s : σ) :
    (∃ f, (writeReport host o r s).ending = .error f ∧ LosesReport host o s r f
        ∧ (writeReport host o r s).state = s)
      ∨ ((∀ f, ¬ LosesReport host o s r f)
        ∧ (((writeReport host o r s).ending = .ok .success
            ∧ (∀ x ∈ r.ledger.outcomes, x.failed = false) ∧ ¬ IsUnwritten host o s r)
          ∨ ((writeReport host o r s).ending = .ok .failures
            ∧ ((∃ x ∈ r.ledger.outcomes, x.failed = true) ∨ IsUnwritten host o s r)))) := by
  -- where the report is written or not asked for, the outcomes decide
  have hexit : (writeReport host o r s).ending = .ok (exitOf r) → ¬ IsUnwritten host o s r →
      ((writeReport host o r s).ending = .ok .success
        ∧ (∀ x ∈ r.ledger.outcomes, x.failed = false) ∧ ¬ IsUnwritten host o s r)
      ∨ ((writeReport host o r s).ending = .ok .failures
        ∧ ((∃ x ∈ r.ledger.outcomes, x.failed = true) ∨ IsUnwritten host o s r)) := by
    intro hending hwritten
    rw [hending]
    rcases exitOf_cases r with ⟨hexit, hall⟩ | ⟨hexit, hsome⟩
    · exact .inl ⟨by rw [hexit], hall, hwritten⟩
    · exact .inr ⟨by rw [hexit], .inl hsome⟩
  cases hreport : o.report with
  | none =>
      refine .inr ⟨?_, hexit (by rw [writeReport, hreport]) ?_⟩
      · rintro f ⟨p, hp, _⟩
        cases hreport.symm.trans hp
      · rintro ⟨p, _, hp, _⟩
        cases hreport.symm.trans hp
  | some p =>
      cases hover : host.overwrite s p r.json with
      | ok s' =>
          refine .inr ⟨?_, hexit (by simp only [writeReport, hreport, hover]) ?_⟩
          · rintro f ⟨p', hp, hover', _⟩
            cases hreport.symm.trans hp
            cases hover.symm.trans hover'
          · rintro ⟨p', f, hp, hover', _⟩
            cases hreport.symm.trans hp
            cases hover.symm.trans hover'
      | error f =>
          by_cases hfamily : f.family = .system
          · refine .inr ⟨?_, .inr ⟨?_, .inr ⟨p, f, hreport, hover, hfamily⟩⟩⟩
            · rintro g ⟨p', hp, hover', hother⟩
              cases hreport.symm.trans hp
              cases hover.symm.trans hover'
              exact hother hfamily
            · simp [writeReport, hreport, hover, hfamily]
          · refine .inl ⟨f, ?_, ⟨p, hreport, hover, hfamily⟩, ?_⟩ <;>
              simp [writeReport, hreport, hover, hfamily]

section Written

variable {r : Report}

/-- The writing of a report ends with a fault exactly if the report is lost, -/
theorem writeReport_eq_error_iff :
    (writeReport host o r s).ending = .error f ↔ LosesReport host o s r f := by
  rcases writeReport_cases host o r s with ⟨g, hend, hloses, -⟩ | ⟨hkept, ⟨hend, -⟩ | ⟨hend, -⟩⟩
  · rw [hend, Except.error.injEq]
    exact ⟨fun hg => hg ▸ hloses, hloses.eq⟩
  · exact iff_of_false (by simp [hend]) (hkept f)
  · exact iff_of_false (by simp [hend]) (hkept f)

/-- and then nothing is written. -/
theorem state_of_losesReport (h : LosesReport host o s r f) :
    (writeReport host o r s).state = s := by
  rcases writeReport_cases host o r s with ⟨_, -, -, hstate⟩ | ⟨hkept, -⟩
  · exact hstate
  · exact absurd h (hkept f)

/-- It ends well exactly if nothing has failed, -/
theorem writeReport_eq_success_iff :
    (writeReport host o r s).ending = .ok .success
      ↔ (∀ f, ¬ LosesReport host o s r f) ∧ (∀ x ∈ r.ledger.outcomes, x.failed = false)
        ∧ ¬ IsUnwritten host o s r := by
  rcases writeReport_cases host o r s with
    ⟨g, hend, hloses, -⟩ | ⟨hkept, ⟨hend, hall, hwritten⟩ | ⟨hend, hfailed⟩⟩
  · exact iff_of_false (by simp [hend]) fun h => h.1 g hloses
  · exact iff_of_true hend ⟨hkept, hall, hwritten⟩
  · refine iff_of_false (by simp [hend]) ?_
    rintro ⟨-, hall, hwritten⟩
    rcases hfailed with ⟨x, hx, hfail⟩ | hunwritten
    · exact absurd ((hall x hx).symm.trans hfail) (by decide)
    · exact hwritten hunwritten

/-- and with failures if an outcome or the writing itself has. -/
theorem writeReport_eq_failures_iff :
    (writeReport host o r s).ending = .ok .failures
      ↔ (∀ f, ¬ LosesReport host o s r f)
        ∧ ((∃ x ∈ r.ledger.outcomes, x.failed = true) ∨ IsUnwritten host o s r) := by
  rcases writeReport_cases host o r s with
    ⟨g, hend, hloses, -⟩ | ⟨hkept, ⟨hend, hall, hwritten⟩ | ⟨hend, hfailed⟩⟩
  · exact iff_of_false (by simp [hend]) fun h => h.1 g hloses
  · refine iff_of_false (by simp [hend]) ?_
    rintro ⟨-, ⟨x, hx, hfail⟩ | hunwritten⟩
    · exact absurd ((hall x hx).symm.trans hfail) (by decide)
    · exact hwritten hunwritten
  · exact iff_of_true hend ⟨hkept, hfailed⟩

theorem writeReport_ne_refused : (writeReport host o r s).ending ≠ .ok .refused := by
  rcases writeReport_cases host o r s with ⟨g, hend, -⟩ | ⟨-, ⟨hend, -⟩ | ⟨hend, -⟩⟩ <;> simp [hend]

end Written

end Command

/-! ## Failures have kinds -/

theorem Report.mem_foldl_add {os : List Outcome} {r : Report} {e : Path × Outcome}
    (h : e ∈ (os.foldl Report.add r).ledger) : e ∈ r.ledger ∨ e.2 ∈ os := by
  induction os generalizing r with
  | nil => exact .inl h
  | cons o os ih =>
      rcases ih h with he | he
      · rcases Ledger.mem_put he with rfl | he
        · exact .inr List.mem_cons_self
        · exact .inl he
      · exact .inr (List.mem_cons_of_mem o he)

/-- **Every failure in a report has a kind**, -/
theorem Cleaning.isExplained_report {σ : Type} {host : Host σ} {c : Cleaning} {startTime : Text}
    {s : σ} {r : Report} (h : (c.run host startTime s).report = .ok r) :
    r.isExplained = true := by
  rw [run] at h
  dsimp only at h
  split at h
  · cases h
  · next found hfound =>
    cases h
    rw [Report.isExplained, List.all_eq_true]
    intro e he
    rw [reportOf] at he
    rcases Report.mem_foldl_add he with he | he
    · exact absurd he List.not_mem_nil
    · obtain ⟨x, hx, hxe⟩ := List.mem_map.mp he
      rw [process_eq_batches] at hx
      have hkinds := Batch.forall_mem_ledger (c.work host)
        (fun _ o => (!o.failed || o.error.isSome) = true) fun p s => (c.isOf_settle host p s).2
      rw [← hxe]
      rcases List.mem_append.mp hx with hx | hx
      · exact hkinds _ _ x hx
      · exact hkinds _ _ x hx

/-- so that the report can be summed up. -/
theorem Cleaning.summary_report {σ : Type} {host : Host σ} {c : Cleaning} {startTime : Text}
    {s : σ} {r : Report} (h : (c.run host startTime s).report = .ok r) (elapsed : Duration)
    (limit : Int) (verbose : Bool) :
    (Report.summary limit verbose { r with elapsed }).2 = none := by
  have hdistinct : r.ledger.paths.Nodup := by
    rw [run] at h
    dsimp only at h
    split at h
    · cases h
    · next found hfound =>
      cases h
      exact (Report.tallies_foldl_add
        { Report.start c.root c.flag c.dryRun startTime with total := found.length } _).distinct
  -- neither the ledger nor its failures know of the time
  have hexplained : Report.isExplained { r with elapsed } = true := by
    have hr := isExplained_report h
    rw [Report.isExplained] at hr ⊢
    exact hr
  exact Report.summary_snd_of_isExplained (r := { r with elapsed }) hdistinct hexplained limit
    verbose

/-! ## The exit code -/

/-- A run whose files have been worked through ends with the writing of its report. -/
theorem Command.close_report {σ : Type} {host : Host σ} {o : Options} {c : Cleaning}
    {startTime : Text} {s : σ} {r : Report} (h : (c.run host startTime s).report = .ok r)
    (s' : σ) (elapsed : Duration) :
    close host o s' elapsed c r
      = ((writeReport host o { r with elapsed } s').state,
        (writeReport host o { r with elapsed } s').ending) := by
  rw [close, Cleaning.summary_report h]

/-- The exits are told apart by their codes. -/
theorem Exit.map_code_eq_ok_iff {e : Except Fault Exit} {x : Exit} :
    e.map Exit.code = .ok x.code ↔ e = .ok x := by
  rcases e with f | y
  · simp [Except.map]
  · cases x <;> cases y <;> simp [Except.map, Exit.code]

theorem Exit.map_code_eq_error_iff {e : Except Fault Exit} {f : Fault} :
    e.map Exit.code = .error f ↔ e = .error f := by
  cases e <;> simp [Except.map]

theorem Exit.code_cases {e : Except Fault Exit} {n : Nat} (h : e.map Exit.code = .ok n) :
    n = 0 ∨ n = 1 ∨ n = 2 := by
  rcases e with f | x
  · cases h
  · cases h
    cases x <;> simp [Exit.code]

/-- **What the exit code says**, on any machine and for any configuration. A run has no exit code
exactly if one of its calls ends with a fault that nobody expects. Else the code is 2 if the
settings or the search are refused, 1 if an outcome has failed or the report is not written, and 0
if neither is the case. A run with the code 2 has changed nothing, and one without a code has
changed nothing either, or all files have been worked through. -/
theorem exit_code_of_run {σ : Type} (host : Host σ) (rules : Configuration.Rules)
    (clock : Command.Clock) (o : Options) (s : σ) :
    let run := Command.run host rules clock o s
    let code := run.ending.map Exit.code
    let asked := Command.cleaning host rules o s
    let timed (r : Report) : Report := { r with elapsed := clock.elapsed }
    (∀ f, code = .error f ↔ Command.Escapes host rules o s clock f)
      ∧ (∀ n, code = .ok n → n = 0 ∨ n = 1 ∨ n = 2)
      ∧ (code = .ok 2 ↔ (∃ f, asked = .error (.refused f))
        ∨ ∃ c f, asked = .ok c
          ∧ (Search.find host c.settings s c.root c.flag).2 = .error (.refused f))
      ∧ (code = .ok 2 → run.state = s)
      ∧ (∀ f, code = .error f → run.state = s ∨ ∃ c r, asked = .ok c
        ∧ (c.run host clock.start s).report = .ok r
        ∧ run.state = (c.run host clock.start s).state
        ∧ Command.LosesReport host o run.state (timed r) f)
      ∧ (code = .ok 1 ↔ ∃ c r, asked = .ok c ∧ (c.run host clock.start s).report = .ok r
        ∧ (∀ f, ¬ Command.LosesReport host o (c.run host clock.start s).state (timed r) f)
        ∧ ((∃ x ∈ r.ledger.outcomes, x.failed = true)
          ∨ Command.IsUnwritten host o (c.run host clock.start s).state (timed r)))
      ∧ (code = .ok 0 ↔ ∃ c r, asked = .ok c ∧ (c.run host clock.start s).report = .ok r
        ∧ (∀ f, ¬ Command.LosesReport host o (c.run host clock.start s).state (timed r) f)
        ∧ (∀ x ∈ r.ledger.outcomes, x.failed = false)
        ∧ ¬ Command.IsUnwritten host o (c.run host clock.start s).state (timed r))
      ∧ ∀ c r, asked = .ok c → (c.run host clock.start s).report = .ok r →
        r.isExplained = true := by
  have hstages := Command.run_eq host rules o s clock
  have hstop : ∀ (c : Cleaning) stop,
      (Search.find host c.settings s c.root c.flag).2 = .error stop
        ↔ (c.run host clock.start s).report = .error stop :=
    fun c stop => Command.report_eq_error_iff.symm
  have hexplained : ∀ c r, Command.cleaning host rules o s = .ok c →
      (c.run host clock.start s).report = .ok r → r.isExplained = true :=
    fun c r _ hreport => Cleaning.isExplained_report hreport
  dsimp only
  simp only [Command.escapes_iff, hstop]
  cases hasked : Command.cleaning host rules o s with
  | error stop =>
      -- The run stops before it has searched.
      rw [hasked] at hstages
      obtain ⟨hstate, hending⟩ := Prod.mk.inj hstages
      cases stop <;> simp [hstate, hending, Stop.ending, Except.map, Exit.code]
  | ok c =>
      rw [hasked] at hstages hexplained
      dsimp only at hstages
      cases hreport : (c.run host clock.start s).report with
      | error stop =>
          -- The search stops the run, and nothing has been written then.
          rw [hreport] at hstages
          obtain ⟨hstate, hending⟩ := Prod.mk.inj hstages
          have hstopped := Command.report_eq_error_iff.mp hreport
          rw [(Cleaning.run_of_stop clock.start hstopped).1] at hstate
          refine ⟨?_, ?_, ?_, fun _ => hstate, fun _ _ => .inl hstate, ?_, ?_, hexplained⟩ <;>
            cases stop <;> simp [hending, Stop.ending, hreport, Except.map, Exit.code]
      | ok r =>
          -- The files have been worked through, so the report decides.
          rw [hreport] at hstages
          dsimp only at hstages
          rw [Command.close_report hreport] at hstages
          obtain ⟨hstate, hending⟩ := Prod.mk.inj hstages
          -- a fact about the report of such a run is one about this report
          have hone : ∀ Q : Cleaning → Report → Prop,
              (∃ c' r', (Except.ok c : Except (Stop Configuration.Failure) Cleaning) = .ok c'
                ∧ (c'.run host clock.start s).report = .ok r' ∧ Q c' r') ↔ Q c r := by
            intro Q
            constructor
            · rintro ⟨c', r', hc, hr, hQ⟩
              cases hc
              cases hreport.symm.trans hr
              exact hQ
            · exact fun hQ => ⟨c, r, rfl, hreport, hQ⟩
          simp only [hone, reduceCtorEq, exists_false, false_or, hending, hstate]
          refine ⟨fun f => ?_, fun n => Exit.code_cases, ?_, ?_, fun f hcode => ?_,
            Exit.map_code_eq_ok_iff.trans Command.writeReport_eq_failures_iff,
            Exit.map_code_eq_ok_iff.trans Command.writeReport_eq_success_iff, hexplained⟩
          · rw [Exit.map_code_eq_error_iff, Command.writeReport_eq_error_iff]
            simp [hreport]
          · refine iff_of_false ?_ (by simp [hreport])
            exact fun h => Command.writeReport_ne_refused (Exit.map_code_eq_ok_iff.mp h)
          · exact fun h => absurd (Exit.map_code_eq_ok_iff.mp h) Command.writeReport_ne_refused
          · have hloses := Command.writeReport_eq_error_iff.mp (Exit.map_code_eq_error_iff.mp hcode)
            rw [Command.state_of_losesReport hloses]
            exact .inr ⟨rfl, hloses⟩

/-- A directory whose configuration file holds a byte that begins no text. -/
def Disk.garbledTree : Disk where
  top :=
    [("p".toList, .dir
      [(".flagcleaner.yaml".toList, .file [0xff] 0o644),
        ("a.swift".toList, .ofAscii "#if A\nlet a = 1\n#endif\n")])]
  here := []

/-- **Some runs have no exit code.** A configuration file with such a byte is not refused but ends
the run with a fault. -/
theorem exit_code_missing_garbled :
    (Command.run (Disk.host .standard none) (.standard fun _ => .ok .null) ⟨[], ⟨0⟩⟩
      ⟨"A".toList, some ⟨.root, ["p".toList]⟩, false, false, none, none, none, none, []⟩
      Disk.garbledTree).ending
      = .error ⟨.decoding, "UnicodeDecodeError",
        "'utf-8' codec can't decode byte 0xff in position 0: invalid start byte"⟩ := by
  cbv

end Unflag
