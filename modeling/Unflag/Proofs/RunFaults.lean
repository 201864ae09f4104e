/-
How a run can be ended by a fault.

A run finds its root and its settings, searches, works through the files, and writes its report.
Each of these stages calls the machine, or the reading of a configuration, and a call may end with a
fault that nobody expects. The faults of a stage are those of its calls: for loading the settings
they are listed in `Configuration.Breaks`, for a search in `Search.BreaksOff`, and for a whole run
in `Command.Escapes`, with one constructor for each call and what has to have gone well before it.
Each list is complete and nothing in it is idle (`load_eq_fault_iff`, `find_eq_fault_iff`,
`escapes_iff`).

Nothing is assumed of the machine, of the way in which texts are read as values and settings are
made of them, or of the tool that searches: each call on them may end with any fault.
-/
import Unflag.Command
import Unflag.Proofs.FoundFiles

set_option autoImplicit false

namespace Unflag

/-! ## Settings -/

namespace Configuration

variable {σ : Type} (host : Host σ) (rules : Rules) (s : σ)

/-- The calls on a configuration file that is there, and the faults that nobody expects of them. -/
inductive FileBreaks (p : Path) : Fault → Prop
  /-- The file cannot be read, and it is not the file system that refuses it. -/
  | unread (f : Fault) (hread : host.readInParts s p = .error f) (hfamily : f.family ≠ .system) :
    FileBreaks p f
  /-- Its text cannot be taken for a value, nor is it refused as one. -/
  | untaken (text : Text) (f : Fault) (hread : host.readInParts s p = .ok text)
    (htaken : rules.read text = .error (.fault f)) : FileBreaks p f
  /-- Its value cannot be shown. -/
  | unshown (text : Text) (es : List (Value × Value)) (f : Fault)
    (hread : host.readInParts s p = .ok text) (htaken : rules.read text = .ok (.map es))
    (hshown : rules.shown (.map es) = .error f) : FileBreaks p f

/-- The calls that load the settings, and the faults that nobody expects of them. -/
inductive Breaks (named : Option Path) (root : Path) : Fault → Prop
  /-- It cannot be said whether there is a configuration file. -/
  | unasked (f : Fault) (hasked : host.isFile s (named.getD (root.child fileName)) = .error f) :
    Breaks named root f
  | file (f : Fault) (hfile : host.isFile s (named.getD (root.child fileName)) = .ok true)
    (hbreaks : FileBreaks host rules s (named.getD (root.child fileName)) f) : Breaks named root f
  /-- The settings of a file, or those without one, cannot be shown. -/
  | unshown (es : List (Value × Value)) (settings : Settings) (f : Fault)
    (hes : (∃ p, source? host s named (some root) = .ok (some p)
        ∧ (entries host rules s p).2 = .ok es)
      ∨ source? host s named (some root) = .ok none ∧ es = [])
    (hvalid : rules.validate es = .ok settings)
    (hshown : rules.shown (.map settings.toEntries) = .error f) : Breaks named root f

variable {host rules s} {named : Option Path} {root p : Path} {f : Fault}

theorem source?_eq_fault_iff :
    source? host s named (some root) = .error (.fault f)
      ↔ host.isFile s (named.getD (root.child fileName)) = .error f := by
  cases named with
  | none =>
      rw [source?, Option.getD_none]
      cases host.isFile s (root.child fileName) <;> simp
  | some p =>
      rw [source?, Option.getD_some]
      cases host.isFile s p with
      | error g => simp
      | ok there => cases there <;> simp

theorem source?_eq_some_iff :
    source? host s named (some root) = .ok (some p)
      ↔ p = named.getD (root.child fileName) ∧ host.isFile s p = .ok true := by
  have hasked : source? host s named (some root) = .ok (some p)
      ↔ named.getD (root.child fileName) = p
        ∧ host.isFile s (named.getD (root.child fileName)) = .ok true := by
    cases named with
    | none =>
        rw [source?, Option.getD_none]
        rcases host.isFile s (root.child fileName) with g | _ | _ <;> simp
    | some q =>
        rw [source?, Option.getD_some]
        rcases host.isFile s q with g | _ | _ <;> simp
  rw [hasked]
  constructor
  · rintro ⟨rfl, hfile⟩
    exact ⟨rfl, hfile⟩
  · rintro ⟨rfl, hfile⟩
    exact ⟨rfl, hfile⟩

/-- Reading a configuration file ends with a fault exactly for one of its calls. -/
theorem entries_eq_fault_iff :
    (entries host rules s p).2 = .error (.fault f) ↔ FileBreaks host rules s p f := by
  rw [entries]
  constructor
  · intro h
    split at h
    · next g hread =>
      by_cases hfamily : g.family = .system
      · simp [hfamily] at h
      · rw [if_neg (by simpa using hfamily)] at h
        cases h
        exact .unread _ hread hfamily
    · next text hread =>
      split at h
      · cases h
      · next g htaken =>
        cases h
        exact .untaken text _ hread htaken
      · cases h
      · next es htaken =>
        split at h
        · next g hshown =>
          cases h
          exact .unshown text es _ hread htaken hshown
        · cases h
      · cases h
  · intro h
    cases h with
    | unread f hread hfamily => simp [hread, hfamily]
    | untaken text f hread htaken => simp [hread, htaken]
    | unshown text es f hread htaken hshown => simp [hread, htaken, hshown]

/-- Checking entries ends with a fault only if the settings cannot be shown. -/
theorem check_eq_fault_iff {es : List (Value × Value)} :
    (check rules es).2 = .error (.fault f)
      ↔ ∃ settings, rules.validate es = .ok settings
        ∧ rules.shown (.map settings.toEntries) = .error f := by
  rw [check]
  cases rules.validate es with
  | error ps => simp
  | ok settings => cases hshown : rules.shown (.map settings.toEntries) <;> simp [hshown]

/-- **Loading the settings ends with a fault exactly for one of its calls.** -/
theorem load_eq_fault_iff :
    (load host rules s named (some root)).2 = .error (.fault f)
      ↔ Breaks host rules s named root f := by
  constructor
  · intro h
    rw [load] at h
    split at h
    · next stop hsource =>
      cases h
      exact .unasked f (source?_eq_fault_iff.mp hsource)
    · next hsource =>
      obtain ⟨settings, hvalid, hshown⟩ := check_eq_fault_iff.mp h
      exact .unshown [] settings f (.inr ⟨hsource, rfl⟩) hvalid hshown
    · next p hsource =>
      split at h
      · next rs stop hentries =>
        cases h
        obtain ⟨rfl, hfile⟩ := source?_eq_some_iff.mp hsource
        exact .file f hfile (entries_eq_fault_iff.mp (congrArg Prod.snd hentries))
      · next rs es hentries =>
        obtain ⟨settings, hvalid, hshown⟩ := check_eq_fault_iff.mp h
        exact .unshown es settings f (.inl ⟨p, hsource, congrArg Prod.snd hentries⟩) hvalid hshown
  · intro h
    rw [load]
    cases h with
    | unasked f hasked => rw [source?_eq_fault_iff.mpr hasked]
    | file f hfile hbreaks =>
        rw [source?_eq_some_iff.mpr ⟨rfl, hfile⟩]
        have hentries := entries_eq_fault_iff.mpr hbreaks
        dsimp only
        split
        · next rs stop hloaded =>
          rw [hloaded] at hentries
          cases hentries
          rfl
        · next rs es hloaded =>
          rw [hloaded] at hentries
          cases hentries
    | unshown es settings f hes hvalid hshown =>
        have hcheck := check_eq_fault_iff.mpr ⟨settings, hvalid, hshown⟩
        rcases hes with ⟨p, hsource, hentries⟩ | ⟨hsource, rfl⟩
        · rw [hsource]
          dsimp only
          split
          · next rs stop hloaded =>
            rw [hloaded] at hentries
            cases hentries
          · next rs es' hloaded =>
            rw [hloaded] at hentries
            cases hentries
            exact hcheck
        · rw [hsource]
          exact hcheck

end Configuration

/-! ## Searches -/

namespace Search

variable {σ : Type} (host : Host σ) (o : Settings) (s : σ)

/-- The calls of a search, and the faults that nobody expects of them. -/
inductive BreaksOff (root : Path) (needle : Text) : Fault → Prop
  /-- It cannot be said whether there is anything at the root, -/
  | unasked (f : Fault) (hholds : host.holds s root = .error f) : BreaksOff root needle f
  /-- or whether it is a directory. -/
  | unsorted (f : Fault) (hholds : host.holds s root = .ok true)
    (hdir : host.isDir s root = .error f) : BreaksOff root needle f
  /-- The tool cannot be run, or its answer is no text. -/
  | tool (t : Tool σ) (f : Fault) (hroot : checkRoot host s root = .ok ())
    (htool : tool? host o = some t)
    (hrun : t.run (toolCommand o t.path root.text needle) s = .error f) : BreaksOff root needle f
  /-- A file breaks the walk off, and it is the first that does. -/
  | file (before : List Path) (p : Path) (after : List Path) (f : Fault)
    (hwalk : tool? host o = none)
    (hsources : sources host o s root = .ok (before ++ p :: after))
    (hbefore : ∀ q ∈ before, ∀ g, ¬ Breaks host o s q g) (hbreaks : Breaks host o s p f) :
    BreaksOff root needle f

variable {host o s} {root : Path} {needle : Text} {f : Fault}

theorem checkRoot_eq_fault_iff :
    checkRoot host s root = .error (.fault f)
      ↔ host.holds s root = .error f
        ∨ host.holds s root = .ok true ∧ host.isDir s root = .error f := by
  rw [checkRoot]
  cases host.holds s root with
  | error g => simp
  | ok there =>
      cases there with
      | false => simp
      | true =>
          cases host.isDir s root with
          | error g => simp
          | ok isDir => cases isDir <;> simp

/-- Asking the tool ends with a fault exactly if it cannot be run, or if its answer is no text. -/
theorem askTool_eq_fault_iff {t : Tool σ} :
    (askTool t o s root needle).2 = .error (.fault f)
      ↔ t.run (toolCommand o t.path root.text needle) s = .error f := by
  rw [askTool]
  dsimp only
  cases t.run (toolCommand o t.path root.text needle) s with
  | error g => simp
  | ok run =>
      dsimp only
      cases toolFiles run <;> simp [Except.mapError]

/-- **A search ends with a fault exactly for one of its calls.** -/
theorem find_eq_fault_iff :
    (find host o s root needle).2 = .error (.fault f) ↔ BreaksOff host o s root needle f := by
  rw [find_snd]
  cases hroot : checkRoot host s root with
  | error stop =>
      constructor
      · intro h
        cases h
        rcases checkRoot_eq_fault_iff.mp hroot with hholds | ⟨hholds, hdir⟩
        · exact .unasked f hholds
        · exact .unsorted f hholds hdir
      · intro h
        cases h with
        | unasked f hholds =>
            cases hroot.symm.trans (checkRoot_eq_fault_iff.mpr (.inl hholds))
            rfl
        | unsorted f hholds hdir =>
            cases hroot.symm.trans (checkRoot_eq_fault_iff.mpr (.inr ⟨hholds, hdir⟩))
            rfl
        | tool t f hok => cases hroot.symm.trans hok
        | file before p after f hwalk hsources =>
            rw [sources, hroot] at hsources
            cases hsources
  | ok _ =>
      dsimp only
      -- the root has been checked, so what is left is the tool or the walk
      have hchecked : ¬ (host.holds s root = .error f
          ∨ host.holds s root = .ok true ∧ host.isDir s root = .error f) := by
        intro h
        cases hroot.symm.trans (checkRoot_eq_fault_iff.mpr h)
      cases htool : tool? host o with
      | some t =>
          dsimp only
          rw [askTool_eq_fault_iff]
          constructor
          · exact fun hrun => .tool t f hroot htool hrun
          · intro h
            cases h with
            | unasked f hholds => exact absurd (.inl hholds) hchecked
            | unsorted f hholds hdir => exact absurd (.inr ⟨hholds, hdir⟩) hchecked
            | tool t' f hok htool' hrun =>
                cases htool.symm.trans htool'
                exact hrun
            | file before p after f hwalk => cases htool.symm.trans hwalk
      | none =>
          obtain ⟨ps, hsources⟩ : ∃ ps, sources host o s root = .ok ps := by
            rw [sources, hroot]
            exact ⟨_, rfl⟩
          dsimp only
          rw [files_eq_fault_iff hsources]
          constructor
          · rintro ⟨before, p, after, rfl, hbefore, hbreaks⟩
            exact .file before p after f htool hsources hbefore hbreaks
          · intro h
            cases h with
            | unasked f hholds => exact absurd (.inl hholds) hchecked
            | unsorted f hholds hdir => exact absurd (.inr ⟨hholds, hdir⟩) hchecked
            | tool t' f hok htool' => cases htool.symm.trans htool'
            | file before p after f hwalk hsplit hbefore hbreaks =>
                obtain rfl := Except.ok.inj (hsources.symm.trans hsplit)
                exact ⟨before, p, after, rfl, hbefore, hbreaks⟩

end Search

/-! ## Runs -/

namespace Command

variable {σ : Type} (host : Host σ) (rules : Configuration.Rules) (o : Options) (s : σ)

/-- What a run is asked to do, or why it cannot start: the root has to be found, and the settings
have to be loaded and overridden. -/
def cleaning : Except (Stop Configuration.Failure) Cleaning :=
  match root host o s with
  | .error f => .error (.fault f)
  | .ok top =>
    (settings host rules o s top).2.map fun given => ⟨top, o.flag, given, o.dryRun, o.verbose⟩

/-- The report of a run cannot be written, and it is not the file system that refuses it. -/
def LosesReport (r : Report) (f : Fault) : Prop :=
  ∃ p, o.report = some p ∧ host.overwrite s p r.json = .error f ∧ f.family ≠ .system

/-- The calls of a run, and the faults that end it without an exit code. -/
inductive Escapes (clock : Clock) : Fault → Prop
  /-- There is no path where the option for the root has to have one. -/
  | blankPath (hblank : o.blank.contains .path = true) :
    Escapes clock (.missingPart "list" "resolve")
  /-- The root has no path without links. -/
  | unresolved (f : Fault) (hpath : o.blank.contains .path = false)
    (hroot : host.canonical s (o.path.getD ⟨.here, []⟩) = .error f) : Escapes clock f
  /-- There is no path where the option for the configuration has to have one. -/
  | blankConfig (top : Path) (htop : root host o s = .ok top)
    (hblank : o.blank.contains .config = true) : Escapes clock (.missingPart "list" "is_file")
  /-- Loading the settings ends with a fault. -/
  | settings (top : Path) (f : Fault) (htop : root host o s = .ok top)
    (hconfig : o.blank.contains .config = false)
    (hbreaks : Configuration.Breaks host rules s o.config top f) : Escapes clock f
  /-- The search ends with a fault. -/
  | search (c : Cleaning) (f : Fault) (hc : cleaning host rules o s = .ok c)
    (hbreaks : Search.BreaksOff host c.settings s c.root c.flag f) : Escapes clock f
  /-- The files have been worked through, and writing the report ends with a fault. -/
  | report (c : Cleaning) (r : Report) (f : Fault) (hc : cleaning host rules o s = .ok c)
    (hr : (c.run host clock.start s).report = .ok r)
    (hloses : LosesReport host o (c.run host clock.start s).state
      { r with elapsed := clock.elapsed } f) : Escapes clock f

variable {host rules o s} {clock : Clock} {f : Fault}

/-- The settings of a run are missing for a fault only if loading them ends with one, or if the
option for the configuration has no path. -/
theorem settings_eq_fault_iff {top : Path} :
    (settings host rules o s top).2 = .error (.fault f)
      ↔ (o.blank.contains .config = true ∧ f = .missingPart "list" "is_file")
        ∨ (o.blank.contains .config = false
          ∧ Configuration.Breaks host rules s o.config top f) := by
  have hoverride : ∀ given,
      Configuration.override rules given (overrides o) ≠ .error (.fault f) := by
    intro given
    rw [Configuration.override]
    cases rules.validate (given.overridden (overrides o)) <;> simp [Except.mapError]
  rw [settings]
  cases o.blank.contains .config with
  | true => simp [eq_comm]
  | false =>
      rw [if_neg (by simp), ← Configuration.load_eq_fault_iff]
      dsimp only
      cases (Configuration.load host rules s o.config (some top)).2 with
      | error stop => simp [Except.bind]
      | ok given => simpa [Except.bind] using hoverride given

/-- The root is missing if there is no path for it, or none without links. -/
theorem root_eq_error_iff :
    root host o s = .error f
      ↔ (o.blank.contains .path = true ∧ f = .missingPart "list" "resolve")
        ∨ (o.blank.contains .path = false
          ∧ host.canonical s (o.path.getD ⟨.here, []⟩) = .error f) := by
  rw [root]
  cases o.blank.contains .path with
  | true => simp [eq_comm]
  | false => simp

/-- A run that cannot start for a fault lacks its root or its settings. -/
theorem cleaning_eq_fault_iff :
    cleaning host rules o s = .error (.fault f)
      ↔ root host o s = .error f
        ∨ ∃ top, root host o s = .ok top
          ∧ (settings host rules o s top).2 = .error (.fault f) := by
  rw [cleaning]
  cases root host o s with
  | error g => simp
  | ok top =>
      simp only [reduceCtorEq, Except.ok.injEq, exists_eq_left', false_or]
      cases (settings host rules o s top).2 <;> simp [Except.map]

/-- A run stops where the search stops. -/
theorem report_eq_error_iff {c : Cleaning} {startTime : Text} {stop : Stop Search.Failure} :
    (c.run host startTime s).report = .error stop
      ↔ (Search.find host c.settings s c.root c.flag).2 = .error stop := by
  rw [Cleaning.run]
  dsimp only
  cases (Search.find host c.settings s c.root c.flag).2 with
  | error stop' => simp
  | ok found => simp

/-- **Every fault has its cause**: it stops the run before the files are worked through, or it loses
the report. -/
theorem escapes_iff :
    Escapes host rules o s clock f
      ↔ cleaning host rules o s = .error (.fault f)
        ∨ (∃ c, cleaning host rules o s = .ok c
          ∧ (c.run host clock.start s).report = .error (.fault f))
        ∨ ∃ c r, cleaning host rules o s = .ok c ∧ (c.run host clock.start s).report = .ok r
          ∧ LosesReport host o (c.run host clock.start s).state
            { r with elapsed := clock.elapsed } f := by
  simp only [cleaning_eq_fault_iff, report_eq_error_iff, Search.find_eq_fault_iff]
  constructor
  · intro h
    cases h with
    | blankPath hblank => exact .inl (.inl (root_eq_error_iff.mpr (.inl ⟨hblank, rfl⟩)))
    | unresolved f hpath hroot => exact .inl (.inl (root_eq_error_iff.mpr (.inr ⟨hpath, hroot⟩)))
    | blankConfig top htop hblank =>
        exact .inl (.inr ⟨top, htop, settings_eq_fault_iff.mpr (.inl ⟨hblank, rfl⟩)⟩)
    | settings top f htop hconfig hbreaks =>
        exact .inl (.inr ⟨top, htop, settings_eq_fault_iff.mpr (.inr ⟨hconfig, hbreaks⟩)⟩)
    | search c f hc hbreaks => exact .inr (.inl ⟨c, hc, hbreaks⟩)
    | report c r f hc hr hloses => exact .inr (.inr ⟨c, r, hc, hr, hloses⟩)
  · rintro ((hroot | ⟨top, htop, hsettings⟩) | ⟨c, hc, hbreaks⟩ | ⟨c, r, hc, hr, hloses⟩)
    · rcases root_eq_error_iff.mp hroot with ⟨hblank, rfl⟩ | ⟨hpath, hroot⟩
      · exact .blankPath hblank
      · exact .unresolved f hpath hroot
    · rcases settings_eq_fault_iff.mp hsettings with ⟨hblank, rfl⟩ | ⟨hconfig, hbreaks⟩
      · exact .blankConfig top htop hblank
      · exact .settings top f htop hconfig hbreaks
    · exact .search c f hc hbreaks
    · exact .report c r f hc hr hloses

end Command

end Unflag
