/-
Nothing is lost in a run.

The search accepts a file for its suffix, two filters give it to a worker for its suffix, two
batches run, and a report is filled by path. A file could get lost at each of these seams. None
does: a suffix that the search accepts is one of the two filters' and of one of them only
(`isText_of_isSource`), so the two batches are one batch over all found files (`process_eq`), and
each outcome names the path that it is recorded for (`isOf_settle`), so that the report has the
ledger of that batch.

The other files stay what they are. A found file sits at a leaf of the disk, and as long as only
leaves are changed, every found path goes on leading to its own place; so each write and each
removal is a change at the place of a found file (`changedAt_process`). This also holds of a tree
with links in it, where a worker may find its file gone or changed by another.
-/
import Mathlib
import Unflag.Cleaning
import Unflag.Proofs.FileChange
import Unflag.Proofs.FoundFiles
import Unflag.Proofs.Separation

set_option autoImplicit false

namespace Unflag

/-! ## Batches and reports -/

theorem Ledger.mem_put {l : Ledger} {p : Path} {o : Outcome} {e : Path × Outcome}
    (h : e ∈ l.put p o) : e = (p, o) ∨ e ∈ l := by
  induction l with
  | nil => exact .inl (List.mem_singleton.mp h)
  | cons x r ih =>
      rw [put] at h
      split at h
      · rcases List.mem_cons.mp h with rfl | he
        · exact .inl rfl
        · exact .inr (List.mem_cons_of_mem x he)
      · rcases List.mem_cons.mp h with rfl | he
        · exact .inr List.mem_cons_self
        · exact (ih he).imp_right (List.mem_cons_of_mem x)

namespace Batch

variable {σ : Type} (work : Path → σ → Session.Result σ)

/-- A batch keeps what each of its files keeps. -/
theorem run_keeps (P : σ → Prop) {paths : List Path}
    (h : ∀ p ∈ paths, ∀ s, P s → P (work p s).state) {s : σ} (hs : P s) :
    P (run work paths s).state := by
  induction paths using List.reverseRecOn with
  | nil => exact hs
  | append_singleton ps p ih =>
      rw [run_append_singleton]
      exact h p List.mem_concat_self _ (ih fun q hq => h q (List.mem_append_left [p] hq))

/-- What holds of every outcome that is recorded holds of the ledger. -/
theorem forall_mem_ledger (P : Path → Outcome → Prop)
    (h : ∀ p s, P p (settle p (work p s).outcome).1) (paths : List Path) (s : σ) :
    ∀ e ∈ (run work paths s).ledger, P e.1 e.2 := by
  induction paths using List.reverseRecOn with
  | nil => exact fun e he => absurd he List.not_mem_nil
  | append_singleton ps p ih =>
      rw [run_append_singleton]
      intro e he
      rcases Ledger.mem_put he with rfl | he
      · exact h p (run work ps s).state
      · exact ih e he

/-- The paths of a batch are recorded in their order. -/
theorem paths_run {paths : List Path} (hnodup : paths.Nodup) (s : σ) :
    (run work paths s).ledger.paths = paths := by
  induction paths using List.reverseRecOn with
  | nil => rfl
  | append_singleton ps p ih =>
      rw [List.nodup_append_comm, List.singleton_append, List.nodup_cons] at hnodup
      have hps := ih hnodup.2
      have hnew : p ∉ (run work ps s).ledger.paths := by
        rw [hps]
        exact hnodup.1
      rw [run_append_singleton, step]
      dsimp only
      rw [Ledger.put_of_notMem hnew, Ledger.paths, List.map_append, ← Ledger.paths, hps]
      rfl

/-- **Two batches, one after the other, are one batch.** -/
theorem run_append {ps qs : List Path} (hnodup : (ps ++ qs).Nodup) (s : σ) :
    run work (ps ++ qs) s
      = ⟨(run work qs (run work ps s).state).state,
          (run work ps s).records ++ (run work qs (run work ps s).state).records,
          (run work ps s).ledger ++ (run work qs (run work ps s).state).ledger⟩ := by
  induction qs using List.reverseRecOn with
  | nil =>
      rw [List.append_nil]
      simp [run]
  | append_singleton qs q ih =>
      rw [← List.append_assoc] at hnodup ⊢
      rw [List.nodup_append_comm, List.singleton_append, List.nodup_cons, List.mem_append,
        not_or] at hnodup
      have hps := paths_run work hnodup.2.of_append_left s
      have hqs := paths_run work hnodup.2.of_append_right (run work ps s).state
      have hnew : q ∉ (run work qs (run work ps s).state).ledger.paths := by
        rw [hqs]
        exact hnodup.1.2
      -- `q` is new to the ledger of the second batch, and to that of both
      have hnew' : q ∉ ((run work ps s).ledger
          ++ (run work qs (run work ps s).state).ledger).paths := by
        rw [Ledger.paths, List.map_append, ← Ledger.paths, ← Ledger.paths, hps, hqs]
        simpa using hnodup.1
      rw [run_append_singleton, ih hnodup.2, step, run_append_singleton, step]
      dsimp only
      rw [Ledger.put_of_notMem hnew, Ledger.put_of_notMem hnew']
      simp only [List.append_assoc]

/-- What is recorded for a path is how its worker ended on the state that it found. -/
theorem lookup_run {before after : List Path} {p : Path} (hnodup : (before ++ p :: after).Nodup)
    (s : σ) :
    (run work (before ++ p :: after) s).ledger.lookup p
      = some (settle p (work p (run work before s).state).outcome).1 := by
  have hbefore := paths_run work hnodup.of_append_left s
  have hnone : (run work before s).ledger.lookup p = none := by
    rw [List.lookup_eq_none_iff]
    intro e he
    rw [bne_iff_ne]
    rintro rfl
    have hmem : e.1 ∈ (run work before s).ledger.paths := List.mem_map_of_mem he
    rw [hbefore] at hmem
    exact List.disjoint_of_nodup_append hnodup hmem List.mem_cons_self
  rw [run_append work hnodup]
  dsimp only
  rw [List.lookup_append, hnone, Option.none_or, ← List.singleton_append,
    run_append work hnodup.of_append_right]
  dsimp only
  rw [List.lookup_append]
  exact congrArg (Option.or · _) List.lookup_cons_self

theorem run_congr {work work' : Path → σ → Session.Result σ} {paths : List Path}
    (h : ∀ p ∈ paths, work p = work' p) (s : σ) : run work paths s = run work' paths s := by
  refine List.foldl_ext _ _ _ ?_
  intro b p hp
  rw [step, step, h p hp]

end Batch

/-- A report takes over a ledger whose outcomes name the paths they are recorded for. -/
theorem Report.foldl_add {l : Ledger} (hpaths : l.paths.Nodup)
    (hnames : ∀ e ∈ l, e.2.path = e.1) (r : Report) :
    l.outcomes.foldl Report.add { r with ledger := [] } = { r with ledger := l } := by
  induction l using List.reverseRecOn with
  | nil => rfl
  | append_singleton l e ih =>
      rw [Ledger.paths, List.map_append, List.map_singleton, List.nodup_append_comm,
        List.singleton_append, List.nodup_cons] at hpaths
      have hl := ih hpaths.2 fun x hx => hnames x (List.mem_append_left [e] hx)
      have hpath : e.2.path = e.1 := hnames e List.mem_concat_self
      rw [Ledger.outcomes, List.map_append, List.foldl_append, ← Ledger.outcomes, hl]
      simp only [List.map_cons, List.map_nil, List.foldl_cons, List.foldl_nil, Report.add, hpath]
      rw [Ledger.put_of_notMem hpaths.1]

/-! ## Changes at the places of found files -/

namespace Disk.Located

variable {codecs : Codecs} {d a b : Disk} {found : List Path} {p : Path} (hfound : d.Located found)

include hfound

/-- The places of found files are leaves. -/
theorem isLeaf : ∀ q, d.IsPlaceOf found q → IsLeaf d.top q := by
  rintro q ⟨p, hp, hplace⟩
  obtain ⟨dir, n, hsits⟩ := hfound.sits p hp
  obtain ⟨_, _, _, hfile⟩ := hfound.file p hp
  rw [hsits.findLink, Found.place?_ofBare] at hplace
  rw [← Option.some.inj hplace]
  exact hsits.isLeaf hfile

/-- A found path keeps its place, whatever was changed at the places of found files. -/
theorem sits_of_changedAt (ha : d.ChangedAt (d.IsPlaceOf found) a) (hp : p ∈ found) :
    ∃ dir n, d.placeOf p = dir ++ [n] ∧ d.IsPlaceOf found (dir ++ [n]) ∧ a.Sits p dir n := by
  obtain ⟨dir, n, hsits⟩ := hfound.sits p hp
  exact ⟨dir, n, hsits.placeOf, hsits.isPlaceOf hp, ha.sits hfound.isLeaf hsits⟩

/-- Writing a found file sets what is at its place. -/
theorem replaceText_of_changedAt (codecs : Codecs) (ha : d.ChangedAt (d.IsPlaceOf found) a)
    (hp : p ∈ found) (encoding text : Text) :
    match writtenBytes codecs encoding p text with
    | .error f => replaceText codecs .none encoding a p text = .error f
    | .ok bytes => ∃ a', replaceText codecs .none encoding a p text = .ok a'
        ∧ a'.IsSetAt a (d.placeOf p)
          (some (.file bytes ((a.mode? p).getD Replacement.temporaryMode))) := by
  obtain ⟨dir, n, hplace, hmem, hsits⟩ := hfound.sits_of_changedAt ha hp
  rw [hplace]
  exact hsits.replaceText (ha.not_directory hfound.isLeaf hmem) encoding text

/-- Removing a found file leaves nothing at its place. -/
theorem remove_of_changedAt (ha : d.ChangedAt (d.IsPlaceOf found) a) (hp : p ∈ found) :
    match Listing.bareAt? (d.placeOf p) a.top with
    | none => a.remove p = .error (Refused.fault .noEntry p)
    | some _ => ∃ a', a.remove p = .ok a' ∧ a'.IsSetAt a (d.placeOf p) none := by
  obtain ⟨dir, n, hplace, hmem, hsits⟩ := hfound.sits_of_changedAt ha hp
  rw [hplace]
  exact hsits.remove (ha.not_directory hfound.isLeaf hmem)

/-- A change at the place of a found file is one of the changes that may be, and it is at the place
of no other found file. -/
theorem changedAt_of_isSetAt (ha : d.ChangedAt (d.IsPlaceOf found) a) (hp : p ∈ found)
    {e : Option Entry} (he : e = none ∨ ∃ bytes mode, e = some (.file bytes mode))
    (hset : b.IsSetAt a (d.placeOf p) e) :
    d.ChangedAt (d.IsPlaceOf found) b ∧ ∀ q, q ∈ found → q ≠ p →
      Listing.bareAt? (d.placeOf q) b.top = Listing.bareAt? (d.placeOf q) a.top := by
  obtain ⟨dir, n, hplace, hmem, _⟩ := hfound.sits_of_changedAt ha hp
  refine ⟨ha.set (hplace ▸ hmem) he hset, ?_⟩
  intro q hq hne
  rw [hset.bareAt?, if_neg fun h => hne (hfound.apart q hq p hp h)]

/-- What a write keeps, -/
theorem write_keeps {encoding text : Text} (ha : d.ChangedAt (d.IsPlaceOf found) a)
    (hp : p ∈ found) (hwrite : (Disk.store codecs encoding).write a p text = .ok b) :
    d.ChangedAt (d.IsPlaceOf found) b ∧ ∀ q, q ∈ found → q ≠ p →
      Listing.bareAt? (d.placeOf q) b.top = Listing.bareAt? (d.placeOf q) a.top := by
  have hcases := hfound.replaceText_of_changedAt codecs ha hp encoding text
  split at hcases
  · exact absurd (hcases.symm.trans hwrite) (by simp)
  · obtain ⟨b', hb', hset⟩ := hcases
    cases hb'.symm.trans hwrite
    exact hfound.changedAt_of_isSetAt ha hp (.inr ⟨_, _, rfl⟩) hset

/-- and a removal. -/
theorem remove_keeps (ha : d.ChangedAt (d.IsPlaceOf found) a) (hp : p ∈ found)
    (hremove : a.remove p = .ok b) :
    d.ChangedAt (d.IsPlaceOf found) b ∧ ∀ q, q ∈ found → q ≠ p →
      Listing.bareAt? (d.placeOf q) b.top = Listing.bareAt? (d.placeOf q) a.top := by
  have hcases := hfound.remove_of_changedAt ha hp
  split at hcases
  · exact absurd (hcases.symm.trans hremove) (by simp)
  · obtain ⟨b', hb', hset⟩ := hcases
    cases hb'.symm.trans hremove
    exact hfound.changedAt_of_isSetAt ha hp (.inl rfl) hset

end Disk.Located

/-! ## Outcomes and their paths -/

/-- The outcome is one of this path, and if it is a failure it has a kind. -/
def Outcome.IsOf (o : Outcome) (p : Path) : Prop :=
  o.path = p ∧ (!o.failed || o.error.isSome) = true

theorem CarriedOut.isOf {path : Path} {dryRun : Bool} {e : Except Edit.Fault Edit}
    {calls : List Call} {outcome : Except Fault Outcome}
    (h : CarriedOut path dryRun e calls outcome) {o : Outcome} (ho : outcome = .ok o) :
    o.IsOf path := by
  cases h with
  | raised | writeRaised | removeRaised => exact absurd ho (by simp)
  | planned new isEmpty =>
      cases ho
      cases isEmpty <;> exact ⟨rfl, rfl⟩
  | _ =>
      cases ho
      exact ⟨rfl, rfl⟩

theorem Ending.isOf {σ : Type} {store : Store σ} {edit : Text → Except Edit.Fault Edit}
    {dryRun : Bool} {path : Path} {s : σ} {calls : List Call} {outcome : Except Fault Outcome}
    (h : Ending store edit dryRun path s calls outcome) {o : Outcome} (ho : outcome = .ok o) :
    o.IsOf path := by
  cases h with
  | probeRaised | readRaised => exact absurd ho (by simp)
  | opened text e calls outcome hholds hread hedit hcarried => exact hcarried.isOf ho
  | _ =>
      cases ho
      exact ⟨rfl, rfl⟩

namespace Cleaning

/-- The worker for a file. -/
def session (c : Cleaning) (p : Path) : Session :=
  if isParsed c.settings p then
    Worker.source (String.ofList c.settings.conditionPrecedence) c.dryRun c.flag p
  else Worker.chains c.dryRun c.flag p

/-- The found files in the order in which they are worked through. -/
def order (c : Cleaning) (found : List Path) : List Path :=
  found.filter (isParsed c.settings) ++ found.filter (isText c.settings)

variable {σ : Type} {host : Host σ} {c : Cleaning} {found : List Path} {s : σ}

/-- What the worker for a file does on a machine. -/
def work (host : Host σ) (c : Cleaning) (p : Path) : σ → Session.Result σ :=
  (c.session p).run (host.store c.settings.encoding) p

/-- The outcome that is recorded for a file is one of this file. -/
theorem isOf_settle (host : Host σ) (c : Cleaning) (p : Path) (s : σ) :
    (Batch.settle p (c.work host p s).outcome).1.IsOf p := by
  cases houtcome : (c.work host p s).outcome with
  | error f => exact ⟨rfl, rfl⟩
  | ok o =>
      rw [Batch.settle]
      rw [work, session] at houtcome
      split at houtcome
      · exact (ending_source _ c.flag).isOf houtcome
      · exact (ending_chains c.flag).isOf houtcome

/-- A file that the search accepts is given to one of the workers, and to one only. -/
theorem isText_of_isSource {o : Settings} {p : Path} (h : Search.isSource o p = true) :
    isText o p = !isParsed o p := by
  rw [Search.isSource, Settings.sourceExtensions, List.contains_eq_mem, decide_eq_true_iff,
    List.mem_append] at h
  rw [isText]
  cases hparsed : isParsed o p with
  | true => rfl
  | false =>
      rw [isParsed, List.contains_eq_mem, decide_eq_false_iff_not] at hparsed
      simpa using h.resolve_left hparsed

/-- Only found files are worked through, -/
theorem mem_of_mem_order {p : Path} (h : p ∈ c.order found) : p ∈ found := by
  rcases List.mem_append.mp h with h | h
  · exact (List.mem_filter.mp h).1
  · exact (List.mem_filter.mp h).1

/-- and none of them twice. -/
theorem nodup_order (h : found.Nodup) : (c.order found).Nodup := by
  refine (h.filter _).append (h.filter _) ?_
  intro p hparsed htext
  have hp := (List.mem_filter.mp htext).2
  rw [isText, (List.mem_filter.mp hparsed).2] at hp
  cases hp

/-- If all found files are sources, all are worked through. -/
theorem order_perm (hsources : ∀ p ∈ found, Search.isSource c.settings p = true) :
    (c.order found).Perm found := by
  have htext : found.filter (isText c.settings)
      = found.filter fun p => !isParsed c.settings p :=
    List.filter_congr fun p hp => isText_of_isSource (hsources p hp)
  rw [order, htext]
  exact List.filter_append_perm (isParsed c.settings) found

/-- Two batches, in which each file is given to its own worker. -/
theorem process_eq_batches (host : Host σ) (c : Cleaning) (found : List Path) (s : σ) :
    c.process host found s =
      let parsed := Batch.run (c.work host) (found.filter (isParsed c.settings)) s
      let text := Batch.run (c.work host) (found.filter (isText c.settings)) parsed.state
      ⟨text.state, parsed.records ++ text.records, parsed.ledger ++ text.ledger⟩ := by
  have hparsed : ∀ p ∈ found.filter (isParsed c.settings),
      c.work host p = c.parsedWork host p := by
    intro p hp
    rw [work, session, if_pos (List.mem_filter.mp hp).2]
    rfl
  have htext : ∀ p ∈ found.filter (isText c.settings), c.work host p = c.textWork host p := by
    intro p hp
    have hp := (List.mem_filter.mp hp).2
    rw [isText, Bool.and_eq_true, Bool.not_eq_true'] at hp
    rw [work, session, if_neg (by simp [hp.1])]
    rfl
  dsimp only
  rw [Batch.run_congr hparsed, Batch.run_congr htext]
  rfl

/-- **One batch.** The two kinds of files are worked through as one list. -/
theorem process_eq (hnodup : found.Nodup) :
    c.process host found s = Batch.run (c.work host) (c.order found) s := by
  rw [order, Batch.run_append (c.work host) (nodup_order (c := c) hnodup), process_eq_batches]

/-- The report of a run that found so many files and ended with this ledger. -/
def reportWith (c : Cleaning) (startTime : Text) (total : Nat) (ledger : Ledger) : Report :=
  { Report.start c.root c.flag c.dryRun startTime with total, ledger }

/-- **What a run comes to**: one batch over the found files, whose ledger is that of the report. -/
theorem run_of_found (startTime : Text) (hnodup : found.Nodup)
    (h : (Search.find host c.settings s c.root c.flag).2 = .ok found) :
    (c.run host startTime s).state = (Batch.run (c.work host) (c.order found) s).state
      ∧ (c.run host startTime s).report = .ok (c.reportWith startTime found.length
        (Batch.run (c.work host) (c.order found) s).ledger) := by
  have horder := nodup_order (c := c) hnodup
  rw [run]
  dsimp only
  rw [h]
  dsimp only
  rw [process_eq hnodup]
  refine ⟨rfl, congrArg Except.ok ?_⟩
  -- the report is filled by the paths in the outcomes, which are those of the ledger
  have hnames := Batch.forall_mem_ledger (c.work host) (fun p o => o.path = p)
    (fun p s => (c.isOf_settle host p s).1) (c.order found) s
  have hpaths : (Batch.run (c.work host) (c.order found) s).ledger.paths.Nodup := by
    rw [Batch.paths_run (c.work host) horder]
    exact horder
  exact Report.foldl_add hpaths hnames (c.reportWith startTime found.length [])

/-- A run without findings stops where the search stopped. -/
theorem run_of_stop {stop : Stop Search.Failure} (startTime : Text)
    (h : (Search.find host c.settings s c.root c.flag).2 = .error stop) :
    (c.run host startTime s).state = s ∧ (c.run host startTime s).report = .error stop := by
  rw [run]
  dsimp only
  rw [h]
  exact ⟨rfl, rfl⟩

variable {codecs : Codecs} {tool : Option (Tool Disk)} {d : Disk}

/-- **A run changes the disk at the places of the found files only.** -/
theorem changedAt_process (hfound : d.Located found) :
    d.ChangedAt (d.IsPlaceOf found)
      (Batch.run (c.work (Disk.host codecs tool)) (c.order found) d).state := by
  refine Batch.run_keeps (c.work (Disk.host codecs tool)) (d.ChangedAt (d.IsPlaceOf found)) ?_
    (.refl d _)
  intro p hp s hs
  refine Session.run_keeps (d.ChangedAt (d.IsPlaceOf found)) ?_ ?_ (c.session p) hs
  · intro a text b ha hwrite
    exact (hfound.write_keeps ha (mem_of_mem_order hp) hwrite).1
  · intro a b ha hremove
    exact (hfound.remove_keeps ha (mem_of_mem_order hp) hremove).1

/-! ## The account -/

/-- The report of a run accounts for the found files; `after` is the disk that the run leaves. -/
structure Accounts (host : Host Disk) (c : Cleaning) (d : Disk) (found : List Path) (after : Disk)
    (r : Report) : Prop where
  total : r.total = found.length
  /-- The report has the found paths, each of them once. -/
  paths : r.ledger.paths.Perm found
  distinct : r.ledger.paths.Nodup
  processed : r.ledger.length = r.total
  /-- Each file is given to one worker, and to that which parses if its suffix is one of both. -/
  oneWorker : ∀ p ∈ found, isText c.settings p = !isParsed c.settings p
  /-- The workers run one after the other, each on the disk that the one before has left. -/
  disk : after = (Batch.run (c.work host) r.ledger.paths d).state
  /-- What a worker ends in is its file's outcome, and a fault is a failure of its file. -/
  outcome : ∀ p before rest, r.ledger.paths = before ++ p :: rest →
    r.outcome? p = match (c.work host p (Batch.run (c.work host) before d).state).outcome with
      | .ok o => some o
      | .error f => some (.failure p .internalError f.message)
  /-- Whatever is at any other place stays there as it was. -/
  others : ∀ q, ¬ d.IsPlaceOf found q → Listing.bareAt? q after.top = Listing.bareAt? q d.top

end Cleaning

/-- **A run accounts for every file that it finds** by walking, whatever is on the disk. -/
theorem report_accounts_for_found (codecs : Codecs) (tool : Option (Tool Disk)) (c : Cleaning)
    (startTime : Text) (d : Disk)
    (hwalk : Search.tool? (Disk.host codecs tool) c.settings = none) (htidy : d.isTidy = true)
    {r : Report} (h : (c.run (Disk.host codecs tool) startTime d).report = .ok r) :
    ∃ found, (Search.files (Disk.host codecs tool) c.settings d c.root c.flag).2 = .ok found
      ∧ c.Accounts (Disk.host codecs tool) d found (c.run (Disk.host codecs tool) startTime d).state
        r := by
  let host := Disk.host codecs tool
  have hsearch := Search.find_snd_of_walk (s := d) hwalk c.root c.flag
  cases hfiles : (Search.files (Disk.host codecs tool) c.settings d c.root c.flag).2 with
  | error stop =>
      rw [(Cleaning.run_of_stop startTime (hsearch.trans hfiles)).2] at h
      exact absurd h (by simp)
  | ok found =>
      obtain ⟨hsources, hlocated⟩ := Search.located_of_files htidy hfiles
      obtain ⟨hstate, hreport⟩ :=
        Cleaning.run_of_found startTime hlocated.distinct (hsearch.trans hfiles)
      have hr : c.reportWith startTime found.length
          (Batch.run (c.work host) (c.order found) d).ledger = r :=
        Except.ok.inj (hreport.symm.trans h)
      have hledger : r.ledger = (Batch.run (c.work host) (c.order found) d).ledger := by
        rw [← hr]
        rfl
      have htotal : r.total = found.length := by
        rw [← hr]
        rfl
      have hperm := Cleaning.order_perm hsources
      have horder := Cleaning.nodup_order (c := c) hlocated.distinct
      have hpaths : r.ledger.paths = c.order found := by
        rw [hledger, Batch.paths_run (c.work host) horder]
      refine ⟨found, rfl, ?_⟩
      constructor
      case total => exact htotal
      case paths =>
        rw [hpaths]
        exact hperm
      case distinct =>
        rw [hpaths]
        exact horder
      case processed =>
        have hlength := congrArg List.length hpaths
        rwa [Ledger.paths, List.length_map, hperm.length_eq, ← htotal] at hlength
      case oneWorker => exact fun p hp => Cleaning.isText_of_isSource (hsources p hp)
      case disk => rw [hstate, hpaths]
      case outcome =>
        intro p before rest hsplit
        rw [hpaths] at hsplit
        rw [hsplit] at horder hledger
        rw [Report.outcome?, hledger, Batch.lookup_run (c.work host) horder]
        cases (c.work host p (Batch.run (c.work host) before d).state).outcome with
        | ok o => rfl
        | error f => rfl
      case others =>
        rw [hstate]
        exact (Cleaning.changedAt_process hlocated).others

/-- A file of ASCII text. -/
def Entry.ofAscii (text : String) : Entry :=
  .file (text.toList.map fun c => c.toNat.toUInt8) 0o644

/-- A directory with a source of each kind, one without the flag, and a link to a file outside. -/
def Disk.linkedTree : Disk where
  top :=
    [("p".toList, .dir
      [("a.swift".toList, .ofAscii "#if A\nlet a = 1\n#endif\n"),
        ("b.h".toList, .ofAscii "#ifdef A\nint b;\n#endif\n"),
        ("c.h".toList, .ofAscii "int c;\n"),
        ("l.h".toList, .link "../x.txt".toList)]),
      ("x.txt".toList, .ofAscii "#if A\nint x;\n#endif\n")]
  here := []

/-- In a directory with a link, three files are found and accounted for. -/
theorem report_accounts_for_found_linked :
    ∃ c r, c = (⟨⟨.root, ["p".toList]⟩, "A".toList, .default, false, false⟩ : Cleaning)
      ∧ Disk.linkedTree.isTidy = true
      ∧ (c.run (Disk.host .standard none) [] Disk.linkedTree).report = .ok r
      ∧ c.Accounts (Disk.host .standard none) Disk.linkedTree
        [⟨.root, ["p".toList, "a.swift".toList]⟩, ⟨.root, ["p".toList, "b.h".toList]⟩,
          ⟨.root, ["p".toList, "l.h".toList]⟩]
        (c.run (Disk.host .standard none) [] Disk.linkedTree).state r := by
  let c : Cleaning := ⟨⟨.root, ["p".toList]⟩, "A".toList, .default, false, false⟩
  let host := Disk.host .standard none
  have htidy : Disk.linkedTree.isTidy = true := by decide +kernel
  have hfiles : (Search.files host c.settings Disk.linkedTree c.root c.flag).2
      = .ok [⟨.root, ["p".toList, "a.swift".toList]⟩, ⟨.root, ["p".toList, "b.h".toList]⟩,
        ⟨.root, ["p".toList, "l.h".toList]⟩] := by
    cbv
  have hwalk : Search.tool? host c.settings = none := by decide +kernel
  have hsearch := (Search.find_snd_of_walk hwalk c.root c.flag).trans hfiles
  have hdistinct := (Search.located_of_files htidy hfiles).2.distinct
  have hreport := (Cleaning.run_of_found [] hdistinct hsearch).2
  obtain ⟨found, hfound, haccounts⟩ :=
    report_accounts_for_found .standard none c [] Disk.linkedTree hwalk htidy hreport
  obtain rfl := Except.ok.inj (hfiles.symm.trans hfound)
  exact ⟨c, _, rfl, htidy, hreport, haccounts⟩

end Unflag
