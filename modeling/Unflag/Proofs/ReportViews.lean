/-
What a report shows of its history.

A report is given one outcome after the other and keeps the last one of each path, in a ledger that
is in no useful order. Everything it shows is read off this ledger: the paths by status, the
unchanged paths under the headings of their suffixes, the document, and the summary. Here the views
are compared with the history itself, in which the last outcome of a path is looked up from the end
(`lastOf?`); they agree with it, and so with each other (`Report.views_show_history`).

Two notions carry the proofs. A ledger tallies a history if it has the last outcome of each path,
each path once, which one more outcome keeps (`Ledger.Tallies.put`). And a list of paths is the
listing of a property if it is strictly increasing and has exactly the paths with the property; a
view by status is one, and each group of a listing under a heading is one again.
-/
import Mathlib.Data.List.Permutation
import Unflag.Proofs.PathOrder
import Unflag.Proofs.Separation
import Unflag.Report

set_option autoImplicit false

namespace Unflag

/-! ## Histories and their ledgers -/

/-- The last outcome of a path in a history. -/
def lastOf? (os : List Outcome) (p : Path) : Option Outcome :=
  os.reverse.find? fun o => o.path == p

theorem lastOf?_concat (os : List Outcome) (o : Outcome) (p : Path) :
    lastOf? (os ++ [o]) p = if p = o.path then some o else lastOf? os p := by
  rw [lastOf?, List.reverse_concat, List.find?_cons]
  by_cases hp : p = o.path
  · simp [hp]
  · rw [if_neg hp, beq_eq_false_iff_ne.mpr (Ne.symm hp)]
    rfl

theorem path_of_lastOf? {os : List Outcome} {p : Path} {o : Outcome} (h : lastOf? os p = some o) :
    o ∈ os ∧ o.path = p :=
  ⟨List.mem_reverse.mp (List.mem_of_find?_eq_some h), by simpa using List.find?_some h⟩

/-- The paths with a last outcome are those that occur. -/
theorem exists_lastOf?_iff {os : List Outcome} {p : Path} :
    (∃ o, lastOf? os p = some o) ↔ ∃ o ∈ os, o.path = p := by
  rw [← Option.isSome_iff_exists, lastOf?, List.find?_isSome]
  simp

namespace Ledger

variable {l : Ledger} {os : List Outcome}

/-- The ledger holds the last outcome of each path of a history, and each path once. -/
structure Tallies (l : Ledger) (os : List Outcome) : Prop where
  distinct : l.paths.Nodup
  lookup_eq : ∀ p, l.lookup p = lastOf? os p

/-- A path that is in the ledger keeps its place. -/
theorem paths_put_of_mem {p : Path} (h : p ∈ l.paths) (o : Outcome) :
    (l.put p o).paths = l.paths := by
  induction l with
  | nil => exact absurd h List.not_mem_nil
  | cons e r ih =>
      rw [put]
      split
      · next he => rw [paths, paths, List.map_cons, List.map_cons, he]
      · next he =>
        have hr : p ∈ paths r := (List.mem_cons.mp h).resolve_left fun hp => he hp.symm
        rw [paths, List.map_cons, ← paths, ih hr]
        rfl

/-- **One more outcome** takes the place of that of its path, in the ledger as in the history. -/
theorem Tallies.put (h : l.Tallies os) (o : Outcome) : (l.put o.path o).Tallies (os ++ [o]) := by
  constructor
  · by_cases hmem : o.path ∈ l.paths
    · rw [paths_put_of_mem hmem]
      exact h.distinct
    · rw [put_of_notMem hmem, paths, List.map_append, ← paths]
      exact List.nodup_append_comm.mp (List.nodup_cons.mpr ⟨hmem, h.distinct⟩)
  · intro p
    rw [lookup_put, lastOf?_concat, h.lookup_eq]

theorem lookup_of_mem (hdistinct : l.paths.Nodup) {p : Path} {o : Outcome} (h : (p, o) ∈ l) :
    l.lookup p = some o := by
  induction l with
  | nil => exact absurd h List.not_mem_nil
  | cons e r ih =>
      rw [paths, List.map_cons, List.nodup_cons] at hdistinct
      rw [lookup_cons_eq_ite]
      rcases List.mem_cons.mp h with rfl | hr
      · exact if_pos rfl
      · have hne : p ≠ e.1 := by
          rintro rfl
          exact hdistinct.1 (List.mem_map.mpr ⟨_, hr, rfl⟩)
        rw [if_neg hne]
        exact ih hdistinct.2 hr

theorem Tallies.mem_iff (h : l.Tallies os) {p : Path} {o : Outcome} :
    (p, o) ∈ l ↔ lastOf? os p = some o := by
  rw [← h.lookup_eq]
  constructor
  · exact lookup_of_mem h.distinct
  · intro hlookup
    obtain ⟨l₁, l₂, rfl, _⟩ := List.lookup_eq_some_iff.mp hlookup
    exact List.mem_append_right l₁ List.mem_cons_self

/-- Its paths are those that occur in the history. -/
theorem Tallies.mem_paths_iff (h : l.Tallies os) {p : Path} :
    p ∈ l.paths ↔ ∃ o ∈ os, o.path = p := by
  rw [← exists_lastOf?_iff, paths, List.mem_map]
  constructor
  · rintro ⟨⟨q, o⟩, he, rfl⟩
    exact ⟨o, h.mem_iff.mp he⟩
  · rintro ⟨o, ho⟩
    exact ⟨(p, o), h.mem_iff.mpr ho, rfl⟩

theorem Tallies.isProper (h : l.Tallies os) (hproper : ∀ o ∈ os, o.path.IsProper) :
    ∀ p ∈ l.paths, p.IsProper := by
  intro p hp
  obtain ⟨o, ho, rfl⟩ := h.mem_paths_iff.mp hp
  exact hproper o ho

end Ledger

/-- **A report tallies its history**, whatever outcomes it is given. -/
theorem Report.tallies_foldl_add (r : Report) (os : List Outcome) :
    (os.foldl Report.add { r with ledger := [] }).ledger.Tallies os := by
  induction os using List.reverseRecOn with
  | nil => exact ⟨List.nodup_nil, fun p => rfl⟩
  | append_singleton os o ih =>
      rw [List.foldl_append]
      exact ih.put o

/-! ## Listings of paths -/

namespace Path

/-- The paths with a property, strictly increasing. -/
structure IsListing (ps : List Path) (P : Path → Prop) : Prop where
  increasing : ps.Pairwise fun p q => le p q = true ∧ le q p = false
  mem_iff : ∀ p, p ∈ ps ↔ P p

variable {ps : List Path} {P Q : Path → Prop}

theorem isListing_sort (hdistinct : ps.Nodup) (hproper : ∀ p ∈ ps, p.IsProper) :
    IsListing (sort ps) fun p => p ∈ ps := by
  have hperm : (sort ps).Perm ps := List.mergeSort_perm ps le
  refine ⟨?_, fun p => hperm.mem_iff⟩
  exact pairwise_strict (fun p hp => hproper p (hperm.mem_iff.mp hp))
    (hperm.nodup_iff.mpr hdistinct) (pairwise_sort ps)

theorem IsListing.congr (h : IsListing ps P) (hPQ : ∀ p, P p ↔ Q p) : IsListing ps Q :=
  ⟨h.increasing, fun p => (h.mem_iff p).trans (hPQ p)⟩

theorem IsListing.filter (h : IsListing ps P) (f : Path → Bool) :
    IsListing (ps.filter f) fun p => p ∈ ps ∧ f p = true :=
  ⟨h.increasing.filter f, fun _ => List.mem_filter⟩

end Path

namespace Report

variable {r : Report} {os : List Outcome}

/-- **The paths whose last outcome passes a test** are listed. -/
theorem isListing_pathsWhere (h : r.ledger.Tallies os) (hproper : ∀ o ∈ os, o.path.IsProper)
    (test : Outcome → Bool) :
    Path.IsListing (r.pathsWhere test) fun p => ∃ o, lastOf? os p = some o ∧ test o = true := by
  have hsub : ((r.ledger.filter fun e => test e.2).map Prod.fst).Sublist r.ledger.paths :=
    List.filter_sublist.map Prod.fst
  refine (Path.isListing_sort (hsub.nodup h.distinct) fun p hp =>
    h.isProper hproper p (hsub.subset hp)).congr fun p => ?_
  simp [h.mem_iff]

/-! ## The document -/

/-- The entries of a report have the paths of its ledger in order, and name them themselves. -/
theorem paths_entries (h : r.ledger.Tallies os) :
    (r.entries.map Prod.snd).map Outcome.path = Path.sort r.ledger.paths
      ∧ ∀ o ∈ r.entries.map Prod.snd, lastOf? os o.path = some o := by
  have hlast : ∀ e ∈ r.entries, lastOf? os e.1 = some e.2 := fun e he =>
    h.mem_iff.mp (List.mem_mergeSort.mp he)
  have hpath : ∀ e ∈ r.entries, e.2.path = e.1 := fun e he => (path_of_lastOf? (hlast e he)).2
  constructor
  · calc (r.entries.map Prod.snd).map Outcome.path
        = r.entries.map Prod.fst := by
          rw [List.map_map]
          exact List.map_congr_left hpath
      _ = Path.sort r.ledger.paths := List.map_mergeSort fun _ _ _ _ => rfl
  · intro o ho
    obtain ⟨e, he, rfl⟩ := List.mem_map.mp ho
    rw [hpath e he]
    exact hlast e he

/-- The document: what is said of the run, and an object for each entry. -/
theorem json_eq (r : Report) :
    r.json = (JsonValue.object
      ([("root".toList, .string r.root.text), ("flag".toList, .string r.flag),
          ("start_time".toList, .string r.startTime), ("dry_run".toList, .bool r.dryRun),
          ("total_files".toList, .number (Nat.toDigits 10 r.total)),
          ("processed".toList, .number (Nat.toDigits 10 r.ledger.length)),
          ("elapsed_seconds".toList, .number r.elapsed.shortest)]
        ++ [("files".toList, .array ((r.entries.map Prod.snd).map outcomeJson))])).render := by
  rw [json, List.map_map]
  rfl

end Report

/-! ## Headings -/

namespace Text

theorem mem_insertSorted {t u : Text} {ts : List Text} :
    u ∈ insertSorted t ts ↔ u = t ∨ u ∈ ts := by
  induction ts with
  | nil => simp [insertSorted]
  | cons v r ih =>
      rw [insertSorted]
      split
      · next h => simp [h]
      · split
        · exact List.mem_cons
        · rw [List.mem_cons, ih, List.mem_cons]
          tauto

/-- An insertion keeps a list of distinct texts in order. -/
theorem pairwise_insertSorted {t : Text} {ts : List Text}
    (h : ts.Pairwise fun u v => le u v = true ∧ u ≠ v) :
    (insertSorted t ts).Pairwise fun u v => le u v = true ∧ u ≠ v := by
  induction ts with
  | nil => exact List.pairwise_singleton _ t
  | cons v r ih =>
      obtain ⟨hv, hr⟩ := List.pairwise_cons.mp h
      rw [insertSorted]
      split
      · exact h
      · next hne =>
        split
        · next hle =>
          refine List.pairwise_cons.mpr ⟨List.forall_mem_cons.mpr ⟨⟨hle, hne⟩, fun w hw => ?_⟩, h⟩
          refine ⟨le_trans hle (hv w hw).1, ?_⟩
          rintro rfl
          exact hne (le_antisymm hle (hv t hw).1)
        · next hle =>
          refine List.pairwise_cons.mpr ⟨fun w hw => ?_, ih hr⟩
          rcases mem_insertSorted.mp hw with rfl | hw
          · exact ⟨(le_total w v).resolve_left hle, Ne.symm hne⟩
          · exact hv w hw

theorem mem_sortDistinct {t : Text} {ts : List Text} : t ∈ sortDistinct ts ↔ t ∈ ts := by
  induction ts with
  | nil => rfl
  | cons u r ih =>
      rw [sortDistinct, List.foldr_cons, mem_insertSorted, ← sortDistinct, ih, List.mem_cons]

/-- **The distinct texts of a list are strictly increasing.** -/
theorem pairwise_sortDistinct (ts : List Text) :
    (sortDistinct ts).Pairwise fun u v => le u v = true ∧ le v u = false := by
  have hdistinct : (sortDistinct ts).Pairwise fun u v => le u v = true ∧ u ≠ v := by
    induction ts with
    | nil => exact .nil
    | cons u r ih => exact pairwise_insertSorted ih
  refine hdistinct.imp ?_
  rintro u v ⟨hle, hne⟩
  refine ⟨hle, ?_⟩
  by_contra hback
  exact hne (le_antisymm hle (by simpa using hback))

end Text

/-- Groups by distinct keys that cover a list are the list in another order. -/
theorem perm_flatMap_filter {α κ : Type} [BEq κ] [LawfulBEq κ] (key : α → κ) {ks : List κ}
    (hdistinct : ks.Nodup) {xs : List α} (hcovered : ∀ x ∈ xs, key x ∈ ks) :
    (ks.flatMap fun k => xs.filter fun x => key x == k).Perm xs := by
  induction ks generalizing xs with
  | nil =>
      rw [List.eq_nil_iff_forall_not_mem.mpr fun x hx => List.not_mem_nil (hcovered x hx)]
      exact .nil
  | cons k ks ih =>
      obtain ⟨hk, hks⟩ := List.nodup_cons.mp hdistinct
      -- the other groups are the groups of what is not in the first one
      have hothers : (ks.flatMap fun j => xs.filter fun x => key x == j)
          = ks.flatMap fun j => (xs.filter fun x => !(key x == k)).filter fun x => key x == j := by
        refine List.flatMap_congr fun j hj => ?_
        rw [List.filter_filter]
        refine List.filter_congr fun x _ => ?_
        by_cases hx : key x = j
        · have hjk : j ≠ k := fun h => hk (h ▸ hj)
          simp [hx, hjk]
        · simp [hx]
      have hrest : ∀ x ∈ xs.filter (fun x => !(key x == k)), key x ∈ ks := by
        intro x hx
        obtain ⟨hmem, hne⟩ := List.mem_filter.mp hx
        exact (List.mem_cons.mp (hcovered x hmem)).resolve_left (by simpa using hne)
      rw [List.flatMap_cons, hothers]
      exact ((ih hks hrest).append_left _).trans (List.filter_append_perm _ xs)

namespace Report

variable {r : Report}

/-- A suffix has its dot, so that no suffix is taken for the heading of the files without one. -/
theorem heading_eq_iff {p q : Path} : heading p = heading q ↔ p.suffix = q.suffix := by
  have hcases : ∀ p : Path, p.suffix = [] ∨ ∃ ext, p.suffix = '.' :: ext := by
    intro p
    rw [Path.suffix]
    split
    · rw [Path.suffixOf]
      split
      · exact .inl rfl
      · exact .inr ⟨_, rfl⟩
    · exact .inl rfl
  rcases hcases p with hp | ⟨e, hp⟩ <;> rcases hcases q with hq | ⟨e', hq⟩ <;>
    simp [heading, hp, hq]

theorem mem_unchangedByHeading {g : Text × List Path} :
    g ∈ r.unchangedByHeading ↔ (∃ p ∈ r.unchanged, heading p = g.1)
      ∧ g.2 = r.unchanged.filter fun p => heading p == g.1 := by
  obtain ⟨h, ps⟩ := g
  rw [unchangedByHeading, List.mem_map]
  constructor
  · rintro ⟨h', hmem, heq⟩
    cases heq
    exact ⟨List.mem_map.mp (Text.mem_sortDistinct.mp hmem), rfl⟩
  · rintro ⟨hmem, hps⟩
    exact ⟨h, Text.mem_sortDistinct.mpr (List.mem_map.mpr hmem), Prod.ext rfl hps.symm⟩

theorem headings_eq : r.unchangedByHeading.map Prod.fst
    = Text.sortDistinct (r.unchanged.map heading) := by
  rw [unchangedByHeading, List.map_map]
  exact List.map_id _

/-- **The groups are the unchanged files**, each of them in one group. -/
theorem perm_groups : (r.unchangedByHeading.flatMap Prod.snd).Perm r.unchanged := by
  have hdistinct : (Text.sortDistinct (r.unchanged.map heading)).Nodup :=
    (Text.pairwise_sortDistinct _).imp fun hlt heq => by
      rw [heq] at hlt
      exact absurd (hlt.1.symm.trans hlt.2) (by decide)
  have hgroups : r.unchangedByHeading.flatMap Prod.snd
      = (Text.sortDistinct (r.unchanged.map heading)).flatMap fun h =>
        r.unchanged.filter fun p => heading p == h := by
    rw [unchangedByHeading, List.flatMap_map]
  rw [hgroups]
  exact perm_flatMap_filter heading hdistinct fun p hp =>
    Text.mem_sortDistinct.mpr (List.mem_map_of_mem hp)

/-! ## The summary -/

/-- How many of the `n` paths of a group a summary names under a limit: all of them if it is zero,
and so many less if it is negative. -/
def named (limit : Int) (n : Nat) : Nat :=
  if limit = 0 then n else if 0 < limit then min limit.toNat n else n - limit.natAbs

/-- The records of a group of which `k` paths are named. -/
def groupLines (k : Nat) (g : Text × List Path) : List Record :=
  .warning s!"  {String.ofList g.1} ({g.2.length})"
    :: (g.2.take k).map (fun p => .warning s!"    {p.display}")
    ++ if k < g.2.length then [.warning s!"    ... and {g.2.length - k} more"] else []

theorem named_le (limit : Int) (n : Nat) : named limit n ≤ n := by
  unfold named
  split
  · exact Nat.le_refl n
  split
  · exact Nat.min_le_right _ n
  · exact Nat.sub_le n _

theorem shown_eq (limit : Int) (ps : List Path) :
    shown limit ps = ps.take (named limit ps.length) := by
  match limit with
  | .ofNat 0 => exact List.take_length.symm
  | .ofNat (n + 1) =>
      refine List.take_eq_take_iff.mpr ?_
      have hpos : (0 : Int) < .ofNat (n + 1) := Int.natCast_pos.mpr n.succ_pos
      rw [named, if_neg (Int.ne_of_gt hpos), if_pos hpos, Nat.min_assoc, Nat.min_self]
      rfl
  | .negSucc n =>
      have hneg : Int.negSucc n < 0 := Int.negSucc_lt_zero n
      rw [named, if_neg (Int.ne_of_lt hneg), if_neg (Int.not_lt.mpr (Int.le_of_lt hneg))]
      rfl

/-- The records of a group are those of the paths it names. -/
theorem groupRecords_eq (limit : Int) (g : Text × List Path) :
    groupRecords limit g = groupLines (named limit g.2.length) g := by
  have hlength : (shown limit g.2).length = named limit g.2.length := by
    rw [shown_eq, List.length_take, Nat.min_eq_left (named_le limit _)]
  rw [groupRecords, groupLines, hlength, shown_eq]
  rfl

theorem unchangedByHeading_eq_nil_iff : r.unchangedByHeading = [] ↔ r.unchanged = [] := by
  constructor
  · intro h
    have hperm := perm_groups (r := r)
    rw [h] at hperm
    exact hperm.nil_eq.symm
  · intro h
    refine List.eq_nil_iff_forall_not_mem.mpr fun g hg => ?_
    obtain ⟨⟨p, hp, _⟩, _⟩ := mem_unchangedByHeading.mp hg
    rw [h] at hp
    exact List.not_mem_nil hp

/-- The records of the unchanged files are a title and the lines of each group, or none. -/
theorem unchangedRecords_eq (limit : Int) (r : Report) :
    r.unchangedRecords limit
      = (if r.unchanged = [] then []
        else [.warning "⚠️  Files mentioning the flag that were left unchanged:"])
        ++ r.unchangedByHeading.flatMap fun g => groupLines (named limit g.2.length) g := by
  have hlines : groupRecords limit = fun g => groupLines (named limit g.2.length) g :=
    funext (groupRecords_eq limit)
  rw [unchangedRecords, hlines]
  split
  · next hnone =>
    rw [if_pos (unchangedByHeading_eq_nil_iff.mp hnone), hnone]
    rfl
  · next hsome =>
    rw [if_neg fun h => hsome (unchangedByHeading_eq_nil_iff.mpr h)]
    rfl

/-! Each kind of record has a level of its own. -/

theorem level_of_mem_groupLines {k : Nat} {g : Text × List Path} {x : Record}
    (h : x ∈ groupLines k g) : x.level = .warning := by
  rw [groupLines, List.mem_append, List.mem_cons, List.mem_map] at h
  rcases h with (rfl | ⟨p, _, rfl⟩) | h
  · rfl
  · rfl
  · split at h
    · rw [List.mem_singleton.mp h]
      rfl
    · exact absurd h List.not_mem_nil

theorem level_of_mem_unchangedRecords {limit : Int} {x : Record}
    (h : x ∈ r.unchangedRecords limit) : x.level = .warning := by
  rw [unchangedRecords_eq, List.mem_append] at h
  rcases h with h | h
  · split at h
    · exact absurd h List.not_mem_nil
    · rw [List.mem_singleton.mp h]
      rfl
  · obtain ⟨g, _, hx⟩ := List.mem_flatMap.mp h
    exact level_of_mem_groupLines hx

theorem level_of_mem_changedRecords {x : Record} (h : x ∈ r.changedRecords) : x.level = .info := by
  obtain ⟨p, _, ho⟩ := List.mem_filterMap.mp h
  obtain ⟨o, _, rfl⟩ := Option.map_eq_some_iff.mp ho
  rfl

theorem level_of_mem_failureRecords {l : List (Path × Outcome)} {x : Record}
    (h : x ∈ (failureRecords l).1) : x.level = .error := by
  induction l with
  | nil => exact absurd h List.not_mem_nil
  | cons e l ih =>
      obtain ⟨p, o⟩ := e
      rw [failureRecords] at h
      split at h
      · exact absurd h List.not_mem_nil
      · rcases List.mem_cons.mp h with rfl | h
        · rfl
        · exact ih h

/-- Failures that all have a kind are recorded to the end. -/
theorem failureRecords_snd_eq_none_iff {l : List (Path × Outcome)} :
    (failureRecords l).2 = none ↔ ∀ e ∈ l, e.2.error.isSome = true := by
  induction l with
  | nil => simp [failureRecords]
  | cons e l ih =>
      obtain ⟨p, o⟩ := e
      rw [failureRecords, List.forall_mem_cons]
      cases ho : o.error with
      | none => simp
      | some kind => simpa using ih

theorem summary_snd (limit : Int) (verbose : Bool) (r : Report) :
    (r.summary limit verbose).2 = r.failedRecords.2 := by
  rw [summary]
  split
  · next rs f h => rw [h]
  · next rs h => rw [h]

/-- Whether every failure in a report has a kind. -/
def isExplained (r : Report) : Bool := r.ledger.all fun e => !e.2.failed || e.2.error.isSome

/-- **A report whose failures all have a kind is summed up to its end.** -/
theorem summary_snd_of_isExplained (hdistinct : r.ledger.paths.Nodup)
    (h : r.isExplained = true) (limit : Int) (verbose : Bool) :
    (r.summary limit verbose).2 = none := by
  rw [summary_snd, failedRecords, failureRecords_snd_eq_none_iff]
  intro e he
  obtain ⟨p, hp, hrecorded⟩ := List.mem_filterMap.mp he
  obtain ⟨o, ho, rfl⟩ := Option.map_eq_some_iff.mp hrecorded
  rw [failed, pathsWhere, Path.sort, (List.mergeSort_perm _ Path.le).mem_iff] at hp
  obtain ⟨⟨q, o'⟩, hmem, rfl⟩ := List.mem_map.mp hp
  obtain ⟨hentry, hfailed⟩ := List.mem_filter.mp hmem
  obtain rfl : o' = o := Option.some.inj ((Ledger.lookup_of_mem hdistinct hentry).symm.trans ho)
  have hexplained := List.all_eq_true.mp h _ hentry
  simpa [hfailed] using hexplained

/-- **Only the unchanged files give warnings** in a summary. -/
theorem filter_warnings_summary (limit : Int) (verbose : Bool) (r : Report) :
    (r.summary limit verbose).1.filter (fun x => x.level = .warning)
      = r.unchangedRecords limit := by
  have hother : ∀ (rs : List Record) (level : Level), level ≠ .warning →
      (∀ x ∈ rs, x.level = level) → rs.filter (fun x => x.level = .warning) = [] := by
    intro rs level hlevel h
    refine List.filter_eq_nil_iff.mpr fun x hx => ?_
    simpa [h x hx] using hlevel
  have hchanged : (if verbose then r.changedRecords else []).filter (fun x => x.level = .warning)
      = [] := by
    refine hother _ .info (by decide) fun x hx => ?_
    split at hx
    · exact level_of_mem_changedRecords hx
    · exact absurd hx List.not_mem_nil
  have hunchanged : (r.unchangedRecords limit).filter (fun x => x.level = .warning)
      = r.unchangedRecords limit :=
    List.filter_eq_self.mpr fun x hx => decide_eq_true (level_of_mem_unchangedRecords hx)
  have hfailed := hother r.failedRecords.1 .error (by decide) fun x => level_of_mem_failureRecords
  have hclosing := hother [r.closingRecord] .info (by decide) fun x hx => by
    rw [List.mem_singleton.mp hx]
    rfl
  have hcount : (if r.failed.isEmpty then [] else
      [Record.error s!"⛔ {r.failed.length} file(s) failed"]).filter (fun x => x.level = .warning)
      = [] := by
    split <;> rfl
  rw [summary]
  split
  · next rs f h =>
    rw [h] at hfailed
    simp only [List.filter_append, hchanged, hunchanged, hfailed, List.nil_append, List.append_nil]
  · next rs h =>
    rw [h] at hfailed
    simp only [List.filter_append, hchanged, hunchanged, hfailed, hclosing, hcount,
      List.nil_append, List.append_nil]

/-! ## All views -/

/-- What a report has to show of the history of its outcomes. -/
structure Shows (r : Report) (os : List Outcome) : Prop where
  /-- A path is listed, in order, under the status of its last outcome. -/
  changed : Path.IsListing r.changed fun p =>
    ∃ o, lastOf? os p = some o ∧ (o.status = .written ∨ o.status = .deleted)
  unchanged : Path.IsListing r.unchanged fun p =>
    ∃ o, lastOf? os p = some o ∧ o.status = .unchanged
  failed : Path.IsListing r.failed fun p => ∃ o, lastOf? os p = some o ∧ o.status = .failed
  deleted : Path.IsListing r.deleted fun p => ∃ o, lastOf? os p = some o ∧ o.status = .deleted
  deleted_subset : r.deleted ⊆ r.changed
  /-- No path is in two of the three lists, and each path of the history is in one. -/
  apart : r.changed.Disjoint r.unchanged ∧ r.changed.Disjoint r.failed
    ∧ r.unchanged.Disjoint r.failed
  together : ∀ p, p ∈ r.changed ++ r.unchanged ++ r.failed ↔ ∃ o ∈ os, o.path = p
  /-- The headings of the unchanged files are strictly increasing. -/
  headings : (r.unchangedByHeading.map Prod.fst).Pairwise fun a b =>
    Text.le a b = true ∧ Text.le b a = false
  /-- Under a heading stand, in order, the unchanged files with this suffix, of which there is one
  at least; the files without a suffix stand under a heading of their own. -/
  groups : ∀ g ∈ r.unchangedByHeading, g.2 ≠ [] ∧ Path.IsListing g.2 fun p =>
    p ∈ r.unchanged ∧ g.1 = if p.suffix = [] then "Unknown".toList else p.suffix
  bySuffix : ∀ g ∈ r.unchangedByHeading, ∀ p ∈ g.2, ∀ q ∈ r.unchanged,
    q ∈ g.2 ↔ q.suffix = p.suffix
  /-- Each unchanged file is in one group, once. -/
  partition : (r.unchangedByHeading.flatMap Prod.snd).Perm r.unchanged
  /-- The document lists the last outcome of each path, in the order of the paths. -/
  files : ∃ (before : List (Text × JsonValue)) (last : List Outcome),
    r.json = (JsonValue.object
        (before ++ [("files".toList, .array (last.map outcomeJson))])).render
      ∧ (∀ f ∈ before, f.1 ≠ "files".toList)
      ∧ (∀ o ∈ last, lastOf? os o.path = some o)
      ∧ Path.IsListing (last.map Outcome.path) fun p => ∃ o ∈ os, o.path = p
  /-- The warnings of a summary name the first paths of each group, as many as the limit lets
  through, and say how many there are besides. -/
  warnings : ∀ (limit : Int) (verbose : Bool),
    (r.summary limit verbose).1.filter (fun x => x.level = .warning)
      = (if r.unchanged = [] then []
        else [.warning "⚠️  Files mentioning the flag that were left unchanged:"])
        ++ r.unchangedByHeading.flatMap fun g => groupLines (named limit g.2.length) g

variable {os : List Outcome}

/-- Listings by properties of the last outcome that exclude each other have no path in common. -/
theorem disjoint_of_listings {ps qs : List Path} {P Q : Outcome → Prop}
    (hps : Path.IsListing ps fun p => ∃ o, lastOf? os p = some o ∧ P o)
    (hqs : Path.IsListing qs fun p => ∃ o, lastOf? os p = some o ∧ Q o)
    (hPQ : ∀ o, P o → ¬ Q o) : ps.Disjoint qs := by
  intro p hp hq
  obtain ⟨o, ho, hP⟩ := (hps.mem_iff p).mp hp
  obtain ⟨o', ho', hQ⟩ := (hqs.mem_iff p).mp hq
  obtain rfl := Option.some.inj (ho.symm.trans ho')
  exact hPQ o hP hQ

/-- The files of a group are those with its heading. -/
theorem isListing_group {P : Path → Prop} (hlisting : Path.IsListing r.unchanged P)
    {g : Text × List Path} (hg : g ∈ r.unchangedByHeading) :
    g.2 ≠ [] ∧ Path.IsListing g.2 fun p => p ∈ r.unchanged ∧ heading p = g.1 := by
  obtain ⟨⟨p, hp, hheading⟩, hps⟩ := mem_unchangedByHeading.mp hg
  have hfiltered := (hlisting.filter fun p => heading p == g.1).congr
    (Q := fun p => p ∈ r.unchanged ∧ heading p = g.1) fun q => by rw [beq_iff_eq]
  rw [← hps] at hfiltered
  exact ⟨List.ne_nil_of_mem ((hfiltered.mem_iff p).mpr ⟨hp, hheading⟩), hfiltered⟩

/-- **All views are read off the tally.** -/
theorem shows_of_tallies (htally : r.ledger.Tallies os) (hproper : ∀ o ∈ os, o.path.IsProper) :
    r.Shows os := by
  have hchanged : Path.IsListing r.changed fun p =>
      ∃ o, lastOf? os p = some o ∧ (o.status = .written ∨ o.status = .deleted) := by
    refine (isListing_pathsWhere htally hproper Outcome.changed).congr fun p => ?_
    simp [Outcome.changed]
  have hstatus : ∀ status, Path.IsListing (r.pathsWhere fun o => o.status == status) fun p =>
      ∃ o, lastOf? os p = some o ∧ o.status = status := by
    intro status
    refine (isListing_pathsWhere htally hproper _).congr fun p => ?_
    simp
  have hunchanged : Path.IsListing r.unchanged _ := hstatus .unchanged
  have hfailed : Path.IsListing r.failed _ := hstatus .failed
  constructor
  case changed => exact hchanged
  case unchanged => exact hunchanged
  case failed => exact hfailed
  case deleted => exact hstatus .deleted
  case deleted_subset =>
    intro p hp
    obtain ⟨o, ho, hdeleted⟩ := ((hstatus .deleted).mem_iff p).mp hp
    exact (hchanged.mem_iff p).mpr ⟨o, ho, .inr hdeleted⟩
  case apart =>
    refine ⟨disjoint_of_listings hchanged hunchanged ?_, disjoint_of_listings hchanged hfailed ?_,
      disjoint_of_listings hunchanged hfailed ?_⟩ <;> grind
  case together =>
    intro p
    rw [List.mem_append, List.mem_append, hchanged.mem_iff, hunchanged.mem_iff, hfailed.mem_iff,
      ← exists_lastOf?_iff]
    constructor
    · grind
    · rintro ⟨o, ho⟩
      cases hs : o.status with
      | written => exact .inl (.inl ⟨o, ho, .inl hs⟩)
      | deleted => exact .inl (.inl ⟨o, ho, .inr hs⟩)
      | unchanged => exact .inl (.inr ⟨o, ho, hs⟩)
      | failed => exact .inr ⟨o, ho, hs⟩
  case headings =>
    rw [headings_eq]
    exact Text.pairwise_sortDistinct _
  case groups =>
    intro g hg
    obtain ⟨hne, hlisting⟩ := isListing_group hunchanged hg
    refine ⟨hne, hlisting.congr fun p => and_congr_right fun _ => ?_⟩
    rw [eq_comm, heading]
    simp only [List.isEmpty_iff]
  case bySuffix =>
    intro g hg p hp q hq
    have hlisting := (isListing_group hunchanged hg).2
    have hheading := ((hlisting.mem_iff p).mp hp).2
    rw [hlisting.mem_iff q, ← hheading, heading_eq_iff]
    exact and_iff_right hq
  case partition => exact perm_groups
  case files =>
    obtain ⟨hpaths, hlast⟩ := paths_entries htally
    refine ⟨_, r.entries.map Prod.snd, json_eq r, ?_, hlast, ?_⟩
    · simp
    · rw [hpaths]
      exact (Path.isListing_sort htally.distinct (htally.isProper hproper)).congr fun p =>
        htally.mem_paths_iff
  case warnings =>
    intro limit verbose
    rw [filter_warnings_summary, unchangedRecords_eq]

/-- **The views of a report agree with its history**, whatever outcomes it has been given, and so
they agree with each other. -/
theorem views_show_history (r : Report) (os : List Outcome)
    (hproper : ∀ o ∈ os, o.path.IsProper) :
    (os.foldl Report.add { r with ledger := [] }).Shows os :=
  shows_of_tallies (tallies_foldl_add r os) hproper

/-- A file that failed is written later, and of the files that stay as they are one has no
suffix. -/
def replacedHistory : List Outcome :=
  [.failure ⟨.root, ["p".toList, "a.swift".toList]⟩ .readFailure "",
    .settled ⟨.root, ["p".toList, "b.swift".toList]⟩ .unchanged,
    .settled ⟨.root, ["p".toList, "b".toList]⟩ .unchanged,
    .settled ⟨.root, ["p".toList, "a".toList, "c.swift".toList]⟩ .unchanged,
    .settled ⟨.root, ["p".toList, "a.swift".toList]⟩ .written]

/-- The failure is forgotten, and the file without a suffix stands under its own heading. -/
theorem views_show_history_replaced :
    ∃ r, r = replacedHistory.foldl Report.add (.start ⟨.root, ["p".toList]⟩ "A".toList false [])
      ∧ (∀ o ∈ replacedHistory, o.path.IsProper)
      ∧ r.changed = [⟨.root, ["p".toList, "a.swift".toList]⟩] ∧ r.failed = []
      ∧ r.unchangedByHeading =
        [(".swift".toList, [⟨.root, ["p".toList, "a".toList, "c.swift".toList]⟩,
            ⟨.root, ["p".toList, "b.swift".toList]⟩]),
          ("Unknown".toList, [⟨.root, ["p".toList, "b".toList]⟩])]
      ∧ r.Shows replacedHistory := by
  have hproper : ∀ o ∈ replacedHistory, o.path.IsProper := by
    unfold Path.IsProper
    decide +kernel
  refine ⟨_, rfl, hproper, by cbv, by cbv, by cbv, ?_⟩
  exact views_show_history (.start ⟨.root, ["p".toList]⟩ "A".toList false []) _ hproper

end Report

end Unflag
