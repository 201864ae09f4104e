/-
When the answer of the search tool is the answer of the walk.

A search tool prints the paths it finds, one on each line, and they are read back from its
lines. The reader knows more ends of a line than the line feed the tool writes, and it passes
over lines that are blank. So a path comes back only if no character of it is such an end and
some character of it is not blank (`Path.IsLegible`).

That is all that can go wrong. A path without line ends is read as it was written, and the
order of the lines does not matter since the paths are sorted. And a path with one is never
read, because no line holds a line end. So the tool and the walk agree on a tree exactly if
every path that the walk finds is legible (`toolFiles_eq_files_iff`).
-/
import Unflag.Proofs.Accounting
import Unflag.Proofs.Mention
import Unflag.Proofs.PathOrder

set_option autoImplicit false

namespace Unflag

/-! ## The lines of an answer -/

namespace Text

variable {c : Char} {line s : Text}

theorem splitLinesFrom_cons (h : isLineBoundary c = false) :
    splitLinesFrom line (c :: s) = splitLinesFrom (line ++ [c]) s := by
  rw [splitLinesFrom, if_neg (by simp [h])]
  rintro r rfl _
  exact absurd h (by decide)

theorem splitLinesFrom_end (h : isLineBoundary c = true) (hc : c ≠ '\r') :
    splitLinesFrom line (c :: s) = line :: splitLinesFrom [] s := by
  rw [splitLinesFrom, if_pos h]
  rintro r rfl _
  exact hc rfl

theorem splitLinesFrom_lineFeed :
    splitLinesFrom line ('\n' :: s) = line :: splitLinesFrom [] s :=
  splitLinesFrom_end (by decide) (by decide)

/-- Characters that are no line ends go on the current line. -/
theorem splitLinesFrom_append {l : Text} (h : ∀ c ∈ l, isLineBoundary c = false) :
    splitLinesFrom line (l ++ s) = splitLinesFrom (line ++ l) s := by
  induction l generalizing line with
  | nil => rw [List.nil_append, List.append_nil]
  | cons c r ih =>
      obtain ⟨hc, hr⟩ := List.forall_mem_cons.mp h
      rw [List.cons_append, splitLinesFrom_cons hc, ih hr, List.append_assoc, List.singleton_append]

/-- Lines without line ends, each with a line feed behind it, are read as they were written. -/
theorem splitLines_written {ls : List Text} (h : ∀ l ∈ ls, ∀ c ∈ l, isLineBoundary c = false) :
    splitLines (ls.flatMap fun l => l ++ ['\n']) = ls := by
  rw [splitLines]
  induction ls with
  | nil => rfl
  | cons l r ih =>
      obtain ⟨hl, hr⟩ := List.forall_mem_cons.mp h
      rw [List.flatMap_cons, List.append_assoc, List.singleton_append, splitLinesFrom_append hl,
        splitLinesFrom_lineFeed, ih hr, List.nil_append]

/-- No line holds a line end. -/
theorem isLineBoundary_of_mem_splitLinesFrom (hline : ∀ c ∈ line, isLineBoundary c = false) :
    ∀ l ∈ splitLinesFrom line s, ∀ c ∈ l, isLineBoundary c = false := by
  fun_induction splitLinesFrom line s with
  | case1 line hempty => simp
  | case2 line hempty => simpa using hline
  | case3 line r ih =>
      exact List.forall_mem_cons.mpr ⟨hline, ih (by simp)⟩
  | case4 line c r hcrlf hend ih =>
      exact List.forall_mem_cons.mpr ⟨hline, ih (by simp)⟩
  | case5 line c r hcrlf hend ih =>
      apply ih
      intro d hd
      rcases List.mem_append.mp hd with hd | hd
      · exact hline d hd
      · rw [List.mem_singleton.mp hd]
        simpa using hend

/-- Writing every line end of a source as a line feed moves no line of an answer. -/
theorem splitLinesFrom_normalizeLineEnds (line s : Text) :
    splitLinesFrom line (normalizeLineEnds s) = splitLinesFrom line s := by
  fun_induction normalizeLineEnds s generalizing line with
  | case1 => rfl
  | case2 r ih => rw [splitLinesFrom_lineFeed, ih, splitLinesFrom]
  | case3 c r hcrlf ih =>
      by_cases hreturn : c = '\r'
      · subst hreturn
        rw [if_pos rfl, splitLinesFrom_lineFeed, ih, splitLinesFrom, if_pos (by decide)]
        intro q _ hq
        exact hcrlf q rfl hq
      · rw [if_neg hreturn]
        by_cases hend : isLineBoundary c = true
        · rw [splitLinesFrom_end hend hreturn, splitLinesFrom_end hend hreturn, ih]
        · have hplain : isLineBoundary c = false := by simpa using hend
          rw [splitLinesFrom_cons hplain, splitLinesFrom_cons hplain, ih]

/-- Nothing is left of a text without its blanks exactly if it is blank. -/
theorem isEmpty_trim_iff (s : Text) : (trim s).isEmpty = true ↔ ∀ c ∈ s, isBlank c = true := by
  rw [trim, List.isEmpty_iff, List.reverse_eq_nil_iff, List.dropWhile_eq_nil_iff]
  constructor
  · intro h
    -- blanks in front are dropped, and what is left is blank, so nothing is left
    have hrest : s.dropWhile isBlank = [] := by
      by_contra hne
      have hhead := List.head_dropWhile_not isBlank hne
      have hblank := h _ (List.mem_reverse.mpr (List.head_mem hne))
      rw [hhead] at hblank
      exact absurd hblank (by simp)
    exact List.dropWhile_eq_nil_iff.mp hrest
  · intro h c hc
    exact h c (List.dropWhile_subset isBlank (List.mem_reverse.mp hc))

end Text

/-! ## Paths that can be read back -/

/-- A path that is read back from the line it is printed on. -/
structure Path.IsLegible (p : Path) : Prop where
  unbroken : ∀ c ∈ p.text, Text.isLineBoundary c = false
  visible : ∃ c ∈ p.text, Text.isBlank c = false

theorem Path.isLegible_iff (p : Path) :
    p.IsLegible ↔ (p.text.all (fun c => !Text.isLineBoundary c)
      && p.text.any fun c => !Text.isBlank c) = true := by
  rw [Bool.and_eq_true, List.all_eq_true, List.any_eq_true]
  simp only [Bool.not_eq_true']
  exact ⟨fun h => ⟨h.unbroken, h.visible⟩, fun h => ⟨h.1, h.2⟩⟩

instance (p : Path) : Decidable p.IsLegible := decidable_of_iff _ p.isLegible_iff.symm

namespace Search

/-- What a tool prints that has found these paths: each on a line of its own. -/
def printed (ps : List Path) : Text := ps.flatMap fun p => p.text ++ ['\n']

/-- The paths on the lines of an answer, in the order of the lines. -/
def listed (output : Text) : List Path :=
  ((Text.splitLines output).filter fun l => !(Text.trim l).isEmpty).map Path.ofText

theorem toolFiles_eq {run : ToolRun} (h : run.code = 0 ∨ run.code = 1) :
    toolFiles run = .ok (Path.sort (listed run.output)) := by
  rw [toolFiles, if_pos (by simpa using h)]
  rfl

theorem mem_listed {output : Text} {p : Path} :
    p ∈ listed output
      ↔ ∃ l ∈ Text.splitLines output, (∃ c ∈ l, Text.isBlank c = false) ∧ Path.ofText l = p := by
  have hblank : ∀ l : Text, (!(Text.trim l).isEmpty) = true ↔ ∃ c ∈ l, Text.isBlank c = false := by
    intro l
    rw [Bool.not_eq_true', ← Bool.not_eq_true, Text.isEmpty_trim_iff]
    simp
  rw [listed, List.mem_map]
  simp only [List.mem_filter, hblank, and_assoc]

/-- No path that is listed holds a line end. -/
theorem unbroken_of_mem_listed {output : Text} {p : Path} (h : p ∈ listed output) :
    ∀ c ∈ p.text, Text.isLineBoundary c = false := by
  obtain ⟨l, hl, -, rfl⟩ := mem_listed.mp h
  intro c hc
  rcases Path.mem_of_mem_text_ofText hc with hc | hc | hc
  · exact Text.isLineBoundary_of_mem_splitLinesFrom (by simp) l hl c hc
  · rw [hc]
    decide
  · rw [hc]
    decide

/-- The lines of an answer without line ends in its paths are the paths. -/
theorem splitLines_printed {ps : List Path}
    (h : ∀ p ∈ ps, ∀ c ∈ p.text, Text.isLineBoundary c = false) :
    Text.splitLines (printed ps) = ps.map Path.text := by
  have hprinted : printed ps = (ps.map Path.text).flatMap fun l => l ++ ['\n'] := by
    rw [printed, List.flatMap_map]
  rw [hprinted]
  apply Text.splitLines_written
  intro l hl
  obtain ⟨p, hp, rfl⟩ := List.mem_map.mp hl
  exact h p hp

/-- Legible paths are listed as they were printed. -/
theorem listed_printed {ps : List Path} (hproper : ∀ p ∈ ps, p.IsProper)
    (h : ∀ p ∈ ps, p.IsLegible) : listed (printed ps) = ps := by
  rw [listed, splitLines_printed fun p hp => (h p hp).unbroken, List.filter_eq_self.mpr]
  · have hread : ∀ p ∈ ps, (Path.ofText ∘ Path.text) p = p := by
      intro p hp
      exact Path.ofText_text (hproper p hp)
    rw [List.map_map, List.map_congr_left hread, List.map_id']
  · intro l hl
    obtain ⟨p, hp, rfl⟩ := List.mem_map.mp hl
    obtain ⟨c, hc, hvisible⟩ := (h p hp).visible
    rw [Bool.not_eq_true', ← Bool.not_eq_true, Text.isEmpty_trim_iff]
    intro hblank
    rw [hblank c hc] at hvisible
    exact absurd hvisible (by simp)

/-- **An answer lists what was printed** exactly if every path is legible. -/
theorem sort_listed_printed_iff {ps found : List Path} (hperm : ps.Perm found)
    (hproper : ∀ p ∈ found, p.IsProper)
    (hsorted : found.Pairwise fun p q => Path.le p q = true) :
    Path.sort (listed (printed ps)) = found ↔ ∀ p ∈ found, p.IsLegible := by
  have hproper' : ∀ p ∈ ps, p.IsProper := fun p hp => hproper p (hperm.mem_iff.mp hp)
  constructor
  · intro hsort
    have hmem : ∀ p, p ∈ found ↔ p ∈ listed (printed ps) := by
      intro p
      rw [← hsort]
      exact (List.mergeSort_perm _ Path.le).mem_iff
    -- what is listed holds no line end, so the lines are the texts of the paths
    have hunbroken : ∀ p ∈ found, ∀ c ∈ p.text, Text.isLineBoundary c = false := by
      intro p hp
      exact unbroken_of_mem_listed ((hmem p).mp hp)
    have hlines := splitLines_printed fun p hp => hunbroken p (hperm.mem_iff.mp hp)
    intro p hp
    refine ⟨hunbroken p hp, ?_⟩
    obtain ⟨l, hl, hvisible, hread⟩ := mem_listed.mp ((hmem p).mp hp)
    rw [hlines] at hl
    obtain ⟨q, hq, rfl⟩ := List.mem_map.mp hl
    rw [Path.ofText_text (hproper' q hq)] at hread
    rwa [← hread]
  · intro hlegible
    rw [listed_printed hproper' fun p hp => hlegible p (hperm.mem_iff.mp hp)]
    exact Path.sort_eq_of_perm hperm hproper hsorted

end Search

/-! ## Trees of files -/

/-- Whether the names of a listing are names that files can have. -/
def Listing.hasFileNames (l : Listing) : Bool := l.names.all fun n => decide (Path.IsName n)

/-- Whether every name on a disk is one that a file can have. -/
def Disk.hasFileNames (d : Disk) : Bool := (Entry.dir d.top).everywhere Listing.hasFileNames

namespace Search

variable {s : Settings} {leadsToDir : Path → Bool}

theorem hasFileNames_cons {m : Text} {e : Entry} {r : Listing}
    (h : (Entry.dir ((m, e) :: r)).everywhere Listing.hasFileNames = true) :
    Path.IsName m ∧ e.everywhere Listing.hasFileNames = true
      ∧ (Entry.dir r).everywhere Listing.hasFileNames = true := by
  simp only [Entry.everywhere, Listing.everywhere, Listing.hasFileNames, Listing.names,
    List.map_cons, List.all_cons, Bool.and_eq_true, decide_eq_true_eq] at h ⊢
  exact ⟨h.1.1, h.2.1, h.1.2, h.2.2⟩

theorem isProper_child {p : Path} {n : Text} (hp : p.IsProper) (hn : Path.IsName n) :
    (p.child n).IsProper := by
  intro m hm
  rcases List.mem_append.mp hm with hm | hm
  · exact hp m hm
  · rw [List.mem_singleton.mp hm]
    exact hn

mutual

/-- The paths that are found at an entry are proper, -/
theorem isProper_of_mem_sourcesAt {p : Path} (hp : p.IsProper) (e : Entry)
    (he : e.everywhere Listing.hasFileNames = true) :
    ∀ q ∈ sourcesAt s leadsToDir p e, q.IsProper := by
  intro q hq
  cases e with
  | file bytes mode =>
      rw [sourcesAt] at hq
      split at hq
      · rw [List.mem_singleton.mp hq]
        exact hp
      · exact absurd hq List.not_mem_nil
  | link target =>
      rw [sourcesAt] at hq
      split at hq
      · rw [List.mem_singleton.mp hq]
        exact hp
      · exact absurd hq List.not_mem_nil
  | dir l =>
      rw [sourcesAt] at hq
      split at hq
      · exact absurd hq List.not_mem_nil
      · exact isProper_of_mem_sourcesIn hp l he q hq
  | shut => exact absurd hq List.not_mem_nil

/-- and so are those that are found in a directory. -/
theorem isProper_of_mem_sourcesIn {p : Path} (hp : p.IsProper) (l : Listing)
    (hl : (Entry.dir l).everywhere Listing.hasFileNames = true) :
    ∀ q ∈ sourcesIn s leadsToDir p l, q.IsProper := by
  intro q hq
  match l with
  | [] => exact absurd hq (by simp [sourcesIn])
  | (m, e) :: r =>
      obtain ⟨hm, he, hr⟩ := hasFileNames_cons hl
      rw [sourcesIn, List.mem_append] at hq
      rcases hq with hq | hq
      · exact isProper_of_mem_sourcesAt (isProper_child hp hm) e he q hq
      · exact isProper_of_mem_sourcesIn hp r hr q hq

end

variable {codecs : Codecs} {tool : Option (Tool Disk)} {d : Disk} {root : Path}

/-- What is listed at a path of a disk has names that files can have. -/
theorem hasFileNames_listing (hnames : d.hasFileNames = true) (p : Path) :
    (Entry.dir (d.listing p)).everywhere Listing.hasFileNames = true := by
  rw [Disk.listing]
  split
  · next place hplace =>
    cases hdir : Listing.dirAt? place d.top with
    | none => rfl
    | some sub => exact Listing.everywhere_of_dirAt? hnames hdir
  · rfl

/-- The sources below a root are in order, and their paths are proper. -/
theorem sources_in_order {ps : List Path} (hnames : d.hasFileNames = true)
    (hroot : root.IsProper) (h : sources (Disk.host codecs tool) s d root = .ok ps) :
    (ps.Pairwise fun p q => Path.le p q = true) ∧ ∀ p ∈ ps, p.IsProper := by
  rw [sources] at h
  cases hcheck : checkRoot (Disk.host codecs tool) d root with
  | error stop =>
      rw [hcheck] at h
      cases h
  | ok _ =>
      rw [hcheck] at h
      rw [← Except.ok.inj h]
      refine ⟨Path.pairwise_sort _, ?_⟩
      intro p hp
      exact isProper_of_mem_sourcesIn hroot (d.listing root) (hasFileNames_listing hnames root) p
        ((List.mergeSort_perm _ Path.le).mem_iff.mp hp)

/-- **Both searches agree on legible paths, and on no others.** Where the walk finds `found` and
the tool prints these paths in any order, one on each line, and ends with 0 or 1, its answer is
read as `found` if and only if every path in it is legible. It does not matter whether the line
ends of the answer were translated on the way. -/
theorem toolFiles_eq_files_iff {needle : Text} {found : List Path}
    (hnames : d.hasFileNames = true) (hroot : root.IsProper)
    (hfound : (files (Disk.host codecs tool) s d root needle).2 = .ok found) {run : ToolRun}
    (hcode : run.code = 0 ∨ run.code = 1) {ps : List Path} (hperm : ps.Perm found)
    (houtput : run.output = printed ps ∨ run.output = Text.normalizeLineEnds (printed ps)) :
    toolFiles run = .ok found ↔ ∀ p ∈ found, p.IsLegible := by
  have hlisted : listed run.output = listed (printed ps) := by
    rcases houtput with heq | heq
    · rw [heq]
    · rw [heq, listed, Text.splitLines, Text.splitLinesFrom_normalizeLineEnds]
      rfl
  obtain ⟨ps', hsources⟩ := sources_of_files hfound
  have hsub := (mentioning_cases (mentioning_of_files hsources hfound)).1
  obtain ⟨hsorted, hproper⟩ := sources_in_order hnames hroot hsources
  rw [toolFiles_eq hcode, hlisted, Except.ok.injEq]
  exact sort_listed_printed_iff hperm (fun p hp => hproper p (hsub.subset hp))
    (hsorted.sublist hsub)

end Search

/-- Three paths, one of them that of a link, printed from last to first. -/
theorem toolFiles_eq_files_iff_linked :
    ∃ found : List Path,
      (Search.files (Disk.host .standard none) .default Disk.linkedTree ⟨.root, ["p".toList]⟩
        "A".toList).2 = .ok found
      ∧ Search.printed found.reverse = "/p/l.h\n/p/b.h\n/p/a.swift\n".toList
      ∧ (∀ p ∈ found, p.IsLegible)
      ∧ Search.toolFiles ⟨0, Search.printed found.reverse, []⟩ = .ok found := by
  have hfound : (Search.files (Disk.host .standard none) .default Disk.linkedTree
      ⟨.root, ["p".toList]⟩ "A".toList).2
      = .ok [⟨.root, ["p".toList, "a.swift".toList]⟩, ⟨.root, ["p".toList, "b.h".toList]⟩,
        ⟨.root, ["p".toList, "l.h".toList]⟩] := by
    cbv
  have hlegible : ∀ p ∈ ([⟨.root, ["p".toList, "a.swift".toList]⟩,
      ⟨.root, ["p".toList, "b.h".toList]⟩, ⟨.root, ["p".toList, "l.h".toList]⟩] : List Path),
      p.IsLegible := by
    decide +kernel
  have hroot : Path.IsProper ⟨.root, ["p".toList]⟩ := by
    unfold Path.IsProper
    decide +kernel
  refine ⟨_, hfound, by decide +kernel, hlegible, ?_⟩
  exact (Search.toolFiles_eq_files_iff (by decide +kernel) hroot hfound (.inl rfl)
    (List.reverse_perm _) (.inl rfl)).mpr hlegible

/-- A file with a line separator in its name. -/
def Disk.separatedTree : Disk where
  top := [("a\u2028b.h".toList, .ofAscii "int A;\n")]
  here := []

/-- A line separator in the name of a file cuts its path in two, and neither half is a path that
the walk finds. -/
theorem toolFiles_cut_at_separator :
    ∃ p : Path, p = ⟨.root, ["a\u2028b.h".toList]⟩ ∧ '\n' ∉ p.text
      ∧ (Search.files (Disk.host .standard none) .default Disk.separatedTree ⟨.root, []⟩
        "A".toList).2 = .ok [p]
      ∧ Search.toolFiles ⟨0, Search.printed [p], []⟩
        = .ok [⟨.root, ["a".toList]⟩, ⟨.here, ["b.h".toList]⟩] := by
  have hfound : (Search.files (Disk.host .standard none) .default Disk.separatedTree ⟨.root, []⟩
      "A".toList).2
      = .ok [⟨.root, ["a\u2028b.h".toList]⟩] := by
    cbv
  exact ⟨_, rfl, by decide +kernel, hfound, by cbv⟩

end Unflag
