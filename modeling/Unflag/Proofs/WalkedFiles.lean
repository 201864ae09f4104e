/-
Which files a walk finds.

The sources below a directory are said twice. The walk goes through the tree and passes by a
directory as it meets it; here they are the entries to which a way leads on which no directory is
passed by. The paths that the walk gives are strictly increasing, part by part, although it meets
them in another order.

A search then looks into the sources, and finds those that can be opened and whose text holds what
it looks for. It comes to its end unless a source breaks it off, which a file does that can be
opened and not be read: its encoding is no codec's, or its codec finds no text in it (`Unread`). The
codecs may be any, and so the search is followed to its end or to the first such file
(`walk_finds_sources`).
-/
import Unflag.Proofs.ToolAnswer

set_option autoImplicit false

namespace Unflag

namespace Search

variable {codecs : Codecs} {tool : Option (Tool Disk)} {o : Settings} {d : Disk} {root p : Path}
  {place : List Text} {l : Listing}

/-! ## What is passed by -/

/-- A directory is entered unless its name is excluded or that of a bundle. -/
theorem isSkipped_eq_false_iff {m : Text} :
    isSkipped o m = false ↔ m ∉ o.excludedDirs ∧ ¬ ".bundle".toList <:+ m := by
  rw [isSkipped, Bool.or_eq_false_iff, List.contains_eq_mem, decide_eq_false_iff_not,
    ← Bool.not_eq_true, List.isSuffixOf_iff_suffix]

theorem isTaken_iff {leadsToDir : Path → Bool} {dirs : List Text} {e : Entry} :
    IsTaken o leadsToDir p dirs e
      ↔ (∀ target, e = .link target → leadsToDir p = false)
        ∧ p.suffix ∈ o.sourceExtensions
        ∧ ∀ m ∈ dirs, m ∉ o.excludedDirs ∧ ¬ ".bundle".toList <:+ m := by
  have hsource : isSource o p = true ↔ p.suffix ∈ o.sourceExtensions := by
    rw [isSource, List.contains_eq_mem, decide_eq_true_eq]
  simp only [← isSkipped_eq_false_iff, ← hsource]
  constructor
  · intro h
    exact ⟨h.noDirectory, h.source, h.entered⟩
  · intro h
    exact ⟨h.2.2, h.2.1, h.1⟩

/-! ## What is looked into -/

variable (codecs o d)

/-- The file at a path can be opened, its encoding is that of a codec, and the needle stands in its
text as a search reads it. -/
def Mentions (needle : Text) (p : Path) : Prop :=
  ∃ bytes codec text, d.readBytes p = .ok bytes ∧ codecs.lookUp o.encoding = .ok codec
    ∧ codec.decodeLeniently bytes = .ok text ∧ needle <:+: Text.normalizeLineEnds text

/-- The ways in which a search is broken off by the file at a path. -/
inductive Unread (p : Path) : Fault → Prop
  /-- The name of the encoding has a null character in it, and nothing is opened under it. -/
  | unnamed (f : Fault) (hname : Codecs.allow o.encoding = .error f) : Unread p f
  /-- The file cannot be opened, and it is not the file system that refuses it. -/
  | unopened (f : Fault) (hname : Codecs.allow o.encoding = .ok ())
    (hbytes : d.readBytes p = .error f) (hfamily : f.family ≠ .system) : Unread p f
  /-- The file can be opened, and no codec has its encoding. -/
  | unknown (bytes : Bytes) (f : Fault) (hname : Codecs.allow o.encoding = .ok ())
    (hbytes : d.readBytes p = .ok bytes) (hcodec : codecs.named o.encoding = .error f) :
    Unread p f
  /-- Its codec finds no text in it, not even with replacements. -/
  | undecoded (bytes : Bytes) (codec : Codec) (f : Fault)
    (hname : Codecs.allow o.encoding = .ok ()) (hbytes : d.readBytes p = .ok bytes)
    (hcodec : codecs.named o.encoding = .ok codec)
    (htext : codec.decodeLeniently bytes = .error f) : Unread p f

variable {codecs o d}

theorem mentions_iff {needle : Text} :
    Mentions codecs o d needle p ↔ ∃ text, d.readLeniently codecs o.encoding p = .ok text
      ∧ Text.occursIn needle text = true := by
  simp only [Mentions, Text.occursIn_iff, Disk.readLeniently_eq, Codecs.lookUp]
  cases Codecs.allow o.encoding with
  | error f => simp [bind, Except.bind]
  | ok _ =>
      cases d.readBytes p with
      | error f => simp
      | ok bytes =>
          cases codecs.named o.encoding with
          | error f => simp [bind, Except.bind]
          | ok codec =>
              cases htext : codec.decodeLeniently bytes <;>
                simp [bind, Except.bind, Except.map, htext]

/-- **A file breaks a search off in one of these ways.** -/
theorem breaks_host_iff {f : Fault} :
    Breaks (Disk.host codecs tool) o d p f ↔ Unread codecs o d p f := by
  rw [Breaks]
  change d.readLeniently codecs o.encoding p = .error f ∧ _ ↔ _
  rw [Disk.readLeniently_eq]
  constructor
  · rintro ⟨hread, hfamily⟩
    split at hread
    · next g hname =>
      cases hread
      exact .unnamed f hname
    · next hname =>
      split at hread
      · next g hbytes =>
        cases hread
        exact .unopened f hname hbytes hfamily
      · next bytes hbytes =>
        split at hread
        · next g hcodec =>
          cases hread
          exact .unknown bytes f hname hbytes hcodec
        · next codec hcodec =>
          cases htext : codec.decodeLeniently bytes with
          | error g =>
              rw [htext] at hread
              cases hread
              exact .undecoded bytes codec f hname hbytes hcodec htext
          | ok text =>
              rw [htext] at hread
              cases hread
  · intro h
    cases h with
    | unnamed f hname => exact ⟨by rw [hname], Codecs.notSystem_of_allow hname⟩
    | unopened f hname hbytes hfamily => exact ⟨by rw [hname, hbytes], hfamily⟩
    | unknown bytes f hname hbytes hcodec =>
        exact ⟨by rw [hname, hbytes, hcodec], codecs.notSystem hcodec⟩
    | undecoded bytes codec f hname hbytes hcodec htext =>
        refine ⟨?_, codec.notSystem htext⟩
        rw [hname, hbytes, hcodec]
        dsimp only
        rw [htext]
        rfl

/-- No file breaks a search off under an encoding whose codec replaces what is no text, if its path
is without null characters. -/
theorem not_unread_of_lookUp {e : Encoding} (hcodec : codecs.lookUp o.encoding = .ok e.codec)
    (hp : Disk.hasNull p = false) (f : Fault) : ¬ Unread codecs o d p f := by
  rw [Codecs.lookUp] at hcodec
  intro h
  cases h with
  | unnamed f hname =>
      rw [hname] at hcodec
      cases hcodec
  | unopened f hname hbytes hfamily => exact hfamily (Disk.family_of_readBytes hp hbytes)
  | unknown bytes f hname hbytes hnamed =>
      rw [hname] at hcodec
      cases hnamed.symm.trans hcodec
  | undecoded bytes codec f hname hbytes hnamed htext =>
      rw [hname] at hcodec
      cases hnamed.symm.trans hcodec
      cases htext

/-- A search that no source breaks off finds the sources that hold the needle. -/
theorem files_of_read {ps : List Path} (needle : Text)
    (hsources : sources (Disk.host codecs tool) o d root = .ok ps)
    (hread : ∀ p ∈ ps, ∀ f, ¬ Unread codecs o d p f) :
    ∃ found, (files (Disk.host codecs tool) o d root needle).2 = .ok found ∧ found.Sublist ps
      ∧ ∀ p, p ∈ found ↔ p ∈ ps ∧ Mentions codecs o d needle p := by
  obtain ⟨found, hfound⟩ : ∃ found,
      (files (Disk.host codecs tool) o d root needle).2 = .ok found :=
    exists_files_of_read hsources fun p hp f hbreaks => hread p hp f (breaks_host_iff.mp hbreaks)
  obtain ⟨hsub, hmem⟩ := mentioning_cases (mentioning_of_files hsources hfound)
  refine ⟨found, hfound, hsub, fun p => ?_⟩
  rw [hmem, mentions_iff]
  rfl

/-- **The walk finds exactly the sources.** In a directory the paths it gives are strictly
increasing, and they are those of the entries below it that are no directories and lead to none,
that have the suffix of a source, and on the way to which no directory has an excluded name or the
name of a bundle. A search keeps those of them that can be opened and whose text holds the needle,
in the same order, unless it is broken off: it ends with a fault exactly if a source has it that can
be opened and not be read, or is not even opened, and the fault is that of the first one. -/
theorem walk_finds_sources (codecs : Codecs) (tool : Option (Tool Disk)) (o : Settings)
    (htidy : d.isTidy = true) (hnames : d.hasFileNames = true)
    (hproper : root.IsProper) (hroot : d.find root = .directory place)
    (hl : Listing.dirAt? place d.top = some l) :
    ∃ ps, sources (Disk.host codecs tool) o d root = .ok ps
      ∧ (ps.Pairwise fun p q => Path.le p q = true ∧ Path.le q p = false)
      ∧ (∀ p, p ∈ ps ↔ ∃ dirs n e, Below l root p dirs n e
          ∧ (∀ target, e = .link target → d.leadsToDir p = false)
          ∧ p.suffix ∈ o.sourceExtensions
          ∧ ∀ m ∈ dirs, m ∉ o.excludedDirs ∧ ¬ ".bundle".toList <:+ m)
      ∧ ∀ needle,
        (∀ f, (files (Disk.host codecs tool) o d root needle).2 = .error (.fault f)
          ↔ ∃ before p after, ps = before ++ p :: after
            ∧ (∀ q ∈ before, ∀ g, ¬ Unread codecs o d q g) ∧ Unread codecs o d p f)
        ∧ ((∀ p ∈ ps, ∀ f, ¬ Unread codecs o d p f) →
          ∃ found, (files (Disk.host codecs tool) o d root needle).2 = .ok found
            ∧ found.Sublist ps ∧ ∀ p, p ∈ found ↔ p ∈ ps ∧ Mentions codecs o d needle p) := by
  have hsources := sources_host_eq codecs tool o hroot hl
  obtain ⟨hsorted, hpaths⟩ := sources_in_order hnames hproper hsources
  have hnodup := (sources_host_cases htidy hsources).1
  refine ⟨_, hsources, Path.pairwise_strict hpaths hnodup hsorted, fun p => ?_, fun needle => ?_⟩
  · rw [Path.sort, (List.mergeSort_perm _ Path.le).mem_iff,
      mem_sourcesIn_iff l (Listing.everywhere_of_dirAt? htidy hl)]
    simp only [isTaken_iff]
  · refine ⟨fun f => ?_, files_of_read needle hsources⟩
    rw [files_eq_fault_iff hsources]
    simp only [breaks_host_iff]

end Search

/-- A directory: in it are a link to nothing, a directory with two sources, a bundle, an excluded
directory, a directory with the name of a source, and a link to a directory. -/
def Disk.walkedListing : Listing :=
  [("b.h".toList, .link "gone".toList),
    ("b".toList, .dir [("z.h".toList, .ofAscii "int A;\n"), ("y.h".toList, .ofAscii "\n")]),
    ("c.bundle".toList, .dir [("c.h".toList, .ofAscii "int A;\n")]),
    ("Pods".toList, .dir [("p.h".toList, .ofAscii "int A;\n")]),
    ("d.h".toList, .dir []),
    ("l.h".toList, .link "b".toList)]

/-- The directory under a name that is excluded. -/
def Disk.walkedTree : Disk := ⟨[("Pods".toList, .dir walkedListing)], []⟩

/-- The walk lists three paths and the search keeps one: the link leads nowhere, and one file does
not hold the needle. -/
theorem walk_finds_sources_pruned :
    ∃ (host : Host Disk) (root : Path) (ps found : List Path), host = Disk.host .standard none
      ∧ root = ⟨.root, ["Pods".toList]⟩
      ∧ Search.sources host .default Disk.walkedTree root = .ok ps
      ∧ ps = [⟨.root, ["Pods".toList, "b".toList, "y.h".toList]⟩,
        ⟨.root, ["Pods".toList, "b".toList, "z.h".toList]⟩,
        ⟨.root, ["Pods".toList, "b.h".toList]⟩]
      ∧ (ps.Pairwise fun p q => Path.le p q = true ∧ Path.le q p = false)
      ∧ (Search.files host .default Disk.walkedTree root "A".toList).2 = .ok found
      ∧ found = [⟨.root, ["Pods".toList, "b".toList, "z.h".toList]⟩]
      ∧ ∀ p, p ∈ found ↔ p ∈ ps
        ∧ Search.Mentions .standard .default Disk.walkedTree "A".toList p := by
  have hroot : Disk.walkedTree.find ⟨.root, ["Pods".toList]⟩ = .directory ["Pods".toList] := by cbv
  have hproper : Path.IsProper ⟨.root, ["Pods".toList]⟩ := by
    unfold Path.IsProper
    decide +kernel
  have hgone : Disk.walkedTree.leadsToDir ⟨.root, ["Pods".toList, "b.h".toList]⟩ = false := by cbv
  have hlinked : Disk.walkedTree.leadsToDir ⟨.root, ["Pods".toList, "l.h".toList]⟩ = true := by cbv
  have hwalk : Search.sourcesIn .default Disk.walkedTree.leadsToDir ⟨.root, ["Pods".toList]⟩
      Disk.walkedListing
      = [⟨.root, ["Pods".toList, "b.h".toList]⟩,
        ⟨.root, ["Pods".toList, "b".toList, "z.h".toList]⟩,
        ⟨.root, ["Pods".toList, "b".toList, "y.h".toList]⟩] := by
    simp only [Disk.walkedListing, Entry.ofAscii, Search.sourcesIn, Search.sourcesAt, Path.child,
      List.cons_append, List.nil_append, hgone, hlinked]
    decide +kernel
  have hsources : Search.sources (Disk.host .standard none) .default Disk.walkedTree
      ⟨.root, ["Pods".toList]⟩
      = .ok [⟨.root, ["Pods".toList, "b".toList, "y.h".toList]⟩,
        ⟨.root, ["Pods".toList, "b".toList, "z.h".toList]⟩,
        ⟨.root, ["Pods".toList, "b.h".toList]⟩] := by
    rw [Search.sources_host_eq .standard none .default hroot rfl, hwalk]
    cbv
  have hfiles : (Search.files (Disk.host .standard none) .default Disk.walkedTree
      ⟨.root, ["Pods".toList]⟩ "A".toList).2
      = .ok [⟨.root, ["Pods".toList, "b".toList, "z.h".toList]⟩] := by
    rw [Search.files_snd, hsources]
    cbv
  obtain ⟨ps, hps, hstrict, -, hlooked⟩ := Search.walk_finds_sources .standard none .default
    (by decide +kernel) (by decide +kernel) hproper hroot rfl
  obtain ⟨hfault, hend⟩ := hlooked "A".toList
  have hread : ∀ p ∈ ps, ∀ f, ¬ Search.Unread .standard .default Disk.walkedTree p f := by
    intro p hp
    rw [Except.ok.inj (hps.symm.trans hsources)] at hp
    refine Search.not_unread_of_lookUp (e := .utf8) rfl ?_
    have hclean : ([⟨.root, ["Pods".toList, "b".toList, "y.h".toList]⟩,
        ⟨.root, ["Pods".toList, "b".toList, "z.h".toList]⟩,
        ⟨.root, ["Pods".toList, "b.h".toList]⟩] : List Path).all
        (fun p => !Disk.hasNull p) = true := by
      decide +kernel
    simpa using List.all_eq_true.mp hclean p hp
  obtain ⟨found, hfound, -, hmem⟩ := hend hread
  exact ⟨_, _, ps, found, rfl, rfl, hps, Except.ok.inj (hps.symm.trans hsources), hstrict, hfound,
    Except.ok.inj (hfound.symm.trans hfiles), hmem⟩

/-- An encoding that no codec has ends the search with a fault, although the walk has found a
file that can be opened. -/
theorem walk_meets_unknown_encoding :
    ∃ (host : Host Disk) (o : Settings) (d : Disk), host = Disk.host .standard none
      ∧ o = { Settings.default with encoding := "no-such".toList }
      ∧ d = ⟨[("a.swift".toList, .ofAscii "let A = 1\n")], []⟩
      ∧ Search.sources host o d ⟨.root, []⟩ = .ok [⟨.root, ["a.swift".toList]⟩]
      ∧ (d.readBytes ⟨.root, ["a.swift".toList]⟩).isOk = true
      ∧ (Search.files host o d ⟨.root, []⟩ "A".toList).2
        = .error (.fault (Codecs.unknown "no-such".toList))
      ∧ ∀ found, (Search.files host o d ⟨.root, []⟩ "A".toList).2 ≠ .ok found := by
  have hfiles : (Search.files (Disk.host .standard none)
      { Settings.default with encoding := "no-such".toList }
      ⟨[("a.swift".toList, .ofAscii "let A = 1\n")], []⟩ ⟨.root, []⟩ "A".toList).2
      = .error (.fault (Codecs.unknown "no-such".toList)) := by
    cbv
  refine ⟨_, _, _, rfl, rfl, rfl, by cbv, by cbv, hfiles, ?_⟩
  intro found hfound
  cases hfiles.symm.trans hfound

end Unflag
