/-
What a search finds.

On a real disk a directory has no two entries of one name, and none that is called by a dot or a
double dot; a disk is tidy if that holds everywhere. On a tidy disk a walk gives each path once,
and a path that it gives is put together from the root, the directories on the way and the name of
an entry that is no directory (`Below`). The search keeps some of these paths, all of which can be
opened, so each of them sits in its directory and leads to a file (`located_of_files`).

Looking into the files is not bound to a disk. On any machine a search keeps the files whose text
holds what it looks for, passes over those that the file system refuses, and ends early at the first
fault of another kind (`mentioning_eq_error_iff`).
-/
import Mathlib.Data.List.Nodup
import Unflag.Disk.Host
import Unflag.Proofs.Places
import Unflag.Search.Walk

set_option autoImplicit false

namespace Unflag

/-! ## Tidy disks -/

mutual

/-- Whether every directory at an entry passes a test. -/
def Entry.everywhere (test : Listing → Bool) : Entry → Bool
  | .dir l => test l && Listing.everywhere test l
  | _ => true

/-- Whether every directory inside of a listing passes a test. -/
def Listing.everywhere (test : Listing → Bool) : Listing → Bool
  | [] => true
  | (_, e) :: r => e.everywhere test && Listing.everywhere test r

end

namespace Listing

/-- The names of a listing. -/
def names (l : Listing) : List Text := l.map Prod.fst

/-- Whether the names of a listing are ordinary and distinct. -/
def isTidy (l : Listing) : Bool :=
  l.names.all (fun n => n != ['.'] && n != ['.', '.']) && decide l.names.Nodup

theorem isTidy_iff (l : Listing) :
    l.isTidy = true ↔ (∀ n ∈ l.names, Disk.IsOrdinary n) ∧ l.names.Nodup := by
  simp [isTidy, Disk.IsOrdinary]

theorem mem_names_of_lookup {l : Listing} {n : Text} {e : Entry} (h : l.lookup n = some e) :
    n ∈ l.names := by
  obtain ⟨x, hx, hn⟩ := List.lookup_isSome_iff.mp (Option.isSome_of_eq_some h)
  rw [eq_of_beq hn]
  exact List.mem_map_of_mem hx

variable {test : Listing → Bool}

theorem everywhere_of_lookup {l : Listing} {n : Text} {e : Entry} (hl : l.everywhere test = true)
    (h : l.lookup n = some e) : e.everywhere test = true := by
  induction l with
  | nil => exact absurd h (by simp)
  | cons x r ih =>
      rw [everywhere, Bool.and_eq_true] at hl
      rw [lookup_cons_eq_ite] at h
      split at h
      · rw [← Option.some.inj h]
        exact hl.1
      · exact ih hl.2 h

/-- A test that is passed everywhere is passed by the directory at each place. -/
theorem everywhere_of_dirAt? {place : List Text} {l sub : Listing}
    (hl : (Entry.dir l).everywhere test = true) (h : dirAt? place l = some sub) :
    (Entry.dir sub).everywhere test = true := by
  induction place generalizing l with
  | nil => exact Option.some.inj h ▸ hl
  | cons n place ih =>
      rw [dirAt?] at h
      split at h
      · next inner hinner =>
        rw [Entry.everywhere, Bool.and_eq_true] at hl
        exact ih (everywhere_of_lookup hl.2 hinner) h
      · exact absurd h (by simp)

/-- The parts of a tidy directory. -/
theorem tidy_cons {m : Text} {e : Entry} {r : Listing}
    (h : (Entry.dir ((m, e) :: r)).everywhere isTidy = true) :
    m ∉ r.names ∧ e.everywhere isTidy = true ∧ (Entry.dir r).everywhere isTidy = true := by
  rw [Entry.everywhere, everywhere, Bool.and_eq_true, Bool.and_eq_true, isTidy_iff, names,
    List.map_cons, List.nodup_cons] at h
  obtain ⟨⟨hordinary, hnew, hnodup⟩, he, hr⟩ := h
  refine ⟨hnew, he, ?_⟩
  rw [Entry.everywhere, Bool.and_eq_true, isTidy_iff]
  exact ⟨⟨fun n hn => hordinary n (List.mem_cons_of_mem m hn), hnodup⟩, hr⟩

/-- What a test says of the names in every directory holds of the names on the way to one. -/
theorem forall_names_of_dirAt? {P : Text → Prop} (htest : ∀ l, test l = true → ∀ n ∈ l.names, P n)
    {place : List Text} {l sub : Listing} (hl : (Entry.dir l).everywhere test = true)
    (h : dirAt? place l = some sub) : ∀ n ∈ place, P n := by
  induction place generalizing l with
  | nil => simp
  | cons n place ih =>
      rw [dirAt?] at h
      split at h
      · next inner hinner =>
        rw [Entry.everywhere, Bool.and_eq_true] at hl
        intro m hm
        rcases List.mem_cons.mp hm with rfl | hm
        · exact htest l hl.1 m (mem_names_of_lookup hinner)
        · exact ih (everywhere_of_lookup hl.2 hinner) h m hm
      · exact absurd h (by simp)

/-- The names on the way to a directory are ordinary. -/
theorem isOrdinary_of_dirAt? {place : List Text} {l sub : Listing}
    (hl : (Entry.dir l).everywhere isTidy = true) (h : dirAt? place l = some sub) :
    ∀ n ∈ place, Disk.IsOrdinary n :=
  forall_names_of_dirAt? (fun l hl => ((isTidy_iff l).mp hl).1) hl h

end Listing

/-- Whether the names in every directory of a disk are ordinary and distinct. -/
def Disk.isTidy (d : Disk) : Bool := (Entry.dir d.top).everywhere Listing.isTidy

/-! ## Walking -/

namespace Search

/-- The path `q` leads, from the directory `p` with the listing `l`, through the directories `dirs`
to an entry `e` of the name `n` that is no directory. -/
structure Below (l : Listing) (p q : Path) (dirs : List Text) (n : Text) (e : Entry) : Prop where
  path : q = ⟨p.anchor, p.names ++ (dirs ++ [n])⟩
  entry : (Listing.dirAt? dirs l).bind (List.lookup n) = some e
  leaf : e.isDirectory = false

namespace Below

variable {l r : Listing} {p q : Path} {dirs : List Text} {m n : Text} {e : Entry}

/-- The listing of the last directory on the way. -/
theorem listing (h : Below l p q dirs n e) :
    ∃ sub, Listing.dirAt? dirs l = some sub ∧ sub.lookup n = some e :=
  Option.bind_eq_some_iff.mp h.entry

/-- The first name behind `p`. -/
theorem head (h : Below l p q dirs n e) :
    ∃ k ∈ l.names, ∃ rest, q.names = p.names ++ k :: rest := by
  rw [h.path]
  obtain ⟨sub, hdir, hlookup⟩ := h.listing
  cases dirs with
  | nil =>
      cases hdir
      exact ⟨n, Listing.mem_names_of_lookup hlookup, [], rfl⟩
  | cons k dirs =>
      refine ⟨k, ?_, dirs ++ [n], rfl⟩
      rw [Listing.dirAt?] at hdir
      split at hdir
      · next inner hinner => exact Listing.mem_names_of_lookup hinner
      · exact absurd hdir (by simp)

/-- An entry in front, of another name, is passed by. -/
theorem cons (hm : m ∉ Listing.names r) (h : Below r p q dirs n e) (x : Entry) :
    Below ((m, x) :: r) p q dirs n e where
  path := h.path
  leaf := h.leaf
  entry := by
    -- the first name on the way is one of `r`, so it is not `m`
    have hskip : ∀ k y, r.lookup k = some y → List.lookup k ((m, x) :: r) = some y := by
      intro k y hk
      rw [lookup_cons_eq_ite, if_neg ?_, hk]
      rintro rfl
      exact hm (Listing.mem_names_of_lookup hk)
    obtain ⟨sub, hdir, hlookup⟩ := h.listing
    cases dirs with
    | nil =>
        cases hdir
        exact hskip n e hlookup
    | cons k dirs =>
        rw [Listing.dirAt?] at hdir ⊢
        split at hdir
        · next inner hinner =>
          rw [hskip k _ hinner]
          dsimp only
          rw [hdir, Option.bind_some, hlookup]
        · exact absurd hdir (by simp)

/-- What is below an entry that is a directory. -/
theorem enter (h : Below l (p.child m) q dirs n e) (r : Listing) :
    Below ((m, .dir l) :: r) p q (m :: dirs) n e where
  path := by
    rw [h.path, Path.child]
    simp
  leaf := h.leaf
  entry := by
    rw [Listing.dirAt?, List.lookup_cons_self]
    exact h.entry

/-- The first entry of a listing is the one below it, or leads to it, or is passed by. -/
theorem cases_cons {x : Entry} (h : Below ((m, x) :: r) p q dirs n e) :
    (dirs = [] ∧ q = p.child m ∧ e = x)
      ∨ (∃ sub rest, x = .dir sub ∧ dirs = m :: rest ∧ Below sub (p.child m) q rest n e)
      ∨ Below r p q dirs n e := by
  obtain ⟨sub, hdir, hlookup⟩ := h.listing
  cases dirs with
  | nil =>
      cases hdir
      rw [lookup_cons_eq_ite] at hlookup
      split at hlookup
      · next hn =>
        subst hn
        exact .inl ⟨rfl, h.path, (Option.some.inj hlookup).symm⟩
      · exact .inr (.inr ⟨h.path, hlookup, h.leaf⟩)
  | cons k rest =>
      rw [Listing.dirAt?] at hdir
      split at hdir
      · next inner hinner =>
        rw [lookup_cons_eq_ite] at hinner
        split at hinner
        · next hk =>
          subst hk
          refine .inr (.inl ⟨inner, rest, Option.some.inj hinner, rfl, ?_, ?_, h.leaf⟩)
          · rw [h.path, Path.child]
            simp
          · rw [hdir, Option.bind_some, hlookup]
        · refine .inr (.inr ⟨h.path, ?_, h.leaf⟩)
          rw [Listing.dirAt?, hinner]
          dsimp only
          rw [hdir, Option.bind_some, hlookup]
      · exact absurd hdir (by simp)

end Below

/-- The walk takes an entry at the path `q`, on the way to which are the directories `dirs`: it
passes by none of them, the path has the suffix of a source, and a link leads to no directory. -/
structure IsTaken (s : Settings) (leadsToDir : Path → Bool) (q : Path) (dirs : List Text)
    (e : Entry) : Prop where
  entered : ∀ m ∈ dirs, isSkipped s m = false
  source : isSource s q = true
  noDirectory : ∀ target, e = .link target → leadsToDir q = false

variable {s : Settings} {leadsToDir : Path → Bool} {q : Path}

/-- One directory more on the way to an entry. -/
theorem isTaken_cons {m : Text} {dirs : List Text} {e : Entry} :
    IsTaken s leadsToDir q (m :: dirs) e
      ↔ isSkipped s m = false ∧ IsTaken s leadsToDir q dirs e := by
  constructor
  · intro h
    obtain ⟨hm, hdirs⟩ := List.forall_mem_cons.mp h.entered
    exact ⟨hm, hdirs, h.source, h.noDirectory⟩
  · rintro ⟨hm, h⟩
    exact ⟨List.forall_mem_cons.mpr ⟨hm, h.entered⟩, h.source, h.noDirectory⟩

mutual

/-- What is found at an entry: its own path if it is no directory, and else what is below it. -/
theorem mem_sourcesAt_iff {p : Path} {m : Text} (e : Entry)
    (he : e.everywhere Listing.isTidy = true) :
    q ∈ sourcesAt s leadsToDir (p.child m) e
      ↔ (q = p.child m ∧ e.isDirectory = false ∧ IsTaken s leadsToDir q [] e)
        ∨ ∃ l dirs n e', e = .dir l ∧ Below l (p.child m) q dirs n e'
          ∧ IsTaken s leadsToDir q (m :: dirs) e' := by
  cases e with
  | file bytes mode =>
      rw [sourcesAt, List.mem_ite_nil_right, List.mem_singleton]
      constructor
      · rintro ⟨hsource, rfl⟩
        exact .inl ⟨rfl, rfl, by simp, hsource, by simp⟩
      · rintro (⟨rfl, _, htaken⟩ | ⟨l, dirs, n, e', hdir, _⟩)
        · exact ⟨htaken.source, rfl⟩
        · cases hdir
  | link target =>
      rw [sourcesAt, List.mem_ite_nil_right, List.mem_singleton, Bool.and_eq_true,
        Bool.not_eq_true']
      constructor
      · rintro ⟨⟨hleads, hsource⟩, rfl⟩
        exact .inl ⟨rfl, rfl, by simp, hsource, fun _ _ => hleads⟩
      · rintro (⟨rfl, _, htaken⟩ | ⟨l, dirs, n, e', hdir, _⟩)
        · exact ⟨⟨htaken.noDirectory target rfl, htaken.source⟩, rfl⟩
        · cases hdir
  | dir l =>
      have hname : ((p.child m).name?).getD [] = m := by
        rw [Path.name?, Path.child, List.getLast?_concat, Option.getD_some]
      rw [sourcesAt, hname, List.mem_ite_nil_left, mem_sourcesIn_iff l he, Bool.not_eq_true]
      constructor
      · rintro ⟨hentered, dirs, n, e', hbelow, htaken⟩
        exact .inr ⟨l, dirs, n, e', rfl, hbelow, isTaken_cons.mpr ⟨hentered, htaken⟩⟩
      · rintro (⟨_, hleaf, _⟩ | ⟨l', dirs, n, e', hdir, hbelow, htaken⟩)
        · cases hleaf
        · cases hdir
          obtain ⟨hentered, htaken⟩ := isTaken_cons.mp htaken
          exact ⟨hentered, dirs, n, e', hbelow, htaken⟩
  | shut =>
      rw [sourcesAt]
      constructor
      · exact fun h => absurd h List.not_mem_nil
      · rintro (⟨_, hleaf, _⟩ | ⟨l, dirs, n, e', hdir, _⟩)
        · cases hleaf
        · cases hdir

/-- **What is found in a directory**: the paths of the entries below it that the walk takes. -/
theorem mem_sourcesIn_iff {p : Path} (l : Listing)
    (hl : (Entry.dir l).everywhere Listing.isTidy = true) :
    q ∈ sourcesIn s leadsToDir p l
      ↔ ∃ dirs n e, Below l p q dirs n e ∧ IsTaken s leadsToDir q dirs e := by
  match l with
  | [] =>
      rw [sourcesIn]
      constructor
      · intro h
        exact absurd h List.not_mem_nil
      · rintro ⟨dirs, n, e, hbelow, _⟩
        obtain ⟨k, hk, _⟩ := hbelow.head
        exact absurd hk List.not_mem_nil
  | (m, x) :: r =>
      obtain ⟨hnew, hx, hr⟩ := Listing.tidy_cons hl
      rw [sourcesIn, List.mem_append, mem_sourcesAt_iff x hx, mem_sourcesIn_iff r hr]
      constructor
      · rintro ((⟨hpath, hleaf, htaken⟩ | ⟨l, dirs, n, e, rfl, hbelow, htaken⟩)
          | ⟨dirs, n, e, hbelow, htaken⟩)
        · exact ⟨[], m, x, ⟨hpath, List.lookup_cons_self, hleaf⟩, htaken⟩
        · exact ⟨m :: dirs, n, e, hbelow.enter r, htaken⟩
        · exact ⟨dirs, n, e, hbelow.cons hnew x, htaken⟩
      · rintro ⟨dirs, n, e, hbelow, htaken⟩
        rcases hbelow.cases_cons with
          ⟨rfl, hpath, rfl⟩ | ⟨l, rest, rfl, rfl, hbelow'⟩ | hbelow'
        · exact .inl (.inl ⟨hpath, hbelow.leaf, htaken⟩)
        · exact .inl (.inr ⟨l, rest, n, e, rfl, hbelow', htaken⟩)
        · exact .inr ⟨dirs, n, e, hbelow', htaken⟩

end

/-- A path that is found at an entry starts with the path of the entry. -/
theorem names_of_mem_sourcesAt {p : Path} {m : Text} {e : Entry}
    (he : e.everywhere Listing.isTidy = true) (hq : q ∈ sourcesAt s leadsToDir (p.child m) e) :
    ∃ rest, q.names = (p.child m).names ++ rest := by
  rcases (mem_sourcesAt_iff e he).mp hq with ⟨rfl, _⟩ | ⟨l, dirs, n, e', _, hbelow, _⟩
  · exact ⟨[], (List.append_nil _).symm⟩
  · exact ⟨dirs ++ [n], by rw [hbelow.path]⟩

mutual

theorem nodup_sourcesAt {p : Path} (e : Entry) (he : e.everywhere Listing.isTidy = true) :
    (sourcesAt s leadsToDir p e).Nodup := by
  cases e with
  | file bytes mode =>
      rw [sourcesAt]
      split <;> simp
  | link target =>
      rw [sourcesAt]
      split <;> simp
  | dir l =>
      rw [sourcesAt]
      split
      · exact List.nodup_nil
      · exact nodup_sourcesIn l he
  | shut => exact List.nodup_nil

/-- **A walk gives each path once.** -/
theorem nodup_sourcesIn {p : Path} (l : Listing)
    (hl : (Entry.dir l).everywhere Listing.isTidy = true) :
    (sourcesIn s leadsToDir p l).Nodup := by
  match l with
  | [] => exact List.nodup_nil
  | (m, e) :: r =>
      obtain ⟨hnew, he, hr⟩ := Listing.tidy_cons hl
      rw [sourcesIn, List.nodup_append]
      refine ⟨nodup_sourcesAt e he, nodup_sourcesIn r hr, ?_⟩
      -- the first name behind `p` is `m` on the left and another one on the right
      rintro q hq _ hq' rfl
      obtain ⟨rest, hrest⟩ := names_of_mem_sourcesAt he hq
      obtain ⟨dirs, n, e', hbelow, _⟩ := (mem_sourcesIn_iff r hr).mp hq'
      obtain ⟨k, hk, rest', hrest'⟩ := hbelow.head
      rw [hrest', Path.child, List.append_assoc, List.append_cancel_left_eq] at hrest
      rw [List.singleton_append, List.cons.injEq] at hrest
      exact hnew (hrest.1 ▸ hk)

end

/-! ## Looking into the files -/

section Look

variable {σ : Type} {host : Host σ} {o : Settings} {s : σ} {needle : Text}

/-- **The search keeps the paths whose text holds the needle**, in the order they have. -/
theorem mentioning_cases {ps found : List Path}
    (h : (mentioning host o s needle ps).2 = .ok found) :
    found.Sublist ps ∧ ∀ p, p ∈ found ↔ p ∈ ps
      ∧ ∃ text, host.readLeniently o.encoding s p = .ok text
        ∧ Text.occursIn needle text = true := by
  induction ps generalizing found with
  | nil =>
      cases h
      exact ⟨List.Sublist.refl _, by simp⟩
  | cons q ps ih =>
      rw [mentioning] at h
      cases hread : host.readLeniently o.encoding s q with
      | ok text =>
          simp only [hread] at h
          cases hoccurs : Text.occursIn needle text with
          | true =>
              rw [if_pos hoccurs] at h
              cases hrest : (mentioning host o s needle ps).2 with
              | error f =>
                  rw [hrest] at h
                  cases h
              | ok rest =>
                  rw [hrest] at h
                  cases h
                  obtain ⟨hsub, hmem⟩ := ih hrest
                  refine ⟨hsub.cons_cons q, fun p => ?_⟩
                  rw [List.mem_cons, List.mem_cons, hmem, or_and_right]
                  refine or_congr_left ⟨?_, And.left⟩
                  rintro rfl
                  exact ⟨rfl, text, hread, hoccurs⟩
          | false =>
              rw [if_neg (by simp [hoccurs])] at h
              obtain ⟨hsub, hmem⟩ := ih h
              refine ⟨hsub.cons q, fun p => ?_⟩
              rw [List.mem_cons, hmem, or_and_right]
              refine (or_iff_right ?_).symm
              rintro ⟨rfl, text', htext', hoccurs'⟩
              rw [hread, Except.ok.injEq] at htext'
              rw [← htext', hoccurs] at hoccurs'
              exact absurd hoccurs' (by simp)
      | error f =>
          simp only [hread] at h
          split at h
          · obtain ⟨hsub, hmem⟩ := ih h
            refine ⟨hsub.cons q, fun p => ?_⟩
            rw [List.mem_cons, hmem, or_and_right]
            refine (or_iff_right ?_).symm
            rintro ⟨rfl, text, htext, -⟩
            rw [hread] at htext
            cases htext
          · cases h

variable (host o s) in
/-- A file breaks a search off: reading it ends in a fault that is not the file system's. -/
def Breaks (p : Path) (f : Fault) : Prop :=
  host.readLeniently o.encoding s p = .error f ∧ f.family ≠ .system

/-- **A search is broken off by the first file that does so.** -/
theorem mentioning_eq_error_iff {ps : List Path} {f : Fault} :
    (mentioning host o s needle ps).2 = .error f
      ↔ ∃ before p after, ps = before ++ p :: after ∧ (∀ q ∈ before, ∀ g, ¬ Breaks host o s q g)
        ∧ Breaks host o s p f := by
  induction ps with
  | nil => simp [mentioning]
  | cons p ps ih =>
      -- the search goes on behind `p`, unless `p` breaks it off
      have hon : (∀ g, ¬ Breaks host o s p g) →
          ((mentioning host o s needle ps).2 = .error f
            ↔ ∃ before q after, p :: ps = before ++ q :: after
              ∧ (∀ r ∈ before, ∀ g, ¬ Breaks host o s r g) ∧ Breaks host o s q f) := by
        intro hp
        rw [ih]
        constructor
        · rintro ⟨before, q, after, rfl, hbefore, hq⟩
          exact ⟨p :: before, q, after, rfl, List.forall_mem_cons.mpr ⟨hp, hbefore⟩, hq⟩
        · rintro ⟨before, q, after, hsplit, hbefore, hq⟩
          rcases List.cons_eq_append_iff.mp hsplit with ⟨rfl, hcons⟩ | ⟨rest, rfl, hrest⟩
          · cases hcons
            exact absurd hq (hp f)
          · exact ⟨rest, q, after, hrest, fun r hr => hbefore r (List.mem_cons_of_mem p hr), hq⟩
      rw [mentioning]
      cases hread : host.readLeniently o.encoding s p with
      | ok text =>
          have hp : ∀ g, ¬ Breaks host o s p g := by
            rintro g ⟨herror, -⟩
            cases hread.symm.trans herror
          rw [← hon hp]
          dsimp only
          split
          · cases (mentioning host o s needle ps).2 <;> simp [Except.map]
          · rfl
      | error g =>
          dsimp only
          split
          · next hfamily =>
            have hp : ∀ g', ¬ Breaks host o s p g' := by
              rintro g' ⟨herror, hfamily'⟩
              cases hread.symm.trans herror
              exact hfamily' (by simpa using hfamily)
            rw [← hon hp]
          · next hfamily =>
            have hp : Breaks host o s p g := ⟨hread, by simpa using hfamily⟩
            constructor
            · intro h
              cases h
              exact ⟨[], p, ps, rfl, by simp, hp⟩
            · rintro ⟨before, q, after, hsplit, hbefore, hq⟩
              rcases List.cons_eq_append_iff.mp hsplit with ⟨rfl, hcons⟩ | ⟨rest, rfl, -⟩
              · cases hcons
                cases hp.1.symm.trans hq.1
                rfl
              · exact absurd hp (hbefore p List.mem_cons_self g)

/-- A search that comes to its end has met no file that breaks it off. -/
theorem not_breaks_of_mentioning {ps found : List Path}
    (h : (mentioning host o s needle ps).2 = .ok found) {p : Path} (hp : p ∈ ps) (f : Fault) :
    ¬ Breaks host o s p f := by
  classical
  intro hf
  cases hfirst : ps.find? fun q => decide (∃ g, Breaks host o s q g) with
  | none =>
      have hnone := List.find?_eq_none.mp hfirst p hp
      exact hnone (by simpa using ⟨f, hf⟩)
  | some q =>
      obtain ⟨hq, before, after, rfl, hbefore⟩ := List.find?_eq_some_iff_append.mp hfirst
      obtain ⟨g, hg⟩ := of_decide_eq_true hq
      have hquiet : ∀ r ∈ before, ∀ g', ¬ Breaks host o s r g' := by
        intro r hr g' hg'
        have hr' := hbefore r hr
        simp only [Bool.not_eq_true', decide_eq_false_iff_not, not_exists] at hr'
        exact hr' g' hg'
      have herror : (mentioning host o s needle (before ++ q :: after)).2 = .error g :=
        mentioning_eq_error_iff.mpr ⟨before, q, after, rfl, hquiet, hg⟩
      cases herror.symm.trans h

/-- A search lists the sources and then looks into them. -/
theorem files_snd (host : Host σ) (o : Settings) (s : σ) (root : Path) (needle : Text) :
    (files host o s root needle).2 = match sources host o s root with
      | .error stop => .error stop
      | .ok ps => (mentioning host o s needle ps).2.mapError .fault := by
  rw [files]
  cases sources host o s root with
  | error stop => rfl
  | ok ps => rfl

/-- A search through the sources ends with a fault if one of them breaks it off, and the first one
does. -/
theorem files_eq_fault_iff {root : Path} {ps : List Path} {f : Fault}
    (hsources : sources host o s root = .ok ps) :
    (files host o s root needle).2 = .error (.fault f)
      ↔ ∃ before p after, ps = before ++ p :: after ∧ (∀ q ∈ before, ∀ g, ¬ Breaks host o s q g)
        ∧ Breaks host o s p f := by
  refine Iff.trans ?_ (mentioning_eq_error_iff : (mentioning host o s needle ps).2 = .error f ↔ _)
  rw [files_snd, hsources]
  dsimp only
  cases (mentioning host o s needle ps).2 <;> simp [Except.mapError]

/-- A search that no source breaks off comes to its end. -/
theorem exists_files_of_read {root : Path} {ps : List Path}
    (hsources : sources host o s root = .ok ps)
    (hread : ∀ p ∈ ps, ∀ f, ¬ Breaks host o s p f) :
    ∃ found, (files host o s root needle).2 = .ok found := by
  rw [files_snd, hsources]
  dsimp only
  cases hlooked : (mentioning host o s needle ps).2 with
  | ok found => exact ⟨found, rfl⟩
  | error f =>
      obtain ⟨before, p, after, rfl, -, hbreaks⟩ := mentioning_eq_error_iff.mp hlooked
      exact absurd hbreaks (hread p (by simp) f)

/-- What is found is what the sources are looked into for. -/
theorem mentioning_of_files {root : Path} {ps found : List Path}
    (hsources : sources host o s root = .ok ps)
    (h : (files host o s root needle).2 = .ok found) :
    (mentioning host o s needle ps).2 = .ok found := by
  rw [files_snd, hsources] at h
  dsimp only at h
  cases hrest : (mentioning host o s needle ps).2 with
  | error f =>
      rw [hrest] at h
      cases h
  | ok qs =>
      rw [hrest] at h
      rw [← Except.ok.inj h]

/-- What a search finds was among the sources. -/
theorem sources_of_files {root : Path} {found : List Path}
    (h : (files host o s root needle).2 = .ok found) : ∃ ps, sources host o s root = .ok ps := by
  rw [files_snd] at h
  split at h
  · cases h
  · next ps hps => exact ⟨ps, hps⟩

/-- The search as a whole checks the root, and then asks the tool or walks. -/
theorem find_snd (host : Host σ) (o : Settings) (s : σ) (root : Path) (needle : Text) :
    (find host o s root needle).2 = match checkRoot host s root with
      | .error stop => .error stop
      | .ok _ =>
        match tool? host o with
        | some tool => (askTool tool o s root needle).2
        | none => (files host o s root needle).2 := by
  rw [find]
  cases checkRoot host s root with
  | error stop => rfl
  | ok _ =>
      cases tool? host o with
      | some tool =>
          dsimp only
          split <;> exact (‹_› : (askTool tool o s root needle).2 = _).symm
      | none =>
          dsimp only
          split <;> exact (‹_› : (files host o s root needle).2 = _).symm

/-- Without a tool it is the walk. -/
theorem find_snd_of_walk (htool : tool? host o = none) (root : Path) (needle : Text) :
    (find host o s root needle).2 = (files host o s root needle).2 := by
  rw [find_snd, htool, files_snd, sources]
  cases checkRoot host s root with
  | error stop => rfl
  | ok _ => rfl

end Look

/-! ## Found files on a disk -/

end Search

namespace Disk

variable {codecs : Codecs} {encoding : Text} {d : Disk} {p : Path}

/-- What opening a file for a search comes to, step by step. -/
theorem readLeniently_eq (codecs : Codecs) (encoding : Text) (d : Disk) (p : Path) :
    d.readLeniently codecs encoding p = match Codecs.allow encoding with
      | .error f => .error f
      | .ok _ =>
        match d.readBytes p with
        | .error f => .error f
        | .ok bytes =>
          match codecs.named encoding with
          | .error f => .error f
          | .ok codec => (codec.decodeLeniently bytes).map Text.normalizeLineEnds := by
  rw [readLeniently]
  cases Codecs.allow encoding with
  | error f => rfl
  | ok _ =>
      cases d.readBytes p with
      | error f => rfl
      | ok bytes => cases codecs.named encoding <;> rfl

/-- A file that can be opened is a file. -/
theorem find_of_readLeniently {text : Text} (h : d.readLeniently codecs encoding p = .ok text) :
    ∃ place bytes mode, d.find p = .file place bytes mode := by
  rw [readLeniently_eq] at h
  split at h
  · cases h
  · split at h
    · cases h
    · next bytes hbytes =>
      rw [readBytes] at hbytes
      split at hbytes
      · next place bytes mode hfind => exact ⟨place, bytes, mode, hfind⟩
      all_goals cases hbytes

/-- No look-up finds fault with a null character: that is done before it. -/
theorem lookUp_ne_nullByte (top : Listing) (links : Nat) (place names : List Text) :
    lookUp top true links place names ≠ .refused .nullByte := by
  induction links, place, names using lookUpInduction with
  | nil links place => simp [lookUp]
  | dot links place names ih => rwa [lookUp_dot]
  | up links place names ih => rwa [lookUp_up]
  | long links place n names hn hlong => simp [lookUp_long hn hlong]
  | name links place n names hn hshort ih ihlink =>
      rw [lookUp_cons hn hshort]
      split
      · split <;> simp
      · exact ih
      · split <;> simp
      · split <;> simp
      · next target hbare =>
        rw [if_neg (by simp)]
        split
        · simp
        · next k => exact ihlink k target rfl

/-- A file that cannot be opened is refused by the file system, unless there is a null character in
its path. -/
theorem family_of_readBytes (hp : hasNull p = false) {f : Fault} (h : d.readBytes p = .error f) :
    f.family = .system := by
  rw [readBytes] at h
  split at h
  · cases h
  · cases h
    rfl
  · cases h
    rfl
  · cases h
    rfl
  · cases h
    rfl
  · next r hfind =>
    cases h
    rw [find, seek, if_neg (by simp [hp])] at hfind
    cases r with
    | nullByte => exact absurd hfind (lookUp_ne_nullByte _ _ _ _)
    | _ => rfl

/-- Below a directory, the names on the way are all short enough, or the first that is not ends the
look-up. -/
theorem lookUp_names {top : Listing} {place dirs : List Text} {through : Bool} {links : Nat}
    (hdirs : Listing.bareAt? (place ++ dirs) top = some (.dir []))
    (hordinary : ∀ n ∈ dirs, IsOrdinary n) :
    (∀ n ∈ dirs, isTooLong n = false)
      ∨ ∀ rest, lookUp top through links place (dirs ++ rest) = .refused .nameTooLong := by
  induction dirs generalizing place with
  | nil => exact .inl (by simp)
  | cons n dirs ih =>
      obtain ⟨hn, hrest⟩ := List.forall_mem_cons.mp hordinary
      cases hlong : isTooLong n with
      | true => exact .inr fun rest => lookUp_long hn hlong (dirs ++ rest)
      | false =>
          rw [← List.singleton_append, ← List.append_assoc] at hdirs
          rcases ih hdirs hrest with hshort | hrefused
          · exact .inl (List.forall_mem_cons.mpr ⟨hlong, hshort⟩)
          · refine .inr fun rest => ?_
            rw [List.cons_append, lookUp_cons hn hlong, Listing.bareAt?_of_append hdirs]
            exact hrefused rest

/-- These paths are distinct, and each sits in its directory, leads to a file, and has a place of
its own. -/
structure Located (d : Disk) (found : List Path) : Prop where
  distinct : found.Nodup
  sits : ∀ p ∈ found, ∃ dir n, d.Sits p dir n
  file : ∀ p ∈ found, ∃ place bytes mode, d.find p = .file place bytes mode
  apart : ∀ p ∈ found, ∀ q ∈ found, d.placeOf p = d.placeOf q → p = q

end Disk

namespace Search

variable {codecs : Codecs} {tool : Option (Tool Disk)} {o : Settings} {d : Disk} {root : Path}

/-- A path below the directory that a root leads to sits in its directory, if it leads to a file. -/
theorem Below.sits {p : Path} {place dirs : List Text} {l : Listing} {n : Text} {e : Entry}
    (htidy : d.isTidy = true) (hroot : d.find root = .directory place)
    (hl : Listing.dirAt? place d.top = some l) (h : Below l root p dirs n e)
    {at' : List Text} {bytes : Bytes} {mode : Nat} (hfile : d.find p = .file at' bytes mode) :
    d.Sits p (place ++ dirs) n := by
  obtain ⟨sub, hdir, hlookup⟩ := h.listing
  have hltidy := Listing.everywhere_of_dirAt? htidy hl
  have hdirs : Listing.bareAt? (place ++ dirs) d.top = some (.dir []) := by
    rw [Listing.bareAt?_append hl, Listing.bareAt?_of_dirAt? hdir]
  have hparent : p.parent = ⟨root.anchor, root.names ++ dirs⟩ := by
    rw [h.path, Path.parent, ← List.append_assoc, List.dropLast_concat]
  have hordinary := Listing.isOrdinary_of_dirAt? hltidy hdir
  have hsubtidy := Listing.everywhere_of_dirAt? hltidy hdir
  rw [Entry.everywhere, Bool.and_eq_true, Listing.isTidy_iff] at hsubtidy
  have hn := hsubtidy.1.1 n (Listing.mem_names_of_lookup hlookup)
  -- a path that leads to a file has no null character and no name that is too long
  have hclean : Disk.hasNull p = false := by
    rw [Disk.find, Disk.seek] at hfile
    split at hfile
    · cases hfile
    · next hnull => simpa using hnull
  have hrootclean : Disk.hasNull root = false := by
    rw [Disk.hasNull, List.any_eq_false] at hclean ⊢
    intro m hm
    exact hclean m (by simp [h.path, hm])
  rw [Disk.find, Disk.seek, if_neg (by simp [hrootclean])] at hroot
  obtain ⟨links, hlinks⟩ := Disk.lookUp_append hroot
  have hbehind : ∀ ns, Disk.lookUp d.top true Disk.linkLimit (d.start root) (root.names ++ ns)
      = Disk.lookUp d.top true links place ns := by
    intro ns
    cases ns with
    | nil => rw [List.append_nil, hroot, Disk.lookUp]
    | cons m ms => exact hlinks true m ms
  rw [h.path, Disk.find, Disk.seek, if_neg (by rw [← h.path]; simp [hclean])] at hfile
  replace hfile := (hbehind (dirs ++ [n])).symm.trans hfile
  have hshort : ∀ m ∈ dirs, Disk.isTooLong m = false := by
    rcases Disk.lookUp_names hdirs hordinary with hshort | hrefused
    · exact hshort
    · cases (hrefused [n]).symm.trans hfile
  have hdirsnames : ∀ m ∈ dirs, Disk.IsOrdinary m ∧ Disk.isTooLong m = false :=
    fun m hm => ⟨hordinary m hm, hshort m hm⟩
  refine ⟨⟨?_, hdirs, ?_, hn⟩, ?_, hclean⟩
  · have hparentclean : Disk.hasNull ⟨root.anchor, root.names ++ dirs⟩ = false := by
      rw [Disk.hasNull, List.any_eq_false] at hclean ⊢
      intro m hm
      refine hclean m ?_
      rw [h.path, ← List.append_assoc]
      exact List.mem_append_left [n] hm
    rw [hparent, Disk.find, Disk.seek, if_neg (by simp [hparentclean])]
    have hwalk := Disk.lookUp_dirs hdirs hdirsnames true links []
    rw [List.append_nil, Disk.lookUp] at hwalk
    exact (hbehind dirs).trans hwalk
  · rw [h.path, Path.name?, ← List.append_assoc, List.getLast?_concat]
  · rw [Disk.lookUp_dirs hdirs hdirsnames] at hfile
    cases hlong : Disk.isTooLong n with
    | false => rfl
    | true =>
        rw [Disk.lookUp_long hn hlong] at hfile
        cases hfile

/-- A path leads, from the directory that the root leads to, to an entry below it. -/
def IsBelow (d : Disk) (root p : Path) : Prop :=
  ∃ place l dirs n e, d.find root = .directory place ∧ Listing.dirAt? place d.top = some l
    ∧ Below l root p dirs n e

/-- **Files below a root are located.** -/
theorem located_of_isBelow (htidy : d.isTidy = true) {found : List Path} (hdistinct : found.Nodup)
    (hbelow : ∀ p ∈ found, IsBelow d root p)
    (hfile : ∀ p ∈ found, ∃ place bytes mode, d.find p = .file place bytes mode) :
    d.Located found := by
  have hsits : ∀ p ∈ found, ∃ place dirs n, d.find root = .directory place
      ∧ p = ⟨root.anchor, root.names ++ (dirs ++ [n])⟩ ∧ d.Sits p (place ++ dirs) n := by
    intro p hp
    obtain ⟨place, l, dirs, n, e, hroot, hl, hp'⟩ := hbelow p hp
    obtain ⟨_, _, _, hleads⟩ := hfile p hp
    exact ⟨place, dirs, n, hroot, hp'.path, hp'.sits htidy hroot hl hleads⟩
  refine ⟨hdistinct, ?_, hfile, ?_⟩
  · intro p hp
    obtain ⟨place, dirs, n, _, _, h⟩ := hsits p hp
    exact ⟨place ++ dirs, n, h⟩
  · intro p hp q hq h
    obtain ⟨place, dirs, n, hroot, hpath, hp'⟩ := hsits p hp
    obtain ⟨place', dirs', n', hroot', hpath', hq'⟩ := hsits q hq
    obtain rfl : place = place' := Disk.Found.directory.inj (hroot.symm.trans hroot')
    rw [hp'.placeOf, hq'.placeOf, List.append_assoc, List.append_assoc,
      List.append_cancel_left_eq] at h
    rw [hpath, hpath', h]

/-- The root of a search has to lead to a directory. -/
theorem checkRoot_host_eq_ok_iff :
    checkRoot (Disk.host codecs tool) d root = .ok ()
      ↔ (∃ place, d.find root = .directory place) ∨ ∃ place, d.find root = .shut place := by
  simp only [checkRoot, Disk.host, Disk.holds, Disk.isDir, Disk.asks]
  cases d.find root with
  | refused r => by_cases h : r.isAbsence = true <;> simp [h]
  | _ => simp

theorem listing_of_directory {place : List Text} (h : d.find root = .directory place) :
    d.listing root = (Listing.dirAt? place d.top).getD [] := by
  rw [Disk.listing, h]

/-- The sources below a directory with this listing. -/
theorem sources_host_eq (codecs : Codecs) (tool : Option (Tool Disk)) (o : Settings)
    {place : List Text} {l : Listing} (hroot : d.find root = .directory place)
    (hl : Listing.dirAt? place d.top = some l) :
    sources (Disk.host codecs tool) o d root
      = .ok (Path.sort (sourcesIn o d.leadsToDir root l)) := by
  have hlisting : d.listing root = l := by rw [listing_of_directory hroot, hl, Option.getD_some]
  rw [sources, checkRoot_host_eq_ok_iff.mpr (.inl ⟨place, hroot⟩)]
  exact congrArg (fun l => Except.ok (Path.sort (sourcesIn o d.leadsToDir root l))) hlisting

/-- The sources below a root: each is listed once, and is below the root. -/
theorem sources_host_cases {ps : List Path} (htidy : d.isTidy = true)
    (h : sources (Disk.host codecs tool) o d root = .ok ps) :
    ps.Nodup ∧ ∀ p ∈ ps, isSource o p = true ∧ IsBelow d root p := by
  rw [sources] at h
  cases hroot : checkRoot (Disk.host codecs tool) d root with
  | error stop =>
      rw [hroot] at h
      cases h
  | ok _ =>
      rw [hroot] at h
      have hperm : ps.Perm (sourcesIn o d.leadsToDir root (d.listing root)) := by
        rw [← Except.ok.inj h]
        exact List.mergeSort_perm _ Path.le
      -- nothing is listed that is no directory
      have hnone : d.listing root = [] → ps.Nodup ∧ ∀ p ∈ ps, isSource o p = true
          ∧ IsBelow d root p := by
        intro hlisting
        rw [hlisting, sourcesIn, List.perm_nil] at hperm
        rw [hperm]
        exact ⟨List.nodup_nil, by simp⟩
      cases hfind : d.find root with
      | directory place =>
          cases hl : Listing.dirAt? place d.top with
          | none => exact hnone (by rw [listing_of_directory hfind, hl, Option.getD_none])
          | some l =>
              have hltidy := Listing.everywhere_of_dirAt? htidy hl
              rw [listing_of_directory hfind, hl, Option.getD_some] at hperm
              refine ⟨hperm.nodup_iff.mpr (nodup_sourcesIn l hltidy), ?_⟩
              intro p hp
              obtain ⟨dirs, n, e, hbelow, htaken⟩ :=
                (mem_sourcesIn_iff l hltidy).mp (hperm.mem_iff.mp hp)
              exact ⟨htaken.source, place, l, dirs, n, e, hfind, hl, hbelow⟩
      | _ => exact hnone (by rw [Disk.listing, hfind])

/-- **What a walk finds** are sources, which are located. -/
theorem located_of_files {needle : Text} {found : List Path} (htidy : d.isTidy = true)
    (h : (files (Disk.host codecs tool) o d root needle).2 = .ok found) :
    (∀ p ∈ found, isSource o p = true) ∧ d.Located found := by
  obtain ⟨ps, hsources⟩ := sources_of_files h
  obtain ⟨hsub, hmem⟩ := mentioning_cases (mentioning_of_files hsources h)
  obtain ⟨hnodup, hps⟩ := sources_host_cases htidy hsources
  refine ⟨fun p hp => (hps p (hsub.subset hp)).1, ?_⟩
  apply located_of_isBelow htidy (hnodup.sublist hsub) fun p hp => (hps p (hsub.subset hp)).2
  intro p hp
  obtain ⟨_, text, hread, _⟩ := (hmem p).mp hp
  exact Disk.find_of_readLeniently hread

end Search

end Unflag
