/-
Places on a disk.

A look-up asks the disk one kind of question only: what is at this place, a directory counted
without its content. `Listing.bareAt?` is the answer, so two disks that agree on it cannot be
told apart by looking up paths, and what a change does to a disk is said by the one place at which
the answer has become another (`bareAt?_change`).

A disk is changed while it is being worked on, and the paths must go on leading to the places
they led to. They do as long as only files are changed, and links that lead to files: a look-up
that ends at a directory has passed none of these (`lookUp_of_agree`).
-/
import Mathlib.Data.List.Basic
import Unflag.Disk
import Unflag.Proofs.FileStep

set_option autoImplicit false

namespace Unflag

/-! ## What is at a place -/

/-- An entry without what is inside of it. -/
def Entry.bare : Entry → Entry
  | .file bytes mode => .file bytes mode
  | .link target => .link target
  | .dir _ => .dir []
  | .shut => .shut

theorem Entry.isDirectory_bare (e : Entry) : e.bare.isDirectory = e.isDirectory := by
  cases e <;> rfl

namespace Listing

/-- What is at a place below a listing. -/
def bareAt? : List Text → Listing → Option Entry
  | [], _ => some (.dir [])
  | n :: ns, l =>
    match l.lookup n with
    | some (.dir sub) => bareAt? ns sub
    | some e => if ns.isEmpty then some e else none
    | none => none

theorem bareAt?_singleton (n : Text) (l : Listing) :
    bareAt? [n] l = (l.lookup n).map Entry.bare := by
  rw [bareAt?]
  cases l.lookup n with
  | none => rfl
  | some e => cases e <;> rfl

/-- Below a directory, places go on from its listing; -/
theorem bareAt?_append {place : List Text} {l sub : Listing} (h : dirAt? place l = some sub)
    (ns : List Text) : bareAt? (place ++ ns) l = bareAt? ns sub := by
  induction place generalizing l with
  | nil =>
      rw [List.nil_append, Option.some.inj h]
  | cons n place ih =>
      rw [dirAt?] at h
      rw [List.cons_append, bareAt?]
      split at h
      · next inner hinner =>
        rw [hinner]
        exact ih h
      · exact absurd h (by simp)

/-- where there is none, nothing is below. -/
theorem bareAt?_append_of_none {place : List Text} {l : Listing} (h : dirAt? place l = none)
    (n : Text) (ns : List Text) : bareAt? (place ++ n :: ns) l = none := by
  induction place generalizing l with
  | nil => exact absurd h (by simp [dirAt?])
  | cons m place ih =>
      rw [dirAt?] at h
      rw [List.cons_append, bareAt?]
      split at h
      · next inner hinner =>
        rw [hinner]
        exact ih h
      · next hnone =>
        split
        · next inner hinner => exact absurd hinner (hnone inner)
        · rw [if_neg (by simp)]
        · rfl

/-- The question that a look-up asks. -/
theorem bareAt?_eq_map (place : List Text) (n : Text) (l : Listing) :
    bareAt? (place ++ [n]) l = ((dirAt? place l).bind (List.lookup n)).map Entry.bare := by
  cases h : dirAt? place l with
  | none => exact bareAt?_append_of_none h n []
  | some sub => rw [bareAt?_append h, bareAt?_singleton, Option.bind_some]

/-- A directory at a place has a listing. -/
theorem dirAt?_of_bareAt? {place : List Text} {l : Listing}
    (h : bareAt? place l = some (.dir [])) : ∃ sub, dirAt? place l = some sub := by
  induction place generalizing l with
  | nil => exact ⟨l, rfl⟩
  | cons n place ih =>
      rw [bareAt?] at h
      rw [dirAt?]
      split at h
      · next inner hinner =>
        rw [hinner]
        exact ih h
      · next e hleaf _ =>
        split at h
        · exact absurd (Option.some.inj h) (hleaf [])
        · exact absurd h (by simp)
      · exact absurd h (by simp)

theorem bareAt?_of_dirAt? {place : List Text} {l sub : Listing} (h : dirAt? place l = some sub) :
    bareAt? place l = some (.dir []) := by
  have hself := bareAt?_append h []
  rwa [List.append_nil] at hself

/-- Every directory on the way to a directory is one. -/
theorem bareAt?_of_append {place ns : List Text} {l : Listing}
    (h : bareAt? (place ++ ns) l = some (.dir [])) : bareAt? place l = some (.dir []) := by
  cases ns with
  | nil => rwa [List.append_nil] at h
  | cons n ns =>
      cases hdir : dirAt? place l with
      | none => exact absurd ((bareAt?_append_of_none hdir n ns).symm.trans h) (by simp)
      | some sub => exact bareAt?_of_dirAt? hdir

/-! ## Changes -/

theorem lookup_put (n : Text) (e : Entry) (l : Listing) (k : Text) :
    (put n e l).lookup k = if k = n then some e else l.lookup k :=
  lookup_of_put (put n e) rfl (fun _ _ => rfl) l k

theorem lookup_erase (n : Text) (l : Listing) (k : Text) :
    (erase n l).lookup k = if k = n then none else l.lookup k :=
  lookup_filter_ne n l k

theorem lookup_change_cons (f : Listing → Listing) (n : Text) (place : List Text) (l : Listing)
    (k : Text) :
    (change f (n :: place) l).lookup k = (l.lookup k).map fun e =>
      if k = n then
        match e with
        | .dir sub => .dir (change f place sub)
        | e => e
      else e := by
  rw [change]
  induction l with
  | nil => rfl
  | cons x r ih =>
      rw [List.map_cons, lookup_cons_eq_ite, lookup_cons_eq_ite, ih]
      by_cases hx : x.1 = n
      · rw [if_pos hx]
        by_cases hk : k = x.1
        · subst hk
          cases hx2 : x.2 <;> simp [hx]
        · cases hx2 : x.2 <;> simp [hk]
      · rw [if_neg hx]
        by_cases hk : k = x.1
        · subst hk
          simp [hx]
        · simp [hk]

/-- A listing with something else at the name `n`, and no directory there before or after. -/
theorem bareAt?_of_lookup {sub sub' : Listing} {n : Text} {e : Option Entry}
    (hnew : ∀ l, e ≠ some (.dir l)) (hold : ∀ l, sub.lookup n ≠ some (.dir l))
    (hsub : ∀ k, sub'.lookup k = if k = n then e else sub.lookup k) (k : Text) (ks : List Text) :
    bareAt? (k :: ks) sub' = if k :: ks = [n] then e else bareAt? (k :: ks) sub := by
  -- below something that is no directory there is nothing
  have hbelow : ∀ {l : Listing}, (∀ inner, l.lookup n ≠ some (.dir inner)) → ∀ m ms,
      bareAt? (n :: m :: ms) l = none := by
    intro l hl m ms
    rw [bareAt?]
    split
    · next inner hinner => exact absurd hinner (hl inner)
    · exact if_neg (by simp)
    · rfl
  by_cases hk : k = n
  · subst hk
    have hself : sub'.lookup k = e := by rw [hsub, if_pos rfl]
    cases ks with
    | nil =>
        rw [if_pos rfl, bareAt?_singleton, hself]
        cases e with
        | none => rfl
        | some e =>
            cases e with
            | dir l => exact absurd rfl (hnew l)
            | _ => rfl
    | cons m ms => rw [if_neg (by simp), hbelow (hself ▸ hnew), hbelow hold]
  · rw [bareAt?, bareAt?, hsub, if_neg hk, if_neg (by simp [hk])]

/-- **A change at one place.** If below the directory at `place` something else is at the name `n`
afterwards, and no directory was or is there, then the whole disk has changed at that place and
nowhere else. -/
theorem bareAt?_change {f : Listing → Listing} {place : List Text} {l sub : Listing} {n : Text}
    {e : Option Entry} (hdir : dirAt? place l = some sub) (hnew : ∀ l, e ≠ some (.dir l))
    (hold : ∀ l, sub.lookup n ≠ some (.dir l))
    (hf : ∀ k, (f sub).lookup k = if k = n then e else sub.lookup k) (q : List Text) :
    bareAt? q (change f place l) = if q = place ++ [n] then e else bareAt? q l := by
  induction place generalizing l q with
  | nil =>
      obtain rfl : l = sub := Option.some.inj hdir
      cases q with
      | nil => rfl
      | cons k ks => exact bareAt?_of_lookup hnew hold hf k ks
  | cons m place ih =>
      cases q with
      | nil => rfl
      | cons k ks =>
          rw [dirAt?] at hdir
          split at hdir
          · next inner hinner =>
            rw [bareAt?, bareAt?, lookup_change_cons]
            by_cases hk : k = m
            · subst hk
              rw [hinner]
              simp only [Option.map_some, if_true, List.cons_append, List.cons.injEq, true_and]
              exact ih hdir ks
            · simp only [Option.map_id', List.cons_append, List.cons.injEq, hk, false_and, if_false]
          · exact absurd hdir (by simp)

end Listing

/-! ## Looking up -/

namespace Disk

/-- A name that a directory entry can have: neither a dot nor a double dot. -/
def IsOrdinary (n : Text) : Prop := n ≠ ['.'] ∧ n ≠ ['.', '.']

/-- One step of a look-up. -/
theorem lookUp_cons {top : Listing} {through : Bool} {links : Nat} {place : List Text} {n : Text}
    (hn : IsOrdinary n) (hshort : isTooLong n = false) (rest : List Text) :
    lookUp top through links place (n :: rest)
      = match Listing.bareAt? (place ++ [n]) top with
        | none => if rest.isEmpty then .vacant (place ++ [n]) else .refused .noEntry
        | some (.dir _) => lookUp top through links (place ++ [n]) rest
        | some .shut => if rest.isEmpty then .shut (place ++ [n]) else .refused .denied
        | some (.file bytes mode) =>
          if rest.isEmpty then .file (place ++ [n]) bytes mode else .refused .notDirectory
        | some (.link target) =>
          if rest.isEmpty && !through then .link (place ++ [n]) target
          else
            match links with
            | 0 => .refused .linkLoop
            | k + 1 =>
              lookUp top through k (targetStart place target) (targetNames target ++ rest) := by
  rw [lookUp, if_neg hn.1, if_neg hn.2, if_neg (by simp [hshort]), Listing.bareAt?_eq_map]
  cases (Listing.dirAt? place top).bind (List.lookup n) with
  | none => rfl
  | some e => cases e <;> rfl

theorem lookUp_long {top : Listing} {through : Bool} {links : Nat} {place : List Text} {n : Text}
    (hn : IsOrdinary n) (hlong : isTooLong n = true) (rest : List Text) :
    lookUp top through links place (n :: rest) = .refused .nameTooLong := by
  rw [lookUp, if_neg hn.1, if_neg hn.2, if_pos hlong]

theorem lookUp_dot (top : Listing) (through : Bool) (links : Nat) (place rest : List Text) :
    lookUp top through links place (['.'] :: rest) = lookUp top through links place rest := by
  rw [lookUp, if_pos rfl]

theorem lookUp_up (top : Listing) (through : Bool) (links : Nat) (place rest : List Text) :
    lookUp top through links place (['.', '.'] :: rest)
      = lookUp top through links place.dropLast rest := by
  rw [lookUp, if_neg (by decide), if_pos rfl]

/-- **Induction on a look-up.** It ends at a name that is too long. Behind any other ordinary name
it goes on below that name, or, with one link less to follow, at the target of a link. -/
theorem lookUpInduction {motive : Nat → List Text → List Text → Prop}
    (nil : ∀ links place, motive links place [])
    (dot : ∀ links place rest, motive links place rest → motive links place (['.'] :: rest))
    (up : ∀ links place rest, motive links place.dropLast rest →
      motive links place (['.', '.'] :: rest))
    (long : ∀ links place n rest, IsOrdinary n → isTooLong n = true →
      motive links place (n :: rest))
    (name : ∀ links place n rest, IsOrdinary n → isTooLong n = false →
      motive links (place ++ [n]) rest →
      (∀ k target, links = k + 1 →
        motive k (targetStart place target) (targetNames target ++ rest)) →
      motive links place (n :: rest))
    (links : Nat) (place names : List Text) : motive links place names := by
  induction links using Nat.strongRecOn generalizing place names with
  | ind links ihlinks =>
      induction names generalizing place with
      | nil => exact nil links place
      | cons n rest ih =>
          by_cases hdot : n = ['.']
          · exact hdot ▸ dot links place rest (ih place)
          · by_cases hup : n = ['.', '.']
            · exact hup ▸ up links place rest (ih place.dropLast)
            · cases hlong : isTooLong n with
              | true => exact long links place n rest ⟨hdot, hup⟩ hlong
              | false =>
                  refine name links place n rest ⟨hdot, hup⟩ hlong (ih (place ++ [n])) ?_
                  intro k target hk
                  exact ihlinks k (by omega) (targetStart place target) (targetNames target ++ rest)

section LookUp

variable {top : Listing} {links : Nat} {place names result : List Text}

/-- A look-up that ends at a directory goes on from there. It has followed some of the links that
it may follow. -/
theorem lookUp_append (h : lookUp top true links place names = .directory result) :
    ∃ links', ∀ through n rest, lookUp top through links place (names ++ n :: rest)
      = lookUp top through links' result (n :: rest) := by
  induction links, place, names using lookUpInduction with
  | nil links place =>
      rw [lookUp] at h
      cases h
      exact ⟨links, fun through n rest => rfl⟩
  | dot links place names ih =>
      rw [lookUp_dot] at h
      obtain ⟨links', hlinks⟩ := ih h
      refine ⟨links', fun through n rest => ?_⟩
      rw [List.cons_append, lookUp_dot, hlinks]
  | up links place names ih =>
      rw [lookUp_up] at h
      obtain ⟨links', hlinks⟩ := ih h
      refine ⟨links', fun through n rest => ?_⟩
      rw [List.cons_append, lookUp_up, hlinks]
  | long links place m names hm hlong =>
      rw [lookUp_long hm hlong] at h
      cases h
  | name links place m names hm hshort ih ihlink =>
      rw [lookUp_cons hm hshort] at h
      simp only [List.cons_append, lookUp_cons hm hshort]
      split at h
      · split at h <;> cases h
      · next hbare =>
        obtain ⟨links', hlinks⟩ := ih h
        exact ⟨links', hlinks⟩
      · split at h <;> cases h
      · split at h <;> cases h
      · next target hbare =>
        rw [if_neg (by simp)] at h
        split at h
        · cases h
        · next k =>
          obtain ⟨links', hlinks⟩ := ihlink k target rfl h
          refine ⟨links', fun through n rest => ?_⟩
          rw [if_neg (by simp), ← List.append_assoc, hlinks]

/-- Behind a file there is no directory, however many links may be followed. -/
theorem lookUp_ne_directory_of_file {at' : List Text} {bytes : Bytes} {mode : Nat}
    (h : lookUp top true links place names = .file at' bytes mode) (links' : Nat)
    (rest result : List Text) :
    lookUp top true links' place (names ++ rest) ≠ .directory result := by
  induction links, place, names using lookUpInduction generalizing links' rest with
  | nil links place =>
      rw [lookUp] at h
      cases h
  | dot links place names ih =>
      rw [lookUp_dot] at h
      rw [List.cons_append, lookUp_dot]
      exact ih h links' rest
  | up links place names ih =>
      rw [lookUp_up] at h
      rw [List.cons_append, lookUp_up]
      exact ih h links' rest
  | long links place n names hn hlong =>
      rw [lookUp_long hn hlong] at h
      cases h
  | name links place n names hn hshort ih ihlink =>
      rw [lookUp_cons hn hshort] at h
      rw [List.cons_append, lookUp_cons hn hshort]
      split at h
      · split at h <;> cases h
      · exact ih h links' rest
      · split at h <;> cases h
      · split <;> simp
      · next target hbare =>
        rw [if_neg (by simp)] at h
        split at h
        · cases h
        · next k =>
          -- both go on at the target, each with the links that it has left
          rw [if_neg (by simp)]
          cases links' with
          | zero => simp
          | succ k' =>
              rw [← List.append_assoc]
              exact ihlink k target rfl h k' rest

/-- A place that no look-up of a directory passes: a file, or a link that leads to one. -/
def IsLeaf (top : Listing) (place : List Text) : Prop :=
  (∃ bytes mode, Listing.bareAt? place top = some (.file bytes mode))
    ∨ ∃ target links at' bytes mode, Listing.bareAt? place top = some (.link target)
      ∧ lookUp top true links (targetStart place.dropLast target) (targetNames target)
        = .file at' bytes mode

/-- **What leads to a directory goes on leading there.** If two disks agree except at files and at
links to files, a look-up that ends at a directory of the one ends there on the other. -/
theorem lookUp_of_agree {top' : Listing}
    (hagree : ∀ q, Listing.bareAt? q top' = Listing.bareAt? q top ∨ IsLeaf top q)
    (h : lookUp top true links place names = .directory result) :
    lookUp top' true links place names = .directory result := by
  induction links, place, names using lookUpInduction with
  | nil links place =>
      rw [lookUp] at h
      rw [lookUp, h]
  | dot links place names ih =>
      rw [lookUp_dot] at h
      rw [lookUp_dot, ih h]
  | up links place names ih =>
      rw [lookUp_up] at h
      rw [lookUp_up, ih h]
  | long links place n names hn hlong =>
      rw [lookUp_long hn hlong] at h
      cases h
  | name links place n names hn hshort ih ihlink =>
      rw [lookUp_cons hn hshort] at h
      rcases hagree (place ++ [n]) with hsame | ⟨bytes, mode, hfile⟩
          | ⟨target, links', at', bytes, mode, hlink, hleads⟩
      · rw [lookUp_cons hn hshort, hsame]
        split at h
        · split at h <;> cases h
        · exact ih h
        · split at h <;> cases h
        · split at h <;> cases h
        · next target hbare =>
          rw [if_neg (by simp)] at h ⊢
          split at h
          · cases h
          · next k => exact ihlink k target rfl h
      -- at a file, and behind a link to one, the look-up could not have found a directory
      · rw [hfile] at h
        dsimp only at h
        split at h <;> cases h
      · rw [List.dropLast_concat] at hleads
        rw [hlink] at h
        simp only [Bool.not_true, Bool.and_false, Bool.false_eq_true, if_false] at h
        cases links with
        | zero => cases h
        | succ k => exact absurd h (lookUp_ne_directory_of_file hleads k names result)

/-- Directories that are below each other are walked through. -/
theorem lookUp_dirs {dirs : List Text}
    (hdirs : Listing.bareAt? (place ++ dirs) top = some (.dir []))
    (hnames : ∀ n ∈ dirs, IsOrdinary n ∧ isTooLong n = false) (through : Bool) (links : Nat)
    (rest : List Text) :
    lookUp top through links place (dirs ++ rest)
      = lookUp top through links (place ++ dirs) rest := by
  induction dirs generalizing place with
  | nil => rw [List.append_nil, List.nil_append]
  | cons n dirs ih =>
      have hsplit : place ++ n :: dirs = (place ++ [n]) ++ dirs := by simp
      rw [hsplit] at hdirs ⊢
      obtain ⟨hn, hshort⟩ := hnames n List.mem_cons_self
      rw [List.cons_append, lookUp_cons hn hshort, Listing.bareAt?_of_append hdirs]
      exact ih hdirs fun m hm => hnames m (List.mem_cons_of_mem n hm)

end LookUp

/-! ## Paths -/

/-- What a look-up finds that ends at a place where this is. -/
def Found.ofBare (place : List Text) : Option Entry → Found
  | none => .vacant place
  | some (.dir _) => .directory place
  | some .shut => .shut place
  | some (.file bytes mode) => .file place bytes mode
  | some (.link target) => .link place target

/-- The place at which a look-up has ended, unless it was refused. -/
def Found.place? : Found → Option (List Text)
  | .directory place => some place
  | .shut place => some place
  | .file place _ _ => some place
  | .link place _ => some place
  | .vacant place => some place
  | .refused _ => none

theorem Found.place?_ofBare (place : List Text) (e : Option Entry) :
    (Found.ofBare place e).place? = some place := by
  cases e with
  | none => rfl
  | some e => cases e <;> rfl

/-- The place of a path; a link has a place of its own. -/
def placeOf (d : Disk) (p : Path) : List Text := ((d.findLink p).place?).getD []

/-- The place of one of the paths. -/
def IsPlaceOf (d : Disk) (paths : List Path) (q : List Text) : Prop :=
  ∃ p ∈ paths, (d.findLink p).place? = some q

/-- The path is that of the name `n` in the directory at `dir`, whether or not there is something of
this name. -/
structure LiesIn (d : Disk) (p : Path) (dir : List Text) (n : Text) : Prop where
  parent : d.find p.parent = .directory dir
  isDir : Listing.bareAt? dir d.top = some (.dir [])
  name : p.name? = some n
  ordinary : IsOrdinary n

/-- The path is that of a name in a directory, and a file system can be asked for it. -/
structure Sits (d : Disk) (p : Path) (dir : List Text) (n : Text) : Prop
    extends d.LiesIn p dir n where
  short : isTooLong n = false
  clean : hasNull p = false

namespace Sits

variable {d d' : Disk} {p : Path} {dir : List Text} {n : Text}

theorem names (h : d.Sits p dir n) : p.names = p.parent.names ++ [n] :=
  (List.dropLast_append_getLast? n h.name).symm

/-- A look-up goes to the directory, and there to the name. -/
theorem seek (h : d.Sits p dir n) :
    ∃ links, ∀ through, d.seek through p = lookUp d.top through links dir [n] := by
  have hparent := h.parent
  rw [Disk.find, Disk.seek] at hparent
  split at hparent
  · cases hparent
  · obtain ⟨links, hlinks⟩ := lookUp_append hparent
    refine ⟨links, fun through => ?_⟩
    rw [Disk.seek, if_neg (by simp [h.clean]), h.names]
    exact hlinks through n []

/-- What is at the path itself is what is at its place. -/
theorem findLink (h : d.Sits p dir n) :
    d.findLink p = .ofBare (dir ++ [n]) (Listing.bareAt? (dir ++ [n]) d.top) := by
  obtain ⟨links, hlinks⟩ := h.seek
  rw [Disk.findLink, hlinks, lookUp_cons h.ordinary h.short]
  cases Listing.bareAt? (dir ++ [n]) d.top with
  | none => rfl
  | some e =>
      cases e with
      | dir l =>
          dsimp only
          rw [Disk.lookUp, Found.ofBare]
      | _ => rfl

theorem placeOf (h : d.Sits p dir n) : d.placeOf p = dir ++ [n] := by
  rw [Disk.placeOf, h.findLink, Found.place?_ofBare, Option.getD_some]

theorem isPlaceOf (h : d.Sits p dir n) {paths : List Path} (hp : p ∈ paths) :
    d.IsPlaceOf paths (dir ++ [n]) := by
  refine ⟨p, hp, ?_⟩
  rw [h.findLink, Found.place?_ofBare]

/-- Unless it is a link, it is also what the path leads to. -/
theorem find (h : d.Sits p dir n) (hlink : ∀ target, Listing.bareAt? (dir ++ [n]) d.top
      ≠ some (.link target)) :
    d.find p = .ofBare (dir ++ [n]) (Listing.bareAt? (dir ++ [n]) d.top) := by
  obtain ⟨links, hlinks⟩ := h.seek
  rw [Disk.find, hlinks, lookUp_cons h.ordinary h.short]
  cases hbare : Listing.bareAt? (dir ++ [n]) d.top with
  | none => rfl
  | some e =>
      cases e with
      | dir l =>
          dsimp only
          rw [Disk.lookUp, Found.ofBare]
      | file bytes mode => rfl
      | shut => rfl
      | link target => exact absurd hbare (hlink target)

/-- A path that leads to a file is at a leaf. -/
theorem isLeaf (h : d.Sits p dir n) {at' : List Text} {bytes : Bytes} {mode : Nat}
    (hfile : d.find p = .file at' bytes mode) : IsLeaf d.top (dir ++ [n]) := by
  obtain ⟨links, hlinks⟩ := h.seek
  rw [Disk.find, hlinks, lookUp_cons h.ordinary h.short] at hfile
  split at hfile
  · cases hfile
  · rw [Disk.lookUp] at hfile
    cases hfile
  · cases hfile
  · next bytes' mode' hbare => exact .inl ⟨bytes', mode', hbare⟩
  · next target hbare =>
    rw [if_neg (by simp)] at hfile
    split at hfile
    · cases hfile
    · next k =>
      rw [List.append_nil] at hfile
      refine .inr ⟨target, k, at', bytes, mode, hbare, ?_⟩
      rw [List.dropLast_concat]
      exact hfile

/-- The path keeps its place as long as only leaves are changed. -/
theorem of_agree (h : d.Sits p dir n) (hhere : d'.here = d.here)
    (hagree : ∀ q, Listing.bareAt? q d'.top = Listing.bareAt? q d.top ∨ IsLeaf d.top q) :
    d'.Sits p dir n where
  parent := by
    have hstart : d'.start p.parent = d.start p.parent := by rw [start, start, hhere]
    have hparent := h.parent
    rw [Disk.find, Disk.seek] at hparent ⊢
    split at hparent
    · cases hparent
    · next hnull =>
      rw [if_neg hnull, hstart]
      exact lookUp_of_agree hagree hparent
  isDir := by
    rcases hagree dir with hsame | ⟨bytes, mode, hfile⟩ | ⟨target, _, _, _, _, hlink, _⟩
    · rw [hsame, h.isDir]
    · exact absurd (hfile.symm.trans h.isDir) (by simp)
    · exact absurd (hlink.symm.trans h.isDir) (by simp)
  name := h.name
  ordinary := h.ordinary
  short := h.short
  clean := h.clean

end Sits

end Disk

end Unflag
