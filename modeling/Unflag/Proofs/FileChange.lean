/-
What writing and removing do to a disk.

A file is replaced by way of a temporary file beside it, so a replacement makes an entry, renames
it and, had the temporary name been in use, would have destroyed another file. It is never in use:
the candidates are distinct, for their numbers can be read back from them, and there is one more of
them than entries (`lookup_freshName`). A replacement that nothing disturbs therefore changes one
entry of its directory, and so does a removal. On the disk that is a change at one place
(`Sits.replaceText`, `Sits.remove`), which is all that the rest of the library needs to know of
either.
-/
import Mathlib.Data.List.Nodup
import Mathlib.Data.List.Perm.Subperm
import Unflag.Disk.TextFile
import Unflag.Proofs.Numeral
import Unflag.Proofs.Places

set_option autoImplicit false

namespace Unflag

/-! ## Temporary names -/

namespace Text

/-- A number is read back from its hexadecimal digits. -/
theorem positional?_hex (width n : Nat) : positional? 16 (hex width n) = some n := by
  have hzeros : ∀ k, numeral 16 (List.replicate k '0' ++ Nat.toDigits 16 n) = n := by
    intro k
    induction k with
    | zero => exact (numeral_toDigits (by decide) (by decide) n).2
    | succ k ih =>
        rw [List.replicate_succ, List.cons_append, numeral_cons, ih]
        simp [digitOf_eq_zero_iff]
  have hdigits : ∀ c ∈ hex width n, digitOf c < 16 := by
    refine List.forall_mem_append.mpr ⟨fun c hc => ?_, ?_⟩
    · rw [List.eq_of_mem_replicate hc]
      decide
    · exact (numeral_toDigits (by decide) (by decide) n).1
  have hne : hex width n ≠ [] := by simp [hex]
  rw [positional?_eq (by decide) hne hdigits, hex, hzeros]

end Text

/-! ## Listings with a file more -/

namespace Listing

theorem put_put (n : Text) (a b : Entry) (l : Listing) : put n b (put n a l) = put n b l := by
  induction l with
  | nil => simp [put]
  | cons x r ih =>
      rw [put, put]
      split
      · rw [put, if_pos rfl]
      · next hx => rw [put, if_neg hx, ih]

/-- An entry that is erased need not have been put there. -/
theorem erase_put (n : Text) (e : Entry) (l : Listing) : erase n (put n e l) = erase n l := by
  induction l with
  | nil => simp [put, erase]
  | cons x r ih =>
      rw [put]
      split
      · next hx => simp [erase, hx]
      · next hx =>
        have hkeep : ∀ t : Listing, erase n (x :: t) = x :: erase n t := by
          intro t
          exact List.filter_cons_of_pos (by simpa using hx)
        rw [hkeep, hkeep, ih]

theorem erase_of_lookup_none {n : Text} {l : Listing} (h : l.lookup n = none) : erase n l = l := by
  rw [erase, List.filter_eq_self]
  intro x hx
  have hne := List.lookup_eq_none_iff.mp h x hx
  rw [bne_iff_ne]
  exact Ne.symm (by simpa using hne)

end Listing

namespace Replacement

theorem temporaryName_injective (name : Text) {m n : Nat}
    (h : temporaryName name m = temporaryName name n) : m = n := by
  have hhex : Text.hex 8 m = Text.hex 8 n := by
    simp only [temporaryName, List.append_assoc] at h
    exact List.append_cancel_right
      (List.append_cancel_left (List.append_cancel_left (List.append_cancel_left h)))
  have hm := Text.positional?_hex 8 m
  rw [hhex, Text.positional?_hex] at hm
  exact (Option.some.inj hm).symm

theorem temporaryName_ne (name : Text) (n : Nat) : temporaryName name n ≠ name := by
  intro h
  have hlength := congrArg List.length h
  simp only [temporaryName, List.length_append, List.length_cons, List.length_nil] at hlength
  omega

/-- A search that ends at a name in use has seen none that is not. -/
theorem lookup_unusedName {l : Listing} {name : Text} {k n : Nat}
    (h : (l.lookup (unusedName l name k n)).isSome) :
    ∀ i, n ≤ i → i ≤ n + k → (l.lookup (temporaryName name i)).isSome := by
  induction k generalizing n with
  | zero =>
      intro i hn hi
      obtain rfl : n = i := by omega
      exact h
  | succ k ih =>
      rw [unusedName] at h
      split at h
      · next hused =>
        intro i hn hi
        by_cases hin : n = i
        · exact hin ▸ hused
        · exact ih h i (by omega) (by omega)
      · next hunused => exact absurd h hunused

/-- **The name of a temporary file is not in use.** -/
theorem lookup_freshName (l : Listing) (name : Text) : l.lookup (freshName l name) = none := by
  by_contra hne
  have hall := lookup_unusedName (Option.isSome_iff_ne_none.mpr hne)
  -- as many candidates as entries and one more would all be names of entries
  have hnodup : ((List.range (l.length + 1)).map (temporaryName name)).Nodup :=
    List.nodup_range.map fun m n => temporaryName_injective name
  have hsub : (List.range (l.length + 1)).map (temporaryName name) ⊆ l.map Prod.fst := by
    intro k hk
    obtain ⟨i, hi, rfl⟩ := List.mem_map.mp hk
    rw [List.mem_range] at hi
    obtain ⟨x, hx, hk⟩ := List.lookup_isSome_iff.mp (hall i (by omega) (by omega))
    rw [eq_of_beq hk]
    exact List.mem_map_of_mem hx
  have hlength := (List.subperm_of_subset hnodup hsub).length_le
  rw [List.length_map, List.length_map, List.length_range] at hlength
  omega

theorem exists_freshName (l : Listing) (name : Text) :
    ∃ n, freshName l name = temporaryName name n := by
  have hunused : ∀ k n, ∃ m, unusedName l name k n = temporaryName name m := by
    intro k
    induction k with
    | zero => exact fun n => ⟨n, rfl⟩
    | succ k ih =>
        intro n
        rw [unusedName]
        split
        · exact ih (n + 1)
        · exact ⟨n, rfl⟩
  exact hunused l.length 0

/-! ## Replacing an entry -/

/-- Moving the temporary file puts it in place of the target. -/
theorem rename_put {temp : Text} {l : Listing} (hfree : l.lookup temp = none) (e : Entry)
    (name : Text) :
    rename (l.put temp e) temp name = l.put name e := by
  rw [rename, Listing.lookup_put, if_pos rfl]
  dsimp only
  rw [Listing.erase_put, Listing.erase_of_lookup_none hfree]

/-- Nothing keeps a replacement from being carried out: no step is struck from outside, a temporary
file can be made, the text has bytes, and a file can be moved to the target. -/
structure Unhindered (h : Hazard) (o : Order) : Prop where
  calm : ∀ step, h.strikes step = none
  made : o.unmade = none
  content : ∃ bytes, o.content = .ok bytes
  free : o.blocked = none

/-- What a replacement that nothing disturbs makes of its directory. -/
theorem run_of_unhindered {h : Hazard} {o : Order} (hh : Unhindered h o) {bytes : Bytes}
    (hcontent : o.content = .ok bytes) (l : Listing) :
    run h o l = (l.put o.name (.file bytes (finalMode o)), none) := by
  simp only [run, finish, hh.calm, hh.made, hcontent, hh.free, Option.or_none, Listing.put_put,
    rename_put (lookup_freshName l o.name)]

/-- **An undisturbed replacement changes one entry**: the temporary file is gone, and every other
entry is what it was. -/
theorem run_none (o : Order) (l : Listing) {bytes : Bytes} (hmade : o.unmade = none)
    (hcontent : o.content = .ok bytes) (hblocked : o.blocked = none) :
    ∃ l', run .none o l = (l', none)
      ∧ ∀ k, l'.lookup k = if k = o.name then some (.file bytes (finalMode o)) else l.lookup k :=
  ⟨_, run_of_unhindered ⟨fun _ => rfl, hmade, ⟨bytes, hcontent⟩, hblocked⟩ hcontent l,
    Listing.lookup_put _ _ l⟩

/-- A replacement without a temporary file, or whose text cannot be written as bytes, fails for that
reason. -/
theorem run_none_error (o : Order) (l : Listing) {f : Fault}
    (h : o.unmade = some f ∨ (o.unmade = none ∧ o.content = .error f)) :
    (run .none o l).2 = some f := by
  rcases h with hmade | ⟨hmade, hcontent⟩
  · simp [run, Hazard.none, hmade]
  · simp [run, finish, Hazard.none, hmade, hcontent]

end Replacement

/-! ## Changes at one place -/

namespace Disk

/-- The bytes that a replacement puts at a path, or the fault that keeps it from doing so. -/
def writtenBytes (codecs : Codecs) (encoding : Text) (p : Path) (text : Text) :
    Except Fault Bytes :=
  match unmadeTemporary p with
  | some f => .error f
  | none => encodeText codecs encoding text

/-- The disk with this at a place, and everything else as it was. -/
structure IsSetAt (d' d : Disk) (place : List Text) (e : Option Entry) : Prop where
  here : d'.here = d.here
  bareAt? : ∀ q, Listing.bareAt? q d'.top = if q = place then e else Listing.bareAt? q d.top

namespace LiesIn

variable {d : Disk} {p : Path} {dir : List Text} {n : Text}

theorem lookup (h : d.LiesIn p dir n) :
    ∃ sub, Listing.dirAt? dir d.top = some sub
      ∧ (sub.lookup n).map Entry.bare = Listing.bareAt? (dir ++ [n]) d.top := by
  obtain ⟨sub, hsub⟩ := Listing.dirAt?_of_bareAt? h.isDir
  refine ⟨sub, hsub, ?_⟩
  rw [Listing.bareAt?_eq_map, hsub, Option.bind_some]

/-- A change of one entry of its directory, other than a directory. -/
theorem changeAt (h : d.LiesIn p dir n)
    (hfile : ∀ e, Listing.bareAt? (dir ++ [n]) d.top = some e → e.isDirectory = false)
    {f : Listing → Listing} {e : Option Entry} (hnew : ∀ l, e ≠ some (.dir l))
    (hf : ∀ sub, Listing.dirAt? dir d.top = some sub →
      ∀ k, (f sub).lookup k = if k = n then e else sub.lookup k) :
    (d.changeAt dir f).IsSetAt d (dir ++ [n]) e := by
  obtain ⟨sub, hsub, hlookup⟩ := h.lookup
  refine ⟨rfl, ?_⟩
  refine Listing.bareAt?_change hsub hnew ?_ (hf sub hsub)
  intro l hl
  rw [hl] at hlookup
  exact absurd (hfile _ hlookup.symm) (by simp [Entry.bare, Entry.isDirectory])

end LiesIn

namespace Sits

variable {codecs : Codecs} {d : Disk} {p : Path} {dir : List Text} {n : Text}

/-- **Replacing a text** is a change at the path's place. It fails only if there can be no temporary
file, or the text cannot be written as bytes. -/
theorem replaceText (h : d.Sits p dir n)
    (hfile : ∀ e, Listing.bareAt? (dir ++ [n]) d.top = some e → e.isDirectory = false)
    (encoding text : Text) :
    match writtenBytes codecs encoding p text with
    | .error f => replaceText codecs .none encoding d p text = .error f
    | .ok bytes => ∃ d', replaceText codecs .none encoding d p text = .ok d'
        ∧ d'.IsSetAt d (dir ++ [n])
          (some (.file bytes ((d.mode? p).getD Replacement.temporaryMode))) := by
  obtain ⟨sub, hsub, hlookup⟩ := h.lookup
  let o := orderOf codecs encoding d p text sub
  have hname : o.name = n := by
    show (p.name?).getD [] = n
    rw [h.name, Option.getD_some]
  have hblocked : o.blocked = none := by
    show blockedMove sub p = none
    rw [blockedMove, h.name]
    dsimp only
    rw [if_neg h.ordinary.2, if_neg]
    rintro hany
    cases he : sub.lookup n with
    | none => simp [he] at hany
    | some e =>
        rw [he, Option.map_some] at hlookup
        have hbare := hfile _ hlookup.symm
        rw [Entry.isDirectory_bare] at hbare
        simp [he, hbare] at hany
  rw [Disk.replaceText, h.parent]
  dsimp only
  rw [hsub, Option.getD_some]
  cases hbytes : writtenBytes codecs encoding p text with
  | error f =>
      have hfault : o.unmade = some f ∨ (o.unmade = none ∧ o.content = .error f) := by
        rw [writtenBytes] at hbytes
        split at hbytes
        · next g hmade => exact .inl (hmade.trans (congrArg some (Except.error.inj hbytes)))
        · next hmade => exact .inr ⟨hmade, hbytes⟩
      have herror := Replacement.run_none_error o sub hfault
      dsimp only
      split
      · next l' hrun => exact absurd (herror.symm.trans (congrArg Prod.snd hrun)) (by simp)
      · next l' g hrun =>
        rw [Option.some.inj (herror.symm.trans (congrArg Prod.snd hrun))]
  | ok bytes =>
      obtain ⟨hmade, hcontent⟩ : o.unmade = none ∧ o.content = .ok bytes := by
        rw [writtenBytes] at hbytes
        split at hbytes
        · cases hbytes
        · next hmade => exact ⟨hmade, hbytes⟩
      obtain ⟨l', hrun, hl'⟩ := Replacement.run_none o sub hmade hcontent hblocked
      dsimp only
      rw [hrun]
      refine ⟨_, rfl, h.changeAt hfile (by simp) ?_⟩
      intro sub' hsub'
      obtain rfl : sub = sub' := Option.some.inj (hsub.symm.trans hsub')
      rw [hname] at hl'
      exact hl'

/-- **Removing** is a change at the path's place. It fails only if nothing is there. -/
theorem remove (h : d.Sits p dir n)
    (hfile : ∀ e, Listing.bareAt? (dir ++ [n]) d.top = some e → e.isDirectory = false) :
    match Listing.bareAt? (dir ++ [n]) d.top with
    | none => d.remove p = .error (Refused.fault .noEntry p)
    | some _ => ∃ d', d.remove p = .ok d' ∧ d'.IsSetAt d (dir ++ [n]) none := by
  have herase : (d.changeAt dir (Listing.erase n)).IsSetAt d (dir ++ [n]) none :=
    h.changeAt hfile (by simp) fun sub _ => Listing.lookup_erase n sub
  rw [Disk.remove, h.findLink]
  split
  · next hbare => rw [hbare, Found.ofBare]
  · next e hbare =>
    rw [hbare]
    refine ⟨_, ?_, herase⟩
    cases e with
    | dir l | shut => exact absurd (hfile _ hbare) (by simp [Entry.isDirectory])
    | file bytes mode => simp [Found.ofBare]
    | link target => simp [Found.ofBare]

end Sits

/-! ## Many changes -/

/-- The disk `d'` has come from `d` by changes at some places: what is there now was there before,
is a file, or is nothing. -/
structure ChangedAt (d : Disk) (places : List Text → Prop) (d' : Disk) : Prop where
  here : d'.here = d.here
  others : ∀ q, ¬ places q → Listing.bareAt? q d'.top = Listing.bareAt? q d.top
  held : ∀ q, Listing.bareAt? q d'.top = Listing.bareAt? q d.top
    ∨ Listing.bareAt? q d'.top = none
    ∨ ∃ bytes mode, Listing.bareAt? q d'.top = some (.file bytes mode)

namespace ChangedAt

variable {d d' d'' : Disk} {places : List Text → Prop} {p : Path} {dir : List Text} {n : Text}

theorem refl (d : Disk) (places : List Text → Prop) : d.ChangedAt places d :=
  ⟨rfl, fun _ _ => rfl, fun _ => .inl rfl⟩

/-- One more change. -/
theorem set (h : d.ChangedAt places d') {place : List Text} (hplace : places place)
    {e : Option Entry} (he : e = none ∨ ∃ bytes mode, e = some (.file bytes mode))
    (hset : d''.IsSetAt d' place e) : d.ChangedAt places d'' where
  here := hset.here.trans h.here
  others q hq := by
    rw [hset.bareAt?, if_neg ?_, h.others q hq]
    rintro rfl
    exact hq hplace
  held q := by
    rw [hset.bareAt?]
    by_cases hq : q = place
    · rw [if_pos hq]
      exact .inr he
    · rw [if_neg hq]
      exact h.held q

section Leaves

variable (hleaves : ∀ q, places q → IsLeaf d.top q)

include hleaves

/-- A path keeps its place, -/
theorem sits (h : d.ChangedAt places d') (hsits : d.Sits p dir n) : d'.Sits p dir n := by
  refine hsits.of_agree h.here ?_
  intro q
  by_cases hq : places q
  · exact .inr (hleaves q hq)
  · exact .inl (h.others q hq)

/-- and no directory comes to be at a place that is changed. -/
theorem not_directory (h : d.ChangedAt places d') {q : List Text} (hq : places q) (e : Entry)
    (he : Listing.bareAt? q d'.top = some e) : e.isDirectory = false := by
  rcases h.held q with hsame | hnone | ⟨bytes, mode, hfile⟩
  · rw [hsame] at he
    rcases hleaves q hq with ⟨bytes, mode, hfile⟩ | ⟨target, _, _, _, _, hlink, _⟩
    · cases hfile.symm.trans he
      rfl
    · cases hlink.symm.trans he
      rfl
  · cases hnone.symm.trans he
  · cases hfile.symm.trans he
    rfl

end Leaves

end ChangedAt

end Disk

end Unflag
