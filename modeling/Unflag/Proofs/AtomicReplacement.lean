/-
A file is replaced at once, or not at all.

A replacement has effects on its directory one after the other: the temporary file is made, the
content is written part by part, the permission bits are set, and the temporary file is moved into
place. It may be cut off behind any of them. All effects but the last one touch nothing but the
temporary file, so removing that file gives back the directory as it was (`erase_apply`), and this
is what the clean-up does at every cut in front of the move (`cutOff_of_lt`). Behind the move the
temporary name is free again, and what is left is the directory with the new file (`cutOff_all`).

The replacement of the library knows only of the four steps that may fail, and of how much of the
writing has been done when it is struck. Before it cleans up, it has had some of these effects
(`finish_eq_foldl`), so it is these effects cut off where its first failure strikes
(`run_eq_cutOff`), which settles what it leaves behind: for every disk, path, text and hazard the
new file complete, or the old directory (`replaced_or_untouched`).
-/
import Mathlib
import Unflag.Proofs.FileChange

set_option autoImplicit false

namespace Unflag

namespace Replacement

/-! ## Effects -/

/-- What a replacement does to its directory. -/
inductive Effect where
  /-- The temporary file is made. -/
  | create
  /-- A part of the content is written behind what is there. -/
  | append (part : Bytes)
  /-- The permission bits of the temporary file are set. -/
  | setMode (mode : Nat)
  /-- The temporary file is moved into place. -/
  | move
  deriving DecidableEq

/-- The listing with something done to the file of this name, if there is one. -/
def changeFile (n : Text) (f : Bytes → Nat → Entry) (l : Listing) : Listing :=
  match l.lookup n with
  | some (.file bytes mode) => l.put n (f bytes mode)
  | _ => l

/-- The directory after an effect. -/
def Effect.apply (temp name : Text) (l : Listing) : Effect → Listing
  | .create => l.put temp (.file [] temporaryMode)
  | .append part => changeFile temp (fun bytes mode => .file (bytes ++ part) mode) l
  | .setMode mode => changeFile temp (fun bytes _ => .file bytes mode) l
  | .move => rename l temp name

/-- The effects in front of the move, of a replacement that writes its content in these parts. -/
def preparation (o : Order) (parts : List Bytes) : List Effect :=
  .create :: (parts.map .append ++ o.mode.toList.map .setMode)

/-- All effects of a replacement that writes its content in these parts. -/
def effects (o : Order) (parts : List Bytes) : List Effect := preparation o parts ++ [.move]

/-- The directory that is left of `l` when a replacement is cut off behind its first `k` effects
and has cleaned up. -/
def cutOff (o : Order) (temp : Text) (parts : List Bytes) (k : Nat) (l : Listing) : Listing :=
  cleanUp temp (((effects o parts).take k).foldl (Effect.apply temp o.name) l)

variable {o : Order} {temp : Text} {parts : List Bytes} {l : Listing}

theorem cleanUp_eq (temp : Text) (l : Listing) : cleanUp temp l = l.erase temp := by
  rw [cleanUp]
  split
  · rfl
  · next hnone => exact (Listing.erase_of_lookup_none (Option.not_isSome_iff_eq_none.mp hnone)).symm

theorem changeFile_put (n : Text) (f : Bytes → Nat → Entry) (bytes : Bytes) (mode : Nat)
    (l : Listing) :
    changeFile n f (l.put n (.file bytes mode)) = l.put n (f bytes mode) := by
  rw [changeFile, Listing.lookup_put, if_pos rfl]
  exact Listing.put_put n _ _ l

theorem erase_changeFile (n : Text) (f : Bytes → Nat → Entry) (l : Listing) :
    (changeFile n f l).erase n = l.erase n := by
  rw [changeFile]
  split
  · exact Listing.erase_put n _ l
  · rfl

/-- **One effect** in front of the move touches nothing but the temporary file. -/
theorem erase_apply (temp name : Text) (l : Listing) {e : Effect} (h : e ≠ .move) :
    (e.apply temp name l).erase temp = l.erase temp := by
  cases e with
  | create => exact Listing.erase_put temp _ l
  | append part => exact erase_changeFile temp _ l
  | setMode mode => exact erase_changeFile temp _ l
  | move => exact absurd rfl h

theorem erase_foldl (temp name : Text) (l : Listing) {es : List Effect} (h : .move ∉ es) :
    (es.foldl (Effect.apply temp name) l).erase temp = l.erase temp := by
  induction es generalizing l with
  | nil => rfl
  | cons e es ih =>
      rw [List.mem_cons, not_or] at h
      rw [List.foldl_cons, ih _ h.2, erase_apply temp name l (Ne.symm h.1)]

theorem move_notMem_preparation (o : Order) (parts : List Bytes) :
    Effect.move ∉ preparation o parts := by
  simp [preparation]

theorem length_effects (o : Order) (parts : List Bytes) :
    (effects o parts).length = (preparation o parts).length + 1 := by
  rw [effects, List.length_append, List.length_singleton]

/-- **A cut in front of the move** leaves the directory as it was. -/
theorem cutOff_of_lt (hfree : l.lookup temp = none) {k : Nat} (hk : k < (effects o parts).length) :
    cutOff o temp parts k l = l := by
  rw [length_effects] at hk
  have htake : (effects o parts).take k = (preparation o parts).take k :=
    List.take_append_of_le_length (by omega)
  have hmove : Effect.move ∉ (preparation o parts).take k := fun h =>
    move_notMem_preparation o parts (List.mem_of_mem_take h)
  rw [cutOff, htake, cleanUp_eq, erase_foldl temp o.name l hmove,
    Listing.erase_of_lookup_none hfree]

/-- The parts come behind what has been written. -/
theorem foldl_parts (temp name : Text) (parts : List Bytes) (bytes : Bytes) (l : Listing) :
    (parts.map Effect.append).foldl (Effect.apply temp name)
        (l.put temp (.file bytes temporaryMode))
      = l.put temp (.file (bytes ++ parts.flatten) temporaryMode) := by
  induction parts generalizing bytes with
  | nil => simp
  | cons part parts ih =>
      rw [List.map_cons, List.foldl_cons, Effect.apply, changeFile_put, ih, List.flatten_cons,
        List.append_assoc]

/-- The temporary file with some of the parts in it. -/
theorem foldl_take_effects (o : Order) (temp : Text) (l : Listing) {k : Nat}
    (hk : k ≤ parts.length) :
    ((effects o parts).take (k + 1)).foldl (Effect.apply temp o.name) l
      = l.put temp (.file (parts.take k).flatten temporaryMode) := by
  have htake : (effects o parts).take (k + 1) = .create :: (parts.take k).map .append := by
    rw [effects, preparation, List.cons_append, List.take_succ_cons, List.append_assoc,
      List.take_append_of_le_length (by simpa using hk), List.map_take]
  rw [htake, List.foldl_cons, Effect.apply, foldl_parts, List.nil_append]

/-- The temporary file that is ready to be moved. -/
theorem foldl_preparation (o : Order) (temp : Text) (parts : List Bytes) (l : Listing) :
    (preparation o parts).foldl (Effect.apply temp o.name) l
      = l.put temp (.file parts.flatten (finalMode o)) := by
  rw [preparation, List.foldl_cons, List.foldl_append, Effect.apply, foldl_parts, List.nil_append,
    finalMode]
  cases o.mode with
  | none => rfl
  | some mode => exact changeFile_put temp _ parts.flatten temporaryMode l

/-- **Behind the move** nothing is left to be cleaned up, and the new file is complete. -/
theorem cutOff_all (hfree : l.lookup temp = none) (hname : temp ≠ o.name) (parts : List Bytes) :
    cutOff o temp parts (effects o parts).length l
      = l.put o.name (.file parts.flatten (finalMode o)) := by
  have hmoved : (effects o parts).foldl (Effect.apply temp o.name) l
      = l.put o.name (.file parts.flatten (finalMode o)) := by
    rw [effects, List.foldl_append, foldl_preparation]
    exact rename_put hfree _ o.name
  rw [cutOff, List.take_length, hmoved, cleanUp_eq, Listing.erase_of_lookup_none]
  rw [Listing.lookup_put, if_neg hname, hfree]

/-! ## The replacement of the library -/

variable {h : Hazard}

/-- The steps behind the first one fail if something hinders them, and then they have touched
nothing but the temporary file. -/
theorem finish_of_hindered (hcreate : h.strikes .create = none) (hmade : o.unmade = none)
    (hh : ¬ Unhindered h o) (temp : Text) (l : Listing) :
    ∃ l' f, finish h o temp l = (l', some f) ∧ l'.erase temp = l.erase temp := by
  unfold finish
  cases hcontent : o.content with
  | error own => exact ⟨l, _, rfl, rfl⟩
  | ok bytes =>
      cases hfill : h.strikes .fill with
      | some f => exact ⟨_, f, rfl, Listing.erase_put temp _ l⟩
      | none =>
          cases hmode : h.strikes .copyMode with
          | some f =>
              refine ⟨_, f, rfl, ?_⟩
              split <;> simp only [Listing.erase_put]
          | none =>
              cases hmove : (h.strikes .move).or o.blocked with
              | some f => exact ⟨_, f, rfl, by simp only [Listing.erase_put]⟩
              | none =>
                  obtain ⟨hcalm, hfree⟩ := Option.or_eq_none_iff.mp hmove
                  refine absurd ⟨fun step => ?_, hmade, ⟨bytes, hcontent⟩, hfree⟩ hh
                  cases step <;> assumption

theorem run_of_hindered (hh : ¬ Unhindered h o) (l : Listing) : ∃ f, run h o l = (l, some f) := by
  unfold run
  cases hstart : (h.strikes .create).or o.unmade with
  | some f => exact ⟨f, rfl⟩
  | none =>
      obtain ⟨hcreate, hmade⟩ := Option.or_eq_none_iff.mp hstart
      have hfresh := lookup_freshName l o.name
      obtain ⟨l', f, hfinish, herase⟩ := finish_of_hindered hcreate hmade hh (freshName l o.name)
        (l.put (freshName l o.name) (.file [] temporaryMode))
      refine ⟨f, ?_⟩
      dsimp only
      rw [hfinish]
      dsimp only
      rw [cleanUp_eq, herase, Listing.erase_put, Listing.erase_of_lookup_none hfresh]

theorem run_snd_eq_none_iff (h : Hazard) (o : Order) (l : Listing) :
    (run h o l).2 = none ↔ Unhindered h o := by
  constructor
  · intro hnone
    by_contra hh
    obtain ⟨f, hrun⟩ := run_of_hindered hh l
    rw [hrun] at hnone
    cases hnone
  · intro hh
    obtain ⟨bytes, hcontent⟩ := hh.content
    rw [run_of_unhindered hh hcontent l]

/-- How many of these parts, from the first on, have been written with so many bytes. -/
def writtenParts : Nat → List Bytes → Nat
  | _, [] => 0
  | n, part :: parts =>
    if part.length ≤ n then writtenParts (n - part.length) parts + 1 else 0

theorem writtenParts_le (n : Nat) (parts : List Bytes) : writtenParts n parts ≤ parts.length := by
  induction parts generalizing n with
  | nil => exact Nat.le_refl 0
  | cons part parts ih =>
      rw [writtenParts, List.length_cons]
      split
      · exact Nat.succ_le_succ (ih _)
      · exact Nat.zero_le _

/-- How many effects a replacement has had when it ends. -/
def completed (h : Hazard) (o : Order) (parts : List Bytes) : Nat :=
  if (h.strikes .create).isSome || o.unmade.isSome then 0
  else if !o.content.isOk then 1
  else if (h.strikes .fill).isSome then writtenParts h.written parts + 1
  else if (h.strikes .copyMode).isSome then
    if h.modeTaken then (preparation o parts).length else parts.length + 1
  else if (h.strikes .move).isSome || o.blocked.isSome then (preparation o parts).length
  else (effects o parts).length

theorem completed_of_unhindered (hh : Unhindered h o) (parts : List Bytes) :
    completed h o parts = (effects o parts).length := by
  obtain ⟨bytes, hcontent⟩ := hh.content
  simp [completed, hh.calm, hh.made, hh.free, hcontent, Except.isOk, Except.toBool]

theorem completed_of_hindered (hh : ¬ Unhindered h o) (parts : List Bytes) :
    completed h o parts < (effects o parts).length := by
  have hlength : parts.length + 1 ≤ (preparation o parts).length := by
    simp [preparation]
  have hwritten := writtenParts_le h.written parts
  rw [length_effects]
  unfold completed
  split
  · omega
  split
  · omega
  split
  · omega
  split
  · split <;> omega
  split
  · omega
  · next hcreate hcontent hfill hmode hmove =>
    rw [Bool.or_eq_true, not_or] at hcreate hmove
    refine absurd ⟨fun step => ?_, Option.not_isSome_iff_eq_none.mp hcreate.2, ?_,
      Option.not_isSome_iff_eq_none.mp hmove.2⟩ hh
    · cases step with
      | create => exact Option.not_isSome_iff_eq_none.mp hcreate.1
      | fill => exact Option.not_isSome_iff_eq_none.mp hfill
      | copyMode => exact Option.not_isSome_iff_eq_none.mp hmode
      | move => exact Option.not_isSome_iff_eq_none.mp hmove.1
    · cases hbytes : o.content with
      | ok bytes => exact ⟨bytes, rfl⟩
      | error f => exact absurd hcontent (by simp [hbytes, Except.isOk, Except.toBool])

/-- The content in two parts, cut where the writing is struck. -/
def cutParts (h : Hazard) (bytes : Bytes) : List Bytes :=
  [bytes.take h.written, bytes.drop h.written]

theorem flatten_cutParts (h : Hazard) (bytes : Bytes) : (cutParts h bytes).flatten = bytes := by
  simp [cutParts]

/-- What has been written of the content when the writing is struck. -/
theorem flatten_take_writtenParts (h : Hazard) (bytes : Bytes) :
    ((cutParts h bytes).take (writtenParts h.written (cutParts h bytes))).flatten
      = bytes.take h.written := by
  rw [cutParts, writtenParts, if_pos (by simp), writtenParts]
  split
  · next hfits =>
    have hdrop : bytes.drop h.written = [] := by
      rw [← List.length_eq_zero_iff]
      simp only [List.length_take, List.length_drop] at hfits ⊢
      omega
    simp [hdrop, writtenParts]
  · simp

/-- **What a replacement has done before it cleans up** are its effects up to the one that is
struck. -/
theorem finish_eq_foldl (hcreate : h.strikes .create = none) (hmade : o.unmade = none)
    (hparts : ∀ bytes, o.content = .ok bytes → parts = cutParts h bytes) (temp : Text)
    (l : Listing) :
    (finish h o temp (l.put temp (.file [] temporaryMode))).1
      = ((effects o parts).take (completed h o parts)).foldl (Effect.apply temp o.name) l := by
  have hready : ((effects o parts).take (preparation o parts).length).foldl
      (Effect.apply temp o.name) l = l.put temp (.file parts.flatten (finalMode o)) := by
    rw [effects, List.take_left, foldl_preparation]
  cases hcontent : o.content with
  | error own =>
      have hone : completed h o parts = 0 + 1 := by
        simp [completed, hcreate, hmade, hcontent, Except.isOk, Except.toBool]
      rw [hone, foldl_take_effects o temp l (Nat.zero_le _), finish, hcontent]
      rfl
  | ok bytes =>
      have hbytes : parts.flatten = bytes := hparts bytes hcontent ▸ flatten_cutParts h bytes
      rw [hbytes] at hready
      simp only [finish, completed, hcreate, hmade, hcontent, Except.isOk, Except.toBool,
        Option.isSome_none, Bool.or_self, Bool.not_true, Bool.false_eq_true, if_false]
      cases hfill : h.strikes .fill with
      | some f =>
          rw [if_pos Option.isSome_some, foldl_take_effects o temp l (writtenParts_le _ parts),
            hparts bytes hcontent, flatten_take_writtenParts]
          exact Listing.put_put temp _ _ l
      | none =>
          rw [if_neg (by simp)]
          cases hmode : h.strikes .copyMode with
          | some f =>
              dsimp only
              rw [if_pos Option.isSome_some]
              split
              · rw [hready]
                simp only [Listing.put_put]
              · rw [foldl_take_effects o temp l (Nat.le_refl _), List.take_length, hbytes]
                exact Listing.put_put temp _ _ l
          | none =>
              rw [if_neg (by simp), ← Option.isSome_or]
              dsimp only
              cases hmove : (h.strikes .move).or o.blocked with
              | some f =>
                  rw [if_pos Option.isSome_some, hready]
                  simp only [Listing.put_put]
              | none =>
                  rw [if_neg (by simp), List.take_length, effects, List.foldl_append,
                    foldl_preparation, hbytes, List.foldl_cons, List.foldl_nil, Effect.apply]
                  simp only [Listing.put_put]

/-- **A replacement is its effects, cut off** where its first failure strikes and cleaned up. -/
theorem run_eq_cutOff (h : Hazard) (o : Order) (l : Listing) {parts : List Bytes}
    (hparts : ∀ bytes, o.content = .ok bytes → parts.flatten = bytes) :
    (run h o l).1 = cutOff o (freshName l o.name) parts (completed h o parts) l := by
  have hfresh := lookup_freshName l o.name
  obtain ⟨n, hname⟩ := exists_freshName l o.name
  by_cases hh : Unhindered h o
  · obtain ⟨bytes, hcontent⟩ := hh.content
    rw [run_of_unhindered hh hcontent, completed_of_unhindered hh,
      cutOff_all hfresh (hname ▸ temporaryName_ne o.name n), hparts bytes hcontent]
  · obtain ⟨f, hf⟩ := run_of_hindered hh l
    rw [hf, cutOff_of_lt hfresh (completed_of_hindered hh parts)]

end Replacement

/-! ## Disks -/

namespace Disk

open Replacement

namespace LiesIn

variable {codecs : Codecs} {d : Disk} {p : Path} {dir : List Text} {n : Text} {l : Listing}

theorem replaceText_eq (hp : d.LiesIn p dir n) (hl : Listing.dirAt? dir d.top = some l)
    (h : Hazard) (encoding text : Text) :
    Disk.replaceText codecs h encoding d p text
      = match run h (orderOf codecs encoding d p text l) l with
        | (l', none) => .ok (d.changeAt dir fun _ => l')
        | (_, some f) => .error f := by
  rw [Disk.replaceText, hp.parent]
  dsimp only
  rw [hl]
  rfl

/-- A file can be moved to any target but a directory. -/
theorem blockedMove_eq_none_iff (hp : d.LiesIn p dir n) (l : Listing) :
    blockedMove l p = none ↔ ∀ e, l.lookup n = some e → e.isDirectory = false := by
  rw [blockedMove, hp.name]
  dsimp only
  rw [if_neg hp.ordinary.2]
  cases l.lookup n <;> simp

/-- A temporary file can be made beside any name that leaves room for its own. -/
theorem unmadeTemporary_eq_none_iff (hp : d.LiesIn p dir n) :
    unmadeTemporary p = none ↔ hasNull p = false ∧ isTooLong (temporaryName n 0) = false := by
  rw [unmadeTemporary, hp.name, Option.getD_some]
  cases hasNull p <;> cases isTooLong (temporaryName n 0) <;> simp

/-- A file is set in a directory where no directory is in its way. -/
theorem isSetAt_put (hp : d.LiesIn p dir n) (hl : Listing.dirAt? dir d.top = some l)
    (hfree : ∀ e, l.lookup n = some e → e.isDirectory = false) (bytes : Bytes) (mode : Nat) :
    (d.changeAt dir fun _ => l.put n (.file bytes mode)).IsSetAt d (dir ++ [n])
      (some (.file bytes mode)) := by
  refine hp.changeAt ?_ (by simp) ?_
  · intro bare hbare
    rw [Listing.bareAt?_eq_map, hl, Option.bind_some, Option.map_eq_some_iff] at hbare
    obtain ⟨e, he, rfl⟩ := hbare
    rw [Entry.isDirectory_bare]
    exact hfree e he
  · intro sub hsub
    obtain rfl : l = sub := Option.some.inj (hl.symm.trans hsub)
    exact Listing.lookup_put n _ l

/-- The permission bits of what is at the path, if a file system can be asked for it. -/
theorem mode?_of_lookup (hp : d.LiesIn p dir n) (hl : Listing.dirAt? dir d.top = some l)
    (hclean : hasNull p = false) (hshort : isTooLong n = false) {bytes : Bytes} {mode : Nat}
    (h : l.lookup n = some (.file bytes mode)) :
    d.mode? p = some mode := by
  have hsits : d.Sits p dir n := ⟨hp, hshort, hclean⟩
  have hbare : Listing.bareAt? (dir ++ [n]) d.top = some (.file bytes mode) := by
    rw [Listing.bareAt?_eq_map, hl, Option.bind_some, h]
    rfl
  rw [mode?, hsits.find (by simp [hbare]), hbare, Found.ofBare]

/-- **Replaced, or untouched.** Whatever strikes, a replacement either returns, and then the target
holds the bytes of the text, under the permission bits it had before, and everything else on the
disk is as it was; or it fails, and then the directory is as it was. It returns exactly if nothing
strikes, a temporary file can be made, the text has bytes and no directory is in the way. The same
holds at every cut of its effects, however the content is written and whatever unused name the
temporary file is given. -/
theorem replaced_or_untouched (codecs : Codecs) (hp : d.LiesIn p dir n)
    (hl : Listing.dirAt? dir d.top = some l) (h : Hazard) (encoding text : Text) :
    let o := orderOf codecs encoding d p text l
    let mode := (d.mode? p).getD temporaryMode
    ((∃ bytes d', encodeText codecs encoding text = .ok bytes
          ∧ run h o l = (l.put n (.file bytes mode), none)
          ∧ Disk.replaceText codecs h encoding d p text = .ok d'
          ∧ d'.IsSetAt d (dir ++ [n]) (some (.file bytes mode)))
        ∨ ∃ f, run h o l = (l, some f) ∧ Disk.replaceText codecs h encoding d p text = .error f)
      ∧ ((run h o l).2 = none ↔ (∀ step, h.strikes step = none)
          ∧ (hasNull p = false ∧ isTooLong (temporaryName n 0) = false)
          ∧ (∃ bytes, encodeText codecs encoding text = .ok bytes)
          ∧ ∀ e, l.lookup n = some e → e.isDirectory = false)
      ∧ (hasNull p = false → isTooLong n = false →
          ∀ bytes m, l.lookup n = some (.file bytes m) → d.mode? p = some m)
      ∧ (∀ parts : List Bytes,
          (∀ bytes, encodeText codecs encoding text = .ok bytes → parts.flatten = bytes) →
            (run h o l).1 = cutOff o (freshName l n) parts (completed h o parts) l)
      ∧ ∀ temp, l.lookup temp = none → temp ≠ n → ∀ parts : List Bytes,
          (∀ k < (effects o parts).length, cutOff o temp parts k l = l)
          ∧ cutOff o temp parts (effects o parts).length l
            = l.put n (.file parts.flatten mode) := by
  intro o mode
  have hname : o.name = n := by
    show (p.name?).getD [] = n
    rw [hp.name, Option.getD_some]
  have hmode : finalMode o = mode := rfl
  have hmade : o.unmade = none ↔ hasNull p = false ∧ isTooLong (temporaryName n 0) = false :=
    hp.unmadeTemporary_eq_none_iff
  have hblocked : o.blocked = none ↔ ∀ e, l.lookup n = some e → e.isDirectory = false :=
    hp.blockedMove_eq_none_iff l
  have hreplace : Disk.replaceText codecs h encoding d p text
      = match run h o l with
        | (l', none) => .ok (d.changeAt dir fun _ => l')
        | (_, some f) => .error f := hp.replaceText_eq hl h encoding text
  refine ⟨?_, ?_, fun hclean hshort bytes m => hp.mode?_of_lookup hl hclean hshort,
    fun parts hparts => ?_, ?_⟩
  · by_cases hh : Unhindered h o
    · left
      obtain ⟨bytes, hcontent⟩ := hh.content
      have hrun := run_of_unhindered hh hcontent l
      rw [hname, hmode] at hrun
      rw [hrun] at hreplace
      exact ⟨bytes, _, hcontent, hrun, hreplace,
        hp.isSetAt_put hl (hblocked.mp hh.free) bytes mode⟩
    · right
      obtain ⟨f, hrun⟩ := run_of_hindered hh l
      rw [hrun] at hreplace
      exact ⟨f, hrun, hreplace⟩
  · rw [run_snd_eq_none_iff, ← hblocked, ← hmade]
    exact ⟨fun hh => ⟨hh.calm, hh.made, hh.content, hh.free⟩,
      fun hh => ⟨hh.1, hh.2.1, hh.2.2.1, hh.2.2.2⟩⟩
  · rw [← hname]
    exact run_eq_cutOff h o l hparts
  · intro temp hfresh hne parts
    refine ⟨fun k hk => cutOff_of_lt hfresh hk, ?_⟩
    rw [cutOff_all hfresh (hname ▸ hne), hname, hmode]

end LiesIn

/-- Two files, one of them executable. -/
def twoFiles : Disk where
  top := [("a".toList, .file [0x78] 0o755), ("b".toList, .file [] 0o644)]
  here := []

/-- The executable file is replaced under its permission bits; when the move is struck, nothing has
happened. -/
theorem replaced_or_untouched_executable :
    ∃ p : Path, p = ⟨.root, ["a".toList]⟩ ∧ twoFiles.LiesIn p [] "a".toList
      ∧ (∃ d', Disk.replaceText .standard .none "utf-8".toList twoFiles p "é".toList = .ok d'
        ∧ d'.IsSetAt twoFiles ["a".toList] (some (.file [0xC3, 0xA9] 0o755)))
      ∧ ∀ (f : Fault) (h : Hazard), h.strikes .move = some f → ∃ f',
        Disk.replaceText .standard h "utf-8".toList twoFiles p "é".toList = .error f'
          ∧ run h (orderOf .standard "utf-8".toList twoFiles p "é".toList twoFiles.top) twoFiles.top
            = (twoFiles.top, some f') := by
  have hp : twoFiles.LiesIn ⟨.root, ["a".toList]⟩ [] "a".toList :=
    ⟨by simp [find, seek, hasNull, Path.parent, lookUp, start], rfl, rfl, by decide, by decide⟩
  have hclean : hasNull ⟨.root, ["a".toList]⟩ = false := by decide +kernel
  have hroom : isTooLong (temporaryName "a".toList 0) = false := by cbv
  have hcontent : encodeText .standard "utf-8".toList "é".toList = .ok [0xC3, 0xA9] := by cbv
  refine ⟨_, rfl, hp, ?_, fun f h hstrike => ?_⟩
  · obtain ⟨hends, hreturns, hmode, -⟩ :=
      hp.replaced_or_untouched .standard rfl .none "utf-8".toList "é".toList
    have hfile : ∀ e, twoFiles.top.lookup "a".toList = some e → e.isDirectory = false := by
      intro e he
      cases he
      rfl
    have hnone := hreturns.mpr ⟨fun _ => rfl, ⟨hclean, hroom⟩, ⟨_, hcontent⟩, hfile⟩
    rcases hends with ⟨bytes, d', hbytes, _, hd', hset⟩ | ⟨f, hf, _⟩
    · rw [hmode hclean (by decide +kernel) _ _ rfl, Option.getD_some] at hset
      cases hcontent.symm.trans hbytes
      exact ⟨d', hd', hset⟩
    · rw [hf] at hnone
      cases hnone
  · obtain ⟨hends, hreturns, -⟩ :=
      hp.replaced_or_untouched .standard rfl h "utf-8".toList "é".toList
    rcases hends with ⟨bytes, d', _, hrun, _⟩ | ⟨f', hf', herror⟩
    · have hcalm := (hreturns.mp (by rw [hrun])).1 .move
      rw [hstrike] at hcalm
      cases hcalm
    · exact ⟨f', herror, hf'⟩

end Disk

end Unflag
