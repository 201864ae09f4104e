/-
One pass is enough.

A resolution leaves no block on the flag behind, at any depth, and a tree without such a
block is not changed by it. Hence a second pass does nothing. The notes of a pass account
for the blocks it resolved: a tree is edited exactly if it holds a block on the flag, and
the number of resolved blocks is a count over the whole tree, of the blocks on the flag
that do not lie in a clause dropped from another one.

The count is global and the notes are made on the way, so the two are compared by the
induction over member lists, block by block. For a block on another flag all bodies count
in full. For a block on the flag only the kept body does, and this is where the place of a
clause in its block has to be the place the choice falls on.
-/
import Mathlib.Algebra.GroupWithZero.Nat
import Unflag.Proofs.Resolved
import Unflag.Tree.Assembly

set_option autoImplicit false

namespace Unflag

/-! ## Blocks on a flag -/

/-- A block whose conditions name exactly the flag. -/
def IsBlockOn (flag : Text) : Node → Prop
  | .block cs _ => FlagsAre flag cs
  | _ => False

instance (flag : Text) (n : Node) : Decidable (IsBlockOn flag n) :=
  match n with
  | .item _ _ => inferInstanceAs (Decidable False)
  | .block cs _ => inferInstanceAs (Decidable (FlagsAre flag cs))
  | .placeholder _ => inferInstanceAs (Decidable False)

/-- The nodes of a tree, at any depth. -/
def SourceTree.sites (t : SourceTree) : List Site := sitesOfNodes t.members

/-- The place, among the clauses of a block, of the one that is kept once the flag is on. -/
def keptPlace (flag : Text) (cs : List Clause) : Option Nat :=
  ((Build.only flag).choose (cs.map Clause.head).zipIdx).map Prod.snd

/-- Whether a node lies in a clause that is dropped from a block on the flag. -/
def Site.IsDropped (flag : Text) (s : Site) : Prop :=
  ∃ a ∈ s.around, FlagsAre flag a.1 ∧ keptPlace flag a.1 ≠ some a.2

instance (flag : Text) (s : Site) : Decidable (s.IsDropped flag) :=
  inferInstanceAs (Decidable (∃ a ∈ s.around, FlagsAre flag a.1 ∧ keptPlace flag a.1 ≠ some a.2))

/-- Whether a node is a block on the flag that a pass comes to. -/
def Site.isResolved (flag : Text) (s : Site) : Bool :=
  decide (IsBlockOn flag s.node ∧ ¬ s.IsDropped flag)

variable {flag : Text}

/-! ## Nothing is left -/

/-- **A pass is complete**: it leaves no block on the flag, wherever it may have stood. -/
theorem everywhere_not_isBlockOn (flag : Text) (ns : List Node) :
    Everywhere (fun n => ¬ IsBlockOn flag n) (resolveNodes flag ns) := by
  have hany : Everywhere (fun _ => True) ns := fun _ _ => trivial
  refine everywhere_resolve (fun _ _ _ => id) ?_ (fun _ _ => id) (fun _ => id) ?_ hany
  · intro cs ending _ hflags
    exact fun h => hflags ((flagsAre_resolveClauses flag flag cs).mp h)
  · intro n t leading _ hn
    cases n with
    | item kind parts =>
        obtain ⟨ps, hps⟩ := Node.withFirstToken_item kind parts { t with leading }
        rw [hps]
        exact id
    | block cs ending =>
        obtain ⟨ds, hds, hconditions⟩ := Node.withFirstToken_block cs ending { t with leading }
        rw [hds]
        -- the opening line moves, but its condition is the one that was there
        show ¬ FlagsAre flag ds
        rw [FlagsAre, hconditions]
        exact hn
    | placeholder u => exact id

/-- **A tree without a block on the flag** is what a pass makes of it. -/
theorem resolveNodes_eq_self {ns : List Node}
    (h : Everywhere (fun n => ¬ IsBlockOn flag n) ns) : resolveNodes flag ns = ns := by
  induction ns using memberInduction with
  | nil => rfl
  | item kind parts rest ihGroups ihRest =>
      obtain ⟨hfirst, hrest⟩ := everywhere_cons.mp h
      have hgroups := (everywhere_item.mp hfirst).2
      have hparts : resolveParts flag parts = parts := by
        rw [resolveParts_eq]
        refine (List.map_congr_left fun p hp => ?_).trans (List.map_id parts)
        cases p with
        | token t => rfl
        | group opening members closing =>
            rw [Part.resolve, ihGroups opening members closing hp
              (hgroups opening members closing hp)]
            rfl
      rw [resolveNodes, Node.resolve, hparts, ihRest hrest]
      rfl
  | block cs ending rest ihBodies ihRest =>
      obtain ⟨hfirst, hrest⟩ := everywhere_cons.mp h
      obtain ⟨hflags, hbodies⟩ := everywhere_block.mp hfirst
      have hclauses : resolveClauses flag cs = cs := by
        rw [resolveClauses_eq]
        refine (List.map_congr_left fun c hc => ?_).trans (List.map_id cs)
        have hbody := ihBodies c hc (hbodies c hc)
        obtain ⟨head, body⟩ := c
        exact congrArg (Clause.mk head) hbody
      rw [resolveNodes, resolve_block_of_not_flagsAre hflags, hclauses, ihRest hrest]
      rfl
  | placeholder t rest ihRest =>
      rw [resolveNodes, ihRest (everywhere_cons.mp h).2]
      rfl

/-! ## The notes of a pass -/

theorem notesOfParts_eq (flag : Text) (ps : List Part) :
    notesOfParts flag ps = ps.flatMap (Part.notes flag) := by
  induction ps with
  | nil => rfl
  | cons p r ih => rw [notesOfParts, ih, List.flatMap_cons]

theorem notesOfBodies_eq (flag : Text) (cs : List Clause) :
    notesOfBodies flag cs = cs.map fun c => notesOfNodes flag c.body := by
  induction cs with
  | nil => rfl
  | cons c r ih => cases c; rw [notesOfBodies, ih, List.map_cons]; rfl

/-- The blocks resolved according to some notes. -/
def resolvedIn (notes : List Note) : Nat := notes.countP Note.isResolved

theorem resolvedIn_append (as bs : List Note) :
    resolvedIn (as ++ bs) = resolvedIn as + resolvedIn bs := List.countP_append

/-- A block on another flag is not resolved; what is resolved lies in its bodies. -/
theorem resolvedIn_block_of_not_flagsAre {cs : List Clause} (h : ¬ FlagsAre flag cs)
    (ending : Token) :
    resolvedIn ((Node.block cs ending).notes flag)
      = (cs.map fun c => resolvedIn (notesOfNodes flag c.body)).sum := by
  have hflat : resolvedIn (notesOfBodies flag cs).flatten
      = (cs.map fun c => resolvedIn (notesOfNodes flag c.body)).sum := by
    rw [resolvedIn, List.countP_flatten, notesOfBodies_eq, List.map_map]
    rfl
  rw [Node.notes]
  split
  · -- an unsupported condition is noted, and the note is not one of a resolved block
    rw [← hflat, resolvedIn, List.countP_cons_of_neg (by simp [Note.isResolved])]
    rfl
  · next ns hns =>
    have honly : ¬ Condition.onlyFlag flag ns = true := by
      intro honly
      exact h ⟨ns, hns, (onlyFlag_iff flag ns).mp honly⟩
    rw [if_neg honly, hflat]

/-- A block on the flag is resolved, and so is what lies in the body that is kept of it. -/
theorem resolvedIn_block_of_flagsAre {b : Build} (hb : b.isOn flag = true) {cs : List Clause}
    (h : FlagsAre flag cs) (ending : Token) :
    resolvedIn ((Node.block cs ending).notes flag)
      = ((b.chosen cs).elim 0 fun c => resolvedIn (notesOfNodes flag c.body)) + 1 := by
  obtain ⟨ns, hns, honly⟩ := id h
  have hzip : (cs.map Clause.head).zip ((cs.map Clause.body).zip (notesOfBodies flag cs))
      = cs.map fun c => (c.head, c.body, notesOfNodes flag c.body) := by
    rw [notesOfBodies_eq, List.zip_map', List.zip_map']
  simp only [Node.notes, hns, if_pos ((onlyFlag_iff flag ns).mpr honly), hzip, notesOfBlock,
    select_eq_chosen hb h]
  cases b.chosen cs with
  | none => rfl
  | some c =>
      simp only [Option.map_some, Option.elim_some, resolvedIn, List.countP_append]
      congr 1
      -- kept or hollow, the last note is the one of the block itself
      split <;> rfl

/-! ## The count over the tree -/

/-- A node seen from outside a block on another flag is as it was. -/
theorem Site.isResolved_inside_of_not_flagsAre {cs : List Clause} (h : ¬ FlagsAre flag cs)
    (i : Nat) (s : Site) : (s.inside cs i).isResolved flag = s.isResolved flag := by
  have hdropped : (s.inside cs i).IsDropped flag ↔ s.IsDropped flag := by
    simp [Site.IsDropped, Site.inside, h]
  rw [Site.isResolved, Site.isResolved, decide_eq_decide, hdropped]
  rfl

/-- Seen from outside a block on the flag it counts only if it lies in the kept clause. -/
theorem Site.isResolved_inside_of_flagsAre {cs : List Clause} (h : FlagsAre flag cs)
    (i : Nat) (s : Site) :
    (s.inside cs i).isResolved flag
      = (s.isResolved flag && decide (keptPlace flag cs = some i)) := by
  have hdropped : (s.inside cs i).IsDropped flag
      ↔ keptPlace flag cs ≠ some i ∨ s.IsDropped flag := by
    simp [Site.IsDropped, Site.inside, h]
  rw [Site.isResolved, Site.isResolved, ← Bool.decide_and, decide_eq_decide, hdropped, not_or,
    Decidable.not_not, and_assoc, and_comm (a := keptPlace flag cs = some i)]
  rfl

/-- Numbering a list does not matter to what is made of its elements. -/
theorem map_zipIdx_fst {α β : Type} (f : α → β) (l : List α) :
    l.zipIdx.map (fun x => f x.1) = l.map f := by
  have hcomp := List.map_map (f := Prod.fst) (g := f) (l := l.zipIdx)
  rw [List.zipIdx_map_fst] at hcomp
  exact hcomp.symm

/-- A sum in which a single place counts. -/
theorem sum_zipIdx_at {α : Type} (k : Option Nat) (f : α → Nat) (l : List α) :
    (l.zipIdx.map fun x => if k = some x.2 then f x.1 else 0).sum
      = (k.bind fun i => l[i]?).elim 0 f := by
  cases k with
  | none => simp [List.map_const']
  | some i =>
      -- numbered from any `n`, so that the induction may go along the list
      have hfrom : ∀ n, ((l.zipIdx n).map fun x => if i = x.2 then f x.1 else 0).sum
          = if n ≤ i then l[i - n]?.elim 0 f else 0 := by
        induction l with
        | nil => intro n; simp
        | cons a r ih =>
            intro n
            rw [List.zipIdx_cons, List.map_cons, List.sum_cons, ih (n + 1)]
            rcases Nat.lt_trichotomy i n with hlt | heq | hgt
            · rw [if_neg (by omega), if_neg (by omega), if_neg (by omega)]
            · subst heq
              rw [if_pos rfl, if_neg (by omega), if_pos (Nat.le_refl i), Nat.sub_self]
              rfl
            · obtain ⟨d, rfl⟩ : ∃ d, i = n + 1 + d := ⟨i - (n + 1), by omega⟩
              rw [if_neg (by omega), if_pos (by omega), if_pos (by omega),
                show n + 1 + d - n = d + 1 by omega, Nat.add_sub_cancel_left,
                List.getElem?_cons_succ, Nat.zero_add]
      simpa using hfrom 0

/-- The kept place is the place of the chosen clause. -/
theorem getElem?_keptPlace (flag : Text) (cs : List Clause) :
    ((keptPlace flag cs).bind fun i => cs[i]?) = (Build.only flag).chosen cs := by
  -- both are the choice among the clauses paired with their places
  let places := cs.zipIdx.map fun c => (c.1.head, c)
  have hheads : (cs.map Clause.head).zipIdx = places.map fun p => (p.1, p.2.2) := by
    rw [List.zipIdx_map, List.map_map]
    rfl
  have hclauses : cs.map (fun c => (c.head, c)) = places.map fun p => (p.1, p.2.1) := by
    rw [List.map_map, ← map_zipIdx_fst]
    rfl
  rw [keptPlace, Build.chosen, hheads, hclauses, Build.choose_map, Build.choose_map]
  cases hp : (Build.only flag).choose places with
  | none => rfl
  | some p =>
      obtain ⟨c, hc, rfl⟩ := List.mem_map.mp (Build.mem_of_choose hp)
      exact List.mem_zipIdx_iff_getElem?.mp hc

/-- Below a block on another flag every body counts in full. -/
theorem countP_sites_block_of_not_flagsAre {cs : List Clause} (h : ¬ FlagsAre flag cs)
    (ending : Token) :
    (Node.block cs ending).sites.countP (Site.isResolved flag)
      = (cs.map fun c => (sitesOfNodes c.body).countP (Site.isResolved flag)).sum := by
  have hself : ¬ Site.isResolved flag ⟨.block cs ending, []⟩ = true := by
    simp [Site.isResolved, IsBlockOn, h]
  have hbody : ∀ b : List Site × Nat, (b.1.map (Site.inside cs b.2)).countP (Site.isResolved flag)
      = b.1.countP (Site.isResolved flag) := by
    intro b
    rw [List.countP_map]
    exact List.countP_congr fun s _ => by
      rw [Function.comp_apply, Site.isResolved_inside_of_not_flagsAre h]
  rw [Node.sites, List.countP_cons_of_neg hself, List.countP_flatMap]
  simp only [Function.comp_def, hbody]
  rw [map_zipIdx_fst (List.countP (Site.isResolved flag)), sitesOfBodies_eq, List.map_map]
  rfl

/-- A block on the flag counts itself, and below it only the kept body does. -/
theorem countP_sites_block_of_flagsAre {cs : List Clause} (h : FlagsAre flag cs) (ending : Token) :
    (Node.block cs ending).sites.countP (Site.isResolved flag)
      = (((Build.only flag).chosen cs).elim 0 fun c =>
          (sitesOfNodes c.body).countP (Site.isResolved flag)) + 1 := by
  have hself : Site.isResolved flag ⟨.block cs ending, []⟩ = true := by
    simp [Site.isResolved, IsBlockOn, Site.IsDropped, h]
  have hbody : ∀ b : List Site × Nat, (b.1.map (Site.inside cs b.2)).countP (Site.isResolved flag)
      = if keptPlace flag cs = some b.2 then b.1.countP (Site.isResolved flag) else 0 := by
    intro b
    rw [List.countP_map]
    simp only [Function.comp_def, Site.isResolved_inside_of_flagsAre h]
    by_cases hkept : keptPlace flag cs = some b.2
    · simp [hkept]
    · simp [hkept]
  -- of the sum over the bodies only the summand at the kept place is left
  rw [← getElem?_keptPlace, Node.sites, List.countP_cons_of_pos hself, List.countP_flatMap]
  simp only [Function.comp_def, hbody]
  rw [sum_zipIdx_at _ (List.countP (Site.isResolved flag)), sitesOfBodies_eq]
  cases keptPlace flag cs with
  | none => rfl
  | some i =>
      rw [Option.bind_some, Option.bind_some, List.getElem?_map]
      cases cs[i]? <;> rfl

/-- **The notes count the blocks a pass comes to**: one for each block on the flag that is
not dropped with a clause of another one. -/
theorem resolvedIn_notesOfNodes (flag : Text) (ns : List Node) :
    resolvedIn (notesOfNodes flag ns) = (sitesOfNodes ns).countP (Site.isResolved flag) := by
  induction ns using memberInduction with
  | nil => rfl
  | item kind parts rest ihGroups ihRest =>
      have hself : ¬ Site.isResolved flag ⟨.item kind parts, []⟩ = true := by
        simp [Site.isResolved, IsBlockOn]
      have hpart : ∀ p ∈ parts,
          resolvedIn (p.notes flag) = p.sites.countP (Site.isResolved flag) := by
        intro p hp
        cases p with
        | token t => rfl
        | group opening members closing => exact ihGroups opening members closing hp
      have hparts : resolvedIn (notesOfParts flag parts)
          = (sitesOfParts parts).countP (Site.isResolved flag) := by
        rw [notesOfParts_eq, sitesOfParts_eq, resolvedIn, List.countP_flatMap, List.countP_flatMap]
        exact congrArg List.sum (List.map_congr_left hpart)
      rw [notesOfNodes, resolvedIn_append, ihRest, sitesOfNodes, List.countP_append, Node.notes,
        Node.sites, List.countP_cons_of_neg hself, hparts]
  | block cs ending rest ihBodies ihRest =>
      rw [notesOfNodes, resolvedIn_append, ihRest, sitesOfNodes, List.countP_append]
      by_cases hflags : FlagsAre flag cs
      · rw [resolvedIn_block_of_flagsAre (Build.isOn_only flag) hflags,
          countP_sites_block_of_flagsAre hflags]
        cases hchosen : (Build.only flag).chosen cs with
        | none => rfl
        | some c =>
            have hbody := ihBodies c (Build.mem_of_chosen hchosen)
            rw [Option.elim_some, Option.elim_some, hbody]
      · rw [resolvedIn_block_of_not_flagsAre hflags, countP_sites_block_of_not_flagsAre hflags,
          List.map_congr_left ihBodies]
  | placeholder t rest ihRest =>
      have hself : ¬ Site.isResolved flag ⟨.placeholder t, []⟩ = true := by
        simp [Site.isResolved, IsBlockOn]
      rw [notesOfNodes, resolvedIn_append, ihRest, sitesOfNodes, Node.sites, List.singleton_append,
        List.countP_cons_of_neg hself]
      exact Nat.zero_add _

/-- Nothing is resolved exactly if there is nothing to resolve. A block on the flag inside
another one may be dropped with it, but then the outer one is resolved. -/
theorem resolvedIn_eq_zero_iff (flag : Text) (ns : List Node) :
    resolvedIn (notesOfNodes flag ns) = 0 ↔ Everywhere (fun n => ¬ IsBlockOn flag n) ns := by
  induction ns using memberInduction with
  | nil => exact iff_of_true rfl everywhere_nil
  | item kind parts rest ihGroups ihRest =>
      rw [notesOfNodes, resolvedIn_append, Nat.add_eq_zero_iff, ihRest, everywhere_cons,
        everywhere_item, Node.notes, notesOfParts_eq, resolvedIn, List.countP_flatMap,
        List.sum_eq_zero_iff_forall_eq_nat]
      refine and_congr_left fun _ => ⟨?_, ?_⟩
      · intro h
        refine ⟨id, fun opening members closing hgroup => ?_⟩
        exact (ihGroups opening members closing hgroup).mp (h _ (List.mem_map_of_mem hgroup))
      · rintro ⟨_, h⟩ k hk
        obtain ⟨p, hp, rfl⟩ := List.mem_map.mp hk
        cases p with
        | token t => rfl
        | group opening members closing =>
            exact (ihGroups opening members closing hp).mpr (h opening members closing hp)
  | block cs ending rest ihBodies ihRest =>
      rw [notesOfNodes, resolvedIn_append, Nat.add_eq_zero_iff, ihRest, everywhere_cons,
        everywhere_block]
      refine and_congr_left fun _ => ?_
      by_cases hflags : FlagsAre flag cs
      · rw [resolvedIn_block_of_flagsAre (Build.isOn_only flag) hflags]
        exact iff_of_false (Nat.succ_ne_zero _) fun h => h.1 hflags
      · rw [resolvedIn_block_of_not_flagsAre hflags, List.sum_eq_zero_iff_forall_eq_nat]
        constructor
        · intro h
          exact ⟨hflags, fun c hc => (ihBodies c hc).mp (h _ (List.mem_map_of_mem hc))⟩
        · rintro ⟨_, h⟩ k hk
          obtain ⟨c, hc, rfl⟩ := List.mem_map.mp hk
          exact (ihBodies c hc).mpr (h c hc)
  | placeholder t rest ihRest =>
      rw [notesOfNodes, resolvedIn_append, Nat.add_eq_zero_iff, ihRest, everywhere_cons,
        everywhere_placeholder]
      exact and_congr_left fun _ => iff_of_true rfl id

/-! ## Trees -/

theorem SourceTree.resolvedCount_eq (t : SourceTree) (flag : Text) :
    t.resolvedCount flag = t.sites.countP (Site.isResolved flag) :=
  resolvedIn_notesOfNodes flag t.members

theorem SourceTree.resolvedCount_eq_zero_iff (t : SourceTree) (flag : Text) :
    t.resolvedCount flag = 0 ↔ ∀ s ∈ t.sites, ¬ IsBlockOn flag s.node :=
  resolvedIn_eq_zero_iff flag t.members

/-- A tree is edited if a block is counted. -/
theorem SourceTree.isEdited_eq_false_iff (t : SourceTree) (flag : Text) :
    t.isEdited flag = false ↔ t.resolvedCount flag = 0 := by
  rw [SourceTree.isEdited, SourceTree.resolvedCount, List.any_eq_false, List.countP_eq_zero]

theorem SourceTree.isEdited_iff (t : SourceTree) (flag : Text) :
    t.isEdited flag = true ↔ ∃ s ∈ t.sites, IsBlockOn flag s.node := by
  rw [← Bool.not_eq_false, t.isEdited_eq_false_iff, t.resolvedCount_eq_zero_iff]
  simp

/-- **One pass is enough.** What a pass makes of a tree holds no block on the flag, at any
depth; a second pass gives back the same tree, unedited and with a count of zero. The pass
itself edits a tree exactly if there is a block on the flag somewhere in it, and it counts
those that do not lie in a dropped clause of another one. -/
theorem SourceTree.resolve_in_one_pass (t : SourceTree) (flag : Text) :
    (∀ s ∈ (t.resolve flag).sites, ¬ IsBlockOn flag s.node)
      ∧ (t.resolve flag).resolve flag = t.resolve flag
      ∧ (t.resolve flag).isEdited flag = false
      ∧ (t.resolve flag).resolvedCount flag = 0
      ∧ (t.isEdited flag = true ↔ ∃ s ∈ t.sites, IsBlockOn flag s.node)
      ∧ t.resolvedCount flag = t.sites.countP (Site.isResolved flag) := by
  have hnone : ∀ s ∈ (t.resolve flag).sites, ¬ IsBlockOn flag s.node :=
    everywhere_not_isBlockOn flag t.members
  have hzero := (t.resolve flag).resolvedCount_eq_zero_iff flag |>.mpr hnone
  refine ⟨hnone, ?_, ?_, hzero, ?_, t.resolvedCount_eq flag⟩
  · have hsame := resolveNodes_eq_self hnone
    rw [SourceTree.resolve, hsame]
  · exact ((t.resolve flag).isEdited_eq_false_iff flag).mpr hzero
  · exact t.isEdited_iff flag

-- three blocks on the flag, one of them in the dropped clause of another
example : (SourceTree.parse .sequential
    "#if A\nx\n#else\n#if A\ny\n#endif\n#endif\n#if B\n#if !A\nz\n#endif\n#endif".toList).toOption.map
      (fun t => (t.sites.countP fun s => decide (IsBlockOn "A".toList s.node),
        t.resolvedCount "A".toList)) = some (3, 2) := by
  decide +kernel

end Unflag
