/-
What a resolution does at every depth.

Two facts carry everything that is proved about resolved trees. One is what becomes of a
single block: a block on another flag keeps its opening lines, and a block on the flag is
replaced by the resolved body of the clause that any build with the flag on chooses
(`resolve_block_of_flagsAre`). The other is a transfer: to know something of every node of
a resolved tree it is enough to know it of the few kinds of node a resolution can make
(`everywhere_resolve`). Bodies that move upwards and change their first token are dealt
with there once.
-/
import Unflag.Proofs.Choice
import Unflag.Proofs.Members

set_option autoImplicit false

namespace Unflag

/-! ## What becomes of a block -/

variable {flag : Text}

theorem leadingOf_resolveClauses (flag : Text) (cs : List Clause) :
    leadingOf (resolveClauses flag cs) = leadingOf cs := by
  cases cs with
  | nil => rfl
  | cons c r =>
      show (c.resolve flag).head.directive.leading = c.head.directive.leading
      rw [c.head_resolve]

theorem flagsAre_resolveClauses (flag name : Text) (cs : List Clause) :
    FlagsAre name (resolveClauses flag cs) ↔ FlagsAre name cs :=
  flagsAre_congr (map_head_resolveClauses flag cs)

/-- The choice does not depend on the bodies: it is the same clause, resolved. -/
theorem Build.chosen_resolveClauses (b : Build) (flag : Text) (cs : List Clause) :
    b.chosen (resolveClauses flag cs) = (b.chosen cs).map (Clause.resolve flag) := by
  have hpairs : (resolveClauses flag cs).map (fun c => (c.head, c))
      = cs.map fun c => (c.head, c.resolve flag) := by
    rw [resolveClauses_eq, List.map_map]
    exact List.map_congr_left fun c _ => by simp only [Function.comp_apply, c.head_resolve]
  rw [Build.chosen, hpairs, Build.choose_eq_chosen, Option.map_map]
  rfl

/-- A block that is not on the flag stays, with its bodies resolved. -/
theorem resolve_block_of_not_flagsAre {cs : List Clause} (h : ¬ FlagsAre flag cs) (ending : Token) :
    (Node.block cs ending).resolve flag = [.block (resolveClauses flag cs) ending] := by
  have hguard : ¬ isGuardedBy flag (resolveClauses flag cs) = true := by
    rwa [isGuardedBy_iff, flagsAre_resolveClauses]
  rw [Node.resolve, settleBlock, if_neg hguard]

/-- **A block on the flag** gives way to the resolved body of the clause that a build with
the flag on chooses, and to nothing but its trivia where that body holds no token. -/
theorem resolve_block_of_flagsAre {b : Build} (hb : b.isOn flag = true) {cs : List Clause}
    (h : FlagsAre flag cs) (ending : Token) :
    (Node.block cs ending).resolve flag = match b.chosen cs with
      | some c =>
        if hasContent (resolveNodes flag c.body) then
          splice (leadingOf cs) (resolveNodes flag c.body)
        else vacated cs
      | none => vacated cs := by
  have hresolved := (flagsAre_resolveClauses flag flag cs).mpr h
  have hvacated : vacated (resolveClauses flag cs) = vacated cs := by
    rw [vacated, vacated, leadingOf_resolveClauses]
  rw [Node.resolve, settleBlock, if_pos ((isGuardedBy_iff _ _).mpr hresolved),
    select_eq_chosen hb hresolved, b.chosen_resolveClauses, leadingOf_resolveClauses, hvacated]
  cases b.chosen cs with
  | none => rfl
  | some c =>
      simp only [Option.map_some, c.body_resolve]

/-! ## Moving a body upwards -/

/-- With another first token an item is an item, -/
theorem Node.withFirstToken_item (kind : ItemKind) (parts : List Part) (t : Token) :
    ∃ ps, (Node.item kind parts).withFirstToken t = .item kind ps := by
  cases parts with
  | nil => exact ⟨[], rfl⟩
  | cons p r => cases p <;> exact ⟨_, rfl⟩

/-- and a block is a block with the same conditions. -/
theorem Node.withFirstToken_block (cs : List Clause) (ending t : Token) :
    ∃ ds, (Node.block cs ending).withFirstToken t = .block ds ending
      ∧ conditionsOf ds = conditionsOf cs := by
  cases cs with
  | nil => exact ⟨[], rfl, rfl⟩
  | cons c r =>
      obtain ⟨head, body⟩ := c
      exact ⟨_, rfl, rfl⟩

/-- Another first token changes the node itself and nothing below it. -/
theorem Everywhere.withFirstToken {P : Node → Prop} {n : Node} {t : Token}
    (hnode : P n → P (n.withFirstToken t)) (h : Everywhere P [n]) :
    Everywhere P [n.withFirstToken t] := by
  cases n with
  | item kind parts =>
      obtain ⟨hitem, hgroups⟩ := everywhere_item.mp h
      cases parts with
      | nil => exact h
      | cons p r =>
          cases p with
          | token u =>
              refine everywhere_item.mpr ⟨hnode hitem, fun opening members closing hgroup => ?_⟩
              exact hgroups opening members closing (by simpa using hgroup)
          | group u inner v =>
              refine everywhere_item.mpr ⟨hnode hitem, fun opening members closing hgroup => ?_⟩
              -- the first group has another brace in front, but the same members
              rcases List.mem_cons.mp hgroup with hgroup | hgroup
              · cases hgroup
                exact hgroups u inner v List.mem_cons_self
              · exact hgroups opening members closing (List.mem_cons_of_mem _ hgroup)
  | block cs ending =>
      obtain ⟨hblock, hbodies⟩ := everywhere_block.mp h
      cases cs with
      | nil => exact h
      | cons c r =>
          obtain ⟨head, body⟩ := c
          obtain ⟨hbody, hrest⟩ := List.forall_mem_cons.mp hbodies
          exact everywhere_block.mpr ⟨hnode hblock, List.forall_mem_cons.mpr ⟨hbody, hrest⟩⟩
  | placeholder u =>
      exact everywhere_placeholder.mpr (hnode (everywhere_placeholder.mp h))

/-- A body in the place of its block: what holds of its nodes goes on holding if it does not
depend on the trivia in front of them. -/
theorem Everywhere.splice {P : Node → Prop}
    (hhead : ∀ n t leading, n.firstToken? = some t → P n → P (n.withFirstToken { t with leading }))
    {ns : List Node} (h : Everywhere P ns) (leading : Trivia) :
    Everywhere P (splice leading ns) := by
  induction ns generalizing leading with
  | nil => exact h
  | cons n r ih =>
      obtain ⟨hn, hr⟩ := everywhere_cons.mp h
      unfold Unflag.splice
      split
      · next heq => exact absurd heq (by simp)
      · -- a placeholder at the top goes, and its trivia moves on to the next node
        next t r' heq => cases heq; exact ih hr _
      · next n' r' _ heq =>
        cases heq
        split
        · next t ht => exact everywhere_cons.mpr ⟨hn.withFirstToken (hhead n t _ ht), hr⟩
        · exact h

/-! ## The transfer -/

/-- **What every node of a resolved tree satisfies.** Items and blocks that stay, the
placeholders that were there and those that are left behind, and the same nodes with other
trivia in front: a resolution makes nothing else. -/
theorem everywhere_resolve {Q P : Node → Prop}
    (hitem : ∀ kind parts, Q (.item kind parts) → P (.item kind (resolveParts flag parts)))
    (hblock : ∀ cs ending, Q (.block cs ending) → ¬ FlagsAre flag cs →
      P (.block (resolveClauses flag cs) ending))
    (hplaceholder : ∀ t, Q (.placeholder t) → P (.placeholder t))
    (hvacated : ∀ leading, P (.placeholder (.placeholder leading)))
    (hhead : ∀ n t leading, n.firstToken? = some t → P n → P (n.withFirstToken { t with leading }))
    {ns : List Node} (h : Everywhere Q ns) : Everywhere P (resolveNodes flag ns) := by
  induction ns using memberInduction with
  | nil => exact everywhere_nil
  | item kind parts rest ihGroups ihRest =>
      obtain ⟨hfirst, hrest⟩ := everywhere_cons.mp h
      obtain ⟨hq, hgroups⟩ := everywhere_item.mp hfirst
      refine everywhere_append.mpr ⟨everywhere_item.mpr ⟨hitem kind parts hq, ?_⟩, ihRest hrest⟩
      intro opening members closing hgroup
      rw [resolveParts_eq] at hgroup
      obtain ⟨p, hp, heq⟩ := List.mem_map.mp hgroup
      cases p with
      | token t => exact absurd heq (by simp [Part.resolve])
      | group o ms c =>
          cases heq
          exact ihGroups opening ms closing hp (hgroups opening ms closing hp)
  | block cs ending rest ihBodies ihRest =>
      obtain ⟨hfirst, hrest⟩ := everywhere_cons.mp h
      obtain ⟨hq, hbodies⟩ := everywhere_block.mp hfirst
      refine everywhere_append.mpr ⟨?_, ihRest hrest⟩
      by_cases hflags : FlagsAre flag cs
      · -- any build with the flag on will do to say which body is kept
        rw [resolve_block_of_flagsAre (Build.isOn_only flag) hflags]
        have hleft : Everywhere P (vacated cs) := everywhere_placeholder.mpr (hvacated _)
        split
        · next c hc =>
          split
          · have hmem := Build.mem_of_chosen hc
            exact (ihBodies c hmem (hbodies c hmem)).splice hhead _
          · exact hleft
        · exact hleft
      · rw [resolve_block_of_not_flagsAre hflags]
        refine everywhere_block.mpr ⟨hblock cs ending hq hflags, fun c hc => ?_⟩
        rw [resolveClauses_eq] at hc
        obtain ⟨d, hd, rfl⟩ := List.mem_map.mp hc
        rw [d.body_resolve]
        exact ihBodies d hd (hbodies d hd)
  | placeholder t rest ihRest =>
      obtain ⟨hfirst, hrest⟩ := everywhere_cons.mp h
      have hp := hplaceholder t (everywhere_placeholder.mp hfirst)
      exact everywhere_append.mpr ⟨everywhere_placeholder.mpr hp, ihRest hrest⟩

end Unflag
