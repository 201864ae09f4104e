/-
When an edited file is deleted.

Whether anything is left of a file is decided on its rewritten text, parsed again, and not on
the resolved tree that the text was printed from. The two can differ, for a second parse cuts
items by their new neighbours, and an item that has joined another one no longer declares
what it declared (`deleted_though_declaring`).

Where the blocks on the flag are cut out cleanly, the second parse is followed by
`regroupNodes`, and all that matters of its result is kept along the way (`Resembles`): the
words of the item in hand, and whether a meaningful item has been finished. So the answer is
that of the resolved tree with its items cut anew. If in addition the items of the resolved
tree stay apart, cutting them anew changes nothing, and the answer is that of the resolved
tree: a file that still declares something is not deleted (`deletion_of_rewritten`).
-/
import Unflag.Proofs.ItemNeighbours
import Unflag.Proofs.SecondPass

set_option autoImplicit false

namespace Unflag

open Assembly Item

/-! ## Declaring nothing -/

/-- An item of a meaningful kind. -/
def Node.IsMeaningful : Node → Prop
  | .item kind _ => kind.isMeaningful = true
  | _ => False

instance (n : Node) : Decidable n.IsMeaningful :=
  match n with
  | .item kind _ => inferInstanceAs (Decidable (kind.isMeaningful = true))
  | .block _ _ => inferInstanceAs (Decidable False)
  | .placeholder _ => inferInstanceAs (Decidable False)

/-- No item of a member list is meaningful, at any depth. -/
def DeclareNothing (ns : List Node) : Prop := Everywhere (fun n => ¬ n.IsMeaningful) ns

/-- The same of what is between the braces of the parts of an item. -/
def DeclareNothingInside (parts : List Part) : Prop :=
  ∀ opening members closing, Part.group opening members closing ∈ parts → DeclareNothing members

theorem declareNothingInside_token (t : Token) : DeclareNothingInside [.token t] := by
  intro opening members closing hgroup
  exact absurd (List.mem_singleton.mp hgroup) (by simp)

theorem declareNothingInside_group {opening closing : Token} {members : List Node} :
    DeclareNothingInside [.group opening members closing] ↔ DeclareNothing members := by
  constructor
  · exact fun h => h opening members closing List.mem_cons_self
  · intro h o ms c hgroup
    cases List.mem_singleton.mp hgroup
    exact h

theorem declareNothingInside_append {ps qs : List Part} :
    DeclareNothingInside (ps ++ qs) ↔ DeclareNothingInside ps ∧ DeclareNothingInside qs := by
  constructor
  · intro h
    exact ⟨fun o ms c hgroup => h o ms c (List.mem_append_left _ hgroup),
      fun o ms c hgroup => h o ms c (List.mem_append_right _ hgroup)⟩
  · rintro ⟨hps, hqs⟩ o ms c hgroup
    exact (List.mem_append.mp hgroup).elim (hps o ms c) (hqs o ms c)

theorem declareNothing_item {kind : ItemKind} {parts : List Part} :
    DeclareNothing [.item kind parts]
      ↔ kind.isMeaningful = false ∧ DeclareNothingInside parts := by
  rw [DeclareNothing, everywhere_item, ← Bool.not_eq_true]
  rfl

theorem declareNothing_block {cs : List Clause} {ending : Token} :
    DeclareNothing [.block cs ending] ↔ ∀ c ∈ cs, DeclareNothing c.body := by
  rw [DeclareNothing, everywhere_block]
  exact and_iff_right id

theorem declareNothing_placeholder (t : Token) : DeclareNothing [.placeholder t] :=
  everywhere_placeholder.mpr id

theorem declareNothing_append {ms ns : List Node} :
    DeclareNothing (ms ++ ns) ↔ DeclareNothing ms ∧ DeclareNothing ns := everywhere_append

theorem declareNothing_cons {n : Node} {ns : List Node} :
    DeclareNothing (n :: ns) ↔ DeclareNothing [n] ∧ DeclareNothing ns := everywhere_cons

theorem meaningfulInParts?_eq_none {parts : List Part} :
    meaningfulInParts? parts = none ↔ ∀ p ∈ parts, p.meaningful? = none := by
  induction parts with
  | nil => simp [meaningfulInParts?]
  | cons p r ih =>
      rw [meaningfulInParts?, List.forall_mem_cons, ← ih]
      cases p.meaningful? <;> simp

theorem meaningfulInClauses?_eq_none {cs : List Clause} :
    meaningfulInClauses? cs = none ↔ ∀ c ∈ cs, meaningfulInNodes? c.body = none := by
  induction cs with
  | nil => simp [meaningfulInClauses?]
  | cons c r ih =>
      have hc : c.meaningful? = meaningfulInNodes? c.body := by cases c; rfl
      rw [meaningfulInClauses?, List.forall_mem_cons, ← ih, hc]
      cases meaningfulInNodes? c.body <;> simp

theorem meaningfulInNodes?_cons_eq_none {n : Node} {ns : List Node} :
    meaningfulInNodes? (n :: ns) = none ↔ n.meaningful? = none ∧ meaningfulInNodes? ns = none := by
  rw [meaningfulInNodes?]
  cases n.meaningful? <;> simp

/-- **The search finds nothing where nothing is declared**, and nowhere else. -/
theorem meaningfulInNodes?_eq_none {ns : List Node} :
    meaningfulInNodes? ns = none ↔ DeclareNothing ns := by
  induction ns using memberInduction with
  | nil => exact iff_of_true rfl everywhere_nil
  | item kind parts rest ihGroups ihRest =>
      have hparts : meaningfulInParts? parts = none ↔ DeclareNothingInside parts := by
        rw [meaningfulInParts?_eq_none]
        constructor
        · intro h opening members closing hgroup
          exact (ihGroups opening members closing hgroup).mp (h _ hgroup)
        · intro h p hp
          cases p with
          | token t => rfl
          | group opening members closing =>
              exact (ihGroups opening members closing hp).mpr (h opening members closing hp)
      rw [meaningfulInNodes?_cons_eq_none, declareNothing_cons, declareNothing_item, ← hparts,
        Node.meaningful?]
      refine and_congr ?_ ihRest
      cases kind.isMeaningful <;> simp
  | block cs ending rest ihBodies ihRest =>
      rw [meaningfulInNodes?_cons_eq_none, declareNothing_cons, declareNothing_block,
        Node.meaningful?, meaningfulInClauses?_eq_none]
      exact and_congr (forall₂_congr ihBodies) ihRest
  | placeholder t rest ihRest =>
      rw [meaningfulInNodes?_cons_eq_none, declareNothing_cons]
      exact and_congr (iff_of_true rfl (declareNothing_placeholder t)) ihRest

theorem SourceTree.isEmpty_iff (t : SourceTree) :
    t.isEmpty = true ↔ DeclareNothing t.members := by
  rw [SourceTree.isEmpty, Option.isNone_iff_eq_none, meaningfulInNodes?_eq_none]

/-- Placeholders declare nothing. -/
theorem declareNothing_written {ns : List Node} :
    DeclareNothing (writtenNodes ns) ↔ DeclareNothing ns := by
  induction ns using memberInduction with
  | nil => exact Iff.rfl
  | item kind parts rest ihGroups ihRest =>
      have hparts : DeclareNothingInside (writtenParts parts) ↔ DeclareNothingInside parts := by
        rw [writtenParts_eq]
        constructor
        · intro h opening members closing hgroup
          have hwritten := h opening (writtenNodes members) closing
            (List.mem_map_of_mem (f := Part.written) hgroup)
          exact (ihGroups opening members closing hgroup).mp hwritten
        · intro h opening members closing hgroup
          obtain ⟨p, hp, heq⟩ := List.mem_map.mp hgroup
          cases p with
          | token t => exact absurd heq (by simp [Part.written])
          | group o ms c =>
              cases heq
              exact (ihGroups opening ms closing hp).mpr (h opening ms closing hp)
      rw [writtenNodes, Node.written, List.singleton_append, declareNothing_cons,
        @declareNothing_cons (.item kind parts), declareNothing_item, declareNothing_item, hparts]
      exact and_congr_right fun _ => ihRest
  | block cs ending rest ihBodies ihRest =>
      have hbodies : (∀ c ∈ writtenClauses cs, DeclareNothing c.body)
          ↔ ∀ c ∈ cs, DeclareNothing c.body := by
        rw [writtenClauses_eq, List.forall_mem_map]
        refine forall₂_congr fun c hc => ?_
        have hbody := ihBodies c hc
        cases c
        exact hbody
      rw [writtenNodes, Node.written, List.singleton_append, declareNothing_cons,
        @declareNothing_cons (.block cs ending), declareNothing_block, declareNothing_block,
        hbodies]
      exact and_congr_right fun _ => ihRest
  | placeholder t rest ihRest =>
      rw [declareNothing_cons]
      exact ihRest.trans (and_iff_right (declareNothing_placeholder t)).symm

/-! ## A second parse -/

/-- What is kept between the list of a second parse and the list that is cut anew: the words of
the item in hand, the open brackets, and whether anything has been declared. -/
structure Assembly.Members.Resembles (m m₀ : Members) : Prop where
  depth : m.depth = m₀.depth
  parts : SameWords m.parts m₀.parts
  inside : DeclareNothingInside m.parts ↔ DeclareNothingInside m₀.parts
  nodes : DeclareNothing m.nodes ↔ DeclareNothing m₀.nodes

namespace Assembly.Members.Resembles

variable {m m₀ : Members}

theorem declareNothing_finish (h : m.Resembles m₀) :
    DeclareNothing m.finish ↔ DeclareNothing m₀.finish := by
  have hempty : m.parts.isEmpty = m₀.parts.isEmpty := isEmpty_congr (.of_sameWords h.parts)
  rw [Members.finish, Members.finish, Members.flush, Members.flush, hempty]
  split
  · exact h.nodes
  · rw [declareNothing_append, declareNothing_append, declareNothing_item, declareNothing_item,
      classify_congr (.of_sameWords h.parts), h.nodes, h.inside]

theorem flush (h : m.Resembles m₀) : m.flush.Resembles m₀.flush := by
  rw [m.flush_eq, m₀.flush_eq]
  exact ⟨h.depth, .nil, Iff.rfl, h.declareNothing_finish⟩

theorem breakBefore (h : m.Resembles m₀) {u t : Token} (hword : u.word = t.word) :
    (m.breakBefore u).Resembles (m₀.breakBefore t) := by
  have hsame := SameItem.of_sameWords h.parts
  rw [Members.breakBefore, Members.breakBefore, isEmpty_congr hsame, h.depth,
    startsNewItem_congr hsame hword]
  split
  · exact h.flush
  · exact h

theorem addPart (h : m.Resembles m₀) {p p₀ : Part} (hp : p.Alike Token.word p₀)
    (hinside : DeclareNothingInside [p] ↔ DeclareNothingInside [p₀]) :
    (m.addPart p).Resembles (m₀.addPart p₀) := by
  refine ⟨h.depth, List.rel_append h.parts (.cons hp .nil), ?_, h.nodes⟩
  rw [Members.addPart, Members.addPart, declareNothingInside_append, declareNothingInside_append,
    h.inside, hinside]

theorem addToken (h : m.Resembles m₀) {u t : Token} (hword : u.word = t.word) :
    (m.addToken u).Resembles (m₀.addToken t) := by
  have hadded : (m.addPart (.token u)).Resembles (m₀.addPart (.token t)) :=
    h.addPart (.token hword)
      (iff_of_true (declareNothingInside_token u) (declareNothingInside_token t))
  rw [Members.addToken_eq, Members.addToken_eq, is_congr hword, h.depth,
    bracketsAfter_congr hword]
  split
  · exact hadded.flush
  · exact ⟨rfl, hadded.parts, hadded.inside, hadded.nodes⟩

theorem addNode (h : m.Resembles m₀) {n n₀ : Node}
    (hn : DeclareNothing [n] ↔ DeclareNothing [n₀]) : (m.addNode n).Resembles (m₀.addNode n₀) := by
  refine ⟨h.depth, h.parts, h.inside, ?_⟩
  rw [Members.addNode, Members.addNode, declareNothing_append, declareNothing_append, h.nodes, hn]

end Assembly.Members.Resembles

theorem declareNothing_bodies {cs ds : List Clause}
    (h : List.Forall₂ (FollowsClause Members.Resembles) cs ds) :
    (∀ c ∈ cs, DeclareNothing c.body) ↔ ∀ d ∈ regroupClauses ds, DeclareNothing d.body := by
  induction h with
  | nil => exact Iff.rfl
  | @cons c d _ _ hclause _ ih =>
      obtain ⟨_, inner, hbody, hinner⟩ := hclause
      rw [regroupClauses, List.forall_mem_cons, List.forall_mem_cons, ih, d.body_regroup, hbody,
        hinner.declareNothing_finish]

theorem follows_resembles (P : Node → Prop) : Follows P Members.Resembles where
  empty := ⟨rfl, .nil, Iff.rfl, Iff.rfl⟩
  token hm hword := (hm.breakBefore hword).addToken hword
  group hm hinner hut hvw := by
    refine (hm.breakBefore hut).addPart (.group hut hvw) ?_
    rw [declareNothingInside_group, declareNothingInside_group]
    exact hinner.declareNothing_finish
  block hm hclauses _ := by
    refine hm.flush.addNode ?_
    rw [declareNothing_block, declareNothing_block]
    exact declareNothing_bodies hclauses

/-! ## Edited files -/

theorem isEmpty_eq_iff {t t' : SourceTree} :
    t.isEmpty = t'.isEmpty ↔ (DeclareNothing t.members ↔ DeclareNothing t'.members) := by
  rw [Bool.eq_iff_iff, t.isEmpty_iff, t'.isEmpty_iff]

/-- A second parse of a rewritten text declares what the rewritten tree declares once its items
are cut anew. -/
theorem isEmpty_of_parse_render {g : Grouping} {flag source : Text} {tree again : SourceTree}
    (h : SourceTree.parse g source = .ok tree) (hcut : CutsCleanly flag tree)
    (hagain : SourceTree.parse g (tree.resolve flag).render = .ok again) :
    again.isEmpty = (tree.resolve flag).regrouped.isEmpty ∧ ¬ (tree.resolve flag).IsBracketed := by
  have hfollows := parse_render_follows (follows_resembles _) h hcut
  split at hfollows
  · next d hd =>
    -- the two lists agree at the end on whether anything is declared
    obtain ⟨m, eof, hm, hresembles⟩ := hfollows
    obtain rfl : again = ⟨m.finish, eof⟩ := Except.ok.inj (hagain.symm.trans hm)
    refine ⟨isEmpty_eq_iff.mpr hresembles.declareNothing_finish, ?_⟩
    rw [SourceTree.IsBracketed, hd]
    exact Option.some_ne_none d
  · obtain ⟨f, _, hf⟩ := hfollows
    exact absurd (hagain.symm.trans hf) (by simp)

/-- **A tree whose items stay apart** is cut anew to what is written of it. -/
theorem SourceTree.regrouped_eq_written {t : SourceTree} (hcut : Everywhere Node.IsCut t.members)
    (hapart : t.StaysApart) (hbrackets : ¬ t.IsBracketed) : t.regrouped = t.written := by
  have hmembers := regroupNodes_of_isApart hcut hapart.2 (.finished [] []) hapart.1
    (Option.ne_none_iff_exists'.mp hbrackets)
  rw [SourceTree.regrouped, SourceTree.written]
  exact congrArg (SourceTree.mk · t.eof) hmembers

/-- **What the deletion of a file is decided on.** It is decided on the tree that the rewritten
text parses to. Where the blocks on the flag can be cut out cleanly, the answer is that of the
rewritten tree with its items cut anew; and where the items of that tree stay apart as well,
it is that of the rewritten tree, so a file in which a meaningful item is left is kept. -/
theorem deletion_of_rewritten {g : Grouping} {flag source text : Text} {isEmpty : Bool}
    (h : Edit.ofSource g flag source = .ok (.rewritten text isEmpty)) :
    ∃ tree again, SourceTree.parse g source = .ok tree ∧ text = (tree.resolve flag).render
      ∧ SourceTree.parse g text = .ok again ∧ isEmpty = again.isEmpty
      ∧ (CutsCleanly flag tree →
          isEmpty = (tree.resolve flag).regrouped.isEmpty
          ∧ ((tree.resolve flag).StaysApart →
              isEmpty = (tree.resolve flag).isEmpty
              ∧ ∀ s ∈ (tree.resolve flag).sites, s.node.IsMeaningful → isEmpty = false)) := by
  obtain ⟨tree, again, htree, rfl, hagain⟩ := Edit.exists_of_rewritten h
  obtain rfl : isEmpty = again.isEmpty := by
    -- the second parse of the edit is the one that has been found
    rw [Edit.ofSource_of_parse htree, hagain] at h
    split at h
    · cases h
      rfl
    · exact absurd h (by simp)
  refine ⟨tree, again, htree, rfl, hagain, rfl, fun hcut => ?_⟩
  obtain ⟨hanew, hbrackets⟩ := isEmpty_of_parse_render htree hcut hagain
  refine ⟨hanew, fun hapart => ?_⟩
  -- the items are whole, since they are those of a parsed tree
  have hitems : Everywhere Node.IsCut (tree.resolve flag).members := by
    obtain ⟨_, _, hassemble⟩ := exists_of_parse htree
    exact isCut_resolveNodes (isCut_of_assemble hassemble) flag
  have hsame : again.isEmpty = (tree.resolve flag).isEmpty := by
    rw [hanew, SourceTree.regrouped_eq_written hitems hapart hbrackets]
    exact isEmpty_eq_iff.mpr declareNothing_written
  refine ⟨hsame, fun s hs hmeaningful => ?_⟩
  rw [hsame, ← Bool.not_eq_true, SourceTree.isEmpty_iff]
  exact fun hnothing => hnothing s hs hmeaningful

theorem deletion_of_rewritten_members :
    ∃ source text tree,
      source = "import X\n#if A\nlet y; f()\n#endif\nenum E \x7b\n#if !A\nz\n#endif\n\x7d\n".toList
      ∧ text = "import X\nlet y; f()\nenum E \x7b\n\n\x7d\n".toList
      ∧ Edit.ofSource .sequential "A".toList source = .ok (.rewritten text false)
      ∧ SourceTree.parse .sequential source = .ok tree ∧ CutsCleanly "A".toList tree
      ∧ (tree.resolve "A".toList).StaysApart ∧ (tree.resolve "A".toList).isEmpty = false := by
  have hparse : (SourceTree.parse .sequential
      "import X\n#if A\nlet y; f()\n#endif\nenum E \x7b\n#if !A\nz\n#endif\n\x7d\n".toList
      ).toOption.any (fun tree => decide (CutsCleanly "A".toList tree
        ∧ (tree.resolve "A".toList).StaysApart)) = true := by
    decide +kernel
  have hedit : Edit.ofSource .sequential "A".toList
      "import X\n#if A\nlet y; f()\n#endif\nenum E \x7b\n#if !A\nz\n#endif\n\x7d\n".toList
      = .ok (.rewritten "import X\nlet y; f()\nenum E \x7b\n\n\x7d\n".toList false) := by
    decide +kernel
  obtain ⟨tree, htree, hshape⟩ := exists_of_parse_any hparse
  obtain ⟨hcut, hapart⟩ := of_decide_eq_true hshape
  obtain ⟨tree', _, htree', _, _, _, hdecided⟩ := deletion_of_rewritten hedit
  obtain rfl : tree = tree' := Except.ok.inj (htree.symm.trans htree')
  exact ⟨_, _, tree, rfl, rfl, hedit, htree, hcut, hapart, ((hdecided hcut).2 hapart).1.symm⟩

/-- Files that are deleted although an item of a meaningful kind is left of them. In the first
two the blocks are cut out cleanly, but an item does not end in front of the next: it waits
for an operand, or a bracket is open in it. In each of the others one thing that makes a clean
cut is missing: a line of its own for a directive, no slash behind one, no condition that is
continued behind one, and none that is not complete in front of one. -/
theorem deleted_though_declaring :
    Edit.ofSource .sequential "A".toList "x =\n#if A\nlet y = 1\n#endif\n".toList
        = .ok (.rewritten "x =\nlet y = 1\n".toList true)
      ∧ (∃ tree, SourceTree.parse .sequential "x =\n#if A\nlet y = 1\n#endif\n".toList = .ok tree
        ∧ (tree.resolve "A".toList).isEmpty = false
        ∧ ∃ s ∈ (tree.resolve "A".toList).sites, s.node.IsMeaningful)
      ∧ ∀ p ∈ [("#if A\nf(\n#endif\nlet x = 1\n)\n", "f(\nlet x = 1\n)\n"),
          ("import X #if A\nlet y = 1\n#endif\n", "import X let y = 1\n"),
          ("#if A\n/\x7blet x\x7d/\n#endif\n", "/\x7blet x\x7d/\n"),
          ("#if B\n#if A\n#endif\n&& \x7blet x\x7d\n#endif\n",
            "#if B\n\n&& \x7blet x\x7d\n#endif\n"),
          ("#if B &&\n#if A\nlet x = 1\n#endif\n#endif\n", "#if B &&\nlet x = 1\n#endif\n")],
        Edit.ofSource .sequential "A".toList p.1.toList = .ok (.rewritten p.2.toList true)
          ∧ (SourceTree.parse .sequential p.1.toList).toOption.any
            (fun tree => !(tree.resolve "A".toList).isEmpty) = true := by
  have hparse : (SourceTree.parse .sequential
      "x =\n#if A\nlet y = 1\n#endif\n".toList).toOption.any
        (fun tree => decide ((tree.resolve "A".toList).isEmpty = false
          ∧ ∃ s ∈ (tree.resolve "A".toList).sites, s.node.IsMeaningful)) = true := by
    decide +kernel
  obtain ⟨tree, htree, hshape⟩ := exists_of_parse_any hparse
  refine ⟨by decide +kernel, ⟨tree, htree, of_decide_eq_true hshape⟩, ?_⟩
  decide +kernel

end Unflag
