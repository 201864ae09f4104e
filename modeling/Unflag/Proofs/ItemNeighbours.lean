/-
Items that stay apart.

A tree whose items are whole can still fall together differently when it is cut anew, for an
item may have a neighbour now in front of which it does not end. That is the only way. If every
item ends in front of the next one in its list (`StaysApart`) and no block stands inside
brackets, then cutting the items anew gives back the tree, less its placeholders
(`regrouped_eq_written`). Placeholders are not neighbours: the assembly never sees them.

The run over a list keeps one of two shapes (`Holds`): the last item has been finished, or it
is in hand, with the brackets it leaves open and without a semicolon at its end.
-/
import Unflag.Proofs.ItemBounds

set_option autoImplicit false

namespace Unflag

open Assembly Item

/-! ## What is written of a tree -/

mutual

/-- What is written of a node: all of it, but for placeholders. -/
def Node.written : Node → List Node
  | .item kind parts => [.item kind (writtenParts parts)]
  | .block clauses ending => [.block (writtenClauses clauses) ending]
  | .placeholder _ => []

/-- What is written of a part. -/
def Part.written : Part → Part
  | .token t => .token t
  | .group opening members closing => .group opening (writtenNodes members) closing

/-- What is written of a clause. -/
def Clause.written : Clause → Clause
  | .mk h body => .mk h (writtenNodes body)

/-- What is written of a member list. -/
def writtenNodes : List Node → List Node
  | [] => []
  | n :: r => n.written ++ writtenNodes r

/-- What is written of the parts of an item. -/
def writtenParts : List Part → List Part
  | [] => []
  | p :: r => p.written :: writtenParts r

/-- What is written of the clauses of a block. -/
def writtenClauses : List Clause → List Clause
  | [] => []
  | c :: r => c.written :: writtenClauses r

end

/-- A tree without its placeholders. -/
def SourceTree.written (t : SourceTree) : SourceTree := { t with members := writtenNodes t.members }

theorem writtenParts_eq (ps : List Part) : writtenParts ps = ps.map Part.written := by
  induction ps with
  | nil => rfl
  | cons p r ih => rw [writtenParts, ih, List.map_cons]

theorem writtenClauses_eq (cs : List Clause) : writtenClauses cs = cs.map Clause.written := by
  induction cs with
  | nil => rfl
  | cons c r ih => rw [writtenClauses, ih, List.map_cons]

theorem sameWords_writtenParts (parts : List Part) : SameWords parts (writtenParts parts) := by
  rw [writtenParts_eq]
  refine sameWords_map (fun p => ?_) parts
  cases p with
  | token t => exact .token rfl
  | group opening members closing => exact .group rfl rfl

/-! ## Neighbours -/

/-- A node that has tokens in the source. -/
def Node.isWritten : Node → Bool
  | .placeholder _ => false
  | _ => true

/-- Of two nodes in a row: an item ends in front of the item behind it. -/
def EndsInFrontOf : Node → Node → Prop
  | .item _ parts, .item _ (p :: _) => endsBefore parts p.firstToken = true
  | _, _ => True

/-- A member list in which every item ends in front of the next one. -/
def IsApart (ns : List Node) : Prop := (ns.filter Node.isWritten).IsChain EndsInFrontOf

/-- The same of the member list between the braces of a part. -/
def Part.IsApart : Part → Prop
  | .token _ => True
  | .group _ members _ => Unflag.IsApart members

/-- The same of the member lists directly below a node. -/
def Node.IsApartBelow : Node → Prop
  | .item _ parts => ∀ p ∈ parts, p.IsApart
  | .block cs _ => ∀ c ∈ cs, IsApart c.body
  | .placeholder _ => True

/-- A tree in which, at any depth, every item ends in front of the next one. -/
def SourceTree.StaysApart (t : SourceTree) : Prop :=
  IsApart t.members ∧ Everywhere Node.IsApartBelow t.members

instance (n n' : Node) : Decidable (EndsInFrontOf n n') :=
  match n, n' with
  | .item _ parts, .item _ (p :: _) =>
    inferInstanceAs (Decidable (endsBefore parts p.firstToken = true))
  | .item _ _, .item _ [] => inferInstanceAs (Decidable True)
  | .item _ _, .block _ _ => inferInstanceAs (Decidable True)
  | .item _ _, .placeholder _ => inferInstanceAs (Decidable True)
  | .block _ _, _ => inferInstanceAs (Decidable True)
  | .placeholder _, _ => inferInstanceAs (Decidable True)

instance (ns : List Node) : Decidable (IsApart ns) :=
  inferInstanceAs (Decidable (List.IsChain EndsInFrontOf _))

instance (p : Part) : Decidable p.IsApart :=
  match p with
  | .token _ => inferInstanceAs (Decidable True)
  | .group _ members _ => inferInstanceAs (Decidable (IsApart members))

instance (n : Node) : Decidable n.IsApartBelow :=
  match n with
  | .item _ parts => inferInstanceAs (Decidable (∀ p ∈ parts, p.IsApart))
  | .block cs _ => inferInstanceAs (Decidable (∀ c ∈ cs, IsApart c.body))
  | .placeholder _ => inferInstanceAs (Decidable True)

instance (t : SourceTree) : Decidable t.StaysApart := inferInstanceAs (Decidable (_ ∧ _))

/-! ## Brackets -/

/-- The brackets behind the parts of an item are those of its tokens, and no block in its
groups stands inside brackets. -/
theorem brackets_of_parts {depth d : Nat} {parts : List Part}
    (h : bracketsOfParts? depth parts = some d) :
    d = parts.foldl Part.openAfter depth
      ∧ ∀ opening members closing, Part.group opening members closing ∈ parts →
        ∃ e, bracketsOfNodes? 0 members = some e := by
  induction parts generalizing depth with
  | nil =>
      cases h
      exact ⟨rfl, fun _ _ _ hgroup => absurd hgroup List.not_mem_nil⟩
  | cons p r ih =>
      rw [bracketsOfParts?] at h
      obtain ⟨e, hp, hr⟩ := Option.bind_eq_some_iff.mp h
      obtain ⟨hd, hgroups⟩ := ih hr
      cases p with
      | token t =>
          cases hp
          refine ⟨hd, fun opening members closing hgroup => ?_⟩
          exact hgroups opening members closing (by simpa using hgroup)
      | group o ms c =>
          obtain ⟨f, hf, rfl⟩ := Option.map_eq_some_iff.mp hp
          refine ⟨hd, fun opening members closing hgroup => ?_⟩
          rcases List.mem_cons.mp hgroup with hgroup | hgroup
          · cases hgroup
            exact ⟨f, hf⟩
          · exact hgroups opening members closing hgroup

theorem brackets_of_clauses {d : Nat} {cs : List Clause} (h : bracketsOfClauses? cs = some d) :
    d = 0 ∧ ∀ c ∈ cs, ∃ e, bracketsOfNodes? 0 c.body = some e := by
  induction cs with
  | nil =>
      cases h
      exact ⟨rfl, fun _ hc => absurd hc List.not_mem_nil⟩
  | cons c r ih =>
      rw [bracketsOfClauses?] at h
      obtain ⟨e, hc, hr⟩ := Option.bind_eq_some_iff.mp h
      obtain ⟨hd, hrest⟩ := ih hr
      exact ⟨hd, List.forall_mem_cons.mpr ⟨⟨e, by cases c; exact hc⟩, hrest⟩⟩

/-! ## A whole item -/

theorem regroupParts_append_singleton (m : Members) (parts : List Part) (p : Part) :
    regroupParts m (parts ++ [p]) = p.regroup (regroupParts m parts) := by
  induction parts generalizing m with
  | nil => rfl
  | cons q r ih => exact ih _

/-- **A whole item is taken in as it is.** -/
theorem regroupParts_of_isWhole {parts : List Part} (hwhole : IsWhole parts)
    (hgroups : ∀ opening members closing, Part.group opening members closing ∈ parts →
      (regroupNodes .empty members).finish = writtenNodes members) (nodes : List Node) :
    regroupParts ⟨nodes, [], 0⟩ parts
      = if isFinished parts then ⟨nodes ++ [.item (classify parts) (writtenParts parts)], [], 0⟩
        else ⟨nodes, writtenParts parts, openBrackets parts⟩ := by
  -- on the parts from the end, since a part joins those in front of it
  induction parts using List.reverseRecOn with
  | nil => rfl
  | append_singleton ps p ih =>
      obtain ⟨hps, hlast⟩ := isWhole_append_singleton.mp hwhole
      have hsame := sameWords_writtenParts ps
      -- the item has not been finished in front of its last part
      have hgoes : isFinished ps = false := (Bool.or_eq_false_iff.mp hlast).1
      rw [regroupParts_append_singleton, ih hps fun opening members closing hgroup =>
        hgroups opening members closing (List.mem_append_left _ hgroup), if_neg (by simp [hgoes])]
      have hkeeps : ∀ t, endsBefore ps t = false →
          (⟨nodes, writtenParts ps, openBrackets ps⟩ : Members).breakBefore t
            = ⟨nodes, writtenParts ps, openBrackets ps⟩ := by
        intro t ht
        have hjoins := (Bool.or_eq_false_iff.mp ht).2
        rw [Members.breakBefore, Bool.and_assoc, ← startsNewItem_congr (.of_sameWords hsame) rfl,
          hjoins, Bool.and_false, if_neg Bool.false_ne_true]
      have hwritten : writtenParts (ps ++ [p]) = writtenParts ps ++ [p.written] := by
        rw [writtenParts_eq, writtenParts_eq, List.map_append]
        rfl
      have hkind : classify (ps ++ [p]) = classify (writtenParts ps ++ [p.written]) :=
        hwritten ▸ classify_congr (.of_sameWords (sameWords_writtenParts (ps ++ [p])))
      cases p with
      | token t =>
          rw [Part.regroup, hkeeps t hlast, Members.addToken_eq, isFinished_token, hwritten, hkind,
            openBrackets_append_singleton]
          split
          · next hends =>
            have hopen : openBrackets ps = 0 := by simpa using (Bool.and_eq_true_iff.mp hends).2
            simp [Members.flush, Members.addPart, Part.written, hopen]
          · rfl
      | group opening members closing =>
          rw [Part.regroup, hkeeps opening hlast, hgroups opening members closing (by simp),
            isFinished_group, if_neg Bool.false_ne_true, openBrackets_append_singleton, hwritten]
          rfl

/-! ## A list of items that stay apart -/

/-- What a list that is being filled may look like behind `front`, the item it has come from:
that item is finished, or it is in hand. -/
inductive Holds : List Node → Members → Prop
  | finished (front nodes : List Node) : Holds front ⟨nodes, [], 0⟩
  | inHand (kind : ItemKind) (nodes : List Node) {parts parts' : List Part}
      (hsame : SameWords parts parts') (hgoes : isFinished parts = false) :
      Holds [.item kind parts] ⟨nodes, parts', openBrackets parts⟩

theorem IsApart.right {ms ns : List Node} (h : IsApart (ms ++ ns)) : IsApart ns := by
  rw [IsApart, List.filter_append] at h
  exact h.right_of_append

theorem isApart_placeholder {ms ns : List Node} {t : Token} :
    IsApart (ms ++ .placeholder t :: ns) ↔ IsApart (ms ++ ns) := by
  rw [IsApart, IsApart, List.filter_append, List.filter_append,
    List.filter_cons_of_neg (by simp [Node.isWritten])]

theorem endsBefore_of_isApart {kind kind' : ItemKind} {parts r : List Part} {p : Part}
    {ns : List Node} (h : IsApart (.item kind parts :: .item kind' (p :: r) :: ns)) :
    endsBefore parts p.firstToken = true := by
  rw [IsApart, List.filter_cons_of_pos rfl, List.filter_cons_of_pos rfl,
    List.isChain_cons_cons] at h
  exact h.1

/-- **An item begins behind a finished one.** -/
theorem Holds.breakBefore {front rest : List Node} {m : Members} {kind : ItemKind} {p : Part}
    {r : List Part} (h : Holds front m) (hapart : IsApart (front ++ .item kind (p :: r) :: rest)) :
    m.breakBefore p.firstToken = ⟨m.finish, [], 0⟩ := by
  cases h with
  | finished front nodes => rfl
  | @inHand _ nodes parts parts' hsame hgoes =>
      have hends : endsBefore parts p.firstToken = true := endsBefore_of_isApart hapart
      -- no semicolon has ended it, so it is the token that starts another item
      rw [endsBefore, hgoes, Bool.false_or, Bool.and_eq_true, beq_iff_eq] at hends
      obtain ⟨hopen, hstarts⟩ := hends
      have hparts : parts'.isEmpty = false := by
        cases hsame with
        | nil => exact absurd hstarts (by simp [startsNewItem_nil])
        | cons _ _ => rfl
      have hstarts' : startsNewItem parts' p.firstToken = true :=
        (startsNewItem_congr (.of_sameWords hsame) rfl).symm.trans hstarts
      rw [Members.breakBefore, if_pos (by simp [hparts, hopen, hstarts']), Members.flush_eq, hopen]

/-- Behind a finished list, an item is taken in as it is. -/
theorem holds_regroupParts {kind : ItemKind} {parts : List Part}
    (hcut : (Node.item kind parts).IsCut)
    (hgroups : ∀ opening members closing, Part.group opening members closing ∈ parts →
      (regroupNodes .empty members).finish = writtenNodes members) (nodes : List Node) :
    Holds [.item kind parts] (regroupParts ⟨nodes, [], 0⟩ parts)
      ∧ (regroupParts ⟨nodes, [], 0⟩ parts).finish = nodes ++ [.item kind (writtenParts parts)]
      ∧ (regroupParts ⟨nodes, [], 0⟩ parts).depth = openBrackets parts := by
  obtain ⟨rfl, hne, hwhole⟩ := hcut
  have hsame := sameWords_writtenParts parts
  rw [regroupParts_of_isWhole hwhole hgroups]
  split
  · next hfinished =>
    rw [isFinished, Bool.and_eq_true, beq_iff_eq] at hfinished
    exact ⟨.finished _ _, rfl, hfinished.1.symm⟩
  · next hgoes =>
    refine ⟨.inHand _ _ hsame (by simpa using hgoes), ?_, rfl⟩
    have hparts : (writtenParts parts).isEmpty = false := by
      cases parts with
      | nil => exact absurd rfl hne
      | cons _ _ => rfl
    simp [Members.finish, Members.flush, hparts, classify_congr (.of_sameWords hsame)]

/-- A list that is finished in front of an item takes it in as a finished one. -/
theorem regroupParts_of_breakBefore {m : Members} {p : Part} {nodes : List Node}
    (h : m.breakBefore p.firstToken = ⟨nodes, [], 0⟩) (r : List Part) :
    regroupParts m (p :: r) = regroupParts ⟨nodes, [], 0⟩ (p :: r) := by
  have hfirst : p.regroup m = p.regroup ⟨nodes, [], 0⟩ := by
    cases p with
    | token t => exact congrArg (fun l => Members.addToken l t) h
    | group opening members closing =>
        exact congrArg (fun l => Members.addPart l _) h
  rw [regroupParts, hfirst, regroupParts]

/-- **Items that stay apart stay.** Cutting them anew gives the same list, without its
placeholders. -/
theorem regroupNodes_of_isApart {ns : List Node} (hcut : Everywhere Node.IsCut ns)
    (hbelow : Everywhere Node.IsApartBelow ns) {front : List Node} {m : Members}
    (hholds : Holds front m) (hapart : IsApart (front ++ ns))
    (hbrackets : ∃ d, bracketsOfNodes? m.depth ns = some d) :
    (regroupNodes m ns).finish = m.finish ++ writtenNodes ns := by
  induction ns using memberInduction generalizing front m with
  | nil => exact (List.append_nil _).symm
  | item kind parts rest ihGroups ihRest =>
      obtain ⟨hfirst, hrest⟩ := everywhere_cons.mp hcut
      obtain ⟨hbelowFirst, hbelowRest⟩ := everywhere_cons.mp hbelow
      obtain ⟨⟨hkind, hne, hwhole⟩, hcutGroups⟩ := everywhere_item.mp hfirst
      obtain ⟨hapartGroups, hbelowGroups⟩ := everywhere_item.mp hbelowFirst
      obtain ⟨d, hd⟩ := hbrackets
      obtain ⟨e, hitem, he⟩ := Option.bind_eq_some_iff.mp hd
      obtain ⟨hopen, hinner⟩ := brackets_of_parts hitem
      have hgroups : ∀ opening members closing, Part.group opening members closing ∈ parts →
          (regroupNodes .empty members).finish = writtenNodes members := by
        intro opening members closing hgroup
        exact ihGroups opening members closing hgroup (hcutGroups opening members closing hgroup)
          (hbelowGroups opening members closing hgroup) (.finished [] [])
          (hapartGroups _ hgroup) (hinner opening members closing hgroup)
      -- whatever the item is behind of is finished, and no bracket is open there
      obtain ⟨p, r, rfl⟩ := List.exists_cons_of_ne_nil hne
      have hbreak := hholds.breakBefore hapart
      have hdepth : m.depth = 0 := by rw [← m.depth_breakBefore p.firstToken, hbreak]
      obtain ⟨hholds', hfinish, hdepth'⟩ :=
        holds_regroupParts ⟨hkind, hne, hwhole⟩ hgroups m.finish
      rw [regroupNodes, Node.regroup, regroupParts_of_breakBefore hbreak,
        ihRest hrest hbelowRest hholds' hapart.right ⟨d, ?_⟩, hfinish, writtenNodes, Node.written,
        List.append_assoc]
      rw [hdepth', openBrackets, ← hdepth, ← hopen]
      exact he
  | block cs ending rest ihBodies ihRest =>
      obtain ⟨hfirst, hrest⟩ := everywhere_cons.mp hcut
      obtain ⟨hbelowFirst, hbelowRest⟩ := everywhere_cons.mp hbelow
      obtain ⟨_, hcutBodies⟩ := everywhere_block.mp hfirst
      obtain ⟨hapartBodies, hbelowBodies⟩ := everywhere_block.mp hbelowFirst
      obtain ⟨d, hd⟩ := hbrackets
      obtain ⟨e, hblock, he⟩ := Option.bind_eq_some_iff.mp hd
      obtain ⟨hdepth, hclauses⟩ := Option.ite_none_right_eq_some.mp hblock
      obtain ⟨rfl, hinner⟩ := brackets_of_clauses hclauses
      have hbodies : regroupClauses cs = writtenClauses cs := by
        rw [regroupClauses_eq, writtenClauses_eq]
        refine List.map_congr_left fun c hc => ?_
        have hbody := ihBodies c hc (hcutBodies c hc) (hbelowBodies c hc) (.finished [] [])
          (hapartBodies c hc) (hinner c hc)
        obtain ⟨head, body⟩ := c
        exact congrArg (Clause.mk head) hbody
      -- a block finishes what is in front of it, and what is behind it starts afresh
      have hblocks : IsApart ([.block cs ending] ++ rest) := hapart.right
      have hbehind := ihRest hrest hbelowRest
        (.finished [] (m.finish ++ [.block (writtenClauses cs) ending])) hblocks.right ⟨d, he⟩
      rw [regroupNodes, Node.regroup, m.flush_eq, hdepth, hbodies]
      refine hbehind.trans ?_
      rw [writtenNodes, Node.written]
      exact List.append_assoc _ _ _
  | placeholder t rest ihRest =>
      exact ihRest (everywhere_cons.mp hcut).2 (everywhere_cons.mp hbelow).2 hholds
        (isApart_placeholder.mp hapart) hbrackets

end Unflag
