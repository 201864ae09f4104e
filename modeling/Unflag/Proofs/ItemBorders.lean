/-
Borders between items.

Where an item ends is decided while its list is being filled, from the brackets that are open
in the list so far and from the token that is next. Here it is said of the finished lists of a
tree, with nothing but the tree in sight (`HasBorders`): two items in a row have a semicolon or
a line end between them, what follows an item stands outside brackets, a semicolon outside
brackets ends its item, and attributes and modifiers alone are no item in front of another.

All of it follows from two facts. Inside, an item ends nowhere before its last part; that is
`Node.IsCut`. Between two nodes, the first has ended where the second begins (`Borders`); this
is the invariant of the assembly that is proved here. In between the list may be waiting for a
token that has been seen but not added (`Members.Takes`).
-/
import Unflag.Proofs.ItemBounds

set_option autoImplicit false

namespace Unflag

open Assembly Item

/-! ## Every member list -/

/-- The member list between the braces of a part. -/
def Part.lists : Part → List (List Node)
  | .token _ => []
  | .group _ members _ => [members]

/-- The member lists directly below a node. -/
def Node.lists : Node → List (List Node)
  | .item _ parts => parts.flatMap Part.lists
  | .block clauses _ => clauses.map Clause.body
  | .placeholder _ => []

/-- Every member list of a tree: the top level and, at any depth, what is between the braces of
an item and the bodies of the clauses of a block. -/
def SourceTree.lists (t : SourceTree) : List (List Node) :=
  t.members :: t.sites.flatMap fun s => s.node.lists

/-- The parts of a node that is an item. -/
def Node.itemParts : Node → List Part
  | .item _ parts => parts
  | .block _ _ => []
  | .placeholder _ => []

/-- The parts of the items of a list, one item after the other. What stands inside braces or
inside a block is not among them. -/
def directParts (ns : List Node) : List Part := ns.flatMap Node.itemParts

/-! ## Borders -/

/-- The borders of the items of a member list. Brackets are counted along the whole list. -/
structure HasBorders (ns : List Node) : Prop where
  /-- Of two items in a row the first ends in a semicolon or the second starts a line. -/
  between : ∀ before kind ps kind' qs after,
    ns = before ++ .item kind ps :: .item kind' qs :: after →
      endsInSemicolon ps = true ∨ ∃ q ∈ qs.head?, q.firstToken.startsLine = true
  /-- An item that is followed by anything has closed its brackets. -/
  closed : ∀ before kind ps n after, ns = before ++ .item kind ps :: n :: after →
    openBrackets (directParts (before ++ [.item kind ps])) = 0
  /-- A semicolon outside brackets is the last part of its item. -/
  semicolon : ∀ before kind ps t qs after,
    ns = before ++ .item kind (ps ++ .token t :: qs) :: after →
      t.is .punctuation ";" = true → openBrackets (directParts before ++ ps) = 0 → qs = []
  /-- Attributes and modifiers without a semicolon wait for what they belong to. -/
  waiting : ∀ before kind ps kind' qs after,
    ns = before ++ .item kind ps :: .item kind' qs :: after →
      endsInSemicolon ps = false → afterModifiers ps ≠ []

/-- An item ends where the node behind it begins. -/
def Borders (n next : Node) : Prop :=
  ∀ kind ps, n = .item kind ps →
    openBrackets ps = 0 ∧ ∀ q ∈ next.itemParts.head?, endsBefore ps q.firstToken = true

theorem openBrackets_append {ps : List Part} (h : openBrackets ps = 0) (qs : List Part) :
    openBrackets (ps ++ qs) = openBrackets qs := by
  rw [openBrackets, List.foldl_append]
  exact congrArg (qs.foldl Part.openAfter) h

theorem openBrackets_of_endsBefore {ps : List Part} {t : Token} (h : endsBefore ps t = true) :
    openBrackets ps = 0 := by
  rcases Bool.or_eq_true_iff.mp h with h | h
  · exact beq_iff_eq.mp (Bool.and_eq_true_iff.mp h).1
  · exact beq_iff_eq.mp (Bool.and_eq_true_iff.mp h).1

theorem endsBefore_of_isFinished {ps : List Part} (h : isFinished ps = true) (t : Token) :
    endsBefore ps t = true := by
  rw [endsBefore, h, Bool.true_or]

/-- Where an item ends without a semicolon, the next one starts. -/
theorem startsNewItem_of_endsBefore {ps : List Part} {t : Token} (h : endsBefore ps t = true)
    (hsemicolon : endsInSemicolon ps = false) : startsNewItem ps t = true := by
  rw [endsBefore, isFinished, hsemicolon, Bool.and_false, Bool.false_or] at h
  exact (Bool.and_eq_true_iff.mp h).2

/-- What starts a new item starts a line, behind more than attributes and modifiers. -/
theorem of_startsNewItem {ps : List Part} {t : Token} (h : startsNewItem ps t = true) :
    t.startsLine = true ∧ afterModifiers ps ≠ [] := by
  simp only [startsNewItem, Bool.and_eq_true, Bool.not_eq_true'] at h
  obtain ⟨⟨⟨⟨⟨⟨hline, hmore⟩, _⟩, _⟩, _⟩, _⟩, _⟩ := h
  exact ⟨hline, fun hnil => by simp [hnil] at hmore⟩

/-- **Outside brackets at every border.** In front of each node of a list with borders all the
brackets of the list are closed. -/
theorem openBrackets_directParts {ns : List Node} (h : ns.IsChain Borders) {before : List Node}
    {n : Node} {after : List Node} (hsplit : ns = before ++ n :: after) :
    openBrackets (directParts before) = 0 := by
  induction before using List.reverseRecOn generalizing n after with
  | nil => rfl
  | append_singleton b x ih =>
      rw [List.append_assoc, List.singleton_append] at hsplit
      have hparts : directParts (b ++ [x]) = directParts b ++ x.itemParts := by
        simp [directParts]
      have hborder : Borders x n :=
        (List.isChain_iff_forall_rel_of_append_cons_cons.mp h) hsplit
      rw [hparts, openBrackets_append (ih hsplit)]
      cases x with
      | item kind ps => exact (hborder kind ps rfl).1
      | block cs ending => rfl
      | placeholder t => rfl

/-- **Whole items that end where the next begins have borders.** -/
theorem hasBorders_of_isChain {ns : List Node} (hchain : ns.IsChain Borders)
    (hcut : ∀ n ∈ ns, n.IsCut) : HasBorders ns := by
  have hborder : ∀ {before n next after}, ns = before ++ n :: next :: after → Borders n next :=
    fun hsplit => (List.isChain_iff_forall_rel_of_append_cons_cons.mp hchain) hsplit
  -- the item behind a border has a first part, and there the item in front has ended
  have hends : ∀ {before kind ps kind' qs after},
      ns = before ++ .item kind ps :: .item kind' qs :: after →
        ∃ q ∈ qs.head?, endsBefore ps q.firstToken = true := by
    intro before kind ps kind' qs after hsplit
    have hnext : (Node.item kind' qs).IsCut := hcut _ (by simp [hsplit])
    obtain ⟨q, r, rfl⟩ := List.exists_cons_of_ne_nil hnext.2.1
    exact ⟨q, rfl, (hborder hsplit kind ps rfl).2 q rfl⟩
  refine ⟨?_, ?_, ?_, ?_⟩
  · intro before kind ps kind' qs after hsplit
    obtain ⟨q, hq, hends⟩ := hends hsplit
    by_cases hsemicolon : endsInSemicolon ps = true
    · exact .inl hsemicolon
    · have hstarts := startsNewItem_of_endsBefore hends (by simpa using hsemicolon)
      exact .inr ⟨q, hq, (of_startsNewItem hstarts).1⟩
  · intro before kind ps n after hsplit
    have hbefore := openBrackets_directParts hchain hsplit
    have hparts : directParts (before ++ [.item kind ps]) = directParts before ++ ps := by
      simp [directParts, Node.itemParts]
    rw [hparts, openBrackets_append hbefore]
    exact (hborder hsplit kind ps rfl).1
  · intro before kind ps t qs after hsplit hsemicolon hdepth
    rw [openBrackets_append (openBrackets_directParts hchain hsplit)] at hdepth
    have hitem : (Node.item kind (ps ++ .token t :: qs)).IsCut := hcut _ (by simp [hsplit])
    cases qs with
    | nil => rfl
    | cons q r =>
        -- the semicolon has finished the item, which therefore does not go on
        have hgoes := hitem.2.2 (ps ++ [.token t]) q r (by simp)
        have hfinished : isFinished (ps ++ [.token t]) = true := by
          rw [isFinished_token, hsemicolon, hdepth]
          rfl
        rw [endsBefore_of_isFinished hfinished] at hgoes
        exact absurd hgoes (by simp)
  · intro before kind ps kind' qs after hsplit hsemicolon
    obtain ⟨q, _, hends⟩ := hends hsplit
    exact (of_startsNewItem (startsNewItem_of_endsBefore hends hsemicolon)).2

/-! ## Lists that are being filled -/

namespace Assembly

namespace Members

variable {m : Members}

/-- The list may go on with a token: behind a finished item, the item ends in front of it. -/
def Takes (m : Members) (t : Token) : Prop :=
  m.parts = [] → ∀ kind ps, Node.item kind ps ∈ m.nodes.getLast? → endsBefore ps t = true

/-- The borders in a list that is being filled, the item in hand included. If there is none in
hand, the last one has been finished by a semicolon. -/
structure IsBordered (m : Members) : Prop where
  chain : m.finish.IsChain Borders
  settled : m.parts = [] → ∀ kind ps, Node.item kind ps ∈ m.nodes.getLast? → isFinished ps = true

theorem finish_of_nil (h : m.parts = []) : m.finish = m.nodes := by
  unfold Members.finish Members.flush
  rw [h]
  rfl

theorem finish_of_ne_nil (h : m.parts ≠ []) :
    m.finish = m.nodes ++ [.item (classify m.parts) m.parts] := by
  unfold Members.finish Members.flush
  rw [if_neg (by simpa using h)]

theorem finish_addPart (m : Members) (p : Part) :
    (m.addPart p).finish
      = m.nodes ++ [.item (classify (m.parts ++ [p])) (m.parts ++ [p])] :=
  finish_of_ne_nil (by simp [Members.addPart])

/-- How deep the list is in brackets is not part of what it becomes. -/
theorem finish_depth (m : Members) (d : Nat) : Members.finish { m with depth := d } = m.finish := by
  unfold Members.finish Members.flush
  split <;> rfl

@[simp] theorem finish_flush (m : Members) : m.flush.finish = m.finish := by
  rw [m.flush_eq]
  rfl

theorem isChain_append_item {ns : List Node} {kind : ItemKind} {ps : List Part} :
    (ns ++ [Node.item kind ps]).IsChain Borders
      ↔ ns.IsChain Borders ∧ ∀ n ∈ ns.getLast?, Borders n (.item kind ps) := by
  rw [List.isChain_append]
  simp

theorem isBordered_empty : Members.empty.IsBordered :=
  ⟨.nil, fun _ _ _ h => absurd h (by simp [Members.empty])⟩

/-- A part that the list takes joins the item in hand, or begins one behind a border. -/
theorem isChain_addPart (hchain : m.finish.IsChain Borders) {p : Part}
    (htakes : m.Takes p.firstToken) : (m.addPart p).finish.IsChain Borders := by
  rw [finish_addPart, isChain_append_item]
  by_cases hparts : m.parts = []
  · rw [finish_of_nil hparts] at hchain
    refine ⟨hchain, ?_⟩
    rintro n hn kind ps rfl
    have hends := htakes hparts kind ps hn
    refine ⟨openBrackets_of_endsBefore hends, fun q hq => ?_⟩
    obtain rfl : p = q := by simpa [Node.itemParts, hparts] using hq
    exact hends
  · -- the border in front of the item in hand is told by its first part, which stays
    rw [finish_of_ne_nil hparts, isChain_append_item] at hchain
    refine ⟨hchain.1, ?_⟩
    rintro n hn kind ps rfl
    obtain ⟨hopen, hends⟩ := hchain.2 _ hn kind ps rfl
    refine ⟨hopen, fun q hq => hends q ?_⟩
    obtain ⟨q', r, hcons⟩ := List.exists_cons_of_ne_nil hparts
    simpa [Node.itemParts, hcons] using hq

/-- Behind the break the list takes the token. -/
theorem IsBordered.breakBefore (h : m.IsBordered) (hcut : m.IsCut) (t : Token) :
    (m.breakBefore t).finish.IsChain Borders ∧ (m.breakBefore t).Takes t := by
  rw [hcut.breakBefore_eq]
  split
  · next hends =>
    have hparts : m.parts ≠ [] := fun hnil => by simp [hnil, endsBefore_nil] at hends
    refine ⟨by rw [finish_flush]; exact h.chain, fun _ kind ps hlast => ?_⟩
    rw [m.flush_eq, finish_of_ne_nil hparts, List.getLast?_concat] at hlast
    cases hlast
    exact hends
  · refine ⟨h.chain, fun hparts kind ps hlast => ?_⟩
    exact endsBefore_of_isFinished (h.settled hparts kind ps hlast) t

theorem isBordered_addGroup (hchain : m.finish.IsChain Borders) {opening : Token}
    (htakes : m.Takes opening) (members : List Node) (closing : Token) :
    (m.addPart (.group opening members closing)).IsBordered :=
  ⟨isChain_addPart hchain htakes, fun hnil => absurd hnil (by simp [Members.addPart])⟩

theorem isBordered_addToken (hcut : m.IsCut) (hchain : m.finish.IsChain Borders) {t : Token}
    (htakes : m.Takes t) : (m.addToken t).IsBordered := by
  have hadded : (m.addPart (.token t)).finish.IsChain Borders := isChain_addPart hchain htakes
  rw [addToken_eq]
  split
  · next hends =>
    refine ⟨by rwa [finish_flush], fun _ kind ps hlast => ?_⟩
    rw [flush_eq, finish_addPart, List.getLast?_concat] at hlast
    cases hlast
    rwa [isFinished_token, ← hcut.depth]
  · exact ⟨by rwa [finish_depth], fun hnil => absurd hnil (by simp [Members.addPart])⟩

end Members

/-- Something holds of the member lists directly below a node. -/
def Below (P : List Node → Prop) (n : Node) : Prop := ∀ ns ∈ n.lists, P ns

theorem below_token (P : List Node → Prop) (t : Token) : Joins (Below P) (.token t) := by
  intro kind parts h ns hns
  have hlists : (Node.item kind (parts ++ [.token t])).lists = (Node.item kind parts).lists := by
    simp [Node.lists, Part.lists]
  rw [hlists] at hns
  rcases h with rfl | h
  · exact absurd hns List.not_mem_nil
  · exact h ns hns

theorem below_group {P : List Node → Prop} {members : List Node} (h : P members)
    (opening closing : Token) : Joins (Below P) (.group opening members closing) := by
  intro kind parts hparts ns hns
  have hlists : (Node.item kind (parts ++ [.group opening members closing])).lists
      = (Node.item kind parts).lists ++ [members] := by
    simp [Node.lists, Part.lists]
  rw [hlists] at hns
  rcases List.mem_append.mp hns with hns | hns
  · rcases hparts with rfl | hitem
    · exact absurd hns List.not_mem_nil
    · exact hitem ns hns
  · rwa [List.mem_singleton.mp hns]

/-- The list a block stands in, which may go on with the block, and the bodies read so far. -/
structure OpenBlock.IsBordered (b : OpenBlock) : Prop where
  chain : b.outer.nodes.IsChain Borders
  settled : b.outer.parts = []
  closed : ∀ kind ps, Node.item kind ps ∈ b.outer.nodes.getLast? → openBrackets ps = 0
  outer : b.outer.Every (Below HasBorders)
  bodies : ∀ c ∈ b.clauses, HasBorders c.body ∧ Everywhere (Below HasBorders) c.body

/-- What the list in hand stands in. The brace of a group has been taken by the list around. -/
def Frame.IsBordered : Frame → Prop
  | .group outer opening =>
    outer.finish.IsChain Borders ∧ outer.Takes opening ∧ outer.Every (Below HasBorders)
  | .clause block _ => block.IsBordered

/-- The invariant of the assembly: every item ends where the next node begins. -/
def State.IsBordered : State → Prop
  | .listing stack m =>
    (∀ f ∈ stack, f.IsBordered) ∧ m.IsBordered ∧ m.Every (Below HasBorders)
  | .heading stack block _ _ _ _ => (∀ f ∈ stack, f.IsBordered) ∧ block.IsBordered

/-- A finished list has borders. -/
theorem Members.IsBordered.hasBorders {m : Members} (h : m.IsBordered) (hcut : m.IsCut) :
    HasBorders m.finish := hasBorders_of_isChain h.chain hcut.finish.of_mem

/-- The clause in hand is finished. -/
theorem OpenBlock.IsBordered.addClause {b : OpenBlock} (h : b.IsBordered) {m : Members}
    (hm : m.IsBordered) (hcut : m.IsCut) (hevery : m.Every (Below HasBorders))
    (head : ClauseHead) :
    OpenBlock.IsBordered { b with clauses := b.clauses ++ [.mk head m.finish] } :=
  ⟨h.chain, h.settled, h.closed, h.outer, List.forall_mem_append.mpr
    ⟨h.bodies, List.forall_mem_singleton.mpr ⟨hm.hasBorders hcut, hevery.finish⟩⟩⟩

/-- The block is finished, and the list around it goes on behind it. -/
theorem OpenBlock.IsBordered.addNode {b : OpenBlock} (h : b.IsBordered) (ending : Token) :
    (b.outer.addNode (.block b.clauses ending)).IsBordered
      ∧ (b.outer.addNode (.block b.clauses ending)).Every (Below HasBorders) := by
  refine ⟨⟨?_, fun _ kind ps hlast => ?_⟩, h.outer.addNode (everywhere_block.mpr ⟨?_, ?_⟩)⟩
  · have hnodes : (b.outer.addNode (.block b.clauses ending)).finish
        = b.outer.nodes ++ [.block b.clauses ending] :=
      Members.finish_of_nil (m := b.outer.addNode (.block b.clauses ending)) h.settled
    rw [hnodes, List.isChain_append]
    refine ⟨h.chain, .singleton _, ?_⟩
    rintro n hn next hnext kind ps rfl
    refine ⟨h.closed kind ps hn, fun q hq => ?_⟩
    cases hnext
    exact absurd hq (by simp [Node.itemParts])
  · exact absurd hlast (by simp [Members.addNode])
  · intro ns hns
    obtain ⟨c, hc, rfl⟩ := List.mem_map.mp hns
    exact (h.bodies c hc).1
  · exact fun c hc => (h.bodies c hc).2

/-- A block opens outside brackets. -/
theorem Members.IsBordered.openBlock {m : Members} (h : m.IsBordered) (hcut : m.IsCut)
    (hdepth : m.depth = 0) (hevery : m.Every (Below HasBorders)) (line : Nat) :
    OpenBlock.IsBordered ⟨m.flush, line, []⟩ := by
  refine ⟨?_, m.parts_flush, fun kind ps hlast => ?_, hevery.flush, fun _ hc =>
    absurd hc List.not_mem_nil⟩
  · rw [m.flush_eq]
    exact h.chain
  · rw [m.flush_eq] at hlast
    by_cases hparts : m.parts = []
    · rw [Members.finish_of_nil hparts] at hlast
      have hfinished := h.settled hparts kind ps hlast
      exact beq_iff_eq.mp (Bool.and_eq_true_iff.mp hfinished).1
    · rw [Members.finish_of_ne_nil hparts, List.getLast?_concat] at hlast
      cases hlast
      exact hcut.depth.symm.trans hdepth

variable {read : List Token → Except Refusal Condition} {s s' : State} {t : Token}

/-- **Every step keeps the invariant.** -/
theorem Step.isBordered (h : Step read s t s') (hcut : s.IsCut) (hs : s.IsBordered) :
    s'.IsBordered := by
  induction h with
  | closeGroup outer opening up m t _ =>
      obtain ⟨hstack, hm, hevery⟩ := hs
      obtain ⟨⟨hchain, htakes, houter⟩, hup⟩ := List.forall_mem_cons.mp hstack
      refine ⟨hup, Members.isBordered_addGroup hchain htakes _ t, houter.addGroup hevery ?_⟩
      exact below_group (hm.hasBorders hcut.2) opening t
  | endBlock block head up m t _ =>
      obtain ⟨hstack, hm, hevery⟩ := hs
      obtain ⟨hblock, hup⟩ := List.forall_mem_cons.mp hstack
      exact ⟨hup, (OpenBlock.IsBordered.addClause hblock hm hcut.2 hevery head).addNode t⟩
  | alternative block head up m t _ _ =>
      obtain ⟨hstack, hm, hevery⟩ := hs
      obtain ⟨hblock, hup⟩ := List.forall_mem_cons.mp hstack
      exact ⟨hup, OpenBlock.IsBordered.addClause hblock hm hcut.2 hevery head⟩
  | fallback block head up m t _ _ =>
      obtain ⟨hstack, hm, hevery⟩ := hs
      obtain ⟨hblock, hup⟩ := List.forall_mem_cons.mp hstack
      have hclosed := OpenBlock.IsBordered.addClause hblock hm hcut.2 hevery head
      exact ⟨List.forall_mem_cons.mpr ⟨hclosed, hup⟩, Members.isBordered_empty,
        Members.every_empty⟩
  | openBlock stack m t _ hdepth =>
      obtain ⟨hstack, hm, hevery⟩ := hs
      exact ⟨hstack, hm.openBlock hcut.2 hdepth hevery t.line⟩
  | openGroup stack m t _ =>
      obtain ⟨hstack, hm, hevery⟩ := hs
      obtain ⟨hchain, htakes⟩ := hm.breakBefore hcut.2 t
      exact ⟨List.forall_mem_cons.mpr ⟨⟨hchain, htakes, hevery.breakBefore t⟩, hstack⟩,
        Members.isBordered_empty, Members.every_empty⟩
  | plain stack m t _ =>
      obtain ⟨hstack, hm, hevery⟩ := hs
      obtain ⟨hchain, htakes⟩ := hm.breakBefore hcut.2 t
      exact ⟨hstack, Members.isBordered_addToken (hcut.2.breakBefore t).1 hchain htakes,
        (hevery.breakBefore t).addToken (below_token _ t)⟩
  | condition stack block kind directive taken depth t _ => exact hs
  | body stack block kind directive taken depth t e s _ _ _ _ ih =>
      exact ih ⟨List.forall_mem_cons.mpr ⟨hcut.2, hcut.1⟩, Members.isCut_empty⟩
        ⟨List.forall_mem_cons.mpr ⟨hs.2, hs.1⟩, Members.isBordered_empty, Members.every_empty⟩

/-- **The member lists of an assembled tree have borders.** -/
theorem hasBorders_of_assemble {l : Lexed} {tree : SourceTree} (h : assemble read l = .ok tree) :
    ∀ ns ∈ tree.lists, HasBorders ns := by
  have hstart : State.IsCut (.listing [] .empty) ∧ State.IsBordered (.listing [] .empty) :=
    ⟨⟨fun _ hframe => absurd hframe List.not_mem_nil, Members.isCut_empty⟩,
      fun _ hframe => absurd hframe List.not_mem_nil, Members.isBordered_empty,
      Members.every_empty⟩
  obtain ⟨m, ⟨hcut, _, hm, hevery⟩, rfl⟩ := assemble_invariant
    (fun _ s => s.IsCut ∧ s.IsBordered) hstart
    (fun _ s t s' hs hstep => ⟨hstep.isCut hs.1, hstep.isBordered hs.1 hs.2⟩) h
  intro ns hns
  rcases List.mem_cons.mp hns with rfl | hns
  · exact hm.hasBorders hcut.2
  · obtain ⟨s, hs, hns⟩ := List.mem_flatMap.mp hns
    exact hevery.finish s hs ns hns

end Assembly

/-! ## Parsed sources -/

/-- **Items have borders.** In every member list of a parsed source, at any depth: of two items
in a row the first ends in a semicolon or the second starts a line; an item that is followed by
anything has closed its round and square brackets; a semicolon outside brackets is the last part
of its item; and an item of attributes and modifiers alone is not followed by another, unless it
ends in a semicolon. -/
theorem parse_has_borders {g : Grouping} {source : Text} {tree : SourceTree}
    (h : SourceTree.parse g source = .ok tree) : ∀ ns ∈ tree.lists, HasBorders ns := by
  obtain ⟨l, _, hassemble⟩ := exists_of_parse h
  exact hasBorders_of_assemble hassemble

theorem parse_has_borders_nested :
    ∃ source tree,
      source = "@a\nfunc f(\n)\n+ 1; x\n#if A\npublic\n#endif\nif b \x7b y(;\nz) ;;\n\x7d\n".toList
      ∧ SourceTree.parse .swift source = .ok tree
      ∧ tree.lists.map List.length = [4, 1, 2]
      ∧ ∀ ns ∈ tree.lists, HasBorders ns := by
  have hparse : (SourceTree.parse .swift
      "@a\nfunc f(\n)\n+ 1; x\n#if A\npublic\n#endif\nif b \x7b y(;\nz) ;;\n\x7d\n".toList).toOption.any
        (fun tree => tree.lists.map List.length == [4, 1, 2]) = true := by
    decide +kernel
  obtain ⟨tree, htree, hlists⟩ := exists_of_parse_any hparse
  exact ⟨_, tree, rfl, htree, by simpa using hlists, parse_has_borders htree⟩

end Unflag
