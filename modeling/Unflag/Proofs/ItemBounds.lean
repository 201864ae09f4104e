/-
Where items end.

An item ends in front of a token, or it takes the token in; `endsBefore` says which, from the
parts of the item alone. The assembly asks the question twice, of a semicolon when it has been
added and of every other end when the next token is there, and it counts brackets on the way.
Behind both stands one fact about a parsed tree: an item ends nowhere before its last part
(`IsWhole`), and its kind is that of its parts.

The fact does not depend on what is between braces nor on the trivia in front of an item, so a
resolution keeps it (`isCut_resolveNodes`).
-/
import Unflag.Proofs.ItemWords

set_option autoImplicit false

namespace Unflag

open Assembly

/-! ## The end of an item -/

/-- The first token of a part. -/
def Part.firstToken : Part → Token
  | .token t => t
  | .group opening _ _ => opening

/-- The round and square brackets open behind a part. -/
def Part.openAfter (depth : Nat) : Part → Nat
  | .token t => bracketsAfter depth t
  | .group _ _ _ => depth

namespace Item

/-- The round and square brackets open behind the parts of an item. -/
def openBrackets (parts : List Part) : Nat := parts.foldl Part.openAfter 0

/-- Whether the parts of an item end in a semicolon. -/
def endsInSemicolon (parts : List Part) : Bool :=
  match parts.getLast? with
  | some (.token t) => t.is .punctuation ";"
  | _ => false

/-- Whether the parts of an item end it, whatever comes behind them. -/
def isFinished (parts : List Part) : Bool := openBrackets parts == 0 && endsInSemicolon parts

/-- Whether an item that is made of these parts ends in front of a token. -/
def endsBefore (parts : List Part) (t : Token) : Bool :=
  isFinished parts || (openBrackets parts == 0 && startsNewItem parts t)

/-- The parts of one item: it ends in front of none of them. -/
def IsWhole (parts : List Part) : Prop :=
  ∀ before p after, parts = before ++ p :: after → endsBefore before p.firstToken = false

theorem openBrackets_append_singleton (parts : List Part) (p : Part) :
    openBrackets (parts ++ [p]) = p.openAfter (openBrackets parts) := by
  rw [openBrackets, List.foldl_append]
  rfl

theorem endsInSemicolon_token (parts : List Part) (t : Token) :
    endsInSemicolon (parts ++ [.token t]) = t.is .punctuation ";" := by
  rw [endsInSemicolon, List.getLast?_concat]

theorem endsInSemicolon_group (parts : List Part) (opening : Token) (members : List Node)
    (closing : Token) : endsInSemicolon (parts ++ [.group opening members closing]) = false := by
  rw [endsInSemicolon, List.getLast?_concat]

theorem startsNewItem_nil (t : Token) : startsNewItem [] t = false := by
  rw [startsNewItem, afterModifiers]
  simp

theorem endsBefore_nil (t : Token) : endsBefore [] t = false := by
  rw [endsBefore, startsNewItem_nil, Bool.and_false, Bool.or_false]
  rfl

theorem bracketsAfter_semicolon {t : Token} (h : t.is .punctuation ";" = true) (depth : Nat) :
    bracketsAfter depth t = depth := by
  obtain ⟨hkind, htext⟩ := is_iff.mp h
  simp [bracketsAfter, Token.isOneOf, hkind, htext]

/-- A semicolon outside brackets finishes an item. -/
theorem isFinished_token (parts : List Part) (t : Token) :
    isFinished (parts ++ [.token t])
      = (t.is .punctuation ";" && openBrackets parts == 0) := by
  rw [isFinished, endsInSemicolon_token, openBrackets_append_singleton, Part.openAfter]
  cases hsemicolon : t.is .punctuation ";" with
  | true => rw [bracketsAfter_semicolon hsemicolon, Bool.and_true, Bool.true_and]
  | false => rw [Bool.and_false, Bool.false_and]

theorem isFinished_group (parts : List Part) (opening : Token) (members : List Node)
    (closing : Token) : isFinished (parts ++ [.group opening members closing]) = false := by
  rw [isFinished, endsInSemicolon_group, Bool.and_false]

theorem isWhole_nil : IsWhole [] := by
  intro before p after h
  exact absurd h (by simp)

theorem isWhole_append_singleton {parts : List Part} {p : Part} :
    IsWhole (parts ++ [p]) ↔ IsWhole parts ∧ endsBefore parts p.firstToken = false := by
  constructor
  · intro h
    refine ⟨fun before q after hsplit => ?_, h parts p [] rfl⟩
    exact h before q (after ++ [p]) (by rw [hsplit]; simp)
  · -- a split of the longer list is at its last part, or a split of the shorter one
    rintro ⟨hparts, hlast⟩ before q after hsplit
    rcases List.eq_nil_or_concat after with rfl | ⟨after', r, rfl⟩
    · obtain ⟨rfl, hp⟩ := List.append_inj' hsplit rfl
      cases hp
      exact hlast
    · rw [List.concat_eq_append, ← List.cons_append, ← List.append_assoc] at hsplit
      exact hparts before q after' (List.append_inj' hsplit rfl).1

/-! ## Words -/

theorem openBrackets_congr {ps qs : List Part}
    (h : List.Forall₂ (Part.Alike Token.spelling) ps qs) : openBrackets ps = openBrackets qs := by
  have hfold : ∀ depth, ps.foldl Part.openAfter depth = qs.foldl Part.openAfter depth := by
    induction h with
    | nil => exact fun _ => rfl
    | cons hp _ ih =>
        intro depth
        cases hp with
        | group _ _ => exact ih depth
        | token ht =>
            simp only [List.foldl_cons, Part.openAfter, bracketsAfter, isOneOf_of_spelling ht]
            exact ih _
  exact hfold 0

theorem endsInSemicolon_congr {ps qs : List Part}
    (h : List.Forall₂ (Part.Alike Token.spelling) ps qs) :
    endsInSemicolon ps = endsInSemicolon qs := by
  have hlast := getLast?_congr h
  rw [endsInSemicolon, endsInSemicolon]
  generalize ps.getLast? = p? at hlast ⊢
  generalize qs.getLast? = q? at hlast ⊢
  cases hlast with
  | none => rfl
  | some hp =>
      cases hp with
      | group _ _ => rfl
      | token ht => exact is_of_spelling ht _ _

theorem isFinished_congr {ps qs : List Part}
    (h : List.Forall₂ (Part.Alike Token.spelling) ps qs) : isFinished ps = isFinished qs := by
  rw [isFinished, isFinished, openBrackets_congr h, endsInSemicolon_congr h]

/-- **Where an item ends is told by words.** -/
theorem endsBefore_congr {ps qs : List Part} (h : SameItem ps qs) {t u : Token}
    (hword : t.word = u.word) : endsBefore ps t = endsBefore qs u := by
  rw [endsBefore, endsBefore, isFinished_congr h.forall₂, openBrackets_congr h.forall₂,
    startsNewItem_congr h hword]

theorem word_firstToken_of_alike {p q : Part} (h : p.Alike Token.word q) :
    p.firstToken.word = q.firstToken.word := by
  cases h with
  | token h => exact h
  | group hopening _ => exact hopening

theorem IsWhole.congr {ps qs : List Part} (h : SameItem ps qs) (hps : IsWhole ps) :
    IsWhole qs := by
  cases h with
  | nil => exact isWhole_nil
  | @cons p q r s hp hr =>
      intro before q' after hsplit
      cases before with
      | nil => exact endsBefore_nil _
      | cons b before =>
          obtain ⟨rfl, rfl⟩ := List.cons.inj hsplit
          -- the part in question is not the first, so all of its words are the same
          obtain ⟨r₁, r₂, rfl, hbefore, hrest⟩ : ∃ r₁ r₂, r = r₁ ++ r₂
              ∧ SameWords r₁ before ∧ SameWords r₂ (q' :: after) :=
            ⟨_, _, (List.take_append_drop _ r).symm, List.forall₂_take_append r _ _ hr,
              List.forall₂_drop_append r _ _ hr⟩
          cases hrest with
          | @cons p' _ after' _ hp' _ =>
              rw [← endsBefore_congr (.cons hp hbefore) (word_firstToken_of_alike hp')]
              exact hps (p :: r₁) p' after' rfl

end Item

open Item

/-! ## Items as they are cut -/

/-- An item as the assembly cuts it. -/
def Node.IsCut : Node → Prop
  | .item kind parts => kind = classify parts ∧ parts ≠ [] ∧ IsWhole parts
  | _ => True

namespace Assembly

/-- The same of a list that is being filled: its brackets are those of the item in hand, and
that item has not come to its end. -/
structure Members.IsCut (m : Members) : Prop where
  nodes : Everywhere Node.IsCut m.nodes
  groups : ∀ opening members closing, Part.group opening members closing ∈ m.parts →
    Everywhere Node.IsCut members
  whole : IsWhole m.parts
  depth : m.depth = openBrackets m.parts
  goesOn : isFinished m.parts = false

namespace Members

variable {m : Members}

theorem isCut_empty : Members.empty.IsCut :=
  ⟨everywhere_nil, fun _ _ _ h => absurd h List.not_mem_nil, isWhole_nil, rfl, rfl⟩

theorem isCut_of_settled (hnodes : Everywhere Node.IsCut m.nodes) (hparts : m.parts = [])
    (hdepth : m.depth = 0) : m.IsCut where
  nodes := hnodes
  groups := by
    rw [hparts]
    exact fun _ _ _ hgroup => absurd hgroup List.not_mem_nil
  whole := hparts ▸ isWhole_nil
  depth := by
    rw [hparts, hdepth]
    rfl
  goesOn := hparts ▸ rfl

theorem everywhere_isCut_finish (hnodes : Everywhere Node.IsCut m.nodes)
    (hgroups : ∀ opening members closing, Part.group opening members closing ∈ m.parts →
      Everywhere Node.IsCut members) (hwhole : IsWhole m.parts) :
    Everywhere Node.IsCut m.finish := by
  unfold Members.finish Members.flush
  split
  · exact hnodes
  · next hparts =>
    refine everywhere_append.mpr ⟨hnodes, everywhere_item.mpr ⟨⟨rfl, ?_, hwhole⟩, hgroups⟩⟩
    simpa using hparts

theorem IsCut.finish (h : m.IsCut) : Everywhere Node.IsCut m.finish :=
  everywhere_isCut_finish h.nodes h.groups h.whole

/-- Outside brackets the next item begins with none. -/
theorem IsCut.flush (h : m.IsCut) (hdepth : m.depth = 0) : m.flush.IsCut :=
  isCut_of_settled h.finish m.parts_flush (m.depth_flush.trans hdepth)

/-- **The assembly ends items where they end.** -/
theorem IsCut.breakBefore_eq (h : m.IsCut) (t : Token) :
    m.breakBefore t = if endsBefore m.parts t then m.flush else m := by
  by_cases hparts : m.parts = []
  · simp [Members.breakBefore, hparts, endsBefore_nil]
  · -- the depth of the list stands for the brackets of the item
    by_cases hdepth : m.depth = 0
    · have hopen : openBrackets m.parts = 0 := h.depth.symm.trans hdepth
      simp [Members.breakBefore, endsBefore, hparts, hdepth, hopen, h.goesOn]
    · have hopen : openBrackets m.parts ≠ 0 := h.depth ▸ hdepth
      simp [Members.breakBefore, endsBefore, hdepth, hopen, h.goesOn]

theorem IsCut.breakBefore (h : m.IsCut) (t : Token) :
    (m.breakBefore t).IsCut ∧ endsBefore (m.breakBefore t).parts t = false := by
  rw [h.breakBefore_eq]
  split
  · next hends =>
    rw [m.parts_flush]
    rw [endsBefore, h.goesOn, Bool.false_or, Bool.and_eq_true, beq_iff_eq] at hends
    exact ⟨h.flush (h.depth.trans hends.1), endsBefore_nil t⟩
  · next hends => exact ⟨h, by simpa using hends⟩

theorem IsCut.addNode (h : m.IsCut) {n : Node} (hn : Everywhere Node.IsCut [n]) :
    (m.addNode n).IsCut :=
  ⟨everywhere_append.mpr ⟨h.nodes, hn⟩, h.groups, h.whole, h.depth, h.goesOn⟩

theorem IsCut.addGroup (h : m.IsCut) {opening : Token} {members : List Node}
    (hfits : endsBefore m.parts opening = false) (hmembers : Everywhere Node.IsCut members)
    (closing : Token) : (m.addPart (.group opening members closing)).IsCut where
  nodes := h.nodes
  groups o ms c hgroup := by
    rcases List.mem_append.mp hgroup with hgroup | hgroup
    · exact h.groups o ms c hgroup
    · cases List.mem_singleton.mp hgroup
      exact hmembers
  whole := isWhole_append_singleton.mpr ⟨h.whole, hfits⟩
  depth := by
    rw [Members.addPart, openBrackets_append_singleton]
    exact h.depth
  goesOn := isFinished_group _ _ _ _

/-- A semicolon outside brackets ends the item, every other token joins it. -/
theorem addToken_eq (m : Members) (t : Token) :
    m.addToken t = if t.is .punctuation ";" && m.depth == 0 then (m.addPart (.token t)).flush
      else { m.addPart (.token t) with depth := bracketsAfter m.depth t } := by
  by_cases hsemicolon : t.is .punctuation ";" = true
  · obtain ⟨hkind, htext⟩ := is_iff.mp hsemicolon
    simp [Members.addToken, bracketsAfter, Token.isOneOf, Token.is, hkind, htext]
    rfl
  · simp only [Members.addToken, bracketsAfter, hsemicolon, Bool.false_and, Bool.false_eq_true,
      if_false]
    split
    · rfl
    split <;> rfl

theorem IsCut.addToken (h : m.IsCut) {t : Token} (hfits : endsBefore m.parts t = false) :
    (m.addToken t).IsCut := by
  have hwhole : IsWhole (m.parts ++ [.token t]) := isWhole_append_singleton.mpr ⟨h.whole, hfits⟩
  have hgroups : ∀ opening members closing,
      Part.group opening members closing ∈ m.parts ++ [.token t] →
      Everywhere Node.IsCut members := fun opening members closing hgroup =>
    h.groups opening members closing (by simpa using hgroup)
  rw [addToken_eq]
  split
  · next hends =>
    rw [Bool.and_eq_true, beq_iff_eq] at hends
    exact isCut_of_settled (everywhere_isCut_finish h.nodes hgroups hwhole) (parts_flush _)
      ((depth_flush _).trans hends.2)
  · next hends =>
    refine ⟨h.nodes, hgroups, hwhole, ?_, ?_⟩
    · rw [Members.addPart, openBrackets_append_singleton, h.depth]
      rfl
    · rw [Members.addPart, isFinished_token, ← h.depth]
      simpa using hends

end Members

/-- The list a block stands in, and the bodies read so far. -/
def OpenBlock.IsCut (b : OpenBlock) : Prop :=
  b.outer.IsCut ∧ ∀ c ∈ b.clauses, Everywhere Node.IsCut c.body

/-- What the list in hand stands in. A group belongs to the item in front of it. -/
def Frame.IsCut : Frame → Prop
  | .group outer opening => outer.IsCut ∧ endsBefore outer.parts opening = false
  | .clause block _ => block.IsCut

/-- The invariant of the assembly: every item has ended where it ends. -/
def State.IsCut : State → Prop
  | .listing stack m => (∀ f ∈ stack, f.IsCut) ∧ m.IsCut
  | .heading stack block _ _ _ _ => (∀ f ∈ stack, f.IsCut) ∧ block.IsCut

/-- The clause in hand is finished. -/
theorem OpenBlock.IsCut.addClause {b : OpenBlock} (h : b.IsCut) {m : Members} (hm : m.IsCut)
    (head : ClauseHead) : ∀ c ∈ b.clauses ++ [.mk head m.finish], Everywhere Node.IsCut c.body :=
  List.forall_mem_append.mpr ⟨h.2, List.forall_mem_singleton.mpr hm.finish⟩

variable {read : List Token → Except Refusal Condition} {s s' : State} {t : Token}

/-- **Every step keeps the invariant.** -/
theorem Step.isCut (h : Step read s t s') (hs : s.IsCut) : s'.IsCut := by
  induction h with
  | closeGroup outer opening up m t _ =>
      obtain ⟨hstack, hm⟩ := hs
      obtain ⟨⟨houter, hfits⟩, hup⟩ := List.forall_mem_cons.mp hstack
      exact ⟨hup, houter.addGroup hfits hm.finish t⟩
  | endBlock block head up m t _ =>
      obtain ⟨hstack, hm⟩ := hs
      obtain ⟨hblock, hup⟩ := List.forall_mem_cons.mp hstack
      have hclauses := hblock.addClause hm head
      exact ⟨hup, hblock.1.addNode (everywhere_block.mpr ⟨trivial, hclauses⟩)⟩
  | alternative block head up m t _ _ =>
      obtain ⟨hstack, hm⟩ := hs
      obtain ⟨hblock, hup⟩ := List.forall_mem_cons.mp hstack
      exact ⟨hup, hblock.1, hblock.addClause hm head⟩
  | fallback block head up m t _ _ =>
      obtain ⟨hstack, hm⟩ := hs
      obtain ⟨hblock, hup⟩ := List.forall_mem_cons.mp hstack
      exact ⟨List.forall_mem_cons.mpr ⟨⟨hblock.1, hblock.addClause hm head⟩, hup⟩,
        Members.isCut_empty⟩
  | openBlock stack m t _ hdepth =>
      exact ⟨hs.1, hs.2.flush hdepth, fun _ hc => absurd hc List.not_mem_nil⟩
  | openGroup stack m t _ =>
      exact ⟨List.forall_mem_cons.mpr ⟨hs.2.breakBefore t, hs.1⟩, Members.isCut_empty⟩
  | plain stack m t _ =>
      -- behind the break the token fits, so it may be added
      obtain ⟨hm, hfits⟩ := hs.2.breakBefore t
      exact ⟨hs.1, hm.addToken hfits⟩
  | condition stack block kind directive taken depth t _ => exact hs
  | body stack block kind directive taken depth t e s _ _ _ _ ih =>
      exact ih ⟨List.forall_mem_cons.mpr ⟨hs.2, hs.1⟩, Members.isCut_empty⟩

/-- **The items of a parsed tree** are whole, and each declares what its parts declare. -/
theorem isCut_of_assemble {l : Lexed} {tree : SourceTree} (h : assemble read l = .ok tree) :
    Everywhere Node.IsCut tree.members := by
  have hstart : State.IsCut (.listing [] .empty) :=
    ⟨fun _ hframe => absurd hframe List.not_mem_nil, Members.isCut_empty⟩
  obtain ⟨m, hm, rfl⟩ := assemble_invariant (fun _ s => s.IsCut) hstart
    (fun ts s t s' hs hstep => hstep.isCut hs) h
  exact hm.2.finish

end Assembly

/-! ## Resolved items -/

theorem Part.alike_resolve (flag : Text) (p : Part) : p.Alike Token.word (p.resolve flag) := by
  cases p with
  | token t => exact .token rfl
  | group opening members closing => exact .group rfl rfl

theorem Part.alike_self (p : Part) : p.Alike Token.word p := by
  cases p with
  | token t => exact .token rfl
  | group opening members closing => exact .group rfl rfl

/-- Other words of the same item. -/
theorem Node.IsCut.congr {kind : ItemKind} {parts parts' : List Part}
    (h : (Node.item kind parts).IsCut) (hsame : SameItem parts parts') :
    (Node.item kind parts').IsCut := by
  obtain ⟨hkind, hne, hwhole⟩ := h
  refine ⟨hkind.trans (classify_congr hsame), ?_, hwhole.congr hsame⟩
  cases hsame with
  | nil => exact absurd rfl hne
  | cons _ _ => exact List.cons_ne_nil _ _

/-- **A resolution leaves items as they are cut.** -/
theorem isCut_resolveNodes {ns : List Node} (h : Everywhere Node.IsCut ns) (flag : Text) :
    Everywhere Node.IsCut (resolveNodes flag ns) := by
  refine everywhere_resolve ?_ (fun _ _ _ _ => trivial) (fun _ _ => trivial) (fun _ => trivial)
    ?_ h
  · intro kind parts hitem
    rw [resolveParts_eq]
    exact hitem.congr (.of_sameWords (sameWords_map (Part.alike_resolve flag) parts))
  · intro n t leading ht hn
    cases n with
    | block cs ending =>
        obtain ⟨ds, hds, _⟩ := Node.withFirstToken_block cs ending { t with leading }
        rw [hds]
        trivial
    | placeholder u => trivial
    | item kind parts =>
        cases parts with
        | nil => exact hn
        | cons p r =>
            -- only the first token has changed, and only in the trivia in front of it
            have hrest : SameWords r r := List.forall₂_same.mpr fun q _ => q.alike_self
            cases p with
            | token u =>
                cases ht
                exact hn.congr (.cons (.token rfl) hrest)
            | group u members closing =>
                cases ht
                exact hn.congr (.cons (.group rfl rfl) hrest)

end Unflag
