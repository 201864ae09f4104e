/-
The shape of a parsed tree.

`ParsedTree` says which tokens a parsed tree holds; this file says how they are arranged.
An item is made of plain tokens and of groups between braces, a block has its directives in
order, and a condition has exactly the tokens that the reading of conditions takes: none of
them ends the condition early, and the token behind the last one does end it.

All of it is an invariant of the assembly. What is said of a finished node (`IsBuilt`,
`EndsConditions`) is kept by `Members.Every`, for the lists in hand as well as for those on
the stack. The one fact that no single list knows is the token behind a condition: it is the
first token of the body, and a body whose first token opens a group or a block lives in
several frames. `Stacked` follows that first token down the stack.
-/
import Unflag.Proofs.ParsedTree

set_option autoImplicit false

namespace Unflag

open Assembly

/-! ## Nodes -/

/-- The parentheses open behind the tokens of a condition. -/
def parenDepth (ts : List Token) : Int := ts.foldl depthAfter 0

/-- An opening line as it is read. The fallback has a directive only; every other one has
the tokens of its condition, none of which ends it. -/
structure ClauseHead.IsBuilt (read : List Token → Except Refusal Condition) (h : ClauseHead) :
    Prop where
  directive : h.directive.is .directive h.kind.word = true
  condition : h.kind ≠ .fallback → h.tokens ≠ [] ∧ ∃ e, read h.tokens = .ok e ∧ h.condition = some e
  fallback : h.kind = .fallback → h.tokens = [] ∧ h.condition = none
  goesOn : ∀ before t after, h.tokens = before ++ t :: after →
    endsCondition before (parenDepth before) t = false

/-- The condition of an opening line, if it has one, ends in front of a token. -/
def ClauseHead.EndsAt (h : ClauseHead) (t : Token) : Prop :=
  h.kind ≠ .fallback → endsCondition h.tokens (parenDepth h.tokens) t = true

/-- The clauses that may follow others: alternatives, and a fallback at the end. -/
def FollowOn : List ClauseKind → Prop
  | [] => True
  | .alternative :: r => FollowOn r
  | [.fallback] => True
  | _ => False

/-- The clauses of a block: the primary one, and what may follow it. -/
def InOrder : List ClauseKind → Prop
  | .primary :: r => FollowOn r
  | _ => False

/-- The kinds of the clauses of a block. -/
def kindsOf (cs : List Clause) : List ClauseKind := cs.map fun c => c.head.kind

/-- A part of an item: a plain token, or a group between its braces. -/
def Part.IsBuilt : Part → Prop
  | .token t => IsPlain t
  | .group opening _ closing =>
    opening.is .punctuation "\x7b" = true ∧ closing.is .punctuation "\x7d" = true

/-- A node as it is built, or the placeholder that a removed one leaves. -/
def Node.IsBuilt (read : List Token → Except Refusal Condition) : Node → Prop
  | .item _ parts => parts ≠ [] ∧ ∀ p ∈ parts, p.IsBuilt
  | .block cs ending =>
    ending.is .directive "#endif" = true ∧ InOrder (kindsOf cs) ∧ ∀ c ∈ cs, c.head.IsBuilt read
  | .placeholder t => t = .placeholder t.leading

/-- The conditions of a block end where its bodies begin. A body without tokens is followed
by a directive, which ends every condition. -/
def Node.EndsConditions : Node → Prop
  | .block cs _ => ∀ c ∈ cs, ∀ t ∈ (tokensOfNodes c.body).head?, c.head.EndsAt t
  | _ => True

/-- Behind a clause that is not the fallback another one may follow. -/
theorem followOn_append {ks : List ClauseKind} {k k' : ClauseKind} (h : FollowOn (ks ++ [k]))
    (hk : k ≠ .fallback) (hk' : k' ≠ .primary) : FollowOn (ks ++ [k] ++ [k']) := by
  induction ks with
  | nil =>
      cases k with
      | primary => exact h.elim
      | alternative =>
          cases k' with
          | primary => exact absurd rfl hk'
          | alternative => trivial
          | fallback => trivial
      | fallback => exact absurd rfl hk
  | cons j r ih =>
      cases j with
      | primary => exact h.elim
      | alternative => exact ih h
      | fallback => cases r <;> exact h.elim

theorem inOrder_append {ks : List ClauseKind} {k k' : ClauseKind} (h : InOrder (ks ++ [k]))
    (hk : k ≠ .fallback) (hk' : k' ≠ .primary) : InOrder (ks ++ [k] ++ [k']) := by
  cases ks with
  | nil =>
      cases k with
      | primary =>
          cases k' with
          | primary => exact absurd rfl hk'
          | alternative => trivial
          | fallback => trivial
      | alternative => exact h.elim
      | fallback => exact h.elim
  | cons j r =>
      cases j with
      | primary => exact followOn_append h hk hk'
      | alternative => exact h.elim
      | fallback => exact h.elim

namespace Assembly

/-! ## Lists that are being filled -/

/-- Something holds of every node of a list, at any depth, and will hold of the item in
hand once it is finished. -/
def Members.Every (P : Node → Prop) (m : Members) : Prop :=
  Everywhere P m.nodes ∧ (m.parts = [] ∨ ∀ kind, Everywhere P [.item kind m.parts])

/-- A part that may join any item. -/
def Joins (P : Node → Prop) (p : Part) : Prop :=
  ∀ kind parts, (parts = [] ∨ P (.item kind parts)) → P (.item kind (parts ++ [p]))

section Every

variable {P : Node → Prop} {m : Members}

theorem Members.every_empty : Members.empty.Every P := ⟨everywhere_nil, .inl rfl⟩

theorem Members.Every.flush (h : m.Every P) : m.flush.Every P := by
  unfold Members.flush
  split
  · exact h
  · next hparts =>
    rcases h.2 with hnil | hitem
    · exact absurd hnil (by simpa using hparts)
    · exact ⟨everywhere_append.mpr ⟨h.1, hitem _⟩, .inl rfl⟩

theorem Members.Every.finish (h : m.Every P) : Everywhere P m.finish := h.flush.1

theorem Members.Every.breakBefore (h : m.Every P) (t : Token) : (m.breakBefore t).Every P := by
  unfold Members.breakBefore
  split
  · exact h.flush
  · exact h

/-- A part that may join the item in hand joins it. -/
theorem Members.Every.addPart {p : Part} (h : m.Every P) (hp : Joins P p)
    (hbelow : ∀ opening members closing, p = .group opening members closing →
      Everywhere P members) : (m.addPart p).Every P := by
  refine ⟨h.1, .inr fun kind => everywhere_item.mpr ⟨hp kind m.parts ?_, ?_⟩⟩
  · exact h.2.imp_right fun hitem => (everywhere_item.mp (hitem kind)).1
  · intro opening members closing hgroup
    rcases List.mem_append.mp hgroup with hgroup | hgroup
    · rcases h.2 with hnil | hitem
      · rw [hnil] at hgroup
        exact absurd hgroup List.not_mem_nil
      · exact (everywhere_item.mp (hitem kind)).2 opening members closing hgroup
    · exact hbelow opening members closing (List.mem_singleton.mp hgroup).symm

theorem Members.Every.addToken {t : Token} (h : m.Every P) (ht : Joins P (.token t)) :
    (m.addToken t).Every P := by
  have hadded : (m.addPart (.token t)).Every P := h.addPart ht fun _ _ _ heq => by cases heq
  rcases m.addToken_cases t with ⟨depth, heq⟩ | heq
  · rw [heq]
    exact hadded
  · rw [heq]
    exact hadded.flush

theorem Members.Every.addGroup {inner : Members} {opening closing : Token} (h : m.Every P)
    (hinner : inner.Every P) (hp : Joins P (.group opening inner.finish closing)) :
    (m.addPart (.group opening inner.finish closing)).Every P :=
  h.addPart hp fun _ _ _ heq => by cases heq; exact hinner.finish

theorem Members.Every.addNode {n : Node} (h : m.Every P) (hn : Everywhere P [n]) :
    (m.addNode n).Every P := ⟨everywhere_append.mpr ⟨h.1, hn⟩, h.2⟩

end Every

/-! ## The first token of a body -/

/-- The list in a frame may begin with a token: in a clause, the token must end the
condition. -/
def Frame.Admits : Frame → Token → Prop
  | .group _ _, _ => True
  | .clause _ head, t => head.EndsAt t

/-- In every frame of a stack the first token read behind its opening line is one it
admits; `first` is the first token of the list in hand. -/
def Stacked : Option Token → List Frame → Prop
  | _, [] => True
  | first, f :: up => (∀ t ∈ first, f.Admits t) ∧ Stacked f.tokens.head? up

theorem Frame.tokens_ne_nil (f : Frame) : f.tokens ≠ [] := by
  cases f <;> simp [Frame.tokens]

/-- A token behind others is not the first one. -/
theorem head?_append_of_ne_nil {ts us : List Token} (h : ts ≠ []) :
    (ts ++ us).head? = ts.head? := by
  rw [List.head?_append, List.head?_eq_some_head h]
  rfl

/-- The list in hand may begin with a token. -/
def State.Admits : State → Token → Prop
  | .listing (f :: _) m, t => m.tokens = [] → f.Admits t
  | _, _ => True

theorem stacked_append {stack : List Frame} {m : Members} {t : Token}
    (h : Stacked m.tokens.head? stack) (ht : State.Admits (.listing stack m) t) :
    Stacked (m.tokens ++ [t]).head? stack := by
  by_cases hnil : m.tokens = []
  · cases stack with
    | nil => trivial
    | cons f up =>
        refine ⟨fun u hu => ?_, h.2⟩
        rw [hnil] at hu
        cases hu
        exact ht hnil
  · rwa [head?_append_of_ne_nil hnil]

/-- A list that has begun may go on with any token. -/
theorem State.admits_of_ne_nil {stack : List Frame} {m : Members} (h : m.tokens ≠ []) (t : Token) :
    State.Admits (.listing stack m) t := by
  cases stack with
  | nil => trivial
  | cons f up => exact fun hnil => absurd hnil h

/-! ## The invariant -/

variable (read : List Token → Except Refusal Condition)

/-- A node of a parsed tree. -/
def IsParsed (n : Node) : Prop := n.IsBuilt read ∧ n.EndsConditions

/-- A clause of a parsed tree. -/
structure ClauseParsed (c : Clause) : Prop where
  head : c.head.IsBuilt read
  ends : ∀ t ∈ (tokensOfNodes c.body).head?, c.head.EndsAt t
  body : Everywhere (IsParsed read) c.body

/-- A block that is being read. -/
structure OpenBlock.IsParsed (b : OpenBlock) : Prop where
  outer : b.outer.Every (Assembly.IsParsed read)
  clauses : ∀ c ∈ b.clauses, ClauseParsed read c

/-- What the list in hand stands in. -/
def Frame.IsParsed : Frame → Prop
  | .group outer opening =>
    outer.Every (Assembly.IsParsed read) ∧ opening.is .punctuation "\x7b" = true
  | .clause block head =>
    block.IsParsed read ∧ head.IsBuilt read ∧ InOrder (kindsOf block.clauses ++ [head.kind])

/-- The invariant of the assembly: every finished part has its shape, and what is read of a
condition so far does not end it. -/
def State.IsParsed : State → Prop
  | .listing stack m =>
    (∀ f ∈ stack, f.IsParsed read) ∧ m.Every (Assembly.IsParsed read)
      ∧ Stacked m.tokens.head? stack
  | .heading stack block kind directive taken depth =>
    (∀ f ∈ stack, f.IsParsed read) ∧ block.IsParsed read
      ∧ Stacked (block.tokens ++ [directive]).head? stack
      ∧ directive.is .directive kind.word = true ∧ kind ≠ .fallback
      ∧ InOrder (kindsOf block.clauses ++ [kind]) ∧ depth = parenDepth taken
      ∧ ∀ before t after, taken = before ++ t :: after →
          endsCondition before (parenDepth before) t = false

variable {read}

theorem joins_token {t : Token} (ht : IsPlain t) : Joins (IsParsed read) (.token t) := by
  intro kind parts hparts
  refine ⟨⟨by simp, fun p hp => ?_⟩, trivial⟩
  rcases List.mem_append.mp hp with hp | hp
  · rcases hparts with rfl | hitem
    · exact absurd hp List.not_mem_nil
    · exact hitem.1.2 p hp
  · rw [List.mem_singleton.mp hp]
    exact ht

theorem joins_group {opening closing : Token} {members : List Node}
    (hopening : opening.is .punctuation "\x7b" = true)
    (hclosing : closing.is .punctuation "\x7d" = true) :
    Joins (IsParsed read) (.group opening members closing) := by
  intro kind parts hparts
  refine ⟨⟨by simp, fun p hp => ?_⟩, trivial⟩
  rcases List.mem_append.mp hp with hp | hp
  · rcases hparts with rfl | hitem
    · exact absurd hp List.not_mem_nil
    · exact hitem.1.2 p hp
  · rw [List.mem_singleton.mp hp]
    exact ⟨hopening, hclosing⟩

/-- The clause in hand is finished: it joins the clauses of its block. -/
theorem OpenBlock.IsParsed.addClause {b : OpenBlock} {m : Members} {head : ClauseHead}
    (h : b.IsParsed read) (hhead : head.IsBuilt read) (hm : m.Every (Assembly.IsParsed read))
    (hfirst : ∀ t ∈ m.tokens.head?, head.EndsAt t) :
    ∀ c ∈ b.clauses ++ [.mk head m.finish], ClauseParsed read c := by
  intro c hc
  rcases List.mem_append.mp hc with hc | hc
  · exact h.clauses c hc
  · rw [List.mem_singleton.mp hc]
    refine ⟨hhead, ?_, hm.finish⟩
    show ∀ t ∈ (tokensOfNodes m.finish).head?, head.EndsAt t
    rwa [Members.tokens_finish]

/-- The tokens of a block that has taken in the clause in hand. -/
theorem OpenBlock.tokens_addClause (b : OpenBlock) (head : ClauseHead) (m : Members) :
    OpenBlock.tokens { b with clauses := b.clauses ++ [.mk head m.finish] }
      = (Frame.clause b head).tokens ++ m.tokens := by
  simp [Frame.tokens, OpenBlock.tokens, tokensOfClauses_append, tokensOfClauses, Clause.tokens]

/-- The first token of a block behind an outer list is the first of its frame. -/
theorem head?_frame_append (f : Frame) (ts : List Token) :
    (f.tokens ++ ts).head? = f.tokens.head? := head?_append_of_ne_nil f.tokens_ne_nil

theorem kindsOf_append (cs : List Clause) (head : ClauseHead) (body : List Node) :
    kindsOf (cs ++ [.mk head body]) = kindsOf cs ++ [head.kind] := by
  simp [kindsOf, Clause.head]

variable {s s' : State} {t : Token}

/-- **Every step keeps the invariant**, and leaves a list that has begun, unless no token
would be wrong at its start. -/
theorem Step.isParsed (h : Step read s t s') (hsound : s.IsSound) (hs : s.IsParsed read)
    (hadmits : s.Admits t) : s'.IsParsed read ∧ ∀ u, s'.Admits u := by
  induction h with
  | closeGroup outer opening up m t ht =>
      obtain ⟨hstack, hm, hfirst⟩ := hs
      obtain ⟨hframe, hup⟩ := List.forall_mem_cons.mp hstack
      have htokens : (outer.addPart (.group opening m.finish t)).tokens
          = (Frame.group outer opening).tokens ++ (m.tokens ++ [t]) := by
        simp [Frame.tokens, Part.tokens]
      refine ⟨⟨hup, hframe.1.addGroup hm (joins_group hframe.2 ht), ?_⟩,
        State.admits_of_ne_nil (by rw [htokens]; simp)⟩
      rw [htokens, head?_frame_append]
      exact hfirst.2
  | endBlock block head up m t ht =>
      obtain ⟨hstack, hm, hfirst⟩ := hs
      obtain ⟨hframe, hup⟩ := List.forall_mem_cons.mp hstack
      have hsettled : block.outer.parts = [] := (List.forall_mem_cons.mp hsound.1).1.settled
      obtain ⟨hblock, hhead, horder⟩ := hframe
      have hclauses := hblock.addClause hhead hm hfirst.1
      have htokens : (block.outer.addNode (.block (block.clauses ++ [.mk head m.finish]) t)).tokens
          = (Frame.clause block head).tokens ++ (m.tokens ++ [t]) := by
        rw [block.outer.tokens_addNode _ hsettled, Node.tokens, ← List.append_assoc,
          ← List.append_assoc, ← block.tokens_addClause]
        rfl
      refine ⟨⟨hup, hblock.outer.addNode (everywhere_block.mpr ⟨⟨⟨ht, ?_, ?_⟩, ?_⟩, ?_⟩), ?_⟩,
        State.admits_of_ne_nil (by rw [htokens]; simp)⟩
      · rwa [kindsOf_append]
      · exact fun c hc => (hclauses c hc).head
      · exact fun c hc => (hclauses c hc).ends
      · exact fun c hc => (hclauses c hc).body
      · rw [htokens, head?_frame_append]
        exact hfirst.2
  | alternative block head up m t ht hkind =>
      obtain ⟨hstack, hm, hfirst⟩ := hs
      obtain ⟨hframe, hup⟩ := List.forall_mem_cons.mp hstack
      obtain ⟨hblock, hhead, horder⟩ := hframe
      refine ⟨⟨hup, ⟨hblock.outer, hblock.addClause hhead hm hfirst.1⟩, ?_, ht, by decide, ?_, rfl,
        ?_⟩, fun _ => trivial⟩
      · rw [block.tokens_addClause, List.append_assoc, head?_frame_append]
        exact hfirst.2
      · show InOrder (kindsOf (block.clauses ++ [.mk head m.finish]) ++ [.alternative])
        rw [kindsOf_append]
        exact inOrder_append horder hkind (by decide)
      · exact fun before u after hsplit => absurd hsplit (by simp)
  | fallback block head up m t ht hkind =>
      obtain ⟨hstack, hm, hfirst⟩ := hs
      obtain ⟨hframe, hup⟩ := List.forall_mem_cons.mp hstack
      obtain ⟨hblock, hhead, horder⟩ := hframe
      have htokens : Frame.tokens
          (.clause { block with clauses := block.clauses ++ [.mk head m.finish] }
            ⟨.fallback, t, [], none⟩)
          = (Frame.clause block head).tokens ++ (m.tokens ++ [t]) := by
        rw [Frame.tokens, block.tokens_addClause, List.append_assoc]
      refine ⟨⟨List.forall_mem_cons.mpr ⟨⟨⟨hblock.outer, hblock.addClause hhead hm hfirst.1⟩,
        ⟨ht, fun hne => absurd rfl hne, fun _ => ⟨rfl, rfl⟩, ?_⟩, ?_⟩, hup⟩, Members.every_empty,
        ⟨fun u hu => absurd hu (by simp), ?_⟩⟩, fun u _ hne => absurd rfl hne⟩
      · exact fun before u after hsplit => absurd hsplit (by simp)
      · show InOrder (kindsOf (block.clauses ++ [.mk head m.finish]) ++ [.fallback])
        rw [kindsOf_append]
        exact inOrder_append horder hkind (by decide)
      · rw [htokens, head?_frame_append]
        exact hfirst.2
  | openBlock stack m t ht _ =>
      obtain ⟨hstack, hm, hfirst⟩ := hs
      refine ⟨⟨hstack, ⟨hm.flush, fun c hc => absurd hc List.not_mem_nil⟩, ?_, ht, by decide,
        trivial, rfl, fun before u after hsplit => absurd hsplit (by simp)⟩, fun _ => trivial⟩
      have htokens : OpenBlock.tokens ⟨m.flush, t.line, []⟩ = m.tokens := by
        simp [OpenBlock.tokens, tokensOfClauses]
      rw [htokens]
      exact stacked_append hfirst hadmits
  | openGroup stack m t ht =>
      obtain ⟨hstack, hm, hfirst⟩ := hs
      have htokens : Frame.tokens (.group (m.breakBefore t) t) = m.tokens ++ [t] := by
        simp [Frame.tokens]
      refine ⟨⟨List.forall_mem_cons.mpr ⟨⟨hm.breakBefore t, ht⟩, hstack⟩, Members.every_empty,
        ⟨fun u hu => absurd hu (by simp), ?_⟩⟩, fun _ _ => trivial⟩
      rw [htokens]
      exact stacked_append hfirst hadmits
  | plain stack m t ht =>
      obtain ⟨hstack, hm, hfirst⟩ := hs
      have htokens : ((m.breakBefore t).addToken t).tokens = m.tokens ++ [t] := by simp
      refine ⟨⟨hstack, (hm.breakBefore t).addToken (joins_token ht), ?_⟩,
        State.admits_of_ne_nil (by rw [htokens]; simp)⟩
      rw [htokens]
      exact stacked_append hfirst hadmits
  | condition stack block kind directive taken depth t ht =>
      obtain ⟨hstack, hblock, hfirst, hdirective, hkind, horder, rfl, hgoes⟩ := hs
      refine ⟨⟨hstack, hblock, hfirst, hdirective, hkind, horder, ?_, ?_⟩, fun _ => trivial⟩
      · rw [parenDepth, parenDepth, List.foldl_append]
        rfl
      · intro before u after hsplit
        -- the split falls behind the tokens taken before, or on the new one
        rcases List.eq_nil_or_concat after with rfl | ⟨rest, v, rfl⟩
        · obtain ⟨rfl, heq⟩ := List.append_inj' hsplit rfl
          cases heq
          exact ht
        · rw [List.concat_eq_append, ← List.cons_append, ← List.append_assoc] at hsplit
          obtain ⟨htaken, _⟩ := List.append_inj' hsplit rfl
          exact hgoes before u rest htaken
  | body stack block kind directive taken depth t e s ht htaken hread _ ih =>
      obtain ⟨hstack, hblock, hfirst, hdirective, hkind, horder, rfl, hgoes⟩ := hs
      have hsound' : State.IsSound
          (.listing (.clause block ⟨kind, directive, taken, some e⟩ :: stack) .empty) :=
        ⟨List.forall_mem_cons.mpr ⟨hsound.2, hsound.1⟩, Members.isFresh_empty⟩
      have hhead : ClauseHead.IsBuilt read ⟨kind, directive, taken, some e⟩ :=
        ⟨hdirective, fun _ => ⟨htaken, e, hread, rfl⟩, fun heq => absurd heq hkind, hgoes⟩
      refine ih hsound' ⟨List.forall_mem_cons.mpr ⟨⟨hblock, hhead, horder⟩, hstack⟩,
        Members.every_empty, ⟨fun u hu => absurd hu (by simp), ?_⟩⟩ fun _ _ => ht
      have htokens : Frame.tokens (.clause block ⟨kind, directive, taken, some e⟩)
          = (block.tokens ++ [directive]) ++ taken := by
        simp [Frame.tokens]
      rw [htokens, head?_append_of_ne_nil (by simp)]
      exact hfirst

/-- **The nodes of a parsed tree**, at any depth. -/
theorem isParsed_of_assemble {l : Lexed} {tree : SourceTree} (h : assemble read l = .ok tree) :
    Everywhere (IsParsed read) tree.members := by
  have hstart : State.IsSound (.listing [] .empty) ∧ State.IsParsed read (.listing [] .empty)
      ∧ ∀ u, State.Admits (.listing [] .empty) u :=
    ⟨⟨fun _ hf => absurd hf List.not_mem_nil, Members.isFresh_empty⟩,
      ⟨fun _ hf => absurd hf List.not_mem_nil, Members.every_empty, trivial⟩, fun _ => trivial⟩
  obtain ⟨m, ⟨_, hparsed, _⟩, rfl⟩ := assemble_invariant
    (fun _ s => s.IsSound ∧ s.IsParsed read ∧ ∀ u, s.Admits u) hstart
    (fun _ s t s' hs hstep => ⟨hstep.isSound hs.1, hstep.isParsed hs.1 hs.2.1 (hs.2.2 t)⟩) h
  exact hparsed.2.1.finish

end Assembly

end Unflag
