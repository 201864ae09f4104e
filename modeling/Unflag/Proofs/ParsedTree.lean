/-
What a parsed tree holds: every token of the source, each exactly once and in order.

The assembly has a token in one of few places: in a finished node, in the item in hand, in
a frame of the stack, or among the tokens of a condition. `State.tokens` reads them all off
a state, outermost first. Each step adds the token it reads at the end of that list and
moves nothing in front of it, so the tokens of a tree are the tokens it was made from, and
its text is the source.

The second invariant is what a fresh tree does *not* hold: nothing in it has been removed
yet, so no node is a placeholder.
-/
import Unflag.Proofs.AssemblySteps
import Unflag.Proofs.Members
import Unflag.Proofs.TokenScan

set_option autoImplicit false

namespace Unflag

namespace Assembly

/-! ## The tokens of a state -/

/-- The tokens of a member list that is being filled. -/
def Members.tokens (m : Members) : List Token := tokensOfNodes m.nodes ++ tokensOfParts m.parts

/-- The tokens read since the list around a block began. -/
def OpenBlock.tokens (b : OpenBlock) : List Token := b.outer.tokens ++ tokensOfClauses b.clauses

/-- The tokens in front of the member list in hand, back to the one around it. -/
def Frame.tokens : Frame → List Token
  | .group outer opening => outer.tokens ++ [opening]
  | .clause block head => block.tokens ++ (head.directive :: head.tokens)

/-- The tokens of a stack, whose innermost frame comes first. -/
def stackTokens : List Frame → List Token
  | [] => []
  | f :: up => stackTokens up ++ f.tokens

/-- All tokens that a state has read. -/
def State.tokens : State → List Token
  | .listing stack m => stackTokens stack ++ m.tokens
  | .heading stack block _ directive taken _ =>
    stackTokens stack ++ block.tokens ++ (directive :: taken)

/-! ## The parts of a state -/

theorem tokensOfNodes_append (ms ns : List Node) :
    tokensOfNodes (ms ++ ns) = tokensOfNodes ms ++ tokensOfNodes ns := by
  simp only [tokensOfNodes_eq, List.flatMap_append]

theorem tokensOfParts_append (ps qs : List Part) :
    tokensOfParts (ps ++ qs) = tokensOfParts ps ++ tokensOfParts qs := by
  simp only [tokensOfParts_eq, List.flatMap_append]

theorem tokensOfClauses_append (cs ds : List Clause) :
    tokensOfClauses (cs ++ ds) = tokensOfClauses cs ++ tokensOfClauses ds := by
  simp only [tokensOfClauses_eq, List.flatMap_append]

@[simp] theorem Members.tokens_empty : Members.empty.tokens = [] := rfl

/-- Finishing the item in hand moves its tokens and changes none. -/
@[simp] theorem Members.tokens_flush (m : Members) : m.flush.tokens = m.tokens := by
  unfold Members.flush
  split
  · rfl
  · simp [Members.tokens, tokensOfNodes_append, tokensOfNodes, Node.tokens, tokensOfParts]

@[simp] theorem Members.parts_flush (m : Members) : m.flush.parts = [] := by
  unfold Members.flush
  split
  · next h => simpa using h
  · rfl

/-- A finished list holds the tokens of the list. -/
@[simp] theorem Members.tokens_finish (m : Members) : tokensOfNodes m.finish = m.tokens := by
  rw [← Members.tokens_flush, Members.tokens, Members.parts_flush, tokensOfParts, List.append_nil,
    Members.finish]

@[simp] theorem Members.tokens_addPart (m : Members) (p : Part) :
    (m.addPart p).tokens = m.tokens ++ p.tokens := by
  simp [Members.tokens, Members.addPart, tokensOfParts_append, tokensOfParts]

/-- A node goes behind the nodes, so it may only be added where no item is in hand. -/
theorem Members.tokens_addNode (m : Members) (n : Node) (h : m.parts = []) :
    (m.addNode n).tokens = m.tokens ++ n.tokens := by
  simp [Members.tokens, Members.addNode, h, tokensOfNodes_append, tokensOfNodes, tokensOfParts]

@[simp] theorem Members.tokens_breakBefore (m : Members) (t : Token) :
    (m.breakBefore t).tokens = m.tokens := by
  unfold Members.breakBefore
  split
  · exact m.tokens_flush
  · rfl

/-- A token joins the item in hand; a semicolon outside brackets ends it. -/
theorem Members.addToken_cases (m : Members) (t : Token) :
    (∃ depth, m.addToken t = { m.addPart (.token t) with depth })
      ∨ m.addToken t = (m.addPart (.token t)).flush := by
  unfold Members.addToken
  dsimp only
  split
  · exact .inl ⟨_, rfl⟩
  split
  · exact .inl ⟨_, rfl⟩
  split
  · exact .inr rfl
  · exact .inl ⟨_, rfl⟩

@[simp] theorem Members.tokens_addToken (m : Members) (t : Token) :
    (m.addToken t).tokens = m.tokens ++ [t] := by
  have hpart : (m.addPart (.token t)).tokens = m.tokens ++ [t] := m.tokens_addPart _
  rcases m.addToken_cases t with ⟨depth, hadded⟩ | hadded
  · rw [hadded]
    exact hpart
  · rw [hadded, Members.tokens_flush, hpart]

/-! ## Nothing removed -/

/-- A node that stands in the source; only a removed block leaves something else. -/
def IsFresh : Node → Prop
  | .placeholder _ => False
  | _ => True

/-- No placeholder in the nodes of the list, nor in the groups of the item in hand. -/
def Members.IsFresh (m : Members) : Prop :=
  Everywhere Unflag.Assembly.IsFresh m.nodes ∧
    ∀ opening members closing, Part.group opening members closing ∈ m.parts →
      Everywhere Unflag.Assembly.IsFresh members

theorem Members.isFresh_empty : Members.empty.IsFresh :=
  ⟨everywhere_nil, fun _ _ _ hgroup => absurd hgroup List.not_mem_nil⟩

theorem Members.IsFresh.flush {m : Members} (h : m.IsFresh) : m.flush.IsFresh := by
  unfold Members.flush
  split
  · exact h
  · refine ⟨everywhere_append.mpr ⟨h.1, everywhere_item.mpr ⟨trivial, h.2⟩⟩, ?_⟩
    exact fun _ _ _ hgroup => absurd hgroup List.not_mem_nil

theorem Members.IsFresh.finish {m : Members} (h : m.IsFresh) :
    Everywhere Unflag.Assembly.IsFresh m.finish := h.flush.1

theorem Members.IsFresh.breakBefore {m : Members} (h : m.IsFresh) (t : Token) :
    (m.breakBefore t).IsFresh := by
  unfold Members.breakBefore
  split
  · exact h.flush
  · exact h

theorem Members.IsFresh.addToken {m : Members} (h : m.IsFresh) (t : Token) :
    (m.addToken t).IsFresh := by
  have hpart : (m.addPart (.token t)).IsFresh := by
    refine ⟨h.1, fun opening members closing hgroup => h.2 opening members closing ?_⟩
    simpa [Members.addPart] using hgroup
  rcases m.addToken_cases t with ⟨depth, hadded⟩ | hadded
  · rw [hadded]
    exact hpart
  · rw [hadded]
    exact hpart.flush

theorem Members.IsFresh.addGroup {m inner : Members} (h : m.IsFresh) (hinner : inner.IsFresh)
    (opening closing : Token) : (m.addPart (.group opening inner.finish closing)).IsFresh := by
  refine ⟨h.1, fun o ms c hgroup => ?_⟩
  rcases List.mem_append.mp hgroup with hgroup | hgroup
  · exact h.2 o ms c hgroup
  · cases List.mem_singleton.mp hgroup
    exact hinner.finish

/-! ## The invariant -/

/-- A block that is being read: the list around it has no item in hand, for the block came
behind it, and neither that list nor a finished clause holds a placeholder. -/
structure OpenBlock.IsSound (b : OpenBlock) : Prop where
  settled : b.outer.parts = []
  outer : b.outer.IsFresh
  clauses : ∀ c ∈ b.clauses, Everywhere Unflag.Assembly.IsFresh c.body

/-- The same of what the list in hand stands in. -/
def Frame.IsSound : Frame → Prop
  | .group outer _ => outer.IsFresh
  | .clause block _ => block.IsSound

/-- The invariant of the assembly. -/
def State.IsSound : State → Prop
  | .listing stack m => (∀ f ∈ stack, f.IsSound) ∧ m.IsFresh
  | .heading stack block _ _ _ _ => (∀ f ∈ stack, f.IsSound) ∧ block.IsSound

/-- A further clause keeps an open block sound. -/
theorem OpenBlock.IsSound.addClause {b : OpenBlock} {m : Members} (h : b.IsSound) (hm : m.IsFresh)
    (head : ClauseHead) :
    OpenBlock.IsSound { b with clauses := b.clauses ++ [.mk head m.finish] } := by
  refine ⟨h.settled, h.outer, fun c hc => ?_⟩
  rcases List.mem_append.mp hc with hc | hc
  · exact h.clauses c hc
  · rw [List.mem_singleton.mp hc]
    exact hm.finish

variable {read : List Token → Except Refusal Condition} {s s' : State} {t : Token}

/-- **Every step keeps the invariant.** -/
theorem Step.isSound (h : Step read s t s') (hs : s.IsSound) : s'.IsSound := by
  induction h with
  | closeGroup outer opening up m t _ =>
      obtain ⟨hframe, hup⟩ := List.forall_mem_cons.mp hs.1
      exact ⟨hup, Members.IsFresh.addGroup hframe hs.2 opening t⟩
  | endBlock block head up m t _ =>
      obtain ⟨hframe, hup⟩ := List.forall_mem_cons.mp hs.1
      have hclosed := OpenBlock.IsSound.addClause hframe hs.2 head
      refine ⟨hup, everywhere_append.mpr ⟨hclosed.outer.1, ?_⟩, hclosed.outer.2⟩
      exact everywhere_block.mpr ⟨trivial, hclosed.clauses⟩
  | alternative block head up m t _ _ =>
      obtain ⟨hframe, hup⟩ := List.forall_mem_cons.mp hs.1
      exact ⟨hup, OpenBlock.IsSound.addClause hframe hs.2 head⟩
  | fallback block head up m t _ _ =>
      obtain ⟨hframe, hup⟩ := List.forall_mem_cons.mp hs.1
      have hclosed := OpenBlock.IsSound.addClause hframe hs.2 head
      exact ⟨List.forall_mem_cons.mpr ⟨hclosed, hup⟩, Members.isFresh_empty⟩
  | openBlock stack m t _ _ =>
      exact ⟨hs.1, m.parts_flush, hs.2.flush, fun _ hc => absurd hc List.not_mem_nil⟩
  | openGroup stack m t _ =>
      exact ⟨List.forall_mem_cons.mpr ⟨hs.2.breakBefore t, hs.1⟩, Members.isFresh_empty⟩
  | plain stack m t _ => exact ⟨hs.1, (hs.2.breakBefore t).addToken t⟩
  | condition stack block kind directive taken depth t _ => exact hs
  | body stack block kind directive taken depth t e s _ _ _ _ ih =>
      exact ih ⟨List.forall_mem_cons.mpr ⟨hs.2, hs.1⟩, Members.isFresh_empty⟩

/-- **Every step puts its token behind the others**, and nothing else moves. -/
theorem Step.tokens_eq (h : Step read s t s') (hs : s.IsSound) : s'.tokens = s.tokens ++ [t] := by
  induction h with
  | closeGroup outer opening up m t _ =>
      simp [State.tokens, stackTokens, Frame.tokens, Part.tokens]
  | endBlock block head up m t _ =>
      -- the block goes behind the nodes around it, where no item may be in hand
      have hblock : block.IsSound := (List.forall_mem_cons.mp hs.1).1
      simp [State.tokens, stackTokens, Frame.tokens, OpenBlock.tokens, Node.tokens,
        block.outer.tokens_addNode _ hblock.settled, tokensOfClauses_append, tokensOfClauses,
        Clause.tokens]
  | alternative block head up m t _ _ =>
      simp [State.tokens, stackTokens, Frame.tokens, OpenBlock.tokens, tokensOfClauses_append,
        tokensOfClauses, Clause.tokens]
  | fallback block head up m t _ _ =>
      simp [State.tokens, stackTokens, Frame.tokens, OpenBlock.tokens, tokensOfClauses_append,
        tokensOfClauses, Clause.tokens]
  | openBlock stack m t _ _ => simp [State.tokens, OpenBlock.tokens, tokensOfClauses]
  | openGroup stack m t _ => simp [State.tokens, stackTokens, Frame.tokens]
  | plain stack m t _ => simp [State.tokens]
  | condition stack block kind directive taken depth t _ => simp [State.tokens]
  | body stack block kind directive taken depth t e s _ _ _ _ ih =>
      -- the tokens of the heading are now those of the frame of its clause
      rw [ih ⟨List.forall_mem_cons.mpr ⟨hs.2, hs.1⟩, Members.isFresh_empty⟩]
      simp [State.tokens, stackTokens, Frame.tokens]

/-- The tokens of a tree are those it was assembled from, and it holds no placeholder. -/
theorem tree_of_assemble {l : Lexed} {tree : SourceTree} (h : assemble read l = .ok tree) :
    tree.tokens = l.toList ∧ Everywhere IsFresh tree.members := by
  have hstart : State.IsSound (.listing [] .empty) :=
    ⟨fun _ hframe => absurd hframe List.not_mem_nil, Members.isFresh_empty⟩
  obtain ⟨m, ⟨hsound, htokens⟩, rfl⟩ := assemble_invariant
    (fun ts s => s.IsSound ∧ s.tokens = ts) ⟨hstart, rfl⟩
    (fun ts s t s' hs hstep => ⟨hstep.isSound hs.1, by rw [hstep.tokens_eq hs.1, hs.2]⟩) h
  refine ⟨?_, hsound.2.finish⟩
  rw [SourceTree.tokens, Members.tokens_finish, Lexed.toList, ← htokens]
  rfl

end Assembly

/-! ## Sources -/

/-- A parsed source went through the scan and the assembly. -/
theorem exists_of_parse {g : Grouping} {source : Text} {tree : SourceTree}
    (h : SourceTree.parse g source = .ok tree) :
    ∃ l, tokenize source = .ok l
      ∧ Assembly.assemble (Condition.ofTokens g) l = .ok tree := by
  unfold SourceTree.parse SourceTree.parseWith at h
  split at h
  · exact absurd h (by simp)
  · next l hl => exact ⟨l, hl, h⟩

/-- What a test finds in a parsed source, it finds in a tree. -/
theorem exists_of_parse_any {g : Grouping} {source : Text} {p : SourceTree → Bool}
    (h : (SourceTree.parse g source).toOption.any p = true) :
    ∃ tree, SourceTree.parse g source = .ok tree ∧ p tree = true := by
  cases hparse : SourceTree.parse g source with
  | error e => rw [hparse] at h; exact absurd h (by simp [Except.toOption])
  | ok tree => rw [hparse] at h; exact ⟨tree, rfl, h⟩

/-- A parsed source holds no placeholder, at any depth. -/
theorem isFresh_of_parse {g : Grouping} {source : Text} {tree : SourceTree}
    (h : SourceTree.parse g source = .ok tree) : Everywhere Assembly.IsFresh tree.members := by
  obtain ⟨l, _, hassemble⟩ := exists_of_parse h
  exact (Assembly.tree_of_assemble hassemble).2

/-- **Parsing and printing.** The tokens of a parsed source are the tokens of its scan, the
end of the file last, and its text is the source. -/
theorem parse_tokens_render {g : Grouping} {source : Text} {tree : SourceTree}
    (h : SourceTree.parse g source = .ok tree) :
    (∃ l, tokenize source = .ok l ∧ tree.tokens = l.toList) ∧ tree.render = source := by
  obtain ⟨l, hl, hassemble⟩ := exists_of_parse h
  have htokens := (Assembly.tree_of_assemble hassemble).1
  refine ⟨⟨l, hl, htokens⟩, ?_⟩
  calc tree.render = Token.sourceAll tree.tokens := rfl
    _ = l.source := by rw [htokens]; rfl
    _ = source := source_of_tokenize hl

theorem parse_tokens_render_class :
    ∃ source tree, source = "class C \x7b\n#if A\n  var a = 1\n#endif\n\x7d // C\n".toList
      ∧ SourceTree.parse .swift source = .ok tree ∧ tree.members.length = 1
      ∧ (∃ l, tokenize source = .ok l ∧ tree.tokens = l.toList) ∧ tree.render = source := by
  have hparse : (SourceTree.parse .swift
      "class C \x7b\n#if A\n  var a = 1\n#endif\n\x7d // C\n".toList).toOption.any
        (fun tree => tree.members.length == 1) = true := by decide +kernel
  obtain ⟨tree, htree, hlength⟩ := exists_of_parse_any hparse
  exact ⟨_, tree, rfl, htree, by simpa using hlength, parse_tokens_render htree⟩

end Unflag
