/-
What a build compiles of a source, before and after a resolution.

Seen by a compiler, a tree is the sequence of tokens that is left when every block, at any
depth, has been replaced by the body of the clause the build chooses. Trivia and
placeholders do not count. Removing a flag must not change that sequence for any build that
has the flag on, and whatever else it has on.

The proof is one induction over member lists. A block on another flag is kept, and the
build chooses the same clause of it; a block on the flag is replaced by the body of exactly
the clause the build would have chosen. What remains are the seams: a body that moves up
has another trivia in front and may lose placeholders, and a body without a token vanishes.
-/
import Unflag.Proofs.ParsedTree
import Unflag.Proofs.Resolved

set_option autoImplicit false

namespace Unflag

/-! ## The tokens a build compiles -/

mutual

/-- The tokens of a node that a build compiles. -/
def Node.compiled (b : Build) : Node → List Token
  | .item _ parts => compiledOfParts b parts
  | .block clauses _ =>
    (b.choose ((clauses.map Clause.head).zip (compiledOfBodies b clauses))).elim [] Prod.snd
  | .placeholder t => [t]

/-- The tokens of a part that a build compiles. -/
def Part.compiled (b : Build) : Part → List Token
  | .token t => [t]
  | .group opening members closing => opening :: compiledOfNodes b members ++ [closing]

/-- The tokens of the body of a clause that a build compiles, if it takes the clause. -/
def Clause.compiled (b : Build) : Clause → List Token
  | .mk _ body => compiledOfNodes b body

/-- The tokens of a member list that a build compiles. -/
def compiledOfNodes (b : Build) : List Node → List Token
  | [] => []
  | n :: r => n.compiled b ++ compiledOfNodes b r

/-- The tokens of the parts of an item that a build compiles. -/
def compiledOfParts (b : Build) : List Part → List Token
  | [] => []
  | p :: r => p.compiled b ++ compiledOfParts b r

/-- The same for each body of a block. -/
def compiledOfBodies (b : Build) : List Clause → List (List Token)
  | [] => []
  | c :: r => c.compiled b :: compiledOfBodies b r

end

/-- The classes and texts of tokens. Placeholders stand for nothing and are left out. -/
def Token.words (ts : List Token) : List (Token.Kind × Text) :=
  (ts.filter fun t => t.kind != .placeholder).map fun t => (t.kind, t.text)

/-- What a build sees of a tree. -/
def SourceTree.compiled (b : Build) (t : SourceTree) : List (Token.Kind × Text) :=
  Token.words (compiledOfNodes b t.members ++ [t.eof])

/-! ## Lists -/

theorem compiledOfNodes_eq (b : Build) (ns : List Node) :
    compiledOfNodes b ns = ns.flatMap (Node.compiled b) := by
  induction ns with
  | nil => rfl
  | cons n r ih => rw [compiledOfNodes, ih, List.flatMap_cons]

theorem compiledOfNodes_append (b : Build) (ms ns : List Node) :
    compiledOfNodes b (ms ++ ns) = compiledOfNodes b ms ++ compiledOfNodes b ns := by
  simp only [compiledOfNodes_eq, List.flatMap_append]

theorem compiledOfParts_eq (b : Build) (ps : List Part) :
    compiledOfParts b ps = ps.flatMap (Part.compiled b) := by
  induction ps with
  | nil => rfl
  | cons p r ih => rw [compiledOfParts, ih, List.flatMap_cons]

theorem compiledOfBodies_eq (b : Build) (cs : List Clause) :
    compiledOfBodies b cs = cs.map fun c => compiledOfNodes b c.body := by
  induction cs with
  | nil => rfl
  | cons c r ih => cases c; rw [compiledOfBodies, ih, List.map_cons]; rfl

/-- Of a block a build compiles the body it chooses. -/
theorem compiled_block (b : Build) (cs : List Clause) (ending : Token) :
    (Node.block cs ending).compiled b = match b.chosen cs with
      | some c => compiledOfNodes b c.body
      | none => [] := by
  rw [Node.compiled, compiledOfBodies_eq, List.zip_map', Build.choose_eq_chosen]
  cases b.chosen cs <;> rfl

@[simp] theorem Token.words_append (ts us : List Token) :
    Token.words (ts ++ us) = Token.words ts ++ Token.words us := by
  rw [Token.words, List.filter_append, List.map_append]
  rfl

/-- Other trivia in front of a token changes nothing that counts. -/
theorem Token.words_leading (t : Token) (leading : Trivia) :
    Token.words [{ t with leading }] = Token.words [t] := by
  simp only [Token.words, List.filter_cons]
  split <;> rfl

theorem Token.words_placeholder {t : Token} (h : t.kind = .placeholder) : Token.words [t] = [] := by
  simp [Token.words, h]

theorem Token.words_eq_nil {ts : List Token} (h : ∀ t ∈ ts, t.kind = .placeholder) :
    Token.words ts = [] := by
  rw [Token.words, List.map_eq_nil_iff, List.filter_eq_nil_iff]
  exact fun t ht => by simp [h t ht]

/-- A build compiles only tokens of the tree. -/
theorem mem_tokens_of_mem_compiled {b : Build} {ns : List Node} :
    ∀ t ∈ compiledOfNodes b ns, t ∈ tokensOfNodes ns := by
  induction ns using memberInduction with
  | nil => exact fun t ht => ht
  | item kind parts rest ihGroups ihRest =>
      have hparts : ∀ t ∈ compiledOfParts b parts, t ∈ tokensOfParts parts := by
        rw [compiledOfParts_eq, tokensOfParts_eq]
        intro t ht
        obtain ⟨p, hp, ht⟩ := List.mem_flatMap.mp ht
        refine List.mem_flatMap.mpr ⟨p, hp, ?_⟩
        cases p with
        | token u => exact ht
        | group opening members closing =>
            have hmembers := ihGroups opening members closing hp
            simp only [Part.compiled, List.cons_append, List.mem_cons, List.mem_append] at ht
            simp only [Part.tokens, List.cons_append, List.mem_cons, List.mem_append]
            exact ht.imp_right fun ht => ht.imp_left (hmembers t)
      intro t ht
      exact (List.mem_append.mp ht).elim (fun ht => List.mem_append_left _ (hparts t ht))
        fun ht => List.mem_append_right _ (ihRest t ht)
  | block cs ending rest ihBodies ihRest =>
      intro t ht
      rcases List.mem_append.mp ht with ht | ht
      · rw [compiled_block] at ht
        split at ht
        · next c hc =>
          have hmem := Build.mem_of_chosen hc
          have htokens : t ∈ c.tokens := by
            cases c
            exact List.mem_append_right _ (ihBodies _ hmem t ht)
          refine List.mem_append_left _ (List.mem_append_left _ ?_)
          rw [tokensOfClauses_eq]
          exact List.mem_flatMap.mpr ⟨c, hmem, htokens⟩
        · exact absurd ht List.not_mem_nil
      · exact List.mem_append_right _ (ihRest t ht)
  | placeholder u rest ihRest =>
      intro t ht
      rcases List.mem_append.mp ht with ht | ht
      · exact List.mem_append_left _ ht
      · exact List.mem_append_right _ (ihRest t ht)

/-! ## The seams -/

/-- A body without a token of the source compiles to nothing. -/
theorem words_compiled_of_not_hasContent {ns : List Node} (h : ¬ hasContent ns = true) (b : Build) :
    Token.words (compiledOfNodes b ns) = [] := by
  apply Token.words_eq_nil
  intro t ht
  have hall : ∀ u ∈ tokensOfNodes ns, u.kind = .placeholder := by simpa [hasContent] using h
  exact hall t (mem_tokens_of_mem_compiled t ht)

/-- Only the kind and the condition of an opening line decide whether it is chosen. -/
theorem Build.choose_directive {α : Type} (b : Build) (h : ClauseHead) (t : Token) (x d : α)
    (r : List (ClauseHead × α)) :
    (b.choose (({ h with directive := t }, x) :: r)).elim d Prod.snd
      = (b.choose ((h, x) :: r)).elim d Prod.snd := by
  have htakes : b.takes { h with directive := t } = b.takes h := rfl
  unfold Build.choose
  rw [List.find?_cons, List.find?_cons, htakes, List.filter_cons, List.filter_cons]
  cases b.takes h
  · dsimp only
    cases r.find? fun c => b.takes c.1
    · split
      · rw [List.getLast?_cons, List.getLast?_cons]
        cases (r.filter fun c => c.1.kind == .fallback).getLast? <;> rfl
      · rfl
    · rfl
  · rfl

/-- A node with other trivia in front compiles to the same. -/
theorem words_compiled_withFirstToken {n : Node} {t : Token} (ht : n.firstToken? = some t)
    (b : Build) (leading : Trivia) :
    Token.words ((n.withFirstToken { t with leading }).compiled b)
      = Token.words (n.compiled b) := by
  cases n with
  | item kind parts =>
      cases parts with
      | nil => exact absurd ht (by simp [Node.firstToken?])
      | cons p r =>
          cases p with
          | token u =>
              cases ht
              simp only [Node.withFirstToken, Node.compiled, compiledOfParts, Part.compiled,
                Token.words_append, Token.words_leading]
          | group u members closing =>
              cases ht
              have hgroup : ∀ v : Token, (Part.group v members closing).compiled b
                  = [v] ++ (compiledOfNodes b members ++ [closing]) := fun _ => rfl
              simp only [Node.withFirstToken, Node.compiled, compiledOfParts, hgroup,
                Token.words_append, Token.words_leading]
  | block cs ending =>
      cases cs with
      | nil => exact absurd ht (by simp [Node.firstToken?])
      | cons c r =>
          -- the first token of a block is its directive, which is not compiled
          obtain ⟨head, body⟩ := c
          exact congrArg Token.words (b.choose_directive head _ _ _ _)
  | placeholder u =>
      cases ht
      exact Token.words_leading t leading

/-- A placeholder as a resolution leaves it. -/
def IsVacant : Node → Prop
  | .placeholder t => t = .placeholder t.leading
  | _ => True

/-- **Splicing** a body into the place of its block changes nothing that counts. -/
theorem words_compiled_splice {ns : List Node} (h : Everywhere IsVacant ns) (b : Build)
    (leading : Trivia) :
    Token.words (compiledOfNodes b (splice leading ns)) = Token.words (compiledOfNodes b ns) := by
  induction ns generalizing leading with
  | nil => rfl
  | cons n r ih =>
      obtain ⟨hn, hr⟩ := everywhere_cons.mp h
      unfold splice
      split
      · next heq => exact absurd heq (by simp)
      · next t r' heq =>
        -- a placeholder at the top of the body is dropped, and compiles to nothing
        cases heq
        have hvacant : t = .placeholder t.leading := everywhere_placeholder.mp hn
        have hkind : t.kind = .placeholder := by rw [hvacant]; rfl
        have hwords : Token.words ((Node.placeholder t).compiled b) = [] :=
          Token.words_placeholder hkind
        rw [ih hr, compiledOfNodes, Token.words_append, hwords, List.nil_append]
      · next n' r' _ heq =>
        cases heq
        split
        · next t ht =>
          rw [compiledOfNodes, compiledOfNodes, Token.words_append, Token.words_append,
            words_compiled_withFirstToken ht]
        · rfl

/-- A resolution leaves only placeholders of the one form. -/
theorem isVacant_resolve {ns : List Node} (flag : Text) (h : Everywhere IsVacant ns) :
    Everywhere IsVacant (resolveNodes flag ns) := by
  refine everywhere_resolve (fun _ _ _ => trivial) (fun _ _ _ _ => trivial) (fun _ ht => ht)
    (fun _ => rfl) ?_ h
  intro n t leading ht hn
  cases n with
  | placeholder u =>
      cases ht
      have hvacant : t = .placeholder t.leading := hn
      show ({ t with leading } : Token) = .placeholder leading
      rw [hvacant]
      rfl
  | item kind parts =>
      obtain ⟨ps, hps⟩ := Node.withFirstToken_item kind parts { t with leading }
      rw [hps]
      trivial
  | block cs ending =>
      obtain ⟨ds, hds, _⟩ := Node.withFirstToken_block cs ending { t with leading }
      rw [hds]
      trivial

/-! ## The meaning is kept -/

variable {flag : Text} {b : Build}

/-- The parts of an item compile to the same if the lists between its braces do. -/
theorem words_compiledOfParts_resolve {parts : List Part}
    (h : ∀ opening members closing, Part.group opening members closing ∈ parts →
      Token.words (compiledOfNodes b (resolveNodes flag members))
        = Token.words (compiledOfNodes b members)) :
    Token.words (compiledOfParts b (resolveParts flag parts))
      = Token.words (compiledOfParts b parts) := by
  induction parts with
  | nil => rfl
  | cons p r ih =>
      have hr := ih fun opening members closing hgroup =>
        h opening members closing (List.mem_cons_of_mem p hgroup)
      rw [resolveParts, compiledOfParts, compiledOfParts, Token.words_append, Token.words_append,
        hr]
      congr 1
      cases p with
      | token t => rfl
      | group opening members closing =>
          have hmembers := h opening members closing List.mem_cons_self
          have hgroup : ∀ ns : List Node, (Part.group opening ns closing).compiled b
              = [opening] ++ (compiledOfNodes b ns ++ [closing]) := fun _ => rfl
          simp only [Part.resolve, hgroup, Token.words_append, hmembers]

/-- What is left of a block on the flag compiles to the body that the build chooses. -/
theorem words_compiled_resolve_block (hb : b.isOn flag = true) {cs : List Clause}
    (hflags : FlagsAre flag cs) (hvacant : ∀ c ∈ cs, Everywhere IsVacant c.body)
    (hbodies : ∀ c ∈ cs, Token.words (compiledOfNodes b (resolveNodes flag c.body))
      = Token.words (compiledOfNodes b c.body)) (ending : Token) :
    Token.words (compiledOfNodes b ((Node.block cs ending).resolve flag))
      = Token.words ((Node.block cs ending).compiled b) := by
  have hleft : Token.words (compiledOfNodes b (vacated cs)) = [] := rfl
  rw [resolve_block_of_flagsAre hb hflags, compiled_block]
  cases hc : b.chosen cs with
  | none => exact hleft
  | some c =>
      have hmem := Build.mem_of_chosen hc
      dsimp only
      -- a body without content is not spliced, and there is nothing in it to compile
      by_cases hcontent : hasContent (resolveNodes flag c.body) = true
      · rw [if_pos hcontent, words_compiled_splice (isVacant_resolve flag (hvacant c hmem)),
          hbodies c hmem]
      · rw [if_neg hcontent, hleft, ← hbodies c hmem, words_compiled_of_not_hasContent hcontent]

/-- **A resolution keeps what every build with the flag on compiles.** -/
theorem words_compiled_resolve (hb : b.isOn flag = true) {ns : List Node}
    (h : Everywhere IsVacant ns) :
    Token.words (compiledOfNodes b (resolveNodes flag ns))
      = Token.words (compiledOfNodes b ns) := by
  induction ns using memberInduction with
  | nil => rfl
  | item kind parts rest ihGroups ihRest =>
      obtain ⟨hfirst, hrest⟩ := everywhere_cons.mp h
      have hgroups := (everywhere_item.mp hfirst).2
      have hparts := words_compiledOfParts_resolve fun opening members closing hgroup =>
        ihGroups opening members closing hgroup (hgroups opening members closing hgroup)
      have hone : compiledOfNodes b ((Node.item kind parts).resolve flag)
          = compiledOfParts b (resolveParts flag parts) := List.append_nil _
      rw [resolveNodes, compiledOfNodes_append, Token.words_append, hone, hparts, ihRest hrest,
        compiledOfNodes, Token.words_append]
      rfl
  | block cs ending rest ihBodies ihRest =>
      obtain ⟨hfirst, hrest⟩ := everywhere_cons.mp h
      have hvacant := (everywhere_block.mp hfirst).2
      have hbodies := fun c hc => ihBodies c hc (hvacant c hc)
      rw [resolveNodes, compiledOfNodes_append, Token.words_append, ihRest hrest, compiledOfNodes,
        Token.words_append]
      congr 1
      by_cases hflags : FlagsAre flag cs
      · exact words_compiled_resolve_block hb hflags hvacant hbodies ending
      · -- the block stays, and the build chooses the clause it chose before
        rw [resolve_block_of_not_flagsAre hflags, compiledOfNodes, compiledOfNodes, List.append_nil,
          compiled_block, compiled_block, b.chosen_resolveClauses]
        cases hc : b.chosen cs with
        | none => rfl
        | some c =>
            simp only [Option.map_some, c.body_resolve]
            exact hbodies c (Build.mem_of_chosen hc)
  | placeholder t rest ihRest =>
      have hrest := (everywhere_cons.mp h).2
      rw [resolveNodes, compiledOfNodes_append, Token.words_append, ihRest hrest, compiledOfNodes,
        Token.words_append]
      rfl

/-- A tree that holds no placeholder has none of another form. -/
theorem isVacant_of_isFresh {ns : List Node} (h : Everywhere Assembly.IsFresh ns) :
    Everywhere IsVacant ns := by
  intro s hs
  have hfresh := h s hs
  cases hnode : s.node with
  | placeholder t => rw [hnode] at hfresh; exact hfresh.elim
  | item kind parts => trivial
  | block cs ending => trivial

/-- **Removing a flag keeps the meaning of a source.** Whatever the source and the grouping
of its conditions, a build that has the flag on compiles the same tokens from the resolved
tree as from the source. -/
theorem compiled_resolve_of_parse {g : Grouping} {source : Text} {tree : SourceTree}
    (h : SourceTree.parse g source = .ok tree) (flag : Text) (b : Build)
    (hb : b.isOn flag = true) : (tree.resolve flag).compiled b = tree.compiled b := by
  have hmembers := words_compiled_resolve hb (isVacant_of_isFresh (isFresh_of_parse h))
  simp only [SourceTree.compiled, SourceTree.resolve, Token.words_append, hmembers]

theorem compiled_resolve_of_parse_nested :
    ∃ source tree,
      source = "#if B\nfunc f() \x7b\n#if A\na()\n#else\nb()\n#endif\n\x7d\n#endif\n".toList
      ∧ SourceTree.parse .sequential source = .ok tree ∧ tree.isEdited "A".toList = true
      ∧ (tree.resolve "A".toList).compiled ⟨fun _ => true, fun _ => false⟩
        = tree.compiled ⟨fun _ => true, fun _ => false⟩ := by
  have hparse : (SourceTree.parse .sequential
      "#if B\nfunc f() \x7b\n#if A\na()\n#else\nb()\n#endif\n\x7d\n#endif\n".toList).toOption.any
        (SourceTree.isEdited "A".toList) = true := by decide +kernel
  obtain ⟨tree, htree, hedited⟩ := exists_of_parse_any hparse
  exact ⟨_, tree, rfl, htree, hedited, compiled_resolve_of_parse htree "A".toList _ rfl⟩

end Unflag
