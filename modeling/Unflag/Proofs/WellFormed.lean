/-
Well-formed trees, and why a resolution never fails.

A resolution looks things up that a tree need not have: the first clause of a block, the
condition of a clause, the first part of an item, and a first node behind the placeholders at
the top of a body. Where they are missing, `resolve` gives some answer or other. This file
says which trees have them, that the parser makes such trees, and that a resolution makes
such trees from such trees.

To say that the look-ups succeed they must be able to fail. `resolve?` is the resolution with
every look-up left open: it has no answer as soon as one of them has none. On a well-formed
tree it has one, and it is that of `resolve`; so whatever is proved of `resolve` is proved of
a function that had every part it asked for.
-/
import Unflag.Proofs.Occurrences
import Unflag.Proofs.ParsedShape

set_option autoImplicit false

namespace Unflag

open Assembly

/-! ## Well-formed trees -/

/-- Whether a token is one of the four directives of a block. -/
def Token.isBlockWord (t : Token) : Bool :=
  t.isOneOf .directive ["#if", "#elseif", "#else", "#endif"]

/-- An opening line: its directive is that of its kind, and it has a condition unless it is
the fallback. -/
structure ClauseHead.IsWellFormed (h : ClauseHead) : Prop where
  directive : h.directive.is .directive h.kind.word = true
  condition : h.kind ≠ .fallback → h.tokens ≠ [] ∧ h.condition ≠ none
  fallback : h.kind = .fallback → h.tokens = [] ∧ h.condition = none
  inner : ∀ t ∈ h.tokens, t.isBlockWord = false

/-- A block: one clause at least, the first one primary and no other, none but the last one
the fallback. -/
structure IsWellFormedBlock (cs : List Clause) (ending : Token) : Prop where
  first : ∃ c r, cs = c :: r ∧ c.head.kind = .primary ∧ ∀ d ∈ r, d.head.kind ≠ .primary
  last : ∀ c ∈ cs.dropLast, c.head.kind ≠ .fallback
  heads : ∀ c ∈ cs, c.head.IsWellFormed
  ending : ending.is .directive "#endif" = true

/-- The tokens that a part holds itself, those of its member list left out. -/
def Part.ownTokens : Part → List Token
  | .token t => [t]
  | .group opening _ closing => [opening, closing]

/-- A node of a well-formed tree. -/
def Node.IsWellFormed : Node → Prop
  | .item _ parts => parts ≠ [] ∧ ∀ p ∈ parts, ∀ t ∈ p.ownTokens, t.isBlockWord = false
  | .block cs ending => IsWellFormedBlock cs ending
  | .placeholder t => t = .placeholder t.leading

/-- A well-formed tree. The directives of blocks stand where a block has its directives, and
nowhere else. -/
structure SourceTree.IsWellFormed (t : SourceTree) : Prop where
  nodes : Everywhere Node.IsWellFormed t.members
  directives : ∀ o ∈ t.occurrences, o.token.isBlockWord = true →
    ∃ a ∈ o.around.getLast?, a.2.isDirective = true

/-! ## Parsed trees are well-formed -/

theorem isBlockWord_eq_false_of_kind {t : Token} (h : t.kind ≠ .directive) :
    t.isBlockWord = false := by
  simp [Token.isBlockWord, Token.isOneOf, h]

theorem isBlockWord_of_is_punctuation {t : Token} {word : String}
    (h : t.is .punctuation word = true) : t.isBlockWord = false := by
  have hkind : t.kind = .punctuation := by
    simp only [Token.is, Bool.and_eq_true, beq_iff_eq] at h
    exact h.1
  exact isBlockWord_eq_false_of_kind (by rw [hkind]; decide)

theorem isBlockWord_of_isPlain {t : Token} (h : IsPlain t) : t.isBlockWord = false := by
  obtain ⟨_, hboundary, hif, _⟩ := h
  by_cases hkind : t.kind = .directive
  · simp only [isBoundary, Token.isOneOf, Token.is, hkind, beq_self_eq_true, Bool.true_and,
      List.any_cons, List.any_nil, Bool.or_false] at hboundary hif
    simp only [Token.isBlockWord, Token.isOneOf, hkind, beq_self_eq_true, Bool.true_and,
      List.any_cons, List.any_nil, Bool.or_false, hif, hboundary]
  · exact isBlockWord_eq_false_of_kind hkind

/-- The two ways of saying in which order the clauses of a block come. -/
theorem not_primary_of_followOn {ks : List ClauseKind} (h : FollowOn ks) :
    (∀ k ∈ ks, k ≠ .primary) ∧ ∀ k ∈ ks.dropLast, k ≠ .fallback := by
  induction ks with
  | nil => simp
  | cons j r ih =>
      cases j with
      | primary => exact h.elim
      | alternative =>
          obtain ⟨hprimary, hfallback⟩ := ih h
          refine ⟨List.forall_mem_cons.mpr ⟨by decide, hprimary⟩, ?_⟩
          cases r with
          | nil => simp
          | cons k r => exact List.forall_mem_cons.mpr ⟨by decide, hfallback⟩
      | fallback =>
          cases r with
          | nil => simp
          | cons k r => exact h.elim

theorem ClauseHead.IsBuilt.isWellFormed {read : List Token → Except Refusal Condition}
    {h : ClauseHead} (hbuilt : h.IsBuilt read) : h.IsWellFormed := by
  refine ⟨hbuilt.directive, fun hkind => ?_, hbuilt.fallback, fun t ht => ?_⟩
  · obtain ⟨htokens, e, _, hcondition⟩ := hbuilt.condition hkind
    exact ⟨htokens, by rw [hcondition]; simp⟩
  · -- a directive of any kind would have ended the condition
    obtain ⟨before, after, hsplit⟩ := List.append_of_mem ht
    have hgoes := hbuilt.goesOn before t after hsplit
    refine isBlockWord_eq_false_of_kind fun hkind => ?_
    simp [endsCondition, Token.isDirective, hkind] at hgoes

theorem Node.IsBuilt.isWellFormed {read : List Token → Except Refusal Condition} {n : Node}
    (h : n.IsBuilt read) : n.IsWellFormed := by
  cases n with
  | item kind parts =>
      refine ⟨h.1, fun p hp t ht => ?_⟩
      have hpart := h.2 p hp
      cases p with
      | token u =>
          rw [List.mem_singleton.mp ht]
          exact isBlockWord_of_isPlain hpart
      | group opening members closing =>
          rcases List.mem_pair.mp ht with rfl | rfl
          · exact isBlockWord_of_is_punctuation hpart.1
          · exact isBlockWord_of_is_punctuation hpart.2
  | block cs ending =>
      obtain ⟨hending, horder, hheads⟩ := h
      cases cs with
      | nil => exact horder.elim
      | cons c r =>
          obtain ⟨hprimary, hrest⟩ : c.head.kind = .primary ∧ FollowOn (kindsOf r) := by
            rw [kindsOf, List.map_cons] at horder
            cases hk : c.head.kind with
            | primary => rw [hk] at horder; exact ⟨rfl, horder⟩
            | alternative => rw [hk] at horder; exact horder.elim
            | fallback => rw [hk] at horder; exact horder.elim
          obtain ⟨hothers, hfallback⟩ := not_primary_of_followOn hrest
          refine ⟨⟨c, r, rfl, hprimary, fun d hd => hothers _ (List.mem_map_of_mem hd)⟩, ?_,
            fun d hd => (hheads d hd).isWellFormed, hending⟩
          intro d hd
          cases r with
          | nil => exact absurd hd (by simp)
          | cons d' r' =>
              rcases List.mem_cons.mp hd with rfl | hd
              · rw [hprimary]
                decide
              · refine hfallback _ ?_
                rw [kindsOf, ← List.map_dropLast]
                exact List.mem_map_of_mem hd
  | placeholder t => exact h

/-! ## A resolution keeps trees well-formed -/

section Kept

variable {flag : Text}

/-- Another first token with the same class and text changes nothing that well-formedness
asks for. -/
theorem Node.IsWellFormed.withFirstToken {n : Node} {t : Token} (leading : Trivia)
    (ht : n.firstToken? = some t) (h : n.IsWellFormed) :
    (n.withFirstToken { t with leading }).IsWellFormed := by
  cases n with
  | item kind parts =>
      cases parts with
      | nil => exact h
      | cons p r =>
          obtain ⟨hp, hr⟩ := List.forall_mem_cons.mp h.2
          cases p with
          | token u =>
              cases ht
              refine ⟨by simp, List.forall_mem_cons.mpr ⟨fun v hv => ?_, hr⟩⟩
              rw [List.mem_singleton.mp hv]
              exact hp t List.mem_cons_self
          | group opening members closing =>
              cases ht
              refine ⟨by simp, List.forall_mem_cons.mpr ⟨fun v hv => ?_, hr⟩⟩
              rcases List.mem_pair.mp hv with rfl | rfl
              · exact hp t List.mem_cons_self
              · exact hp _ (by simp [Part.ownTokens])
  | block cs ending =>
      obtain ⟨⟨c, r, rfl, hprimary, hothers⟩, hlast, hheads, hending⟩ := h
      obtain ⟨head, body⟩ := c
      cases ht
      obtain ⟨hhead, hrest⟩ := List.forall_mem_cons.mp hheads
      refine ⟨⟨_, r, rfl, hprimary, hothers⟩, ?_, ?_, hending⟩
      · cases r with
        | nil => simp
        | cons d r =>
            obtain ⟨hfirst, hlast⟩ := List.forall_mem_cons.mp hlast
            exact List.forall_mem_cons.mpr ⟨hfirst, hlast⟩
      · refine List.forall_mem_cons.mpr ⟨?_, hrest⟩
        exact ⟨hhead.directive, hhead.condition, hhead.fallback, hhead.inner⟩
  | placeholder u =>
      cases ht
      have htoken : t = .placeholder t.leading := h
      show { t with leading } = Token.placeholder leading
      rw [htoken]
      rfl

/-- Resolving the bodies of a block leaves it a block. -/
theorem IsWellFormedBlock.resolveClauses {cs : List Clause} {ending : Token}
    (h : IsWellFormedBlock cs ending) : IsWellFormedBlock (resolveClauses flag cs) ending := by
  obtain ⟨⟨c, r, rfl, hprimary, hothers⟩, hlast, hheads, hending⟩ := h
  rw [resolveClauses_eq]
  refine ⟨⟨_, _, rfl, by rwa [c.head_resolve], fun d hd => ?_⟩, fun d hd => ?_, fun d hd => ?_,
    hending⟩
  · obtain ⟨e, he, rfl⟩ := List.mem_map.mp hd
    rw [e.head_resolve]
    exact hothers e he
  · rw [← List.map_dropLast] at hd
    obtain ⟨e, he, rfl⟩ := List.mem_map.mp hd
    rw [e.head_resolve]
    exact hlast e he
  · obtain ⟨e, he, rfl⟩ := List.mem_map.mp hd
    rw [e.head_resolve]
    exact hheads e he

/-- A part keeps its own tokens. -/
theorem Part.ownTokens_resolve (p : Part) : (p.resolve flag).ownTokens = p.ownTokens := by
  cases p <;> rfl

/-- **What is well-formed stays so**, whichever flag is resolved. -/
theorem isWellFormed_resolveNodes {ns : List Node} (h : Everywhere Node.IsWellFormed ns) :
    Everywhere Node.IsWellFormed (resolveNodes flag ns) := by
  refine everywhere_resolve ?_ ?_ (fun _ ht => ht) (fun _ => rfl)
    (fun n t leading ht hn => hn.withFirstToken leading ht) h
  · rintro kind parts ⟨hne, hparts⟩
    rw [resolveParts_eq]
    refine ⟨by simpa using hne, fun q hq => ?_⟩
    obtain ⟨p, hp, rfl⟩ := List.mem_map.mp hq
    rw [p.ownTokens_resolve]
    exact hparts p hp
  · exact fun cs ending hblock _ => hblock.resolveClauses

end Kept

/-! ## Where the directives stand -/

/-- In well-formed lists a directive of a block stands in a place of directives. -/
theorem isDirective_of_isBlockWord {ns : List Node} (h : Everywhere Node.IsWellFormed ns)
    (up : List (List Clause × Place)) :
    ∀ o ∈ occurrencesOfNodes up ns, o.token.isBlockWord = true →
      ∃ a ∈ o.around.getLast?, a.2.isDirective = true := by
  induction ns using memberInduction generalizing up with
  | nil => exact fun o ho => absurd ho List.not_mem_nil
  | item kind parts rest ihGroups ihRest =>
      obtain ⟨hfirst, hrest⟩ := everywhere_cons.mp h
      obtain ⟨⟨_, hown⟩, hgroups⟩ := everywhere_item.mp hfirst
      intro o ho hword
      rcases List.mem_append.mp ho with ho | ho
      · rw [Node.occurrences, occurrencesOfParts_eq] at ho
        obtain ⟨p, hp, ho⟩ := List.mem_flatMap.mp ho
        -- the tokens of the item itself are no directives, so `o` is inside a group
        have hnot : ∀ t ∈ p.ownTokens, o.token ≠ t := by
          rintro t ht rfl
          rw [hown p hp _ ht] at hword
          exact absurd hword (by decide)
        cases p with
        | token t =>
            rw [List.mem_singleton.mp ho] at hnot
            exact absurd rfl (hnot t List.mem_cons_self)
        | group opening members closing =>
            have hcases : o = ⟨opening, up⟩ ∨ o ∈ occurrencesOfNodes up members
                ∨ o = ⟨closing, up⟩ := by
              simpa [Part.occurrences] using ho
            rcases hcases with rfl | ho | rfl
            · exact absurd rfl (hnot opening List.mem_cons_self)
            · exact ihGroups opening members closing hp (hgroups _ _ _ hp) up o ho hword
            · exact absurd rfl (hnot closing (by simp [Part.ownTokens]))
      · exact ihRest hrest up o ho hword
  | block cs ending rest ihBodies ihRest =>
      obtain ⟨hfirst, hrest⟩ := everywhere_cons.mp h
      obtain ⟨hblock, hbodies⟩ := everywhere_block.mp hfirst
      have hclauses : ∀ all i ds, (∀ c ∈ ds, c ∈ cs) → ∀ o ∈ occurrencesOfClauses up all i ds,
          o.token.isBlockWord = true → ∃ a ∈ o.around.getLast?, a.2.isDirective = true := by
        intro all i ds hds
        induction ds generalizing i with
        | nil => exact fun o ho => absurd ho List.not_mem_nil
        | cons c r ih =>
            have hc := hds c List.mem_cons_self
            intro o ho hword
            rcases List.mem_append.mp ho with ho | ho
            · rw [c.occurrences_eq, openingOf, List.zipIdx_cons, List.map_cons] at ho
              rcases List.mem_append.mp ho with ho | ho
              · rcases List.mem_cons.mp ho with rfl | ho
                · exact ⟨_, List.getLast?_concat, rfl⟩
                · -- the tokens behind the directive are those of the condition
                  obtain ⟨⟨t, k⟩, ht, rfl⟩ := List.mem_map.mp ho
                  have hmem : t ∈ c.head.tokens := List.fst_mem_of_mem_zipIdx ht
                  rw [(hblock.heads c hc).inner t hmem] at hword
                  exact absurd hword (by decide)
              · exact ihBodies c hc (hbodies c hc) _ o ho hword
            · exact ih (i + 1) (fun d hd => hds d (List.mem_cons_of_mem c hd)) o ho hword
      intro o ho hword
      rcases List.mem_append.mp ho with ho | ho
      · rcases List.mem_append.mp ho with ho | ho
        · exact hclauses cs 0 cs (fun _ hc => hc) o ho hword
        · rw [List.mem_singleton.mp ho]
          exact ⟨_, List.getLast?_concat, rfl⟩
      · exact ihRest hrest up o ho hword
  | placeholder t rest ihRest =>
      obtain ⟨hfirst, hrest⟩ := everywhere_cons.mp h
      have ht : t = .placeholder t.leading := everywhere_placeholder.mp hfirst
      intro o ho hword
      rcases List.mem_append.mp ho with ho | ho
      · rw [List.mem_singleton.mp ho, ht] at hword
        exact absurd hword (by simp [Token.isBlockWord, Token.isOneOf, Token.placeholder])
      · exact ihRest hrest up o ho hword

/-- A tree is well-formed if its nodes are and it ends where the file ends. -/
theorem SourceTree.isWellFormed_of_nodes {t : SourceTree}
    (h : Everywhere Node.IsWellFormed t.members) (heof : t.eof.kind = .endOfFile) :
    t.IsWellFormed := by
  refine ⟨h, fun o ho hword => ?_⟩
  rcases List.mem_append.mp ho with ho | ho
  · exact isDirective_of_isBlockWord h [] o ho hword
  · rw [List.mem_singleton.mp ho, isBlockWord_eq_false_of_kind (by rw [heof]; decide)] at hword
    exact absurd hword (by decide)

/-! ## The resolution with its look-ups open -/

/-- Removes one line break from a leading run; `none` if the run has no unit to be counted
in. -/
def Trivia.dropDirectiveLine? : Trivia → Option Trivia
  | [] => some []
  | p :: r =>
    if p.kind.isNewline then
      if 1 < p.count then (p.withCount? (p.count - 1)).map (· :: r) else some r
    else some (p :: r)

/-- The clause that is left; `none` if a condition that is asked for is missing or cannot be
evaluated. -/
def selectFrom? {α : Type} (flag : Text) (fallback : Option (ClauseHead × α)) :
    List (ClauseHead × α) → Option (Option (ClauseHead × α))
  | [] => some fallback
  | c :: r =>
    if c.1.kind = .fallback then selectFrom? flag (some c) r
    else
      c.1.condition.bind fun e => (e.holds flag).toOption.bind fun holds =>
        if holds then some (some c) else selectFrom? flag fallback r

/-- Puts a body where its block was; `none` if no node is left behind the placeholders, or
the first one has no first token. -/
def splice? (leading : Trivia) : List Node → Option (List Node)
  | [] => none
  | .placeholder t :: r => t.leading.dropDirectiveLine?.bind fun kept => splice? (leading ++ kept) r
  | n :: r =>
    n.firstToken?.bind fun t => t.leading.dropDirectiveLine?.map fun kept =>
      n.withFirstToken { t with leading := leading ++ kept } :: r

/-- What is left of a block whose bodies have been resolved; `none` if it has no clause. -/
def settleBlock? (flag : Text) (cs : List Clause) (ending : Token) : Option (List Node) :=
  cs.head?.bind fun first =>
    if isGuardedBy flag cs then
      (selectFrom? flag none (cs.map fun c => (c.head, c.body))).bind fun
        | some (_, body) =>
          if hasContent body then splice? first.head.directive.leading body
          else some [.placeholder (.placeholder first.head.directive.leading)]
        | none => some [.placeholder (.placeholder first.head.directive.leading)]
    else some [.block cs ending]

mutual

/-- What is left of a node, if every look-up succeeds. -/
def Node.resolve? (flag : Text) : Node → Option (List Node)
  | .item kind parts => (resolveParts? flag parts).map fun ps => [.item kind ps]
  | .block clauses ending =>
    (resolveClauses? flag clauses).bind fun cs => settleBlock? flag cs ending
  | .placeholder t => some [.placeholder t]

/-- What is left of a part. -/
def Part.resolve? (flag : Text) : Part → Option Part
  | .token t => some (.token t)
  | .group opening members closing =>
    (resolveNodes? flag members).map fun ms => .group opening ms closing

/-- A clause with its body resolved. -/
def Clause.resolve? (flag : Text) : Clause → Option Clause
  | .mk h body => (resolveNodes? flag body).map (.mk h)

/-- What is left of a member list. -/
def resolveNodes? (flag : Text) : List Node → Option (List Node)
  | [] => some []
  | n :: r => (n.resolve? flag).bind fun ns => (resolveNodes? flag r).map (ns ++ ·)

/-- What is left of the parts of an item. -/
def resolveParts? (flag : Text) : List Part → Option (List Part)
  | [] => some []
  | p :: r => (p.resolve? flag).bind fun q => (resolveParts? flag r).map (q :: ·)

/-- The clauses of a block with their bodies resolved. -/
def resolveClauses? (flag : Text) : List Clause → Option (List Clause)
  | [] => some []
  | c :: r => (c.resolve? flag).bind fun d => (resolveClauses? flag r).map (d :: ·)

end

/-- A tree with the blocks of `flag` resolved, if every look-up succeeds. -/
def SourceTree.resolve? (flag : Text) (t : SourceTree) : Option SourceTree :=
  (resolveNodes? flag t.members).map fun ms => { t with members := ms }

/-! ## Every look-up succeeds -/

section Total

variable {flag : Text}

/-- Line breaks are counted in units. -/
theorem Trivia.Kind.exists_unit {k : Trivia.Kind} (h : k.isNewline = true) :
    ∃ unit, k.unit? = some unit := by
  have hsome : ∀ k : Trivia.Kind, k.isNewline = true → k.unit?.isSome = true := by
    intro k
    cases k <;> decide
  exact Option.isSome_iff_exists.mp (hsome k h)

theorem Trivia.dropDirectiveLine?_eq (ts : Trivia) :
    ts.dropDirectiveLine? = some ts.dropDirectiveLine := by
  cases ts with
  | nil => rfl
  | cons p r =>
      rw [Trivia.dropDirectiveLine?, Trivia.dropDirectiveLine]
      split
      · next hkind =>
        split
        · obtain ⟨unit, hunit⟩ := Trivia.Kind.exists_unit hkind
          simp [Trivia.Piece.withCount?, hunit]
        · rfl
      · rfl

/-- A clause is selected wherever every condition can be evaluated. -/
theorem selectFrom?_eq {α : Type} (fallback : Option (ClauseHead × α)) {cs : List (ClauseHead × α)}
    (h : ∀ c ∈ cs, c.1.kind ≠ .fallback →
      ∃ e holds, c.1.condition = some e ∧ e.holds flag = .ok holds) :
    ∃ chosen, selectFrom flag fallback cs = .ok chosen
      ∧ selectFrom? flag fallback cs = some chosen := by
  induction cs generalizing fallback with
  | nil => exact ⟨fallback, rfl, rfl⟩
  | cons c r ih =>
      obtain ⟨hc, hr⟩ := List.forall_mem_cons.mp h
      rw [selectFrom, selectFrom?]
      by_cases hkind : c.1.kind = .fallback
      · rw [if_pos hkind, hkind]
        exact ih (some c) hr
      · obtain ⟨e, holds, he, hholds⟩ := hc hkind
        simp only [if_neg hkind, he, hholds, Option.bind_some]
        cases hk : c.1.kind with
        | fallback => exact absurd hk hkind
        | primary =>
            cases holds with
            | true => exact ⟨some c, rfl, rfl⟩
            | false => exact ih fallback hr
        | alternative =>
            cases holds with
            | true => exact ⟨some c, rfl, rfl⟩
            | false => exact ih fallback hr

/-- A node that is well-formed has a first token. -/
theorem Node.IsWellFormed.firstToken {n : Node} (h : n.IsWellFormed) :
    ∃ t, n.firstToken? = some t := by
  cases n with
  | item kind parts =>
      cases parts with
      | nil => exact absurd rfl h.1
      | cons p r => cases p <;> exact ⟨_, rfl⟩
  | block cs ending =>
      obtain ⟨⟨head, body⟩, r, rfl, _⟩ := h.first
      exact ⟨_, rfl⟩
  | placeholder t => exact ⟨t, rfl⟩

theorem splice?_cons {n : Node} {t : Token} (hn : ∀ u, n = .placeholder u → False)
    (ht : n.firstToken? = some t) (leading : Trivia) (r : List Node) :
    splice? leading (n :: r) = some (splice leading (n :: r)) := by
  rw [splice?, splice, ht, Option.bind_some, Trivia.dropDirectiveLine?_eq, Option.map_some]
  · exact hn
  · exact hn

/-- **A body with a token in it can take the place of its block**: behind its placeholders,
which have no text, there is a node. -/
theorem splice?_eq {ns : List Node} (h : Everywhere Node.IsWellFormed ns)
    (hcontent : hasContent ns = true) (leading : Trivia) :
    splice? leading ns = some (splice leading ns) := by
  induction ns generalizing leading with
  | nil => exact absurd hcontent (by simp [hasContent, tokensOfNodes])
  | cons n r ih =>
      obtain ⟨hn, hr⟩ := everywhere_cons.mp h
      cases n with
      | placeholder t =>
          have ht : t = .placeholder t.leading := everywhere_placeholder.mp hn
          have hrest : hasContent r = true := by
            rw [hasContent, tokensOfNodes, Node.tokens, ht] at hcontent
            simpa [Token.placeholder, hasContent] using hcontent
          rw [splice?, splice, Trivia.dropDirectiveLine?_eq, Option.bind_some, ih hr hrest]
      | item kind parts =>
          obtain ⟨t, ht⟩ := (everywhere_item.mp hn).1.firstToken
          exact splice?_cons (by simp) ht leading r
      | block cs ending =>
          obtain ⟨t, ht⟩ := Node.IsWellFormed.firstToken (everywhere_block.mp hn).1
          exact splice?_cons (by simp) ht leading r

/-- A well-formed block is settled: it has a first clause, and if it is on the flag each of
its conditions can be evaluated. -/
theorem settleBlock?_eq {cs : List Clause} {ending : Token} (h : IsWellFormedBlock cs ending)
    (hbodies : ∀ c ∈ cs, Everywhere Node.IsWellFormed c.body) :
    settleBlock? flag cs ending = some (settleBlock flag cs ending) := by
  obtain ⟨c, r, hcs, _⟩ := h.first
  have hfirst : cs.head? = some c := by rw [hcs]; rfl
  have hleading : leadingOf cs = c.head.directive.leading := by rw [hcs]; rfl
  rw [settleBlock?, settleBlock, hfirst, Option.bind_some]
  by_cases hguard : isGuardedBy flag cs = true
  · have hflags := (isGuardedBy_iff flag cs).mp hguard
    have hevaluated : ∀ p ∈ cs.map fun c => (c.head, c.body), p.1.kind ≠ .fallback →
        ∃ e holds, p.1.condition = some e ∧ e.holds flag = .ok holds := by
      intro p hp hkind
      obtain ⟨d, hd, rfl⟩ := List.mem_map.mp hp
      obtain ⟨e, he⟩ := Option.ne_none_iff_exists'.mp ((h.heads d hd).condition hkind).2
      exact ⟨e, _, he, holds_of_flagsAre (Build.isOn_only flag) hflags hd he⟩
    obtain ⟨chosen, hselect, hselect?⟩ := selectFrom?_eq none hevaluated
    have hchosen : ∀ p, chosen = some p → Everywhere Node.IsWellFormed p.2 := by
      rintro p rfl
      rw [← select, select_eq_chosen (Build.isOn_only flag) hflags] at hselect
      obtain ⟨d, hd, rfl⟩ := Option.map_eq_some_iff.mp (Except.ok.inj hselect)
      exact hbodies d (Build.mem_of_chosen hd)
    rw [if_pos hguard, if_pos hguard, hselect?, select, hselect, Option.bind_some, vacated,
      hleading]
    cases chosen with
    | none => rfl
    | some p =>
        by_cases hcontent : hasContent p.2 = true
        · simp only [if_pos hcontent, splice?_eq (hchosen p rfl) hcontent]
        · simp only [if_neg hcontent]
  · rw [if_neg hguard, if_neg hguard]

theorem resolveParts?_eq {ps : List Part}
    (h : ∀ opening members closing, Part.group opening members closing ∈ ps →
      resolveNodes? flag members = some (resolveNodes flag members)) :
    resolveParts? flag ps = some (resolveParts flag ps) := by
  induction ps with
  | nil => rfl
  | cons p r ih =>
      have hr := ih fun opening members closing hgroup =>
        h opening members closing (List.mem_cons_of_mem p hgroup)
      have hp : p.resolve? flag = some (p.resolve flag) := by
        cases p with
        | token t => rfl
        | group opening members closing =>
            rw [Part.resolve?, h opening members closing List.mem_cons_self]
            rfl
      rw [resolveParts?, resolveParts, hp, hr]
      rfl

theorem resolveClauses?_eq {cs : List Clause}
    (h : ∀ c ∈ cs, resolveNodes? flag c.body = some (resolveNodes flag c.body)) :
    resolveClauses? flag cs = some (resolveClauses flag cs) := by
  induction cs with
  | nil => rfl
  | cons c r ih =>
      obtain ⟨hc, hr⟩ := List.forall_mem_cons.mp h
      obtain ⟨head, body⟩ := c
      have hbody : resolveNodes? flag body = some (resolveNodes flag body) := hc
      rw [resolveClauses?, resolveClauses, Clause.resolve?, hbody, ih hr]
      rfl

/-- **On well-formed lists the resolution has every part it asks for.** -/
theorem resolveNodes?_eq {ns : List Node} (h : Everywhere Node.IsWellFormed ns) :
    resolveNodes? flag ns = some (resolveNodes flag ns) := by
  induction ns using memberInduction with
  | nil => rfl
  | item kind parts rest ihGroups ihRest =>
      obtain ⟨hfirst, hrest⟩ := everywhere_cons.mp h
      have hgroups := (everywhere_item.mp hfirst).2
      have hparts := resolveParts?_eq fun opening members closing hgroup =>
        ihGroups opening members closing hgroup (hgroups opening members closing hgroup)
      rw [resolveNodes?, resolveNodes, Node.resolve?, Node.resolve, hparts, ihRest hrest]
      rfl
  | block cs ending rest ihBodies ihRest =>
      obtain ⟨hfirst, hrest⟩ := everywhere_cons.mp h
      obtain ⟨hblock, hbodies⟩ := everywhere_block.mp hfirst
      have hclauses := resolveClauses?_eq fun c hc => ihBodies c hc (hbodies c hc)
      -- the block is settled with its bodies resolved, and these are well-formed again
      have hsettled : settleBlock? flag (resolveClauses flag cs) ending
          = some (settleBlock flag (resolveClauses flag cs) ending) := by
        refine settleBlock?_eq hblock.resolveClauses fun c hc => ?_
        rw [resolveClauses_eq] at hc
        obtain ⟨d, hd, rfl⟩ := List.mem_map.mp hc
        rw [d.body_resolve]
        exact isWellFormed_resolveNodes (hbodies d hd)
      rw [resolveNodes?, resolveNodes, Node.resolve?, Node.resolve, hclauses, Option.bind_some,
        hsettled, ihRest hrest]
      rfl
  | placeholder t rest ihRest =>
      rw [resolveNodes?, resolveNodes, Node.resolve?, Node.resolve,
        ihRest (everywhere_cons.mp h).2]
      rfl

end Total

/-! ## Pass after pass -/

/-- The passes of several flags, one after the other. -/
def SourceTree.resolveAll (flags : List Text) (t : SourceTree) : SourceTree :=
  flags.foldl (fun t flag => t.resolve flag) t

/-- The same with every look-up open. -/
def SourceTree.resolveAll? (flags : List Text) (t : SourceTree) : Option SourceTree :=
  flags.foldlM (fun t flag => t.resolve? flag) t

/-- A pass succeeds on a well-formed tree and gives one that is well-formed again. -/
theorem SourceTree.IsWellFormed.resolve {t : SourceTree} (h : t.IsWellFormed)
    (heof : t.eof.kind = .endOfFile) (flag : Text) :
    t.resolve? flag = some (t.resolve flag) ∧ (t.resolve flag).IsWellFormed := by
  refine ⟨?_, isWellFormed_of_nodes (isWellFormed_resolveNodes h.nodes) heof⟩
  rw [SourceTree.resolve?, resolveNodes?_eq h.nodes]
  rfl

/-- So does any number of passes. -/
theorem SourceTree.IsWellFormed.resolveAll {t : SourceTree} (h : t.IsWellFormed)
    (heof : t.eof.kind = .endOfFile) (flags : List Text) :
    t.resolveAll? flags = some (t.resolveAll flags) ∧ (t.resolveAll flags).IsWellFormed := by
  induction flags generalizing t with
  | nil => exact ⟨rfl, h⟩
  | cons flag r ih =>
      obtain ⟨hpass, hnext⟩ := h.resolve heof flag
      obtain ⟨hrest, hlast⟩ := ih hnext heof
      refine ⟨?_, hlast⟩
      rw [SourceTree.resolveAll?, List.foldlM_cons, hpass]
      exact hrest

/-- **Well-formed from the parser on.** A parsed tree is well-formed and holds no
placeholder, and so is every tree that any passes make of it; and no pass on the way misses a
part that it asks for. -/
theorem wellFormed_through_passes {g : Grouping} {source : Text} {tree : SourceTree}
    (h : SourceTree.parse g source = .ok tree) :
    Everywhere IsFresh tree.members ∧ tree.IsWellFormed ∧
      ∀ flags, tree.resolveAll? flags = some (tree.resolveAll flags)
        ∧ (tree.resolveAll flags).IsWellFormed := by
  obtain ⟨l, hl, hassemble⟩ := exists_of_parse h
  have heof : tree.eof.kind = .endOfFile := by
    obtain ⟨m, _, rfl⟩ := assemble_invariant (fun _ _ => True) trivial
      (fun _ _ _ _ _ _ => trivial) hassemble
    obtain ⟨_, _, _, hcut, _⟩ := cut_of_tokenize hl
    exact hcut.eof_eq.1
  have hnodes : Everywhere Node.IsWellFormed tree.members :=
    fun s hs => (isParsed_of_assemble hassemble s hs).1.isWellFormed
  have htree := SourceTree.isWellFormed_of_nodes hnodes heof
  exact ⟨isFresh_of_parse h, htree, htree.resolveAll heof⟩

/-- Two passes over nested blocks: the first one leaves a placeholder at the top of a body
that is then moved. -/
theorem wellFormed_through_passes_nested :
    ∃ source tree, source =
        "#if B\n#if A\n#if A\n#endif\nlet x = 1\n#endif\n#else\nf()\n#endif\n".toList
      ∧ SourceTree.parse .swift source = .ok tree
      ∧ (tree.resolveAll ["A".toList, "B".toList]).render = "let x = 1\n".toList
      ∧ Everywhere IsFresh tree.members ∧ tree.IsWellFormed ∧
        ∀ flags, tree.resolveAll? flags = some (tree.resolveAll flags)
          ∧ (tree.resolveAll flags).IsWellFormed := by
  have hparse : (SourceTree.parse .swift
      "#if B\n#if A\n#if A\n#endif\nlet x = 1\n#endif\n#else\nf()\n#endif\n".toList
      ).toOption.any (fun tree => (tree.resolveAll ["A".toList, "B".toList]).render
        == "let x = 1\n".toList) = true := by decide +kernel
  obtain ⟨tree, htree, hrender⟩ := exists_of_parse_any hparse
  exact ⟨_, tree, rfl, htree, by simpa using hrender, wellFormed_through_passes htree⟩

end Unflag
