/-
A second look at a rewritten text.

A rewritten text is parsed again before it is handed on, and again whenever the program is
run again. What is found then is the resolved tree, up to the cutting of its items, under
three conditions. The text must be scanned as the tree (`Rescan`). A condition in front of a
block that goes must not reach over to what comes behind it: it is complete in itself
(`ClauseHead.IsComplete`), and what comes behind does not continue it (`StartsAfresh`). And
no block may end up inside brackets that a moved body has left open; this last one is what
the second parse is there to refuse, and under the other two it refuses nothing else
(`broken_iff_bracketed`). A rewritten text that is handed on is then left alone by the next
run (`untouched_of_rewritten`).
-/
import Unflag.Proofs.Reassembly
import Unflag.Proofs.Rescan

set_option autoImplicit false

namespace Unflag

open Assembly

variable {flag : Text}

/-! ## Conditions in front of a block that goes -/

/-- A condition that asks for nothing more at the end of its line: no parenthesis is open,
and it does not end in an operator. -/
def ClauseHead.IsComplete (h : ClauseHead) : Prop :=
  parenDepth h.tokens ≤ 0 ∧ h.tokens.getLast?.all (fun t => !wantsMore t) = true

instance (h : ClauseHead) : Decidable h.IsComplete := inferInstanceAs (Decidable (_ ∧ _))

/-- A block whose conditions are complete. -/
def Node.IsComplete : Node → Prop
  | .block cs _ => ∀ c ∈ cs, c.head.IsComplete
  | _ => True

instance (n : Node) : Decidable n.IsComplete :=
  match n with
  | .item _ _ => inferInstanceAs (Decidable True)
  | .block cs _ => inferInstanceAs (Decidable (∀ c ∈ cs, c.head.IsComplete))
  | .placeholder _ => inferInstanceAs (Decidable True)

/-- Of two tokens in a row: behind a line of a block on the flag, no condition goes on. -/
def StartsAfresh (flag : Text) (a b : Occurrence) : Prop :=
  IsBehind flag a b → continuesCondition b.token = false

instance (flag : Text) (a b : Occurrence) : Decidable (StartsAfresh flag a b) :=
  inferInstanceAs (Decidable (_ → _))

/-- A complete condition ends in front of a new line that does not continue it. -/
theorem ClauseHead.IsComplete.endsAt {h : ClauseHead} (hcomplete : h.IsComplete) {t : Token}
    (hline : t.startsLine = true) (hafresh : continuesCondition t = false) : h.EndsAt t := by
  intro _
  obtain ⟨hdepth, hlast⟩ := hcomplete
  have hdepth' : decide (0 < parenDepth h.tokens) = false := by simpa using hdepth
  cases hl : h.tokens.getLast? with
  | none => simp [endsCondition, hline, hl]
  | some last =>
      rw [hl] at hlast
      have hlast' : wantsMore last = false := by simpa using hlast
      simp [endsCondition, hline, hl, hlast', hafresh, hdepth']

/-- What is asked of two tokens in a row. -/
def CleanCut (flag : Text) (a b : Occurrence) : Prop := Seam flag a b ∧ StartsAfresh flag a b

/-- Behind a run of dropped tokens, a kept token starts a line and continues no condition. -/
theorem IsGap.afresh {d o : Occurrence} {gap os : List Occurrence} (h : IsGap flag d gap)
    (hchain : (d :: gap ++ os).IsChain (CleanCut flag)) (ho : o ∈ os.head?)
    (hkept : ¬ o.IsDropped flag) (heof : o.token.kind ≠ .endOfFile) :
    o.token.startsLine = true ∧ continuesCondition o.token = false := by
  obtain ⟨e, he, hchain'⟩ := exists_last_chain h.closes hchain
  obtain ⟨us, rfl⟩ := List.head?_eq_some_iff.mp ho
  have hbehind := isBehind_of_kept he hkept
  exact ⟨(hchain'.rel.1.startsLine hbehind).resolve_right heof, hchain'.rel.2 hbehind⟩

/-- Behind a run of dropped tokens, whatever is first continues no condition. -/
theorem IsGap.afresh_of_head {d : Occurrence} {gap os : List Occurrence} {t : Token}
    (h : IsGap flag d gap) (hchain : (d :: gap ++ os).IsChain (CleanCut flag))
    (hos : ∀ o ∈ os, o.token.kind ≠ .endOfFile)
    (ht : (∃ o ∈ os.head?, ¬ o.IsDropped flag ∧ t = o.token)
      ∨ (t.startsLine = true ∧ continuesCondition t = false)) :
    t.startsLine = true ∧ continuesCondition t = false := by
  rcases ht with ⟨o, ho, hkept, rfl⟩ | hafresh
  · exact h.afresh hchain ho hkept (hos o (List.mem_of_mem_head? ho))
  · exact hafresh

/-- **The first token that is left** of a list is the first of the list, or starts a line and
continues no condition. -/
theorem Pruned.head_solid {os : List Occurrence} {ts : List Token} (h : Pruned flag os ts)
    {a : Occurrence} (hchain : (a :: os).IsChain (CleanCut flag))
    (hos : ∀ o ∈ os, o.token.kind ≠ .endOfFile ∧ o.token.kind ≠ .placeholder) :
    ∀ t ∈ (solid ts).head?, (∃ o ∈ os.head?, ¬ o.IsDropped flag ∧ t = o.token)
      ∨ (t.startsLine = true ∧ continuesCondition t = false) := by
  induction h generalizing a with
  | done => exact fun t ht => absurd ht (by simp [solid])
  | keep o hkept _ _ =>
      intro t ht
      rw [solid_cons_of_ne (hos o List.mem_cons_self).2] at ht
      cases ht
      exact .inl ⟨o, rfl, hkept, rfl⟩
  | @drop os ts d gap hgap _ _ ih =>
      intro t ht
      obtain ⟨e, _, hchain'⟩ := exists_last_chain hgap.closes hchain.tail
      have hos' : ∀ o ∈ os, _ := fun o ho => hos o (List.mem_append_right _ ho)
      exact .inr (hgap.afresh_of_head hchain.tail (fun o ho => (hos' o ho).1)
        (ih hchain' hos' t ht))
  | @vacate os ts d gap hgap _ ih =>
      intro t ht
      rw [solid_cons_placeholder] at ht
      obtain ⟨e, _, hchain'⟩ := exists_last_chain hgap.closes hchain.tail
      have hos' : ∀ o ∈ os, _ := fun o ho => hos o (List.mem_append_right _ ho)
      exact .inr (hgap.afresh_of_head hchain.tail (fun o ho => (hos' o ho).1)
        (ih hchain' hos' t ht))
  | splice d gap o r hgap hkept _ _ _ _ =>
      intro t ht
      have ho := hos o (by simp)
      have hkind : (o.token.withLeading (d.token.leading ++ r)).kind ≠ .placeholder := ho.2
      rw [solid_cons_of_ne hkind] at ht
      cases ht
      -- the trivia in front of the run has a line break, since its directive starts a line
      have hline : d.token.leading.hasNewline = true := hchain.rel.1.1.directive hgap.directive
      refine .inr ⟨?_, (hgap.afresh hchain.tail rfl hkept ho.1).2⟩
      rw [Token.startsLine, Token.leading_withLeading, Trivia.hasNewline_append, hline,
        Bool.true_or]

/-! ## Resolved trees -/

section Occurrences

variable {up : List (List Clause × Place)} {all : List Clause}

/-- The members of a group, in the item they belong to. -/
theorem infix_of_group {parts : List Part} {opening closing : Token} {members : List Node}
    (h : Part.group opening members closing ∈ parts) :
    occurrencesOfNodes up members <:+: occurrencesOfParts up parts := by
  rw [occurrencesOfParts_eq, List.flatMap_def]
  have hgroup : occurrencesOfNodes up members
      <:+: (Part.group opening members closing).occurrences up :=
    ⟨[⟨opening, up⟩], [⟨closing, up⟩], rfl⟩
  exact hgroup.trans (List.infix_of_mem_flatten (List.mem_map_of_mem h))

/-- The body of a clause, with the last token of its opening line in front. -/
theorem exists_infix_of_getElem? (up : List (List Clause × Place)) (all : List Clause)
    {cs : List Clause} {c : Clause} {i : Nat} (h : cs[i]? = some c) :
    ∃ e, (e :: occurrencesOfNodes (up ++ [(all, .body i)]) c.body)
      <:+: occurrencesOfClauses up all 0 cs := by
  obtain ⟨pre, post, rfl, rfl⟩ := exists_split_of_getElem? h
  obtain ⟨us, hus⟩ := openingOf_eq_cons up all pre.length c.head
  obtain ⟨init, e, heq⟩ : ∃ init e, openingOf up all pre.length c.head = init ++ [e] :=
    ⟨_, _, (List.dropLast_append_getLast (by rw [hus]; simp)).symm⟩
  refine ⟨e, occurrencesOfClauses up all 0 pre ++ init,
    occurrencesOfClauses up all (pre.length + 1) post, ?_⟩
  rw [occurrencesOfClauses_append, occurrencesOfClauses, c.occurrences_eq, Nat.zero_add, heq]
  simp

/-- A token of a condition is a token of its block. -/
theorem exists_mem_of_mem_head {cs : List Clause} {c : Clause} {t : Token} (hc : c ∈ cs)
    (ht : t ∈ c.head.tokens) (i : Nat) :
    ∃ o ∈ occurrencesOfClauses up all i cs, o.token = t := by
  induction cs generalizing i with
  | nil => exact absurd hc List.not_mem_nil
  | cons d r ih =>
      rcases List.mem_cons.mp hc with rfl | hc
      · have hmem : t ∈ (openingOf up all i c.head).map Occurrence.token := by
          rw [map_token_openingOf]
          exact List.mem_cons_of_mem _ ht
        obtain ⟨o, ho, rfl⟩ := List.mem_map.mp hmem
        refine ⟨o, ?_, rfl⟩
        rw [occurrencesOfClauses, c.occurrences_eq]
        exact List.mem_append_left _ (List.mem_append_left _ ho)
      · obtain ⟨o, ho, rfl⟩ := ih hc (i + 1)
        exact ⟨o, List.mem_append_right _ ho, rfl⟩

end Occurrences

/-- Other trivia in front of a node changes nothing about assembling it again. -/
theorem Node.IsReady.withFirstToken {read : List Token → Except Refusal Condition} {n : Node}
    {t : Token} (leading : Trivia) (ht : n.firstToken? = some t) (h : n.IsReady read) :
    (n.withFirstToken { t with leading }).IsReady read := by
  cases n with
  | item kind parts =>
      obtain ⟨hbuilt, hwritten⟩ := h
      cases parts with
      | nil => exact absurd ht (by simp [Node.firstToken?])
      | cons p r =>
          obtain ⟨hp, hr⟩ := List.forall_mem_cons.mp hbuilt
          cases p with
          | token u =>
              cases ht
              refine ⟨List.forall_mem_cons.mpr ⟨hp, hr⟩, fun v hv => ?_⟩
              rcases List.mem_cons.mp hv with hv | hv
              · cases hv
                exact hwritten t List.mem_cons_self
              · exact hwritten v (List.mem_cons_of_mem _ hv)
          | group u members closing =>
              cases ht
              refine ⟨List.forall_mem_cons.mpr ⟨hp, hr⟩, fun v hv => ?_⟩
              rcases List.mem_cons.mp hv with hv | hv
              · cases hv
              · exact hwritten v (List.mem_cons_of_mem _ hv)
  | block cs ending =>
      obtain ⟨hending, horder, hclauses⟩ := h
      cases cs with
      | nil => exact horder.elim
      | cons c r =>
          obtain ⟨head, body⟩ := c
          obtain ⟨hc, hr⟩ := List.forall_mem_cons.mp hclauses
          cases ht
          have hbuilt := hc.built
          exact ⟨hending, horder, List.forall_mem_cons.mpr ⟨⟨⟨hbuilt.directive, hbuilt.condition,
            hbuilt.fallback, hbuilt.goesOn⟩, hc.written, hc.ends⟩, hr⟩⟩
  | placeholder u =>
      cases ht
      exact h

theorem kindsOf_resolveClauses (flag : Text) (cs : List Clause) :
    kindsOf (resolveClauses flag cs) = kindsOf cs := by
  have hheads := congrArg (List.map ClauseHead.kind) (map_head_resolveClauses flag cs)
  rwa [List.map_map, List.map_map] at hheads

/-- What cutting out its blocks asks of a list of nodes that stands in the blocks of `up`. -/
structure IsCuttable (read : List Token → Except Refusal Condition) (flag : Text)
    (up : List (List Clause × Place)) (ns : List Node) : Prop where
  parsed : Everywhere (IsParsed read) ns
  complete : Everywhere Node.IsComplete ns
  solid : ∀ o ∈ occurrencesOfNodes up ns,
    o.token.kind ≠ .endOfFile ∧ o.token.kind ≠ .placeholder
  chain : (occurrencesOfNodes up ns).IsChain (CleanCut flag)

namespace IsCuttable

variable {read : List Token → Except Refusal Condition} {up : List (List Clause × Place)}
  {rest : List Node}

theorem tail {n : Node} (h : IsCuttable read flag up (n :: rest)) :
    IsCuttable read flag up rest :=
  ⟨(everywhere_cons.mp h.parsed).2, (everywhere_cons.mp h.complete).2,
    (List.forall_mem_append.mp h.solid).2, h.chain.right_of_append⟩

/-- The members of a group. -/
theorem group {kind : ItemKind} {parts : List Part} {opening closing : Token}
    {members : List Node} (h : IsCuttable read flag up (.item kind parts :: rest))
    (hgroup : .group opening members closing ∈ parts) : IsCuttable read flag up members := by
  have hwithin : occurrencesOfNodes up members <:+: (Node.item kind parts).occurrences up :=
    infix_of_group hgroup
  have hitem := (List.forall_mem_append.mp h.solid).1
  exact ⟨(everywhere_item.mp (everywhere_cons.mp h.parsed).1).2 _ _ _ hgroup,
    (everywhere_item.mp (everywhere_cons.mp h.complete).1).2 _ _ _ hgroup,
    fun o ho => hitem o (hwithin.subset ho),
    List.IsChain.infix h.chain.left_of_append hwithin⟩

/-- The body of a clause, which a clean cut leads up to. -/
theorem body {cs : List Clause} {ending : Token} {c : Clause} {i : Nat}
    (h : IsCuttable read flag up (.block cs ending :: rest)) (hplace : cs[i]? = some c) :
    IsCuttable read flag (up ++ [(cs, .body i)]) c.body
      ∧ ∃ e, (e :: occurrencesOfNodes (up ++ [(cs, .body i)]) c.body).IsChain (CleanCut flag) := by
  obtain ⟨e, hwithin⟩ := exists_infix_of_getElem? up cs hplace
  have hc := List.mem_of_getElem? hplace
  have hclauses := (List.forall_mem_append.mp (List.forall_mem_append.mp h.solid).1).1
  have hcut := List.IsChain.infix h.chain.left_of_append.left_of_append hwithin
  refine ⟨⟨?_, ?_, ?_, hcut.tail⟩, e, hcut⟩
  · exact (everywhere_block.mp (everywhere_cons.mp h.parsed).1).2 c hc
  · exact (everywhere_block.mp (everywhere_cons.mp h.complete).1).2 c hc
  · exact fun o ho => hclauses o (hwithin.subset (List.mem_cons_of_mem _ ho))

/-- **A condition ends where it ended**, whatever has been resolved behind it. -/
theorem endsAt {c : Clause} {e : Occurrence} (h : IsCuttable read flag up c.body)
    (hup : Stays flag up) (hcomplete : c.head.IsComplete)
    (hends : ∀ t ∈ (tokensOfNodes c.body).head?, c.head.EndsAt t)
    (hchain : (e :: occurrencesOfNodes up c.body).IsChain (CleanCut flag)) :
    ∀ t ∈ (Unflag.solid (tokensOfNodes (resolveNodes flag c.body))).head?, c.head.EndsAt t := by
  have hsolid : ∀ t ∈ tokensOfNodes c.body, t.kind ≠ .placeholder := by
    rw [← map_token_occurrencesOfNodes up]
    exact List.forall_mem_map.mpr fun o ho => (h.solid o ho).2
  have hpruned := pruned_resolveNodes hup (starts_of_isParsed h.parsed hsolid) hsolid
  -- the first token behind the condition is the one it ended in front of, or a new line
  intro t ht
  rcases hpruned.head_solid hchain h.solid t ht with ⟨o, ho, _, rfl⟩ | ⟨hline, hafresh⟩
  · refine hends o.token ?_
    rw [← map_token_occurrencesOfNodes up, List.head?_map, ho]
    rfl
  · exact hcomplete.endsAt hline hafresh

/-- An item keeps its tokens, and its groups their braces. -/
theorem isReady_item {kind : ItemKind} {parts : List Part}
    (h : IsCuttable read flag up (.item kind parts :: rest)) :
    (Node.item kind (resolveParts flag parts)).IsReady read := by
  have hbuilt := (everywhere_item.mp (everywhere_cons.mp h.parsed).1).1.1.2
  have hitem := (List.forall_mem_append.mp h.solid).1
  rw [resolveParts_eq]
  refine ⟨List.forall_mem_map.mpr fun p hp => ?_, fun t ht => ?_⟩
  · have hp' := hbuilt p hp
    cases p <;> exact hp'
  · obtain ⟨p, hp, heq⟩ := List.mem_map.mp ht
    cases p with
    | group opening members closing => exact absurd heq (by simp [Part.resolve])
    | token u =>
        cases heq
        refine (hitem ⟨t, up⟩ ?_).2
        rw [Node.occurrences, occurrencesOfParts_eq]
        exact List.mem_flatMap.mpr ⟨_, hp, List.mem_singleton_self _⟩

/-- A clause of a block that stays keeps its opening line, and ends it where it ended. -/
theorem isReady_clause {cs : List Clause} {ending : Token} {c : Clause} {i : Nat}
    (h : IsCuttable read flag up (.block cs ending :: rest)) (hplace : cs[i]? = some c)
    (hup : Stays flag (up ++ [(cs, .body i)])) : (c.resolve flag).IsReady read := by
  obtain ⟨⟨⟨_, _, hheads⟩, hends⟩, _⟩ := everywhere_block.mp (everywhere_cons.mp h.parsed).1
  obtain ⟨hcomplete, _⟩ := everywhere_block.mp (everywhere_cons.mp h.complete).1
  have hclauses := (List.forall_mem_append.mp (List.forall_mem_append.mp h.solid).1).1
  have hc := List.mem_of_getElem? hplace
  obtain ⟨hbody, e, hcut⟩ := h.body hplace
  refine ⟨?_, ?_, ?_⟩
  · rw [c.head_resolve]
    exact hheads c hc
  · rw [c.head_resolve]
    intro t ht
    obtain ⟨o, ho, rfl⟩ := exists_mem_of_mem_head hc ht 0
    exact (hclauses o ho).2
  · rw [c.head_resolve, c.body_resolve]
    exact hbody.endsAt hup (hcomplete c hc) (hends c hc) hcut

end IsCuttable

/-- **A resolved tree can be assembled again.** -/
theorem isReady_resolveNodes {read : List Token → Except Refusal Condition}
    {up : List (List Clause × Place)} {ns : List Node} (hup : Stays flag up)
    (h : IsCuttable read flag up ns) : Everywhere (Node.IsReady read) (resolveNodes flag ns) := by
  induction ns using memberInduction generalizing up with
  | nil => exact everywhere_nil
  | item kind parts rest ihGroups ihRest =>
      refine everywhere_append.mpr ⟨everywhere_item.mpr ⟨h.isReady_item, ?_⟩, ihRest hup h.tail⟩
      intro opening members closing hgroup
      rw [resolveParts_eq] at hgroup
      obtain ⟨p, hp, heq⟩ := List.mem_map.mp hgroup
      cases p with
      | token u => exact absurd heq (by simp [Part.resolve])
      | group o ms c =>
          cases heq
          exact ihGroups opening ms closing hp hup (h.group hp)
  | block cs ending rest ihBodies ihRest =>
      refine everywhere_append.mpr ⟨?_, ihRest hup h.tail⟩
      have hbody : ∀ {i : Nat} {c : Clause}, cs[i]? = some c →
          Stays flag (up ++ [(cs, .body i)]) →
          Everywhere (Node.IsReady read) (resolveNodes flag c.body) := fun hplace hup' =>
        ihBodies _ (List.mem_of_getElem? hplace) hup' (h.body hplace).1
      by_cases hflags : FlagsAre flag cs
      · rw [resolve_block_of_flagsAre (Build.isOn_only flag) hflags]
        have hvacated : Everywhere (Node.IsReady read) (vacated cs) :=
          everywhere_placeholder.mpr rfl
        split
        · next c hchosen =>
          split
          · rw [← getElem?_keptPlace] at hchosen
            obtain ⟨i, hi, hplace⟩ := Option.bind_eq_some_iff.mp hchosen
            exact (hbody hplace (hup.append fun _ => hi)).splice
              (fun n t leading ht hn => hn.withFirstToken leading ht) _
          · exact hvacated
        · exact hvacated
      · rw [resolve_block_of_not_flagsAre hflags]
        obtain ⟨⟨⟨hending, horder, _⟩, _⟩, _⟩ := everywhere_block.mp (everywhere_cons.mp h.parsed).1
        have hclause : ∀ c ∈ cs, (c.resolve flag).IsReady read
            ∧ Everywhere (Node.IsReady read) (c.resolve flag).body := by
          intro c hc
          obtain ⟨i, hplace⟩ := List.mem_iff_getElem?.mp hc
          have hup' : Stays flag (up ++ [(cs, .body i)]) := hup.append fun h => absurd h hflags
          refine ⟨h.isReady_clause hplace hup', ?_⟩
          rw [c.body_resolve]
          exact hbody hplace hup'
        refine everywhere_block.mpr ⟨⟨hending, ?_, ?_⟩, ?_⟩
        · rwa [kindsOf_resolveClauses]
        · rw [resolveClauses_eq]
          exact List.forall_mem_map.mpr fun c hc => (hclause c hc).1
        · rw [resolveClauses_eq]
          exact List.forall_mem_map.mpr fun c hc => (hclause c hc).2
  | placeholder t rest ihRest =>
      -- a parsed tree has no placeholders
      obtain ⟨hfirst, _⟩ := everywhere_cons.mp h.parsed
      have ht := (everywhere_placeholder.mp hfirst).1
      exact absurd (congrArg Token.kind ht) (h.solid ⟨t, up⟩ List.mem_cons_self).2

/-! ## Rewritten sources -/

/-- A tree whose blocks on the flag can be cut out without a trace. -/
structure CutsCleanly (flag : Text) (tree : SourceTree) : Prop where
  own : tree.occurrences.IsChain (OwnLine flag)
  seam : tree.occurrences.IsChain (CleanSeam flag)
  afresh : tree.occurrences.IsChain (StartsAfresh flag)
  complete : Everywhere Node.IsComplete tree.members

theorem cutsCleanly_iff {tree : SourceTree} : CutsCleanly flag tree ↔
    tree.occurrences.IsChain (OwnLine flag) ∧ tree.occurrences.IsChain (CleanSeam flag)
      ∧ tree.occurrences.IsChain (StartsAfresh flag) ∧ Everywhere Node.IsComplete tree.members :=
  ⟨fun h => ⟨h.own, h.seam, h.afresh, h.complete⟩, fun h => ⟨h.1, h.2.1, h.2.2.1, h.2.2.2⟩⟩

instance (flag : Text) (tree : SourceTree) : Decidable (CutsCleanly flag tree) :=
  decidable_of_iff _ cutsCleanly_iff.symm

/-- A tree in which a block stands inside round or square brackets of the list it is in. -/
def SourceTree.IsBracketed (t : SourceTree) : Prop := bracketsOfNodes? 0 t.members = none

instance (t : SourceTree) : Decidable t.IsBracketed :=
  inferInstanceAs (Decidable (bracketsOfNodes? 0 t.members = none))

/-- A second parse of a rewritten text, followed by any relation between its lists and those
of the resolved tree. -/
theorem parse_render_follows {R : Members → Members → Prop}
    (hR : Follows (fun n => ¬ IsBlockOn flag n) R) {g : Grouping} {source : Text}
    {tree : SourceTree} (h : SourceTree.parse g source = .ok tree) (hcut : CutsCleanly flag tree) :
    match bracketsOfNodes? 0 (tree.resolve flag).members with
    | some _ => ∃ m eof, SourceTree.parse g (tree.resolve flag).render = .ok ⟨m.finish, eof⟩
        ∧ R m (regroupNodes .empty (tree.resolve flag).members)
    | none => ∃ f, f.cause = .bracketedBlock
        ∧ SourceTree.parse g (tree.resolve flag).render = .error (.malformed f) := by
  obtain ⟨l, hl, hassemble⟩ := exists_of_parse h
  have hseams := isChain_seam hcut.own hcut.seam
  have hchain : tree.occurrences.IsChain (CleanCut flag) := by
    have hafresh := hcut.afresh
    rw [List.isChain_iff_forall_rel_of_append_cons_cons] at *
    exact fun a b pre post heq => ⟨hseams heq, hafresh heq⟩
  have hcuttable : IsCuttable _ flag [] tree.members :=
    ⟨isParsed_of_assemble hassemble, hcut.complete, kind_of_mem_members hl hassemble,
      hchain.left_of_append⟩
  -- the text is scanned as the words of the tree, and the words are assembled as its blocks
  have hready := isReady_resolveNodes (fun _ ha => absurd ha List.not_mem_nil) hcuttable
  obtain ⟨l', hl', hwords⟩ := tokenize_words hl hassemble hseams
  rw [words_resolve hl hassemble] at hwords
  have hparse : SourceTree.parse g (tree.resolve flag).render
      = assemble (Condition.ofTokens g) l' := by
    rw [SourceTree.parse, SourceTree.parseWith, hl']
  have hagain := assemble_of_spells hR (fun us ts hus => by rw [ofTokens_congr hus]) hready
    (everywhere_not_isBlockOn flag tree.members) hwords
  rw [hparse, SourceTree.resolve]
  split at hagain
  · next d hd =>
    rw [hd]
    obtain ⟨m, hok, hm⟩ := hagain
    exact ⟨m, l'.eof, hok, hm⟩
  · next hd =>
    rw [hd]
    exact hagain

/-- **What a second parse finds**: the blocks of the resolved tree, or a block inside
brackets. -/
theorem parse_render_resolve {g : Grouping} {source : Text} {tree : SourceTree}
    (h : SourceTree.parse g source = .ok tree) (hcut : CutsCleanly flag tree) :
    (¬ (tree.resolve flag).IsBracketed → ∃ again,
      SourceTree.parse g (tree.resolve flag).render = .ok again ∧ again.isEdited flag = false)
    ∧ ((tree.resolve flag).IsBracketed → ∃ f, f.cause = .bracketedBlock
      ∧ SourceTree.parse g (tree.resolve flag).render = .error (.malformed f)) := by
  -- whether a block is on the flag is decided by its conditions
  have hblock : ∀ cs ds e e', ¬ IsBlockOn flag (.block ds e) → conditionsOf cs = conditionsOf ds →
      ¬ IsBlockOn flag (.block cs e') := by
    rintro cs ds e e' hds hcs ⟨ns, hns, hflag⟩
    exact hds ⟨ns, hcs ▸ hns, hflag⟩
  have hagain := parse_render_follows (follows_every (fun _ _ => id) hblock) h hcut
  rw [SourceTree.IsBracketed]
  refine ⟨fun hplain => ?_, fun hbracketed => ?_⟩
  · obtain ⟨d, hd⟩ := Option.ne_none_iff_exists'.mp hplain
    rw [hd] at hagain
    obtain ⟨m, eof, hok, hnone⟩ := hagain
    refine ⟨_, hok, ?_⟩
    rw [SourceTree.isEdited_eq_false_iff, SourceTree.resolvedCount_eq_zero_iff]
    exact hnone.finish
  · rw [hbracketed] at hagain
    exact hagain

/-- **A second run changes nothing.** A rewritten text that has been cut out cleanly is left
untouched when the same flag is removed from it again. -/
theorem untouched_of_rewritten {g : Grouping} {source text : Text} {isEmpty : Bool}
    (h : Edit.ofSource g flag source = .ok (.rewritten text isEmpty)) {tree : SourceTree}
    (htree : SourceTree.parse g source = .ok tree) (hcut : CutsCleanly flag tree) :
    Edit.ofSource g flag text = .ok .untouched := by
  obtain ⟨tree', again, htree', rfl, hagain⟩ := Edit.exists_of_rewritten h
  obtain rfl : tree = tree' := Except.ok.inj (htree.symm.trans htree')
  obtain ⟨hplain, hbracketed⟩ := parse_render_resolve htree hcut
  have hfits : ¬ (tree.resolve flag).IsBracketed := by
    intro hb
    obtain ⟨f, _, hf⟩ := hbracketed hb
    rw [hagain] at hf
    exact absurd hf (by simp)
  obtain ⟨again', hagain', hedited⟩ := hplain hfits
  rw [SourceTree.parse] at hagain'
  rw [Edit.ofSource, Edit.ofSourceWith, hagain']
  simp [hedited]

theorem untouched_of_rewritten_nested :
    ∃ source text tree,
      source = "x\n#if B && (C)\n#if A\n\n#if !A\ny\n#else\n\nf(z) // z\n#endif\n#else\nw\n#endif\n#endif\n".toList
      ∧ text = "x\n#if B && (C)\n\n\nf(z) // z\n#endif\n".toList
      ∧ SourceTree.parse .sequential source = .ok tree ∧ CutsCleanly "A".toList tree
      ∧ Edit.ofSource .sequential "A".toList source = .ok (.rewritten text true)
      ∧ Edit.ofSource .sequential "A".toList text = .ok .untouched := by
  have hparse : (SourceTree.parse .sequential
      "x\n#if B && (C)\n#if A\n\n#if !A\ny\n#else\n\nf(z) // z\n#endif\n#else\nw\n#endif\n#endif\n".toList).toOption.any
        (fun tree => decide (CutsCleanly "A".toList tree)) = true := by
    decide +kernel
  have hedit : Edit.ofSource .sequential "A".toList
      "x\n#if B && (C)\n#if A\n\n#if !A\ny\n#else\n\nf(z) // z\n#endif\n#else\nw\n#endif\n#endif\n".toList
      = .ok (.rewritten "x\n#if B && (C)\n\n\nf(z) // z\n#endif\n".toList true) := by
    decide +kernel
  obtain ⟨tree, htree, hcut⟩ := exists_of_parse_any hparse
  have hcut' := of_decide_eq_true hcut
  exact ⟨_, _, tree, rfl, rfl, htree, hcut', hedit, untouched_of_rewritten hedit htree hcut'⟩

/-- A condition that is not complete takes in what has moved up behind it, and is on the flag
then. -/
theorem rewritten_again :
    ∃ source text text', source = "#if A &&\n#if A\nA\n#endif\nx\n#endif\n".toList
      ∧ Edit.ofSource .sequential "A".toList source = .ok (.rewritten text true)
      ∧ text = "#if A &&\nA\nx\n#endif\n".toList
      ∧ Edit.ofSource .sequential "A".toList text = .ok (.rewritten text' true)
      ∧ text' = "x\n".toList :=
  ⟨_, _, _, rfl, by decide +kernel, rfl, by decide +kernel, rfl⟩

/-- What an edit makes of a source that parses. -/
theorem Edit.ofSource_of_parse {g : Grouping} {source : Text} {tree : SourceTree}
    (h : SourceTree.parse g source = .ok tree) (flag : Text) :
    Edit.ofSource g flag source
      = if tree.isEdited flag then
          match SourceTree.parse g (tree.resolve flag).render with
          | .error (.malformed f) => .error (.broken f)
          | .error r => .error (.refused r)
          | .ok again => .ok (.rewritten (tree.resolve flag).render again.isEmpty)
        else .ok .untouched := by
  rw [SourceTree.parse] at h
  rw [Edit.ofSource, Edit.ofSourceWith, h]
  rfl

/-- **A rewritten text parses, or a block has come to stand inside brackets.** A text is
handed on only if it parses. Where the blocks on the flag can be cut out cleanly, the source
is edited or left untouched, unless it is edited and a block of the resolved tree stands
inside brackets; then the edit fails for that reason. -/
theorem broken_iff_bracketed {g : Grouping} {source : Text} {tree : SourceTree}
    (h : SourceTree.parse g source = .ok tree) (flag : Text) :
    (∀ text isEmpty, Edit.ofSource g flag source = .ok (.rewritten text isEmpty) →
      ∃ again, SourceTree.parse g text = .ok again)
    ∧ (CutsCleanly flag tree →
      ((∃ e, Edit.ofSource g flag source = .error e)
        ↔ tree.isEdited flag = true ∧ (tree.resolve flag).IsBracketed)
      ∧ ∀ e, Edit.ofSource g flag source = .error e →
          ∃ f, e = .broken f ∧ f.cause = .bracketedBlock) := by
  refine ⟨fun text isEmpty hedit => ?_, fun hcut => ?_⟩
  · obtain ⟨_, again, _, _, hagain⟩ := Edit.exists_of_rewritten hedit
    exact ⟨again, hagain⟩
  · obtain ⟨hplain, hbracketed⟩ := parse_render_resolve h hcut
    rw [Edit.ofSource_of_parse h]
    by_cases hedited : tree.isEdited flag = true
    · rw [if_pos hedited]
      by_cases hb : (tree.resolve flag).IsBracketed
      · obtain ⟨f, hf, herror⟩ := hbracketed hb
        rw [herror]
        refine ⟨iff_of_true ⟨_, rfl⟩ ⟨hedited, hb⟩, fun e he => ⟨f, ?_, hf⟩⟩
        exact (Except.error.inj he).symm
      · obtain ⟨again, hok, _⟩ := hplain hb
        rw [hok]
        refine ⟨iff_of_false ?_ fun hboth => hb hboth.2, fun e he => absurd he (by simp)⟩
        rintro ⟨e, he⟩
        exact absurd he (by simp)
    · rw [if_neg hedited]
      refine ⟨iff_of_false ?_ fun hboth => hedited hboth.1, fun e he => absurd he (by simp)⟩
      rintro ⟨e, he⟩
      exact absurd he (by simp)

theorem broken_iff_bracketed_call :
    ∃ source tree f, source = "#if A\nf(\n#endif\n#if B\nx\n#endif\n".toList
      ∧ SourceTree.parse .sequential source = .ok tree ∧ CutsCleanly "A".toList tree
      ∧ (tree.resolve "A".toList).IsBracketed
      ∧ Edit.ofSource .sequential "A".toList source = .error (.broken f)
      ∧ f.cause = .bracketedBlock := by
  have hparse : (SourceTree.parse .sequential
      "#if A\nf(\n#endif\n#if B\nx\n#endif\n".toList).toOption.any
        (fun tree => decide (CutsCleanly "A".toList tree ∧ tree.isEdited "A".toList = true
          ∧ (tree.resolve "A".toList).IsBracketed)) = true := by
    decide +kernel
  obtain ⟨tree, htree, hshape⟩ := exists_of_parse_any hparse
  obtain ⟨hcut, hedited, hbracketed⟩ := of_decide_eq_true hshape
  obtain ⟨hiff, hcause⟩ := (broken_iff_bracketed htree "A".toList).2 hcut
  obtain ⟨e, he⟩ := hiff.mpr ⟨hedited, hbracketed⟩
  obtain ⟨f, rfl, hf⟩ := hcause e he
  exact ⟨_, tree, f, rfl, htree, hcut, hbracketed, he, hf⟩

/-- Sources that parse, and whose rewritten text does not. In the first a body leaves a
bracket open; in each of the others one thing that makes a clean cut is missing: a line of
its own for a directive, the line in front of one without an escape at its end, no slash, no
number sign and no directive in the middle of a line behind one, no condition that is
continued behind one, and none that is not complete in front of one. -/
theorem broken_though_parsed :
    (∃ tree, SourceTree.parse .sequential "#if A\nf(\n#endif\n#if B\nx\n#endif\n".toList = .ok tree)
      ∧ ∀ p ∈ [("#if A\nf(\n#endif\n#if B\nx\n#endif\n", Failure.mk .bracketedBlock 2),
          ("#if A\nx // c\n#endif \x7b\n\x7d\n", ⟨.strayToken ['\x7d'], 2⟩),
          ("/\x7b\\\n#if A\nb/\n#endif\n\x7d\n", ⟨.strayToken ['\x7d'], 3⟩),
          ("#if A\n/\x7b/\x7d\n#endif\n", ⟨.strayToken ['\x7d'], 1⟩),
          ("#if A\n#!\x7b\n\x7d\n#endif\n", ⟨.strayToken ['\x7d'], 2⟩),
          ("#if A\nx // c\n#endif #if B\ny\n#endif\n", ⟨.strayDirective "#endif".toList, 3⟩),
          ("#if B\n#if A\n#endif\n&& \x7b\n\x7d\n#endif\n", ⟨.openBlock 1, 4⟩),
          ("#if B &&\n#if A\nf \x7b\n\x7d\n#endif\n#endif\n", ⟨.openBlock 1, 3⟩)],
        Edit.ofSource .sequential "A".toList p.1.toList = .error (.broken p.2) := by
  have hparse : (SourceTree.parse .sequential
      "#if A\nf(\n#endif\n#if B\nx\n#endif\n".toList).toOption.any (fun _ => true) = true := by
    decide +kernel
  obtain ⟨tree, htree, _⟩ := exists_of_parse_any hparse
  exact ⟨⟨tree, htree⟩, by decide +kernel⟩

end Unflag
