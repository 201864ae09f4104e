/-
What a resolution leaves alone.

A resolution takes tokens away and moves trivia; it makes no token and no text. Of the
tokens in their places exactly those that are not dropped are left, in their order, each
with its class, its text, its line and its trailing trivia, and one that stands in no block
on the flag with its leading trivia as well (`resolve_keeps_tokens`). The text of the result
is the text of the source with characters struck out.

Both are read off `Pruned`. For the text the only question is the trivia that is gathered in
front of a body that moves up: each piece of it is the leading trivia of a token of the
source, less some line breaks, and a run that loses a unit is a part of the run.
-/
import Mathlib.Data.List.Forall2
import Unflag.Proofs.Pruning

set_option autoImplicit false

namespace Unflag

open scoped List

variable {flag : Text}

/-! ## Tokens -/

/-- What a token is like behind a resolution: only its leading trivia may differ, and only
in a block on the flag. -/
structure Carried (flag : Text) (o : Occurrence) (t : Token) : Prop where
  kind : t.kind = o.token.kind
  text : t.text = o.token.text
  line : t.line = o.token.line
  trailing : t.trailing = o.token.trailing
  leading : ¬ o.IsInside flag → t.leading = o.token.leading

theorem Occurrence.IsDropped.isInside {o : Occurrence} (h : o.IsDropped flag) :
    o.IsInside flag := by
  obtain ⟨a, ha, hflags, _⟩ := h
  exact ⟨a, ha, hflags⟩

theorem filter_gap {d : Occurrence} {gap : List Occurrence} (h : IsGap flag d gap)
    (os : List Occurrence) :
    (d :: gap ++ os).filter (fun o => decide (¬ o.IsDropped flag))
      = os.filter fun o => decide (¬ o.IsDropped flag) := by
  rw [List.filter_append, List.filter_eq_nil_iff.mpr, List.nil_append]
  simpa using h.dropped

/-- The tokens left are those that are not dropped. -/
theorem Pruned.forall₂_carried {os : List Occurrence} {ts : List Token} (h : Pruned flag os ts)
    (hos : ∀ o ∈ os, o.token.kind ≠ .placeholder) :
    List.Forall₂ (Carried flag) (os.filter fun o => decide (¬ o.IsDropped flag)) (solid ts) := by
  induction h with
  | done => exact .nil
  | keep o hkept _ ih =>
      obtain ⟨ho, hrest⟩ := List.forall_mem_cons.mp hos
      rw [List.filter_cons_of_pos (by simpa using hkept), solid_cons_of_ne ho]
      exact .cons ⟨rfl, rfl, rfl, rfl, fun _ => rfl⟩ (ih hrest)
  | drop d gap hgap _ _ ih =>
      rw [filter_gap hgap]
      exact ih fun o ho => hos o (List.mem_append_right _ ho)
  | vacate d gap hgap _ ih =>
      rw [filter_gap hgap, solid_cons_placeholder]
      exact ih fun o ho => hos o (List.mem_append_right _ ho)
  | splice d gap o r hgap hkept hinside _ _ ih =>
      obtain ⟨ho, hrest⟩ := List.forall_mem_cons.mp (List.forall_mem_append.mp hos).2
      rw [filter_gap hgap, List.filter_cons_of_pos (by simpa using hkept),
        solid_cons_of_ne (t := o.token.withLeading (d.token.leading ++ r)) ho]
      exact .cons ⟨rfl, rfl, rfl, rfl, fun hout => absurd hinside hout⟩ (ih hrest)

/-! ## Text -/

/-- A line break less is a part of the trivia. -/
theorem sublist_text_dropDirectiveLine {ts : Trivia} (h : ∀ p ∈ ts, p.IsWhole) :
    ts.dropDirectiveLine.text <+ ts.text := by
  rcases dropDirectiveLine_cases h with heq | ⟨p, r, rfl, _, hrest⟩
  · rw [heq]
  · rcases hrest with heq | ⟨unit, n, _, htext, heq⟩
    · rw [heq]
      exact List.sublist_append_right p.text (Trivia.text r)
    · rw [heq]
      show Trivia.repeated unit (n + 1) ++ Trivia.text r <+ p.text ++ Trivia.text r
      rw [htext, repeated_succ unit (n + 1)]
      exact (List.sublist_append_right _ _).append (List.Sublist.refl _)

/-- Gathered trivia is a part of the trivia it was gathered from. -/
theorem Gathered.sublist_text {us : List Token} {ts : Trivia} (h : Gathered us ts)
    (hus : ∀ t ∈ us, ∀ p ∈ t.leading, p.IsWhole) :
    ts.text <+ us.flatMap fun t => t.leading.text := by
  induction h with
  | done => exact .refl []
  | skip t _ ih =>
      exact (ih (List.forall_mem_cons.mp hus).2).trans (List.sublist_append_right _ _)
  | @take us ts t n _ ih =>
      obtain ⟨ht, hrest⟩ := List.forall_mem_cons.mp hus
      have hleading : (Trivia.dropDirectiveLine^[n] t.leading).text <+ t.leading.text := by
        induction n with
        | zero => exact .refl _
        | succ n ihn =>
            rw [Function.iterate_succ_apply']
            exact (sublist_text_dropDirectiveLine (isWhole_iterate ht n)).trans ihn
      rw [Trivia.text, List.flatMap_append]
      exact hleading.append (ih hrest)

/-- The leading trivia of tokens is a part of their text. -/
theorem sublist_leading (us : List Token) :
    (us.flatMap fun t => t.leading.text) <+ Token.sourceAll us := by
  induction us with
  | nil => exact .refl []
  | cons t r ih =>
      refine List.Sublist.append ?_ ih
      rw [Token.source, List.append_assoc]
      exact List.sublist_append_left _ _

/-- **A resolution only deletes.** -/
theorem Pruned.sublist_source {os : List Occurrence} {ts : List Token} (h : Pruned flag os ts)
    (hos : ∀ o ∈ os, ∀ p ∈ o.token.leading, p.IsWhole) :
    Token.sourceAll ts <+ Token.sourceAll (os.map Occurrence.token) := by
  induction h with
  | done => exact .refl []
  | keep o _ _ ih =>
      exact (List.Sublist.refl _).append (ih (List.forall_mem_cons.mp hos).2)
  | @drop os ts d gap _ _ _ ih =>
      have htail := ih fun o ho => hos o (List.mem_append_right _ ho)
      rw [List.map_append, Token.sourceAll, Token.sourceAll, List.flatMap_append]
      exact htail.trans (List.sublist_append_right _ _)
  | @vacate os ts d gap _ _ ih =>
      have htail := ih fun o ho => hos o (List.mem_append_right _ ho)
      have hleft : (Token.placeholder d.token.leading).source
          <+ Token.sourceAll ((d :: gap).map Occurrence.token) := by
        have hsource : (Token.placeholder d.token.leading).source = d.token.leading.text := by
          simp [Token.source, Token.placeholder, Trivia.text]
        have hfront := sublist_leading ((d :: gap).map Occurrence.token)
        rw [hsource]
        exact (List.sublist_append_left _ _).trans hfront
      rw [List.map_append, Token.sourceAll, Token.sourceAll, List.flatMap_append,
        List.flatMap_cons]
      exact hleft.append htail
  | @splice os ts d gap o r _ _ _ hr _ ih =>
      obtain ⟨hgap, hrest⟩ := List.forall_mem_append.mp hos
      obtain ⟨ho, hos'⟩ := List.forall_mem_cons.mp hrest
      have hpieces : ∀ t ∈ gap.map Occurrence.token ++ [o.token], ∀ p ∈ t.leading, p.IsWhole := by
        refine List.forall_mem_append.mpr ⟨?_, List.forall_mem_singleton.mpr ho⟩
        exact List.forall_mem_map.mpr (List.forall_mem_cons.mp hgap).2
      -- the trivia in front of the token that moves up comes from the run and from its own
      have hgathered : (d.token.leading ++ r).text
          <+ Token.sourceAll ((d :: gap).map Occurrence.token) ++ o.token.leading.text := by
        have htext := hr.sublist_text hpieces
        rw [List.flatMap_append, List.flatMap_singleton] at htext
        have hfront : (d.token.leading ++ r).text = d.token.leading.text ++ r.text :=
          List.flatMap_append
        rw [hfront]
        calc d.token.leading.text ++ r.text
            <+ d.token.leading.text ++
                ((gap.map Occurrence.token).flatMap (fun t => t.leading.text)
                  ++ o.token.leading.text) := (List.Sublist.refl _).append htext
          _ = ((d :: gap).map Occurrence.token).flatMap (fun t => t.leading.text)
                ++ o.token.leading.text := by simp
          _ <+ _ := (sublist_leading _).append (List.Sublist.refl _)
      have hmoved : (o.token.withLeading (d.token.leading ++ r)).source
          <+ Token.sourceAll ((d :: gap).map Occurrence.token) ++ o.token.source := by
        simp only [Token.source, Token.withLeading, ← List.append_assoc] at hgathered ⊢
        exact (hgathered.append (List.Sublist.refl _)).append (List.Sublist.refl _)
      have hsplit : Token.sourceAll ((d :: gap ++ o :: os).map Occurrence.token)
          = Token.sourceAll ((d :: gap).map Occurrence.token) ++ o.token.source
            ++ Token.sourceAll (os.map Occurrence.token) := by
        simp [Token.sourceAll]
      rw [hsplit]
      exact hmoved.append (ih hos')

/-! ## Sources -/

/-- The kept place is the place of the clause that is selected. -/
theorem select_keptPlace {cs : List Clause} (h : FlagsAre flag cs) :
    ∃ s, select flag (cs.map Clause.head).zipIdx = .ok s ∧ keptPlace flag cs = s.map Prod.snd := by
  refine ⟨(Build.only flag).choose (cs.map Clause.head).zipIdx, ?_, rfl⟩
  rw [select, selectFrom_eq (b := Build.only flag), Option.or_none]
  · rfl
  · intro c hc e he
    obtain ⟨d, hd, heq⟩ :=
      List.mem_map.mp (List.mem_of_getElem? (List.mem_zipIdx_iff_getElem?.mp hc))
    exact holds_of_flagsAre (Build.isOn_only flag) h hd (by rwa [heq])

/-- **The frame of a resolution.** Of the tokens of a parsed source, in their places, exactly
those that are not dropped are left, in their order, and each is carried over as `Carried`
says. A token in no block on the flag is not dropped; the place that a block on the flag
keeps is the one selected among its opening lines. The text of the result is the source
with characters struck out, and the source itself where no block is on the flag. -/
theorem resolve_keeps_tokens {g : Grouping} {source : Text} {tree : SourceTree}
    (h : SourceTree.parse g source = .ok tree) (flag : Text) :
    tree.occurrences.map Occurrence.token = tree.tokens
      ∧ List.Forall₂ (Carried flag) (tree.occurrences.filter fun o => decide (¬ o.IsDropped flag))
          (solid (tree.resolve flag).tokens)
      ∧ (∀ o ∈ tree.occurrences, ¬ o.IsInside flag → ¬ o.IsDropped flag)
      ∧ (∀ cs, FlagsAre flag cs → ∃ s, select flag (cs.map Clause.head).zipIdx = .ok s
          ∧ keptPlace flag cs = s.map Prod.snd)
      ∧ (tree.resolve flag).render <+ source
      ∧ ((∀ s ∈ tree.sites, ¬ IsBlockOn flag s.node) → (tree.resolve flag).render = source) := by
  obtain ⟨l, hl, hassemble⟩ := exists_of_parse h
  obtain ⟨line, leading, rest, hcut, hleads, _⟩ := cut_of_tokenize hl
  have htokens := (Assembly.tree_of_assemble hassemble).1
  have hsource : tree.render = source := by
    rw [SourceTree.render, htokens]
    exact source_of_tokenize hl
  have hpruned := pruned_of_assemble hassemble (fun t ht => (hcut.of_mem_tokens t ht).2.2) flag
  have hmem : ∀ o ∈ tree.occurrences, o.token ∈ l.toList := by
    intro o ho
    rw [← htokens, ← tree.map_token_occurrences]
    exact List.mem_map_of_mem ho
  refine ⟨tree.map_token_occurrences, hpruned.forall₂_carried fun o ho => ?_,
    fun o _ hout hdropped => hout hdropped.isInside, fun cs hcs => select_keptPlace hcs, ?_, ?_⟩
  · rcases List.mem_append.mp (hmem o ho) with ht | ht
    · exact (hcut.of_mem_tokens _ ht).2.2
    · rw [List.mem_singleton.mp ht, hcut.eof_eq.1]
      decide
  · have hsublist := hpruned.sublist_source fun o ho =>
      (hcut.tokenScanned hleads _ (hmem o ho)).leading.whole
    rwa [tree.map_token_occurrences, ← SourceTree.render, ← SourceTree.render, hsource] at hsublist
  · intro hnone
    rw [SourceTree.resolve, resolveNodes_eq_self hnone]
    exact hsource

theorem resolve_keeps_tokens_nested :
    ∃ source tree,
      source = "x\n#if B\n#if A\n\n#if !A\ny\n#else\n\nz // z\n#endif\n#else\nw\n#endif\n#endif\n".toList
      ∧ SourceTree.parse .swift source = .ok tree
      ∧ (tree.resolve "A".toList).render = "x\n#if B\n\n\nz // z\n#endif\n".toList
      ∧ tree.occurrences.map Occurrence.token = tree.tokens
      ∧ List.Forall₂ (Carried "A".toList)
          (tree.occurrences.filter fun o => decide (¬ o.IsDropped "A".toList))
          (solid (tree.resolve "A".toList).tokens)
      ∧ (tree.resolve "A".toList).render <+ source := by
  have hparse : (SourceTree.parse .swift
      "x\n#if B\n#if A\n\n#if !A\ny\n#else\n\nz // z\n#endif\n#else\nw\n#endif\n#endif\n".toList).toOption.any
        (fun tree => (tree.resolve "A".toList).render
          == "x\n#if B\n\n\nz // z\n#endif\n".toList) = true := by decide +kernel
  obtain ⟨tree, htree, hrender⟩ := exists_of_parse_any hparse
  obtain ⟨htokens, hkept, _, _, htext, _⟩ := resolve_keeps_tokens htree "A".toList
  exact ⟨_, tree, rfl, htree, by simpa using hrender, htokens, hkept, htext⟩

end Unflag
