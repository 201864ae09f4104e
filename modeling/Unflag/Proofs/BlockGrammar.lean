/-
The grammar of blocks.

What the assembly accepts can be said without a machine. A member list is a sequence of plain
tokens, of groups between braces and of chains of clauses; a chain stands only where no round
or square bracket of its own list is open; and the condition of a clause is as long as it can
be. `Derives` says that and nothing else. In particular it has no stack, no items, and no
message for what is missing. What a condition has to be is left open in it: a condition may be
any tokens, but the reader of conditions fails on some of them.

The assembly is shown to accept exactly the language whose conditions are read. One half follows
a derivation and runs the assembly along it. The other half goes backwards over a run: `Needs` is
what the tokens that are still to come must be, and the token that leads from one state to the
next turns what the later state needs into what the earlier one needs. At the end nothing is
needed, and at the start what is needed is a member list.
-/
import Unflag.Proofs.ConditionGrammar
import Unflag.Proofs.LineNumbers
import Unflag.Proofs.Reassembly

set_option autoImplicit false

namespace Unflag

open Assembly

/-! ## Conditions -/

/-- The round brackets open behind tokens, more closed than opened counting below zero. -/
def openParens (ts : List Token) : Int :=
  (ts.countP fun t => t.text == ['(']) - (ts.countP fun t => t.text == [')'])

/-- An operator at the end of a line that wants something behind it. -/
def WantsOperand (t : Token) : Prop :=
  t.kind = .operator ∧ ("&&".toList <:+ t.text ∨ "||".toList <:+ t.text ∨ "!".toList <:+ t.text)

/-- An operator at the start of a line that joins it to the line in front. -/
def JoinsLines (t : Token) : Prop :=
  t.kind = .operator ∧ ("&&".toList <+: t.text ∨ "||".toList <+: t.text)

/-- A condition that has taken some tokens ends in front of another one: at a directive, or at
the start of a line unless a parenthesis is open or an operator joins the lines. -/
def EndsBefore (taken : List Token) (t : Token) : Prop :=
  t.kind = .directive ∨ t.startsLine = true ∧
    ∀ last ∈ taken.getLast?, ¬ (0 < openParens taken ∨ WantsOperand last ∨ JoinsLines t)

/-- The tokens of a condition with a body behind it: none of them ends it, and the body
does. -/
structure IsConditionOf (taken body : List Token) : Prop where
  nonempty : taken ≠ []
  goesOn : ∀ before t after, taken = before ++ t :: after → ¬ EndsBefore before t
  ends : ∀ t ∈ body.head?, EndsBefore taken t

/-! ## The grammar -/

/-- What a run of tokens can be. -/
inductive Phrase where
  /-- The rest of a member list, with so many round and square brackets open. -/
  | list (depth : Nat)
  /-- What may follow the body of a clause, to the end of the block. -/
  | clauses

/-- **The grammar**, with `R` for what holds of the conditions. -/
inductive Derives (R : List Token → Prop) : Phrase → List Token → Prop
  | nil (depth : Nat) : Derives R (.list depth) []
  | plain {depth : Nat} {t : Token} {rest : List Token} (ht : IsPlain t)
      (hrest : Derives R (.list (bracketsAfter depth t)) rest) : Derives R (.list depth) (t :: rest)
  /-- The brackets inside a group are counted on their own. -/
  | group {depth : Nat} {opening closing : Token} {inner rest : List Token}
      (hopening : opening.is .punctuation "\x7b" = true)
      (hclosing : closing.is .punctuation "\x7d" = true)
      (hinner : Derives R (.list 0) inner) (hrest : Derives R (.list depth) rest) :
      Derives R (.list depth) (opening :: (inner ++ closing :: rest))
  /-- A chain of clauses, outside brackets. -/
  | chain {directive : Token} {taken body others rest : List Token}
      (hdirective : directive.is .directive "#if" = true) (htaken : IsConditionOf taken body)
      (hread : R taken) (hbody : Derives R (.list 0) body) (hothers : Derives R .clauses others)
      (hrest : Derives R (.list 0) rest) :
      Derives R (.list 0) (directive :: (taken ++ (body ++ (others ++ rest))))
  | alternative {directive : Token} {taken body others : List Token}
      (hdirective : directive.is .directive "#elseif" = true) (htaken : IsConditionOf taken body)
      (hread : R taken) (hbody : Derives R (.list 0) body) (hothers : Derives R .clauses others) :
      Derives R .clauses (directive :: (taken ++ (body ++ others)))
  | fallback {directive ending : Token} {body : List Token}
      (hdirective : directive.is .directive "#else" = true) (hbody : Derives R (.list 0) body)
      (hending : ending.is .directive "#endif" = true) :
      Derives R .clauses (directive :: (body ++ [ending]))
  | ending {ending : Token} (hending : ending.is .directive "#endif" = true) :
      Derives R .clauses [ending]

/-- What holds of the conditions may be exchanged for anything that follows from it on the tokens
in hand. -/
theorem Derives.mono {R R' : List Token → Prop} {p : Phrase} {ts : List Token}
    (h : Derives R p ts) (hR : ∀ us, (∀ t ∈ us, t ∈ ts) → R us → R' us) : Derives R' p ts := by
  induction h with
  | nil depth => exact .nil depth
  | plain ht _ ih =>
      exact .plain ht (ih fun us hus => hR us fun t h => List.mem_cons_of_mem _ (hus t h))
  | group hopening hclosing _ _ ihInner ihRest =>
      exact .group hopening hclosing (ihInner fun us hus => hR us fun t h => by simp [hus t h])
        (ihRest fun us hus => hR us fun t h => by simp [hus t h])
  | chain hdirective htaken hread _ _ _ ihBody ihOthers ihRest =>
      exact .chain hdirective htaken (hR _ (fun t h => by simp [h]) hread)
        (ihBody fun us hus => hR us fun t h => by simp [hus t h])
        (ihOthers fun us hus => hR us fun t h => by simp [hus t h])
        (ihRest fun us hus => hR us fun t h => by simp [hus t h])
  | alternative hdirective htaken hread _ _ ihBody ihOthers =>
      exact .alternative hdirective htaken (hR _ (fun t h => by simp [h]) hread)
        (ihBody fun us hus => hR us fun t h => by simp [hus t h])
        (ihOthers fun us hus => hR us fun t h => by simp [hus t h])
  | fallback hdirective _ hending ihBody =>
      exact .fallback hdirective (ihBody fun us hus => hR us fun t h => by simp [hus t h]) hending
  | ending hending => exact .ending hending

/-! ## Where a condition ends -/

theorem parenDepth_eq_openParens (ts : List Token) : parenDepth ts = openParens ts := by
  induction ts using List.reverseRecOn with
  | nil => rfl
  | append_singleton ts t ih =>
      rw [parenDepth, List.foldl_append, ← parenDepth, ih]
      simp only [List.foldl_cons, List.foldl_nil, depthAfter, openParens, List.countP_append,
        List.countP_singleton]
      by_cases hopen : t.text = ['(']
      · simp [hopen]
        omega
      · by_cases hclose : t.text = [')']
        · simp [hclose]
          omega
        · simp [hopen, hclose]

theorem wantsMore_iff (t : Token) : wantsMore t = true ↔ WantsOperand t := by
  simp [wantsMore, WantsOperand, or_assoc]

theorem continuesCondition_iff (t : Token) : continuesCondition t = true ↔ JoinsLines t := by
  simp [continuesCondition, JoinsLines]

theorem endsCondition_iff (taken : List Token) (t : Token) :
    endsCondition taken (parenDepth taken) t = true ↔ EndsBefore taken t := by
  rw [endsCondition, Bool.or_eq_true, Bool.and_eq_true, EndsBefore, parenDepth_eq_openParens]
  refine or_congr (by simp [Token.isDirective]) (and_congr_right fun _ => ?_)
  cases hlast : taken.getLast? with
  | none => simp
  | some last =>
      simp only [Option.mem_some_iff, forall_eq', Bool.not_eq_true', ← Bool.not_eq_true,
        Bool.or_eq_true, decide_eq_true_eq, wantsMore_iff, continuesCondition_iff, or_assoc]

theorem endsCondition_eq_false_iff (taken : List Token) (t : Token) :
    endsCondition taken (parenDepth taken) t = false ↔ ¬ EndsBefore taken t := by
  rw [← endsCondition_iff, Bool.not_eq_true]

theorem endsBefore_of_directive {t : Token} {word : String} (h : t.is .directive word = true)
    (taken : List Token) : EndsBefore taken t := .inl (is_iff.mp h).1

/-- What follows a body begins with a directive. -/
theorem Derives.clauses_head {R : List Token → Prop} {ts : List Token}
    (h : Derives R .clauses ts) :
    ∃ t rest, ts = t :: rest ∧ ∀ taken, EndsBefore taken t := by
  cases h with
  | alternative hdirective _ _ _ _ => exact ⟨_, _, rfl, endsBefore_of_directive hdirective⟩
  | fallback hdirective _ _ => exact ⟨_, _, rfl, endsBefore_of_directive hdirective⟩
  | ending hending => exact ⟨_, [], rfl, endsBefore_of_directive hending⟩

/-! ## Derivations are accepted -/

section Accepted

variable {read : List Token → Except Refusal Condition}

/-- What the assembly does on a phrase. On a list it comes back to the list in hand; on what
follows a body, to the list around the block. -/
def Accepts (read : List Token → Except Refusal Condition) : Phrase → List Token → Prop
  | .list depth, ts => ∀ (stack : List Frame) (m : Members), m.depth = depth →
      ∃ m', ts.foldlM (step read) (.listing stack m) = .ok (.listing stack m')
  | .clauses, ts => ∀ (stack : List Frame) (block : OpenBlock) (head : ClauseHead) (m : Members),
      head.kind ≠ .fallback → ∃ n, ts.foldlM (step read) (.listing (.clause block head :: stack) m)
        = .ok (.listing stack (block.outer.addNode n))

/-- The condition and the body of a clause, and the rest of its block. -/
theorem accepts_clause (hspelled : ∀ us ts, Spells us ts → read us = read ts)
    {taken body others : List Token} (htaken : IsConditionOf taken body)
    (hread : ∃ e, read taken = .ok e) (hbody : Accepts read (.list 0) body)
    (hothers : Accepts read .clauses others)
    (hhead : ∃ t rest, others = t :: rest ∧ ∀ taken, EndsBefore taken t)
    (stack : List Frame) (block : OpenBlock) (kind : ClauseKind) (hkind : kind ≠ .fallback)
    (directive : Token) (hdirective : directive.is .directive kind.word = true) :
    ∃ n, (taken ++ (body ++ others)).foldlM (step read) (opened stack block kind directive)
      = .ok (.listing stack (block.outer.addNode n)) := by
  obtain ⟨e, he⟩ := hread
  have hbuilt : ClauseHead.IsBuilt read ⟨kind, directive, taken, some e⟩ := by
    refine ⟨hdirective, fun _ => ⟨htaken.nonempty, e, he, rfl⟩, fun h => absurd h hkind, ?_⟩
    intro before t after hsplit
    exact (endsCondition_eq_false_iff before t).mpr (htaken.goesOn before t after hsplit)
  -- the condition ends in front of the body, or in front of the directive if it is empty
  obtain ⟨w, ws, hws, hends⟩ : ∃ w ws, body ++ others = w :: ws ∧ EndsBefore taken w := by
    obtain ⟨t, rest, rfl, ht⟩ := hhead
    cases body with
    | nil => exact ⟨t, rest, rfl, ht taken⟩
    | cons w ws => exact ⟨w, _, rfl, htaken.ends w rfl⟩
  obtain ⟨head, hheadkind, _, hrun⟩ : ∃ head : ClauseHead, head.kind = kind
      ∧ head.condition = some e
      ∧ (taken ++ w :: ws).foldlM (step read) (opened stack block kind directive)
        = (w :: ws).foldlM (step read) (.listing (.clause block head :: stack) .empty) :=
    foldlM_opened hspelled hbuilt rfl (fun _ => (endsCondition_iff taken w).mpr hends) block
      directive
  obtain ⟨m, hm⟩ := hbody (.clause block head :: stack) .empty rfl
  obtain ⟨n, hrest⟩ := hothers stack block head m (by rw [hheadkind]; exact hkind)
  refine ⟨n, ?_⟩
  rw [hws, hrun, ← hws, List.foldlM_append, hm]
  exact hrest

/-- **What is derived is accepted.** -/
theorem Derives.accepts (hspelled : ∀ us ts, Spells us ts → read us = read ts) {p : Phrase}
    {ts : List Token} (h : Derives (fun us => ∃ e, read us = .ok e) p ts) :
    Accepts read p ts := by
  -- `Accepts` is for every list in hand, since each part starts from what the one before it left
  induction h with
  | nil depth => exact fun stack m _ => ⟨m, rfl⟩
  | @plain depth t rest ht _ ih =>
      rintro stack m rfl
      obtain ⟨hclose, hboundary, hif, hopen⟩ := ht
      have hstep : step read (.listing stack m) t
          = .ok (.listing stack ((m.breakBefore t).addToken t)) := by
        simp only [step, stepList, hclose, hboundary, hif, hopen, Bool.false_eq_true, if_false]
      obtain ⟨m', hm'⟩ := ih stack ((m.breakBefore t).addToken t) (by
        rw [Members.depth_addToken, Members.depth_breakBefore])
      exact ⟨m', by rw [List.foldlM_cons, hstep]; exact hm'⟩
  | @group depth opening closing inner rest hopening hclosing _ _ ihInner ihRest =>
      rintro stack m rfl
      have hopen : step read (.listing stack m) opening
          = .ok (.listing (.group (m.breakBefore opening) opening :: stack) .empty) := by
        obtain ⟨hkind, htext⟩ := is_iff.mp hopening
        simp [step, stepList, isBoundary, Token.is, Token.isOneOf, hkind, htext]
      obtain ⟨m', hm'⟩ := ihInner (.group (m.breakBefore opening) opening :: stack) .empty rfl
      have hclose : step read
          (.listing (.group (m.breakBefore opening) opening :: stack) m') closing
          = .ok (.listing stack ((m.breakBefore opening).addPart
              (.group opening m'.finish closing))) := by
        simp [step, stepList, closeGroup, hclosing]
      obtain ⟨m'', hm''⟩ := ihRest stack
        ((m.breakBefore opening).addPart (.group opening m'.finish closing))
        (m.depth_breakBefore opening)
      refine ⟨m'', ?_⟩
      rw [List.foldlM_cons, hopen]
      show (inner ++ closing :: rest).foldlM (step read) _ = _
      rw [List.foldlM_append, hm']
      show (closing :: rest).foldlM (step read) _ = _
      rw [List.foldlM_cons, hclose]
      exact hm''
  | @chain directive taken body others rest hdirective htaken hread _ hothers _ ihBody ihOthers
      ihRest =>
      rintro stack m hdepth
      have hstep : step read (.listing stack m) directive
          = .ok (opened stack ⟨m.flush, directive.line, []⟩ .primary directive) := by
        obtain ⟨hkind, htext⟩ := is_iff.mp hdirective
        simp [step, stepList, isBoundary, Token.is, Token.isOneOf, hkind, htext, hdepth, opened]
      obtain ⟨n, hblock⟩ := accepts_clause hspelled htaken hread ihBody ihOthers
        hothers.clauses_head stack ⟨m.flush, directive.line, []⟩ .primary (by decide) directive
        hdirective
      obtain ⟨m', hm'⟩ := ihRest stack (m.flush.addNode n)
        (by rw [← hdepth, ← m.depth_flush]; rfl)
      refine ⟨m', ?_⟩
      -- the block ends in the list around it, where the rest of the phrase begins
      have hsplit : taken ++ (body ++ (others ++ rest)) = (taken ++ (body ++ others)) ++ rest := by
        simp
      rw [List.foldlM_cons, hstep, hsplit]
      show ((taken ++ (body ++ others)) ++ rest).foldlM (step read) _ = _
      rw [List.foldlM_append, hblock]
      exact hm'
  | @alternative directive taken body others hdirective htaken hread _ hothers ihBody ihOthers =>
      intro stack block head m hkind
      have hstep : step read (.listing (.clause block head :: stack) m) directive
          = .ok (opened stack { block with clauses := block.clauses ++ [.mk head m.finish] }
            .alternative directive) := step_next hkind (by decide) hdirective
      rw [List.foldlM_cons, hstep]
      exact accepts_clause hspelled htaken hread ihBody ihOthers hothers.clauses_head stack _
        .alternative (by decide) directive hdirective
  | @fallback directive ending body hdirective _ hending ihBody =>
      intro stack block head m hkind
      obtain ⟨m', hm'⟩ := ihBody (.clause { block with clauses := block.clauses ++
        [.mk head m.finish] } ⟨.fallback, directive, [], none⟩ :: stack) .empty rfl
      have hstep : step read (.listing (.clause block head :: stack) m) directive
          = .ok (opened stack { block with clauses := block.clauses ++ [.mk head m.finish] }
            .fallback directive) := step_next hkind (by decide) hdirective
      refine ⟨.block (block.clauses ++ [.mk head m.finish] ++
        [.mk ⟨.fallback, directive, [], none⟩ m'.finish]) ending, ?_⟩
      rw [List.foldlM_cons, hstep]
      show (body ++ [ending]).foldlM (step read) _ = _
      rw [List.foldlM_append, opened, hm']
      show [ending].foldlM (step read) _ = _
      rw [foldlM_singleton, step_ending hending]
  | @ending ending hending =>
      intro stack block head m _
      exact ⟨_, by rw [foldlM_singleton, step_ending hending]⟩

end Accepted

/-! ## What is accepted can be derived -/

namespace Assembly

/-- What must follow the list in hand: what closes each frame, and the rest of the list around
it. -/
def Closes (R : List Token → Prop) : List Frame → List Token → Prop
  | [], ts => ts = []
  | .group outer _ :: up, ts => ∃ closing rest last, ts = closing :: (rest ++ last)
      ∧ closing.is .punctuation "\x7d" = true ∧ Derives R (.list outer.depth) rest
      ∧ Closes R up last
  | .clause block head :: up, ts => ∃ others rest last, ts = others ++ (rest ++ last)
      ∧ (if head.kind = .fallback then ∃ e, others = [e] ∧ e.is .directive "#endif" = true
          else Derives R .clauses others)
      ∧ Derives R (.list block.outer.depth) rest ∧ Closes R up last

/-- What a state needs of the tokens still to come: the rest of the list in hand, or of the
condition that is being read, and what must follow it. -/
def State.Needs (R : List Token → Prop) : State → List Token → Prop
  | .listing stack m, ts => ∃ rest last, ts = rest ++ last
      ∧ Derives R (.list m.depth) rest ∧ Closes R stack last
  | .heading stack block _ _ taken _, ts => ∃ more body others rest last,
      ts = more ++ (body ++ (others ++ (rest ++ last)))
      ∧ taken ++ more ≠ []
      ∧ (∀ before t after, more = before ++ t :: after → ¬ EndsBefore (taken ++ before) t)
      ∧ (∀ t ∈ body.head?, EndsBefore (taken ++ more) t) ∧ R (taken ++ more)
      ∧ Derives R (.list 0) body ∧ Derives R .clauses others
      ∧ Derives R (.list block.outer.depth) rest ∧ Closes R stack last

/-- A condition is being read of a clause that has one, and its parentheses are counted. -/
def State.IsCounted : State → Prop
  | .listing _ _ => True
  | .heading _ _ kind _ taken depth => kind ≠ .fallback ∧ depth = parenDepth taken

section Derived

variable {read : List Token → Except Refusal Condition} {s s' : State} {t : Token}

theorem Step.isCounted (h : Step read s t s') (hs : s.IsCounted) : s'.IsCounted := by
  induction h with
  | closeGroup => trivial
  | endBlock => trivial
  | alternative => exact ⟨by decide, rfl⟩
  | fallback => trivial
  | openBlock => exact ⟨by decide, rfl⟩
  | openGroup => trivial
  | plain => trivial
  | condition stack block kind directive taken depth t ht =>
      obtain ⟨hkind, rfl⟩ := hs
      refine ⟨hkind, ?_⟩
      rw [parenDepth, parenDepth, List.foldl_append]
      rfl
  | body _ _ _ _ _ _ _ _ _ _ _ _ _ ih => exact ih trivial

/-- **What a state needs, the one before it needed with the token in front.** -/
theorem Step.needs (h : Step read s t s') (hs : s.IsCounted) {ts : List Token}
    (hneeds : s'.Needs (fun us => ∃ e, read us = .ok e) ts) :
    s.Needs (fun us => ∃ e, read us = .ok e) (t :: ts) := by
  -- a token that closes the list in hand leaves nothing of it to derive: there `rest` is empty
  induction h with
  | closeGroup outer opening up m t ht =>
      obtain ⟨rest, last, rfl, hrest, hlast⟩ := hneeds
      exact ⟨[], _, rfl, .nil _, t, rest, last, rfl, ht, hrest, hlast⟩
  | endBlock block head up m t ht =>
      obtain ⟨rest, last, rfl, hrest, hlast⟩ := hneeds
      refine ⟨[], _, rfl, .nil _, [t], rest, last, rfl, ?_, hrest, hlast⟩
      split
      · exact ⟨t, rfl, ht⟩
      · exact .ending ht
  | alternative block head up m t ht hkind =>
      obtain ⟨more, body, others, rest, last, rfl, hne, hgoes, hends, hread, hbody, hothers, hrest,
        hlast⟩ := hneeds
      refine ⟨[], _, rfl, .nil _, t :: (more ++ (body ++ others)), rest, last, by simp, ?_, hrest,
        hlast⟩
      rw [if_neg hkind]
      exact .alternative ht ⟨hne, hgoes, hends⟩ hread hbody hothers
  | fallback block head up m t ht hkind =>
      obtain ⟨body, _, rfl, hbody, others, rest, last, rfl, hothers, hrest, hlast⟩ := hneeds
      obtain ⟨e, rfl, he⟩ : ∃ e, others = [e] ∧ e.is .directive "#endif" = true := by
        simpa using hothers
      refine ⟨[], _, rfl, .nil _, t :: (body ++ [e]), rest, last, by simp, ?_, hrest, hlast⟩
      rw [if_neg hkind]
      exact .fallback ht hbody he
  | openBlock stack m t ht hdepth =>
      obtain ⟨more, body, others, rest, last, rfl, hne, hgoes, hends, hread, hbody, hothers, hrest,
        hlast⟩ := hneeds
      refine ⟨t :: (more ++ (body ++ (others ++ rest))), last, by simp, ?_, hlast⟩
      have hrest' : Derives (fun us => ∃ e, read us = .ok e) (.list 0) rest := by
        rw [← hdepth, ← m.depth_flush]
        exact hrest
      rw [hdepth]
      exact .chain ht ⟨hne, hgoes, hends⟩ hread hbody hothers hrest'
  | openGroup stack m t ht =>
      obtain ⟨inner, _, rfl, hinner, closing, rest, last, rfl, hclosing, hrest, hlast⟩ := hneeds
      refine ⟨t :: (inner ++ closing :: rest), last, by simp, .group ht hclosing hinner ?_, hlast⟩
      rwa [m.depth_breakBefore] at hrest
  | plain stack m t ht =>
      obtain ⟨rest, last, rfl, hrest, hlast⟩ := hneeds
      refine ⟨t :: rest, last, rfl, .plain ht ?_, hlast⟩
      rwa [Members.depth_addToken, Members.depth_breakBefore] at hrest
  | condition stack block kind directive taken depth t ht =>
      obtain ⟨_, rfl⟩ := hs
      obtain ⟨more, body, others, rest, last, rfl, hne, hgoes, hends, hread, hlater⟩ := hneeds
      refine ⟨t :: more, body, others, rest, last, rfl, by simp, ?_, by simpa using hends,
        by simpa using hread, hlater⟩
      intro before u after hsplit
      cases before with
      | nil =>
          obtain ⟨rfl, _⟩ := List.cons.inj hsplit
          rw [List.append_nil]
          exact (endsCondition_eq_false_iff taken t).mp ht
      | cons v before =>
          obtain ⟨rfl, hmore⟩ := List.cons.inj hsplit
          simpa using hgoes before u after hmore
  | body stack block kind directive taken depth t e s ht htaken hread _ ih =>
      -- the token is read once more, as the first one of the body or behind an empty one
      obtain ⟨hkind, rfl⟩ := hs
      obtain ⟨body, _, heq, hbody, others, rest, last, rfl, hothers, hrest, hlast⟩ :=
        ih trivial hneeds
      rw [if_neg hkind] at hothers
      refine ⟨[], body, others, rest, last, heq, by simpa using htaken, ?_, ?_,
        ⟨e, by rwa [List.append_nil]⟩, hbody, hothers, hrest, hlast⟩
      · exact fun before u after hsplit => absurd hsplit (by simp)
      · -- if the body has a first token, it is the one that has been read
        intro u hu
        cases body with
        | nil => exact absurd hu (by simp)
        | cons v body =>
            cases hu
            obtain ⟨rfl, _⟩ := List.cons.inj heq
            rw [List.append_nil]
            exact (endsCondition_iff taken t).mp ht

/-- The same for a whole run. -/
theorem needs_of_foldlM {ts us : List Token} (h : ts.foldlM (step read) s = .ok s')
    (hs : s.IsCounted) (hneeds : s'.Needs (fun us => ∃ e, read us = .ok e) us) :
    s.Needs (fun us => ∃ e, read us = .ok e) (ts ++ us) := by
  induction ts generalizing s with
  | nil =>
      cases h
      exact hneeds
  | cons t ts ih =>
      rw [List.foldlM_cons] at h
      cases hone : step read s t with
      | error e =>
          rw [hone] at h
          exact absurd h (by simp [bind, Except.bind])
      | ok s₁ =>
          rw [hone] at h
          have hstep := step_cases hone
          exact hstep.needs hs (ih h (hstep.isCounted hs))

/-- **What is accepted can be derived.** -/
theorem derives_of_assemble {l : Lexed} {tree : SourceTree} (h : assemble read l = .ok tree) :
    Derives (fun us => ∃ e, read us = .ok e) (.list 0) l.tokens := by
  unfold assemble at h
  split at h
  · exact absurd h (by simp)
  · next s hrun =>
    obtain ⟨m, rfl, _⟩ := finish_eq_ok h
    have hdone : State.Needs (fun us => ∃ e, read us = .ok e) (.listing [] m) [] :=
      ⟨[], [], rfl, .nil _, rfl⟩
    obtain ⟨rest, last, heq, hrest, hlast⟩ := needs_of_foldlM hrun trivial hdone
    obtain rfl : last = [] := hlast
    rw [List.append_nil, List.append_nil] at heq
    rw [heq]
    exact hrest

end Derived

end Assembly

/-- The tokens of a condition are tokens of the source. -/
theorem Assembly.StandsBehind.subset {us ts : List Token} {directive : Token}
    (h : StandsBehind us ts directive) : ∀ t ∈ us, t ∈ ts := by
  obtain ⟨_, before, after, rfl⟩ := h
  intro t ht
  simp [ht]

/-- **What is accepted** is what can be derived from conditions that are read. -/
theorem assemble_iff_reads (g : Grouping) (l : Lexed) :
    (∃ tree, assemble (Condition.ofTokens g) l = .ok tree) ↔
      Derives (fun us => ∃ e, Condition.ofTokens g us = .ok e) (.list 0) l.tokens := by
  constructor
  · rintro ⟨tree, htree⟩
    exact derives_of_assemble htree
  · intro hderives
    obtain ⟨m, hm⟩ := hderives.accepts (fun us ts hus => ofTokens_congr hus g) [] .empty rfl
    refine ⟨⟨m.finish, l.eof⟩, ?_⟩
    rw [assemble, hm]
    rfl

/-- **The parser accepts exactly its grammar**, as long as no number is too long. The tokens of a
source are put together to a tree if and only if they are a member list in no condition of which
such a number is reached. Others are refused as malformed, or with the fault of the number in one
of their conditions. Where no number is too long, that leaves the grammar alone, and being
malformed. -/
theorem assemble_iff_derives {source : Text} {l : Lexed} (h : tokenize source = .ok l)
    (g : Grouping) :
    ((∃ tree, assemble (Condition.ofTokens g) l = .ok tree) ↔
      Derives (fun us => ¬ ∃ t, Condition.RunsOver us t) (.list 0) l.tokens)
    ∧ (∀ r, assemble (Condition.ofTokens g) l = .error r → (∃ f, r = .malformed f)
      ∨ ∃ us directive t, StandsBehind us l.tokens directive ∧ Condition.RunsOver us t
        ∧ r = .fault (.tooManyDigits (Literal.digitsOf t).length))
    ∧ ((∀ t ∈ l.tokens, t.kind = .integer → ¬ Literal.IsTooLong t.text) →
      ((∃ tree, assemble (Condition.ofTokens g) l = .ok tree) ↔
        Derives (fun _ => True) (.list 0) l.tokens)
      ∧ ∀ r, assemble (Condition.ofTokens g) l = .error r → ∃ f, r = .malformed f) := by
  have hmem : ∀ {us : List Token}, (∀ t ∈ us, t ∈ l.tokens) → ∀ t ∈ us, t ∈ l.toList :=
    fun hus t ht => List.mem_append_left _ (hus t ht)
  have hreads : ∀ us : List Token, (∀ t ∈ us, t ∈ l.tokens) →
      ((∃ e, Condition.ofTokens g us = .ok e) ↔ ¬ ∃ t, Condition.RunsOver us t) := by
    intro us hus
    have herror := Condition.ofTokens_eq_error_iff h (hmem hus) g
    cases hread : Condition.ofTokens g us with
    | ok e =>
        simp only [Except.ok.injEq, exists_eq', true_iff]
        rintro ⟨t, ht⟩
        have hfault := (herror _).mpr ⟨t, ht, rfl⟩
        rw [hread] at hfault
        cases hfault
    | error r =>
        obtain ⟨t, ht, _⟩ := (herror r).mp hread
        simp only [reduceCtorEq, exists_false, false_iff, not_not]
        exact ⟨t, ht⟩
  have hiff : (∃ tree, assemble (Condition.ofTokens g) l = .ok tree) ↔
      Derives (fun us => ¬ ∃ t, Condition.RunsOver us t) (.list 0) l.tokens := by
    rw [assemble_iff_reads]
    exact ⟨fun hd => hd.mono fun us hus => (hreads us hus).mp,
      fun hd => hd.mono fun us hus => (hreads us hus).mpr⟩
  have hrefused : ∀ r, assemble (Condition.ofTokens g) l = .error r → (∃ f, r = .malformed f)
      ∨ ∃ us directive t, StandsBehind us l.tokens directive ∧ Condition.RunsOver us t
        ∧ r = .fault (.tooManyDigits (Literal.digitsOf t).length) := by
    intro r hr
    rcases refusedAt_assemble hr with ⟨t, _, cause, rfl⟩ | ⟨us, directive, hstands, hread⟩
    · exact .inl ⟨_, rfl⟩
    · obtain ⟨t, ht, rfl⟩ :=
        (Condition.ofTokens_eq_error_iff h (hmem hstands.subset) g r).mp hread
      exact .inr ⟨us, directive, t, hstands, ht, rfl⟩
  refine ⟨hiff, hrefused, fun hshort => ⟨?_, fun r hr => ?_⟩⟩
  · rw [hiff]
    have hnone : ∀ us : List Token, (∀ t ∈ us, t ∈ l.tokens) →
        ¬ ∃ t, Condition.RunsOver us t := by
      rintro us hus ⟨t, ht⟩
      obtain ⟨token, htoken, hkind, hlong⟩ := ht.exists_token
      exact hshort token (hus token htoken) hkind hlong
    exact ⟨fun hd => hd.mono fun _ _ _ => trivial,
      fun hd => hd.mono fun us hus _ => hnone us hus⟩
  · rcases hrefused r hr with hmalformed | ⟨us, directive, t, hstands, ht, _⟩
    · exact hmalformed
    · obtain ⟨token, htoken, hkind, hlong⟩ := ht.exists_token
      exact absurd hlong (hshort token (hstands.subset token htoken) hkind)

/-- A block inside a group, with a number in its condition and an alternative; and a block inside
brackets, which is malformed. -/
theorem assemble_iff_derives_nested :
    (∃ l, tokenize "\x7b [x]\n#if A && 1\n#elseif B\ny\n#endif\n\x7d".toList = .ok l
      ∧ Derives (fun _ => True) (.list 0) l.tokens)
    ∧ ∃ l, tokenize "[\n#if A\n#endif\n]".toList = .ok l
      ∧ ¬ Derives (fun _ => True) (.list 0) l.tokens := by
  have hshort : ∀ {l : Lexed}, (l.tokens.all fun t => decide (t.text.length ≤ 4300)) = true →
      ∀ t ∈ l.tokens, t.kind = .integer → ¬ Literal.IsTooLong t.text := by
    intro l hall t ht _ hlong
    have hlength := of_decide_eq_true (List.all_eq_true.mp hall t ht)
    have hdigits := hlong.length_lt
    rw [Fault.digitLimit] at hdigits
    omega
  have hok : (tokenize "\x7b [x]\n#if A && 1\n#elseif B\ny\n#endif\n\x7d".toList).toOption.any
      (fun l => (l.tokens.all fun t => decide (t.text.length ≤ 4300))
        && (assemble (Condition.ofTokens .sequential) l).toOption.isSome) = true := by
    decide +kernel
  have hrefused : (tokenize "[\n#if A\n#endif\n]".toList).toOption.any
      (fun l => (l.tokens.all fun t => decide (t.text.length ≤ 4300))
        && (assemble (Condition.ofTokens .sequential) l).toOption.isNone) = true := by
    decide +kernel
  obtain ⟨l, hl, hany⟩ := exists_of_tokenize_any hok
  obtain ⟨l', hl', hany'⟩ := exists_of_tokenize_any hrefused
  rw [Bool.and_eq_true] at hany hany'
  refine ⟨⟨l, hl, ?_⟩, l', hl', ?_⟩
  · rw [← ((assemble_iff_derives hl .sequential).2.2 (hshort hany.1)).1]
    cases htree : assemble (Condition.ofTokens .sequential) l with
    | ok tree => exact ⟨tree, rfl⟩
    | error r =>
        rw [htree] at hany
        exact absurd hany.2 (by simp [Except.toOption])
  · rw [← ((assemble_iff_derives hl' .sequential).2.2 (hshort hany'.1)).1]
    rintro ⟨tree, htree⟩
    rw [htree] at hany'
    exact absurd hany'.2 (by simp [Except.toOption])

/-- A member list whose condition is a number that is too long has no tree. -/
theorem list_not_assembled :
    ∃ l, tokenize ("#if ".toList ++ List.replicate 4301 '1' ++ "\n#endif\n".toList) = .ok l
      ∧ Derives (fun _ => True) (.list 0) l.tokens
      ∧ assemble (Condition.ofTokens .sequential) l
        = .error (.fault (.tooManyDigits 4301)) := by
  -- with a reader that takes anything the tokens are accepted
  have hscan : (tokenize ("#if ".toList ++ List.replicate 4301 '1'
      ++ "\n#endif\n".toList)).toOption.any (fun l =>
        (assemble (fun _ => .ok (.bool true)) l).toOption.isSome
          && match assemble (Condition.ofTokens .sequential) l with
            | .error (.fault f) => f == .tooManyDigits 4301
            | _ => false) = true := by
    decide +kernel
  obtain ⟨l, hl, hany⟩ := exists_of_tokenize_any hscan
  rw [Bool.and_eq_true] at hany
  obtain ⟨haccepted, hfault⟩ := hany
  refine ⟨l, hl, ?_, ?_⟩
  · cases htree : assemble (fun _ => .ok (.bool true)) l with
    | ok tree => exact (derives_of_assemble htree).mono fun _ _ _ => trivial
    | error r =>
        rw [htree] at haccepted
        cases haccepted
  · split at hfault
    · next f hf => rw [hf, eq_of_beq hfault]
    · cases hfault

end Unflag
