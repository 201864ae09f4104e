/-
Assembling the words of a tree.

The assembly looks at the words of its tokens and at nothing else that decides where a block
begins and ends: the class of a token, its text, and whether it starts a line. A list of
tokens that spells the tokens of a tree is therefore assembled to a tree with the same
blocks, whatever trivia lies between. Items may be cut differently, and the blocks stand
between them as they did: the run goes the way that `regroupNodes` goes over the tree. What
can be said of the two member lists at each point is a parameter of the run, `Follows`.

One thing can go wrong. Each member list counts the round and square brackets open in it,
and a block is refused inside brackets. A tree that has been put together from parts may
hold a block behind a bracket that no part of its own list closes; `brackets?` finds it, and
`lands_of_spells` says that the assembly fails there and nowhere else.
-/
import Unflag.Proofs.Pruning
import Unflag.Proofs.Reading
import Unflag.Proofs.Regrouping

set_option autoImplicit false

namespace Unflag

open Assembly

/-! ## Words -/

section Congruence

variable {t u : Token}

theorem is_congr (h : u.word = t.word) (kind : Token.Kind) (word : String) :
    u.is kind word = t.is kind word := by
  have hkind : u.kind = t.kind := congrArg Word.kind h
  have htext : u.text = t.text := congrArg Word.text h
  simp only [Token.is, hkind, htext]

theorem isOneOf_congr (h : u.word = t.word) (kind : Token.Kind) (words : List String) :
    u.isOneOf kind words = t.isOneOf kind words := by
  have hkind : u.kind = t.kind := congrArg Word.kind h
  have htext : u.text = t.text := congrArg Word.text h
  simp only [Token.isOneOf, hkind, htext]

theorem isPlain_congr (h : u.word = t.word) (ht : IsPlain t) : IsPlain u := by
  simpa only [IsPlain, isBoundary, is_congr h, isOneOf_congr h] using ht

theorem depthAfter_congr (h : u.word = t.word) (depth : Int) :
    depthAfter depth u = depthAfter depth t := by
  have htext : u.text = t.text := congrArg Word.text h
  simp only [depthAfter, htext]

theorem is_iff {kind : Token.Kind} {word : String} :
    t.is kind word = true ↔ t.kind = kind ∧ t.text = word.toList := by
  simp [Token.is]

theorem kind_ne_of_is {kind kind' : Token.Kind} {word : String} (h : t.is kind word = true)
    (hne : kind ≠ kind') : t.kind ≠ kind' := by
  rw [(is_iff.mp h).1]
  exact hne

end Congruence

/-- Tokens that have the words of others. -/
def Spells (us ts : List Token) : Prop := us.map Token.word = ts.map Token.word

theorem Spells.eq_nil {us : List Token} (h : Spells us []) : us = [] := List.map_eq_nil_iff.mp h

theorem Spells.exists_cons {us ts : List Token} {t : Token} (h : Spells us (t :: ts)) :
    ∃ u vs, us = u :: vs ∧ u.word = t.word ∧ Spells vs ts :=
  List.map_eq_cons_iff.mp h

theorem Spells.exists_append {us ts ts' : List Token} (h : Spells us (ts ++ ts')) :
    ∃ vs vs', us = vs ++ vs' ∧ Spells vs ts ∧ Spells vs' ts' := by
  rw [Spells, List.map_append] at h
  exact List.map_eq_append_iff.mp h

theorem parenDepth_congr {us ts : List Token} (h : Spells us ts) :
    parenDepth us = parenDepth ts := by
  have hfold : ∀ (us ts : List Token) (depth : Int), Spells us ts →
      us.foldl depthAfter depth = ts.foldl depthAfter depth := by
    intro us ts
    induction ts generalizing us with
    | nil => intro depth h; rw [h.eq_nil]
    | cons t ts ih =>
        intro depth h
        obtain ⟨u, vs, rfl, hu, hvs⟩ := h.exists_cons
        rw [List.foldl_cons, List.foldl_cons, depthAfter_congr hu, ih vs _ hvs]
  exact hfold us ts 0 h

/-- Where a condition ends is decided by words. -/
theorem endsCondition_congr {us ts : List Token} {t u : Token} (h : Spells us ts)
    (hu : u.word = t.word) (depth : Int) : endsCondition us depth u = endsCondition ts depth t := by
  have hkind : u.kind = t.kind := congrArg Word.kind hu
  have htext : u.text = t.text := congrArg Word.text hu
  have hline : u.startsLine = t.startsLine := congrArg Word.startsLine hu
  have hlast : us.getLast?.map Token.word = ts.getLast?.map Token.word := by
    rw [← List.getLast?_map, ← List.getLast?_map, h]
  simp only [endsCondition, Token.isDirective, continuesCondition, hkind, htext, hline]
  cases hus : us.getLast? with
  | none =>
      cases hts : ts.getLast? with
      | none => rfl
      | some b => rw [hus, hts] at hlast; exact absurd hlast (by simp)
  | some a =>
      cases hts : ts.getLast? with
      | none => rw [hus, hts] at hlast; exact absurd hlast (by simp)
      | some b =>
          rw [hus, hts] at hlast
          have hword : a.word = b.word := Option.some.inj hlast
          have hkind : a.kind = b.kind := congrArg Word.kind hword
          have htext : a.text = b.text := congrArg Word.text hword
          simp only [wantsMore, hkind, htext]

/-! ## Conditions -/

theorem Spells.map_text {us ts : List Token} (h : Spells us ts) :
    us.map Token.text = ts.map Token.text := by
  have htexts := congrArg (List.map Word.text) h
  rwa [List.map_map, List.map_map] at htexts

theorem argumentLength_congr {us ts : List Token} (h : Spells us ts) (depth : Nat) :
    Condition.argumentLength depth us = Condition.argumentLength depth ts := by
  induction ts generalizing us depth with
  | nil => rw [h.eq_nil]
  | cons t ts ih =>
      obtain ⟨u, vs, rfl, hu, hvs⟩ := h.exists_cons
      have htext : u.text = t.text := congrArg Word.text hu
      simp only [Condition.argumentLength, htext, ih hvs]

theorem Spells.take {us ts : List Token} (h : Spells us ts) (n : Nat) :
    Spells (us.take n) (ts.take n) := by
  rw [Spells, List.map_take, List.map_take, h]

theorem Spells.drop {us ts : List Token} (h : Spells us ts) (n : Nat) :
    Spells (us.drop n) (ts.drop n) := by
  rw [Spells, List.map_drop, List.map_drop, h]

theorem joinTexts_congr {us ts : List Token} (h : Spells us ts) :
    Condition.joinTexts us = Condition.joinTexts ts := by
  rw [Condition.joinTexts, Condition.joinTexts, List.flatMap_def, List.flatMap_def, h.map_text]

theorem ofToken?_congr {t u : Token} (h : u.word = t.word) :
    Condition.Piece.ofToken? u = Condition.Piece.ofToken? t := by
  have hkind : u.kind = t.kind := congrArg Word.kind h
  have htext : u.text = t.text := congrArg Word.text h
  simp only [Condition.Piece.ofToken?, hkind, htext]

theorem ofTokens?_congr {us ts : List Token} (h : Spells us ts) :
    Condition.Piece.ofTokens? us = Condition.Piece.ofTokens? ts := by
  induction hlength : ts.length using Nat.strong_induction_on generalizing us ts with
  | _ size ih =>
  cases ts with
  | nil => rw [h.eq_nil]
  | cons t r =>
      obtain ⟨u, vs, rfl, hu, hvs⟩ := h.exists_cons
      have hkind : u.kind = t.kind := congrArg Word.kind hu
      have hhead : vs.head?.map Token.text = r.head?.map Token.text := by
        rw [← List.head?_map, ← List.head?_map, hvs.map_text]
      have hrest :
          ∀ n, Condition.Piece.ofTokens? (vs.drop n) = Condition.Piece.ofTokens? (r.drop n) := by
        intro n
        refine ih _ ?_ (hvs.drop n) rfl
        rw [← hlength, List.length_drop, List.length_cons]
        omega
      have hjoin :
          ∀ n, Condition.joinTexts (u :: vs.take n) = Condition.joinTexts (t :: r.take n) :=
        fun n => joinTexts_congr (h.take (n + 1))
      -- every branch goes on behind the word, or behind the argument that it takes
      have hall : Condition.Piece.ofTokens? vs = Condition.Piece.ofTokens? r := hrest 0
      rw [Condition.Piece.ofTokens?, Condition.Piece.ofTokens?]
      simp only [hkind, hhead, argumentLength_congr hvs, ofToken?_congr hu, hrest, hjoin, hall]

/-- A condition is read from words. -/
theorem ofTokens_congr {us ts : List Token} (h : Spells us ts) (g : Grouping) :
    Condition.ofTokens g us = Condition.ofTokens g ts := by
  rw [Condition.ofTokens, Condition.ofTokens, ofTokens?_congr h, Condition.keep, Condition.keep,
    h.map_text]

/-! ## Brackets -/

theorem solid_append (ts us : List Token) : solid (ts ++ us) = solid ts ++ solid us :=
  List.filter_append ..

/-- Tokens of which none is a placeholder. -/
theorem solid_eq_self {ts : List Token} (h : ∀ t ∈ ts, t.kind ≠ .placeholder) : solid ts = ts :=
  List.filter_eq_self.mpr fun t ht => by simpa using h t ht

/-- The round and square brackets open behind a token of an item. -/
def bracketsAfter (depth : Nat) (t : Token) : Nat :=
  if t.isOneOf .punctuation ["(", "["] then depth + 1
  else if t.isOneOf .punctuation [")", "]"] then depth - 1
  else depth

theorem bracketsAfter_congr {t u : Token} (h : u.word = t.word) (depth : Nat) :
    bracketsAfter depth u = bracketsAfter depth t := by
  simp only [bracketsAfter, isOneOf_congr h]

mutual

/-- The round and square brackets open behind a node, with `depth` open in front of it;
`none` if a block in it stands inside brackets. -/
def Node.brackets? (depth : Nat) : Node → Option Nat
  | .item _ parts => bracketsOfParts? depth parts
  | .block clauses _ => if depth = 0 then bracketsOfClauses? clauses else none
  | .placeholder _ => some depth

/-- The brackets open behind a part. Those inside its braces are counted on their own. -/
def Part.brackets? (depth : Nat) : Part → Option Nat
  | .token t => some (bracketsAfter depth t)
  | .group _ members _ => (bracketsOfNodes? 0 members).map fun _ => depth

/-- The brackets open at the end of the body of a clause. -/
def Clause.brackets? : Clause → Option Nat
  | .mk _ body => bracketsOfNodes? 0 body

/-- The brackets open behind a member list. -/
def bracketsOfNodes? (depth : Nat) : List Node → Option Nat
  | [] => some depth
  | n :: r => (n.brackets? depth).bind fun d => bracketsOfNodes? d r

/-- The brackets open behind the parts of an item. -/
def bracketsOfParts? (depth : Nat) : List Part → Option Nat
  | [] => some depth
  | p :: r => (p.brackets? depth).bind fun d => bracketsOfParts? d r

/-- The brackets open behind a block: none, whatever its bodies leave open. -/
def bracketsOfClauses? : List Clause → Option Nat
  | [] => some 0
  | c :: r => c.brackets?.bind fun _ => bracketsOfClauses? r

end

/-! ## Nodes that can be assembled again -/

/-- A clause whose words can be assembled again: its condition ends in front of the first
token of its body. -/
structure Clause.IsReady (read : List Token → Except Refusal Condition) (c : Clause) : Prop where
  built : c.head.IsBuilt read
  written : ∀ t ∈ c.head.tokens, t.kind ≠ .placeholder
  ends : ∀ t ∈ (solid (tokensOfNodes c.body)).head?, c.head.EndsAt t

/-- A node whose words can be assembled again. -/
def Node.IsReady (read : List Token → Except Refusal Condition) : Node → Prop
  | .item _ parts =>
    (∀ p ∈ parts, p.IsBuilt) ∧ ∀ t, Part.token t ∈ parts → t.kind ≠ .placeholder
  | .block cs ending =>
    ending.is .directive "#endif" = true ∧ InOrder (kindsOf cs) ∧ ∀ c ∈ cs, c.IsReady read
  | .placeholder t => t.kind = .placeholder

namespace Assembly

theorem Members.depth_flush (m : Members) : m.flush.depth = m.depth := by
  unfold Members.flush
  split <;> rfl

/-- Behind a finished item there is none in hand. -/
theorem Members.flush_eq (m : Members) : m.flush = ⟨m.finish, [], m.depth⟩ := by
  unfold Members.finish Members.flush
  split
  · next hparts =>
    obtain ⟨nodes, parts, depth⟩ := m
    obtain rfl : parts = [] := by simpa using hparts
    rfl
  · rfl

theorem Members.depth_breakBefore (m : Members) (t : Token) :
    (m.breakBefore t).depth = m.depth := by
  unfold Members.breakBefore
  split
  · exact m.depth_flush
  · rfl

theorem Members.depth_addToken (m : Members) (t : Token) :
    (m.addToken t).depth = bracketsAfter m.depth t := by
  unfold Members.addToken bracketsAfter
  dsimp only
  split
  · rfl
  split
  · rfl
  split
  · exact Members.depth_flush _
  · rfl

theorem foldlM_singleton (read : List Token → Except Refusal Condition) (s : State) (t : Token) :
    [t].foldlM (step read) s = step read s t := by
  simp [List.foldlM_cons]

/-! ## Where a run lands -/

/-- What comes of a run that should lead to the brackets `depth?`: a list with that many
brackets open of which `Q` holds, or the refusal of a block inside brackets. -/
def Lands (Q : Members → Prop) (stack : List Frame) (depth? : Option Nat)
    (r : Except Refusal State) : Prop :=
  match depth? with
  | some d => ∃ m : Members, r = .ok (.listing stack m) ∧ m.depth = d ∧ Q m
  | none => ∃ f : Failure, f.cause = .bracketedBlock ∧ r = .error (.malformed f)

/-- One run behind another. -/
theorem Lands.bind {Q Q' : Members → Prop} {stack stack' : List Frame} {depth? : Option Nat}
    {r : Except Refusal State} (h : Lands Q stack depth? r) {k : Nat → Option Nat}
    {g : State → Except Refusal State}
    (hg : ∀ m : Members, Q m → Lands Q' stack' (k m.depth) (g (.listing stack m))) :
    Lands Q' stack' (depth?.bind k) (r >>= g) := by
  cases depth? with
  | some d =>
      obtain ⟨m, rfl, rfl, hm⟩ := h
      exact hg m hm
  | none =>
      obtain ⟨f, hf, rfl⟩ := h
      exact ⟨f, hf, rfl⟩

/-- A clause as a run leaves it, and as it was. -/
def FollowsClause (R : Members → Members → Prop) (c d : Clause) : Prop :=
  c.head.condition = d.head.condition
    ∧ ∃ inner, c.body = inner.finish ∧ R inner (regroupNodes .empty d.body)

/-- A relation between the list a run is in and the list that the tree is at, which all that
the assembly does to lists leaves intact. The blocks of the tree satisfy `P`. -/
structure Follows (P : Node → Prop) (R : Members → Members → Prop) : Prop where
  empty : R .empty .empty
  token : ∀ {m m₀ : Members} {u t : Token}, R m m₀ → u.word = t.word →
    R ((m.breakBefore u).addToken u) ((m₀.breakBefore t).addToken t)
  group : ∀ {m m₀ inner inner₀ : Members} {u v t w : Token}, R m m₀ → R inner inner₀ →
    u.word = t.word → v.word = w.word →
    R ((m.breakBefore u).addPart (.group u inner.finish v))
      ((m₀.breakBefore t).addPart (.group t inner₀.finish w))
  block : ∀ {m m₀ : Members} {cs ds : List Clause} {e e₀ : Token}, R m m₀ →
    List.Forall₂ (FollowsClause R) cs ds → P (.block ds e₀) →
    R (m.flush.addNode (.block cs e)) (m₀.flush.addNode (.block (regroupClauses ds) e₀))

variable {read : List Token → Except Refusal Condition} {P : Node → Prop}
  {R : Members → Members → Prop} {stack : List Frame} {m m₀ : Members}

/-! ## Items -/

/-- A plain token. -/
theorem lands_token (hR : Follows P R) {u t : Token} (hu : IsPlain u) (hword : u.word = t.word)
    (hm : R m m₀) :
    Lands (R · ((Part.token t).regroup m₀)) stack (some (bracketsAfter m.depth u))
      (step read (.listing stack m) u) := by
  obtain ⟨hclose, hboundary, hif, hopen⟩ := hu
  refine ⟨(m.breakBefore u).addToken u, ?_, ?_, hR.token hm hword⟩
  · simp only [step, stepList, hclose, hboundary, hif, hopen, Bool.false_eq_true, if_false]
  · rw [Members.depth_addToken, Members.depth_breakBefore]

/-- A group: its members are a list of their own. -/
theorem lands_group (hR : Follows P R) {u v t w : Token} {members : List Node} {us : List Token}
    {depth? : Option Nat} (hu : u.is .punctuation "\x7b" = true)
    (hv : v.is .punctuation "\x7d" = true) (hut : u.word = t.word) (hvw : v.word = w.word)
    (hm : R m m₀)
    (hus : ∀ stack : List Frame, Lands (R · (regroupNodes .empty members)) stack depth?
      (us.foldlM (step read) (.listing stack .empty))) :
    Lands (R · ((Part.group t members w).regroup m₀)) stack (depth?.map fun _ => m.depth)
      ((u :: us ++ [v]).foldlM (step read) (.listing stack m)) := by
  obtain ⟨hkind, htext⟩ := is_iff.mp hu
  have hopen : step read (.listing stack m) u
      = .ok (.listing (.group (m.breakBefore u) u :: stack) .empty) := by
    simp [step, stepList, isBoundary, Token.is, Token.isOneOf, hkind, htext]
  have hdepth : depth?.map (fun _ => m.depth) = depth?.bind fun _ => some m.depth := by
    cases depth? <;> rfl
  rw [List.cons_append, List.foldlM_cons, hopen, hdepth]
  show Lands _ stack _ ((us ++ [v]).foldlM (step read) _)
  rw [List.foldlM_append]
  -- behind the members the brackets of the outer list count again
  refine (hus _).bind fun m' hm' => ?_
  have hclose : [v].foldlM (step read) (.listing (.group (m.breakBefore u) u :: stack) m')
      = .ok (.listing stack ((m.breakBefore u).addPart (.group u m'.finish v))) := by
    simp [step, stepList, closeGroup, hv]
  rw [hclose]
  exact ⟨_, rfl, m.depth_breakBefore u, hR.group hm hm' hut hvw⟩

/-- The parts of an item. -/
theorem lands_parts (hR : Follows P R) {parts : List Part} {us : List Token}
    (hbuilt : ∀ p ∈ parts, p.IsBuilt)
    (hsolid : ∀ t, Part.token t ∈ parts → t.kind ≠ .placeholder)
    (hus : Spells us (solid (tokensOfParts parts))) (hm : R m m₀)
    (hgroups : ∀ opening members closing, Part.group opening members closing ∈ parts →
      ∀ (stack : List Frame) (us : List Token), Spells us (solid (tokensOfNodes members)) →
        Lands (R · (regroupNodes .empty members)) stack (bracketsOfNodes? 0 members)
          (us.foldlM (step read) (.listing stack .empty))) :
    Lands (R · (regroupParts m₀ parts)) stack (bracketsOfParts? m.depth parts)
      (us.foldlM (step read) (.listing stack m)) := by
  induction parts generalizing us m m₀ with
  | nil =>
      rw [hus.eq_nil]
      exact ⟨m, rfl, rfl, hm⟩
  | cons p r ih =>
      obtain ⟨hp, hr⟩ := List.forall_mem_cons.mp hbuilt
      rw [tokensOfParts, solid_append] at hus
      obtain ⟨vs, ws, rfl, hvs, hws⟩ := hus.exists_append
      have hfirst : Lands (R · (p.regroup m₀)) stack (p.brackets? m.depth)
          (vs.foldlM (step read) (.listing stack m)) := by
        cases p with
        | token t =>
            rw [Part.tokens, solid_eq_self (by simpa using hsolid t List.mem_cons_self)] at hvs
            obtain ⟨u, us', rfl, hu, hnil⟩ := hvs.exists_cons
            obtain rfl := hnil.eq_nil
            rw [foldlM_singleton, Part.brackets?, ← bracketsAfter_congr hu]
            exact lands_token hR (isPlain_congr hu hp) hu hm
        | group opening members closing =>
            have htokens : solid (Part.group opening members closing).tokens
                = opening :: solid (tokensOfNodes members) ++ [closing] := by
              rw [Part.tokens, solid_append, solid_cons_of_ne (kind_ne_of_is hp.1 (by decide)),
                solid_cons_of_ne (kind_ne_of_is hp.2 (by decide))]
              rfl
            rw [htokens, List.cons_append] at hvs
            obtain ⟨u, us', rfl, hu, hus'⟩ := hvs.exists_cons
            obtain ⟨inner, last, rfl, hinner, hlast⟩ := hus'.exists_append
            obtain ⟨v, last', rfl, hv, hnil⟩ := hlast.exists_cons
            obtain rfl := hnil.eq_nil
            rw [Part.brackets?]
            exact lands_group hR (by rw [is_congr hu, hp.1]) (by rw [is_congr hv, hp.2]) hu hv hm
              fun stack => hgroups opening members closing List.mem_cons_self stack inner hinner
      rw [List.foldlM_append, bracketsOfParts?]
      refine hfirst.bind fun m' hm' => ?_
      exact ih hr (fun t ht => hsolid t (List.mem_cons_of_mem _ ht)) hws hm'
        fun opening members closing hgroup =>
          hgroups opening members closing (List.mem_cons_of_mem _ hgroup)

/-! ## Blocks -/

/-- Behind the directive of a clause. -/
def opened (stack : List Frame) (block : OpenBlock) (kind : ClauseKind) (u : Token) : State :=
  match kind with
  | .fallback => .listing (.clause block ⟨.fallback, u, [], none⟩ :: stack) .empty
  | _ => .heading stack block kind u [] 0

/-- The tokens of a condition are taken, all of them. -/
theorem foldlM_condition {h : ClauseHead} (hbuilt : h.IsBuilt read) {us : List Token}
    (hus : Spells us h.tokens) (block : OpenBlock) (kind : ClauseKind) (u : Token) :
    us.foldlM (step read) (.heading stack block kind u [] 0)
      = .ok (.heading stack block kind u us (parenDepth us)) := by
  have hrun : ∀ after before, us = before ++ after →
      after.foldlM (step read) (.heading stack block kind u before (parenDepth before))
        = .ok (.heading stack block kind u us (parenDepth us)) := by
    intro after
    induction after with
    | nil =>
        intro before hsplit
        rw [List.append_nil] at hsplit
        rw [hsplit]
        rfl
    | cons v after ih =>
        intro before hsplit
        have hspells : Spells h.tokens (before ++ v :: after) := hsplit ▸ hus.symm
        obtain ⟨ts, ts', htokens, hts, hts'⟩ := hspells.exists_append
        obtain ⟨t, rest, rfl, ht, _⟩ := hts'.exists_cons
        have hgoes : endsCondition before (parenDepth before) v = false := by
          rw [← endsCondition_congr hts ht, ← parenDepth_congr hts]
          exact hbuilt.goesOn ts t rest htokens
        have hone : step read (.heading stack block kind u before (parenDepth before)) v
            = .ok (.heading stack block kind u (before ++ [v]) (parenDepth (before ++ [v]))) := by
          rw [step, if_neg (by simp [hgoes]), parenDepth, parenDepth, List.foldl_append]
          rfl
        rw [List.foldlM_cons, hone]
        exact ih (before ++ [v]) (by simp [hsplit])
  exact hrun us [] rfl

/-- **The end of a condition.** In front of a token that ends it, the body begins. -/
theorem foldlM_opened (hread : ∀ us ts, Spells us ts → read us = read ts) {h : ClauseHead}
    (hbuilt : h.IsBuilt read) {us ws : List Token} {w : Token} (hus : Spells us h.tokens)
    (hends : h.kind ≠ .fallback → endsCondition us (parenDepth us) w = true) (block : OpenBlock)
    (u : Token) :
    ∃ head : ClauseHead, head.kind = h.kind ∧ head.condition = h.condition
      ∧ (us ++ w :: ws).foldlM (step read) (opened stack block h.kind u)
        = (w :: ws).foldlM (step read) (.listing (.clause block head :: stack) .empty) := by
  by_cases hkind : h.kind = .fallback
  · obtain ⟨hnil, hcondition⟩ := hbuilt.fallback hkind
    rw [hnil] at hus
    refine ⟨⟨.fallback, u, [], none⟩, hkind.symm, hcondition.symm, ?_⟩
    rw [hus.eq_nil, hkind]
    rfl
  · obtain ⟨hne, e, he, hcondition⟩ := hbuilt.condition hkind
    have hopened : opened stack block h.kind u = .heading stack block h.kind u [] 0 := by
      cases hk : h.kind with
      | primary => rfl
      | alternative => rfl
      | fallback => exact absurd hk hkind
    have hne' : us.isEmpty = false := by
      cases us with
      | nil =>
          rw [Spells, List.map_nil] at hus
          exact absurd (List.map_eq_nil_iff.mp hus.symm) hne
      | cons v vs => rfl
    have hstep : step read (.heading stack block h.kind u us (parenDepth us)) w
        = step read (.listing (.clause block ⟨h.kind, u, us, some e⟩ :: stack) .empty) w := by
      simp only [step, hends hkind, closeHeading, hne', hread us h.tokens hus, he, if_true,
        Bool.false_eq_true, if_false]
    refine ⟨⟨h.kind, u, us, some e⟩, rfl, hcondition.symm, ?_⟩
    rw [List.foldlM_append, hopened, foldlM_condition hbuilt hus]
    show (w :: ws).foldlM (step read) _ = _
    rw [List.foldlM_cons, hstep, List.foldlM_cons]

theorem isBoundary_of_is {v : Token} {word : String} (hword : word ∈ ["#elseif", "#else", "#endif"])
    (hv : v.is .directive word = true) : isBoundary v = true := by
  obtain ⟨hkind, htext⟩ := is_iff.mp hv
  simp only [isBoundary, Token.isOneOf, hkind, htext, Bool.and_eq_true, List.any_eq_true]
  exact ⟨rfl, word, hword, by simp⟩

/-- A directive that ends a body does so whatever was read of the body. -/
theorem step_boundary {m : Members} {f : Frame} {v : Token} (hv : isBoundary v = true) :
    step read (.listing (f :: stack) m) v = closeClause (f :: stack) m v := by
  have hkind : v.kind = .directive := by
    simp only [isBoundary, Token.isOneOf, Bool.and_eq_true, beq_iff_eq] at hv
    exact hv.1
  simp [step, stepList, Token.is, hkind, hv]

/-- The directive of the next clause. -/
theorem step_next {m : Members} {block : OpenBlock} {head : ClauseHead} {v : Token}
    {kind : ClauseKind} (hhead : head.kind ≠ .fallback) (hkind : kind ≠ .primary)
    (hv : v.is .directive kind.word = true) :
    step read (.listing (.clause block head :: stack) m) v
      = .ok (opened stack { block with clauses := block.clauses ++ [.mk head m.finish] } kind
          v) := by
  obtain ⟨hclass, htext⟩ := is_iff.mp hv
  have hhead' : (head.kind == ClauseKind.fallback) = false := by simpa using hhead
  cases kind with
  | primary => exact absurd rfl hkind
  | alternative =>
      rw [step_boundary (isBoundary_of_is (by simp [ClauseKind.word]) hv)]
      simp [closeClause, Token.is, hclass, htext, ClauseKind.word, hhead', opened]
  | fallback =>
      rw [step_boundary (isBoundary_of_is (by simp [ClauseKind.word]) hv)]
      simp [closeClause, Token.is, hclass, htext, ClauseKind.word, hhead', opened]

/-- The directive that ends the block. -/
theorem step_ending {m : Members} {block : OpenBlock} {head : ClauseHead} {v : Token}
    (hv : v.is .directive "#endif" = true) :
    step read (.listing (.clause block head :: stack) m) v
      = .ok (.listing stack (block.outer.addNode
          (.block (block.clauses ++ [.mk head m.finish]) v))) := by
  rw [step_boundary (isBoundary_of_is (by simp) hv), closeClause]
  simp [hv]

/-- What follows another clause is an alternative, or the fallback and the last. -/
theorem followOn_cons {d : Clause} {r : List Clause} (h : FollowOn (kindsOf (d :: r))) :
    d.head.kind ≠ .primary ∧ FollowOn (kindsOf r) ∧ (d.head.kind = .fallback → r = []) := by
  rw [kindsOf, List.map_cons] at h
  cases hk : d.head.kind with
  | primary => rw [hk] at h; exact h.elim
  | alternative => rw [hk] at h; exact ⟨by decide, h, fun hf => absurd hf (by decide)⟩
  | fallback =>
      rw [hk] at h
      cases r with
      | nil => exact ⟨by decide, trivial, fun _ => rfl⟩
      | cons e r => exact h.elim

theorem solid_clause {c : Clause} (h : c.IsReady read) (r : List Clause) (ending : Token) :
    solid (tokensOfClauses (c :: r) ++ [ending]) = c.head.directive :: (c.head.tokens
      ++ (solid (tokensOfNodes c.body) ++ solid (tokensOfClauses r ++ [ending]))) := by
  have htokens : tokensOfClauses (c :: r) ++ [ending] = c.head.directive :: (c.head.tokens
      ++ (tokensOfNodes c.body ++ (tokensOfClauses r ++ [ending]))) := by
    cases c
    simp [tokensOfClauses, Clause.tokens, Clause.head, Clause.body]
  rw [htokens, solid_cons_of_ne (kind_ne_of_is h.built.directive (by decide)), solid_append,
    solid_append, solid_eq_self h.written]

/-- The condition and the body of a clause, up to the directive behind it. -/
theorem lands_clause (hread : ∀ us ts, Spells us ts → read us = read ts) {c : Clause}
    (hready : c.IsReady read) {us vs rest : List Token} {v : Token} (hv : isBoundary v = true)
    (hus : Spells us c.head.tokens) (hvs : Spells vs (solid (tokensOfNodes c.body)))
    (hbody : ∀ stack : List Frame, Lands (R · (regroupNodes .empty c.body)) stack
      (bracketsOfNodes? 0 c.body) (vs.foldlM (step read) (.listing stack .empty)))
    {block : OpenBlock} (u : Token) {Q : Members → Prop} {depth? : Option Nat}
    (hrest : ∀ (head : ClauseHead) (m : Members), head.kind = c.head.kind →
      FollowsClause R (.mk head m.finish) c →
      Lands Q stack depth?
        ((v :: rest).foldlM (step read) (.listing (.clause block head :: stack) m))) :
    Lands Q stack (c.brackets?.bind fun _ => depth?)
      ((us ++ (vs ++ v :: rest)).foldlM (step read) (opened stack block c.head.kind u)) := by
  -- `w` is what stands behind the condition: the first word of the body, or the directive
  obtain ⟨w, ws, hws, hends⟩ : ∃ w ws, vs ++ v :: rest = w :: ws
      ∧ (c.head.kind ≠ .fallback → endsCondition us (parenDepth us) w = true) := by
    cases vs with
    | nil =>
        have hdirective : v.isDirective = true := by
          simp only [isBoundary, Token.isOneOf, Bool.and_eq_true] at hv
          exact hv.1
        exact ⟨v, rest, rfl, fun _ => by simp [endsCondition, hdirective]⟩
    | cons w vs =>
        obtain ⟨t, ts, hts, ht, _⟩ := Spells.exists_cons hvs.symm
        refine ⟨w, vs ++ v :: rest, rfl, fun hkind => ?_⟩
        rw [endsCondition_congr hus ht.symm, parenDepth_congr hus]
        exact hready.ends t (by rw [hts]; rfl) hkind
  obtain ⟨head, hkind, hcondition, hrun⟩ := foldlM_opened hread hready.built hus hends block u
  rw [hws, hrun, ← hws, List.foldlM_append]
  have hc : c.brackets? = bracketsOfNodes? 0 c.body := by cases c; rfl
  rw [hc]
  exact (hbody _).bind fun m hm => hrest head m hkind ⟨hcondition, m, rfl, hm⟩

/-- The rest of a block, behind the directive of a clause. The clauses in front of it are
those of the open block, and were `done`. -/
theorem lands_clauses (hR : Follows P R) (hread : ∀ us ts, Spells us ts → read us = read ts)
    {c : Clause} {r : List Clause} {ending : Token}
    (hending : ending.is .directive "#endif" = true)
    (hready : ∀ d ∈ c :: r, d.IsReady read) (horder : FollowOn (kindsOf r))
    (hlast : c.head.kind = .fallback → r = []) {us : List Token}
    (hus : Spells us (c.head.tokens ++ (solid (tokensOfNodes c.body)
      ++ solid (tokensOfClauses r ++ [ending]))))
    (hbodies : ∀ d ∈ c :: r, ∀ (stack : List Frame) (us : List Token),
      Spells us (solid (tokensOfNodes d.body)) →
      Lands (R · (regroupNodes .empty d.body)) stack (bracketsOfNodes? 0 d.body)
        (us.foldlM (step read) (.listing stack .empty)))
    {block : OpenBlock} (u : Token) (houter : block.outer = m.flush) (hdepth : m.depth = 0)
    (hm : R m m₀) (done : List Clause) (hdone : List.Forall₂ (FollowsClause R) block.clauses done)
    (hblock : P (.block (done ++ c :: r) ending)) :
    Lands (R · (m₀.flush.addNode (.block (regroupClauses (done ++ c :: r)) ending))) stack
      (bracketsOfClauses? (c :: r)) (us.foldlM (step read) (opened stack block c.head.kind u)) := by
  -- on the clauses behind the one in hand; those in front of it are in the open block already
  induction r generalizing c block u us done with
  | nil =>
      obtain ⟨vs, us', rfl, hvs, hus'⟩ := hus.exists_append
      obtain ⟨ws, us'', rfl, hws, hus''⟩ := hus'.exists_append
      have hsolid : solid (tokensOfClauses [] ++ [ending]) = [ending] :=
        solid_cons_of_ne (kind_ne_of_is hending (by decide)) []
      rw [hsolid] at hus''
      obtain ⟨v, rest, rfl, hv, hrest⟩ := hus''.exists_cons
      obtain rfl := hrest.eq_nil
      have hv' : v.is .directive "#endif" = true := by rw [is_congr hv, hending]
      refine lands_clause hread (hready c List.mem_cons_self) (isBoundary_of_is (by simp) hv')
        hvs hws (fun stack => hbodies c List.mem_cons_self stack ws hws) u
        fun head inner _ hclause => ?_
      rw [foldlM_singleton, step_ending hv', houter]
      have hall := List.rel_append hdone (.cons hclause .nil)
      exact ⟨_, rfl, m.depth_flush.trans hdepth, hR.block hm hall hblock⟩
  | cons d r ih =>
      have hd := hready d (by simp)
      obtain ⟨vs, us', rfl, hvs, hus'⟩ := hus.exists_append
      obtain ⟨ws, us'', rfl, hws, hus''⟩ := hus'.exists_append
      rw [solid_clause hd] at hus''
      obtain ⟨v, rest, rfl, hv, hrest⟩ := hus''.exists_cons
      have hv' : v.is .directive d.head.kind.word = true := by
        rw [is_congr hv, hd.built.directive]
      obtain ⟨hkind, horder', hlast'⟩ := followOn_cons horder
      have hc : c.head.kind ≠ .fallback := fun h => absurd (hlast h) (by simp)
      refine lands_clause hread (hready c List.mem_cons_self) (isBoundary_of_is ?_ hv') hvs hws
        (fun stack => hbodies c List.mem_cons_self stack ws hws) u
        fun head inner hhead hclause => ?_
      · cases hk : d.head.kind with
        | primary => exact absurd hk hkind
        | alternative => simp [ClauseKind.word]
        | fallback => simp [ClauseKind.word]
      · have hdone' : List.Forall₂ (FollowsClause R) (block.clauses ++ [.mk head inner.finish])
            (done ++ [c]) := List.rel_append hdone (.cons hclause .nil)
        rw [List.foldlM_cons, step_next (by rw [hhead]; exact hc) hkind hv',
          List.append_cons done c (d :: r)]
        refine ih (fun e he => hready e (List.mem_cons_of_mem _ he)) horder' hlast' hrest
          (fun e he => hbodies e (List.mem_cons_of_mem _ he)) v ?_ _ hdone' ?_
        · exact houter
        · rwa [← List.append_cons]

/-- A block: it opens outside brackets, or is refused. -/
theorem lands_block (hR : Follows P R) (hread : ∀ us ts, Spells us ts → read us = read ts)
    {cs : List Clause} {ending : Token} (hready : (Node.block cs ending).IsReady read)
    {us : List Token} (hus : Spells us (solid (Node.block cs ending).tokens))
    (hbodies : ∀ d ∈ cs, ∀ (stack : List Frame) (us : List Token),
      Spells us (solid (tokensOfNodes d.body)) →
      Lands (R · (regroupNodes .empty d.body)) stack (bracketsOfNodes? 0 d.body)
        (us.foldlM (step read) (.listing stack .empty)))
    (hm : R m m₀) (hblock : P (.block cs ending)) :
    Lands (R · ((Node.block cs ending).regroup m₀)) stack
      ((Node.block cs ending).brackets? m.depth) (us.foldlM (step read) (.listing stack m)) := by
  obtain ⟨hending, horder, hclauses⟩ := hready
  cases cs with
  | nil => exact horder.elim
  | cons c r =>
      have hc := hclauses c List.mem_cons_self
      obtain ⟨hprimary, hrest⟩ : c.head.kind = .primary ∧ FollowOn (kindsOf r) := by
        rw [kindsOf, List.map_cons] at horder
        cases hk : c.head.kind with
        | primary => rw [hk] at horder; exact ⟨rfl, horder⟩
        | alternative => rw [hk] at horder; exact horder.elim
        | fallback => rw [hk] at horder; exact horder.elim
      rw [Node.tokens, solid_clause hc] at hus
      obtain ⟨u, us', rfl, hu, hus'⟩ := hus.exists_cons
      have hdirective := hc.built.directive
      rw [hprimary, ← is_congr hu] at hdirective
      obtain ⟨hclass, htext⟩ := is_iff.mp hdirective
      -- the depth decides between the two outcomes before anything of the block is read
      rw [Node.brackets?, List.foldlM_cons]
      by_cases hdepth : m.depth = 0
      · have hstep : step read (.listing stack m) u
            = .ok (opened stack ⟨m.flush, u.line, []⟩ c.head.kind u) := by
          simp [step, stepList, isBoundary, Token.is, Token.isOneOf, hclass, htext, hdepth,
            ClauseKind.word, hprimary, opened]
        rw [if_pos hdepth, hstep]
        exact lands_clauses hR hread hending hclauses hrest
          (fun h => absurd (hprimary.symm.trans h) (by decide)) hus' hbodies u rfl hdepth hm [] .nil
          hblock
      · have hstep : step read (.listing stack m) u
            = .error (.malformed ⟨.bracketedBlock, u.line⟩) := by
          simp [step, stepList, isBoundary, Token.is, Token.isOneOf, hclass, htext, refuse,
            ClauseKind.word, Nat.pos_of_ne_zero hdepth]
        rw [if_neg hdepth, hstep]
        exact ⟨_, rfl, rfl⟩

/-- **The words of a tree are assembled again.** A run over tokens that spell the tokens of a
member list follows the list as its items are cut anew, unless a block stands inside
brackets. -/
theorem lands_of_spells (hR : Follows P R) (hread : ∀ us ts, Spells us ts → read us = read ts)
    {ns : List Node} (hready : Everywhere (Node.IsReady read) ns) (hP : Everywhere P ns)
    {us : List Token} (hus : Spells us (solid (tokensOfNodes ns))) (hm : R m m₀) :
    Lands (R · (regroupNodes m₀ ns)) stack (bracketsOfNodes? m.depth ns)
      (us.foldlM (step read) (.listing stack m)) := by
  induction ns using memberInduction generalizing stack us m m₀ with
  | nil =>
      rw [hus.eq_nil]
      exact ⟨m, rfl, rfl, hm⟩
  | item kind parts rest ihGroups ihRest =>
      obtain ⟨hfirst, hrest⟩ := everywhere_cons.mp hready
      obtain ⟨hPfirst, hPrest⟩ := everywhere_cons.mp hP
      obtain ⟨⟨hbuilt, hwritten⟩, hgroups⟩ := everywhere_item.mp hfirst
      rw [tokensOfNodes, solid_append] at hus
      obtain ⟨vs, ws, rfl, hvs, hws⟩ := hus.exists_append
      have hparts : Lands (R · ((Node.item kind parts).regroup m₀)) stack
          ((Node.item kind parts).brackets? m.depth)
          (vs.foldlM (step read) (.listing stack m)) :=
        lands_parts hR hbuilt hwritten hvs hm fun opening members closing hgroup stack us hus =>
          ihGroups opening members closing hgroup (hgroups opening members closing hgroup)
            ((everywhere_item.mp hPfirst).2 opening members closing hgroup) hus hR.empty
      rw [bracketsOfNodes?, List.foldlM_append]
      exact hparts.bind fun m' hm' => ihRest hrest hPrest hws hm'
  | block cs ending rest ihBodies ihRest =>
      obtain ⟨hfirst, hrest⟩ := everywhere_cons.mp hready
      obtain ⟨hPfirst, hPrest⟩ := everywhere_cons.mp hP
      obtain ⟨hnode, hbodies⟩ := everywhere_block.mp hfirst
      obtain ⟨hPnode, hPbodies⟩ := everywhere_block.mp hPfirst
      rw [tokensOfNodes, solid_append] at hus
      obtain ⟨vs, ws, rfl, hvs, hws⟩ := hus.exists_append
      have hself : Lands (R · ((Node.block cs ending).regroup m₀)) stack
          ((Node.block cs ending).brackets? m.depth)
          (vs.foldlM (step read) (.listing stack m)) :=
        lands_block hR hread hnode hvs (fun d hd stack us hus =>
          ihBodies d hd (hbodies d hd) (hPbodies d hd) hus hR.empty) hm hPnode
      rw [bracketsOfNodes?, List.foldlM_append]
      exact hself.bind fun m' hm' => ihRest hrest hPrest hws hm'
  | placeholder t rest ihRest =>
      obtain ⟨hfirst, hrest⟩ := everywhere_cons.mp hready
      have hkind : t.kind = .placeholder := everywhere_placeholder.mp hfirst
      have htokens :
          solid (tokensOfNodes (.placeholder t :: rest)) = solid (tokensOfNodes rest) := by
        rw [tokensOfNodes, solid_append, Node.tokens, solid,
          List.filter_cons_of_neg (by simp [hkind])]
        rfl
      rw [htokens] at hus
      exact ihRest hrest (everywhere_cons.mp hP).2 hus hm

/-- The same for a whole source. -/
theorem assemble_of_spells (hR : Follows P R)
    (hread : ∀ us ts, Spells us ts → read us = read ts) {ns : List Node}
    (hready : Everywhere (Node.IsReady read) ns) (hP : Everywhere P ns) {l : Lexed}
    (hl : Spells l.tokens (solid (tokensOfNodes ns))) :
    match bracketsOfNodes? 0 ns with
    | some _ => ∃ m, assemble read l = .ok ⟨m.finish, l.eof⟩ ∧ R m (regroupNodes .empty ns)
    | none => ∃ f, f.cause = .bracketedBlock ∧ assemble read l = .error (.malformed f) := by
  have hlands : Lands (R · (regroupNodes .empty ns)) [] (bracketsOfNodes? 0 ns)
      (l.tokens.foldlM (step read) (.listing [] .empty)) :=
    lands_of_spells hR hread hready hP hl hR.empty
  cases hdepth : bracketsOfNodes? 0 ns with
  | some d =>
      rw [hdepth] at hlands
      obtain ⟨m, hrun, _, hm⟩ := hlands
      refine ⟨m, ?_, hm⟩
      rw [assemble, hrun]
      rfl
  | none =>
      rw [hdepth] at hlands
      obtain ⟨f, hf, hrun⟩ := hlands
      refine ⟨f, hf, ?_⟩
      rw [assemble, hrun]

/-! ## What conditions decide -/

theorem conditionsOf_eq_of_follows {cs ds : List Clause}
    (h : List.Forall₂ (FollowsClause R) cs ds) : conditionsOf cs = conditionsOf ds := by
  induction h with
  | nil => rfl
  | cons hclause _ ih =>
      rw [conditionsOf, List.filterMap_cons, hclause.1, ← conditionsOf, ih]
      rfl

/-- What the conditions of a tree decide of its nodes holds in every list of a run. -/
theorem follows_every (hitem : ∀ kind parts, P (.item kind parts))
    (hblock : ∀ cs ds e e', P (.block ds e) → conditionsOf cs = conditionsOf ds →
      P (.block cs e')) : Follows P fun m _ => m.Every P where
  empty := Members.every_empty
  token hm _ := (hm.breakBefore _).addToken fun _ _ _ => hitem _ _
  group hm hinner _ _ := (hm.breakBefore _).addGroup hinner fun _ _ _ => hitem _ _
  block hm hclauses hds := by
    refine hm.flush.addNode (everywhere_block.mpr ⟨hblock _ _ _ _ hds
      (conditionsOf_eq_of_follows hclauses), fun c hc => ?_⟩)
    obtain ⟨i, hi, rfl⟩ := List.mem_iff_getElem.mp hc
    obtain ⟨_, inner, hbody, hinner⟩ := hclauses.get hi (hclauses.length_eq ▸ hi)
    rw [List.get_eq_getElem] at hbody
    rw [hbody]
    exact hinner.finish

end Assembly

end Unflag
