/-
Several flags, removed in any order.

A pass changes what the passes behind it come to. It moves bodies up, leaves placeholders, and
drops blocks on other flags together with the clauses they stand in; taken in another order,
the same passes visit other blocks. What is left in the end can be said without any pass,
though. A block on one of the flags leaves what is left of the clause that is kept with that
flag on; every other block stays, with what is left in its bodies. `leftOfNodes` says this for
all the flags at once.

One pass is then one flag more (`left_resolveNodes`): what the other flags leave of a resolved
list is what they and the flag of the pass leave of the list. So the passes of several flags
leave what the set of the flags leaves, and a set has no order.

Tokens are compared up to the trivia in front of them, and that is all that can be said. A
block that is removed before the one around it takes its line along; removed afterwards, it
stands at the top of a body that has already moved, and its line stays.
-/
import Unflag.Proofs.Compiled
import Unflag.Proofs.Pruning
import Unflag.Proofs.WellFormed

set_option autoImplicit false

namespace Unflag

/-! ## Tokens up to leading trivia -/

/-- What a token is, but for the trivia in front of it: class, text, line and trailing
trivia. -/
def Token.core (t : Token) : Token.Kind × Text × Nat × Trivia :=
  (t.kind, t.text, t.line, t.trailing)

/-- The tokens of a list that are in the source, but for the trivia in front of them. -/
def coresOf (ts : List Token) : List (Token.Kind × Text × Nat × Trivia) :=
  (solid ts).map Token.core

@[simp] theorem coresOf_append (ts us : List Token) :
    coresOf (ts ++ us) = coresOf ts ++ coresOf us := by
  rw [coresOf, solid, List.filter_append, List.map_append]
  rfl

theorem coresOf_cons (t : Token) (ts : List Token) :
    coresOf (t :: ts) = coresOf [t] ++ coresOf ts :=
  coresOf_append [t] ts

theorem coresOf_flatMap {α : Type} (f : α → List Token) (l : List α) :
    coresOf (l.flatMap f) = l.flatMap fun a => coresOf (f a) := by
  induction l with
  | nil => rfl
  | cons a r ih => rw [List.flatMap_cons, coresOf_append, ih, List.flatMap_cons]

theorem coresOf_leading (t : Token) (leading : Trivia) :
    coresOf [{ t with leading }] = coresOf [t] := by
  by_cases hkind : t.kind = .placeholder
  · simp [coresOf, solid, hkind]
  · simp [coresOf, solid, hkind, Token.core]

theorem coresOf_placeholder {t : Token} (h : t.kind = .placeholder) : coresOf [t] = [] := by
  simp [coresOf, solid, h]

/-! ## What several flags leave -/

/-- The one name that the conditions of a block mention. -/
def flagOf? (cs : List Clause) : Option Text :=
  match Condition.namesAll (conditionsOf cs) with
  | .ok (n :: ns) => if ns.all (· == n) then some n else none
  | _ => none

/-- A block is on at most one flag. -/
theorem flagOf?_eq_some_iff {cs : List Clause} {flag : Text} :
    flagOf? cs = some flag ↔ FlagsAre flag cs := by
  unfold flagOf? FlagsAre
  split
  · next n ns hnames =>
    rw [hnames]
    by_cases hall : ns.all (· == n) = true
    · have hevery : ∀ m ∈ ns, m = n := by simpa using hall
      rw [if_pos hall]
      constructor
      · intro hsome
        rw [← Option.some.inj hsome]
        refine ⟨n :: ns, rfl, fun m => ?_⟩
        rw [List.mem_cons]
        exact ⟨fun hm => hm.elim id (hevery m), .inl⟩
      · rintro ⟨ms, hms, hflag⟩
        cases hms
        rw [(hflag n).mp List.mem_cons_self]
    · rw [if_neg hall]
      refine iff_of_false (by simp) ?_
      rintro ⟨ms, hms, hflag⟩
      cases hms
      -- two names that are both the flag are one name
      refine hall (List.all_eq_true.mpr fun m hm => ?_)
      rw [(hflag m).mp (List.mem_cons_of_mem n hm), (hflag n).mp List.mem_cons_self]
      exact beq_self_eq_true flag
  · next hnames =>
    refine iff_of_false (by simp) ?_
    rintro ⟨ms, hms, hflag⟩
    cases ms with
    | nil => exact absurd ((hflag flag).mpr rfl) List.not_mem_nil
    | cons n ns => exact hnames n ns hms

/-- The flag of a block is a matter of its opening lines. -/
theorem flagOf?_resolveClauses (flag : Text) (cs : List Clause) :
    flagOf? (resolveClauses flag cs) = flagOf? cs := by
  rw [flagOf?, flagOf?, conditionsOf_eq, conditionsOf_eq, map_head_resolveClauses]

mutual

/-- What is left of a node when the blocks on every flag in `gone` are resolved. -/
def Node.left (gone : Text → Bool) : Node → List (Token.Kind × Text × Nat × Trivia)
  | .item _ parts => leftOfParts gone parts
  | .block clauses ending =>
    match (flagOf? clauses).filter gone with
    | some flag =>
      ((Build.only flag).choose ((clauses.map Clause.head).zip (leftOfBodies gone clauses))).elim
        [] Prod.snd
    | none =>
      (((clauses.map Clause.head).zip (leftOfBodies gone clauses)).flatMap fun c =>
        coresOf (c.1.directive :: c.1.tokens) ++ c.2) ++ coresOf [ending]
  | .placeholder t => coresOf [t]

/-- What is left of a part. -/
def Part.left (gone : Text → Bool) : Part → List (Token.Kind × Text × Nat × Trivia)
  | .token t => coresOf [t]
  | .group opening members closing =>
    coresOf [opening] ++ leftOfNodes gone members ++ coresOf [closing]

/-- What is left of the body of a clause. -/
def Clause.left (gone : Text → Bool) : Clause → List (Token.Kind × Text × Nat × Trivia)
  | .mk _ body => leftOfNodes gone body

/-- What is left of a member list. -/
def leftOfNodes (gone : Text → Bool) : List Node → List (Token.Kind × Text × Nat × Trivia)
  | [] => []
  | n :: r => n.left gone ++ leftOfNodes gone r

/-- What is left of the parts of an item. -/
def leftOfParts (gone : Text → Bool) : List Part → List (Token.Kind × Text × Nat × Trivia)
  | [] => []
  | p :: r => p.left gone ++ leftOfParts gone r

/-- What is left of each body of a block. -/
def leftOfBodies (gone : Text → Bool) : List Clause → List (List (Token.Kind × Text × Nat × Trivia))
  | [] => []
  | c :: r => c.left gone :: leftOfBodies gone r

end

section Lists

variable (gone : Text → Bool)

theorem leftOfNodes_append (ms ns : List Node) :
    leftOfNodes gone (ms ++ ns) = leftOfNodes gone ms ++ leftOfNodes gone ns := by
  induction ms with
  | nil => rfl
  | cons n r ih => rw [List.cons_append, leftOfNodes, leftOfNodes, ih, List.append_assoc]

theorem leftOfNodes_singleton (n : Node) : leftOfNodes gone [n] = n.left gone := by
  rw [leftOfNodes, leftOfNodes, List.append_nil]

theorem leftOfParts_eq (ps : List Part) : leftOfParts gone ps = ps.flatMap (Part.left gone) := by
  induction ps with
  | nil => rfl
  | cons p r ih => rw [leftOfParts, ih, List.flatMap_cons]

theorem leftOfBodies_eq (cs : List Clause) :
    leftOfBodies gone cs = cs.map fun c => leftOfNodes gone c.body := by
  induction cs with
  | nil => rfl
  | cons c r ih =>
      obtain ⟨h, body⟩ := c
      rw [leftOfBodies, ih, List.map_cons]
      rfl

/-- A block on a flag that goes leaves the clause that is kept, -/
theorem left_block_of_flagOf? {cs : List Clause} {flag : Text}
    (h : (flagOf? cs).filter gone = some flag) (ending : Token) :
    (Node.block cs ending).left gone
      = ((Build.only flag).chosen cs).elim [] fun c => leftOfNodes gone c.body := by
  rw [Node.left, h, leftOfBodies_eq, List.zip_map']
  dsimp only
  rw [Build.choose_eq_chosen]
  cases (Build.only flag).chosen cs <;> rfl

/-- and any other block stays, with what is left in its bodies. -/
theorem left_block_of_none {cs : List Clause} (h : (flagOf? cs).filter gone = none)
    (ending : Token) :
    (Node.block cs ending).left gone
      = (cs.flatMap fun c => coresOf (c.head.directive :: c.head.tokens)
          ++ leftOfNodes gone c.body) ++ coresOf [ending] := by
  rw [Node.left, h, leftOfBodies_eq, List.zip_map']
  dsimp only
  rw [List.flatMap_map]

end Lists

/-! ## Nothing but tokens of the list -/

theorem tokens_clause (c : Clause) :
    c.tokens = c.head.directive :: c.head.tokens ++ tokensOfNodes c.body := by
  obtain ⟨h, body⟩ := c
  rfl

/-- What is left is among the tokens of the list. -/
theorem mem_coresOf_of_mem_left {gone : Text → Bool} {ns : List Node} :
    ∀ x ∈ leftOfNodes gone ns, x ∈ coresOf (tokensOfNodes ns) := by
  induction ns using memberInduction with
  | nil => exact fun x hx => hx
  | item kind parts rest ihGroups ihRest =>
      have hparts : ∀ x ∈ leftOfParts gone parts, x ∈ coresOf (tokensOfParts parts) := by
        rw [leftOfParts_eq, tokensOfParts_eq, coresOf_flatMap]
        intro x hx
        obtain ⟨p, hp, hx⟩ := List.mem_flatMap.mp hx
        refine List.mem_flatMap.mpr ⟨p, hp, ?_⟩
        cases p with
        | token t => exact hx
        | group opening members closing =>
            have hmembers := ihGroups opening members closing hp
            rw [Part.left, List.append_assoc, List.mem_append, List.mem_append] at hx
            rw [Part.tokens, List.cons_append, coresOf_cons, coresOf_append, List.mem_append,
              List.mem_append]
            exact hx.imp_right fun hx => hx.imp_left (hmembers x)
      intro x hx
      rw [tokensOfNodes, coresOf_append]
      rcases List.mem_append.mp hx with hx | hx
      · exact List.mem_append_left _ (hparts x hx)
      · exact List.mem_append_right _ (ihRest x hx)
  | block cs ending rest ihBodies ihRest =>
      intro x hx
      rw [tokensOfNodes, coresOf_append]
      rcases List.mem_append.mp hx with hx | hx
      · apply List.mem_append_left
        rw [Node.tokens, tokensOfClauses_eq, coresOf_append, coresOf_flatMap]
        have hbody : ∀ c ∈ cs, x ∈ leftOfNodes gone c.body → x ∈ coresOf c.tokens := by
          intro c hc hx
          rw [tokens_clause, coresOf_append]
          exact List.mem_append_right _ (ihBodies c hc x hx)
        cases hflag : (flagOf? cs).filter gone with
        | some flag =>
            rw [left_block_of_flagOf? gone hflag] at hx
            cases hc : (Build.only flag).chosen cs with
            | none =>
                rw [hc] at hx
                exact absurd hx List.not_mem_nil
            | some c =>
                rw [hc] at hx
                have hmem := Build.mem_of_chosen hc
                exact List.mem_append_left _ (List.mem_flatMap.mpr ⟨c, hmem, hbody c hmem hx⟩)
        | none =>
            rw [left_block_of_none gone hflag] at hx
            rcases List.mem_append.mp hx with hx | hx
            · obtain ⟨c, hc, hx⟩ := List.mem_flatMap.mp hx
              refine List.mem_append_left _ (List.mem_flatMap.mpr ⟨c, hc, ?_⟩)
              rcases List.mem_append.mp hx with hx | hx
              · rw [tokens_clause, coresOf_append]
                exact List.mem_append_left _ hx
              · exact hbody c hc hx
            · exact List.mem_append_right _ hx
      · exact List.mem_append_right _ (ihRest x hx)
  | placeholder t rest ihRest =>
      intro x hx
      rw [tokensOfNodes, coresOf_append]
      rcases List.mem_append.mp hx with hx | hx
      · exact List.mem_append_left _ hx
      · exact List.mem_append_right _ (ihRest x hx)

/-- A body without a token of the source leaves nothing. -/
theorem left_of_not_hasContent {ns : List Node} (h : ¬ hasContent ns = true)
    (gone : Text → Bool) : leftOfNodes gone ns = [] := by
  have hall : ∀ t ∈ tokensOfNodes ns, t.kind = .placeholder := by simpa [hasContent] using h
  have hnone : coresOf (tokensOfNodes ns) = [] := by
    rw [coresOf, solid, List.map_eq_nil_iff, List.filter_eq_nil_iff]
    intro t ht
    simp [hall t ht]
  rw [List.eq_nil_iff_forall_not_mem]
  intro x hx
  have hmem := mem_coresOf_of_mem_left x hx
  rw [hnone] at hmem
  exact List.not_mem_nil hmem

/-- Without a flag everything is left. -/
theorem left_of_none_gone (ns : List Node) :
    leftOfNodes (fun _ => false) ns = coresOf (tokensOfNodes ns) := by
  induction ns using memberInduction with
  | nil => rfl
  | item kind parts rest ihGroups ihRest =>
      have hparts : leftOfParts (fun _ => false) parts = coresOf (tokensOfParts parts) := by
        rw [leftOfParts_eq, tokensOfParts_eq, coresOf_flatMap]
        apply List.flatMap_congr
        intro p hp
        cases p with
        | token t => rfl
        | group opening members closing =>
            rw [Part.left, Part.tokens, ihGroups opening members closing hp, List.cons_append,
              coresOf_cons opening (_ ++ _), coresOf_append, List.append_assoc]
      rw [leftOfNodes, Node.left, hparts, ihRest, tokensOfNodes, Node.tokens, coresOf_append]
  | block cs ending rest ihBodies ihRest =>
      have hnone : (flagOf? cs).filter (fun _ => false) = none := by cases flagOf? cs <;> rfl
      have hclauses : (cs.flatMap fun c => coresOf (c.head.directive :: c.head.tokens)
            ++ leftOfNodes (fun _ => false) c.body) = coresOf (tokensOfClauses cs) := by
        rw [tokensOfClauses_eq, coresOf_flatMap]
        apply List.flatMap_congr
        intro c hc
        rw [ihBodies c hc, tokens_clause, coresOf_append]
      rw [leftOfNodes, left_block_of_none _ hnone, hclauses, ihRest, tokensOfNodes, Node.tokens,
        coresOf_append, coresOf_append]
  | placeholder t rest ihRest =>
      rw [leftOfNodes, Node.left, ihRest, tokensOfNodes, Node.tokens, coresOf_append]

/-! ## The seams -/

variable {gone : Text → Bool}

/-- Other trivia in front of a node changes nothing of what is left. -/
theorem left_withFirstToken {n : Node} {t : Token} (ht : n.firstToken? = some t)
    (leading : Trivia) : (n.withFirstToken { t with leading }).left gone = n.left gone := by
  cases n with
  | item kind parts =>
      cases parts with
      | nil => exact absurd ht (by simp [Node.firstToken?])
      | cons p r =>
          cases p with
          | token u =>
              cases ht
              simp only [Node.withFirstToken, Node.left, leftOfParts, Part.left, coresOf_leading]
          | group u members closing =>
              cases ht
              simp only [Node.withFirstToken, Node.left, leftOfParts, Part.left, coresOf_leading]
  | block cs ending =>
      cases cs with
      | nil => exact absurd ht (by simp [Node.firstToken?])
      | cons c r =>
          obtain ⟨h, body⟩ := c
          cases ht
          have hflag : flagOf? (.mk { h with directive := { h.directive with leading } } body :: r)
              = flagOf? (.mk h body :: r) := rfl
          rw [Node.withFirstToken, Node.left, Node.left, hflag]
          cases (flagOf? (.mk h body :: r)).filter gone with
          | some flag => exact (Build.only flag).choose_directive h _ _ _ _
          | none =>
              -- the directive is left, and it counts up to its trivia
              simp only [List.map_cons, leftOfBodies, List.zip_cons_cons, List.flatMap_cons,
                Clause.head, Clause.left]
              rw [coresOf_cons, coresOf_leading, ← coresOf_cons]
  | placeholder u =>
      cases ht
      exact coresOf_leading t leading

/-- Nor does the way of a body to the place of its block. -/
theorem left_splice {ns : List Node} (h : Everywhere IsVacant ns) (leading : Trivia) :
    leftOfNodes gone (splice leading ns) = leftOfNodes gone ns := by
  induction ns generalizing leading with
  | nil => rfl
  | cons n r ih =>
      obtain ⟨hn, hr⟩ := everywhere_cons.mp h
      unfold splice
      split
      · next heq => exact absurd heq (by simp)
      · next t r' heq =>
        -- a placeholder at the top of the body goes, and nothing was left of it
        cases heq
        have hvacant : t = .placeholder t.leading := everywhere_placeholder.mp hn
        have hkind : t.kind = .placeholder := by rw [hvacant]; rfl
        rw [ih hr, leftOfNodes, Node.left, coresOf_placeholder hkind, List.nil_append]
      · next n' r' _ heq =>
        cases heq
        split
        · next t ht => rw [leftOfNodes, leftOfNodes, left_withFirstToken ht]
        · rfl

/-! ## One pass is one flag more -/

variable {flag : Text}

/-- What is left of a block on the flag of the pass. -/
theorem left_resolve_block_of_flagsAre {cs : List Clause} (hflags : FlagsAre flag cs)
    (hvacant : ∀ c ∈ cs, Everywhere IsVacant c.body)
    (hbodies : ∀ c ∈ cs, leftOfNodes gone (resolveNodes flag c.body)
      = leftOfNodes (fun f => f == flag || gone f) c.body) (ending : Token) :
    leftOfNodes gone ((Node.block cs ending).resolve flag)
      = (Node.block cs ending).left fun f => f == flag || gone f := by
  have hflag : (flagOf? cs).filter (fun f => f == flag || gone f) = some flag := by
    rw [flagOf?_eq_some_iff.mpr hflags]
    simp
  have hleft : leftOfNodes gone (vacated cs) = [] := by
    rw [vacated, leftOfNodes_singleton, Node.left]
    exact coresOf_placeholder rfl
  rw [resolve_block_of_flagsAre (Build.isOn_only flag) hflags, left_block_of_flagOf? _ hflag]
  cases hc : (Build.only flag).chosen cs with
  | none => exact hleft
  | some c =>
      have hmem := Build.mem_of_chosen hc
      show leftOfNodes gone (if hasContent (resolveNodes flag c.body) then _ else _)
        = leftOfNodes (fun f => f == flag || gone f) c.body
      rw [← hbodies c hmem]
      by_cases hcontent : hasContent (resolveNodes flag c.body) = true
      · rw [if_pos hcontent, left_splice (isVacant_resolve flag (hvacant c hmem))]
      · rw [if_neg hcontent, hleft, left_of_not_hasContent hcontent]

/-- What is left of a block that the pass leaves alone: its flag, if it has one, goes with
the others or stays. -/
theorem left_resolve_block_of_not_flagsAre {cs : List Clause} (hflags : ¬ FlagsAre flag cs)
    (hbodies : ∀ c ∈ cs, leftOfNodes gone (resolveNodes flag c.body)
      = leftOfNodes (fun f => f == flag || gone f) c.body) (ending : Token) :
    leftOfNodes gone ((Node.block cs ending).resolve flag)
      = (Node.block cs ending).left fun f => f == flag || gone f := by
  have hflag : (flagOf? cs).filter (fun f => f == flag || gone f) = (flagOf? cs).filter gone := by
    cases hname : flagOf? cs with
    | none => rfl
    | some name =>
        have hne : name ≠ flag := by
          rintro rfl
          exact hflags (flagOf?_eq_some_iff.mp hname)
        simp [Option.filter, hne]
  have hname := congrArg (Option.filter gone) (flagOf?_resolveClauses flag cs)
  rw [resolve_block_of_not_flagsAre hflags, leftOfNodes_singleton]
  cases hgone : (flagOf? cs).filter gone with
  | some name =>
      rw [hgone] at hflag hname
      rw [left_block_of_flagOf? gone hname, left_block_of_flagOf? _ hflag,
        Build.chosen_resolveClauses]
      cases hc : (Build.only name).chosen cs with
      | none => rfl
      | some c =>
          show leftOfNodes gone (c.resolve flag).body = _
          rw [c.body_resolve, hbodies c (Build.mem_of_chosen hc)]
          rfl
  | none =>
      rw [hgone] at hflag hname
      rw [left_block_of_none gone hname, left_block_of_none _ hflag, resolveClauses_eq,
        List.flatMap_map]
      congr 1
      apply List.flatMap_congr
      intro c hc
      rw [c.head_resolve, c.body_resolve, hbodies c hc]

/-- **One pass is one flag more.** What the flags in `gone` leave of a resolved list is what
they and the flag of the pass leave of the list. -/
theorem left_resolveNodes {ns : List Node} (h : Everywhere IsVacant ns) :
    leftOfNodes gone (resolveNodes flag ns) = leftOfNodes (fun f => f == flag || gone f) ns := by
  induction ns using memberInduction with
  | nil => rfl
  | item kind parts rest ihGroups ihRest =>
      obtain ⟨hfirst, hrest⟩ := everywhere_cons.mp h
      have hgroups := (everywhere_item.mp hfirst).2
      have hparts : leftOfParts gone (resolveParts flag parts)
          = leftOfParts (fun f => f == flag || gone f) parts := by
        rw [resolveParts_eq, leftOfParts_eq, leftOfParts_eq, List.flatMap_map]
        apply List.flatMap_congr
        intro p hp
        cases p with
        | token t => rfl
        | group opening members closing =>
            rw [Part.resolve, Part.left, Part.left, ihGroups opening members closing hp
              (hgroups opening members closing hp)]
      rw [resolveNodes, leftOfNodes_append, ihRest hrest, Node.resolve, leftOfNodes_singleton,
        Node.left, hparts, leftOfNodes, Node.left]
  | block cs ending rest ihBodies ihRest =>
      obtain ⟨hfirst, hrest⟩ := everywhere_cons.mp h
      have hvacant := (everywhere_block.mp hfirst).2
      have hbodies := fun c hc => ihBodies c hc (hvacant c hc)
      rw [resolveNodes, leftOfNodes_append, ihRest hrest, leftOfNodes]
      congr 1
      by_cases hflags : FlagsAre flag cs
      · exact left_resolve_block_of_flagsAre hflags hvacant hbodies ending
      · exact left_resolve_block_of_not_flagsAre hflags hbodies ending
  | placeholder t rest ihRest =>
      obtain ⟨_, hrest⟩ := everywhere_cons.mp h
      rw [resolveNodes, leftOfNodes_append, ihRest hrest, Node.resolve, leftOfNodes_singleton,
        leftOfNodes]
      rfl

/-- **Passes in turn** leave what the set of their flags leaves. -/
theorem coresOf_resolveAll (flags : List Text) {t : SourceTree}
    (h : Everywhere IsVacant t.members) :
    coresOf (t.resolveAll flags).tokens
      = leftOfNodes (fun f => decide (f ∈ flags)) t.members ++ coresOf [t.eof] := by
  induction flags generalizing t with
  | nil =>
      have hnone := left_of_none_gone t.members
      simp only [List.not_mem_nil, decide_false]
      rw [hnone, ← coresOf_append]
      rfl
  | cons flag flags ih =>
      have hmore : (fun f => decide (f ∈ flag :: flags))
          = fun f => f == flag || decide (f ∈ flags) := by
        funext f
        rw [Bool.eq_iff_iff]
        simp
      have hnext : (t.resolveAll (flag :: flags)) = (t.resolve flag).resolveAll flags := rfl
      rw [hnext, ih (isVacant_resolve flag h), hmore, ← left_resolveNodes h]
      rfl

/-- **The order of flags does not matter.** Whatever the order of the passes, the same tokens
of the source are left in the same order, each with its class, its text, its line and its
trailing trivia. -/
theorem resolveAll_in_any_order {g : Grouping} {source : Text} {tree : SourceTree}
    (h : SourceTree.parse g source = .ok tree) {flags others : List Text}
    (hperm : flags.Perm others) :
    (solid (tree.resolveAll flags).tokens).map (fun t => (t.kind, t.text, t.line, t.trailing))
      = (solid (tree.resolveAll others).tokens).map
          fun t => (t.kind, t.text, t.line, t.trailing) := by
  have hvacant := isVacant_of_isFresh (isFresh_of_parse h)
  have hset : (fun f => decide (f ∈ flags)) = fun f => decide (f ∈ others) := by
    funext f
    rw [decide_eq_decide]
    exact hperm.mem_iff
  have hflags := coresOf_resolveAll flags hvacant
  rw [hset, ← coresOf_resolveAll others hvacant] at hflags
  exact hflags

/-- The trivia in front of a token does depend on the order: a line stays behind in one of
them. -/
theorem resolveAll_in_any_order_nested :
    ∃ source tree, source = "#if A\n#if B\n#endif\nx // x\n#else\ny\n#endif\n".toList
      ∧ SourceTree.parse .sequential source = .ok tree
      ∧ (tree.resolveAll ["A".toList, "B".toList]).render = "\nx // x\n".toList
      ∧ (tree.resolveAll ["B".toList, "A".toList]).render = "x // x\n".toList
      ∧ (solid (tree.resolveAll ["A".toList, "B".toList]).tokens).map
            (fun t => (t.kind, t.text, t.line, t.trailing))
          = (solid (tree.resolveAll ["B".toList, "A".toList]).tokens).map
              fun t => (t.kind, t.text, t.line, t.trailing) := by
  have hparse : (SourceTree.parse .sequential
      "#if A\n#if B\n#endif\nx // x\n#else\ny\n#endif\n".toList).toOption.any
        (fun tree => (tree.resolveAll ["A".toList, "B".toList]).render == "\nx // x\n".toList
          && (tree.resolveAll ["B".toList, "A".toList]).render == "x // x\n".toList) = true := by
    decide +kernel
  obtain ⟨tree, htree, hrender⟩ := exists_of_parse_any hparse
  obtain ⟨hab, hba⟩ := Bool.and_eq_true_iff.mp hrender
  exact ⟨_, tree, rfl, htree, eq_of_beq hab, eq_of_beq hba,
    resolveAll_in_any_order htree (.swap "B".toList "A".toList [])⟩

end Unflag
