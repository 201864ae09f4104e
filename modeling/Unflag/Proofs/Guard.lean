/-
What the guard of a block promises.

Before a block is resolved the names in its conditions are collected, and only then are the
conditions evaluated. The two are separate recursions over the same conditions: the first
looks at every node, the second stops as soon as the answer is known. This file says what
the first finds, in terms of the nodes of a condition at any depth (`Condition.nodes`) and of
nothing else, and that it is enough for the second. If the names are at most the flag, no
evaluation meets an obstacle, whichever operands it happens to read, and so the choice among
the clauses of a block that passes the guard is made without one (`guarded_block_decides`).
-/
import Unflag.Proofs.ConditionNames
import Unflag.Proofs.WellFormed

set_option autoImplicit false

namespace Unflag

/-! ## The nodes of a condition -/

namespace Condition

/-- A condition and all that it is made of, at any depth. -/
def nodes : Condition → List Condition
  | .name n => [.name n]
  | .int v => [.int v]
  | .bool v => [.bool v]
  | .not e => .not e :: e.nodes
  | .binary op l r => .binary op l r :: (l.nodes ++ r.nodes)
  | .paren e => .paren e :: e.nodes
  | .unsupported t => [.unsupported t]

/-- The answer that nodes call for when their names are collected: all their names, or an
unsupported node among them. -/
inductive Surveyed (nodes : List Condition) : Except Obstacle (List Text) → Prop
  | named (ns : List Text) (supported : ∀ t, Condition.unsupported t ∉ nodes)
      (names : ∀ n, n ∈ ns ↔ Condition.name n ∈ nodes) : Surveyed nodes (.ok ns)
  | refused (t : Text) (found : Condition.unsupported t ∈ nodes) :
      Surveyed nodes (.error (.unsupported t))

/-- Nodes in a row: the first obstacle is the answer. -/
theorem Surveyed.append {ms ns : List Condition} {a b : Except Obstacle (List Text)}
    (ha : Surveyed ms a) (hb : Surveyed ns b) : Surveyed (ms ++ ns) (thenNames a b) := by
  rcases ha with ⟨ls, hls, hleft⟩ | ⟨t, ht⟩
  · rcases hb with ⟨rs, hrs, hright⟩ | ⟨t, ht⟩
    · refine .named (ls ++ rs) (fun t ht => ?_) (fun n => ?_)
      · rcases List.mem_append.mp ht with ht | ht
        · exact hls t ht
        · exact hrs t ht
      · rw [List.mem_append, List.mem_append, hleft, hright]
    · exact .refused t (List.mem_append_right ms ht)
  · exact .refused t (List.mem_append_left ns ht)

/-- A node that is neither a name nor unsupported changes nothing. -/
theorem Surveyed.cons {ns : List Condition} {a : Except Obstacle (List Text)} {e : Condition}
    (ha : Surveyed ns a) (hname : ∀ n, Condition.name n ≠ e)
    (hsupported : ∀ t, Condition.unsupported t ≠ e) : Surveyed (e :: ns) a := by
  rcases ha with ⟨ls, hls, hnames⟩ | ⟨t, ht⟩
  · refine .named ls (fun t ht => ?_) (fun n => ?_)
    · rcases List.mem_cons.mp ht with ht | ht
      · exact hsupported t ht
      · exact hls t ht
    · rw [hnames, List.mem_cons, or_iff_right (hname n)]
  · exact .refused t (List.mem_cons_of_mem e ht)

/-- A node without names of its own. -/
theorem surveyed_literal {e : Condition} (hname : ∀ n, Condition.name n ≠ e)
    (hsupported : ∀ t, Condition.unsupported t ≠ e) : Surveyed [e] (.ok []) :=
  Surveyed.cons (.named [] (by simp) (by simp)) hname hsupported

/-- **Collecting the names** of a condition looks at every node. -/
theorem surveyed_names (e : Condition) : Surveyed e.nodes e.names := by
  induction e with
  | name n => exact .named [n] (by simp [nodes]) (by simp [nodes])
  | int v => exact surveyed_literal (by simp) (by simp)
  | bool v => exact surveyed_literal (by simp) (by simp)
  | not e ih => exact ih.cons (by simp) (by simp)
  | binary op l r ihl ihr =>
      rw [names_binary]
      exact (ihl.append ihr).cons (by simp) (by simp)
  | paren e ih => exact ih.cons (by simp) (by simp)
  | unsupported t => exact .refused t (by simp [nodes])

/-- The same for several conditions, one behind the other. -/
theorem surveyed_namesAll (es : List Condition) : Surveyed (es.flatMap nodes) (namesAll es) := by
  induction es with
  | nil => exact .named [] (by simp) (by simp)
  | cons e es ih =>
      rw [namesAll_cons, List.flatMap_cons]
      exact (surveyed_names e).append ih

/-- Names are collected from supported conditions, and from no others; -/
theorem exists_namesAll_iff (es : List Condition) :
    (∃ ns, namesAll es = .ok ns) ↔ ∀ e ∈ es, ∀ t, Condition.unsupported t ∉ e.nodes := by
  have hflat : (∀ e ∈ es, ∀ t, Condition.unsupported t ∉ e.nodes)
      ↔ ∀ t, Condition.unsupported t ∉ es.flatMap nodes := by
    simp only [List.mem_flatMap, not_exists, not_and]
    exact ⟨fun h t e he => h e he t, fun h e he t => h t e he⟩
  have hsurvey := surveyed_namesAll es
  rw [hflat]
  constructor
  · rintro ⟨ns, hns⟩
    rw [hns] at hsurvey
    rcases hsurvey with ⟨_, hsupported, _⟩
    exact hsupported
  · intro hsupported
    generalize namesAll es = a at hsurvey
    rcases hsurvey with ⟨ns, _, _⟩ | ⟨t, ht⟩
    · exact ⟨ns, rfl⟩
    · exact absurd ht (hsupported t)

/-- they are the names that occur, -/
theorem mem_namesAll_iff {es : List Condition} {ns : List Text} (h : namesAll es = .ok ns)
    (n : Text) : n ∈ ns ↔ ∃ e ∈ es, Condition.name n ∈ e.nodes := by
  have hsurvey := surveyed_namesAll es
  rw [h] at hsurvey
  rcases hsurvey with ⟨_, _, hnames⟩
  rw [hnames, List.mem_flatMap]

/-- and what is in the way of them is an unsupported node. -/
theorem unsupported_of_namesAll {es : List Condition} {o : Obstacle}
    (h : namesAll es = .error o) :
    ∃ e ∈ es, ∃ t, o = .unsupported t ∧ Condition.unsupported t ∈ e.nodes := by
  have hsurvey := surveyed_namesAll es
  rw [h] at hsurvey
  rcases hsurvey with _ | ⟨t, ht⟩
  obtain ⟨e, he, hmem⟩ := List.mem_flatMap.mp ht
  exact ⟨e, he, t, rfl, hmem⟩

end Condition

/-! ## The clause that is left -/

/-- What is left of a block in a build, said of the list of its clauses: the first primary or
alternative clause whose condition is true; else the fallback; else nothing. -/
inductive Build.Leaves (b : Build) (cs : List Clause) : Option Clause → Prop
  | taken (before after : List Clause) (c : Clause) (e : Condition)
      (split : cs = before ++ c :: after) (kind : c.head.kind ≠ .fallback)
      (condition : c.head.condition = some e) (holds : e.truth b = true)
      (earlier : ∀ d ∈ before, b.takes d.head = false) : Leaves b cs (some c)
  | fallback (before after : List Clause) (c : Clause) (split : cs = before ++ c :: after)
      (kind : c.head.kind = .fallback) (last : ∀ d ∈ after, d.head.kind ≠ .fallback)
      (untaken : ∀ d ∈ cs, b.takes d.head = false) : Leaves b cs (some c)
  | nothing (unended : ∀ d ∈ cs, d.head.kind ≠ .fallback)
      (untaken : ∀ d ∈ cs, b.takes d.head = false) : Leaves b cs none

theorem Build.chosen_eq (b : Build) (cs : List Clause) :
    b.chosen cs = (cs.find? fun c => b.takes c.head).or
      (cs.reverse.find? fun c => c.head.kind == .fallback) := by
  have hlast : (cs.filter fun c => c.head.kind == .fallback).getLast?
      = cs.reverse.find? fun c => c.head.kind == .fallback := by
    rw [List.getLast?_eq_head?_reverse, ← List.filter_reverse, List.head?_filter]
  rw [← hlast, Build.chosen, Build.choose, List.find?_map, List.filter_map, List.getLast?_map,
    ← Option.map_or, Option.map_map]
  exact Option.map_id'

/-- The choice of a build is what is left. -/
theorem Build.leaves_chosen (b : Build) (cs : List Clause) : b.Leaves cs (b.chosen cs) := by
  rw [Build.chosen_eq]
  cases htaken : cs.find? fun c => b.takes c.head with
  | some c =>
      obtain ⟨htakes, before, after, hsplit, hearlier⟩ := List.find?_eq_some_iff_append.mp htaken
      rw [Build.takes, Bool.and_eq_true, Option.any_eq_true] at htakes
      obtain ⟨hkind, e, he, htruth⟩ := htakes
      exact .taken before after c e hsplit (by simpa using hkind) he htruth
        (by simpa using hearlier)
  | none =>
      have huntaken : ∀ d ∈ cs, b.takes d.head = false := by simpa using htaken
      rw [Option.none_or]
      cases hlast : cs.reverse.find? fun c => c.head.kind == .fallback with
      | some c =>
          obtain ⟨hkind, after, before, hsplit, hlater⟩ := List.find?_eq_some_iff_append.mp hlast
          -- what stands in front of it from behind stands behind it
          have hsplit' : cs = before.reverse ++ c :: after.reverse := by
            rw [← List.reverse_reverse cs, hsplit]
            simp
          exact .fallback _ _ c hsplit' (by simpa using hkind) (by simpa using hlater) huntaken
      | none => exact .nothing (by simpa using hlast) huntaken

/-! ## The guard -/

/-- **A guard is a promise.** The names of conditions are collected if and only if nothing in
them is unsupported, at any depth, and they are then the names that occur in them. If these
are at most the flag, every one of the conditions evaluates, to its truth in any build that has
the flag on. So from a block that passes the guard, and whose clauses have conditions unless
they are fallbacks, a clause is selected without an obstacle and without a condition missing,
and it is the one that is left in such a build. -/
theorem guarded_block_decides (flag : Text) :
    (∀ es : List Condition,
      ((∃ ns, Condition.namesAll es = .ok ns)
          ↔ ∀ e ∈ es, ∀ t, Condition.unsupported t ∉ e.nodes)
        ∧ (∀ o, Condition.namesAll es = .error o →
          ∃ e ∈ es, ∃ t, o = .unsupported t ∧ Condition.unsupported t ∈ e.nodes)
        ∧ ∀ ns, Condition.namesAll es = .ok ns →
          (∀ n, n ∈ ns ↔ ∃ e ∈ es, Condition.name n ∈ e.nodes)
            ∧ ((∀ n ∈ ns, n = flag) → ∀ e ∈ es, ∀ b : Build, b.isOn flag = true →
              e.holds flag = .ok (e.truth b)))
    ∧ ∀ cs : List Clause, (∀ c ∈ cs, c.head.kind ≠ .fallback → c.head.condition ≠ none) →
        isGuardedBy flag cs = true → ∀ b : Build, b.isOn flag = true →
          ∃ left : Option Clause, b.Leaves cs left
            ∧ select flag (cs.map fun c => (c.head, c)) = .ok (left.map fun c => (c.head, c))
            ∧ selectFrom? flag none (cs.map fun c => (c.head, c))
              = some (left.map fun c => (c.head, c)) := by
  refine ⟨fun es => ⟨Condition.exists_namesAll_iff es, ?_, ?_⟩, ?_⟩
  · intro o ho
    exact Condition.unsupported_of_namesAll ho
  · intro ns hns
    refine ⟨Condition.mem_namesAll_iff hns, ?_⟩
    intro honly e he b hb
    obtain ⟨ms, hms, hsub⟩ := Condition.names_of_mem hns he
    exact Condition.holds_eq_truth hb hms fun n hn => honly n (hsub n hn)
  · intro cs hconditions hguard b hb
    have hflags := (isGuardedBy_iff flag cs).mp hguard
    have hselect := select_eq_chosen hb hflags fun c => c
    refine ⟨b.chosen cs, b.leaves_chosen cs, hselect, ?_⟩
    -- no condition that is asked for is missing, so the strict selection goes the same way
    have hevaluated : ∀ p ∈ cs.map (fun c => (c.head, c)), p.1.kind ≠ .fallback →
        ∃ e holds, p.1.condition = some e ∧ e.holds flag = .ok holds := by
      intro p hp hkind
      obtain ⟨c, hc, rfl⟩ := List.mem_map.mp hp
      obtain ⟨e, he⟩ := Option.ne_none_iff_exists'.mp (hconditions c hc hkind)
      exact ⟨e, _, he, holds_of_flagsAre hb hflags hc he⟩
    obtain ⟨chosen, hchosen, hstrict⟩ := selectFrom?_eq none hevaluated
    rw [hstrict]
    exact congrArg some (Except.ok.inj (hchosen.symm.trans hselect))

theorem guarded_block_decides_chain :
    ∃ (cs : List Clause) (c : Clause),
      cs.map (fun c => (c.head.kind, c.head.condition))
        = [(.primary, some (.binary .or (.not (.name ['A'])) (.int 0))),
          (.alternative, some (.paren (.binary .and (.name ['A']) (.int 2)))), (.fallback, none)]
      ∧ Condition.namesAll (conditionsOf cs) = .ok [['A'], ['A']]
      ∧ (∀ n, n ∈ [['A'], ['A']] ↔ ∃ e ∈ conditionsOf cs, Condition.name n ∈ e.nodes)
      ∧ (∀ e ∈ conditionsOf cs, e.holds ['A'] = .ok (e.truth (.only ['A'])))
      ∧ isGuardedBy ['A'] cs = true ∧ cs[1]? = some c
      ∧ (Build.only ['A']).Leaves cs (some c)
      ∧ selectFrom? ['A'] none (cs.map fun c => (c.head, c)) = some (some (c.head, c)) := by
  let word : Token := ⟨.directive, [], [], [], 1⟩
  let first : Clause :=
    .mk ⟨.primary, word, [], some (.binary .or (.not (.name ['A'])) (.int 0))⟩ []
  let second : Clause :=
    .mk ⟨.alternative, word, [], some (.paren (.binary .and (.name ['A']) (.int 2)))⟩ []
  let cs : List Clause := [first, second, .mk ⟨.fallback, word, [], none⟩ []]
  have hnames : Condition.namesAll (conditionsOf cs) = .ok [['A'], ['A']] := by decide
  have hguard : isGuardedBy ['A'] cs = true := by decide
  have hconditions : ∀ c ∈ cs, c.head.kind ≠ .fallback → c.head.condition ≠ none := by decide
  obtain ⟨hsurvey, hselect⟩ := guarded_block_decides ['A']
  obtain ⟨hmem, hholds⟩ := (hsurvey (conditionsOf cs)).2.2 _ hnames
  have hon := Build.isOn_only ['A']
  obtain ⟨left, hleaves, hok, hstrict⟩ := hselect cs hconditions hguard _ hon
  have hleft : select ['A'] (cs.map fun c => (c.head, c)) = .ok (some (second.head, second)) := rfl
  have hsecond : left = some second := by
    rw [hleft] at hok
    obtain ⟨c, hc, heq⟩ := Option.map_eq_some_iff.mp (Except.ok.inj hok).symm
    rw [hc, (Prod.mk.inj heq).2]
  rw [hsecond] at hleaves hstrict
  exact ⟨cs, second, rfl, hnames, hmem, fun e he => hholds (by decide) e he _ hon, hguard, rfl,
    hleaves, hstrict⟩

end Unflag
