/-
Tokens in their places.

Which blocks a token stands in, and where in each of them, decides what a resolution does
to it. An `Occurrence` is a token with exactly that: the blocks around it, outermost first,
and its place in each. The occurrences of a tree are its tokens, each once and in the order
of the source, so whatever is said of occurrences is said of the tokens of a source, and
which tokens are dropped is said before any of them is.
-/
import Mathlib.Data.List.Infix
import Unflag.Proofs.OnePass

set_option autoImplicit false

namespace Unflag

/-! ## Tokens in their places -/

/-- Where in a block a token stands. -/
inductive Place where
  /-- In the opening line of a clause; the directive comes first, then its condition. -/
  | opening (clause index : Nat)
  /-- In the body of a clause. -/
  | body (clause : Nat)
  /-- The directive that ends the block. -/
  | ending
  deriving DecidableEq, Repr

/-- The directives of a block are the first tokens of its opening lines, and its end. -/
def Place.isDirective : Place → Bool
  | .opening _ 0 => true
  | .opening _ (_ + 1) => false
  | .body _ => false
  | .ending => true

/-- The lines of a block that are not in its bodies: its opening lines, and its end. -/
def Place.isMarker : Place → Bool
  | .opening _ _ => true
  | .body _ => false
  | .ending => true

/-- The end of a block. -/
def Place.isEnding : Place → Bool
  | .ending => true
  | _ => false

/-- The condition of an opening line is what follows its directive. -/
def Place.isCondition (p : Place) : Bool := p.isMarker && !p.isDirective

/-- A token and where it stands: the blocks around it, outermost first, each given by its
clauses, and its place in each. -/
structure Occurrence where
  token : Token
  around : List (List Clause × Place)

mutual

/-- The tokens of a node in their places; `up` is where the node stands. -/
def Node.occurrences (up : List (List Clause × Place)) : Node → List Occurrence
  | .item _ parts => occurrencesOfParts up parts
  | .block clauses ending =>
    occurrencesOfClauses up clauses 0 clauses ++ [⟨ending, up ++ [(clauses, .ending)]⟩]
  | .placeholder t => [⟨t, up⟩]

/-- The tokens of a part in their places. -/
def Part.occurrences (up : List (List Clause × Place)) : Part → List Occurrence
  | .token t => [⟨t, up⟩]
  | .group opening members closing =>
    ⟨opening, up⟩ :: occurrencesOfNodes up members ++ [⟨closing, up⟩]

/-- The tokens of the clause at place `i` of a block. -/
def Clause.occurrences (up : List (List Clause × Place)) (all : List Clause) (i : Nat) :
    Clause → List Occurrence
  | .mk h body =>
    ((h.directive :: h.tokens).zipIdx.map fun t => ⟨t.1, up ++ [(all, .opening i t.2)]⟩)
      ++ occurrencesOfNodes (up ++ [(all, .body i)]) body

/-- The tokens of a member list in their places. -/
def occurrencesOfNodes (up : List (List Clause × Place)) : List Node → List Occurrence
  | [] => []
  | n :: r => n.occurrences up ++ occurrencesOfNodes up r

/-- The tokens of the parts of an item in their places. -/
def occurrencesOfParts (up : List (List Clause × Place)) : List Part → List Occurrence
  | [] => []
  | p :: r => p.occurrences up ++ occurrencesOfParts up r

/-- The tokens of the clauses of a block, from place `i` on. -/
def occurrencesOfClauses (up : List (List Clause × Place)) (all : List Clause) (i : Nat) :
    List Clause → List Occurrence
  | [] => []
  | c :: r => c.occurrences up all i ++ occurrencesOfClauses up all (i + 1) r

end

/-- The tokens of a tree in their places, the end of the file last. -/
def SourceTree.occurrences (t : SourceTree) : List Occurrence :=
  occurrencesOfNodes [] t.members ++ [⟨t.eof, []⟩]

/-- Whether a place in a block on the flag is one that a resolution keeps: the body of the
clause that is left. -/
def Place.IsKept (flag : Text) (cs : List Clause) : Place → Prop
  | .body i => keptPlace flag cs = some i
  | _ => False

instance (flag : Text) (cs : List Clause) (p : Place) : Decidable (p.IsKept flag cs) :=
  match p with
  | .opening _ _ => inferInstanceAs (Decidable False)
  | .body i => inferInstanceAs (Decidable (keptPlace flag cs = some i))
  | .ending => inferInstanceAs (Decidable False)

namespace Occurrence

/-- A token inside a block on the flag. -/
def IsInside (flag : Text) (o : Occurrence) : Prop := ∃ a ∈ o.around, FlagsAre flag a.1

/-- A token that is dropped: for some block on the flag around it, it is a directive, a token
of a condition, or a token of a clause other than the one that is left. -/
def IsDropped (flag : Text) (o : Occurrence) : Prop :=
  ∃ a ∈ o.around, FlagsAre flag a.1 ∧ ¬ a.2.IsKept flag a.1

instance (flag : Text) (o : Occurrence) : Decidable (o.IsDropped flag) :=
  inferInstanceAs (Decidable (∃ a ∈ o.around, FlagsAre flag a.1 ∧ ¬ a.2.IsKept flag a.1))

/-- A token whose place in the innermost block around it passes a test, the block being on
the flag. -/
def IsAt (flag : Text) (p : Place → Bool) (o : Occurrence) : Prop :=
  ∃ a ∈ o.around.getLast?, FlagsAre flag a.1 ∧ p a.2 = true

instance (flag : Text) (p : Place → Bool) (o : Occurrence) : Decidable (o.IsAt flag p) :=
  match h : o.around.getLast? with
  | none => isFalse fun ⟨a, ha, _⟩ => absurd ha (by simp [h])
  | some a =>
    if hp : FlagsAre flag a.1 ∧ p a.2 = true then isTrue ⟨a, by simp [h], hp⟩
    else isFalse fun ⟨b, hb, hp'⟩ => hp (by
      obtain rfl : a = b := by simpa [h] using hb
      exact hp')

/-- A directive of a block on the flag. -/
def IsDirectiveOn (flag : Text) (o : Occurrence) : Prop := o.IsAt flag Place.isDirective

/-- A token of an opening line, or the end, of a block on the flag. -/
def IsMarkerOn (flag : Text) (o : Occurrence) : Prop := o.IsAt flag Place.isMarker

/-- The end of a block on the flag. -/
def IsEndOn (flag : Text) (o : Occurrence) : Prop := o.IsAt flag Place.isEnding

/-- A token of a condition of a block on the flag. -/
def IsConditionOn (flag : Text) (o : Occurrence) : Prop := o.IsAt flag Place.isCondition

instance (flag : Text) (o : Occurrence) : Decidable (o.IsDirectiveOn flag) :=
  inferInstanceAs (Decidable (o.IsAt flag _))

instance (flag : Text) (o : Occurrence) : Decidable (o.IsMarkerOn flag) :=
  inferInstanceAs (Decidable (o.IsAt flag _))

instance (flag : Text) (o : Occurrence) : Decidable (o.IsEndOn flag) :=
  inferInstanceAs (Decidable (o.IsAt flag _))

instance (flag : Text) (o : Occurrence) : Decidable (o.IsConditionOn flag) :=
  inferInstanceAs (Decidable (o.IsAt flag _))

theorem IsDirectiveOn.not_isConditionOn {flag : Text} {o : Occurrence} (h : o.IsDirectiveOn flag) :
    ¬ o.IsConditionOn flag := by
  rintro ⟨b, hb, _, hcondition⟩
  obtain ⟨a, ha, _, hdirective⟩ := h
  obtain rfl : a = b := Option.some.inj (ha.symm.trans hb)
  exact absurd hcondition (by simp [Place.isCondition, hdirective])

/-- The lines of a block on the flag are dropped. -/
theorem IsConditionOn.isDropped {flag : Text} {o : Occurrence} (h : o.IsConditionOn flag) :
    o.IsDropped flag := by
  obtain ⟨a, ha, hflags, hplace⟩ := h
  refine ⟨a, List.mem_of_getLast? ha, hflags, fun hkept => ?_⟩
  cases hp : a.2 with
  | opening i k => rw [hp] at hkept; exact hkept
  | body i => rw [hp] at hplace; exact absurd hplace (by simp [Place.isCondition, Place.isMarker])
  | ending => rw [hp] at hkept; exact hkept

end Occurrence

/-! ## The list of occurrences -/

theorem occurrencesOfParts_eq (up : List (List Clause × Place)) (ps : List Part) :
    occurrencesOfParts up ps = ps.flatMap (Part.occurrences up) := by
  induction ps with
  | nil => rfl
  | cons p r ih => rw [occurrencesOfParts, ih, List.flatMap_cons]

theorem occurrencesOfClauses_append (up : List (List Clause × Place)) (all : List Clause) (i : Nat)
    (cs ds : List Clause) :
    occurrencesOfClauses up all i (cs ++ ds)
      = occurrencesOfClauses up all i cs ++ occurrencesOfClauses up all (i + cs.length) ds := by
  induction cs generalizing i with
  | nil => rfl
  | cons c r ih =>
      rw [List.cons_append, occurrencesOfClauses, ih, occurrencesOfClauses, List.append_assoc,
        List.length_cons, Nat.add_right_comm, Nat.add_assoc i r.length 1]

/-- The opening line of a clause, in its place. -/
def openingOf (up : List (List Clause × Place)) (all : List Clause) (i : Nat) (h : ClauseHead) :
    List Occurrence :=
  (h.directive :: h.tokens).zipIdx.map fun t => ⟨t.1, up ++ [(all, .opening i t.2)]⟩

theorem Clause.occurrences_eq (up : List (List Clause × Place)) (all : List Clause) (i : Nat)
    (c : Clause) :
    c.occurrences up all i
      = openingOf up all i c.head ++ occurrencesOfNodes (up ++ [(all, .body i)]) c.body := by
  cases c; rfl

theorem map_token_openingOf (up : List (List Clause × Place)) (all : List Clause) (i : Nat)
    (h : ClauseHead) :
    (openingOf up all i h).map Occurrence.token = h.directive :: h.tokens := by
  rw [openingOf, List.map_map]
  exact List.zipIdx_map_fst 0 (h.directive :: h.tokens)

theorem mem_openingOf {up : List (List Clause × Place)} {all : List Clause} {i : Nat}
    {h : ClauseHead} {o : Occurrence} (ho : o ∈ openingOf up all i h) :
    ∃ k, o.around = up ++ [(all, .opening i k)] := by
  obtain ⟨t, _, rfl⟩ := List.mem_map.mp ho
  exact ⟨t.2, rfl⟩

/-- **The occurrences are the tokens**, each once and in order. -/
theorem map_token_occurrencesOfNodes (up : List (List Clause × Place)) (ns : List Node) :
    (occurrencesOfNodes up ns).map Occurrence.token = tokensOfNodes ns := by
  induction ns using memberInduction generalizing up with
  | nil => rfl
  | item kind parts rest ihGroups ihRest =>
      rw [occurrencesOfNodes, List.map_append, ihRest, tokensOfNodes, Node.occurrences,
        Node.tokens, occurrencesOfParts_eq, List.map_flatMap, tokensOfParts_eq]
      congr 1
      refine List.flatMap_congr fun p hp => ?_
      cases p with
      | token t => rfl
      | group opening members closing =>
          simp only [Part.occurrences, Part.tokens, List.cons_append, List.map_cons,
            List.map_append, ihGroups opening members closing hp, List.map_nil]
  | block cs ending rest ihBodies ihRest =>
      -- for any part of the clauses, since the places of the later ones count the earlier
      have hclauses : ∀ all i ds, (∀ c ∈ ds, c ∈ cs) →
          (occurrencesOfClauses up all i ds).map Occurrence.token = tokensOfClauses ds := by
        intro all i ds hds
        induction ds generalizing i with
        | nil => rfl
        | cons c r ih =>
            have hc := ihBodies c (hds c List.mem_cons_self)
            rw [occurrencesOfClauses, List.map_append, ih _ fun d hd => hds d (by simp [hd]),
              tokensOfClauses, c.occurrences_eq, List.map_append, map_token_openingOf, hc]
            cases c
            rfl
      rw [occurrencesOfNodes, List.map_append, ihRest, tokensOfNodes, Node.occurrences,
        Node.tokens, List.map_append, hclauses cs 0 cs fun _ hc => hc]
      rfl
  | placeholder t rest ihRest =>
      rw [occurrencesOfNodes, List.map_append, ihRest]
      rfl

/-- What holds of the tokens of a list holds of them in their places. -/
theorem forall_mem_occurrences {P : Token → Prop} {ns : List Node}
    (h : ∀ t ∈ tokensOfNodes ns, P t) (up : List (List Clause × Place)) :
    ∀ o ∈ occurrencesOfNodes up ns, P o.token := by
  rw [← map_token_occurrencesOfNodes up] at h
  exact List.forall_mem_map.mp h

theorem SourceTree.map_token_occurrences (t : SourceTree) :
    t.occurrences.map Occurrence.token = t.tokens := by
  rw [SourceTree.occurrences, List.map_append, map_token_occurrencesOfNodes]
  rfl

/-- A token of a member list stands where the list stands, and perhaps further in. -/
theorem prefix_around_of_mem {up : List (List Clause × Place)} {ns : List Node} :
    ∀ o ∈ occurrencesOfNodes up ns, up <+: o.around := by
  induction ns using memberInduction generalizing up with
  | nil => exact fun o ho => absurd ho List.not_mem_nil
  | item kind parts rest ihGroups ihRest =>
      intro o ho
      rcases List.mem_append.mp ho with ho | ho
      · rw [Node.occurrences, occurrencesOfParts_eq] at ho
        obtain ⟨p, hp, ho⟩ := List.mem_flatMap.mp ho
        cases p with
        | token t =>
            rw [List.mem_singleton.mp ho]
        | group opening members closing =>
            have hcases : o = ⟨opening, up⟩ ∨ o ∈ occurrencesOfNodes up members
                ∨ o = ⟨closing, up⟩ := by
              simpa [Part.occurrences] using ho
            rcases hcases with rfl | ho | rfl
            · exact List.prefix_rfl
            · exact ihGroups opening members closing hp o ho
            · exact List.prefix_rfl
      · exact ihRest o ho
  | block cs ending rest ihBodies ihRest =>
      have hclauses : ∀ all i ds, (∀ c ∈ ds, c ∈ cs) →
          ∀ o ∈ occurrencesOfClauses up all i ds, up <+: o.around := by
        intro all i ds hds
        induction ds generalizing i with
        | nil => exact fun o ho => absurd ho List.not_mem_nil
        | cons c r ih =>
            intro o ho
            rcases List.mem_append.mp ho with ho | ho
            · rw [c.occurrences_eq] at ho
              rcases List.mem_append.mp ho with ho | ho
              · obtain ⟨k, hk⟩ := mem_openingOf ho
                rw [hk]
                exact List.prefix_append _ _
              · exact (List.prefix_append _ _).trans (ihBodies c (hds c List.mem_cons_self) o ho)
            · exact ih (i + 1) (fun d hd => hds d (by simp [hd])) o ho
      intro o ho
      rcases List.mem_append.mp ho with ho | ho
      · rcases List.mem_append.mp ho with ho | ho
        · exact hclauses cs 0 cs (fun _ hc => hc) o ho
        · rw [List.mem_singleton.mp ho]
          exact List.prefix_append _ _
      · exact ihRest o ho
  | placeholder t rest ihRest =>
      intro o ho
      rcases List.mem_append.mp ho with ho | ho
      · rw [List.mem_singleton.mp ho]
      · exact ihRest o ho

/-- Of the clauses of a block, from place `i` on: a token stands in an opening line, or in
the body of one of them. -/
theorem mem_occurrencesOfClauses {up : List (List Clause × Place)} {all : List Clause} {i : Nat}
    {cs : List Clause} {o : Occurrence} (ho : o ∈ occurrencesOfClauses up all i cs) :
    ∃ p, (all, p) ∈ o.around ∧ ∀ j, p = .body j → i ≤ j ∧ j < i + cs.length := by
  induction cs generalizing i with
  | nil => exact absurd ho List.not_mem_nil
  | cons c r ih =>
      rcases List.mem_append.mp ho with ho | ho
      · rw [c.occurrences_eq] at ho
        rcases List.mem_append.mp ho with ho | ho
        · obtain ⟨k, hk⟩ := mem_openingOf ho
          exact ⟨.opening i k, by simp [hk], fun j hj => by cases hj⟩
        · have hmem : (all, Place.body i) ∈ up ++ [(all, .body i)] := by simp
          refine ⟨.body i, (prefix_around_of_mem o ho).subset hmem, fun j hj => ?_⟩
          cases hj
          simp
      · obtain ⟨p, hp, hplace⟩ := ih ho
        refine ⟨p, hp, fun j hj => ?_⟩
        have hj' := hplace j hj
        rw [List.length_cons]
        omega

end Unflag
