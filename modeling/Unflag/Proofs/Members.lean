/-
Member lists: the one induction behind everything that is said about trees.

A tree is six mutually recursive kinds of thing, and a proof that followed all six would
say the same thing six times. Two observations make it one. The functions on lists of
nodes, parts and clauses are `map` and `flatMap` of the functions on their elements, so
what is needed of them is in the library of lists. And a property of member lists only
ever needs itself for the member lists directly below: those between the braces of an
item's groups and those of a block's clauses. `memberInduction` is that principle.

"At any depth" has one meaning throughout: `sitesOfNodes` lists every node of a member list
in the order of the source, with the blocks around it, and `Everywhere` says something of
each.
-/
import Unflag.Resolution.Note

set_option autoImplicit false

namespace Unflag

/-! ## Lists of parts, clauses and nodes -/

theorem tokensOfNodes_eq (ns : List Node) : tokensOfNodes ns = ns.flatMap Node.tokens := by
  induction ns with
  | nil => rfl
  | cons n r ih => rw [tokensOfNodes, ih, List.flatMap_cons]

theorem tokensOfParts_eq (ps : List Part) : tokensOfParts ps = ps.flatMap Part.tokens := by
  induction ps with
  | nil => rfl
  | cons p r ih => rw [tokensOfParts, ih, List.flatMap_cons]

theorem tokensOfClauses_eq (cs : List Clause) :
    tokensOfClauses cs = cs.flatMap Clause.tokens := by
  induction cs with
  | nil => rfl
  | cons c r ih => rw [tokensOfClauses, ih, List.flatMap_cons]

theorem resolveParts_eq (flag : Text) (ps : List Part) :
    resolveParts flag ps = ps.map (Part.resolve flag) := by
  induction ps with
  | nil => rfl
  | cons p r ih => rw [resolveParts, ih, List.map_cons]

theorem resolveClauses_eq (flag : Text) (cs : List Clause) :
    resolveClauses flag cs = cs.map (Clause.resolve flag) := by
  induction cs with
  | nil => rfl
  | cons c r ih => rw [resolveClauses, ih, List.map_cons]

/-- Resolving the bodies of a block leaves its opening lines as they are. -/
@[simp] theorem Clause.head_resolve (flag : Text) (c : Clause) :
    (c.resolve flag).head = c.head := by
  cases c; rfl

@[simp] theorem Clause.body_resolve (flag : Text) (c : Clause) :
    (c.resolve flag).body = resolveNodes flag c.body := by
  cases c; rfl

theorem map_head_resolveClauses (flag : Text) (cs : List Clause) :
    (resolveClauses flag cs).map Clause.head = cs.map Clause.head := by
  rw [resolveClauses_eq, List.map_map]
  exact List.map_congr_left fun c _ => c.head_resolve flag

/-! ## Induction over member lists -/

/-- **Induction over member lists.** For an item the property may be assumed of the lists
between its braces, for a block of the bodies of its clauses. -/
@[elab_as_elim]
theorem memberInduction {P : List Node → Prop} (nil : P [])
    (item : ∀ kind parts rest,
      (∀ opening members closing, Part.group opening members closing ∈ parts → P members) →
      P rest → P (.item kind parts :: rest))
    (block : ∀ clauses ending rest, (∀ c ∈ clauses, P c.body) → P rest →
      P (.block clauses ending :: rest))
    (placeholder : ∀ t rest, P rest → P (.placeholder t :: rest)) (ns : List Node) : P ns := by
  -- a node satisfies the motive if it can be put in front of any list that has the property
  refine @Node.rec_3 (fun n => ∀ rest, P rest → P (n :: rest))
    (fun p => ∀ opening members closing, p = .group opening members closing → P members)
    (fun c => P c.body)
    (fun ps => ∀ opening members closing, Part.group opening members closing ∈ ps → P members)
    (fun cs => ∀ c ∈ cs, P c.body) P ?_ ?_ ?_ ?_ ?_ ?_ ?_ ?_ ?_ ?_ ?_ ?_ ns
  · intro kind parts hparts rest hrest
    exact item kind parts rest hparts hrest
  · intro clauses ending hclauses rest hrest
    exact block clauses ending rest hclauses hrest
  · intro t rest hrest
    exact placeholder t rest hrest
  · intro t opening members closing h
    exact absurd h (by simp)
  · intro opening members closing hmembers _ _ _ h
    cases h
    exact hmembers
  · intro head body hbody
    exact hbody
  · intro opening members closing h
    exact absurd h List.not_mem_nil
  · intro p ps hp hps opening members closing h
    rcases List.mem_cons.mp h with h | h
    · exact hp opening members closing h.symm
    · exact hps opening members closing h
  · intro c h
    exact absurd h List.not_mem_nil
  · intro c cs hc hcs d h
    rcases List.mem_cons.mp h with rfl | h
    · exact hc
    · exact hcs d h
  · exact nil
  · intro n rest hn hrest
    exact hn rest hrest

/-! ## Every node, at any depth -/

/-- A node and where it lies: for each block around it, outermost first, the clauses of
that block and the place of the clause that leads to the node. -/
structure Site where
  node : Node
  around : List (List Clause × Nat)

/-- The same node, seen from outside a further block. -/
def Site.inside (cs : List Clause) (i : Nat) (s : Site) : Site :=
  { s with around := (cs, i) :: s.around }

mutual

/-- A node and every node below it, in the order of the source. -/
def Node.sites : Node → List Site
  | .item kind parts => ⟨.item kind parts, []⟩ :: sitesOfParts parts
  | .block clauses ending =>
    ⟨.block clauses ending, []⟩ ::
      (sitesOfBodies clauses).zipIdx.flatMap fun b => b.1.map (Site.inside clauses b.2)
  | .placeholder t => [⟨.placeholder t, []⟩]

/-- The nodes inside a part. -/
def Part.sites : Part → List Site
  | .token _ => []
  | .group _ members _ => sitesOfNodes members

/-- The nodes inside the body of a clause. -/
def Clause.sites : Clause → List Site
  | .mk _ body => sitesOfNodes body

/-- The nodes of a member list, at any depth. -/
def sitesOfNodes : List Node → List Site
  | [] => []
  | n :: r => n.sites ++ sitesOfNodes r

/-- The nodes inside the parts of an item. -/
def sitesOfParts : List Part → List Site
  | [] => []
  | p :: r => p.sites ++ sitesOfParts r

/-- The nodes inside each body of a block. -/
def sitesOfBodies : List Clause → List (List Site)
  | [] => []
  | c :: r => c.sites :: sitesOfBodies r

end

theorem sitesOfNodes_eq (ns : List Node) : sitesOfNodes ns = ns.flatMap Node.sites := by
  induction ns with
  | nil => rfl
  | cons n r ih => rw [sitesOfNodes, ih, List.flatMap_cons]

theorem sitesOfParts_eq (ps : List Part) : sitesOfParts ps = ps.flatMap Part.sites := by
  induction ps with
  | nil => rfl
  | cons p r ih => rw [sitesOfParts, ih, List.flatMap_cons]

theorem sitesOfBodies_eq (cs : List Clause) :
    sitesOfBodies cs = cs.map fun c => sitesOfNodes c.body := by
  induction cs with
  | nil => rfl
  | cons c r ih => cases c; rw [sitesOfBodies, ih, List.map_cons]; rfl

theorem mem_sitesOfParts {s : Site} {ps : List Part} :
    s ∈ sitesOfParts ps ↔
      ∃ opening members closing, Part.group opening members closing ∈ ps
        ∧ s ∈ sitesOfNodes members := by
  rw [sitesOfParts_eq, List.mem_flatMap]
  constructor
  · rintro ⟨p, hp, hs⟩
    cases p with
    | token t => exact absurd hs List.not_mem_nil
    | group opening members closing => exact ⟨opening, members, closing, hp, hs⟩
  · rintro ⟨opening, members, closing, hp, hs⟩
    exact ⟨_, hp, hs⟩

/-- The nodes below a block: those of each body, one block further in. -/
theorem mem_sites_below {s : Site} {cs : List Clause} :
    s ∈ ((sitesOfBodies cs).zipIdx.flatMap fun b => b.1.map (Site.inside cs b.2)) ↔
      ∃ c i, cs[i]? = some c ∧ ∃ u ∈ sitesOfNodes c.body, u.inside cs i = s := by
  simp only [List.mem_flatMap, List.mem_map, Prod.exists, List.mem_zipIdx_iff_getElem?,
    sitesOfBodies_eq, List.getElem?_map, Option.map_eq_some_iff]
  constructor
  · rintro ⟨_, i, ⟨c, hc, rfl⟩, u, hu, rfl⟩
    exact ⟨c, i, hc, u, hu, rfl⟩
  · rintro ⟨c, i, hc, u, hu, rfl⟩
    exact ⟨_, i, ⟨c, hc, rfl⟩, u, hu, rfl⟩

/-- Something holds of every node of a member list, at any depth. -/
def Everywhere (P : Node → Prop) (ns : List Node) : Prop := ∀ s ∈ sitesOfNodes ns, P s.node

instance (P : Node → Prop) [DecidablePred P] (ns : List Node) : Decidable (Everywhere P ns) :=
  inferInstanceAs (Decidable (∀ s ∈ sitesOfNodes ns, P s.node))

section Everywhere

variable {P : Node → Prop}

theorem everywhere_nil : Everywhere P [] := fun _ hs => absurd hs List.not_mem_nil

theorem everywhere_append {ms ns : List Node} :
    Everywhere P (ms ++ ns) ↔ Everywhere P ms ∧ Everywhere P ns := by
  unfold Everywhere
  rw [sitesOfNodes_eq, sitesOfNodes_eq, sitesOfNodes_eq, List.flatMap_append]
  exact List.forall_mem_append

theorem everywhere_cons {n : Node} {ns : List Node} :
    Everywhere P (n :: ns) ↔ Everywhere P [n] ∧ Everywhere P ns :=
  @everywhere_append P [n] ns

theorem everywhere_item {kind : ItemKind} {parts : List Part} :
    Everywhere P [.item kind parts] ↔ P (.item kind parts) ∧
      ∀ opening members closing, Part.group opening members closing ∈ parts →
        Everywhere P members := by
  unfold Everywhere
  simp only [sitesOfNodes, Node.sites, List.append_nil, List.forall_mem_cons, mem_sitesOfParts]
  refine and_congr_right fun _ => ⟨?_, ?_⟩
  · intro h opening members closing hgroup s hs
    exact h s ⟨opening, members, closing, hgroup, hs⟩
  · rintro h s ⟨opening, members, closing, hgroup, hs⟩
    exact h opening members closing hgroup s hs

theorem everywhere_block {clauses : List Clause} {ending : Token} :
    Everywhere P [.block clauses ending] ↔
      P (.block clauses ending) ∧ ∀ c ∈ clauses, Everywhere P c.body := by
  unfold Everywhere
  simp only [sitesOfNodes, Node.sites, List.append_nil, List.forall_mem_cons, mem_sites_below]
  refine and_congr_right fun _ => ⟨?_, ?_⟩
  · intro h c hc s hs
    obtain ⟨i, hi⟩ := List.mem_iff_getElem?.mp hc
    exact h (s.inside clauses i) ⟨c, i, hi, s, hs, rfl⟩
  · rintro h s ⟨c, i, hi, u, hu, rfl⟩
    exact h c (List.mem_of_getElem? hi) u hu

theorem everywhere_placeholder {t : Token} :
    Everywhere P [.placeholder t] ↔ P (.placeholder t) := by
  simp [Everywhere, sitesOfNodes, Node.sites]

end Everywhere

end Unflag
