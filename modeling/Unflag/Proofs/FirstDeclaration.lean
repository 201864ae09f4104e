/-
The first declaration of a file.

A file is deleted when the search for a meaningful item comes back with nothing, so the search
must not leave anything out. It does not go through the whole tree: it stops at the first item
it finds and never looks inside one. The two are the same search nevertheless. Going through
every node of the tree in the order of the source, the items inside a meaningful item stand
behind it, so they are not asked for once it has been found.

The proof is one equation, `meaningfulInNodes?_eq_firstDeclared?`, between the recursive search and
a search along the list of all nodes.
-/
import Unflag.Proofs.Deletion

set_option autoImplicit false

namespace Unflag

/-! ## Searching along a list -/

/-- A search along lists that are joined goes through them one after the other. -/
theorem findSome?_flatMap {α β γ : Type} (f : β → Option γ) (g : α → List β) (l : List α) :
    (l.flatMap g).findSome? f = l.findSome? fun a => (g a).findSome? f := by
  induction l with
  | nil => rfl
  | cons a r ih =>
      rw [List.flatMap_cons, List.findSome?_append, ih, List.findSome?_cons]
      cases (g a).findSome? f <;> rfl

theorem findSome?_congr {α β : Type} {f g : α → Option β} {l : List α} (h : ∀ a ∈ l, f a = g a) :
    l.findSome? f = l.findSome? g := by
  induction l with
  | nil => rfl
  | cons a r ih =>
      obtain ⟨ha, hr⟩ := List.forall_mem_cons.mp h
      rw [List.findSome?_cons, List.findSome?_cons, ha, ih hr]

/-! ## Searching a tree -/

/-- What a node declares by itself. -/
def Node.declared? : Node → Option FoundItem
  | .item kind parts => if kind.isMeaningful then some ⟨kind, parts⟩ else none
  | .block _ _ => none
  | .placeholder _ => none

theorem Node.declared?_eq_some_iff {n : Node} {i : FoundItem} :
    n.declared? = some i ↔ n = .item i.kind i.parts ∧ i.kind.isMeaningful = true := by
  obtain ⟨kind, parts⟩ := i
  cases n with
  | item k ps =>
      rw [Node.declared?]
      by_cases hk : k.isMeaningful = true
      · rw [if_pos hk, Option.some_inj]
        constructor
        · intro h
          cases h
          exact ⟨rfl, hk⟩
        · rintro ⟨h, _⟩
          cases h
          rfl
      · rw [if_neg hk]
        refine iff_of_false (by simp) ?_
        rintro ⟨h, hkind⟩
        cases h
        exact hk hkind
  | block cs ending => exact iff_of_false (by simp [Node.declared?]) (by simp)
  | placeholder t => exact iff_of_false (by simp [Node.declared?]) (by simp)

theorem Node.declared?_eq_none_iff {n : Node} : n.declared? = none ↔ ¬ n.IsMeaningful := by
  cases n with
  | item kind parts =>
      rw [Node.declared?, Node.IsMeaningful]
      by_cases hk : kind.isMeaningful = true
      · simp [hk]
      · simp [hk]
  | block cs ending => exact iff_of_true rfl id
  | placeholder t => exact iff_of_true rfl id

theorem meaningfulInNodes?_cons (n : Node) (ns : List Node) :
    meaningfulInNodes? (n :: ns) = n.meaningful?.or (meaningfulInNodes? ns) := by
  rw [meaningfulInNodes?]
  cases n.meaningful? <;> rfl

theorem meaningfulInParts?_eq (ps : List Part) :
    meaningfulInParts? ps = ps.findSome? Part.meaningful? := by
  induction ps with
  | nil => rfl
  | cons p r ih =>
      rw [meaningfulInParts?, ih, List.findSome?_cons]
      cases p.meaningful? <;> rfl

theorem meaningfulInClauses?_eq (cs : List Clause) :
    meaningfulInClauses? cs = cs.findSome? fun c => meaningfulInNodes? c.body := by
  induction cs with
  | nil => rfl
  | cons c r ih =>
      have hc : c.meaningful? = meaningfulInNodes? c.body := by cases c; rfl
      rw [meaningfulInClauses?, ih, List.findSome?_cons, hc]
      cases meaningfulInNodes? c.body <;> rfl

/-- The first meaningful item in a list of nodes. -/
def firstDeclared? (ss : List Site) : Option FoundItem := ss.findSome? fun s => s.node.declared?

/-- Where a node lies does not matter to what it declares. -/
theorem firstDeclared?_map_inside (cs : List Clause) (i : Nat) (ss : List Site) :
    firstDeclared? (ss.map (Site.inside cs i)) = firstDeclared? ss := by
  rw [firstDeclared?, List.findSome?_map]
  rfl

theorem firstDeclared?_sitesOfNodes_cons (n : Node) (ns : List Node) :
    firstDeclared? (sitesOfNodes (n :: ns))
      = (firstDeclared? n.sites).or (firstDeclared? (sitesOfNodes ns)) :=
  List.findSome?_append

theorem firstDeclared?_cons (s : Site) (ss : List Site) :
    firstDeclared? (s :: ss) = s.node.declared?.or (firstDeclared? ss) := by
  rw [firstDeclared?, List.findSome?_cons]
  cases s.node.declared? <;> rfl

/-- **The search goes through the whole tree**, in the order of the source. -/
theorem meaningfulInNodes?_eq_firstDeclared? (ns : List Node) :
    meaningfulInNodes? ns = firstDeclared? (sitesOfNodes ns) := by
  induction ns using memberInduction with
  | nil => rfl
  | item kind parts rest ihGroups ihRest =>
      have hparts : meaningfulInParts? parts = firstDeclared? (sitesOfParts parts) := by
        rw [meaningfulInParts?_eq, sitesOfParts_eq, firstDeclared?, findSome?_flatMap]
        refine findSome?_congr fun p hp => ?_
        cases p with
        | token t => rfl
        | group opening members closing => exact ihGroups opening members closing hp
      rw [meaningfulInNodes?_cons, firstDeclared?_sitesOfNodes_cons, ihRest, Node.sites,
        firstDeclared?_cons, Node.meaningful?, Node.declared?, hparts]
      -- a meaningful item is found in front of everything inside it
      by_cases hk : kind.isMeaningful = true
      · rw [if_pos hk, if_pos hk]
        rfl
      · rw [if_neg hk, if_neg hk]
        rfl
  | block cs ending rest ihBodies ihRest =>
      have hbodies : meaningfulInClauses? cs = firstDeclared?
          ((sitesOfBodies cs).zipIdx.flatMap fun b => b.1.map (Site.inside cs b.2)) := by
        have hinside : (fun b : List Site × Nat => firstDeclared? (b.1.map (Site.inside cs b.2)))
            = firstDeclared? ∘ Prod.fst := funext fun b => firstDeclared?_map_inside cs b.2 b.1
        calc meaningfulInClauses? cs
            = cs.findSome? fun c => meaningfulInNodes? c.body := meaningfulInClauses?_eq cs
          _ = cs.findSome? fun c => firstDeclared? (sitesOfNodes c.body) :=
              findSome?_congr ihBodies
          _ = (sitesOfBodies cs).findSome? firstDeclared? := by
              rw [sitesOfBodies_eq, List.findSome?_map]
              rfl
          _ = (sitesOfBodies cs).zipIdx.findSome? (firstDeclared? ∘ Prod.fst) := by
              rw [← List.findSome?_map, List.zipIdx_map_fst]
          _ = firstDeclared? _ := by
              rw [← hinside, firstDeclared?, findSome?_flatMap]
              rfl
      rw [meaningfulInNodes?_cons, firstDeclared?_sitesOfNodes_cons, ihRest, Node.sites,
        firstDeclared?_cons, Node.meaningful?, Node.declared?, hbodies]
      rfl
  | placeholder t rest ihRest =>
      rw [meaningfulInNodes?_cons, firstDeclared?_sitesOfNodes_cons, ihRest]
      rfl

/-! ## Trees -/

/-- **Emptiness is exact.** A tree is empty if and only if no node of it, at any depth, is an
item of a meaningful kind; and what is found in any other tree is its first meaningful item, in
the order of the source, with none in front of it. -/
theorem SourceTree.finds_first_declaration (t : SourceTree) :
    (t.isEmpty = true ↔ ∀ s ∈ t.sites, ¬ s.node.IsMeaningful)
      ∧ ∀ i, meaningfulInNodes? t.members = some i ↔
          ∃ before s after, t.sites = before ++ s :: after
            ∧ s.node = .item i.kind i.parts ∧ i.kind.isMeaningful = true
            ∧ ∀ u ∈ before, ¬ u.node.IsMeaningful := by
  refine ⟨t.isEmpty_iff, fun i => ?_⟩
  rw [meaningfulInNodes?_eq_firstDeclared?, firstDeclared?, ← SourceTree.sites,
    List.findSome?_eq_some_iff]
  refine exists_congr fun before => exists_congr fun s => exists_congr fun after => ?_
  refine and_congr_right fun _ => ?_
  rw [Node.declared?_eq_some_iff, and_assoc]
  refine and_congr_right fun _ => and_congr_right fun _ => ?_
  exact forall₂_congr fun u _ => Node.declared?_eq_none_iff

-- behind an import and inside braces, and once more inside what is found
example : (SourceTree.parse .sequential
    "import A\nif a \x7b\n#if B\n#else\nvar b \x7b func c() \x7b\x7d \x7d\n#endif\n\x7d\n".toList).toOption.map
      (fun t => (t.sites.countP fun s => decide s.node.IsMeaningful,
        (meaningfulInNodes? t.members).map FoundItem.kind)) = some (2, some .variableDecl) := by
  decide +kernel

end Unflag
