/-
One source in two groupings.

The grouping is asked for once in a parse: when the condition of an opening line has been
taken, and must be read. Where the condition ends has been decided before that, and nothing
that is decided later looks at what was read. So two parses in different groupings walk in
step. At every token the one is where the other is, with each condition read again from its
own tokens (`step_reread`), and either both go on or both refuse with the same words.

What a resolution decides is another matter: whether a block is on a flag depends on the
names of its conditions, and these are the same in both groupings (`ConditionNames`). Hence
a source is edited in one grouping if and only if it is edited in the other. The clause that
is kept need not be the same one.
-/
import Unflag.Proofs.ConditionNames
import Unflag.Proofs.ItemWords
import Unflag.Proofs.OnePass
import Unflag.Proofs.ParsedShape

set_option autoImplicit false

namespace Unflag

open Assembly

/-! ## Trees with other opening lines -/

mutual

/-- A node with every opening line below it changed by `f`. -/
def Node.mapHeads (f : ClauseHead → ClauseHead) : Node → Node
  | .item kind parts => .item kind (mapHeadsOfParts f parts)
  | .block clauses ending => .block (mapHeadsOfClauses f clauses) ending
  | .placeholder t => .placeholder t

/-- A part with every opening line below it changed. -/
def Part.mapHeads (f : ClauseHead → ClauseHead) : Part → Part
  | .token t => .token t
  | .group opening members closing => .group opening (mapHeadsOfNodes f members) closing

/-- A clause with its opening line and those below it changed. -/
def Clause.mapHeads (f : ClauseHead → ClauseHead) : Clause → Clause
  | .mk h body => .mk (f h) (mapHeadsOfNodes f body)

/-- A member list with every opening line changed. -/
def mapHeadsOfNodes (f : ClauseHead → ClauseHead) : List Node → List Node
  | [] => []
  | n :: r => n.mapHeads f :: mapHeadsOfNodes f r

/-- The parts of an item with every opening line changed. -/
def mapHeadsOfParts (f : ClauseHead → ClauseHead) : List Part → List Part
  | [] => []
  | p :: r => p.mapHeads f :: mapHeadsOfParts f r

/-- The clauses of a block with every opening line changed. -/
def mapHeadsOfClauses (f : ClauseHead → ClauseHead) : List Clause → List Clause
  | [] => []
  | c :: r => c.mapHeads f :: mapHeadsOfClauses f r

end

/-- A tree with every opening line changed. -/
def SourceTree.mapHeads (f : ClauseHead → ClauseHead) (t : SourceTree) : SourceTree :=
  { t with members := mapHeadsOfNodes f t.members }

/-- An opening line without what its condition was read as. -/
def ClauseHead.bare (h : ClauseHead) : ClauseHead := { h with condition := none }

/-- A tree without what its conditions were read as. Two trees that are equal but for that
have the same `bare`. -/
def SourceTree.bare (t : SourceTree) : SourceTree := t.mapHeads ClauseHead.bare

/-- An opening line whose condition, if it has one, is read again from its tokens. -/
def ClauseHead.reread (g : Grouping) (h : ClauseHead) : ClauseHead :=
  { h with condition := h.condition.bind fun _ => (Condition.ofTokens g h.tokens).toOption }

section Lists

variable (f : ClauseHead → ClauseHead)

theorem mapHeadsOfNodes_eq (ns : List Node) : mapHeadsOfNodes f ns = ns.map (Node.mapHeads f) := by
  induction ns with
  | nil => rfl
  | cons n r ih => rw [mapHeadsOfNodes, ih, List.map_cons]

theorem mapHeadsOfParts_eq (ps : List Part) : mapHeadsOfParts f ps = ps.map (Part.mapHeads f) := by
  induction ps with
  | nil => rfl
  | cons p r ih => rw [mapHeadsOfParts, ih, List.map_cons]

theorem mapHeadsOfClauses_eq (cs : List Clause) :
    mapHeadsOfClauses f cs = cs.map (Clause.mapHeads f) := by
  induction cs with
  | nil => rfl
  | cons c r ih => rw [mapHeadsOfClauses, ih, List.map_cons]

@[simp] theorem Clause.head_mapHeads (c : Clause) : (c.mapHeads f).head = f c.head := by
  obtain ⟨h, body⟩ := c
  rfl

@[simp] theorem Clause.body_mapHeads (c : Clause) :
    (c.mapHeads f).body = mapHeadsOfNodes f c.body := by
  obtain ⟨h, body⟩ := c
  rfl

/-- Two changes one after the other are one change. -/
theorem mapHeadsOfNodes_mapHeadsOfNodes (f' : ClauseHead → ClauseHead) (ns : List Node) :
    mapHeadsOfNodes f' (mapHeadsOfNodes f ns) = mapHeadsOfNodes (fun h => f' (f h)) ns := by
  induction ns using memberInduction with
  | nil => rfl
  | item kind parts rest ihGroups ihRest =>
      have hparts : mapHeadsOfParts f' (mapHeadsOfParts f parts)
          = mapHeadsOfParts (fun h => f' (f h)) parts := by
        rw [mapHeadsOfParts_eq, mapHeadsOfParts_eq, mapHeadsOfParts_eq, List.map_map]
        apply List.map_congr_left
        intro p hp
        cases p with
        | token t => rfl
        | group opening members closing =>
            exact congrArg (Part.group opening · closing) (ihGroups opening members closing hp)
      simp only [mapHeadsOfNodes, Node.mapHeads, hparts, ihRest]
  | block cs ending rest ihBodies ihRest =>
      have hclauses : mapHeadsOfClauses f' (mapHeadsOfClauses f cs)
          = mapHeadsOfClauses (fun h => f' (f h)) cs := by
        rw [mapHeadsOfClauses_eq, mapHeadsOfClauses_eq, mapHeadsOfClauses_eq, List.map_map]
        apply List.map_congr_left
        intro c hc
        have hbody := ihBodies c hc
        obtain ⟨h, body⟩ := c
        exact congrArg (Clause.mk (f' (f h))) hbody
      simp only [mapHeadsOfNodes, Node.mapHeads, hclauses, ihRest]
  | placeholder t rest ihRest => simp only [mapHeadsOfNodes, Node.mapHeads, ihRest]

/-- An item is told by its words, and these are not in an opening line. -/
theorem sameWords_mapHeads (ps : List Part) : SameWords ps (mapHeadsOfParts f ps) := by
  rw [mapHeadsOfParts_eq]
  apply sameWords_map
  intro p
  cases p with
  | token t => exact .token rfl
  | group opening members closing => exact .group rfl rfl

end Lists

/-! ## Two parses in step -/

namespace Assembly

section Members

variable (f : ClauseHead → ClauseHead)

/-- A list that is being filled, with every opening line changed. -/
def Members.mapHeads (m : Members) : Members :=
  ⟨mapHeadsOfNodes f m.nodes, mapHeadsOfParts f m.parts, m.depth⟩

theorem Members.isEmpty_mapHeads (m : Members) :
    (m.mapHeads f).parts.isEmpty = m.parts.isEmpty := by
  show (mapHeadsOfParts f m.parts).isEmpty = m.parts.isEmpty
  rw [mapHeadsOfParts_eq, List.isEmpty_map]

theorem Members.flush_mapHeads (m : Members) : (m.mapHeads f).flush = m.flush.mapHeads f := by
  have hkind : Item.classify (mapHeadsOfParts f m.parts) = Item.classify m.parts :=
    (Item.classify_congr (.of_sameWords (sameWords_mapHeads f m.parts))).symm
  unfold Members.flush
  rw [m.isEmpty_mapHeads f]
  by_cases hparts : m.parts.isEmpty = true
  · rw [if_pos hparts, if_pos hparts]
  · rw [if_neg hparts, if_neg hparts]
    simp only [Members.mapHeads, hkind, mapHeadsOfNodes_eq, List.map_append, List.map_cons,
      List.map_nil, Node.mapHeads, mapHeadsOfParts]

theorem Members.finish_mapHeads (m : Members) :
    (m.mapHeads f).finish = mapHeadsOfNodes f m.finish := by
  rw [Members.finish, m.flush_mapHeads f]
  rfl

theorem Members.addPart_mapHeads (m : Members) (p : Part) :
    (m.mapHeads f).addPart (p.mapHeads f) = (m.addPart p).mapHeads f := by
  simp only [Members.addPart, Members.mapHeads, mapHeadsOfParts_eq, List.map_append,
    List.map_cons, List.map_nil]

theorem Members.addNode_mapHeads (m : Members) (n : Node) :
    (m.mapHeads f).addNode (n.mapHeads f) = (m.addNode n).mapHeads f := by
  simp only [Members.addNode, Members.mapHeads, mapHeadsOfNodes_eq, List.map_append,
    List.map_cons, List.map_nil]

theorem Members.breakBefore_mapHeads (m : Members) (t : Token) :
    (m.mapHeads f).breakBefore t = (m.breakBefore t).mapHeads f := by
  have hstarts : Item.startsNewItem (m.mapHeads f).parts t = Item.startsNewItem m.parts t :=
    (Item.startsNewItem_congr (.of_sameWords (sameWords_mapHeads f m.parts)) rfl).symm
  have hdepth : (m.mapHeads f).depth = m.depth := rfl
  unfold Members.breakBefore
  rw [m.isEmpty_mapHeads f, hstarts, hdepth, m.flush_mapHeads f]
  split <;> rfl

theorem Members.addToken_mapHeads (m : Members) (t : Token) :
    (m.mapHeads f).addToken t = (m.addToken t).mapHeads f := by
  have hadded : (m.mapHeads f).addPart (.token t) = (m.addPart (.token t)).mapHeads f :=
    m.addPart_mapHeads f (.token t)
  have hdepth : (m.mapHeads f).depth = m.depth := rfl
  unfold Members.addToken
  simp only [hadded, hdepth]
  split
  · rfl
  split
  · rfl
  split
  · exact Members.flush_mapHeads f _
  · rfl

end Members

variable (g : Grouping)

/-- A block that is being read, with its conditions read again. -/
def OpenBlock.reread (b : OpenBlock) : OpenBlock :=
  ⟨b.outer.mapHeads (ClauseHead.reread g), b.line,
    mapHeadsOfClauses (ClauseHead.reread g) b.clauses⟩

/-- What the list in hand stands in, with the conditions read again. -/
def Frame.reread : Frame → Frame
  | .group outer opening => .group (outer.mapHeads (ClauseHead.reread g)) opening
  | .clause block head => .clause (block.reread g) (head.reread g)

/-- A state of the assembly, with the conditions read again. A condition that is still being
taken has not been read. -/
def State.reread : State → State
  | .listing stack m => .listing (stack.map (Frame.reread g)) (m.mapHeads (ClauseHead.reread g))
  | .heading stack block kind directive taken depth =>
    .heading (stack.map (Frame.reread g)) (block.reread g) kind directive taken depth

/-- A finished clause joins its block. -/
theorem OpenBlock.reread_addClause (b : OpenBlock) (head : ClauseHead) (m : Members) :
    OpenBlock.reread g { b with clauses := b.clauses ++ [.mk head m.finish] }
      = { b.reread g with clauses := (b.reread g).clauses
          ++ [.mk (head.reread g) (m.mapHeads (ClauseHead.reread g)).finish] } := by
  have hclauses : mapHeadsOfClauses (ClauseHead.reread g) (b.clauses ++ [.mk head m.finish])
      = mapHeadsOfClauses (ClauseHead.reread g) b.clauses
          ++ [.mk (head.reread g) (m.mapHeads (ClauseHead.reread g)).finish] := by
    rw [mapHeadsOfClauses_eq, mapHeadsOfClauses_eq, List.map_append, m.finish_mapHeads]
    rfl
  rw [OpenBlock.reread, hclauses]
  rfl

theorem closeGroup_reread (stack : List Frame) (m : Members) (t : Token) :
    closeGroup (stack.map (Frame.reread g)) (m.mapHeads (ClauseHead.reread g)) t
      = (closeGroup stack m t).map (State.reread g) := by
  cases stack with
  | nil => rfl
  | cons frame up =>
      cases frame with
      | clause block head => rfl
      | group outer opening =>
          simp only [List.map_cons, Frame.reread, closeGroup, Except.map, State.reread,
            m.finish_mapHeads, ← outer.addPart_mapHeads, Part.mapHeads]

theorem closeClause_reread (stack : List Frame) (m : Members) (t : Token) :
    closeClause (stack.map (Frame.reread g)) (m.mapHeads (ClauseHead.reread g)) t
      = (closeClause stack m t).map (State.reread g) := by
  cases stack with
  | nil => rfl
  | cons frame up =>
      cases frame with
      | group outer opening => rfl
      | clause block head =>
          have hgrown := block.reread_addClause g head m
          have hclauses : mapHeadsOfClauses (ClauseHead.reread g)
                (block.clauses ++ [.mk head m.finish])
              = (block.reread g).clauses
                  ++ [.mk (head.reread g) (m.mapHeads (ClauseHead.reread g)).finish] :=
            congrArg OpenBlock.clauses hgrown
          have hended : (block.reread g).outer.addNode (.block ((block.reread g).clauses
                ++ [.mk (head.reread g) (m.mapHeads (ClauseHead.reread g)).finish]) t)
              = (block.outer.addNode (.block (block.clauses ++ [.mk head m.finish]) t)).mapHeads
                  (ClauseHead.reread g) := by
            rw [← Members.addNode_mapHeads, Node.mapHeads, hclauses]
            rfl
          have hkind : (head.reread g).kind = head.kind := rfl
          unfold closeClause
          simp only [List.map_cons, Frame.reread, hended, hkind]
          split
          · rfl
          split
          · rfl
          split
          · simp only [Except.map, State.reread, hgrown]
          · simp only [Except.map, State.reread, List.map_cons, Frame.reread, hgrown]
            rfl

theorem stepList_reread (stack : List Frame) (m : Members) (t : Token) :
    stepList (stack.map (Frame.reread g)) (m.mapHeads (ClauseHead.reread g)) t
      = (stepList stack m t).map (State.reread g) := by
  have hdepth : (m.mapHeads (ClauseHead.reread g)).depth = m.depth := rfl
  unfold stepList
  rw [hdepth]
  split
  · exact closeGroup_reread g stack m t
  split
  · exact closeClause_reread g stack m t
  split
  · split
    · rfl
    · simp only [Except.map, State.reread, OpenBlock.reread, m.flush_mapHeads, mapHeadsOfClauses]
  split
  · simp only [Except.map, State.reread, List.map_cons, Frame.reread, m.breakBefore_mapHeads]
    rfl
  · simp only [Except.map, State.reread, m.breakBefore_mapHeads, Members.addToken_mapHeads]

variable (g' : Grouping)

/-- The one place where the grouping counts: what was read in one of them is read again. -/
theorem closeHeading_reread (stack : List Frame) (block : OpenBlock) (kind : ClauseKind)
    (directive : Token) (taken : List Token) :
    closeHeading (Condition.ofTokens g) (stack.map (Frame.reread g))
        (block.reread g) kind directive taken
      = (closeHeading (Condition.ofTokens g') stack block kind directive
          taken).map (List.map (Frame.reread g)) := by
  unfold closeHeading
  split
  · rfl
  rcases Condition.ofTokens_cases taken with ⟨l, _, hread⟩ | hkept | ⟨f, hfault⟩
  · rw [hread g, hread g']
    simp [Except.map, Frame.reread, ClauseHead.reread, hread, Except.toOption]
  · rw [hkept g, hkept g']
    simp [Except.map, Frame.reread, ClauseHead.reread, hkept, Except.toOption]
  · rw [hfault g, hfault g']
    rfl

/-- **One token** does in one grouping what it does in the other. -/
theorem step_reread (s : State) (t : Token) :
    step (Condition.ofTokens g) (s.reread g) t
      = (step (Condition.ofTokens g') s t).map (State.reread g) := by
  cases s with
  | listing stack m => exact stepList_reread g stack m t
  | heading stack block kind directive taken depth =>
      simp only [State.reread, step]
      split
      · rw [closeHeading_reread g g']
        cases closeHeading (Condition.ofTokens g') stack block kind directive
            taken with
        | error e => rfl
        | ok inner => exact stepList_reread g inner .empty t
      · rfl

/-- **So does a run of them.** -/
theorem foldlM_reread (ts : List Token) (s : State) :
    ts.foldlM (step (Condition.ofTokens g)) (s.reread g)
      = (ts.foldlM (step (Condition.ofTokens g')) s).map (State.reread g) := by
  induction ts generalizing s with
  | nil => rfl
  | cons t ts ih =>
      rw [List.foldlM_cons, List.foldlM_cons, step_reread g g']
      cases step (Condition.ofTokens g') s t with
      | error e => rfl
      | ok s' => exact ih s'

theorem finish_reread (s : State) (eof : Token) :
    finish (Condition.ofTokens g) (s.reread g) eof
      = (finish (Condition.ofTokens g') s eof).map
          (SourceTree.mapHeads (ClauseHead.reread g)) := by
  -- what is open at the end is refused, whatever the conditions in it
  have hclose : ∀ (stack : List Frame) (m : Members),
      finish (Condition.ofTokens g) (State.reread g (.listing stack m)) eof
        = (finish (Condition.ofTokens g') (.listing stack m) eof).map
            (SourceTree.mapHeads (ClauseHead.reread g)) := by
    intro stack m
    cases stack with
    | nil =>
        show Except.ok _ = Except.ok _
        rw [m.finish_mapHeads]
        rfl
    | cons frame up => cases frame <;> rfl
  cases s with
  | listing stack m => exact hclose stack m
  | heading stack block kind directive taken depth =>
      have hheading := closeHeading_reread g g' stack block kind directive taken
      unfold finish
      simp only [State.reread, hheading]
      cases closeHeading (Condition.ofTokens g') stack block kind directive
          taken with
      | error e => rfl
      | ok inner => exact hclose inner .empty

theorem assemble_reread (l : Lexed) :
    assemble (Condition.ofTokens g) l
      = (assemble (Condition.ofTokens g') l).map
          (SourceTree.mapHeads (ClauseHead.reread g)) := by
  have hrun := foldlM_reread g g' l.tokens (.listing [] .empty)
  have hstart : State.reread g (.listing [] .empty) = .listing [] .empty := rfl
  rw [hstart] at hrun
  unfold assemble
  rw [hrun]
  cases l.tokens.foldlM (step (Condition.ofTokens g')) (.listing [] .empty) with
  | error e => rfl
  | ok s => exact finish_reread g g' s l.eof

end Assembly

/-- **A source in another grouping** is the same tree with every condition read again, or is
refused in the same words. -/
theorem SourceTree.parse_reread (g g' : Grouping) (source : Text) :
    SourceTree.parse g source
      = (SourceTree.parse g' source).map (SourceTree.mapHeads (ClauseHead.reread g)) := by
  unfold SourceTree.parse SourceTree.parseWith
  cases tokenize source with
  | error f => rfl
  | ok l => exact assemble_reread g g' l

theorem SourceTree.bare_reread (g : Grouping) (t : SourceTree) :
    (t.mapHeads (ClauseHead.reread g)).bare = t.bare := by
  have hmembers := mapHeadsOfNodes_mapHeadsOfNodes (ClauseHead.reread g) ClauseHead.bare t.members
  show SourceTree.mk (mapHeadsOfNodes _ (mapHeadsOfNodes _ t.members)) t.eof = _
  rw [hmembers]
  rfl

/-! ## The same names everywhere -/

/-- The names that the conditions of a block mention, or the obstacle to them. Only a block
has any. -/
def Node.flagNames : Node → Option (Except Obstacle (List Text))
  | .block cs _ => some (Condition.namesAll (conditionsOf cs))
  | _ => none

theorem isBlockOn_iff_flagNames {flag : Text} {n : Node} :
    IsBlockOn flag n ↔ ∃ ns, n.flagNames = some (.ok ns) ∧ ∀ m, m ∈ ns ↔ m = flag := by
  cases n with
  | block cs ending =>
      show FlagsAre flag cs ↔ _
      simp only [FlagsAre, Node.flagNames, Option.some.injEq]
  | item kind parts => simp [IsBlockOn, Node.flagNames]
  | placeholder t => simp [IsBlockOn, Node.flagNames]

/-- The nodes of a block and below it: the block, and those of each body. -/
theorem map_node_sites_block (cs : List Clause) (ending : Token) :
    (Node.block cs ending).sites.map Site.node
      = .block cs ending :: cs.flatMap fun c => (sitesOfNodes c.body).map Site.node := by
  have hinside : ∀ b : List Site × Nat,
      (b.1.map (Site.inside cs b.2)).map Site.node = b.1.map Site.node := by
    intro b
    rw [List.map_map]
    rfl
  rw [Node.sites, List.map_cons, List.map_flatMap]
  simp only [hinside]
  rw [List.flatMap_def, map_zipIdx_fst (List.map Site.node), sitesOfBodies_eq, List.map_map]
  rfl

/-- Other opening lines change the nodes of a list where they stand. -/
theorem map_node_mapHeads (f : ClauseHead → ClauseHead) (ns : List Node) :
    (sitesOfNodes (mapHeadsOfNodes f ns)).map Site.node
      = (sitesOfNodes ns).map fun s => s.node.mapHeads f := by
  induction ns using memberInduction with
  | nil => rfl
  | item kind parts rest ihGroups ihRest =>
      have hparts : (sitesOfParts (mapHeadsOfParts f parts)).map Site.node
          = (sitesOfParts parts).map fun s => s.node.mapHeads f := by
        rw [mapHeadsOfParts_eq, sitesOfParts_eq, sitesOfParts_eq, List.flatMap_map,
          List.map_flatMap, List.map_flatMap]
        apply List.flatMap_congr
        intro p hp
        cases p with
        | token t => rfl
        | group opening members closing => exact ihGroups opening members closing hp
      simp only [mapHeadsOfNodes, sitesOfNodes, List.map_append, ihRest, Node.mapHeads, Node.sites,
        List.map_cons, hparts]
  | block cs ending rest ihBodies ihRest =>
      have hsites : (Node.block cs ending).sites.map (fun s => s.node.mapHeads f)
          = ((Node.block cs ending).sites.map Site.node).map (Node.mapHeads f) := by
        rw [List.map_map]
        rfl
      have hbodies : ((mapHeadsOfClauses f cs).flatMap fun c => (sitesOfNodes c.body).map Site.node)
          = cs.flatMap fun c => ((sitesOfNodes c.body).map Site.node).map (Node.mapHeads f) := by
        rw [mapHeadsOfClauses_eq, List.flatMap_map]
        apply List.flatMap_congr
        intro c hc
        rw [c.body_mapHeads, ihBodies c hc, List.map_map]
        rfl
      rw [mapHeadsOfNodes, sitesOfNodes, sitesOfNodes, List.map_append, List.map_append, ihRest,
        hsites, Node.mapHeads, map_node_sites_block, map_node_sites_block, hbodies, List.map_cons,
        List.map_flatMap]
      rfl
  | placeholder t rest ihRest =>
      simp only [mapHeadsOfNodes, sitesOfNodes, List.map_append, ihRest, Node.mapHeads, Node.sites,
        List.map_cons, List.map_nil]

/-- The conditions of a block that was read in one grouping have the same names in another. -/
theorem flagNames_reread (g g' : Grouping) {n : Node}
    (h : n.IsBuilt (Condition.ofTokens g')) :
    (n.mapHeads (ClauseHead.reread g)).flagNames = n.flagNames := by
  cases n with
  | item kind parts => rfl
  | placeholder t => rfl
  | block cs ending =>
      have hhead : ∀ c ∈ cs, (c.head.reread g).condition.map Condition.names
          = c.head.condition.map Condition.names := by
        intro c hc
        obtain ⟨_, hcondition, hfallback, _⟩ := h.2.2 c hc
        by_cases hkind : c.head.kind = .fallback
        · rw [ClauseHead.reread, (hfallback hkind).2]
          rfl
        · obtain ⟨_, e, hread, he⟩ := hcondition hkind
          have hnames := Condition.names_ofTokens g g' c.head.tokens
          rw [hread] at hnames
          obtain ⟨e', hread', heq⟩ := exists_of_map_eq_ok hnames
          rw [ClauseHead.reread, he, Option.bind_some, hread']
          exact congrArg some heq
      have hnames : (conditionsOf (mapHeadsOfClauses (ClauseHead.reread g) cs)).map Condition.names
          = (conditionsOf cs).map Condition.names := by
        rw [mapHeadsOfClauses_eq, conditionsOf, conditionsOf, List.filterMap_map,
          List.map_filterMap, List.map_filterMap]
        apply List.filterMap_congr
        intro c hc
        rw [Function.comp_apply, c.head_mapHeads]
        exact hhead c hc
      exact congrArg some (Condition.namesAll_congr hnames)

/-- **Every block collects the same names** in both groupings. -/
theorem flagNames_of_parse {g' : Grouping} {source : Text} {t : SourceTree}
    (h : SourceTree.parse g' source = .ok t) (g : Grouping) :
    (t.mapHeads (ClauseHead.reread g)).sites.map (fun s => s.node.flagNames)
      = t.sites.map fun s => s.node.flagNames := by
  obtain ⟨l, _, hassemble⟩ := exists_of_parse h
  have hbuilt := isParsed_of_assemble hassemble
  have hnodes := congrArg (List.map Node.flagNames)
    (map_node_mapHeads (ClauseHead.reread g) t.members)
  rw [List.map_map, List.map_map] at hnodes
  refine hnodes.trans ?_
  apply List.map_congr_left
  intro s hs
  exact flagNames_reread g g' (hbuilt s hs).1

/-- Whether a tree is edited is decided by the names of its blocks. -/
theorem SourceTree.isEdited_congr {t u : SourceTree}
    (h : t.sites.map (fun s => s.node.flagNames) = u.sites.map fun s => s.node.flagNames)
    (flag : Text) : t.isEdited flag = u.isEdited flag := by
  have hedited : ∀ v : SourceTree, v.isEdited flag = true ↔
      ∃ x ∈ v.sites.map (fun s => s.node.flagNames), ∃ ns, x = some (.ok ns)
        ∧ ∀ m, m ∈ ns ↔ m = flag := by
    intro v
    rw [v.isEdited_iff]
    simp only [isBlockOn_iff_flagNames, List.mem_map, exists_exists_and_eq_and]
  rw [Bool.eq_iff_iff, hedited t, hedited u, h]

/-! ## Both groupings -/

/-- **The decision to edit does not depend on the grouping.** A source is refused in one
grouping if and only if it is refused in the other, in the same words. Otherwise the two
trees are equal but for what their conditions were read as, the blocks in the same places
collect the same names or meet the same obstacle, and each flag edits both or neither. What
is left may differ, for the clause that holds in one grouping need not hold in the other. -/
theorem parse_in_both_groupings :
    (∀ source : Text,
      match SourceTree.parse .sequential source, SourceTree.parse .swift source with
      | .ok t, .ok u =>
        t.bare = u.bare
          ∧ t.sites.map (fun s => s.node.flagNames) = u.sites.map (fun s => s.node.flagNames)
          ∧ ∀ flag, t.isEdited flag = u.isEdited flag
      | .error r, .error r' => r = r'
      | _, _ => False)
    ∧ ∃ source flag t u, SourceTree.parse .sequential source = .ok t
        ∧ SourceTree.parse .swift source = .ok u
        ∧ (t.resolve flag).render ≠ (u.resolve flag).render := by
  constructor
  · intro source
    rw [SourceTree.parse_reread .swift .sequential]
    cases hparse : SourceTree.parse .sequential source with
    | error r => rfl
    | ok t =>
        have hnames := flagNames_of_parse hparse .swift
        refine ⟨(t.bare_reread .swift).symm, hnames.symm, fun flag => ?_⟩
        exact SourceTree.isEdited_congr hnames.symm flag
  · -- `(A || A) && !A` is false with the flag on, and `A || (A && !A)` is true
    have hsequential : (SourceTree.parse .sequential
        "#if A || A && !A\nx\n#else\ny\n#endif".toList).toOption.any
          (fun t => (t.resolve "A".toList).render == "y".toList) = true := by decide +kernel
    have hswift : (SourceTree.parse .swift
        "#if A || A && !A\nx\n#else\ny\n#endif".toList).toOption.any
          (fun t => (t.resolve "A".toList).render == "x".toList) = true := by decide +kernel
    obtain ⟨t, ht, hy⟩ := exists_of_parse_any hsequential
    obtain ⟨u, hu, hx⟩ := exists_of_parse_any hswift
    refine ⟨_, "A".toList, t, u, ht, hu, ?_⟩
    rw [eq_of_beq hy, eq_of_beq hx]
    decide

end Unflag
