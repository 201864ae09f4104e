/-
The first token of a node.

Three functions say separately which token a node starts with: one looks it up, one puts another
one in its place, and the third lists all tokens. A body that moves up into the place of its block
is joined to what stands in front of it by the first two, and what becomes of the text is read off
the third, so they have to mean the same token, whatever the node starts with: a token or a brace
group of an item, the directive of a block, or a placeholder.

A node that has a first token is that token with the rest of the node around it, and the three
functions are told about such a node in one place (`Node.HasFirst.exists_around`). Then the first
token is a place in the list of tokens: what is put there is found there, what is found there may be
put back, only the last token put there counts, and no other token is touched
(`Node.first_token_place`). Every node that the parser makes is such a node, at any depth, and so is
every node that any passes leave (`hasFirst_through_passes`).
-/
import Unflag.Proofs.Pruning
import Unflag.Proofs.WellFormed

set_option autoImplicit false

namespace Unflag

namespace Node

/-- A node that has a first token: an item with a part, a block with a clause, or a placeholder. -/
def HasFirst : Node → Prop
  | .item _ parts => parts ≠ []
  | .block cs _ => cs ≠ []
  | .placeholder _ => True

variable {n : Node}

/-- A node is its first token and what stands around it, which no other first token changes. -/
theorem HasFirst.exists_around (h : n.HasFirst) :
    ∃ (around : Token → Node) (u : Token) (rest : List Token), n = around u
      ∧ ∀ t, (around t).firstToken? = some t ∧ (around t).tokens = t :: rest
        ∧ ∀ s, (around s).withFirstToken t = around t := by
  cases n with
  | item kind parts =>
      obtain ⟨p, r, rfl⟩ := List.exists_cons_of_ne_nil h
      cases p with
      | token u =>
          exact ⟨fun t => .item kind (.token t :: r), u, _, rfl, fun t => ⟨rfl, rfl, fun s => rfl⟩⟩
      | group opening members closing =>
          exact ⟨fun t => .item kind (.group t members closing :: r), opening, _, rfl,
            fun t => ⟨rfl, rfl, fun s => rfl⟩⟩
  | block cs ending =>
      obtain ⟨⟨head, body⟩, r, rfl⟩ := List.exists_cons_of_ne_nil h
      exact ⟨fun t => .block (.mk { head with directive := t } body :: r) ending, head.directive,
        head.tokens ++ tokensOfNodes body ++ tokensOfClauses r ++ [ending], rfl,
        fun t => ⟨rfl, rfl, fun s => rfl⟩⟩
  | placeholder u =>
      exact ⟨.placeholder, u, [], rfl, fun t => ⟨rfl, rfl, fun s => rfl⟩⟩

end Node

/-! ## Where first tokens are found -/

theorem Node.IsWellFormed.hasFirst {n : Node} (h : n.IsWellFormed) : n.HasFirst := by
  cases n with
  | item kind parts => exact h.1
  | block cs ending =>
      obtain ⟨c, r, rfl, _⟩ := h.first
      exact List.cons_ne_nil c r
  | placeholder t => trivial

/-- **Every node has a first token** in a parsed tree, at any depth, and in every tree that any
passes make of it. -/
theorem hasFirst_through_passes {g : Grouping} {source : Text} {tree : SourceTree}
    (h : SourceTree.parse g source = .ok tree) (flags : List Text) :
    Everywhere Node.HasFirst (tree.resolveAll flags).members := by
  have hkept : ∀ t : SourceTree, Everywhere Node.IsWellFormed t.members →
      Everywhere Node.IsWellFormed (t.resolveAll flags).members := by
    induction flags with
    | nil => exact fun t ht => ht
    | cons flag r ih => exact fun t ht => ih (t.resolve flag) (isWellFormed_resolveNodes ht)
  obtain ⟨l, _, hassemble⟩ := exists_of_parse h
  have hparsed : Everywhere Node.IsWellFormed tree.members :=
    fun s hs => (Assembly.isParsed_of_assemble hassemble s hs).1.isWellFormed
  exact fun s hs => (hkept tree hparsed s hs).hasFirst

/-! ## What a first token is -/

/-- **The first token is a place in the list of tokens.** The token that a node starts with is the
head of its tokens. Put into its place, any token is found there, with the other tokens of the node
behind it; the one that was there leaves the node as it is; and a second one covers the first. -/
theorem Node.first_token_place {n : Node} (h : n.HasFirst) :
    ∃ u, n.firstToken? = some u ∧ n.tokens.head? = some u ∧ n.withFirstToken u = n
      ∧ ∀ t, (n.withFirstToken t).firstToken? = some t
        ∧ (n.withFirstToken t).tokens = t :: n.tokens.tail
        ∧ ∀ s, (n.withFirstToken s).withFirstToken t = n.withFirstToken t := by
  obtain ⟨around, u, rest, rfl, haround⟩ := h.exists_around
  obtain ⟨hfirst, htokens, hself⟩ := haround u
  have hwith : ∀ t, (around u).withFirstToken t = around t := fun t => (haround t).2.2 u
  refine ⟨u, hfirst, by rw [htokens]; rfl, hself u, fun t => ?_⟩
  rw [hwith t, htokens]
  refine ⟨(haround t).1, (haround t).2.1, fun s => ?_⟩
  rw [hwith s, (haround t).2.2 s]

/-- A pass leaves an item that starts with a brace group, in which a block has been resolved. -/
theorem Node.first_token_place_group :
    ∃ tree n u, SourceTree.parse .swift "\x7b\n#if A\nx\n#endif\n\x7d\ny\n".toList = .ok tree
      ∧ (tree.resolveAll ["A".toList]).members.head? = some n ∧ n.HasFirst
      ∧ n.render = "\x7b\nx\n\x7d".toList
      ∧ n.firstToken? = some u ∧ n.tokens.head? = some u ∧ n.withFirstToken u = n
      ∧ ∀ t, (n.withFirstToken t).tokens = t :: n.tokens.tail := by
  have hparse : (SourceTree.parse .swift "\x7b\n#if A\nx\n#endif\n\x7d\ny\n".toList
      ).toOption.any (fun tree => (tree.resolveAll ["A".toList]).members.head?.any fun n =>
        n.render == "\x7b\nx\n\x7d".toList) = true := by
    decide +kernel
  obtain ⟨tree, htree, hany⟩ := exists_of_parse_any hparse
  obtain ⟨n, hn, hrender⟩ := (Option.any_eq_true _ _).mp hany
  have hmem : n ∈ (tree.resolveAll ["A".toList]).members := List.mem_of_mem_head? hn
  have hfirst : n.HasFirst :=
    (hasFirst_through_passes htree ["A".toList]).of_mem n hmem
  obtain ⟨u, hu, hhead, hself, hplace⟩ := Node.first_token_place hfirst
  exact ⟨tree, n, u, htree, hn, hfirst, by simpa using hrender, hu, hhead, hself,
    fun t => (hplace t).2.1⟩

end Unflag
