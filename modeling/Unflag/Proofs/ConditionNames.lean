/-
The names of a condition, whatever its grouping.

A grouping decides which operands a connective takes. It moves no leaf: read from left to
right, the leaves of a condition are the operands of its level in the order of the text, in
both groupings. The names of a condition are collected in that order and so is the first
obstacle on the way, so `names` cannot tell the groupings apart. Nor can it tell whether a
condition was read at all: what one grouping cannot read, the other cannot read either, and
both keep the same unsupported text (`names_ofTokens`).

The second half follows a name back. It comes from a name among the pieces, and that from a
token with this very text (`exists_token_of_mem_names`).
-/
import Unflag.Proofs.ConditionGrammar

set_option autoImplicit false

namespace Unflag

namespace Condition

/-! ## Names one behind the other -/

/-- The names of two readings, one behind the other. The first obstacle is the answer. -/
def thenNames (a b : Except Obstacle (List Text)) : Except Obstacle (List Text) :=
  match a with
  | .error o => .error o
  | .ok ls =>
    match b with
    | .error o => .error o
    | .ok rs => .ok (ls ++ rs)

theorem thenNames_assoc (a b c : Except Obstacle (List Text)) :
    thenNames (thenNames a b) c = thenNames a (thenNames b c) := by
  cases a with
  | error o => rfl
  | ok ls =>
      cases b with
      | error o => rfl
      | ok rs =>
          cases c with
          | error o => rfl
          | ok ts => simp only [thenNames, List.append_assoc]

theorem thenNames_eq_ok {a b : Except Obstacle (List Text)} {ns : List Text}
    (h : thenNames a b = .ok ns) : ∃ ls rs, a = .ok ls ∧ b = .ok rs ∧ ns = ls ++ rs := by
  cases a with
  | error o => exact absurd h (by simp [thenNames])
  | ok ls =>
      cases b with
      | error o => exact absurd h (by simp [thenNames])
      | ok rs => exact ⟨ls, rs, rfl, rfl, (Except.ok.inj h).symm⟩

theorem names_binary (op : Connective) (l r : Condition) :
    (Condition.binary op l r).names = thenNames l.names r.names := by
  rw [names]
  rfl

theorem namesAll_cons (e : Condition) (es : List Condition) :
    namesAll (e :: es) = thenNames e.names (namesAll es) := by
  rw [namesAll]
  rfl

/-- The names of several conditions are made of the names of each. -/
theorem namesAll_congr {es ds : List Condition} (h : es.map names = ds.map names) :
    namesAll es = namesAll ds := by
  induction es generalizing ds with
  | nil =>
      have hnil : ds = [] := by simpa using h.symm
      rw [hnil]
  | cons e es ih =>
      cases ds with
      | nil => exact absurd h (by simp)
      | cons d ds =>
          rw [List.map_cons, List.map_cons, List.cons.injEq] at h
          rw [namesAll_cons, namesAll_cons, h.1, ih h.2]

/-! ## One level -/

/-- An operand that joins a level brings its names behind those that are there, wherever in
the tree it goes to. -/
theorem names_extend (g : Grouping) (s : Option Condition × Condition)
    (k : Connective × Condition) :
    (joinOr (extend g s k).1 (extend g s k).2).names
      = thenNames (joinOr s.1 s.2).names k.2.names := by
  obtain ⟨done, v⟩ := s
  unfold extend
  by_cases hpower : g.power k.1 = g.power .and
  · rw [if_pos hpower]
    cases done with
    | none => exact names_binary k.1 v k.2
    | some d =>
        -- the operand goes below what waits, and what waits stays in front of it
        show (Condition.binary .or d (.binary k.1 v k.2)).names
          = thenNames (Condition.binary .or d v).names k.2.names
        rw [names_binary, names_binary, names_binary, thenNames_assoc]
  · rw [if_neg hpower]
    exact names_binary .or (joinOr done v) k.2

/-- **The names of a level** are those of its operands in the order of the text. -/
theorem names_joined (g : Grouping) (first : Condition) (rest : List (Connective × Condition)) :
    (joined g first rest).names
      = (rest.map fun k => k.2.names).foldl thenNames first.names := by
  rw [joined_eq]
  induction rest using List.reverseRecOn with
  | nil => rfl
  | append_singleton rest k ih =>
      rw [progress_concat, names_extend, ih, List.map_append, List.foldl_append]
      rfl

/-- The names of an operand are the same in every grouping. -/
theorem Operand.names_read (u : Operand) (g g' : Grouping) :
    (u.read g).names = (u.read g').names := by
  induction u using operandInduction with
  | name t => rfl
  | int t => rfl
  | unsupported t => rfl
  | not u ih => exact ih
  | paren first rest ihFirst ihRest =>
      show (joined g (first.read g) (readLinks g rest)).names
        = (joined g' (first.read g') (readLinks g' rest)).names
      rw [names_joined, names_joined, readLinks_eq, readLinks_eq, List.map_map, List.map_map,
        ihFirst]
      congr 1
      apply List.map_congr_left
      intro k hk
      exact ihRest k hk

/-- **So are those of a whole level.** -/
theorem Level.names_read (l : Level) (g g' : Grouping) :
    (l.read g).names = (l.read g').names := by
  rw [Level.read, Level.read, names_joined, names_joined, readLinks_eq, readLinks_eq,
    List.map_map, List.map_map, l.first.names_read g g']
  congr 1
  apply List.map_congr_left
  intro k _
  exact k.2.names_read g g'

/-! ## Conditions read from tokens -/

/-- **What becomes of tokens.** They are a condition, or they are kept as text, or a number among
them brings a fault, in every grouping alike. -/
theorem ofTokens_cases (ts : List Token) :
    (∃ l : Level, Piece.ofTokens? ts = some l.pieces ∧ ∀ g, ofTokens g ts = .ok (l.read g))
      ∨ (∀ g, ofTokens g ts = .ok (keep ts))
      ∨ ∃ f, ∀ g, ofTokens g ts = .error (.fault f) := by
  cases hpieces : Piece.ofTokens? ts with
  | none =>
      refine .inr (.inl fun g => ?_)
      rw [ofTokens, hpieces]
  | some ps =>
      have hread := ofTokens_eq hpieces
      rcases Reader.ofPieces_cases ps with ⟨l, rfl, hlevel⟩ | ⟨f, hfault⟩ | hrefused
      · exact .inl ⟨l, rfl, fun g => by rw [hread, hlevel]⟩
      · exact .inr (.inr ⟨f, fun g => by rw [hread, hfault]⟩)
      · exact .inr (.inl fun g => by rw [hread, hrefused])

/-- **The names of a condition do not depend on the grouping**, nor does the obstacle to
them, nor whether there is a condition at all. -/
theorem names_ofTokens (g g' : Grouping) (ts : List Token) :
    (ofTokens g ts).map names = (ofTokens g' ts).map names := by
  rcases ofTokens_cases ts with ⟨l, _, hread⟩ | hkept | ⟨f, hfault⟩
  · rw [hread g, hread g', Except.map, Except.map, l.names_read g g']
  · rw [hkept g, hkept g']
  · rw [hfault g, hfault g']

/-! ## Where a name comes from -/

/-- A name of a list of readings is a name of one of them. -/
theorem mem_of_foldl_thenNames {xs : List (Except Obstacle (List Text))}
    {a : Except Obstacle (List Text)} {ns : List Text} {n : Text}
    (h : xs.foldl thenNames a = .ok ns) (hn : n ∈ ns) :
    ∃ x ∈ a :: xs, ∃ ms, x = .ok ms ∧ n ∈ ms := by
  induction xs generalizing a with
  | nil => exact ⟨a, List.mem_cons_self, ns, h, hn⟩
  | cons x xs ih =>
      obtain ⟨y, hy, ms, rfl, hms⟩ := ih h
      rcases List.mem_cons.mp hy with hy | hy
      · obtain ⟨ls, rs, ha, hx, rfl⟩ := thenNames_eq_ok hy.symm
        rcases List.mem_append.mp hms with hms | hms
        · exact ⟨a, List.mem_cons_self, ls, ha, hms⟩
        · exact ⟨x, by simp, rs, hx, hms⟩
      · exact ⟨_, List.mem_cons_of_mem _ (List.mem_cons_of_mem _ hy), ms, rfl, hms⟩

/-- A name of a level is a name of one of its operands. -/
theorem mem_of_names_joined {g : Grouping} {first : Operand}
    {rest : List (Connective × Operand)} {ns : List Text} {n : Text}
    (h : (joined g (first.read g) (readLinks g rest)).names = .ok ns) (hn : n ∈ ns) :
    ∃ u, (u = first ∨ ∃ op, (op, u) ∈ rest) ∧ ∃ ms, (u.read g).names = .ok ms ∧ n ∈ ms := by
  rw [names_joined, readLinks_eq, List.map_map] at h
  obtain ⟨x, hx, ms, hms, hmem⟩ := mem_of_foldl_thenNames h hn
  rcases List.mem_cons.mp hx with hx | hx
  · exact ⟨first, .inl rfl, ms, hx ▸ hms, hmem⟩
  · obtain ⟨k, hk, hread⟩ := List.mem_map.mp hx
    exact ⟨k.2, .inr ⟨k.1, hk⟩, ms, hread.trans hms, hmem⟩

/-- The pieces of an operand of a level are pieces of the level. -/
theorem pieces_subset_level {first u : Operand} {rest : List (Connective × Operand)}
    (h : u = first ∨ ∃ op, (op, u) ∈ rest) :
    ∀ p ∈ u.pieces, p ∈ first.pieces ++ piecesOfLinks rest := by
  intro p hp
  rcases h with rfl | ⟨op, hop⟩
  · exact List.mem_append_left _ hp
  · apply List.mem_append_right
    rw [piecesOfLinks_eq]
    exact List.mem_flatMap.mpr ⟨(op, u), hop, List.mem_cons_of_mem _ hp⟩

/-- A name of an operand is a name among its pieces. -/
theorem Operand.name_mem_pieces {g : Grouping} (u : Operand) {ns : List Text} {n : Text}
    (h : (u.read g).names = .ok ns) (hn : n ∈ ns) : Piece.name n ∈ u.pieces := by
  induction u using operandInduction generalizing ns with
  | name t =>
      rw [Operand.read] at h
      split at h
      · cases h
        exact absurd hn List.not_mem_nil
      split at h
      · cases h
        exact absurd hn List.not_mem_nil
      · cases h
        rw [List.mem_singleton.mp hn]
        exact List.mem_cons_self
  | int t =>
      cases h
      exact absurd hn List.not_mem_nil
  | unsupported t => cases h
  | not u ih => exact List.mem_cons_of_mem _ (ih h hn)
  | paren first rest ihFirst ihRest =>
      obtain ⟨u, hu, ms, hms, hmem⟩ := mem_of_names_joined h hn
      have hpiece : Piece.name n ∈ u.pieces := by
        rcases hu with rfl | ⟨op, hop⟩
        · exact ihFirst hms hmem
        · exact ihRest (op, u) hop hms hmem
      rw [Operand.pieces, List.cons_append]
      apply List.mem_cons_of_mem
      exact List.mem_append_left _ (pieces_subset_level hu _ hpiece)

theorem Level.name_mem_pieces {g : Grouping} (l : Level) {ns : List Text} {n : Text}
    (h : (l.read g).names = .ok ns) (hn : n ∈ ns) : Piece.name n ∈ l.pieces := by
  obtain ⟨u, hu, ms, hms, hmem⟩ := mem_of_names_joined h hn
  exact pieces_subset_level hu _ (u.name_mem_pieces hms hmem)

/-- A name among the pieces of a token is the text of an identifier. -/
theorem Piece.name_of_ofToken? {t : Token} {ps : List Piece} {n : Text}
    (h : Piece.ofToken? t = some ps) (hn : Piece.name n ∈ ps) :
    t.kind = .identifier ∧ t.text = n := by
  unfold Piece.ofToken? at h
  split at h
  · next hkind =>
    cases h
    cases List.mem_singleton.mp hn
    exact ⟨hkind, rfl⟩
  · cases h; exact absurd hn (by simp)
  · cases h; exact absurd hn (by simp)
  · exact absurd hn (Piece.notMem_ofOperator? h n).2
  · split at h
    · cases h; exact absurd hn (by simp)
    split at h
    · cases h; exact absurd hn (by simp)
    · cases h
  · cases h

/-- So is a name among the pieces of several. -/
theorem Piece.name_of_ofTokens? {ts : List Token} {ps : List Piece} {n : Text}
    (h : Piece.ofTokens? ts = some ps) (hn : Piece.name n ∈ ps) :
    ∃ t ∈ ts, t.kind = .identifier ∧ t.text = n := by
  rcases Piece.exists_token_of_mem h hn with ⟨text, htext⟩ | ⟨t, ht, qs, hqs, hmem⟩
  · cases htext
  · exact ⟨t, ht, Piece.name_of_ofToken? hqs hmem⟩

/-- **Every name of a condition is the text of one of its tokens.** -/
theorem exists_token_of_mem_names {g : Grouping} {ts : List Token} {e : Condition}
    {ns : List Text} {n : Text} (he : ofTokens g ts = .ok e) (h : e.names = .ok ns)
    (hn : n ∈ ns) : ∃ t ∈ ts, t.text = n := by
  rcases ofTokens_cases ts with ⟨l, hpieces, hread⟩ | hkept | ⟨f, hfault⟩
  · rw [hread g] at he
    cases he
    obtain ⟨t, ht, _, htext⟩ := Piece.name_of_ofTokens? hpieces (l.name_mem_pieces h hn)
    exact ⟨t, ht, htext⟩
  · rw [hkept g] at he
    cases he
    cases h
  · rw [hfault g] at he
    cases he

end Condition

end Unflag
