/-
The grammar of conditions.

A condition is written in levels. A level is a chain of operands with `&&` or `||` between
them, and an operand is a leaf, a negated operand or a level between parentheses:

    level   ::= operand (connective operand)*
    operand ::= ! operand | ( level ) | name | integer | unsupported

Nothing in that says which connective binds tighter. The trees of this grammar are therefore
the same for both groupings, and a grouping is a way to read a level: from left to right, or
by first folding each run of operands with `&&` between them.

The reader is a machine with a stack and knows nothing of levels. Two runs of it are followed
here. Forwards: on the pieces of a tree the machine ends with what the tree reads as, whatever
was on the stack below, or stops at the first number that has no value. Backwards: whatever the
machine has read is the start of a level, because what its stack waits for is a level that has
not been written to its end; and what it accepts is a whole one. So a number without a value
stops it exactly if the pieces up to it can go on to a level, which is the same in both
groupings (`ofPieces_eq_fault_iff`). The value of the second run is the value of the first, so
it is not computed twice.
-/
import Unflag.Condition.Grouping
import Unflag.Proofs.IntegerLiteral

set_option autoImplicit false

namespace Unflag

namespace Condition

/-! ## Trees -/

/-- An operand of a condition as it is written. -/
inductive Operand where
  | name (text : Text)
  | int (text : Text)
  | unsupported (text : Text)
  | not (operand : Operand)
  /-- A level between parentheses. -/
  | paren (first : Operand) (rest : List (Connective × Operand))

mutual

/-- The pieces of an operand. -/
def Operand.pieces : Operand → List Piece
  | .name t => [.name t]
  | .int t => [.int t]
  | .unsupported t => [.unsupported t]
  | .not u => .bang :: u.pieces
  | .paren first rest => .opening :: (first.pieces ++ piecesOfLinks rest) ++ [.closing]

/-- The pieces of a connective and the operand behind it. -/
def piecesOfLink : Connective × Operand → List Piece
  | (op, u) => .connective op :: u.pieces

/-- The pieces of what follows the first operand of a level. -/
def piecesOfLinks : List (Connective × Operand) → List Piece
  | [] => []
  | k :: r => piecesOfLink k ++ piecesOfLinks r

end

/-- A level: a first operand, and operands with a connective in front of each. -/
structure Level where
  first : Operand
  rest : List (Connective × Operand)

/-- The pieces of a level. -/
def Level.pieces (l : Level) : List Piece := l.first.pieces ++ piecesOfLinks l.rest

/-! ## Two ways of reading -/

/-- Operands folded to the left in the order of the text. -/
def foldAll (first : Condition) (rest : List (Connective × Condition)) : Condition :=
  rest.foldl (fun left k => .binary k.1 left k.2) first

/-- The runs of operands with `&&` between them, as long as they can be, each folded to the
left: the first run, and those behind a `||`. -/
def runs (first : Condition) : List (Connective × Condition) → Condition × List Condition
  | [] => (first, [])
  | (.and, e) :: r => runs (.binary .and first e) r
  | (.or, e) :: r => (first, (runs e r).1 :: (runs e r).2)

/-- What a number reads as. One that has no value is never read, and is taken for zero. -/
def valueOf (t : Text) : Int :=
  match integerOf t with
  | .ok v => v
  | .error _ => 0

/-- The operands of a level put together. -/
def joined (g : Grouping) (first : Condition) (rest : List (Connective × Condition)) : Condition :=
  match g with
  | .sequential => foldAll first rest
  | .swift => (runs first rest).2.foldl (.binary .or) (runs first rest).1

mutual

/-- What an operand reads as. -/
def Operand.read (g : Grouping) : Operand → Condition
  | .name t =>
    if t == "true".toList then .bool true
    else if t == "false".toList then .bool false else .name t
  | .int t => .int (valueOf t)
  | .unsupported t => .unsupported t
  | .not u => .not (u.read g)
  | .paren first rest => .paren (joined g (first.read g) (readLinks g rest))

/-- What a connective and its operand read as. -/
def readLink (g : Grouping) : Connective × Operand → Connective × Condition
  | (op, u) => (op, u.read g)

/-- What the operands behind the first one read as. -/
def readLinks (g : Grouping) : List (Connective × Operand) → List (Connective × Condition)
  | [] => []
  | k :: r => readLink g k :: readLinks g r

end

/-- What a level reads as. -/
def Level.read (g : Grouping) (l : Level) : Condition :=
  joined g (l.first.read g) (readLinks g l.rest)

/-- No `&&` comes after a `||`. -/
def AndsFirst (ops : List Connective) : Prop := ops.Pairwise fun a b => ¬ (a = .or ∧ b = .and)

mutual

/-- At no level of an operand an `&&` comes after a `||`. -/
def Operand.IsOrdered : Operand → Prop
  | .not u => u.IsOrdered
  | .paren first rest => AndsFirst (rest.map Prod.fst) ∧ first.IsOrdered ∧ LinksOrdered rest
  | _ => True

/-- The same of the operand behind a connective. -/
def LinkOrdered : Connective × Operand → Prop
  | (_, u) => u.IsOrdered

/-- The same of every operand behind the first one. -/
def LinksOrdered : List (Connective × Operand) → Prop
  | [] => True
  | k :: r => LinkOrdered k ∧ LinksOrdered r

end

/-- At no level of a condition an `&&` comes after a `||`. -/
def Level.IsOrdered (l : Level) : Prop :=
  AndsFirst (l.rest.map Prod.fst) ∧ l.first.IsOrdered ∧ LinksOrdered l.rest

/-! ## Lists of links -/

theorem piecesOfLinks_eq (ks : List (Connective × Operand)) :
    piecesOfLinks ks = ks.flatMap piecesOfLink := by
  induction ks with
  | nil => rfl
  | cons k r ih => rw [piecesOfLinks, ih, List.flatMap_cons]

theorem readLinks_eq (g : Grouping) (ks : List (Connective × Operand)) :
    readLinks g ks = ks.map fun k => (k.1, k.2.read g) := by
  induction ks with
  | nil => rfl
  | cons k r ih =>
      obtain ⟨op, u⟩ := k
      rw [readLinks, ih, List.map_cons, readLink]

theorem linksOrdered_iff (ks : List (Connective × Operand)) :
    LinksOrdered ks ↔ ∀ k ∈ ks, k.2.IsOrdered := by
  induction ks with
  | nil => simp [LinksOrdered]
  | cons k r ih =>
      obtain ⟨op, u⟩ := k
      rw [LinksOrdered, ih, List.forall_mem_cons, LinkOrdered]

/-- **Induction over operands.** For a level between parentheses the property may be assumed
of each of its operands. -/
@[elab_as_elim]
theorem operandInduction {P : Operand → Prop} (name : ∀ t, P (.name t)) (int : ∀ t, P (.int t))
    (unsupported : ∀ t, P (.unsupported t)) (not : ∀ u, P u → P (.not u))
    (paren : ∀ first rest, P first → (∀ k ∈ rest, P k.2) → P (.paren first rest))
    (u : Operand) : P u := by
  refine @Operand.rec P (fun ks => ∀ k ∈ ks, P k.2) (fun k => P k.2) name int unsupported not
    paren ?_ ?_ ?_ u
  · exact fun k hk => absurd hk List.not_mem_nil
  · exact fun k r hk hr => List.forall_mem_cons.mpr ⟨hk, hr⟩
  · exact fun op u hu => hu

/-! ## The level that is being read -/

/-- Conditions joined by `||`, if there is anything in front. -/
def joinOr : Option Condition → Condition → Condition
  | none, v => v
  | some d, v => .binary .or d v

/-- A level read up to an operand: what is settled in front of the last `||`, if it waits
for what binds tighter, and what is being put together behind it. -/
def extend (g : Grouping) (s : Option Condition × Condition) (k : Connective × Condition) :
    Option Condition × Condition :=
  if g.power k.1 = g.power .and then (s.1, .binary k.1 s.2 k.2)
  else (some (joinOr s.1 s.2), k.2)

/-- A whole level, read from left to right. -/
def progress (g : Grouping) (first : Condition) (rest : List (Connective × Condition)) :
    Option Condition × Condition :=
  rest.foldl (extend g) (none, first)

theorem progress_concat (g : Grouping) (first : Condition) (rest : List (Connective × Condition))
    (k : Connective × Condition) :
    progress g first (rest ++ [k]) = extend g (progress g first rest) k := by
  rw [progress, progress, List.foldl_append]
  rfl

/-- Reading from left to right gives what the grouping says. -/
theorem joined_eq (g : Grouping) (first : Condition) (rest : List (Connective × Condition)) :
    joined g first rest = joinOr (progress g first rest).1 (progress g first rest).2 := by
  cases g with
  | sequential =>
      -- every connective binds like every other, so nothing ever waits
      have hfold : ∀ (rest : List (Connective × Condition)) (v : Condition),
          rest.foldl (extend .sequential) (none, v) = (none, foldAll v rest) := by
        intro rest
        induction rest with
        | nil => exact fun v => rfl
        | cons k r ih => exact fun v => ih _
      rw [progress, hfold]
      rfl
  | swift =>
      have hfold : ∀ (rest : List (Connective × Condition)) (done : Option Condition)
          (v : Condition), (runs v rest).2.foldl (.binary .or) (joinOr done (runs v rest).1)
            = joinOr (rest.foldl (extend .swift) (done, v)).1
                (rest.foldl (extend .swift) (done, v)).2 := by
        intro rest
        induction rest with
        | nil => exact fun done v => rfl
        | cons k r ih =>
            intro done v
            obtain ⟨op, e⟩ := k
            cases op with
            | and => exact ih done (.binary .and v e)
            | or => exact ih (some (joinOr done v)) e
      exact hfold rest none first

/-- Nothing waits as long as no `||` has been read. -/
theorem progress_swift_fst (first : Condition) (rest : List (Connective × Condition)) :
    (progress .swift first rest).1 = none ↔ ∀ op ∈ rest.map Prod.fst, op = .and := by
  induction rest using List.reverseRecOn with
  | nil => simp [progress]
  | append_singleton rest k ih =>
      obtain ⟨op, e⟩ := k
      rw [progress_concat, List.map_append, List.forall_mem_append, ← ih]
      cases op <;> simp [extend, Grouping.power]

/-! ## Where the two groupings agree -/

theorem joined_swift_concat_or (first e : Condition) (rest : List (Connective × Condition)) :
    joined .swift first (rest ++ [(.or, e)]) = .binary .or (joined .swift first rest) e := by
  rw [joined_eq, joined_eq, progress_concat]
  rfl

theorem joined_swift_concat_and (first e : Condition) (rest : List (Connective × Condition)) :
    joined .swift first (rest ++ [(.and, e)]) =
      joinOr (progress .swift first rest).1 (.binary .and (progress .swift first rest).2 e) := by
  rw [joined_eq, progress_concat]
  rfl

theorem andsFirst_concat {ops : List Connective} {op : Connective} :
    AndsFirst (ops ++ [op]) ↔ AndsFirst ops ∧ (op = .and → ∀ a ∈ ops, a = .and) := by
  have hand : ∀ a : Connective, a ≠ .or ↔ a = .and := by
    intro a
    cases a <;> decide
  rw [AndsFirst, List.pairwise_append]
  simp only [List.pairwise_singleton, List.mem_singleton, forall_eq, true_and, not_and, AndsFirst]
  refine and_congr_right fun _ => ⟨fun h hop a ha => ?_, fun h a ha hor hop => ?_⟩
  · exact (hand a).mp fun hor => h a ha hor hop
  · exact (hand a).mpr (h hop a ha) hor

/-- **One level in both groupings.** The two readings are equal if and only if the operands
are and no `&&` comes after a `||`. -/
theorem foldAll_eq_joined_swift_iff {α : Type} (a b : α → Condition) (first first' : Condition)
    (rest : List (Connective × α)) :
    foldAll first (rest.map fun k => (k.1, a k.2))
        = joined .swift first' (rest.map fun k => (k.1, b k.2)) ↔
      AndsFirst (rest.map Prod.fst) ∧ first = first' ∧ ∀ k ∈ rest, a k.2 = b k.2 := by
  -- on the last operand: its connective is at the top of the reading from left to right
  induction rest using List.reverseRecOn with
  | nil => simp [foldAll, joined, runs, AndsFirst]
  | append_singleton rest k ih =>
      obtain ⟨op, x⟩ := k
      have hfold : foldAll first ((rest ++ [(op, x)]).map fun k => (k.1, a k.2))
          = .binary op (foldAll first (rest.map fun k => (k.1, a k.2))) (a x) := by
        rw [List.map_append, foldAll, List.foldl_append]
        rfl
      rw [hfold, List.map_append, List.map_append, List.map_singleton, List.map_singleton,
        andsFirst_concat, List.forall_mem_append]
      cases op with
      | or =>
          rw [joined_swift_concat_or, Condition.binary.injEq, ih]
          simp only [true_and, List.mem_singleton, forall_eq, reduceCtorEq, false_implies,
            and_true, and_assoc]
      | and =>
          have hops : (rest.map fun k => (k.1, b k.2)).map Prod.fst = rest.map Prod.fst := by
            rw [List.map_map]
            rfl
          have hwaits := progress_swift_fst first' (rest.map fun k => (k.1, b k.2))
          rw [hops] at hwaits
          rw [joined_swift_concat_and]
          rw [joined_eq] at ih
          cases hdone : (progress .swift first' (rest.map fun k => (k.1, b k.2))).1 with
          | none =>
              rw [hdone] at ih
              rw [joinOr, Condition.binary.injEq]
              simp only [joinOr] at ih
              rw [ih, and_iff_left fun _ => hwaits.mp hdone]
              simp only [true_and, List.mem_singleton, forall_eq, and_assoc]
          | some d =>
              -- an `&&` behind a `||`: the one reading has it at the top, the other below
              have hnot : ¬ ∀ op ∈ rest.map Prod.fst, op = Connective.and := by
                rw [← hwaits, hdone]
                simp
              simp only [joinOr, Condition.binary.injEq, reduceCtorEq, false_and, false_iff]
              exact fun h => hnot (h.1.2 trivial)

theorem Operand.read_eq_iff (u : Operand) :
    u.read .sequential = u.read .swift ↔ u.IsOrdered := by
  induction u using operandInduction with
  | name t => simp only [Operand.read, Operand.IsOrdered]
  | int t => simp [Operand.read, Operand.IsOrdered]
  | unsupported t => simp [Operand.read, Operand.IsOrdered]
  | not u ih => rw [Operand.read, Operand.read, Condition.not.injEq, ih, Operand.IsOrdered]
  | paren first rest ihFirst ihRest =>
      rw [Operand.read, Operand.read, Condition.paren.injEq, readLinks_eq, readLinks_eq]
      show foldAll _ _ = _ ↔ _
      rw [foldAll_eq_joined_swift_iff, ihFirst, Operand.IsOrdered, linksOrdered_iff]
      exact and_congr_right fun _ => and_congr_right fun _ => forall₂_congr ihRest

theorem Level.read_eq_iff (l : Level) : l.read .sequential = l.read .swift ↔ l.IsOrdered := by
  rw [Level.read, Level.read, readLinks_eq, readLinks_eq]
  show foldAll _ _ = _ ↔ _
  rw [foldAll_eq_joined_swift_iff, Level.IsOrdered, linksOrdered_iff, Operand.read_eq_iff]
  exact and_congr_right fun _ => and_congr_right fun _ =>
    forall₂_congr fun k _ => k.2.read_eq_iff

/-! ## The reader on the pieces of a tree -/

namespace Reader

variable {g : Grouping}

/-- Closing in two goes is closing in one. -/
theorem reduce_reduce {low high : Nat} (h : low ≤ high) (stack : List Pending) (e : Condition) :
    reduce g low (reduce g high stack e).1 (reduce g high stack e).2 = reduce g low stack e := by
  induction stack generalizing e with
  | nil => rfl
  | cons p up ih =>
      cases p with
      | negation => rfl
      | parenthesis => rfl
      | operand op l =>
          by_cases hop : high ≤ g.power op
          · have hlow : low ≤ g.power op := h.trans hop
            rw [reduce, if_pos hop, ih, reduce, if_pos hlow]
          · rw [reduce, if_neg hop]

/-- A stack below which nothing can be closed: that of a level that has just begun. -/
def IsBase (base : List Pending) : Prop := base = [] ∨ ∃ up, base = .parenthesis :: up

theorem IsBase.reduce {base : List Pending} (h : IsBase base) (floor : Nat) (e : Condition) :
    Reader.reduce g floor base e = (base, e) := by
  rcases h with rfl | ⟨up, rfl⟩ <;> rfl

theorem IsBase.settle {base : List Pending} (h : IsBase base) (e : Condition) :
    Reader.settle base e = ⟨base, some e⟩ := by
  rcases h with rfl | ⟨up, rfl⟩ <;> rfl

/-- What waits on the stack for the rest of a level. -/
def waiting : Option Condition → List Pending
  | none => []
  | some d => [.operand .or d]

/-- The stack and the operand at hand stand for a level read so far: closing what binds as
tightly as `&&` leaves what waits, and what has been put together behind it. -/
structure StandsFor (g : Grouping) (base stack : List Pending) (e : Condition)
    (s : Option Condition × Condition) : Prop where
  closed : reduce g (g.power .and) stack e = (waiting s.1 ++ base, s.2)
  loose : ∀ d, s.1 = some d → g.power .or < g.power .and

variable {base stack : List Pending} {e : Condition} {s : Option Condition × Condition}

/-- What waits is closed by anything that binds as loosely as `||`. -/
theorem StandsFor.reduce (h : StandsFor g base stack e s) (hbase : IsBase base) {floor : Nat}
    (hfloor : floor ≤ g.power .or) : reduce g floor stack e = (base, joinOr s.1 s.2) := by
  have hand : g.power .or ≤ g.power .and := by cases g <;> decide
  rw [← reduce_reduce (hfloor.trans hand), h.closed]
  obtain ⟨done, v⟩ := s
  cases done with
  | none => exact hbase.reduce floor v
  | some d =>
      show Reader.reduce g floor (.operand .or d :: base) v = _
      rw [Reader.reduce, if_pos hfloor, hbase.reduce]
      rfl

/-- A connective and an operand take the level one step further. -/
theorem StandsFor.extend (h : StandsFor g base stack e s) (hbase : IsBase base) (op : Connective)
    (right : Condition) :
    StandsFor g base (.operand op (Reader.reduce g (g.power op) stack e).2
      :: (Reader.reduce g (g.power op) stack e).1) right (extend g s (op, right)) := by
  obtain ⟨done, v⟩ := s
  by_cases hop : g.power op = g.power .and
  · -- it goes on with what is being put together
    have hclosed := h.closed
    rw [Condition.extend, if_pos hop, hop, hclosed]
    refine ⟨?_, h.loose⟩
    rw [Reader.reduce, if_pos hop.ge]
    cases done with
    | none => exact hbase.reduce _ _
    | some d =>
        have hloose := h.loose d rfl
        show Reader.reduce g _ (.operand .or d :: base) _ = _
        rw [Reader.reduce, if_neg (by omega)]
        rfl
  · -- only `||` binds less tightly than `&&`
    obtain rfl : op = .or := by
      cases op with
      | and => exact absurd rfl hop
      | or => rfl
    have hlt : g.power .or < g.power .and := by
      have hle : g.power .or ≤ g.power .and := by cases g <;> decide
      omega
    rw [Condition.extend, if_neg hop, h.reduce hbase le_rfl]
    refine ⟨?_, fun _ _ => hlt⟩
    show Reader.reduce g _ (.operand .or _ :: base) right = _
    rw [Reader.reduce, if_neg (by omega)]
    rfl

/-- The fault that a piece brings, if it is a number without a value. -/
def faultOf : Piece → Option Fault
  | .int t =>
    match integerOf t with
    | .ok _ => none
    | .error f => some f
  | _ => none

/-- The fault of the first number without a value. -/
def firstFault (ps : List Piece) : Option Fault := ps.findSome? faultOf

theorem firstFault_append (ps qs : List Piece) :
    firstFault (ps ++ qs) = (firstFault ps).or (firstFault qs) := List.findSome?_append

/-- What comes of a run that a fault may stop. -/
def orFault {α : Type} (f? : Option Fault) (x : α) : Except (Stop Unit) α :=
  match f? with
  | none => .ok x
  | some f => .error (.fault f)

/-- A number where an operand may stand. -/
theorem step_int (stack : List Pending) (t : Text) :
    step g ⟨stack, none⟩ (.int t) = match integerOf t with
      | .ok v => .ok (settle stack (.int v))
      | .error f => .error (.fault f) := by
  show (leaf (.int t)).map (settle stack) = _
  rw [leaf]
  cases integerOf t <;> rfl

/-- A closing parenthesis behind an operand. -/
theorem step_closing (stack : List Pending) (e : Condition) :
    step g ⟨stack, some e⟩ .closing = match Reader.reduce g 0 stack e with
      | (.parenthesis :: up, inner) => .ok (settle up (.paren inner))
      | _ => .error (.refused ()) := rfl

/-- The reader takes an operand, whatever is on the stack, or stops at its first fault. -/
def Takes (g : Grouping) (u : Operand) : Prop :=
  ∀ stack, u.pieces.foldlM (step g) ⟨stack, none⟩
    = orFault (firstFault u.pieces) (settle stack (u.read g))

/-- A run that is taken is followed by what comes behind it. -/
theorem foldlM_of_orFault {ps qs : List Piece} {r r' r'' : Reader}
    (hps : ps.foldlM (step g) r = orFault (firstFault ps) r')
    (hqs : qs.foldlM (step g) r' = orFault (firstFault qs) r'') :
    (ps ++ qs).foldlM (step g) r = orFault (firstFault (ps ++ qs)) r'' := by
  rw [List.foldlM_append, hps, firstFault_append]
  cases firstFault ps with
  | some f => rfl
  | none => exact hqs

/-- The operands behind the first one of a level. -/
theorem foldlM_links (hbase : IsBase base) {ks : List (Connective × Operand)}
    (htakes : ∀ k ∈ ks, Takes g k.2) (h : StandsFor g base stack e s) :
    ∃ stack' e', (piecesOfLinks ks).foldlM (step g) ⟨stack, some e⟩
        = orFault (firstFault (piecesOfLinks ks)) ⟨stack', some e'⟩
      ∧ StandsFor g base stack' e' ((readLinks g ks).foldl (Condition.extend g) s) := by
  induction ks generalizing stack e s with
  | nil => exact ⟨stack, e, rfl, h⟩
  | cons k r ih =>
      obtain ⟨op, u⟩ := k
      obtain ⟨hu, hr⟩ := List.forall_mem_cons.mp htakes
      have hnext := h.extend hbase op (u.read g)
      obtain ⟨stack', e', hrun, hstands⟩ := ih hr hnext
      refine ⟨stack', e', ?_, hstands⟩
      have hlink : (piecesOfLink (op, u)).foldlM (step g) ⟨stack, some e⟩
          = orFault (firstFault (piecesOfLink (op, u)))
              (settle (.operand op (Reader.reduce g (g.power op) stack e).2
                :: (Reader.reduce g (g.power op) stack e).1) (u.read g)) :=
        hu _
      exact foldlM_of_orFault hlink hrun

/-- A level that begins on a base ends on it, with what it reads as. -/
theorem foldlM_level (hbase : IsBase base) {first : Operand} {ks : List (Connective × Operand)}
    (hfirst : Takes g first) (htakes : ∀ k ∈ ks, Takes g k.2) :
    ∃ stack e, (first.pieces ++ piecesOfLinks ks).foldlM (step g) ⟨base, none⟩
        = orFault (firstFault (first.pieces ++ piecesOfLinks ks)) ⟨stack, some e⟩
      ∧ Reader.reduce g 0 stack e = (base, joined g (first.read g) (readLinks g ks)) := by
  have hstart : StandsFor g base base (first.read g) (none, first.read g) :=
    ⟨hbase.reduce _ _, fun d hd => absurd hd (by simp)⟩
  obtain ⟨stack, e, hrun, hstands⟩ := foldlM_links hbase htakes hstart
  have hone := hfirst base
  rw [hbase.settle] at hone
  refine ⟨stack, e, foldlM_of_orFault hone hrun, ?_⟩
  rw [hstands.reduce hbase (Nat.zero_le _), joined_eq]
  rfl

/-- **The reader takes every operand.** -/
theorem takes (u : Operand) : Takes g u := by
  induction u using operandInduction with
  | name t => exact fun stack => rfl
  | int t =>
      intro stack
      rw [Operand.pieces, Operand.read, List.foldlM_cons, step_int, valueOf, firstFault,
        List.findSome?_cons, faultOf]
      cases integerOf t <;> rfl
  | unsupported t => exact fun stack => rfl
  | not u ih => exact fun stack => ih _
  | paren first rest ihFirst ihRest =>
      intro stack
      obtain ⟨inner, e, hrun, hreduce⟩ :=
        foldlM_level (g := g) (.inr ⟨stack, rfl⟩) ihFirst ihRest
      have hclose : [Piece.closing].foldlM (step g) ⟨inner, some e⟩
          = orFault (firstFault [.closing])
              (settle stack (.paren (joined g (first.read g) (readLinks g rest)))) := by
        rw [List.foldlM_cons, step_closing, hreduce]
        rfl
      exact foldlM_of_orFault hrun hclose

/-- **What a level reads as**, if none of its numbers is without a value. -/
theorem ofPieces_level (l : Level) :
    ofPieces g l.pieces = orFault (firstFault l.pieces) (l.read g) := by
  obtain ⟨stack, e, hrun, hreduce⟩ :=
    foldlM_level (g := g) (.inl rfl) (takes l.first) fun k _ => takes k.2
  rw [ofPieces, Level.pieces, start, hrun]
  cases firstFault (l.first.pieces ++ piecesOfLinks l.rest) with
  | some f => rfl
  | none =>
      show result g ⟨stack, some e⟩ = _
      rw [result]
      simp only [hreduce]
      rfl

/-! ## What the reader accepts -/

/-- The pieces of some level. -/
def IsLevel (ps : List Piece) : Prop := ∃ l : Level, l.pieces = ps

/-- An operand is a level. -/
theorem isLevel_operand (u : Operand) : IsLevel u.pieces := ⟨⟨u, []⟩, by
  rw [Level.pieces, piecesOfLinks, List.append_nil]⟩

theorem isLevel_of_leaf {p : Piece} (h : leaf p = .ok e) : IsLevel [p] := by
  cases p with
  | name t => exact isLevel_operand (.name t)
  | int t => exact isLevel_operand (.int t)
  | unsupported t => exact isLevel_operand (.unsupported t)
  | bang => cases h
  | connective op => cases h
  | opening => cases h
  | closing => cases h

/-- A negation in front of a level belongs to its first operand. -/
theorem IsLevel.negated {ps : List Piece} (h : IsLevel ps) : IsLevel (.bang :: ps) := by
  obtain ⟨⟨first, rest⟩, rfl⟩ := h
  exact ⟨⟨.not first, rest⟩, rfl⟩

theorem IsLevel.parenthesized {ps : List Piece} (h : IsLevel ps) :
    IsLevel (.opening :: ps ++ [.closing]) := by
  obtain ⟨⟨first, rest⟩, rfl⟩ := h
  exact isLevel_operand (.paren first rest)

/-- Two levels with a connective between them are one level. -/
theorem IsLevel.joined {ps qs : List Piece} (hps : IsLevel ps) (op : Connective)
    (hqs : IsLevel qs) : IsLevel (ps ++ .connective op :: qs) := by
  obtain ⟨⟨first, rest⟩, rfl⟩ := hps
  obtain ⟨⟨first', rest'⟩, rfl⟩ := hqs
  refine ⟨⟨first, rest ++ (op, first') :: rest'⟩, ?_⟩
  simp [Level.pieces, piecesOfLinks_eq, piecesOfLink]

/-- The pieces that a stack has been built from. An operand that waits has been the pieces
of a level, whatever has been made of them. -/
inductive BuiltFrom : List Pending → List Piece → Prop
  | nil : BuiltFrom [] []
  | negation {up : List Pending} {ps : List Piece} (h : BuiltFrom up ps) :
      BuiltFrom (.negation :: up) (ps ++ [.bang])
  | parenthesis {up : List Pending} {ps : List Piece} (h : BuiltFrom up ps) :
      BuiltFrom (.parenthesis :: up) (ps ++ [.opening])
  | operand {up : List Pending} {ps : List Piece} (op : Connective) (left : Condition)
      {qs : List Piece} (h : BuiltFrom up ps) (hqs : IsLevel qs) :
      BuiltFrom (.operand op left :: up) (ps ++ (qs ++ [.connective op]))

/-- The pieces that a state has read: those of its stack, and of a level if it has an
operand at hand. -/
def HasRead (s : Reader) (ps : List Piece) : Prop :=
  match s.operand with
  | none => BuiltFrom s.stack ps
  | some _ => ∃ before qs, BuiltFrom s.stack before ∧ IsLevel qs ∧ ps = before ++ qs

theorem hasRead_settle {stack : List Pending} {before qs : List Piece}
    (h : BuiltFrom stack before) (hqs : IsLevel qs) (e : Condition) :
    HasRead (settle stack e) (before ++ qs) := by
  induction h generalizing qs e with
  | negation h ih =>
      have hread := ih hqs.negated (.not e)
      rwa [List.append_assoc, List.singleton_append]
  | nil => exact ⟨_, qs, .nil, hqs, rfl⟩
  | parenthesis h _ => exact ⟨_, qs, .parenthesis h, hqs, rfl⟩
  | operand op left h hleft _ => exact ⟨_, qs, .operand op left h hleft, hqs, rfl⟩

/-- Closing operators leaves a level behind a shorter stack. -/
theorem builtFrom_reduce {stack : List Pending} {before qs : List Piece}
    (h : BuiltFrom stack before) (hqs : IsLevel qs) (floor : Nat) (e : Condition) :
    ∃ before' qs', BuiltFrom (Reader.reduce g floor stack e).1 before' ∧ IsLevel qs'
      ∧ before ++ qs = before' ++ qs' := by
  induction h generalizing qs e with
  | operand op left h hleft ih =>
      rw [Reader.reduce]
      split
      · obtain ⟨before', qs', hbuilt, hlevel, heq⟩ :=
          ih (hleft.joined op hqs) (.binary op left e)
        exact ⟨before', qs', hbuilt, hlevel, by simpa using heq⟩
      · exact ⟨_, qs, .operand op left h hleft, hqs, rfl⟩
  | nil => exact ⟨_, qs, .nil, hqs, rfl⟩
  | negation h _ => exact ⟨_, qs, .negation h, hqs, rfl⟩
  | parenthesis h _ => exact ⟨_, qs, .parenthesis h, hqs, rfl⟩

/-- **One piece** is read behind the others. -/
theorem hasRead_step {r r' : Reader} {ps : List Piece} {p : Piece} (h : HasRead r ps)
    (hstep : step g r p = .ok r') : HasRead r' (ps ++ [p]) := by
  obtain ⟨stack, operand⟩ := r
  cases operand with
  | none =>
      have hbuilt : BuiltFrom stack ps := h
      have hleaf : (leaf p).map (settle stack) = .ok r' → HasRead r' (ps ++ [p]) := by
        intro hmap
        obtain ⟨e, he, rfl⟩ := exists_of_map_eq_ok hmap
        exact hasRead_settle hbuilt (isLevel_of_leaf he) e
      cases p with
      | bang => cases hstep; exact .negation hbuilt
      | opening => cases hstep; exact .parenthesis hbuilt
      | connective op => exact hleaf hstep
      | closing => exact hleaf hstep
      | name t => exact hleaf hstep
      | int t => exact hleaf hstep
      | unsupported t => exact hleaf hstep
  | some e =>
      obtain ⟨before, qs, hbuilt, hqs, rfl⟩ := h
      cases p with
      | connective op =>
          cases hstep
          obtain ⟨before', qs', hbuilt', hqs', heq⟩ := builtFrom_reduce hbuilt hqs (g.power op) e
          rw [heq, List.append_assoc]
          exact .operand op _ hbuilt' hqs'
      | closing =>
          obtain ⟨before', qs', hbuilt', hqs', heq⟩ := builtFrom_reduce (g := g) hbuilt hqs 0 e
          simp only [step] at hstep
          split at hstep
          · next up inner hreduce =>
            cases hstep
            rw [hreduce] at hbuilt'
            cases hbuilt' with
            | parenthesis hup =>
                have hread := hasRead_settle hup hqs'.parenthesized (.paren inner)
                rw [heq]
                simpa using hread
          · cases hstep
      | bang => cases hstep
      | opening => cases hstep
      | name t => cases hstep
      | int t => cases hstep
      | unsupported t => cases hstep

/-- A piece that has been read brought no fault. -/
theorem faultOf_of_step {r r' : Reader} {p : Piece} (hstep : step g r p = .ok r') :
    faultOf p = none := by
  cases p with
  | int t =>
      obtain ⟨stack, operand⟩ := r
      cases operand with
      | none =>
          obtain ⟨e, he, _⟩ : ∃ e, leaf (.int t) = .ok e ∧ _ := exists_of_map_eq_ok hstep
          rw [leaf] at he
          rw [faultOf]
          cases hvalue : integerOf t with
          | ok v => rfl
          | error f => rw [hvalue] at he; cases he
      | some e => cases hstep
  | _ => rfl

/-- **A fault comes from a number** that stands where an operand may. -/
theorem step_eq_fault {r : Reader} {p : Piece} {f : Fault}
    (h : step g r p = .error (.fault f)) :
    ∃ t, p = .int t ∧ r.operand = none ∧ integerOf t = .error f := by
  obtain ⟨stack, operand⟩ := r
  cases operand with
  | none =>
      cases p with
      | int t =>
          rw [step_int] at h
          cases hvalue : integerOf t with
          | ok v => rw [hvalue] at h; cases h
          | error f' =>
              rw [hvalue] at h
              cases h
              exact ⟨t, rfl, rfl, hvalue⟩
      | bang => cases h
      | opening => cases h
      | connective op => cases h
      | closing => cases h
      | name t => cases h
      | unsupported t => cases h
  | some e =>
      cases p with
      | connective op => cases h
      | closing =>
          rw [step_closing] at h
          split at h <;> cases h
      | _ => cases h

/-- A run reads all its pieces, and none of them brought a fault. -/
theorem hasRead_foldlM {r r' : Reader} {ps qs : List Piece} (h : HasRead r ps)
    (hrun : qs.foldlM (step g) r = .ok r') : HasRead r' (ps ++ qs) ∧ firstFault qs = none := by
  induction qs generalizing r ps with
  | nil =>
      cases hrun
      rw [List.append_nil]
      exact ⟨h, rfl⟩
  | cons p qs ih =>
      rw [List.foldlM_cons] at hrun
      cases hstep : step g r p with
      | error e => rw [hstep] at hrun; cases hrun
      | ok r₁ =>
          rw [hstep] at hrun
          obtain ⟨hread, hvalued⟩ := ih (hasRead_step h hstep) hrun
          rw [List.append_assoc, List.singleton_append] at hread
          refine ⟨hread, ?_⟩
          rw [firstFault, List.findSome?_cons, faultOf_of_step hstep]
          exact hvalued

theorem hasRead_of_foldlM {r : Reader} {ps : List Piece}
    (hrun : ps.foldlM (step g) start = .ok r) : HasRead r ps ∧ firstFault ps = none :=
  hasRead_foldlM (show HasRead start [] from .nil) hrun

/-- **What the reader accepts is a level** without a fault. -/
theorem isLevel_of_ofPieces {ps : List Piece} {e : Condition} (h : ofPieces g ps = .ok e) :
    IsLevel ps ∧ firstFault ps = none := by
  rw [ofPieces] at h
  cases hrun : ps.foldlM (step g) start with
  | error e' => rw [hrun] at h; cases h
  | ok r =>
      rw [hrun] at h
      obtain ⟨hread, hvalued⟩ := hasRead_of_foldlM hrun
      refine ⟨?_, hvalued⟩
      obtain ⟨stack, operand⟩ := r
      cases operand with
      | none => cases h
      | some v =>
          obtain ⟨before, qs, hbuilt, hqs, heq⟩ := hread
          obtain ⟨before', qs', hbuilt', hqs', heq'⟩ := builtFrom_reduce (g := g) hbuilt hqs 0 v
          have hresult : result g ⟨stack, some v⟩ = .ok e := h
          simp only [result] at hresult
          split at hresult
          · next whole hreduce =>
            -- nothing is left on the stack, so the level is all that has been read
            rw [hreduce] at hbuilt'
            cases hbuilt'
            rw [List.nil_append] at heq'
            rwa [heq, heq']
          · cases hresult

/-! ## Where the reader stops -/

/-- What waits on a stack can be closed behind an operand. -/
theorem BuiltFrom.exists_closed {up : List Pending} {before qs : List Piece}
    (h : BuiltFrom up before) (hqs : IsLevel qs) :
    ∃ n, IsLevel (before ++ (qs ++ List.replicate n .closing)) := by
  induction h generalizing qs with
  | nil => exact ⟨0, by simpa using hqs⟩
  | negation h ih =>
      obtain ⟨n, hn⟩ := ih hqs.negated
      exact ⟨n, by simpa using hn⟩
  | parenthesis h ih =>
      obtain ⟨n, hn⟩ := ih hqs.parenthesized
      refine ⟨n + 1, ?_⟩
      rw [List.replicate_succ]
      simpa using hn
  | operand op left h hleft ih =>
      obtain ⟨n, hn⟩ := ih (hleft.joined op hqs)
      exact ⟨n, by simpa using hn⟩

/-- The number `t` is reached: no number in front of it is without a value, and what has been
read with it can be closed to a level. -/
def Reaches (ps : List Piece) (t : Text) : Prop :=
  ∃ before after, ps = before ++ .int t :: after ∧ firstFault before = none
    ∧ ∃ n, IsLevel (before ++ Piece.int t :: List.replicate n .closing)

/-- **The reader stops with a fault** exactly if it reaches a number that brings it, in every
grouping alike. -/
theorem ofPieces_eq_fault_iff {ps : List Piece} {f : Fault} :
    ofPieces g ps = .error (.fault f) ↔ ∃ t, Reaches ps t ∧ integerOf t = .error f := by
  constructor
  · intro h
    rw [ofPieces] at h
    cases hrun : ps.foldlM (step g) start with
    | ok r =>
        -- the end of the pieces is no number
        rw [hrun] at h
        have hresult : result g r = .error (.fault f) := h
        rw [result] at hresult
        split at hresult
        · cases hresult
        · split at hresult <;> cases hresult
    | error e =>
        rw [hrun] at h
        cases h
        obtain ⟨before, p, after, r, rfl, hbefore, hstep⟩ := exists_of_foldlM_eq_error hrun
        obtain ⟨t, rfl, hoperand, hvalue⟩ := step_eq_fault hstep
        obtain ⟨hread, hvalued⟩ := hasRead_of_foldlM hbefore
        obtain ⟨stack, operand⟩ := r
        obtain rfl : operand = none := hoperand
        have hbuilt : BuiltFrom stack before := hread
        exact ⟨t, ⟨before, after, rfl, hvalued, hbuilt.exists_closed (isLevel_operand (.int t))⟩,
          hvalue⟩
  · rintro ⟨t, ⟨before, after, rfl, hvalued, n, l, hl⟩, hvalue⟩
    have hfault : firstFault (before ++ [.int t]) = some f := by
      rw [firstFault_append, hvalued, firstFault, List.findSome?_cons, faultOf, hvalue]
      rfl
    have hsplit : ∀ qs : List Piece,
        before ++ Piece.int t :: qs = (before ++ [Piece.int t]) ++ qs := by simp
    -- the closed level stops at the number, and what stands behind it does not matter
    have hlevel := ofPieces_level (g := g) l
    rw [hl, hsplit, firstFault_append, hfault] at hlevel
    rw [hsplit]
    rw [ofPieces, List.foldlM_append] at hlevel ⊢
    cases hrun : (before ++ [Piece.int t]).foldlM (step g) start with
    | ok r =>
        have hnone := (hasRead_of_foldlM hrun).2
        rw [hfault] at hnone
        cases hnone
    | error e =>
        rw [hrun] at hlevel
        exact hlevel

/-- **What becomes of pieces**: they are a level that is read, or a number is reached that stops
the reader, or they are refused; and that does not depend on the grouping. -/
theorem ofPieces_cases (ps : List Piece) :
    (∃ l : Level, l.pieces = ps ∧ ∀ g, ofPieces g ps = .ok (l.read g))
      ∨ (∃ f, ∀ g, ofPieces g ps = .error (.fault f))
      ∨ ∀ g, ofPieces g ps = .error (.refused ()) := by
  cases h : ofPieces .sequential ps with
  | ok e =>
      obtain ⟨⟨l, rfl⟩, hvalued⟩ := isLevel_of_ofPieces h
      refine .inl ⟨l, rfl, fun g => ?_⟩
      rw [ofPieces_level, hvalued]
      rfl
  | error stop =>
      cases stop with
      | fault f =>
          exact .inr (.inl ⟨f, fun g =>
            ofPieces_eq_fault_iff.mpr (ofPieces_eq_fault_iff.mp h)⟩)
      | refused u =>
          refine .inr (.inr fun g => ?_)
          cases hg : ofPieces g ps with
          | ok e =>
              obtain ⟨⟨l, rfl⟩, hvalued⟩ := isLevel_of_ofPieces hg
              rw [ofPieces_level, hvalued] at h
              cases h
          | error stop =>
              cases stop with
              | refused u => rfl
              | fault f =>
                  rw [ofPieces_eq_fault_iff.mpr (ofPieces_eq_fault_iff.mp hg)] at h
                  cases h

end Reader

/-! ## Conditions of a source -/

/-- Among the signs of an operator there is neither an integer nor a name. -/
theorem Piece.notMem_ofOperator? {s : Text} {ps : List Piece}
    (h : Piece.ofOperator? s = some ps) (t : Text) : Piece.int t ∉ ps ∧ Piece.name t ∉ ps := by
  fun_induction Piece.ofOperator? s generalizing ps with
  | case1 => cases h; simp
  | case2 r ih =>
      obtain ⟨qs, hqs, rfl⟩ := Option.map_eq_some_iff.mp h
      simpa using ih hqs
  | case3 r ih =>
      obtain ⟨qs, hqs, rfl⟩ := Option.map_eq_some_iff.mp h
      simpa using ih hqs
  | case4 r ih =>
      obtain ⟨qs, hqs, rfl⟩ := Option.map_eq_some_iff.mp h
      simpa using ih hqs
  | case5 => cases h

theorem Piece.integer_of_ofToken? {token : Token} {ps : List Piece} {t : Text}
    (h : Piece.ofToken? token = some ps) (ht : Piece.int t ∈ ps) :
    token.kind = .integer ∧ token.text = t := by
  unfold Piece.ofToken? at h
  split at h
  · cases h; exact absurd ht (by simp)
  · next hkind =>
    cases h
    cases List.mem_singleton.mp ht
    exact ⟨hkind, rfl⟩
  · cases h; exact absurd ht (by simp)
  · exact absurd ht (Piece.notMem_ofOperator? h t).1
  · split at h
    · cases h; exact absurd ht (by simp)
    · split at h
      · cases h; exact absurd ht (by simp)
      · cases h
  · cases h

/-- A piece comes from a token of its own, unless it stands for several. -/
theorem Piece.exists_token_of_mem {ts : List Token} {ps : List Piece} {p : Piece}
    (h : Piece.ofTokens? ts = some ps) (hp : p ∈ ps) :
    (∃ text, p = .unsupported text)
      ∨ ∃ token ∈ ts, ∃ qs, Piece.ofToken? token = some qs ∧ p ∈ qs := by
  fun_induction Piece.ofTokens? ts generalizing ps with
  | case1 => cases h; exact absurd hp List.not_mem_nil
  | case2 => cases h
  | case3 token r _ n _ ih =>
      obtain ⟨qs, hqs, rfl⟩ := Option.map_eq_some_iff.mp h
      rcases List.mem_cons.mp hp with rfl | hp
      · exact .inl ⟨_, rfl⟩
      · refine (ih hqs hp).imp_right ?_
        rintro ⟨u, hu, htoken⟩
        exact ⟨u, List.mem_cons_of_mem _ (List.mem_of_mem_drop hu), htoken⟩
  | case4 => cases h
  | case5 token r _ qs hqs ih =>
      obtain ⟨rs, hrs, rfl⟩ := Option.map_eq_some_iff.mp h
      rcases List.mem_append.mp hp with hp | hp
      · exact .inr ⟨token, List.mem_cons_self, qs, hqs, hp⟩
      · refine (ih hrs hp).imp_right ?_
        rintro ⟨u, hu, htoken⟩
        exact ⟨u, List.mem_cons_of_mem _ hu, htoken⟩

/-- An integer among the pieces comes from an integer token. -/
theorem Piece.integer_of_ofTokens? {ts : List Token} {ps : List Piece} {t : Text}
    (h : Piece.ofTokens? ts = some ps) (ht : Piece.int t ∈ ps) :
    ∃ token ∈ ts, token.kind = .integer ∧ token.text = t := by
  rcases Piece.exists_token_of_mem h ht with ⟨text, htext⟩ | ⟨token, hmem, qs, hqs, ht⟩
  · cases htext
  · exact ⟨token, hmem, Piece.integer_of_ofToken? hqs ht⟩

/-- What reading pieces makes of the tokens they come from. -/
theorem ofTokens_eq {ts : List Token} {ps : List Piece} (h : Piece.ofTokens? ts = some ps)
    (g : Grouping) : ofTokens g ts = match ofPieces g ps with
      | .ok e => .ok e
      | .error (.refused _) => .ok (keep ts)
      | .error (.fault f) => .error (.fault f) := by
  cases hread : ofPieces g ps with
  | ok e => simp only [ofTokens, h, hread]
  | error r => cases r <;> simp only [ofTokens, h, hread]

theorem ofTokensBy_label (g : Grouping) (ts : List Token) :
    ofTokensBy g.label ts = ofTokens g ts := by
  cases g <;> rfl

/-- A run of pieces without a number that is too long brings no fault. -/
theorem firstFault_eq_none_iff {ps : List Piece}
    (h : ∀ t, Piece.int t ∈ ps → Literal.IsInteger t) :
    Reader.firstFault ps = none ↔ ∀ t, Piece.int t ∈ ps → ¬ Literal.IsTooLong t := by
  rw [Reader.firstFault, List.findSome?_eq_none_iff]
  constructor
  · intro hnone t ht hlong
    have hfault := (integerOf_eq_error_iff (h t ht)).mpr ⟨hlong, rfl⟩
    have hpiece := hnone _ ht
    rw [Reader.faultOf, hfault] at hpiece
    cases hpiece
  · intro hshort p hp
    cases p with
    | int t =>
        have hvalue := (integerOf_eq_ok_iff (h t hp)).mpr ⟨hshort t hp, rfl⟩
        rw [Reader.faultOf, hvalue]
    | _ => rfl

/-- Pieces in which a number that is too long is reached: it is the first such number, and what
stands up to it is the start of a level, which closing parentheses complete. -/
def Overruns (ps : List Piece) (t : Text) : Prop :=
  ∃ before after, ps = before ++ .int t :: after
    ∧ Literal.IsTooLong t ∧ (∀ s, Piece.int s ∈ before → ¬ Literal.IsTooLong s)
    ∧ ∃ (n : Nat) (level : Level), level.pieces = before ++ .int t :: List.replicate n .closing

/-- Tokens whose pieces reach such a number. -/
def RunsOver (ts : List Token) (t : Text) : Prop :=
  ∃ ps, Piece.ofTokens? ts = some ps ∧ Overruns ps t

section Source

variable {source : Text} {l : Lexed} {ts : List Token} {ps : List Piece}

/-- The numbers among the pieces of a source are integers. -/
theorem isInteger_of_ofTokens? (h : tokenize source = .ok l) (hts : ∀ t ∈ ts, t ∈ l.toList)
    (hps : Piece.ofTokens? ts = some ps) : ∀ t, Piece.int t ∈ ps → Literal.IsInteger t := by
  intro t ht
  obtain ⟨token, hmem, hkind, rfl⟩ := Piece.integer_of_ofTokens? hps ht
  exact isInteger_of_tokenize h token (hts token hmem) hkind

/-- The one fault of the pieces of a source is that of a number that is too long. -/
theorem ofPieces_eq_fault_iff_overruns (hint : ∀ t, Piece.int t ∈ ps → Literal.IsInteger t)
    (g : Grouping) (f : Fault) : ofPieces g ps = .error (.fault f) ↔
      ∃ t, Overruns ps t ∧ f = .tooManyDigits (Literal.digitsOf t).length := by
  rw [Reader.ofPieces_eq_fault_iff]
  constructor
  · rintro ⟨t, ⟨before, after, rfl, hbefore, n, level, hlevel⟩, hvalue⟩
    obtain ⟨hlong, rfl⟩ := (integerOf_eq_error_iff (hint t (by simp))).mp hvalue
    have hshort := (firstFault_eq_none_iff fun s hs =>
      hint s (List.mem_append_left _ hs)).mp hbefore
    exact ⟨t, ⟨before, after, rfl, hlong, hshort, n, level, hlevel⟩, rfl⟩
  · rintro ⟨t, ⟨before, after, rfl, hlong, hshort, n, level, hlevel⟩, rfl⟩
    have hbefore := (firstFault_eq_none_iff fun s hs =>
      hint s (List.mem_append_left _ hs)).mpr hshort
    exact ⟨t, ⟨before, after, rfl, hbefore, n, level, hlevel⟩,
      (integerOf_eq_error_iff (hint t (by simp))).mpr ⟨hlong, rfl⟩⟩

/-- **The one fault of the tokens of a source** is that of a number that is too long. -/
theorem ofTokens_eq_error_iff (h : tokenize source = .ok l) (hts : ∀ t ∈ ts, t ∈ l.toList)
    (g : Grouping) (r : Refusal) : ofTokens g ts = .error r ↔
      ∃ t, RunsOver ts t ∧ r = .fault (.tooManyDigits (Literal.digitsOf t).length) := by
  cases hps : Piece.ofTokens? ts with
  | none =>
      rw [ofTokens, hps]
      simp [RunsOver, hps]
  | some ps =>
      have hfault := ofPieces_eq_fault_iff_overruns (isInteger_of_ofTokens? h hts hps) g
      simp only [RunsOver, hps, Option.some.injEq, exists_eq_left']
      rw [ofTokens_eq hps]
      constructor
      · intro hr
        split at hr
        · cases hr
        · cases hr
        · next f hstop =>
          cases hr
          obtain ⟨t, ht, rfl⟩ := (hfault f).mp hstop
          exact ⟨t, ht, rfl⟩
      · rintro ⟨t, ht, rfl⟩
        rw [(hfault _).mpr ⟨t, ht, rfl⟩]

/-- A number that is reached stands among the tokens. -/
theorem RunsOver.exists_token {t : Text} (h : RunsOver ts t) :
    ∃ token ∈ ts, token.kind = .integer ∧ Literal.IsTooLong token.text := by
  obtain ⟨_, hps, before, after, rfl, hlong, _⟩ := h
  obtain ⟨token, hmem, hkind, rfl⟩ := Piece.integer_of_ofTokens? hps (t := t) (by simp)
  exact ⟨token, hmem, hkind, hlong⟩

end Source

/-- **Conditions are read by the grammar**, in both groupings alike, as long as no number is too
long. Of the tokens of a source, pieces are accepted if and only if they are those of a level that
has no such number, and the condition is what the level reads as; the two groupings differ on it
exactly where an `&&` comes after a `||` at some level. If such a number is reached, reading fails
with its fault, and it fails in no other way. Everything else is kept whole as unsupported text. -/
theorem condition_read_by_grammar {source : Text} {l : Lexed} (h : tokenize source = .ok l)
    (ts : List Token) (hts : ∀ t ∈ ts, t ∈ l.toList) :
    (∀ ps, Piece.ofTokens? ts = some ps → ∀ g,
      ((∃ e, ofPieces g ps = .ok e) ↔
        (∃ level : Level, level.pieces = ps) ∧ ∀ t, Piece.int t ∈ ps → ¬ Literal.IsTooLong t)
      ∧ ∀ f, ofPieces g ps = .error (.fault f) ↔
        ∃ t, Overruns ps t ∧ f = .tooManyDigits (Literal.digitsOf t).length) ∧
    (∀ level : Level, Piece.ofTokens? ts = some level.pieces →
      (∀ t, Piece.int t ∈ level.pieces → ¬ Literal.IsTooLong t) →
      (∀ g, ofPieces g level.pieces = .ok (level.read g)
        ∧ ofTokensBy g.label ts = .ok (level.read g))
      ∧ (level.read .sequential = level.read .swift ↔ level.IsOrdered)) ∧
    (∀ (g : Grouping) r, ofTokensBy g.label ts = .error r ↔
      ∃ t, RunsOver ts t ∧ r = .fault (.tooManyDigits (Literal.digitsOf t).length)) ∧
    ((¬ ∃ level : Level, Piece.ofTokens? ts = some level.pieces) → (¬ ∃ t, RunsOver ts t) →
      ∀ g : Grouping, ofTokensBy g.label ts
        = .ok (.unsupported (Text.joinWith [' '] (ts.map Token.text)))) := by
  have hread : ∀ level : Level, Piece.ofTokens? ts = some level.pieces →
      (∀ t, Piece.int t ∈ level.pieces → ¬ Literal.IsTooLong t) →
      ∀ g, ofPieces g level.pieces = .ok (level.read g) := by
    intro level hlevel hshort g
    rw [Reader.ofPieces_level,
      (firstFault_eq_none_iff (isInteger_of_ofTokens? h hts hlevel)).mpr hshort]
    rfl
  refine ⟨fun ps hps g => ⟨⟨?_, ?_⟩, ?_⟩, fun level hlevel hshort =>
    ⟨fun g => ⟨hread level hlevel hshort g, ?_⟩, level.read_eq_iff⟩, fun g r => ?_, ?_⟩
  · rintro ⟨e, he⟩
    obtain ⟨hlevel, hvalued⟩ := Reader.isLevel_of_ofPieces he
    exact ⟨hlevel, (firstFault_eq_none_iff (isInteger_of_ofTokens? h hts hps)).mp hvalued⟩
  · rintro ⟨⟨level, rfl⟩, hshort⟩
    exact ⟨_, hread level hps hshort g⟩
  · exact ofPieces_eq_fault_iff_overruns (isInteger_of_ofTokens? h hts hps) g
  · rw [ofTokensBy_label, ofTokens_eq hlevel, hread level hlevel hshort]
  · rw [ofTokensBy_label]
    exact ofTokens_eq_error_iff h hts g r
  · -- what is neither read nor stopped is kept
    intro hnone hreached g
    rw [ofTokensBy_label]
    cases hps : Piece.ofTokens? ts with
    | none =>
        rw [ofTokens, hps]
        rfl
    | some ps =>
        have hfault := ofPieces_eq_fault_iff_overruns (isInteger_of_ofTokens? h hts hps) g
        rw [ofTokens_eq hps]
        split
        · next e he =>
          obtain ⟨⟨level, rfl⟩, _⟩ := Reader.isLevel_of_ofPieces he
          exact absurd ⟨level, hps⟩ hnone
        · rfl
        · next f hstop =>
          obtain ⟨t, ht, _⟩ := (hfault f).mp hstop
          exact absurd ⟨t, ps, hps, ht⟩ hreached

/-- The pieces of a single number that is too long are those of a level, and are not read. -/
theorem level_not_read :
    ∃ (l : Lexed) (level : Level), tokenize (List.replicate 4301 '1') = .ok l
      ∧ Piece.ofTokens? l.tokens = some level.pieces
      ∧ ∀ g : Grouping, (¬ ∃ e, ofPieces g level.pieces = .ok e)
        ∧ ofTokensBy g.label l.tokens = .error (.fault (.tooManyDigits 4301)) := by
  obtain ⟨l, t, hl, ht, hkind, htext⟩ := exists_integer_of_ones
  obtain ⟨hlong, hcount⟩ := isTooLong_ones
  let level : Level := ⟨.int t.text, []⟩
  have hpieces : Piece.ofTokens? l.tokens = some level.pieces := by
    rw [ht]
    simp [Piece.ofTokens?, Piece.ofToken?, hkind, level, Level.pieces, Operand.pieces,
      piecesOfLinks]
  have hmem : ∀ t ∈ l.tokens, t ∈ l.toList := fun t ht => List.mem_append_left _ ht
  have hover : RunsOver l.tokens t.text :=
    ⟨_, hpieces, [], [], rfl, htext ▸ hlong, by simp, 0, level, rfl⟩
  refine ⟨l, level, hl, hpieces, fun g => ⟨?_, ?_⟩⟩
  · rintro ⟨e, he⟩
    have hvalued := (Reader.isLevel_of_ofPieces he).2
    have hint := isInteger_of_ofTokens? hl hmem hpieces
    exact (firstFault_eq_none_iff hint).mp hvalued t.text List.mem_cons_self (htext ▸ hlong)
  · rw [ofTokensBy_label, ofTokens_eq_error_iff hl hmem]
    exact ⟨t.text, hover, by rw [htext, hcount]⟩

/-- An `&&` behind a `||`, and a level inside a negation: the groupings differ. -/
theorem condition_read_by_grammar_mixed :
    ∃ (l : Lexed) (level : Level),
      tokenize "A || B && !(C && 1)".toList = .ok l
      ∧ Piece.ofTokens? l.tokens = some level.pieces
      ∧ level.read .swift = .binary .or (.name "A".toList) (.binary .and (.name "B".toList)
          (.not (.paren (.binary .and (.name "C".toList) (.int 1)))))
      ∧ (∀ g : Grouping, ofTokensBy g.label l.tokens = .ok (level.read g))
      ∧ level.read .sequential ≠ level.read .swift := by
  let level : Level := ⟨.name "A".toList, [(.or, .name "B".toList),
    (.and, .not (.paren (.name "C".toList) [(.and, .int "1".toList)]))]⟩
  have hscan : (tokenize "A || B && !(C && 1)".toList).toOption.any
      (fun l => Piece.ofTokens? l.tokens == some level.pieces) = true := by decide +kernel
  obtain ⟨l, hl, hany⟩ := exists_of_tokenize_any hscan
  have hpieces : Piece.ofTokens? l.tokens = some level.pieces := eq_of_beq hany
  have hshort : ∀ t, Piece.int t ∈ level.pieces → ¬ Literal.IsTooLong t := by
    intro t ht
    obtain rfl : t = "1".toList := by
      simpa [level, Level.pieces, Operand.pieces, piecesOfLinks, piecesOfLink] using ht
    decide
  obtain ⟨hread, hordered⟩ := (condition_read_by_grammar hl l.tokens
    fun t ht => List.mem_append_left _ ht).2.1 level hpieces hshort
  refine ⟨l, level, hl, hpieces, by decide +kernel, fun g => (hread g).2, ?_⟩
  rw [ne_eq, hordered]
  exact fun h => absurd h.1 (by simp [level, AndsFirst])

end Condition

end Unflag
