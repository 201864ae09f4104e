/-
A condition that is written out and read again.

A condition is written with parentheses around every connective, so its text leaves nothing to a
grouping. Reading the text gives the condition back, in either grouping, up to parentheses: those
that were written are nodes of what is read.

Two things have to be known. The text is cut into the tokens that were meant: a run of negations
is one token, so the induction over the condition carries the run in front of it
(`isCutInto_text`), and no name stands in front of a parenthesis, which would make it a check.
And the leaves of the condition can be written at all. A condition that is read from a source
without anything unsupported has identifiers for names, none of which is a truth value, and no
negative numbers (`isLegible_of_tokenize`). That its numbers are not too long has to be assumed:
digits with the mark of a base are read in any number, and numbers are written in decimal.
-/
import Unflag.Proofs.ConditionWords
import Unflag.Proofs.Guard

set_option autoImplicit false

namespace Unflag

open Text Lexeme

namespace Condition

/-! ## Conditions without parentheses -/

/-- A condition without its parentheses. -/
def bare : Condition → Condition
  | .name n => .name n
  | .int v => .int v
  | .bool v => .bool v
  | .not e => .not e.bare
  | .binary op l r => .binary op l.bare r.bare
  | .paren e => e.bare
  | .unsupported t => .unsupported t

/-- Parentheses hold no names, -/
theorem names_bare (e : Condition) : e.bare.names = e.names := by
  induction e with
  | name n => rfl
  | int v => rfl
  | bool v => rfl
  | not e ih => exact ih
  | binary op l r ihl ihr => rw [bare, names_binary, names_binary, ihl, ihr]
  | paren e ih => exact ih
  | unsupported t => rfl

/-- and decide no value. -/
theorem holds_bare (flag : Text) (e : Condition) : e.bare.holds flag = e.holds flag := by
  induction e with
  | name n => rfl
  | int v => rfl
  | bool v => rfl
  | not e ih => rw [bare, holds, holds, ih]
  | binary op l r ihl ihr => cases op <;> rw [bare, holds, holds, ihl, ihr]
  | paren e ih => exact ih
  | unsupported t => rfl

/-! ## Conditions that can be written -/

/-- The text of a condition with numbers of any length. -/
def text : Condition → Text
  | .name n => n
  | .int v => decimal v
  | .bool v => if v then "true".toList else "false".toList
  | .not e => '!' :: e.text
  | .binary op l r => '(' :: l.text ++ symbol op ++ r.text ++ [')']
  | .paren e => '(' :: e.text ++ [')']
  | .unsupported t => t

/-- No number of a condition has more decimal digits than are written. -/
def IsWritable (e : Condition) : Prop :=
  ∀ v, Condition.int v ∈ e.nodes → (Nat.toDigits 10 v.natAbs).length ≤ Fault.digitLimit

theorem isWritable_int {v : Int} :
    (Condition.int v).IsWritable ↔ (Nat.toDigits 10 v.natAbs).length ≤ Fault.digitLimit := by
  simp [IsWritable, nodes]

theorem isWritable_not {e : Condition} : (Condition.not e).IsWritable ↔ e.IsWritable := by
  simp [IsWritable, nodes]

theorem isWritable_paren {e : Condition} : (Condition.paren e).IsWritable ↔ e.IsWritable := by
  simp [IsWritable, nodes]

theorem isWritable_binary {op : Connective} {l r : Condition} :
    (Condition.binary op l r).IsWritable ↔ l.IsWritable ∧ r.IsWritable := by
  simp [IsWritable, nodes, or_imp, forall_and]

/-- **Rendering writes the text**, unless a number is too long. -/
theorem render_of_isWritable {e : Condition} (h : e.IsWritable) : e.render = .ok e.text := by
  induction e with
  | name n => rfl
  | int v => rw [render, ofInteger, if_neg (Nat.not_lt.mpr (isWritable_int.mp h)), text]
  | bool v => rfl
  | not e ih =>
      rw [render, ih (isWritable_not.mp h)]
      rfl
  | binary op l r ihl ihr =>
      obtain ⟨hl, hr⟩ := isWritable_binary.mp h
      rw [render, ihl hl, ihr hr]
      rfl
  | paren e ih =>
      rw [render, ih (isWritable_paren.mp h)]
      rfl
  | unsupported t => rfl

theorem render_of_not_isWritable {e : Condition} (h : ¬ e.IsWritable) :
    e.render = .error .tooLongToWrite := by
  induction e with
  | name n => exact absurd (by simp [IsWritable, nodes]) h
  | int v => rw [render, ofInteger, if_pos (Nat.not_le.mp (isWritable_int.not.mp h))]
  | bool v => exact absurd (by simp [IsWritable, nodes]) h
  | not e ih =>
      rw [render, ih (isWritable_not.not.mp h)]
      rfl
  | binary op l r ihl ihr =>
      -- the left operand comes first, but the fault is the same
      rw [render]
      by_cases hl : l.IsWritable
      · have hr : ¬ r.IsWritable := fun hr => h (isWritable_binary.mpr ⟨hl, hr⟩)
        rw [render_of_isWritable hl, ihr hr]
        rfl
      · rw [ihl hl]
        rfl
  | paren e ih =>
      rw [render, ih (isWritable_paren.not.mp h)]
      rfl
  | unsupported t => exact absurd (by simp [IsWritable, nodes]) h

/-- A node that is written as what it is: a name is an identifier and no truth value, a number is
not negative and not too long, and nothing is unsupported. -/
def IsLegibleNode : Condition → Prop
  | .name n => IsIdentifier n ∧ n ≠ "true".toList ∧ n ≠ "false".toList
  | .int v => 0 ≤ v ∧ (Nat.toDigits 10 v.natAbs).length ≤ Fault.digitLimit
  | .unsupported _ => False
  | _ => True

/-- Every node of a condition is written as what it is. -/
def IsLegible (e : Condition) : Prop := ∀ d ∈ e.nodes, d.IsLegibleNode

theorem isLegible_not {e : Condition} : (Condition.not e).IsLegible ↔ e.IsLegible := by
  simp [IsLegible, nodes, IsLegibleNode]

theorem isLegible_paren {e : Condition} : (Condition.paren e).IsLegible ↔ e.IsLegible := by
  simp [IsLegible, nodes, IsLegibleNode]

theorem isLegible_binary {op : Connective} {l r : Condition} :
    (Condition.binary op l r).IsLegible ↔ l.IsLegible ∧ r.IsLegible := by
  simp [IsLegible, nodes, IsLegibleNode, or_imp, forall_and]

/-- The operand that the text of a condition is read as. -/
def written : Condition → Operand
  | .name n => .name n
  | .int v => .int (decimal v)
  | .bool v => .name (if v then "true".toList else "false".toList)
  | .not e => .not e.written
  | .binary op l r => .paren l.written [(op, r.written)]
  | .paren e => .paren e.written []
  | .unsupported t => .unsupported t

/-- A number is read from its decimal digits, if these are not too many. -/
theorem integerOf_toDigits {n : Nat} (h : (Nat.toDigits 10 n).length ≤ Fault.digitLimit) :
    ¬ Literal.IsTooLong (Nat.toDigits 10 n) ∧ integerOf (Nat.toDigits 10 n) = .ok n := by
  obtain ⟨hform, hworth⟩ := Literal.worth_toDigits n
  have hshort : ¬ Literal.IsTooLong (Nat.toDigits 10 n) := fun hlong =>
    Nat.not_lt.mpr h hlong.length_lt
  exact ⟨hshort, (integerOf_eq_ok_iff hform).mpr ⟨hshort, by rw [hworth]⟩⟩

/-- The integers that are written are read. -/
theorem firstFault_written {e : Condition} (h : e.IsLegible) :
    Reader.firstFault e.written.pieces = none := by
  induction e with
  | name n => rfl
  | int v =>
      obtain ⟨hv, hshort⟩ := h (.int v) (by simp [nodes])
      obtain ⟨n, rfl⟩ := Int.eq_ofNat_of_zero_le hv
      have hvalue : integerOf (decimal (n : Int)) = .ok (n : Int) := (integerOf_toDigits hshort).2
      rw [written, Operand.pieces, Reader.firstFault, List.findSome?_cons, Reader.faultOf, hvalue]
      rfl
  | bool v => rfl
  | not e ih => exact ih (isLegible_not.mp h)
  | binary op l r ihl ihr =>
      obtain ⟨hl, hr⟩ := isLegible_binary.mp h
      have hlink : Reader.firstFault (.connective op :: r.written.pieces) = none := ihr hr
      show Reader.firstFault
        ((l.written.pieces ++ (.connective op :: r.written.pieces ++ [])) ++ [.closing]) = none
      rw [List.append_nil, Reader.firstFault_append, Reader.firstFault_append, ihl hl, hlink]
      rfl
  | paren e ih =>
      show Reader.firstFault ((e.written.pieces ++ []) ++ [.closing]) = none
      rw [List.append_nil, Reader.firstFault_append, ih (isLegible_paren.mp h)]
      rfl
  | unsupported t => exact absurd (h (.unsupported t) (by simp [nodes])) id

/-- What is written reads as the condition, up to parentheses, in every grouping. -/
theorem bare_written {e : Condition} (h : e.IsLegible) (g : Grouping) :
    (e.written.read g).bare = e.bare := by
  induction e with
  | name n =>
      obtain ⟨-, htrue, hfalse⟩ := h (.name n) (by simp [nodes])
      rw [written, Operand.read, if_neg (by simpa using htrue), if_neg (by simpa using hfalse)]
  | int v =>
      obtain ⟨hv, hshort⟩ := h (.int v) (by simp [nodes])
      obtain ⟨n, rfl⟩ := Int.eq_ofNat_of_zero_le hv
      have hvalue : integerOf (decimal (n : Int)) = .ok (n : Int) := (integerOf_toDigits hshort).2
      rw [written, Operand.read, valueOf, hvalue]
  | bool v => cases v <;> rfl
  | not e ih => rw [written, Operand.read, bare, ih (isLegible_not.mp h), bare]
  | binary op l r ihl ihr =>
      obtain ⟨hl, hr⟩ := isLegible_binary.mp h
      have hjoined : ∀ a b, joined g a [(op, b)] = .binary op a b := by
        cases g <;> cases op <;> exact fun a b => rfl
      rw [written, Operand.read, readLinks_eq, List.map_singleton, hjoined, bare, bare, bare,
        ihl hl]
      exact congrArg (Condition.binary op l.bare) (ihr hr)
  | paren e ih =>
      have hjoined : ∀ a, joined g a [] = a := by
        cases g <;> exact fun a => rfl
      rw [written, Operand.read, readLinks_eq, List.map_nil, hjoined, bare,
        ih (isLegible_paren.mp h), bare]
  | unsupported t => rfl

/-! ## The tokens of the text -/

/-- The pieces of an operator are those of its text. -/
theorem Piece.ofToken?_operator {t : Token} {w : Text} {qs : List Piece}
    (hkind : t.kind = .operator) (htext : t.text = w) (hw : Piece.ofOperator? w = some qs) :
    Piece.ofToken? t = some qs := by
  rw [Piece.ofToken?, hkind]
  dsimp only
  rw [htext, hw]

/-- The text `s` is cut into tokens that have the pieces `ps`, and no line break stands in front of
them. The first token is an opening parenthesis only if the first piece is. -/
def IsCutInto (s : Text) (ps : List Piece) : Prop :=
  ∃ rest, Skips s rest false ∧ ∀ follows, ∃ ws, Reads follows false rest ws
    ∧ (ws.head?.map Word.text = some ['('] → ps.head? = some .opening)
    ∧ ∀ ts : List Token, ts.map Token.word = ws → Piece.ofTokens? ts = some ps

theorem isCutInto_nil : IsCutInto [] [] := by
  refine ⟨[], .done, fun follows => ⟨[], .done _ _, by simp, fun ts hts => ?_⟩⟩
  rw [List.map_eq_nil_iff.mp hts, Piece.ofTokens?]

namespace IsCutInto

variable {s : Text} {ps : List Piece}

theorem blank (h : IsCutInto s ps) : IsCutInto (' ' :: s) ps := by
  obtain ⟨rest, hskips, hrest⟩ := h
  exact ⟨rest, hskips.blank ' ' rfl, hrest⟩

/-- **One word more.** It has the pieces of a token of its class and text, as long as it is no
identifier in front of a parenthesis. -/
theorem word {k : Token.Kind} {w : Text} {qs : List Piece} (h : IsCutInto s ps)
    (hword : IsWord k w s)
    (hpieces : ∀ t : Token, t.kind = k → t.text = w → Piece.ofToken? t = some qs)
    (hcall : k = .identifier → ps.head? ≠ some .opening) : IsCutInto (w ++ s) (qs ++ ps) := by
  obtain ⟨c, v, rfl, htrivia, htoken⟩ := hword
  obtain ⟨rest, hskips, hrest⟩ := h
  refine ⟨c :: v ++ s, .stop c (v ++ s) htrivia, fun follows => ?_⟩
  let token : Token := ⟨k, c :: v, [], [], 0⟩
  obtain ⟨ws, hreads, hhead, hofTokens⟩ := hrest (operandFollows (some token))
  refine ⟨_, .word token rfl (fun last _ => htoken last) hskips hreads, fun hw => ?_, ?_⟩
  · -- a parenthesis is punctuation, and has the piece of one
    obtain ⟨rfl, rfl⟩ := List.cons.inj (Option.some.inj hw)
    have hpunctuation : tokenAt none '(' ([] ++ s) = .ok (.punctuation, 0) := rfl
    obtain rfl : k = .punctuation := by
      rw [htoken] at hpunctuation
      exact (Prod.mk.inj (Except.ok.inj hpunctuation)).1
    have hqs := hpieces ⟨.punctuation, ['('], [], [], 0⟩ rfl rfl
    rw [← Option.some.inj hqs]
    rfl
  · intro ts hts
    cases ts with
    | nil => cases hts
    | cons t us =>
        obtain ⟨ht, hus⟩ := List.cons.inj hts
        have hkind : t.kind = k := congrArg Word.kind ht
        have hnocall : ¬ (t.kind == .identifier
            && us.head?.map Token.text == some ['(']) = true := by
          rw [Bool.and_eq_true, beq_iff_eq, beq_iff_eq, hkind]
          rintro ⟨hidentifier, hparenthesis⟩
          refine hcall hidentifier (hhead ?_)
          rw [← hus, List.head?_map, Option.map_map]
          exact hparenthesis
        rw [Piece.ofTokens?, if_neg hnocall, hpieces t hkind (congrArg Word.text ht)]
        dsimp only
        rw [hofTokens us hus, Option.map_some]

/-- A run of negations is one word. -/
theorem negations (h : IsCutInto s ps) (hs : ∀ c ∈ s.head?, isOperatorChar c = false) (n : Nat) :
    IsCutInto (List.replicate n '!' ++ s) (List.replicate n .bang ++ ps) := by
  cases n with
  | zero => exact h
  | succ n =>
      have hsigns : ∀ n, Piece.ofOperator? (List.replicate n '!')
          = some (List.replicate n .bang) := by
        intro n
        induction n with
        | zero => rfl
        | succ n ih =>
            rw [List.replicate_succ, Piece.ofOperator?, ih]
            rfl
      have hword : IsWord .operator (List.replicate (n + 1) '!') s :=
        isWord_operator (by decide) (fun d hd => by simp [List.eq_of_mem_replicate hd]) hs
      exact h.word hword (fun t hkind htext => Piece.ofToken?_operator hkind htext (hsigns _))
        (by simp)

/-- A connective stands between two blanks. -/
theorem connective (h : IsCutInto s ps) (op : Connective) :
    IsCutInto (symbol op ++ s) (.connective op :: ps) := by
  have hspace : ∀ c ∈ (' ' :: s).head?, isOperatorChar c = false := by
    intro c hc
    rw [← Option.some.inj hc]
    decide
  cases op with
  | and =>
      have hword : IsWord .operator ['&', '&'] (' ' :: s) :=
        isWord_operator (by decide) (by simp) hspace
      exact (h.blank.word hword (fun t hkind htext => Piece.ofToken?_operator hkind htext rfl)
        (by simp)).blank
  | or =>
      have hword : IsWord .operator ['|', '|'] (' ' :: s) :=
        isWord_operator (by decide) (by simp) hspace
      exact (h.blank.word hword (fun t hkind htext => Piece.ofToken?_operator hkind htext rfl)
        (by simp)).blank

/-- Parentheses are words of their own. -/
theorem opening (h : IsCutInto s ps) : IsCutInto ('(' :: s) (.opening :: ps) := by
  have hpieces : ∀ t : Token, t.kind = .punctuation → t.text = ['('] →
      Piece.ofToken? t = some [.opening] := by
    intro t hkind htext
    simp [Piece.ofToken?, hkind, htext]
  exact h.word (isWord_parenthesis s).1 hpieces (by simp)

theorem closing (h : IsCutInto s ps) : IsCutInto (')' :: s) (.closing :: ps) := by
  have hpieces : ∀ t : Token, t.kind = .punctuation → t.text = [')'] →
      Piece.ofToken? t = some [.closing] := by
    intro t hkind htext
    simp [Piece.ofToken?, hkind, htext]
  exact h.word (isWord_parenthesis s).2 hpieces (by simp)

/-- A leaf behind a run of negations. -/
theorem leaf {k : Token.Kind} {w : Text} {p : Piece} (h : IsCutInto s ps)
    (hword : IsWord k w s ∧ ∀ c ∈ w.head?, OpensOperand c)
    (hpiece : ∀ t : Token, t.kind = k → t.text = w → Piece.ofToken? t = some [p])
    (hcall : ps.head? ≠ some .opening) (n : Nat) :
    IsCutInto (List.replicate n '!' ++ (w ++ s)) (List.replicate n .bang ++ p :: ps) := by
  refine (h.word hword.1 hpiece fun _ => hcall).negations ?_ n
  obtain ⟨c, v, rfl, -⟩ := hword.1
  intro d hd
  exact (hword.2 d hd).notOperator

/-- A parenthesis behind a run of negations. -/
theorem parenthesis (h : IsCutInto s ps) (n : Nat) :
    IsCutInto (List.replicate n '!' ++ '(' :: s) (List.replicate n .bang ++ .opening :: ps) := by
  refine h.opening.negations ?_ n
  intro c hc
  rw [← Option.some.inj hc]
  decide

end IsCutInto

/-- **The text of a condition is cut into what was written**, behind any run of negations and in
front of what ends an operand. -/
theorem isCutInto_text {e : Condition} (h : e.IsLegible) {s : Text} {ps : List Piece}
    (hs : EndsOperand s) (hcall : ps.head? ≠ some .opening) (hcut : IsCutInto s ps) (n : Nat) :
    IsCutInto (List.replicate n '!' ++ (e.text ++ s))
      (List.replicate n .bang ++ (e.written.pieces ++ ps)) := by
  have hclosing : ∀ r : Text, EndsOperand (')' :: r) :=
    fun r c hc => .inr (Option.some.inj hc).symm
  induction e generalizing s ps n with
  | name m =>
      obtain ⟨hidentifier, -⟩ := h (.name m) (by simp [nodes])
      refine hcut.leaf (hidentifier.isWord hs) (fun t hkind htext => ?_) hcall n
      simp [Piece.ofToken?, hkind, htext]
  | int v =>
      obtain ⟨hv, -⟩ := h (.int v) (by simp [nodes])
      obtain ⟨m, rfl⟩ := Int.eq_ofNat_of_zero_le hv
      refine hcut.leaf (isWord_toDigits m hs) (fun t hkind htext => ?_) hcall n
      rw [Piece.ofToken?, hkind]
      dsimp only
      rw [htext]
      rfl
  | bool v =>
      have hidentifier : IsIdentifier (if v then "true".toList else "false".toList) := by
        cases v
        · exact .plain 'f' "alse".toList (by decide) (List.all_eq_true.mp (by decide +kernel))
        · exact .plain 't' "rue".toList (by decide) (List.all_eq_true.mp (by decide +kernel))
      refine hcut.leaf (hidentifier.isWord hs) (fun t hkind htext => ?_) hcall n
      simp [Piece.ofToken?, hkind, htext]
  | not e ih =>
      have hnot := ih (isLegible_not.mp h) hs hcall hcut (n + 1)
      rw [List.replicate_succ', List.replicate_succ', List.append_assoc, List.append_assoc] at hnot
      exact hnot
  | binary op l r ihl ihr =>
      obtain ⟨hl, hr⟩ := isLegible_binary.mp h
      have hspace : EndsOperand (symbol op ++ (r.text ++ ')' :: s)) := by
        intro c hc
        cases op <;> exact .inl (Option.some.inj hc).symm
      have hright := ihr hr (hclosing s) (by simp) hcut.closing 0
      have hleft := ihl hl hspace (by simp) (hright.connective op) 0
      have hwhole := hleft.parenthesis n
      simp only [text, written, Operand.pieces, piecesOfLinks, piecesOfLink, List.cons_append,
        List.append_assoc, List.nil_append, List.append_nil]
      exact hwhole
  | paren e ih =>
      have hinner := ih (isLegible_paren.mp h) (hclosing s) (by simp) hcut.closing 0
      have hwhole := hinner.parenthesis n
      simp only [text, written, Operand.pieces, piecesOfLinks, List.cons_append,
        List.append_assoc, List.nil_append, List.append_nil]
      exact hwhole
  | unsupported t => exact absurd (h (.unsupported t) (by simp [nodes])) id

/-- No text of a condition starts like an interpreter line. -/
theorem not_isMarked_text {e : Condition} (h : e.IsLegible) : ¬ IsMarked e.text := by
  have hends : EndsOperand [] := fun c hc => absurd hc (by simp)
  cases e with
  | name n =>
      obtain ⟨hidentifier, -⟩ := h (.name n) (by simp [nodes])
      obtain ⟨⟨c, v, rfl, -⟩, hopens⟩ := hidentifier.isWord hends
      exact not_isMarked_of_head (hopens c rfl).notSign v
  | int v =>
      obtain ⟨hv, -⟩ := h (.int v) (by simp [nodes])
      obtain ⟨n, rfl⟩ := Int.eq_ofNat_of_zero_le hv
      obtain ⟨⟨c, v, hcons, -⟩, hopens⟩ := isWord_toDigits n hends
      show ¬ IsMarked (Nat.toDigits 10 n)
      rw [hcons] at hopens ⊢
      exact not_isMarked_of_head (hopens c rfl).notSign v
  | bool v => cases v <;> exact not_isMarked_of_head (by decide) _
  | not e => exact not_isMarked_of_head (by decide) _
  | binary op l r => exact not_isMarked_of_head (by decide) _
  | paren e => exact not_isMarked_of_head (by decide) _
  | unsupported t => exact absurd (h (.unsupported t) (by simp [nodes])) id

/-- The tokens of the text of a condition have the pieces that were written. -/
theorem exists_tokenize_text {e : Condition} (h : e.IsLegible) :
    ∃ l, tokenize e.text = .ok l ∧ Piece.ofTokens? l.tokens = some e.written.pieces := by
  have hends : EndsOperand [] := fun c hc => absurd hc (by simp)
  have hcut := isCutInto_text h hends (by simp) isCutInto_nil 0
  simp only [List.replicate_zero, List.nil_append, List.append_nil] at hcut
  obtain ⟨rest, hskips, hrest⟩ := hcut
  obtain ⟨ws, hreads, -, hpieces⟩ := hrest true
  have hfirst : (Scan.shebang ([] ++ e.text)).text = [] := by
    rw [List.nil_append, Scan.shebang_of_not_isMarked (not_isMarked_text h)]
    rfl
  obtain ⟨l, hl, hwords⟩ := tokenize_of_reads hfirst hskips hreads
  exact ⟨l, hl, hpieces l.tokens hwords⟩

/-! ## The conditions of a source -/

/-- What holds of all operands of a level, and that connectives keep, holds of the level. -/
theorem joined_induction {Q : Condition → Prop} (hQ : ∀ op l r, Q l → Q r → Q (.binary op l r))
    (g : Grouping) {first : Condition} {rest : List (Connective × Condition)} (hfirst : Q first)
    (hrest : ∀ k ∈ rest, Q k.2) : Q (joined g first rest) := by
  -- it holds of what waits and of what is being put together, after every operand
  have hprogress : (∀ d, (progress g first rest).1 = some d → Q d)
      ∧ Q (progress g first rest).2 := by
    induction rest using List.reverseRecOn with
    | nil => exact ⟨fun d hd => absurd hd (by simp [progress]), hfirst⟩
    | append_singleton rest k ih =>
        obtain ⟨hinit, hlast⟩ := List.forall_mem_append.mp hrest
        obtain ⟨hdone, hv⟩ := ih hinit
        have hk : Q k.2 := hlast k List.mem_cons_self
        rw [progress_concat, extend]
        split
        · exact ⟨hdone, hQ _ _ _ hv hk⟩
        · refine ⟨fun d hd => ?_, hk⟩
          rw [← Option.some.inj hd]
          cases hwaits : (progress g first rest).1 with
          | none => exact hv
          | some d' => exact hQ _ _ _ (hdone d' hwaits) hv
  rw [joined_eq]
  cases hwaits : (progress g first rest).1 with
  | none => exact hprogress.2
  | some d => exact hQ _ _ _ (hprogress.1 d hwaits) hprogress.2

/-- A node of a condition that is read from pieces: a name is one of them and no truth value, and
a number is the value of one of them. -/
def IsReadFrom (ps : List Piece) : Condition → Prop
  | .name n => Piece.name n ∈ ps ∧ n ≠ "true".toList ∧ n ≠ "false".toList
  | .int v => ∃ t, Piece.int t ∈ ps ∧ v = valueOf t
  | _ => True

/-- A level is read from pieces if its operands are. -/
theorem isReadFrom_joined {g : Grouping} {ps : List Piece} {first : Operand}
    {rest : List (Connective × Operand)} (h : ∀ p ∈ first.pieces ++ piecesOfLinks rest, p ∈ ps)
    (hoperand : ∀ u, (u = first ∨ ∃ op, (op, u) ∈ rest) → (∀ p ∈ u.pieces, p ∈ ps) →
      ∀ d ∈ (u.read g).nodes, d.IsReadFrom ps) :
    ∀ d ∈ (joined g (first.read g) (readLinks g rest)).nodes, d.IsReadFrom ps := by
  have hread : ∀ u, (u = first ∨ ∃ op, (op, u) ∈ rest) →
      ∀ d ∈ (u.read g).nodes, d.IsReadFrom ps :=
    fun u hu => hoperand u hu fun p hp => h p (pieces_subset_level hu p hp)
  apply joined_induction (Q := fun e => ∀ d ∈ e.nodes, d.IsReadFrom ps)
  · intro op l r hl hr
    rw [nodes]
    exact List.forall_mem_cons.mpr ⟨trivial, List.forall_mem_append.mpr ⟨hl, hr⟩⟩
  · exact hread first (.inl rfl)
  · rw [readLinks_eq]
    intro k hk
    obtain ⟨⟨op, u⟩, hu, rfl⟩ := List.mem_map.mp hk
    exact hread u (.inr ⟨op, hu⟩)

theorem Operand.isReadFrom {g : Grouping} {ps : List Piece} (u : Operand)
    (h : ∀ p ∈ u.pieces, p ∈ ps) : ∀ d ∈ (u.read g).nodes, d.IsReadFrom ps := by
  induction u using operandInduction with
  | name t =>
      rw [Operand.read]
      split
      · simp [nodes, IsReadFrom]
      · next htrue =>
        split
        · simp [nodes, IsReadFrom]
        · next hfalse =>
          intro d hd
          rw [List.mem_singleton.mp hd]
          exact ⟨h _ List.mem_cons_self, by simpa using htrue, by simpa using hfalse⟩
  | int t =>
      intro d hd
      rw [List.mem_singleton.mp hd]
      exact ⟨t, h _ List.mem_cons_self, rfl⟩
  | unsupported t => simp [Operand.read, nodes, IsReadFrom]
  | not u ih =>
      rw [Operand.read, nodes]
      exact List.forall_mem_cons.mpr ⟨trivial, ih fun p hp => h p (List.mem_cons_of_mem _ hp)⟩
  | paren first rest ihFirst ihRest =>
      rw [Operand.read, nodes]
      refine List.forall_mem_cons.mpr ⟨trivial, isReadFrom_joined (fun p hp => h p ?_) ?_⟩
      · rw [Operand.pieces, List.cons_append]
        exact List.mem_cons_of_mem _ (List.mem_append_left _ hp)
      · rintro u (rfl | ⟨op, hop⟩) hu
        · exact ihFirst hu
        · exact ihRest (op, u) hop hu

/-- The nodes of a level are read from its pieces. -/
theorem Level.isReadFrom {g : Grouping} (l : Level) :
    ∀ d ∈ (l.read g).nodes, d.IsReadFrom l.pieces :=
  isReadFrom_joined (fun _ hp => hp) fun u _ hu => u.isReadFrom hu

/-- An integer literal is not negative. -/
theorem valueOf_nonneg {t : Text} (h : Literal.IsInteger t) : 0 ≤ valueOf t := by
  rw [valueOf, integerOf_eq h]
  split
  · next v hv =>
    split at hv
    · cases hv
    · cases hv
      exact Int.natCast_nonneg _
  · exact le_rfl

/-- **The conditions of a source can be written**, unless something in them is unsupported or too
long. -/
theorem isLegible_of_tokenize {source : Text} {l : Lexed} (h : tokenize source = .ok l)
    {g : Grouping} {e : Condition} (he : ofTokens g l.tokens = .ok e)
    (hsupported : ∀ t, Condition.unsupported t ∉ e.nodes) (hwritable : e.IsWritable) :
    e.IsLegible := by
  rcases ofTokens_cases l.tokens with ⟨level, hpieces, hread⟩ | hkept | ⟨f, hfault⟩
  · rw [hread g] at he
    cases he
    intro d hd
    have hfrom := level.isReadFrom d hd
    cases d with
    | name n =>
        obtain ⟨hmem, hvalues⟩ := hfrom
        obtain ⟨t, ht, hkind, rfl⟩ := Piece.name_of_ofTokens? hpieces hmem
        exact ⟨isIdentifier_of_tokenize h t ht hkind, hvalues⟩
    | int v =>
        obtain ⟨t, ht, rfl⟩ := hfrom
        have hint := isInteger_of_ofTokens? h (fun t ht => List.mem_append_left _ ht) hpieces
        exact ⟨valueOf_nonneg (hint t ht), hwritable _ hd⟩
    | unsupported t => exact hsupported t hd
    | bool v => trivial
    | not e => trivial
    | binary op l r => trivial
    | paren e => trivial
  · rw [hkept g] at he
    cases he
    exact absurd List.mem_cons_self (hsupported _)
  · rw [hfault g] at he
    cases he

/-- **Rendering is faithful**, as long as no number is too long. A condition that is read from a
source cannot be written exactly if one of its numbers has more decimal digits than are written.
Otherwise, and without anything unsupported in it, its text is a source itself, and read again in
either grouping it is the same condition up to parentheses, so it has the same names and the same
value for every flag. -/
theorem render_read_again {source : Text} {l : Lexed} (h : tokenize source = .ok l) {g : Grouping}
    {e : Condition} (he : ofTokensBy g.label l.tokens = .ok e)
    (hsupported : ∀ t, Condition.unsupported t ∉ e.nodes) :
    (∀ f, e.render = .error f ↔ ¬ e.IsWritable ∧ f = .tooLongToWrite)
    ∧ (e.IsWritable → ∃ text l', e.render = .ok text ∧ tokenize text = .ok l' ∧
      ∀ m : Grouping, ∃ e', ofTokensBy m.label l'.tokens = .ok e' ∧ e'.bare = e.bare
        ∧ e'.names = e.names ∧ ∀ flag, e'.holds flag = e.holds flag) := by
  rw [ofTokensBy_label] at he
  refine ⟨fun f => ?_, fun hwritable => ?_⟩
  · by_cases hwritable : e.IsWritable
    · simp [render_of_isWritable hwritable, hwritable]
    · rw [render_of_not_isWritable hwritable, and_iff_right hwritable, Except.error.injEq]
      exact eq_comm
  have hlegible := isLegible_of_tokenize h he hsupported hwritable
  obtain ⟨l', hl', hpieces⟩ := exists_tokenize_text hlegible
  refine ⟨_, l', render_of_isWritable hwritable, hl', fun m => ⟨e.written.read m, ?_⟩⟩
  -- the whole text is one operand, and a level of one operand reads as the operand
  have hlevel : (⟨e.written, []⟩ : Level).pieces = e.written.pieces := by
    rw [Level.pieces, piecesOfLinks, List.append_nil]
  have hread : ofTokensBy m.label l'.tokens = .ok (e.written.read m) := by
    rw [ofTokensBy_label, ofTokens_eq hpieces, ← hlevel, Reader.ofPieces_level, hlevel,
      firstFault_written hlegible]
    cases m <;> rfl
  have hbare := bare_written hlegible m
  refine ⟨hread, hbare, ?_, fun flag => ?_⟩
  · rw [← names_bare, hbare, names_bare]
  · rw [← holds_bare, hbare, holds_bare]

/-- A number that is read from hexadecimal digits can be too long to be written. -/
theorem render_too_long :
    ∃ (l : Lexed) (e : Condition), tokenize ("0x".toList ++ List.replicate 4000 'F') = .ok l
      ∧ ofTokensBy Grouping.sequential.label l.tokens = .ok e
      ∧ (∀ t, Condition.unsupported t ∉ e.nodes)
      ∧ e.render = .error .tooLongToWrite := by
  let digits : Text := "0x".toList ++ List.replicate 4000 'F'
  have honly : ∃ l t, tokenize digits = .ok l ∧ l.tokens = [t] ∧ t.kind = .integer
      ∧ t.text = digits :=
    exists_of_only_integer (by decide +kernel)
  obtain ⟨l, t, hl, ht, hkind, htext⟩ := honly
  have hform : Literal.IsInteger digits :=
    htext ▸ isInteger_of_tokenize hl t (by simp [Lexed.toList, ht]) hkind
  have hvalue : integerOf digits = .ok (Literal.worth digits : Int) :=
    (integerOf_eq_ok_iff hform).mpr ⟨fun hlong => absurd hlong.1 (by decide), rfl⟩
  -- a number has fewer digits than its power of ten
  have hlong : ¬ (Condition.int (Literal.worth digits)).IsWritable := by
    rw [isWritable_int, Int.natAbs_natCast, Nat.not_le]
    obtain ⟨hdigits, hnumeral⟩ :=
      numeral_toDigits (by decide : 1 < 10) (by decide) (Literal.worth digits)
    have hlt := numeral_lt (by decide) hdigits
    rw [hnumeral] at hlt
    have hlarge : 10 ^ Fault.digitLimit ≤ Literal.worth digits := by decide +kernel
    exact (Nat.pow_lt_pow_iff_right (by decide)).mp (hlarge.trans_lt hlt)
  have hsupported : ∀ (v : Int) t, Condition.unsupported t ∉ (Condition.int v).nodes := by
    simp [nodes]
  refine ⟨l, .int (Literal.worth digits), hl, ?_, hsupported _, render_of_not_isWritable hlong⟩
  rw [ofTokensBy_label, ht, ofTokens_integer hkind, htext, hvalue]

/-- Negations in a row, a name in back quotes, a number in another base, and a connective that
binds tighter. -/
theorem render_read_again_mixed :
    ∃ (l : Lexed) (e : Condition) (text : Text) (l' : Lexed),
      tokenize "!!(A || `b c` && 0x1F) && true".toList = .ok l
      ∧ ofTokensBy Grouping.swift.label l.tokens = .ok e
      ∧ (∀ t, Condition.unsupported t ∉ e.nodes)
      ∧ e.render = .ok text ∧ text = "(!!((A || (`b c` && 31))) && true)".toList
      ∧ tokenize text = .ok l'
      ∧ ∀ m : Grouping, ∃ e', ofTokensBy m.label l'.tokens = .ok e' ∧ e'.bare = e.bare
        ∧ e'.names = e.names ∧ ∀ flag, e'.holds flag = e.holds flag := by
  let e : Condition := .binary .and (.not (.not (.paren (.binary .or (.name "A".toList)
    (.binary .and (.name "`b c`".toList) (.int 31)))))) (.bool true)
  have hscan : (tokenize "!!(A || `b c` && 0x1F) && true".toList).toOption.any
      (fun l => (ofTokens .swift l.tokens).toOption == some e) = true := by decide +kernel
  obtain ⟨l, hl, hread⟩ := exists_of_tokenize_any hscan
  have he : ofTokensBy Grouping.swift.label l.tokens = .ok e := by
    rw [ofTokensBy_label]
    cases hof : ofTokens .swift l.tokens with
    | ok e' =>
        rw [hof] at hread
        rw [Option.some.inj (eq_of_beq hread)]
    | error r =>
        rw [hof] at hread
        cases hread
  have hsupported : ∀ t, Condition.unsupported t ∉ e.nodes := by
    intro t
    simp [e, nodes]
  have hwritable : e.IsWritable := by
    intro v hv
    obtain rfl : v = 31 := by simpa [e, nodes] using hv
    decide
  obtain ⟨text, l', htext, hl', hagain⟩ := (render_read_again hl he hsupported).2 hwritable
  have hwritten : e.render = .ok "(!!((A || (`b c` && 31))) && true)".toList := by decide +kernel
  exact ⟨l, e, text, l', hl, he, hsupported, htext, Except.ok.inj (htext.symm.trans hwritten),
    hl', hagain⟩

end Condition

end Unflag
