/-
The words of a condition that is written out.

A condition is written with identifiers, decimal numbers, runs of exclamation marks, the two
connectives and parentheses. Each of these is cut off again as it was written, whatever stands in
front of it, if what stands behind it does not go on with it: an operand is followed by a blank, a
closing parenthesis or nothing, and an operator by what no operator is made of.

Which identifiers there are is settled by the sources a condition is read from, so their form is
said here apart from the scan (`IsIdentifier`), and every identifier of a source has it.
-/
import Mathlib
import Unflag.Proofs.IntegerLiteral
import Unflag.Proofs.Reading

set_option autoImplicit false

namespace Unflag

open Text

namespace Text

/-- A run takes what it is made of, and ends where something else stands. -/
theorem takeWhile_run {p : Char → Bool} {v s : Text} (hv : ∀ c ∈ v, p c = true)
    (hs : ∀ c ∈ s.head?, p c = false) : (v ++ s).takeWhile p = v := by
  rw [List.takeWhile_append_of_pos hv]
  cases s with
  | nil => rw [List.takeWhile_nil, List.append_nil]
  | cons c r =>
      rw [List.takeWhile_cons_of_neg (by simp [hs c rfl]), List.append_nil]

end Text

namespace Lexeme

/-! ## Identifiers -/

/-- The form of an identifier: a name, or a dollar sign with the rest of a name behind it, or any
text on one line between two back quotes. -/
inductive IsIdentifier : Text → Prop
  | plain (c : Char) (v : Text) (hc : (isNameStart c || c == '$') = true)
      (hv : ∀ d ∈ v, isNameChar d = true) : IsIdentifier (c :: v)
  | quoted (v : Text) (hv : ∀ d ∈ v, (d != '\x60') = true ∧ isLineEnd d = false) :
      IsIdentifier ('\x60' :: (v ++ ['\x60']))

/-- A name that is shorter than the text it is looked for in has a back quote behind it. -/
theorem exists_closed {r : Text} (h : (r.takeWhile (· != '\x60')).length < r.length) :
    ∃ name q, (∀ d ∈ name, (d != '\x60') = true) ∧ r = name ++ '\x60' :: q := by
  have hsplit := List.takeWhile_append_dropWhile (p := (· != '\x60')) (l := r)
  cases hrest : r.dropWhile (· != '\x60') with
  | nil =>
      rw [hrest, List.append_nil] at hsplit
      rw [hsplit] at h
      omega
  | cons d q =>
      have hd := List.head_dropWhile_not (· != '\x60') (l := r) (by simp [hrest])
      simp only [hrest, List.head_cons, bne_eq_false_iff_eq] at hd
      rw [hrest, hd] at hsplit
      have hname : ∀ e ∈ r.takeWhile (· != '\x60'), (e != '\x60') = true :=
        fun e he => List.mem_takeWhile_imp (p := (· != '\x60')) he
      exact ⟨_, q, hname, hsplit.symm⟩

/-- What is cut off as an identifier is one. -/
theorem isIdentifier_of_tokenAt {last : Option Token} {c : Char} {r : Text} {n : Nat}
    (h : tokenAt last c r = .ok (.identifier, n)) : IsIdentifier (c :: r.take n) := by
  unfold tokenAt at h
  dsimp only at h
  split at h
  · next hc =>
    cases h
    refine .plain c _ hc fun d hd => ?_
    rw [nameLength, ← List.prefix_iff_eq_take.mp (List.takeWhile_prefix _)] at hd
    exact List.mem_takeWhile_imp hd
  split at h
  · next hc =>
    obtain rfl := eq_of_beq hc
    split at h
    · next hclosed =>
      cases h
      rw [Bool.and_eq_true, decide_eq_true_eq, List.all_eq_true] at hclosed
      obtain ⟨hshort, hline⟩ := hclosed
      obtain ⟨name, q, hname, rfl⟩ := exists_closed hshort
      have htakes : (name ++ '\x60' :: q).takeWhile (· != '\x60') = name :=
        takeWhile_run hname fun d hd => by simp [← Option.some.inj hd]
      rw [htakes] at hline ⊢
      rw [List.take_length_add_append, List.take_succ_cons, List.take_zero]
      exact .quoted name fun d hd => ⟨hname d hd, by simpa using hline d hd⟩
    · cases h
  split at h
  · obtain ⟨hkind, _⟩ := Prod.mk.inj (Except.ok.inj h)
    split at hkind <;> cases hkind
  split at h
  · split at h
    · obtain ⟨m, _, hm⟩ := exists_of_map_eq_ok h
      cases hm
    · cases h
  split at h
  · exact absurd rfl (poundAt_ne (by decide) h)
  split at h
  · cases h
  split at h
  · cases h
  split at h
  · cases h
  split at h <;> cases h

end Lexeme

/-- **Every identifier of a source has its form.** -/
theorem isIdentifier_of_tokenize {source : Text} {l : Lexed} (h : tokenize source = .ok l) :
    ∀ t ∈ l.tokens, t.kind = .identifier → Lexeme.IsIdentifier t.text := by
  intro t ht hkind
  obtain ⟨last, c, r, n, htext, htoken⟩ := exists_tokenAt_of_tokenize h t ht
  rw [htext]
  exact Lexeme.isIdentifier_of_tokenAt (hkind ▸ htoken)

namespace Lexeme

/-! ## Words -/

/-- The word `w` is cut off in front of `s` as a token of this class, whatever the token in front
of it is. -/
def IsWord (k : Token.Kind) (w s : Text) : Prop :=
  ∃ c v, w = c :: v ∧ triviaAt c (v ++ s) = .ok none
    ∧ ∀ last, tokenAt last c (v ++ s) = .ok (k, v.length)

/-- What may stand behind an operand that is written out: a blank, a closing parenthesis, or
nothing. -/
def EndsOperand (s : Text) : Prop := ∀ c ∈ s.head?, c = ' ' ∨ c = ')'

/-- No operand goes on with what stands behind it. -/
theorem EndsOperand.stops {s : Text} (h : EndsOperand s) {p : Char → Bool}
    (hspace : p ' ' = false) (hclosing : p ')' = false) : ∀ c ∈ s.head?, p c = false := by
  intro c hc
  rcases h c hc with rfl | rfl
  · exact hspace
  · exact hclosing

/-- A character that operands may start with: not a blank, nor one of an operator, nor a number
sign. -/
structure OpensOperand (c : Char) : Prop where
  notBlank : isBlank c = false
  notOperator : isOperatorChar c = false
  notSign : c ≠ '#'

instance (c : Char) : Decidable (OpensOperand c) :=
  decidable_of_iff (isBlank c = false ∧ isOperatorChar c = false ∧ c ≠ '#')
    ⟨fun h => ⟨h.1, h.2.1, h.2.2⟩, fun h => ⟨h.1, h.2, h.3⟩⟩

theorem triviaAt_eq_none {c : Char} (hblank : isBlank c = false) (hslash : c ≠ '/') (r : Text) :
    triviaAt c r = .ok none := by
  have hne : ∀ d, isBlank d = true → (c == d) = false := by
    rintro d hd
    refine beq_eq_false_iff_ne.mpr ?_
    rintro rfl
    rw [hd] at hblank
    exact absurd hblank (by simp)
  have hslash' : (c == '/') = false := beq_eq_false_iff_ne.mpr hslash
  simp [triviaAt, hne ' ' rfl, hne '\t' rfl, hne '\n' rfl, hne '\r' rfl, hslash', hblank]

theorem OpensOperand.triviaAt {c : Char} (h : OpensOperand c) (r : Text) :
    triviaAt c r = .ok none := by
  refine triviaAt_eq_none h.notBlank ?_ r
  rintro rfl
  exact absurd h.notOperator (by decide)

/-- An identifier starts like an operand. -/
theorem opensOperand_of_isNameStart {c : Char} (h : isNameStart c = true) : OpensOperand c := by
  by_cases hascii : c.toNat < 128
  · exact forall_ascii (p := fun c => isNameStart c = true → OpensOperand c)
      (by decide +kernel) hascii h
  · -- beyond ASCII there are no operators, and a name starts with what is not blank
    have hoperator : isOperatorChar c = false := by
      rw [isOperatorChar, List.contains_eq_mem, decide_eq_false_iff_not]
      intro hmem
      have hlow : ∀ d ∈ "/=-+!*%<>&|^~?".toList, d.toNat < 128 :=
        List.all_iff_forall_prop.mp (by decide +kernel)
      exact hascii (hlow c hmem)
    have hsign : c ≠ '#' := by
      rintro rfl
      exact hascii (by decide)
    refine ⟨?_, hoperator, hsign⟩
    rw [isNameStart, Bool.or_eq_true, Bool.or_eq_true, Bool.and_eq_true] at h
    rcases h with (h | h) | ⟨_, h⟩
    · rw [eq_of_beq h] at hascii
      exact absurd (by decide) hascii
    · exfalso
      simp only [Char.isAlpha, Char.isUpper, Char.isLower, Bool.or_eq_true, Bool.and_eq_true,
        decide_eq_true_eq, UInt32.le_iff_toNat_le] at h
      have hbound : c.toNat ≤ 122 := by
        rcases h with ⟨_, h⟩ | ⟨_, h⟩
        · exact h.trans (by decide)
        · exact h
      omega
    · simpa using h

/-- An identifier is cut off again in front of what ends an operand. -/
theorem IsIdentifier.isWord {w s : Text} (hw : IsIdentifier w) (hs : EndsOperand s) :
    IsWord .identifier w s ∧ ∀ c ∈ w.head?, OpensOperand c := by
  cases hw with
  | plain c v hc hv =>
      have hopens : OpensOperand c := by
        rcases (Bool.or_eq_true _ _).mp hc with hname | hdollar
        · exact opensOperand_of_isNameStart hname
        · rw [eq_of_beq hdollar]
          decide
      refine ⟨⟨c, v, rfl, hopens.triviaAt _, fun last => ?_⟩, fun d hd => ?_⟩
      · rw [tokenAt, if_pos hc, nameLength, takeWhile_run hv (hs.stops (by decide) (by decide))]
      · rwa [← Option.some.inj hd]
  | quoted v hv =>
      have hopens : OpensOperand '\x60' := by decide
      refine ⟨⟨'\x60', v ++ ['\x60'], rfl, hopens.triviaAt _, fun last => ?_⟩, fun d hd => ?_⟩
      · have hname : (v ++ ['\x60'] ++ s).takeWhile (· != '\x60') = v := by
          rw [List.append_assoc]
          exact takeWhile_run (fun d hd => (hv d hd).1) fun d hd => by simp [← Option.some.inj hd]
        have hclosed : (decide (v.length < (v ++ ['\x60'] ++ s).length)
            && v.all fun d => !isLineEnd d) = true := by
          rw [Bool.and_eq_true, decide_eq_true_eq, List.all_eq_true]
          exact ⟨by simp, fun d hd => by simp [(hv d hd).2]⟩
        rw [tokenAt, if_neg (by decide), if_pos (by decide)]
        dsimp only
        rw [hname, if_pos hclosed, List.length_append, List.length_singleton]
      · rwa [← Option.some.inj hd]

/-- Digits are a number as far as they go. -/
theorem number_digits {c : Char} {v s : Text} (hdigits : ∀ d ∈ c :: v, d.isDigit = true)
    (hs : EndsOperand s) :
    Literal.number (c :: v ++ s) = ⟨v.length + 1, false⟩ := by
  obtain ⟨hc, hv⟩ := List.forall_mem_cons.mp hdigits
  have hlength : Literal.digits Char.isDigit (c :: v ++ s) = v.length + 1 := by
    rw [List.cons_append, Literal.digits, if_pos hc,
      takeWhile_run (fun d hd => by simp [hv d hd]) (hs.stops (by decide) (by decide))]
  have hfraction : Literal.fraction Char.isDigit s = 0 := by
    cases s with
    | nil => rfl
    | cons d r => rcases hs d rfl with rfl | rfl <;> rfl
  have hexponent : Literal.exponent (fun c => c == 'e' || c == 'E') s = 0 := by
    cases s with
    | nil => rfl
    | cons d r => rcases hs d rfl with rfl | rfl <;> rfl
  have hdecimal : Literal.withTail Char.isDigit (fun c => c == 'e' || c == 'E') (v.length + 1)
      (c :: v ++ s) = ⟨v.length + 1, false⟩ := by
    simp [Literal.withTail, hfraction, hexponent]
  -- no mark of a base is a digit, nor does one end an operand
  have hmark : ∀ d ∈ (v ++ s).head?, d ≠ 'x' ∧ d ≠ 'o' ∧ d ≠ 'b' := by
    intro d hd
    cases v with
    | nil => rcases hs d hd with rfl | rfl <;> decide
    | cons e u =>
        have hdigit := hv d (by rw [← Option.some.inj hd]; exact List.mem_cons_self)
        refine ⟨?_, ?_, ?_⟩ <;> (rintro rfl; exact absurd hdigit (by decide))
  rw [← hdecimal, ← hlength]
  unfold Literal.number
  dsimp only
  split
  · next r heq =>
    rw [List.cons_append, List.cons.injEq] at heq
    exact absurd rfl (hmark 'x' (by rw [heq.2]; rfl)).1
  · next r heq =>
    rw [List.cons_append, List.cons.injEq] at heq
    exact absurd rfl (hmark 'o' (by rw [heq.2]; rfl)).2.1
  · next r heq =>
    rw [List.cons_append, List.cons.injEq] at heq
    exact absurd rfl (hmark 'b' (by rw [heq.2]; rfl)).2.2
  · rfl

/-- A digit starts like an operand, and like no identifier. -/
theorem opensOperand_of_isDigit {c : Char} (h : c.isDigit = true) :
    OpensOperand c ∧ (isNameStart c || c == '$') = false ∧ (c == '\x60') = false := by
  have hascii : c.toNat < 128 := by
    have hbound := Literal.toNat_le_of_isDigit h
    omega
  exact forall_ascii (p := fun c => c.isDigit = true → OpensOperand c
    ∧ (isNameStart c || c == '$') = false ∧ (c == '\x60') = false)
    (by decide +kernel) hascii h

/-- A number in decimal digits is cut off again in front of what ends an operand. -/
theorem isWord_toDigits (n : Nat) {s : Text} (hs : EndsOperand s) :
    IsWord .integer (Nat.toDigits 10 n) s ∧ ∀ c ∈ (Nat.toDigits 10 n).head?, OpensOperand c := by
  have hdigits : ∀ d ∈ Nat.toDigits 10 n, d.isDigit = true :=
    fun d hd => Nat.isDigit_of_mem_toDigits (by decide) (by decide) hd
  obtain ⟨c, v, hcons⟩ := List.ne_nil_iff_exists_cons.mp (Nat.toDigits_ne_nil (n := n) (b := 10))
  rw [hcons] at hdigits ⊢
  have hc := hdigits c List.mem_cons_self
  obtain ⟨hopens, hname, hquote⟩ := opensOperand_of_isDigit hc
  refine ⟨⟨c, v, rfl, hopens.triviaAt _, fun last => ?_⟩, fun d hd => ?_⟩
  · rw [tokenAt, if_neg (by simp [hname]), if_neg (by simp [hquote]), if_pos hc]
    dsimp only
    rw [← List.cons_append, number_digits hdigits hs]
    rfl
  · rwa [← Option.some.inj hd]

/-- Characters of operators are an operator as far as they go; no comment starts among them if
none of them is a slash. -/
theorem operatorLength_run {v s : Text} (hv : ∀ c ∈ v, isOperatorChar c = true ∧ c ≠ '/')
    (hs : ∀ c ∈ s.head?, isOperatorChar c = false) : operatorLength (v ++ s) = v.length := by
  induction v with
  | nil =>
      cases s with
      | nil => rfl
      | cons c r => simp [operatorLength, hs c rfl]
  | cons c v ih =>
      obtain ⟨hc, hv⟩ := List.forall_mem_cons.mp hv
      rw [List.cons_append, operatorLength, if_pos (by simp [hc.1, hc.2]), ih hv,
        List.length_cons]

/-- An operator without slashes is cut off again in front of what no operator is made of. -/
theorem isWord_operator {c : Char} {v s : Text} (hc : c ∈ ['!', '&', '|'])
    (hv : ∀ d ∈ v, d ∈ ['!', '&', '|']) (hs : ∀ d ∈ s.head?, isOperatorChar d = false) :
    IsWord .operator (c :: v) s := by
  have hoperator : ∀ d ∈ ['!', '&', '|'], isOperatorChar d = true ∧ d ≠ '/' :=
    List.all_iff_forall_prop.mp (by decide +kernel)
  have hlength := operatorLength_run (fun d hd => hoperator d (hv d hd)) hs
  refine ⟨c, v, rfl, ?_, fun last => ?_⟩
  · rcases List.mem_cons.mp hc with rfl | hc
    · rfl
    rcases List.mem_cons.mp hc with rfl | hc
    · rfl
    · rw [List.mem_singleton.mp hc]
      rfl
  · rw [← hlength]
    rcases List.mem_cons.mp hc with rfl | hc
    · rfl
    rcases List.mem_cons.mp hc with rfl | hc
    · rfl
    · rw [List.mem_singleton.mp hc]
      rfl

/-- A parenthesis is a word wherever it stands. -/
theorem isWord_parenthesis (s : Text) :
    IsWord .punctuation ['('] s ∧ IsWord .punctuation [')'] s :=
  ⟨⟨'(', [], rfl, rfl, fun _ => rfl⟩, ⟨')', [], rfl, rfl, fun _ => rfl⟩⟩

end Lexeme

end Unflag
