/-
What the integers of a source are worth.

The scan decides how far a number reaches, and the reader of conditions decides what it is
worth; the two look at the characters independently. They agree, because a number without
fraction and exponent has one form: the mark of a base or none, and behind it digits of that base
with underscores between them, the first of them a digit (`Literal.IsInteger`). On a text of that
form the reader gives the positional value of the digits, unless the number is decimal and has
more digits than are read (`Condition.integerOf_eq`). The scan sets no such limit, so a source can
hold an integer that no condition can.
-/
import Unflag.Condition.Grouping
import Unflag.Proofs.Numeral
import Unflag.Proofs.TokenScan

set_option autoImplicit false

namespace Unflag

open Text

theorem Char.le_iff_toNat_le (a b : Char) : a ≤ b ↔ a.toNat ≤ b.toNat := by
  rw [Char.le_def, UInt32.le_iff_toNat_le]
  rfl

/-! ## The form of an integer -/

namespace Literal

/-- The base that the mark in front of a literal gives, and what stands behind the mark. -/
def inBase : Text → Nat × Text
  | '0' :: 'x' :: r => (16, r)
  | '0' :: 'o' :: r => (8, r)
  | '0' :: 'b' :: r => (2, r)
  | s => (10, s)

/-- Whether a text is an integer literal: behind the mark stand a digit of the base, and digits
and underscores. -/
def IsInteger (t : Text) : Prop :=
  ∃ c r, (inBase t).2 = c :: r ∧ digitOf c < (inBase t).1
    ∧ ∀ d ∈ r, d = '_' ∨ digitOf d < (inBase t).1

/-- The digits of an integer literal, without its mark and the underscores. -/
def digitsOf (t : Text) : Text := (inBase t).2.filter (· != '_')

/-- What an integer literal is worth: its digits in the base of its mark. -/
def worth (t : Text) : Nat := numeral (inBase t).1 (digitsOf t)

/-- An integer literal that is decimal and has more digits than are read. -/
def IsTooLong (t : Text) : Prop := (inBase t).1 = 10 ∧ Fault.digitLimit < (digitsOf t).length

instance (t : Text) : Decidable (IsTooLong t) := inferInstanceAs (Decidable (_ ∧ _))

theorem inBase_cases (t : Text) :
    (∃ r, t = '0' :: 'x' :: r ∧ inBase t = (16, r)) ∨ (∃ r, t = '0' :: 'o' :: r ∧ inBase t = (8, r))
      ∨ (∃ r, t = '0' :: 'b' :: r ∧ inBase t = (2, r)) ∨ inBase t = (10, t) := by
  unfold inBase
  split
  · exact .inl ⟨_, rfl, rfl⟩
  · exact .inr (.inl ⟨_, rfl, rfl⟩)
  · exact .inr (.inr (.inl ⟨_, rfl, rfl⟩))
  · exact .inr (.inr (.inr rfl))

theorem base_le (t : Text) : 2 ≤ (inBase t).1 ∧ (inBase t).1 ≤ 16 := by
  rcases inBase_cases t with ⟨r, _, h⟩ | ⟨r, _, h⟩ | ⟨r, _, h⟩ | h <;> simp [h]

/-- A text that goes on behind its first digit with digits and underscores has no mark. -/
theorem inBase_of_digits {c : Char} {r : Text} (h : ∀ d ∈ r, d = '_' ∨ digitOf d < 10) :
    inBase (c :: r) = (10, c :: r) := by
  unfold inBase
  split
  · next heq => cases heq; exact absurd (h 'x' List.mem_cons_self) (by decide)
  · next heq => cases heq; exact absurd (h 'o' List.mem_cons_self) (by decide)
  · next heq => cases heq; exact absurd (h 'b' List.mem_cons_self) (by decide)
  · rfl

/-! ## The digits of the scan -/

theorem toNat_le_of_isDigit {c : Char} (h : c.isDigit = true) : c.toNat ≤ 57 := by
  simp only [Char.isDigit, Bool.and_eq_true, decide_eq_true_eq, UInt32.le_iff_toNat_le] at h
  exact h.2

theorem digitOf_of_isDigit {c : Char} (h : c.isDigit = true) : digitOf c < 10 := by
  have hrange : c.toNat < 128 := by
    have hle := toNat_le_of_isDigit h
    omega
  exact forall_ascii (p := fun c => c.isDigit = true → digitOf c < 10) (by decide +kernel) hrange h

theorem digitOf_of_isOctalDigit {c : Char} (h : isOctalDigit c = true) : digitOf c < 8 := by
  have hrange : c.toNat < 128 := by
    simp only [isOctalDigit, Bool.and_eq_true, decide_eq_true_eq, Char.le_iff_toNat_le] at h
    have hle : c.toNat ≤ 55 := h.2
    omega
  exact forall_ascii (p := fun c => isOctalDigit c = true → digitOf c < 8) (by decide +kernel)
    hrange h

theorem digitOf_of_isBinaryDigit {c : Char} (h : isBinaryDigit c = true) : digitOf c < 2 := by
  simp only [isBinaryDigit, Bool.or_eq_true, beq_iff_eq] at h
  rcases h with rfl | rfl <;> decide

theorem digitOf_of_isHexDigit {c : Char} (h : isHexDigit c = true) : digitOf c < 16 := by
  have hrange : c.toNat < 128 := by
    simp only [isHexDigit, Bool.or_eq_true, Bool.and_eq_true, decide_eq_true_eq,
      Char.le_iff_toNat_le] at h
    rcases h with (hdigit | hlower) | hupper
    · have hle := toNat_le_of_isDigit hdigit
      omega
    · have hle : c.toNat ≤ 102 := hlower.2
      omega
    · have hle : c.toNat ≤ 70 := hupper.2
      omega
  exact forall_ascii (p := fun c => isHexDigit c = true → digitOf c < 16) (by decide +kernel)
    hrange h

/-- A run of digits and underscores that starts with a digit. -/
theorem digits_form {isDigit : Char → Bool} {base : Nat} {s : Text} {n : Nat}
    (hdigit : ∀ c, isDigit c = true → digitOf c < base) (h : digits isDigit s = n + 1) :
    ∃ c r, s.take (n + 1) = c :: r ∧ digitOf c < base ∧ ∀ d ∈ r, d = '_' ∨ digitOf d < base := by
  cases s with
  | nil => exact absurd h (by simp [digits])
  | cons c r =>
      rw [digits] at h
      split at h
      · next hc =>
        obtain rfl : (r.takeWhile fun d => isDigit d || d == '_').length = n := by omega
        refine ⟨c, _, List.take_succ_cons, hdigit c hc, fun d hd => ?_⟩
        rw [← List.prefix_iff_eq_take.mp (List.takeWhile_prefix _)] at hd
        have hcases : isDigit d = true ∨ d = '_' := by simpa using List.mem_takeWhile_imp hd
        exact hcases.symm.imp_right (hdigit d)
      · exact absurd h (by simp)

/-- Decimal digits that neither a fraction nor an exponent follows. -/
theorem isInteger_of_withTail {s : Text} {isMark : Char → Bool}
    (hstart : 0 < digits Char.isDigit s)
    (h : (withTail Char.isDigit isMark (digits Char.isDigit s) s).isFloat = false) :
    IsInteger (s.take (withTail Char.isDigit isMark (digits Char.isDigit s) s).length) := by
  obtain ⟨n, hn⟩ := Nat.exists_eq_add_one_of_ne_zero hstart.ne'
  obtain ⟨c, r, htake, hc, hr⟩ := digits_form (fun c => digitOf_of_isDigit) hn
  rw [hn] at h ⊢
  simp only [withTail, decide_eq_false_iff_not, Nat.not_lt, Nat.le_zero] at h ⊢
  rw [Nat.add_assoc, h, Nat.add_zero, htake]
  exact ⟨c, r, by rw [inBase_of_digits hr], by rw [inBase_of_digits hr]; exact hc,
    by rw [inBase_of_digits hr]; exact hr⟩

/-- **The form of a number without fraction and exponent.** -/
theorem isInteger_of_number {s : Text} (hstart : 0 < digits Char.isDigit s)
    (h : (number s).isFloat = false) : IsInteger (s.take (number s).length) := by
  generalize hnumber : number s = number at h ⊢
  unfold Literal.number at hnumber
  dsimp only at hnumber
  split at hnumber
  · split at hnumber
    · subst hnumber
      exact isInteger_of_withTail hstart h
    · next n hn =>
      subst hnumber
      simp only [withTail, decide_eq_false_iff_not, Nat.not_lt, Nat.le_zero] at h ⊢
      rw [Nat.add_assoc, h, Nat.add_zero]
      exact digits_form (fun c => digitOf_of_isHexDigit) hn
  · split at hnumber
    · subst hnumber
      exact isInteger_of_withTail hstart h
    · next n hn =>
      subst hnumber
      exact digits_form (fun c => digitOf_of_isOctalDigit) hn
  · split at hnumber
    · subst hnumber
      exact isInteger_of_withTail hstart h
    · next n hn =>
      subst hnumber
      exact digits_form (fun c => digitOf_of_isBinaryDigit) hn
  · subst hnumber
    exact isInteger_of_withTail hstart h

/-- The digits that are left without the underscores. -/
theorem IsInteger.digitsOf {t : Text} (h : IsInteger t) :
    digitsOf t ≠ [] ∧ ∀ d ∈ digitsOf t, digitOf d < (inBase t).1 := by
  obtain ⟨c, r, hr, hc, hdigits⟩ := h
  have hplace : digitOf '_' = 16 := by decide
  have hne : c ≠ '_' := by
    rintro rfl
    have hle := (base_le t).2
    omega
  rw [Literal.digitsOf, hr, List.filter_cons_of_pos (by simpa using hne)]
  refine ⟨List.cons_ne_nil c _, List.forall_mem_cons.mpr ⟨hc, fun d hd => ?_⟩⟩
  obtain ⟨hd, hline⟩ := List.mem_filter.mp hd
  exact (hdigits d hd).resolve_left (by simpa using hline)

/-- A literal is worth something exactly if a digit behind its mark is no zero. -/
theorem worth_pos_iff (t : Text) :
    0 < worth t ↔ ∃ d ∈ (inBase t).2, d ≠ '_' ∧ d ≠ '0' := by
  have hbase : 0 < (inBase t).1 := by
    have hle := (base_le t).1
    omega
  rw [Nat.pos_iff_ne_zero, worth, ne_eq, numeral_eq_zero_iff hbase]
  simp only [digitsOf, List.mem_filter, bne_iff_ne, not_forall, and_assoc, exists_prop]

/-- A literal that is too long is a long text. -/
theorem IsTooLong.length_lt {t : Text} (h : IsTooLong t) : Fault.digitLimit < t.length := by
  obtain ⟨hbase, hlong⟩ := h
  rcases inBase_cases t with ⟨r, _, heq⟩ | ⟨r, _, heq⟩ | ⟨r, _, heq⟩ | heq
  · exact absurd hbase (by simp [heq])
  · exact absurd hbase (by simp [heq])
  · exact absurd hbase (by simp [heq])
  · rw [digitsOf, heq] at hlong
    exact hlong.trans_le (List.length_filter_le _ _)

/-- A number in decimal digits is a literal, and is worth the number. -/
theorem worth_toDigits (n : Nat) :
    IsInteger (Nat.toDigits 10 n) ∧ worth (Nat.toDigits 10 n) = n := by
  obtain ⟨hdigits, hnumeral⟩ := numeral_toDigits (by decide : 1 < 10) (by decide) n
  obtain ⟨c, r, hcons⟩ := List.ne_nil_iff_exists_cons.mp (Nat.toDigits_ne_nil (n := n) (b := 10))
  rw [hcons] at hdigits hnumeral ⊢
  obtain ⟨hc, hr⟩ := List.forall_mem_cons.mp hdigits
  have hbase : inBase (c :: r) = (10, c :: r) := inBase_of_digits fun d hd => .inr (hr d hd)
  have hplain : (c :: r).filter (· != '_') = c :: r := by
    rw [List.filter_eq_self]
    intro d hd
    rw [bne_iff_ne]
    rintro rfl
    exact absurd (hdigits '_' hd) (by decide)
  refine ⟨⟨c, r, ?_, ?_, ?_⟩, ?_⟩
  · rw [hbase]
  · rw [hbase]
    exact hc
  · rw [hbase]
    exact fun d hd => .inr (hr d hd)
  · rw [worth, digitsOf, hbase, hplain, hnumeral]

end Literal

namespace Condition

/-- Behind the mark of a base the digits are read in the base. -/
theorem integerOf_marked {m : Char} {base : Nat} {r : Text} (hplain : IsVerbatim m)
    (hmark : Text.baseMark? base = some m.toLower)
    (hbase : [2, 8, 16].find? (fun b => Text.baseMark? b = some m.toLower) = some base)
    (hle : base ≤ 16) (hne : r.filter (· != '_') ≠ [])
    (hdigits : ∀ d ∈ r.filter (· != '_'), digitOf d < base) :
    integerOf ('0' :: m :: r) = .ok (numeral base (r.filter (· != '_')) : Int) := by
  have hkept : ('0' :: m :: r).filter (· != '_') = '0' :: m :: r.filter (· != '_') := by
    rw [List.filter_cons_of_pos (p := (· != '_')) (by decide : ('0' != '_') = true),
      List.filter_cons_of_pos (p := (· != '_')) (bne_iff_ne.mpr hplain.notLine)]
  have hall : ∀ c ∈ '0' :: m :: r.filter (· != '_'), IsVerbatim c := by
    refine List.forall_mem_cons.mpr ⟨by decide, List.forall_mem_cons.mpr ⟨hplain, ?_⟩⟩
    exact fun d hd => isVerbatim_of_digitOf_lt ((hdigits d hd).trans_le hle)
  have hhead : ((r.filter (· != '_')).head? == some '_') = false := by
    rw [beq_eq_false_iff_ne]
    exact fun hh => (hall '_' (List.mem_cons_of_mem _ (List.mem_cons_of_mem _
      (List.mem_of_mem_head? hh)))).notLine rfl
  have hrest : withoutMark base ('0' :: m :: r.filter (· != '_')) = r.filter (· != '_') := by
    rw [withoutMark, if_pos hmark, hhead]
    rfl
  rw [integerOf, hkept, markedBase?, hbase]
  dsimp only
  rw [readInteger?_eq hle hall hrest hne hdigits]

/-- **What an integer literal reads as.** -/
theorem integerOf_eq {t : Text} (h : Literal.IsInteger t) :
    integerOf t = if Literal.IsTooLong t then .error (.tooManyDigits (Literal.digitsOf t).length)
      else .ok (Literal.worth t : Int) := by
  obtain ⟨hne, hdigits⟩ := h.digitsOf
  rcases Literal.inBase_cases t with ⟨r, rfl, hbase⟩ | ⟨r, rfl, hbase⟩ | ⟨r, rfl, hbase⟩ | hbase
  · rw [if_neg fun hlong => absurd hlong.1 (by simp [hbase])]
    exact integerOf_marked (by decide) rfl rfl (Literal.base_le _).2 hne hdigits
  · rw [if_neg fun hlong => absurd hlong.1 (by simp [hbase])]
    exact integerOf_marked (by decide) rfl rfl (Literal.base_le _).2 hne hdigits
  · rw [if_neg fun hlong => absurd hlong.1 (by simp [hbase])]
    exact integerOf_marked (by decide) rfl rfl (Literal.base_le _).2 hne hdigits
  · rw [hbase] at hdigits
    have hds : Literal.digitsOf t = t.filter (· != '_') := by rw [Literal.digitsOf, hbase]
    have hunmarked : markedBase? (t.filter (· != '_')) = none := by
      unfold markedBase?
      split
      · next c r heq =>
        -- a decimal digit never looks like a mark
        have hc : digitOf c < 10 := hdigits c (by rw [hds, heq]; simp)
        have hrows : ∀ c ∈ "0123456789abcdef".toList ++ "0123456789ABCDEF".toList,
            digitOf c < 10 →
            [2, 8, 16].find? (fun b => Text.baseMark? b = some c.toLower) = none :=
          List.all_iff_forall_prop.mp (by decide +kernel)
        exact hrows c (mem_rows_of_digitOf_lt (by omega)) hc
      · rfl
    rw [integerOf, hunmarked]
    dsimp only
    rw [← hds, toInteger_eq hne hdigits]
    simp only [Literal.IsTooLong, Literal.worth, hbase, true_and]

/-- The value of an integer literal; one that is too long has none. -/
theorem integerOf_eq_ok_iff {t : Text} (h : Literal.IsInteger t) {v : Int} :
    integerOf t = .ok v ↔ ¬ Literal.IsTooLong t ∧ v = Literal.worth t := by
  rw [integerOf_eq h]
  split
  · next hlong => simp [hlong]
  · next hshort =>
    rw [Except.ok.injEq, and_iff_right hshort]
    exact eq_comm

/-- It is refused for its length, and for nothing else. -/
theorem integerOf_eq_error_iff {t : Text} (h : Literal.IsInteger t) {f : Fault} :
    integerOf t = .error f ↔
      Literal.IsTooLong t ∧ f = .tooManyDigits (Literal.digitsOf t).length := by
  rw [integerOf_eq h]
  split
  · next hlong =>
    rw [and_iff_right hlong, Except.error.injEq]
    exact eq_comm
  · next hshort => simp [hshort]

end Condition

/-! ## Tokens -/

namespace Lexeme

/-- Only a digit starts an integer, and it reaches as far as the number does. -/
theorem number_of_tokenAt {last : Option Token} {c : Char} {r : Text} {k : Token.Kind} {n : Nat}
    (h : tokenAt last c r = .ok (k, n)) (hk : k = .integer) :
    c.isDigit = true ∧ (Literal.number (c :: r)).isFloat = false
      ∧ n = (Literal.number (c :: r)).length - 1 := by
  unfold tokenAt at h
  dsimp only at h
  split at h
  · cases h; cases hk
  split at h
  · split at h <;> (cases h; cases hk)
  split at h
  · next hdigit =>
    obtain ⟨hkind, rfl⟩ := Prod.mk.inj (Except.ok.inj h)
    refine ⟨hdigit, ?_, rfl⟩
    rw [hk] at hkind
    by_contra hfloat
    rw [if_pos (by simpa using hfloat)] at hkind
    cases hkind
  split at h
  · split at h
    · obtain ⟨m, _, hm⟩ := exists_of_map_eq_ok h
      cases hm; cases hk
    · cases h; cases hk
  split at h
  · exact absurd hk (poundAt_ne (by decide) h)
  split at h
  · cases h; cases hk
  split at h
  · cases h; cases hk
  split at h
  · cases h; cases hk
  split at h <;> (cases h; cases hk)

end Lexeme

/-- What is cut off as an integer is one. -/
theorem Lexeme.isInteger_of_tokenAt {last : Option Token} {c : Char} {r : Text} {n : Nat}
    (h : tokenAt last c r = .ok (.integer, n)) : Literal.IsInteger (c :: r.take n) := by
  obtain ⟨hdigit, hfloat, rfl⟩ := number_of_tokenAt h rfl
  have hstart : 0 < Literal.digits Char.isDigit (c :: r) := by
    rw [Literal.digits, if_pos hdigit]
    omega
  have hform := Literal.isInteger_of_number hstart hfloat
  -- an empty text has no digit
  cases hlength : (Literal.number (c :: r)).length with
  | zero =>
      rw [hlength, List.take_zero] at hform
      obtain ⟨d, q, hq, _⟩ := hform
      cases hq
  | succ m => rwa [hlength] at hform

/-- **Every integer of a source has its form.** -/
theorem isInteger_of_tokenize {source : Text} {l : Lexed} (h : tokenize source = .ok l) :
    ∀ t ∈ l.toList, t.kind = .integer → Literal.IsInteger t.text := by
  intro t ht hkind
  rcases List.mem_append.mp ht with ht | ht
  · obtain ⟨last, c, r, n, htext, htoken⟩ := exists_tokenAt_of_tokenize h t ht
    rw [htext]
    exact Lexeme.isInteger_of_tokenAt (hkind ▸ htoken)
  · obtain ⟨_, _, _, hcut, _⟩ := cut_of_tokenize h
    rw [List.mem_singleton.mp ht, hcut.eof_eq.1] at hkind
    cases hkind

namespace Condition

/-- An integer of a source alone is the condition of its value, if it has one. -/
theorem ofTokens_integer {t : Token} (hkind : t.kind = .integer) (g : Grouping) :
    ofTokens g [t] = match integerOf t.text with
      | .ok v => .ok (.int v)
      | .error f => .error (.fault f) := by
  have hpieces : Piece.ofTokens? [t] = some [.int t.text] := by
    simp [Piece.ofTokens?, Piece.ofToken?, hkind]
  rw [ofTokens, hpieces]
  dsimp only
  cases hvalue : integerOf t.text with
  | ok v =>
      have hread : ofPieces g [.int t.text] = .ok (.int v) := by
        simp [ofPieces, Reader.step, Reader.start, Reader.leaf, hvalue, Reader.settle,
          Reader.result, Reader.reduce, bind, Except.bind, pure, Except.pure, Except.map]
      rw [hread]
  | error f =>
      have hread : ofPieces g [.int t.text] = .error (.fault f) := by
        simp [ofPieces, Reader.step, Reader.start, Reader.leaf, hvalue, bind, Except.bind,
          Except.map]
      rw [hread]

/-- **Integers mean what their text says**, unless they are too long. Every integer token of a
source consists of the mark of a base, or none, and of digits of that base with underscores
between them. It is refused if it is decimal and has more digits than are read. Every other one is
read as the positional value of its digits, so that as a condition it holds exactly if one of the
digits is no zero. -/
theorem integers_mean_their_text {source : Text} {l : Lexed} (h : tokenize source = .ok l)
    {t : Token} (ht : t ∈ l.toList) (hkind : t.kind = .integer) :
    Literal.IsInteger t.text
      ∧ integerOf t.text = (if Literal.IsTooLong t.text
          then .error (.tooManyDigits (Literal.digitsOf t.text).length)
          else .ok (Literal.worth t.text : Int))
      ∧ ∀ g : Grouping, ofTokensBy g.label [t] = (if Literal.IsTooLong t.text
          then .error (.fault (.tooManyDigits (Literal.digitsOf t.text).length))
          else .ok (.int (Literal.worth t.text)))
        ∧ ∀ flag, (Condition.int (Literal.worth t.text)).holds flag
            = .ok ((Literal.inBase t.text).2.any fun d => d != '_' && d != '0') := by
  have hform := isInteger_of_tokenize h t ht hkind
  have hvalue := integerOf_eq hform
  refine ⟨hform, hvalue, fun g => ⟨?_, fun flag => ?_⟩⟩
  · have hread : ofTokensBy g.label [t] = ofTokens g [t] := by cases g <;> rfl
    rw [hread, ofTokens_integer hkind g, hvalue]
    by_cases hlong : Literal.IsTooLong t.text
    · rw [if_pos hlong, if_pos hlong]
    · rw [if_neg hlong, if_neg hlong]
  · rw [holds]
    refine congrArg Except.ok (Bool.eq_iff_iff.mpr ?_)
    simp only [decide_eq_true_eq, Int.natCast_pos, Literal.worth_pos_iff, List.any_eq_true,
      Bool.and_eq_true, bne_iff_ne]

/-- A source in which nothing is scanned but one integer. -/
theorem exists_of_only_integer {text : Text}
    (h : (tokenize text).toOption.any (fun l => l.tokens.length == 1
      && l.tokens.all fun t => t.kind == .integer && t.text == text) = true) :
    ∃ l t, tokenize text = .ok l ∧ l.tokens = [t] ∧ t.kind = .integer ∧ t.text = text := by
  obtain ⟨l, hl, hany⟩ := exists_of_tokenize_any h
  rw [Bool.and_eq_true, beq_iff_eq, List.length_eq_one_iff] at hany
  obtain ⟨⟨t, ht⟩, hall⟩ := hany
  rw [ht, List.all_cons, List.all_nil, Bool.and_true, Bool.and_eq_true, beq_iff_eq,
    beq_iff_eq] at hall
  exact ⟨l, t, hl, ht, hall⟩

theorem exists_integer_of_ones : ∃ l t, tokenize (List.replicate 4301 '1') = .ok l
    ∧ l.tokens = [t] ∧ t.kind = .integer ∧ t.text = List.replicate 4301 '1' :=
  exists_of_only_integer (by decide +kernel)

theorem isTooLong_ones : Literal.IsTooLong (List.replicate 4301 '1')
    ∧ (Literal.digitsOf (List.replicate 4301 '1')).length = 4301 := by
  have hbase : Literal.inBase (List.replicate 4301 '1') = (10, List.replicate 4301 '1') := rfl
  have hdigits : Literal.digitsOf (List.replicate 4301 '1') = List.replicate 4301 '1' := by
    rw [Literal.digitsOf, hbase, List.filter_replicate_of_pos (by decide)]
  rw [Literal.IsTooLong, hdigits, hbase, List.length_replicate]
  decide

/-- Not every integer of a source has a value. -/
theorem integer_without_value :
    ∃ l t, tokenize (List.replicate 4301 '1') = .ok l ∧ t ∈ l.toList ∧ t.kind = .integer
      ∧ t.text = List.replicate 4301 '1' ∧ integerOf t.text = .error (.tooManyDigits 4301) := by
  obtain ⟨l, t, hl, ht, hkind, htext⟩ := exists_integer_of_ones
  have hmem : t ∈ l.toList := by
    rw [Lexed.toList, ht]
    exact List.mem_cons_self
  obtain ⟨hlong, hcount⟩ := isTooLong_ones
  refine ⟨l, t, hl, hmem, hkind, htext, ?_⟩
  rw [integerOf_eq_error_iff (isInteger_of_tokenize hl t hmem hkind), htext, hcount]
  exact ⟨hlong, rfl⟩

/-- A literal with an underscore and a letter in either case; behind it a number that stops in
front of a letter. -/
theorem integers_mean_their_text_hexadecimal :
    ∃ l t, tokenize "0x1F_e 0b2".toList = .ok l ∧ t ∈ l.toList ∧ t.kind = .integer
      ∧ t.text = "0x1F_e".toList ∧ Literal.IsInteger t.text ∧ integerOf t.text = .ok 510
      ∧ ∀ (g : Grouping), ofTokensBy g.label [t] = .ok (.int 510)
        ∧ ∀ flag, (Condition.int 510).holds flag = .ok true := by
  have hscan : (tokenize "0x1F_e 0b2".toList).toOption.any (fun l => l.tokens.head?.any
      fun t => t.kind == .integer && t.text == "0x1F_e".toList) = true := by decide +kernel
  obtain ⟨l, hl, hany⟩ := exists_of_tokenize_any hscan
  obtain ⟨t, hhead, ht⟩ := (Option.any_eq_true _ _).mp hany
  rw [Bool.and_eq_true, beq_iff_eq, beq_iff_eq] at ht
  have hmem : t ∈ l.toList := List.mem_append_left _ (List.mem_of_mem_head? hhead)
  obtain ⟨hform, hvalue, hread⟩ := integers_mean_their_text hl hmem ht.1
  have hworth : Literal.worth "0x1F_e".toList = 510 := by decide +kernel
  have hshort : ¬ Literal.IsTooLong "0x1F_e".toList := by decide +kernel
  have hdigit : (Literal.inBase "0x1F_e".toList).2.any (fun d => d != '_' && d != '0') = true := by
    decide +kernel
  rw [ht.2, if_neg hshort, hworth] at hvalue hread
  refine ⟨l, t, hl, hmem, ht.1, ht.2, hform, ht.2 ▸ hvalue, fun g => ⟨(hread g).1, fun flag => ?_⟩⟩
  rw [← hdigit]
  exact (hread g).2 flag

end Condition

end Unflag
