/-
Numerals: what digits are worth.

A reader goes through digits from left to right and multiplies as it goes. What it ends with is
said here without it: a digit is worth its place in the row from `0` to `f`, in either case, and
a list of digits is worth `Nat.ofDigits` of what they are worth each. The reader gives that number
whenever every character is a digit of the base (`positional?_eq`), and so does the one that takes
whole numbers with margins, signs and marks, since digits are none of these (`readInteger?_eq`).

Three facts are used elsewhere. The digits of a number are worth the number, in every base up to
16 (`numeral_toDigits`); a numeral is worth nothing exactly if all its digits are zeros
(`numeral_eq_zero_iff`); and it is less than the power of the base that has one digit more
(`numeral_lt`).
-/
import Mathlib.Data.Bool.AllAny
import Mathlib.Data.Nat.Digits.Defs
import Unflag.Text.Number

set_option autoImplicit false

namespace Unflag

namespace Text

/-! ## Digits -/

/-- What a digit is worth: its place in the row of the digits. A character that is no digit has
place 16. -/
def digitOf (c : Char) : Nat :=
  min ("0123456789abcdef".toList.idxOf c) ("0123456789ABCDEF".toList.idxOf c)

/-- The positional value of digits in a base. -/
def numeral (base : Nat) (ds : Text) : Nat := Nat.ofDigits base (ds.map digitOf).reverse

/-- The characters that are digits in some base up to 16. -/
theorem mem_rows_of_digitOf_lt {c : Char} (h : digitOf c < 16) :
    c ∈ "0123456789abcdef".toList ++ "0123456789ABCDEF".toList := by
  have hrow : "0123456789abcdef".toList.idxOf c < 16 ∨ "0123456789ABCDEF".toList.idxOf c < 16 := by
    rw [digitOf] at h
    omega
  exact List.mem_append.mpr (hrow.imp List.idxOf_lt_length_iff.mp List.idxOf_lt_length_iff.mp)

/-- The reader knows every digit of a base. -/
theorem digitValue?_of_lt {base : Nat} {c : Char} (hbase : base ≤ 16) (h : digitOf c < base) :
    digitValue? base c = some (digitOf c) := by
  have hrows : ∀ c ∈ "0123456789abcdef".toList ++ "0123456789ABCDEF".toList, ∀ base < 17,
      digitOf c < base → digitValue? base c = some (digitOf c) :=
    List.all_iff_forall_prop.mp (by decide +kernel)
  exact hrows c (mem_rows_of_digitOf_lt (by omega)) base (by omega) h

/-- What holds of the first 128 characters is tested on their code points. -/
theorem forall_ascii {p : Char → Prop} (h : ∀ n < 128, p (Char.ofNat n)) {c : Char}
    (hc : c.toNat < 128) : p c := by
  have hself := h c.toNat hc
  rwa [Char.ofNat_toNat] at hself

/-- Only `0` is worth nothing. -/
theorem digitOf_eq_zero_iff {c : Char} : digitOf c = 0 ↔ c = '0' := by
  constructor
  · intro h
    have hrows : ∀ c ∈ "0123456789abcdef".toList ++ "0123456789ABCDEF".toList,
        digitOf c = 0 → c = '0' :=
      List.all_iff_forall_prop.mp (by decide +kernel)
    exact hrows c (mem_rows_of_digitOf_lt (by omega)) h
  · rintro rfl
    decide

theorem digitOf_digitChar : ∀ k < 16, digitOf (Nat.digitChar k) = k := by decide +kernel

/-! ## Values -/

variable {base : Nat} {ds : Text}

theorem numeral_cons (base : Nat) (c : Char) (ds : Text) :
    numeral base (c :: ds) = numeral base ds + base ^ ds.length * digitOf c := by
  rw [numeral, List.map_cons, Nat.ofDigits_reverse_cons, List.length_map, numeral]

theorem numeral_concat (base : Nat) (ds : Text) (c : Char) :
    numeral base (ds ++ [c]) = numeral base ds * base + digitOf c := by
  rw [numeral, List.map_append, List.reverse_append, List.map_singleton, List.reverse_singleton,
    List.singleton_append, Nat.ofDigits_cons, Nat.mul_comm, Nat.add_comm, numeral]

/-- **What the reader ends with** is the value of the digits. -/
theorem positional?_eq (hbase : base ≤ 16) (hne : ds ≠ []) (h : ∀ c ∈ ds, digitOf c < base) :
    positional? base ds = some (numeral base ds) := by
  -- the digits read so far stand in front of the rest
  have hfold : ∀ (ds : Text) (acc : Nat), (∀ c ∈ ds, digitOf c < base) →
      ds.foldlM (fun acc c => (digitValue? base c).map (acc * base + ·)) acc
        = some (acc * base ^ ds.length + numeral base ds) := by
    intro ds
    induction ds with
    | nil => exact fun acc _ => by simp [numeral]
    | cons c r ih =>
        intro acc h
        obtain ⟨hc, hr⟩ := List.forall_mem_cons.mp h
        rw [List.foldlM_cons, digitValue?_of_lt hbase hc]
        show r.foldlM _ (acc * base + digitOf c) = _
        rw [ih _ hr, numeral_cons, List.length_cons]
        ring_nf
  rw [positional?, if_neg (by simpa using hne), hfold ds 0 h]
  simp

/-- A numeral has not more digits than its value needs. -/
theorem numeral_lt (hbase : 1 < base) (h : ∀ c ∈ ds, digitOf c < base) :
    numeral base ds < base ^ ds.length := by
  have hdigits : ∀ v ∈ (ds.map digitOf).reverse, v < base := by
    simpa [List.mem_reverse] using h
  have hlt := Nat.ofDigits_lt_base_pow_length hbase hdigits
  rwa [List.length_reverse, List.length_map] at hlt

/-- A numeral is worth nothing exactly if all its digits are zeros. -/
theorem numeral_eq_zero_iff (hbase : 0 < base) : numeral base ds = 0 ↔ ∀ c ∈ ds, c = '0' := by
  induction ds with
  | nil => simp [numeral]
  | cons c r ih =>
      have hpow : base ^ r.length ≠ 0 := (Nat.pow_pos hbase).ne'
      rw [numeral_cons, Nat.add_eq_zero_iff, ih, Nat.mul_eq_zero, or_iff_right hpow,
        digitOf_eq_zero_iff, List.forall_mem_cons, and_comm]

/-- The digits of a number are digits, and they are worth the number. -/
theorem numeral_toDigits (hone : 1 < base) (hbase : base ≤ 16) (n : Nat) :
    (∀ c ∈ Nat.toDigits base n, digitOf c < base) ∧ numeral base (Nat.toDigits base n) = n := by
  induction n using Nat.strongRecOn with
  | ind n ih =>
      rw [Nat.toDigits_eq_if hone]
      by_cases hn : n < base
      · have hdigit := digitOf_digitChar n (by omega)
        rw [if_pos hn]
        refine ⟨List.forall_mem_singleton.mpr (by omega), ?_⟩
        simp [numeral, hdigit]
      · have hmod : n % base < base := Nat.mod_lt n (by omega)
        have hdigit := digitOf_digitChar (n % base) (by omega)
        obtain ⟨hdigits, hvalue⟩ := ih (n / base) (Nat.div_lt_self (by omega) hone)
        rw [if_neg hn]
        refine ⟨List.forall_mem_append.mpr ⟨hdigits, ?_⟩, ?_⟩
        · exact List.forall_mem_singleton.mpr (by omega)
        · rw [numeral_concat, hvalue, hdigit]
          exact Nat.div_add_mod' n base

/-! ## Whole numbers -/

/-- A character that stands for itself in a whole number: it is no margin, no sign and no
underscore, and if it is a digit it is one of ours. -/
structure IsVerbatim (c : Char) : Prop where
  notMargin : isMargin c = false
  notSign : c ≠ '+' ∧ c ≠ '-'
  notLine : c ≠ '_'
  ascii : asciiDigit c = c

instance (c : Char) : Decidable (IsVerbatim c) :=
  decidable_of_iff (isMargin c = false ∧ (c ≠ '+' ∧ c ≠ '-') ∧ c ≠ '_' ∧ asciiDigit c = c)
    ⟨fun h => ⟨h.1, h.2.1, h.2.2.1, h.2.2.2⟩, fun h => ⟨h.1, h.2, h.3, h.4⟩⟩

theorem isVerbatim_of_digitOf_lt {c : Char} (h : digitOf c < 16) : IsVerbatim c := by
  have hrows : ∀ c ∈ "0123456789abcdef".toList ++ "0123456789ABCDEF".toList, IsVerbatim c :=
    List.all_iff_forall_prop.mp (by decide +kernel)
  exact hrows c (mem_rows_of_digitOf_lt h)

variable {s : Text}

/-- Plain characters are left as they are, -/
theorem withoutMargins_of_isVerbatim (h : ∀ c ∈ s, IsVerbatim c) : withoutMargins s = s := by
  have hkept : ∀ t : Text, (∀ c ∈ t, IsVerbatim c) → t.dropWhile isMargin = t := by
    intro t ht
    cases t with
    | nil => rfl
    | cons c r =>
        have hc := (ht c List.mem_cons_self).notMargin
        exact List.dropWhile_cons_of_neg (by simp [hc])
  rw [withoutMargins, hkept s h, hkept s.reverse (by simpa using h), List.reverse_reverse]

theorem unsigned_of_isVerbatim (h : ∀ c ∈ s, IsVerbatim c) : unsigned s = (s, false) := by
  unfold unsigned
  split
  · exact absurd rfl (h '+' List.mem_cons_self).notSign.1
  · exact absurd rfl (h '-' List.mem_cons_self).notSign.2
  · rfl

theorem map_asciiDigit_of_isVerbatim (h : ∀ c ∈ s, IsVerbatim c) : s.map asciiDigit = s :=
  (List.map_congr_left fun c hc => (h c hc).ascii).trans (List.map_id s)

/-- Digits without underscores are read as they stand. -/
theorem readDigits?_eq (hbase : base ≤ 16) (hne : ds ≠ []) (h : ∀ c ∈ ds, digitOf c < base) :
    readDigits? base ds = some (numeral base ds) := by
  have hline : '_' ∉ ds := fun hmem =>
    (isVerbatim_of_digitOf_lt ((h '_' hmem).trans_le hbase)).notLine rfl
  have hpair : occursIn "__".toList ds = false := by
    rw [← Bool.not_eq_true, occursIn_iff]
    exact fun hpart => hline (hpart.subset (List.mem_cons_self : '_' ∈ ['_', '_']))
  have hplaced : (!ds.isEmpty && ds.head? != some '_' && ds.getLast? != some '_'
      && !occursIn "__".toList ds) = true := by
    simp only [Bool.and_eq_true, Bool.not_eq_true', bne_iff_ne, List.isEmpty_eq_false_iff, hpair,
      and_true]
    exact ⟨⟨hne, fun hh => hline (List.mem_of_mem_head? hh)⟩,
      fun hl => hline (List.mem_of_getLast? hl)⟩
  have hkept : ds.filter (· != '_') = ds := by
    rw [List.filter_eq_self]
    exact fun c hc => bne_iff_ne.mpr fun heq => hline (heq ▸ hc)
  rw [readDigits?]
  simp only [hplaced, if_true, hkept]
  exact positional?_eq hbase hne h

/-- **What a whole number reads as**: digits of the base, behind its mark or none. -/
theorem readInteger?_eq (hbase : base ≤ 16) (hs : ∀ c ∈ s, IsVerbatim c)
    (hmark : withoutMark base s = ds) (hne : ds ≠ []) (h : ∀ c ∈ ds, digitOf c < base) :
    readInteger? base s = some (numeral base ds : Int) := by
  rw [readInteger?, withoutMargins_of_isVerbatim hs, unsigned_of_isVerbatim hs]
  dsimp only
  rw [map_asciiDigit_of_isVerbatim hs, hmark, readDigits?_eq hbase hne h]
  rfl

/-- Decimal digits are all counted. -/
theorem leadingDigits_eq (h : ∀ c ∈ ds, digitOf c < 10) : leadingDigits ds = ds.length := by
  have hverbatim : ∀ c ∈ ds, IsVerbatim c :=
    fun c hc => isVerbatim_of_digitOf_lt ((h c hc).trans (by decide))
  have hdigit : ∀ c ∈ ds, c.isDigit = true := by
    have hrows : ∀ c ∈ "0123456789abcdef".toList ++ "0123456789ABCDEF".toList,
        digitOf c < 10 → c.isDigit = true := List.all_iff_forall_prop.mp (by decide +kernel)
    exact fun c hc =>
      hrows c (mem_rows_of_digitOf_lt ((h c hc).trans (by decide))) (h c hc)
  have hrun : ds.takeWhile (fun c => c.isDigit || c == '_') = ds := by
    rw [← List.append_nil ds, List.takeWhile_append_of_pos fun c hc => by simp [hdigit c hc]]
    rfl
  rw [leadingDigits, withoutMargins_of_isVerbatim hverbatim, unsigned_of_isVerbatim hverbatim]
  dsimp only
  rw [map_asciiDigit_of_isVerbatim hverbatim, hrun, List.countP_eq_length.mpr hdigit]

/-- **Decimal digits** are read up to the limit. -/
theorem toInteger_eq (hne : ds ≠ []) (h : ∀ c ∈ ds, digitOf c < 10) :
    toInteger ds = if Fault.digitLimit < ds.length then .error (.tooManyDigits ds.length)
      else .ok (numeral 10 ds : Int) := by
  have hverbatim : ∀ c ∈ ds, IsVerbatim c :=
    fun c hc => isVerbatim_of_digitOf_lt ((h c hc).trans (by decide))
  have hmark : withoutMark 10 ds = ds := by
    unfold withoutMark
    split
    · rfl
    · rfl
  rw [toInteger, leadingDigits_eq h, readInteger?_eq (by decide) hverbatim hmark hne h]

end Text

end Unflag
