/-
What a token depends on ends with its line.

A token is cut off the front of a text, and what stands behind it decides where it ends.
How far that influence reaches is the question of this file, and the answer is: up to the
end of the line the token ends on. If two texts agree up to there, the same token is read
from both (`tokenAt_local`).

For most tokens this is immediate, since every run, prefix and single look ahead stops at a
line end; the lemmas of the first sections say so for each of them, and what they are about
is then the same function of the line alone. Two kinds of literal run across lines. A string
or a delimited expression that has been read to its end never looked further than the line
it ends on, so it is followed along its own recursion. A bare regular expression looks for a
slash up to the end of the line, but a backslash at that end would cover the line end
itself; this is the one case that has to be excluded.
-/
import Unflag.Proofs.TokenScan

set_option autoImplicit false

namespace Unflag

open Text

/-! ## Texts at the end of a line -/

/-- Nothing is left of the line: the text is over, or starts with a line end. -/
def AtLineEnd (s : Text) : Prop := ∀ c ∈ s.head?, isLineEnd c = true

/-- A test that no line end passes. -/
def StopsAtLineEnd (p : Char → Bool) : Prop := p '\n' = false ∧ p '\r' = false

theorem atLineEnd_nil : AtLineEnd [] := fun _ hc => absurd hc (by simp)

theorem StopsAtLineEnd.eq_false {p : Char → Bool} (hp : StopsAtLineEnd p) {c : Char}
    (hc : isLineEnd c = true) : p c = false := by
  have hcases : c = '\n' ∨ c = '\r' := by simpa [isLineEnd] using hc
  rcases hcases with rfl | rfl
  · exact hp.1
  · exact hp.2

/-- A test that fails at line ends fails at the end of a line. -/
theorem StopsAtLineEnd.of_cons {p : Char → Bool} (hp : StopsAtLineEnd p) {c : Char} {r : Text}
    (hx : AtLineEnd (c :: r)) : p c = false := hp.eq_false (hx c rfl)

variable {v x y : Text}

/-- Two texts that are at the end of a line look the same to a test that stops there. -/
theorem takeWhile_append_of_atLineEnd {p : Char → Bool} (hp : StopsAtLineEnd p)
    (hx : AtLineEnd x) (v : Text) : (v ++ x).takeWhile p = v.takeWhile p := by
  have hnil : x.takeWhile p = [] := by
    cases x with
    | nil => rfl
    | cons c r => rw [List.takeWhile_cons_of_neg (by rw [hp.of_cons hx]; simp)]
  rw [List.takeWhile_append]
  split
  · next hall => rw [hnil, List.append_nil, (List.takeWhile_prefix p).eq_of_length hall]
  · rfl

theorem head?_append_of_atLineEnd {d : Char} (hd : isLineEnd d = false) (hx : AtLineEnd x)
    (v : Text) : ((v ++ x).head? == some d) = (v.head? == some d) := by
  cases v with
  | cons c r => rfl
  | nil =>
      cases x with
      | nil => rfl
      | cons c r =>
          have hne : c ≠ d := by
            rintro rfl
            exact absurd (hx c rfl) (by simp [hd])
          simpa using hne

/-- A needle without line ends is not found across the end of a line. -/
theorem isPrefixOf_append_of_atLineEnd {p : Text} (hp : ∀ c ∈ p, isLineEnd c = false)
    (hx : AtLineEnd x) (v : Text) : p.isPrefixOf (v ++ x) = p.isPrefixOf v := by
  induction p generalizing v with
  | nil => simp
  | cons d q ih =>
      obtain ⟨hd, hq⟩ := List.forall_mem_cons.mp hp
      cases v with
      | cons c r => simp only [List.cons_append, List.isPrefixOf_cons_cons, ih hq]
      | nil =>
          cases x with
          | nil => rfl
          | cons c r =>
              have hne : d ≠ c := by
                rintro rfl
                exact absurd (hx d rfl) (by simp [hd])
              simp [List.isPrefixOf, hne]

theorem isLineEnd_hashes (k : Nat) : ∀ c ∈ Literal.hashes k, isLineEnd c = false := by
  intro c hc
  rw [List.eq_of_mem_replicate hc]
  rfl

theorem isLineEnd_closingTail (k : Nat) (multiline : Bool) :
    ∀ c ∈ Literal.closingTail k multiline, isLineEnd c = false := by
  refine List.forall_mem_append.mpr ⟨?_, isLineEnd_hashes k⟩
  cases multiline <;> simp [isLineEnd]

/-! ## Numbers -/

namespace Literal

theorem digits_append {isDigit : Char → Bool} (hd : StopsAtLineEnd isDigit) (hx : AtLineEnd x)
    (v : Text) : digits isDigit (v ++ x) = digits isDigit v := by
  have htail : StopsAtLineEnd fun d => isDigit d || d == '_' :=
    ⟨by simp [hd.1], by simp [hd.2]⟩
  cases v with
  | cons c r => rw [List.cons_append, digits, digits, takeWhile_append_of_atLineEnd htail hx]
  | nil =>
      cases x with
      | nil => rfl
      | cons c r => simp [digits, hd.of_cons hx]

theorem digits_le (isDigit : Char → Bool) (v : Text) : digits isDigit v ≤ v.length := by
  cases v with
  | nil => exact Nat.le_refl 0
  | cons c r =>
      rw [digits]
      split
      · exact Nat.succ_le_succ (List.takeWhile_prefix _).length_le
      · exact Nat.zero_le _

theorem fraction_append {isDigit : Char → Bool} (hd : StopsAtLineEnd isDigit) (hx : AtLineEnd x)
    (v : Text) : fraction isDigit (v ++ x) = fraction isDigit v := by
  cases v with
  | cons c r =>
      by_cases hc : c = '.'
      · subst hc
        rw [List.cons_append, fraction, fraction, digits_append hd hx]
      · rw [List.cons_append, fraction, fraction] <;> simp [hc]
  | nil =>
      cases x with
      | nil => rfl
      | cons c r =>
          have hc : c ≠ '.' := by
            rintro rfl
            exact absurd (hx '.' rfl) (by decide)
          rw [List.nil_append, fraction] <;> simp [fraction, hc]

theorem fraction_le (isDigit : Char → Bool) (v : Text) : fraction isDigit v ≤ v.length := by
  unfold fraction
  split
  · next r =>
    have := digits_le isDigit r
    split
    · exact Nat.zero_le _
    · next n hn =>
      rw [hn] at this
      simpa using this
  · exact Nat.zero_le _

theorem exponent_append {isMark : Char → Bool} (hm : StopsAtLineEnd isMark) (hx : AtLineEnd x)
    (v : Text) : exponent isMark (v ++ x) = exponent isMark v := by
  have hdigit : StopsAtLineEnd Char.isDigit := ⟨rfl, rfl⟩
  have hend : ∀ c r, AtLineEnd (c :: r) →
      (c == '+' || c == '-') = false ∧ digits Char.isDigit (c :: r) = 0 := by
    intro c r hc
    have hsign : StopsAtLineEnd fun d => d == '+' || d == '-' := ⟨rfl, rfl⟩
    exact ⟨hsign.of_cons hc, by simp [digits, hdigit.of_cons hc]⟩
  rcases v with _ | ⟨c, _ | ⟨s, q⟩⟩
  · cases x with
    | nil => rfl
    | cons c r => simp [exponent, hm.of_cons hx]
  · cases x with
    | nil => rfl
    | cons d r => simp [exponent, hend d r hx]
  · have hq := digits_append hdigit hx q
    have hsq := digits_append hdigit hx (s :: q)
    rw [List.cons_append] at hsq
    simp only [List.cons_append, exponent, hq, hsq]

theorem exponent_le (isMark : Char → Bool) (v : Text) : exponent isMark v ≤ v.length := by
  match v with
  | [] => exact Nat.le_refl 0
  | [c] =>
      rw [exponent]
      split <;> exact Nat.zero_le _
  | c :: s :: q =>
      have hq := digits_le Char.isDigit q
      have hsq := digits_le Char.isDigit (s :: q)
      rw [List.length_cons] at hsq
      simp only [exponent, List.length_cons]
      split
      · split
        · split <;> omega
        · split <;> omega
      · exact Nat.zero_le _

/-- A number ends with its line. -/
theorem withTail_append {isDigit isMark : Char → Bool} (hd : StopsAtLineEnd isDigit)
    (hm : StopsAtLineEnd isMark) (hx : AtLineEnd x) {n : Nat} {v : Text} (hn : n ≤ v.length) :
    withTail isDigit isMark n (v ++ x) = withTail isDigit isMark n v := by
  have hf := fraction_append hd hx (v.drop n)
  have hle : n + fraction isDigit (v.drop n) ≤ v.length := by
    have := fraction_le isDigit (v.drop n)
    rw [List.length_drop] at this
    omega
  simp only [withTail, List.drop_append_of_le_length hn, hf, List.drop_append_of_le_length hle,
    exponent_append hm hx]

theorem withTail_le (isDigit isMark : Char → Bool) {n : Nat} {v : Text} (hn : n ≤ v.length) :
    (withTail isDigit isMark n v).length ≤ v.length := by
  have hf := fraction_le isDigit (v.drop n)
  have he := exponent_le isMark (v.drop (n + fraction isDigit (v.drop n)))
  rw [List.length_drop] at hf he
  show n + fraction isDigit (v.drop n) + exponent isMark (v.drop (n + fraction isDigit (v.drop n)))
    ≤ v.length
  omega

theorem number_le (v : Text) : (number v).length ≤ v.length := by
  have hplain := withTail_le Char.isDigit (fun c => c == 'e' || c == 'E') (digits_le Char.isDigit v)
  unfold number
  dsimp only
  split
  · next r =>
    have hr := digits_le isHexDigit r
    split
    · exact hplain
    · next n hn => exact withTail_le _ _ (by simp only [List.length_cons]; omega)
  · next r =>
    have hr := digits_le isOctalDigit r
    split
    · exact hplain
    · next n hn => simp only [List.length_cons]; omega
  · next r =>
    have hr := digits_le isBinaryDigit r
    split
    · exact hplain
    · next n hn => simp only [List.length_cons]; omega
  · exact hplain

theorem number_append (hx : AtLineEnd x) (c : Char) (v : Text) :
    number (c :: v ++ x) = number (c :: v) := by
  have hdecimal : StopsAtLineEnd Char.isDigit := ⟨rfl, rfl⟩
  have hhex : StopsAtLineEnd isHexDigit := ⟨rfl, rfl⟩
  have hoctal : StopsAtLineEnd isOctalDigit := ⟨rfl, rfl⟩
  have hbinary : StopsAtLineEnd isBinaryDigit := ⟨rfl, rfl⟩
  have hmark : StopsAtLineEnd fun c => c == 'e' || c == 'E' := ⟨rfl, rfl⟩
  have hpower : StopsAtLineEnd fun c => c == 'p' || c == 'P' := ⟨rfl, rfl⟩
  have hplain := withTail_append hdecimal hmark hx (digits_le Char.isDigit (c :: v))
  unfold number
  rw [digits_append hdecimal hx, hplain]
  cases v with
  | nil =>
      cases x with
      | nil => rfl
      | cons d r =>
          -- no base follows: the line ends behind the first digit
          have hbase : d ≠ 'x' ∧ d ≠ 'o' ∧ d ≠ 'b' := by
            refine ⟨?_, ?_, ?_⟩ <;> rintro rfl <;> exact absurd (hx _ rfl) (by decide)
          simp [hbase]
  | cons d w =>
      have hlength : ∀ {isDigit : Char → Bool} {n : Nat}, digits isDigit w = n + 1 →
          n + 3 ≤ (c :: d :: w).length := by
        intro isDigit n hn
        have := digits_le isDigit w
        simp only [List.length_cons]
        omega
      simp only [List.cons_append]
      split
      · next r heq =>
        cases heq
        simp only [digits_append hhex hx]
        cases hn : digits isHexDigit w with
        | zero => rfl
        | succ n => exact withTail_append hhex hpower hx (hlength hn)
      · next r heq =>
        cases heq
        simp only [digits_append hoctal hx]
      · next r heq =>
        cases heq
        simp only [digits_append hbinary hx]
      · next hhexes hoctals hbinaries =>
        split
        · next r heq => cases heq; exact absurd rfl (hhexes _)
        · next r heq => cases heq; exact absurd rfl (hoctals _)
        · next r heq => cases heq; exact absurd rfl (hbinaries _)
        · rfl

/-! ## String literals -/

/-- The delimiter that opens a literal is on its line. -/
theorem opening?_append (hx : AtLineEnd x) (c : Char) (v : Text) :
    opening? c (v ++ x) = opening? c v := by
  have hrun := takeWhile_append_of_atLineEnd (p := (· == '#')) ⟨rfl, rfl⟩ hx (c :: v)
  have hle := (List.takeWhile_prefix (p := (· == '#')) (l := c :: v)).length_le
  unfold opening?
  rw [← List.cons_append, hrun]
  dsimp only
  rw [List.drop_append_of_le_length hle]
  generalize hw : (c :: v).drop ((c :: v).takeWhile (· == '#')).length = w
  cases w with
  | nil =>
      cases x with
      | nil => rfl
      | cons d r =>
          have hd : d ≠ '\x22' := by
            rintro rfl
            exact absurd (hx _ rfl) (by decide)
          simp [hd]
  | cons d q =>
      have hquotes := isPrefixOf_append_of_atLineEnd (p := ['\x22', '\x22'])
        (by simp [isLineEnd]) hx q
      by_cases hd : d = '\x22'
      · subst hd
        simp only [List.cons_append, hquotes]
      · simp [hd]

theorem opening?_le {c : Char} {v : Text} {level : Level} {n : Nat}
    (h : opening? c v = some (level, n)) : n ≤ v.length := by
  unfold opening? at h
  dsimp only at h
  split at h
  · next q hq =>
    have hlength := congrArg List.length hq
    rw [List.length_drop, List.length_cons, List.length_cons] at hlength
    split at h
    · next hquotes =>
      have := (List.isPrefixOf_iff_prefix.mp hquotes).length_le
      cases h
      simp only [List.length_cons, List.length_nil] at this
      omega
    · cases h
      omega
  · exact absurd h (by simp)

/-- In an interpolation a literal opens, or one character is taken and the levels that are
open then do not depend on what follows. -/
theorem exists_extent_spliced (d : Nat) (up : List Level) (c : Char) :
    ∃ now, ∀ r, extent (.spliced d :: up) (c :: r) = match opening? c r with
      | some (level, n) => (extent (level :: .spliced d :: up) (r.drop n)).map (· + (n + 1))
      | none => (extent now r).map (· + 1) := by
  cases d with
  | zero => exact ⟨_, fun r => extent.eq_5 up c r⟩
  | succ d => exact ⟨_, fun r => extent.eq_6 up c r d⟩

/-- An open level takes at least one more character. -/
theorem extent_pos {level : Level} {up : List Level} {s : Text} {m : Nat}
    (h : extent (level :: up) s = .ok m) : 0 < m := by
  cases s with
  | nil => cases level <;> exact absurd h (by simp [extent])
  | cons c r =>
      cases level with
      | quoted k multiline =>
          rw [extent] at h
          split at h
          · exact absurd h (by simp)
          split at h
          · obtain ⟨_, _, rfl⟩ := exists_of_map_eq_ok h
            omega
          split at h
          · obtain ⟨_, _, rfl⟩ := exists_of_map_eq_ok h
            omega
          · obtain ⟨_, _, rfl⟩ := exists_of_map_eq_ok h
            omega
      | spliced d =>
          obtain ⟨now, hnow⟩ := exists_extent_spliced d up c
          rw [hnow] at h
          split at h
          · obtain ⟨_, _, rfl⟩ := exists_of_map_eq_ok h
            omega
          · obtain ⟨_, _, rfl⟩ := exists_of_map_eq_ok h
            omega

theorem extent_le {levels : List Level} {s : Text} {m : Nat} (h : extent levels s = .ok m) :
    m ≤ s.length := by
  induction hlength : s.length using Nat.strong_induction_on generalizing levels s m with
  | _ size ih =>
  -- one step takes `j` characters, as many as there are, and the rest is shorter
  have hnext : ∀ {inner : List Level} {j : Nat}, 0 < j → j ≤ s.length →
      (extent inner (s.drop j)).map (· + j) = .ok m → m ≤ size := by
    intro inner j hj hle hmap
    obtain ⟨n, hn, rfl⟩ := exists_of_map_eq_ok hmap
    have hshort : (s.drop j).length < size := by
      rw [List.length_drop]
      omega
    have := ih _ hshort hn rfl
    rw [List.length_drop] at this
    omega
  cases levels with
  | nil =>
      rw [extent] at h
      cases h
      exact Nat.zero_le _
  | cons level up =>
      cases s with
      | nil => cases level <;> exact absurd h (by simp [extent])
      | cons c r =>
          cases level with
          | quoted k multiline =>
              rw [extent] at h
              split at h
              · exact absurd h (by simp)
              split at h
              · -- an escape at the very end leaves the literal open
                obtain ⟨n, hn, _⟩ := exists_of_map_eq_ok h
                have hne : r.drop (k + 1) ≠ [] := by
                  intro hnil
                  rw [hnil] at hn
                  split at hn <;> exact absurd hn (by simp [extent])
                have hlt : k + 1 < r.length := by
                  simpa [List.drop_eq_nil_iff] using hne
                exact hnext (Nat.succ_pos _) (by simp only [List.length_cons]; omega) h
              split at h
              · next hclose =>
                have hle :=
                  (List.isPrefixOf_iff_prefix.mp (Bool.and_eq_true_iff.mp hclose).2).length_le
                exact hnext (Nat.succ_pos _) (Nat.succ_le_succ hle) h
              · exact hnext Nat.one_pos (by simp) h
          | spliced d =>
              obtain ⟨now, hnow⟩ := exists_extent_spliced d up c
              rw [hnow] at h
              cases hopening : opening? c r with
              | some found =>
                  rw [hopening] at h
                  exact hnext (Nat.succ_pos _) (Nat.succ_le_succ (opening?_le hopening)) h
              | none =>
                  rw [hopening] at h
                  exact hnext Nat.one_pos (by simp) h

/-- **A literal that is closed** on a line does not look past that line. -/
theorem extent_local (hx : AtLineEnd x) (hy : AtLineEnd y) {levels : List Level} {w : Text}
    {m : Nat} (h : extent levels (w ++ x) = .ok m) (hm : m ≤ w.length) :
    extent levels (w ++ y) = .ok m := by
  induction hlength : w.length using Nat.strong_induction_on generalizing levels w m with
  | _ size ih =>
  -- one step takes `j` characters of `w`, and what is left of `w` is shorter
  have hnext : ∀ {inner : List Level} {j : Nat}, 0 < j →
      (extent inner ((w ++ x).drop j)).map (· + j) = .ok m →
        (extent inner ((w ++ y).drop j)).map (· + j) = .ok m := by
    intro inner j hj hmap
    obtain ⟨n, hn, rfl⟩ := exists_of_map_eq_ok hmap
    have hle : j ≤ w.length := by omega
    rw [List.drop_append_of_le_length hle] at hn ⊢
    have hshort : (w.drop j).length < size := by
      rw [List.length_drop]
      omega
    rw [ih _ hshort hn (by rw [List.length_drop]; omega) rfl]
    rfl
  cases levels with
  | nil => rw [extent] at h ⊢; exact h
  | cons level up =>
      have hpos := extent_pos h
      cases w with
      | nil => exact absurd hm (by simp only [List.length_nil]; omega)
      | cons c r =>
          cases level with
          | quoted k multiline =>
              have hhashes := isLineEnd_hashes k
              have htail := isLineEnd_closingTail k multiline
              rw [List.cons_append, extent, isPrefixOf_append_of_atLineEnd hhashes hx,
                isPrefixOf_append_of_atLineEnd htail hx] at h
              rw [List.cons_append, extent, isPrefixOf_append_of_atLineEnd hhashes hy,
                isPrefixOf_append_of_atLineEnd htail hy]
              split at h
              · exact absurd h (by simp)
              next hline =>
              rw [if_neg hline]
              split at h
              · next hescape =>
                have hk : k ≤ r.length := by
                  have :=
                    (List.isPrefixOf_iff_prefix.mp (Bool.and_eq_true_iff.mp hescape).2).length_le
                  simpa [hashes] using this
                have hparen : isLineEnd '(' = false := rfl
                rw [if_pos hescape]
                rw [List.drop_append_of_le_length hk, head?_append_of_atLineEnd hparen hx] at h
                rw [List.drop_append_of_le_length hk, head?_append_of_atLineEnd hparen hy]
                exact hnext (Nat.succ_pos _) h
              next hescape =>
              rw [if_neg hescape]
              split at h
              · next hclose =>
                rw [if_pos hclose]
                exact hnext (Nat.succ_pos _) h
              · next hclose =>
                rw [if_neg hclose]
                exact hnext Nat.one_pos h
          | spliced d =>
              obtain ⟨now, hnow⟩ := exists_extent_spliced d up c
              rw [List.cons_append, hnow, opening?_append hx] at h
              rw [List.cons_append, hnow, opening?_append hy]
              cases hopening : opening? c r with
              | some found =>
                  rw [hopening] at h
                  exact hnext (Nat.succ_pos _) h
              | none =>
                  rw [hopening] at h
                  exact hnext Nat.one_pos h

/-! ## Regular expressions -/

theorem bareRegexFrom_cons (p c : Char) (r : Text) :
    bareRegexFrom p (c :: r) = if isLineEnd c then none
      else if c == '\\' then
        match r with
        | [] => none
        | d :: q => (bareRegexFrom d q).map (· + 2)
      else if c == '/' then (if isBlank p then none else some 1)
      else (bareRegexFrom c r).map (· + 1) := by
  cases r <;> rfl

/-- A bare regular expression is on one line, if no backslash covers the end of the line. -/
theorem bareRegexFrom_append (hx : AtLineEnd x) (p : Char) {v : Text}
    (hv : v.getLast? ≠ some '\\') : bareRegexFrom p (v ++ x) = bareRegexFrom p v := by
  fun_induction bareRegexFrom p v with
  | case1 p =>
      cases x with
      | nil => rfl
      | cons d r => rw [List.nil_append, bareRegexFrom_cons, if_pos (hx d rfl)]
  | case2 p c r hend => rw [List.cons_append, bareRegexFrom_cons, if_pos hend]
  | case3 p c hend hslash =>
      -- the backslash that would cover the line end
      rw [eq_of_beq hslash] at hv
      exact absurd rfl hv
  | case4 p c hend hslash d q ih =>
      have hq : q.getLast? ≠ some '\\' := by
        cases q with
        | nil => simp
        | cons e w => simpa using hv
      rw [List.cons_append, bareRegexFrom_cons, if_neg hend, if_pos hslash]
      show (bareRegexFrom d (q ++ x)).map (· + 2) = _
      rw [ih hq]
  | case5 p c r hend hescape hslash hblank =>
      rw [List.cons_append, bareRegexFrom_cons, if_neg hend, if_neg hescape, if_pos hslash,
        if_pos hblank]
  | case6 p c r hend hescape hslash hblank =>
      rw [List.cons_append, bareRegexFrom_cons, if_neg hend, if_neg hescape, if_pos hslash,
        if_neg hblank]
  | case7 p c r hend hescape hslash ih =>
      have hr : r.getLast? ≠ some '\\' := by
        cases r with
        | nil => simp
        | cons e w => simpa using hv
      rw [List.cons_append, bareRegexFrom_cons, if_neg hend, if_neg hescape, if_neg hslash, ih hr]

theorem bareRegexFrom_le {p : Char} {v : Text} {n : Nat} (h : bareRegexFrom p v = some n) :
    n ≤ v.length := by
  fun_induction bareRegexFrom p v generalizing n with
  | case1 => exact absurd h (by simp)
  | case2 => exact absurd h (by simp)
  | case3 => exact absurd h (by simp)
  | case4 p c hend hslash d q ih =>
      obtain ⟨m, hm, rfl⟩ := Option.map_eq_some_iff.mp h
      have := ih hm
      simp only [List.length_cons]
      omega
  | case5 => exact absurd h (by simp)
  | case6 => cases h; simp
  | case7 p c r hend hescape hslash ih =>
      obtain ⟨m, hm, rfl⟩ := Option.map_eq_some_iff.mp h
      exact Nat.succ_le_succ (ih hm)

theorem bareRegex?_le {v : Text} {n : Nat} (h : bareRegex? v = some n) : n ≤ v.length := by
  unfold bareRegex? at h
  split at h
  · exact absurd h (by simp)
  · split at h
    · exact absurd h (by simp)
    · exact bareRegexFrom_le h

theorem bareRegex?_append (hx : AtLineEnd x) {v : Text} (hv : v.getLast? ≠ some '\\') :
    bareRegex? (v ++ x) = bareRegex? v := by
  cases v with
  | cons c r =>
      have hfrom := bareRegexFrom_append hx '/' hv
      simp only [List.cons_append, bareRegex?] at hfrom ⊢
      rw [hfrom]
  | nil =>
      cases x with
      | nil => rfl
      | cons c r =>
          have hsolid : StopsAtLineEnd fun d => !isBlank d := ⟨rfl, rfl⟩
          have hblank : isBlank c = true := by simpa using hsolid.of_cons hx
          simp [bareRegex?, hblank]

end Literal

theorem find?_le {needle s : Text} {n : Nat} (h : find? needle s = some n) :
    n + needle.length ≤ s.length := by
  induction s generalizing n with
  | nil =>
      rw [find?] at h
      split at h
      · next hempty => cases h; simp_all
      · exact absurd h (by simp)
  | cons c r ih =>
      rw [find?] at h
      split at h
      · next hfound =>
        cases h
        rw [Nat.zero_add]
        exact (List.isPrefixOf_iff_prefix.mp hfound).length_le
      · obtain ⟨m, hm, rfl⟩ := Option.map_eq_some_iff.mp h
        have := ih hm
        rw [List.length_cons]
        omega

/-- A needle that is found on a line is found there whatever follows the line. -/
theorem find?_local {needle w : Text} {n : Nat} (hneedle : ∀ c ∈ needle, isLineEnd c = false)
    (hx : AtLineEnd x) (hy : AtLineEnd y) (h : find? needle (w ++ x) = some n)
    (hn : n + needle.length ≤ w.length) (hpos : needle ≠ []) :
    find? needle (w ++ y) = some n := by
  induction w generalizing n with
  | nil =>
      simp only [List.length_nil] at hn
      exact absurd (List.eq_nil_of_length_eq_zero (by omega)) hpos
  | cons c r ih =>
      have hhere : ∀ {z : Text}, AtLineEnd z →
          needle.isPrefixOf (c :: (r ++ z)) = needle.isPrefixOf (c :: r) := fun hz =>
        isPrefixOf_append_of_atLineEnd hneedle hz (c :: r)
      rw [List.cons_append, find?, hhere hx] at h
      rw [List.cons_append, find?, hhere hy]
      split at h
      · next hfound => rw [if_pos hfound]; exact h
      · next hfound =>
        rw [if_neg hfound]
        obtain ⟨m, hm, rfl⟩ := Option.map_eq_some_iff.mp h
        rw [ih hm (by simp only [List.length_cons] at hn; omega)]
        rfl

namespace Lexeme

/-! ## Tokens -/

theorem nameLength_append (hx : AtLineEnd x) (v : Text) : nameLength (v ++ x) = nameLength v := by
  rw [nameLength, nameLength, takeWhile_append_of_atLineEnd ⟨rfl, rfl⟩ hx]

theorem operatorLength_append (hx : AtLineEnd x) (v : Text) :
    operatorLength (v ++ x) = operatorLength v := by
  induction v with
  | nil =>
      cases x with
      | nil => rfl
      | cons c r =>
          have hstop : StopsAtLineEnd isOperatorChar := ⟨rfl, rfl⟩
          simp [operatorLength, hstop.of_cons hx]
  | cons c r ih =>
      rw [List.cons_append, operatorLength, operatorLength, head?_append_of_atLineEnd rfl hx,
        head?_append_of_atLineEnd rfl hx, ih]

theorem operatorLength_le (v : Text) : operatorLength v ≤ v.length := by
  induction v with
  | nil => exact Nat.le_refl 0
  | cons c r ih =>
      rw [operatorLength]
      split
      · exact Nat.succ_le_succ ih
      · exact Nat.zero_le _

/-- Whether a back quote with `r` behind it opens a name. -/
def isQuotedName (r : Text) : Bool :=
  decide ((r.takeWhile (· != '\x60')).length < r.length)
    && (r.takeWhile (· != '\x60')).all fun d => !isLineEnd d

/-- A name in back quotes is on one line. -/
theorem isQuotedName_append (hx : AtLineEnd x) (v : Text) :
    isQuotedName (v ++ x) = isQuotedName v
      ∧ (isQuotedName v = true →
        (v ++ x).takeWhile (· != '\x60') = v.takeWhile (· != '\x60')) := by
  by_cases hclosed : (v.takeWhile (· != '\x60')).length = v.length
  · -- the line has no further back quote, so the name would have to go on behind it
    have hself := (List.takeWhile_prefix (· != '\x60')).eq_of_length hclosed
    have hopen : isQuotedName v = false := by simp [isQuotedName, hclosed]
    refine ⟨?_, fun h => absurd h (by simp [hopen])⟩
    rw [hopen, isQuotedName, List.takeWhile_append_of_pos (List.takeWhile_eq_self_iff.mp hself)]
    cases x with
    | nil => simp
    | cons c r =>
        have hstop : StopsAtLineEnd (· == '\x60') := ⟨rfl, rfl⟩
        have hquote : (c != '\x60') = true := by
          rw [bne, hstop.of_cons hx]
          rfl
        rw [List.takeWhile_cons_of_pos (p := (· != '\x60')) hquote, Bool.and_eq_false_iff]
        exact .inr (by simp [hx c rfl])
  · -- the back quote that closes the name is on the line
    have hsame : (v ++ x).takeWhile (· != '\x60') = v.takeWhile (· != '\x60') := by
      rw [List.takeWhile_append, if_neg hclosed]
    have hle := (List.takeWhile_prefix (p := (· != '\x60')) (l := v)).length_le
    refine ⟨?_, fun _ => hsame⟩
    rw [isQuotedName, isQuotedName, hsame, List.length_append,
      decide_eq_true (by omega), decide_eq_true (by omega)]

/-- How far a string reaches that opens at a character. -/
theorem string_local (hx : AtLineEnd x) (hy : AtLineEnd y) {c : Char} {k : Token.Kind} {n : Nat}
    (h : (match Literal.opening? c (v ++ x) with
      | some (level, m) =>
        (Literal.extent [level] ((v ++ x).drop m)).map fun j => (Token.Kind.string, m + j)
      | none => .ok (.unknown, 0)) = .ok (k, n)) (hn : n ≤ v.length) :
    (match Literal.opening? c (v ++ y) with
      | some (level, m) =>
        (Literal.extent [level] ((v ++ y).drop m)).map fun j => (Token.Kind.string, m + j)
      | none => .ok (.unknown, 0)) = .ok (k, n) := by
  rw [Literal.opening?_append hx] at h
  rw [Literal.opening?_append hy]
  cases hopening : Literal.opening? c v with
  | none =>
      rw [hopening] at h
      exact h
  | some found =>
      obtain ⟨level, m⟩ := found
      rw [hopening] at h
      have hm := Literal.opening?_le hopening
      dsimp only at h ⊢
      rw [List.drop_append_of_le_length hm] at h ⊢
      obtain ⟨j, hj, heq⟩ := exists_of_map_eq_ok h
      obtain ⟨rfl, rfl⟩ := Prod.mk.inj heq
      have hfits : j ≤ (v.drop m).length := by
        rw [List.length_drop]
        omega
      rw [Literal.extent_local hx hy hj hfits]
      rfl

/-- Number signs up to the end of a line start nothing. -/
theorem poundAt_atLineEnd (hx : AtLineEnd x)
    (hv : v.drop (v.takeWhile (· == '#')).length = []) : poundAt (v ++ x) = .ok (.unknown, 0) := by
  have hle := (List.takeWhile_prefix (p := (· == '#')) (l := v)).length_le
  unfold poundAt
  dsimp only
  rw [takeWhile_append_of_atLineEnd (p := (· == '#')) ⟨rfl, rfl⟩ hx, Nat.add_sub_cancel,
    List.drop_append_of_le_length hle, hv, List.nil_append]
  cases x with
  | nil => rfl
  | cons d r =>
      have hstart : StopsAtLineEnd isNameStart := ⟨rfl, rfl⟩
      have hquote : StopsAtLineEnd (· == '\x22') := ⟨rfl, rfl⟩
      have hslash : StopsAtLineEnd (· == '/') := ⟨rfl, rfl⟩
      simp [hstart.of_cons hx, ne_of_beq_false (hquote.of_cons hx),
        ne_of_beq_false (hslash.of_cons hx)]

/-- The token behind a number sign. -/
theorem poundAt_local (hx : AtLineEnd x) (hy : AtLineEnd y) {k : Token.Kind} {n : Nat}
    (h : poundAt (v ++ x) = .ok (k, n)) (hn : n ≤ v.length) : poundAt (v ++ y) = .ok (k, n) := by
  cases hw : v.drop (v.takeWhile (· == '#')).length with
  | nil =>
      rw [poundAt_atLineEnd hx hw] at h
      rwa [poundAt_atLineEnd hy hw]
  | cons d q =>
      have hle := (List.takeWhile_prefix (p := (· == '#')) (l := v)).length_le
      have hname : nameLength v ≤ v.length := (List.takeWhile_prefix _).length_le
      have hlength := congrArg List.length hw
      rw [List.length_drop, List.length_cons] at hlength
      -- behind the number signs both texts go on with `d :: q`
      unfold poundAt at h ⊢
      dsimp only at h ⊢
      rw [takeWhile_append_of_atLineEnd (p := (· == '#')) ⟨rfl, rfl⟩ hx, Nat.add_sub_cancel,
        List.drop_append_of_le_length hle, hw, nameLength_append hx,
        List.take_append_of_le_length hname] at h
      rw [takeWhile_append_of_atLineEnd (p := (· == '#')) ⟨rfl, rfl⟩ hy, Nat.add_sub_cancel,
        List.drop_append_of_le_length hle, hw, nameLength_append hy,
        List.take_append_of_le_length hname]
      simp only [List.cons_append] at h ⊢
      split at h
      · next heq =>
        cases heq
        exact string_local hx hy h hn
      · next heq =>
        cases heq
        split at h
        · next m hm =>
          obtain ⟨rfl, rfl⟩ := Prod.mk.inj (Except.ok.inj h)
          have hneedle : ∀ c ∈ '/' :: Literal.hashes ((v.takeWhile (· == '#')).length + 1),
              isLineEnd c = false :=
            List.forall_mem_cons.mpr ⟨rfl, isLineEnd_hashes _⟩
          have hfits : m + ('/' :: Literal.hashes ((v.takeWhile (· == '#')).length + 1)).length
              ≤ q.length := by
            simp only [List.length_cons, Literal.hashes, List.length_replicate]
            omega
          simp only [find?_local hneedle hx hy hm hfits (List.cons_ne_nil _ _)]
        · exact absurd h (by simp)
      · next c r hquote hslash heq =>
        cases heq
        split
        · next heq => cases heq; exact (hquote rfl).elim
        · next heq => cases heq; exact (hslash rfl).elim
        · next heq => cases heq; exact h
        · next heq => cases heq
      · next heq => cases heq

theorem string_le {c : Char} {r : Text} {k : Token.Kind} {n : Nat}
    (h : (match Literal.opening? c r with
      | some (level, m) =>
        (Literal.extent [level] (r.drop m)).map fun j => (Token.Kind.string, m + j)
      | none => .ok (.unknown, 0)) = .ok (k, n)) : n ≤ r.length := by
  split at h
  · next level m hopening =>
    obtain ⟨j, hj, heq⟩ := exists_of_map_eq_ok h
    obtain ⟨_, rfl⟩ := Prod.mk.inj heq
    have hm := Literal.opening?_le hopening
    have := Literal.extent_le hj
    rw [List.length_drop] at this
    omega
  · cases h
    exact Nat.zero_le _

theorem poundAt_le {r : Text} {k : Token.Kind} {n : Nat} (h : poundAt r = .ok (k, n)) :
    n ≤ r.length := by
  have hname : nameLength r ≤ r.length := (List.takeWhile_prefix _).length_le
  unfold poundAt at h
  dsimp only at h
  rw [Nat.add_sub_cancel] at h
  split at h
  · exact string_le h
  · next q hq =>
    have hlength := congrArg List.length hq
    rw [List.length_drop, List.length_cons] at hlength
    split at h
    · next m hm =>
      have := find?_le hm
      cases h
      simp only [List.length_cons, Literal.hashes, List.length_replicate] at this
      omega
    · exact absurd h (by simp)
  · split at h
    · cases h
      exact hname
    · cases h
      exact Nat.zero_le _
  · cases h
    exact Nat.zero_le _

/-- A token takes no more characters than there are. -/
theorem tokenAt_le {last : Option Token} {c : Char} {r : Text} {k : Token.Kind} {n : Nat}
    (h : tokenAt last c r = .ok (k, n)) : n ≤ r.length := by
  unfold tokenAt at h
  dsimp only at h
  split at h
  · cases h
    exact (List.takeWhile_prefix _).length_le
  split at h
  · split at h
    · next hname =>
      cases h
      exact of_decide_eq_true (Bool.and_eq_true_iff.mp hname).1
    · cases h
      exact Nat.zero_le _
  split at h
  · have := Literal.number_le (c :: r)
    cases h
    rw [List.length_cons] at this
    omega
  split at h
  · exact string_le h
  split at h
  · exact poundAt_le h
  split at h
  · cases h
    exact (List.takeWhile_prefix _).length_le
  split at h
  · next m hm =>
    cases h
    split at hm
    · exact Literal.bareRegex?_le hm
    · exact absurd hm (by simp)
  split at h
  · cases h
    exact operatorLength_le r
  split at h
  · cases h
    exact Nat.zero_le _
  · cases h
    exact Nat.zero_le _

/-- **A token depends on its line.** What has been read in front of one line end is read in
front of any other. -/
theorem tokenAt_local (hx : AtLineEnd x) (hy : AtLineEnd y) {last : Option Token} {c : Char}
    {k : Token.Kind} {n : Nat} (h : tokenAt last c (v ++ x) = .ok (k, n)) (hn : n ≤ v.length)
    (hv : v.getLast? ≠ some '\\') : tokenAt last c (v ++ y) = .ok (k, n) := by
  have hquoted : ∀ {z : Text}, AtLineEnd z →
      (if isQuotedName (v ++ z) then
        (.ok (.identifier, ((v ++ z).takeWhile (· != '\x60')).length + 1) :
          Except Cause (Token.Kind × Nat))
      else .ok (.unknown, 0))
        = if isQuotedName v then .ok (.identifier, (v.takeWhile (· != '\x60')).length + 1)
          else .ok (.unknown, 0) := by
    intro z hz
    obtain ⟨hsame, htake⟩ := isQuotedName_append hz v
    rw [hsame]
    split
    · next hname => rw [htake hname]
    · rfl
  have hrun : StopsAtLineEnd fun d => isOperatorChar d || d == '.' := ⟨rfl, rfl⟩
  -- the classes in the order in which the scan tries them; only strings and what follows a
  -- number sign need more than their line
  unfold tokenAt at h ⊢
  dsimp only at h ⊢
  split at h
  · next hname =>
    rw [if_pos hname, nameLength_append hy]
    rwa [nameLength_append hx] at h
  next hname =>
  rw [if_neg hname]
  split at h
  · next hquote =>
    rw [if_pos hquote]
    exact (hquoted hy).trans ((hquoted hx).symm.trans h)
  next hquote =>
  rw [if_neg hquote]
  split at h
  · next hdigit =>
    rw [if_pos hdigit]
    rw [← List.cons_append, Literal.number_append hx] at h
    rwa [← List.cons_append, Literal.number_append hy]
  next hdigit =>
  rw [if_neg hdigit]
  split at h
  · next hstring =>
    rw [if_pos hstring]
    exact string_local hx hy h hn
  next hstring =>
  rw [if_neg hstring]
  split at h
  · next hpound =>
    rw [if_pos hpound]
    exact poundAt_local hx hy h hn
  next hpound =>
  -- the dots, the regular expression and the operator are tried on the line as it is
  rw [if_neg hpound]
  rw [head?_append_of_atLineEnd rfl hx, takeWhile_append_of_atLineEnd hrun hx,
    Literal.bareRegex?_append hx hv, operatorLength_append hx] at h
  rwa [head?_append_of_atLineEnd rfl hy, takeWhile_append_of_atLineEnd hrun hy,
    Literal.bareRegex?_append hy hv, operatorLength_append hy]

/-- Only a slash looks back at the token in front of it. -/
theorem tokenAt_congr {last last' : Option Token} {c : Char}
    (h : operandFollows last = operandFollows last' ∨ c ≠ '/') (r : Text) :
    tokenAt last c r = tokenAt last' c r := by
  have hslash : (c == '/' && operandFollows last) = (c == '/' && operandFollows last') := by
    rcases h with h | h
    · rw [h]
    · rw [beq_eq_false_iff_ne.mpr h, Bool.false_and, Bool.false_and]
  unfold tokenAt
  rw [hslash]

/-- That no trivia starts at a character is seen on its line. -/
theorem triviaAt_local (hx : AtLineEnd x) (hy : AtLineEnd y) {c : Char}
    (h : triviaAt c (v ++ x) = .ok none) : triviaAt c (v ++ y) = .ok none := by
  unfold triviaAt at h ⊢
  split at h
  · exact absurd h (by simp)
  next hspace =>
  split at h
  · exact absurd h (by simp)
  next htab =>
  split at h
  · exact absurd h (by simp)
  next hfeed =>
  split at h
  · split at h <;> exact absurd h (by simp)
  next hreturn =>
  rw [head?_append_of_atLineEnd rfl hx, head?_append_of_atLineEnd rfl hx] at h
  rw [if_neg hspace, if_neg htab, if_neg hfeed, if_neg hreturn, head?_append_of_atLineEnd rfl hy,
    head?_append_of_atLineEnd rfl hy]
  split at h
  · exact absurd h (by simp)
  next hline =>
  split at h
  · split at h <;> exact absurd h (by simp)
  next hblock =>
  rw [if_neg hline, if_neg hblock]
  exact h

end Lexeme

end Unflag
