/-
How far a string literal reaches.

A literal is described as a text, without a scanner. It opens with number signs and one quote or
three, and it is closed by the first delimiter of the same form that stands between its pieces:
escapes, interpolations and single characters. An interpolation is a text with balanced
parentheses, in which those inside literals do not count, so the two notions are defined
together (`Remainder`, `Interior`, `IsLiteral`).

The scanner knows no such texts. It has a stack of open levels and decides at each character
what to take next. `Step` says once what it can take and why, and the two directions meet there:
each step is a rule of the grammar read from its front (`Completes.step`), and along a derivation
the scanner takes just these steps (`Remainder.runs`). What follows a literal is never asked for
more than a third quote, so the rules look ahead only inside the text they derive and, for the
opening, at what stands behind the literal.
-/
import Unflag.Proofs.LineLocal

set_option autoImplicit false

namespace Unflag

open Text

namespace Literal

/-! ## Literals as texts -/

/-- The quotes of a delimiter. -/
def quotes (multiline : Bool) : Text :=
  if multiline then ['\x22', '\x22', '\x22'] else ['\x22']

/-- The delimiter that closes a literal: its quotes and its number signs. -/
def closing (k : Nat) (multiline : Bool) : Text := quotes multiline ++ hashes k

/-- What starts an escape: a backslash and the number signs of the literal. -/
def escapeMark (k : Nat) : Text := '\\' :: hashes k

/-- A literal opens here: number signs, or none, and a quote. -/
def OpensLiteral (s : Text) : Prop := ∃ k, hashes k ++ ['\x22'] <+: s

mutual

/-- The text behind the opening delimiter of a literal with so many number signs, up to the end
of the literal. -/
inductive Remainder : Nat → Bool → Text → Prop
  | close (k : Nat) (multiline : Bool) : Remainder k multiline (closing k multiline)
  /-- An escape covers one character, whatever it is, -/
  | escape {k : Nat} {multiline : Bool} {t : Text} (c : Char) (hc : c ≠ '(')
      (h : Remainder k multiline t) : Remainder k multiline (escapeMark k ++ c :: t)
  /-- but with an opening parenthesis it is an interpolation, up to the one that closes it. -/
  | interpolation {k : Nat} {multiline : Bool} {u t : Text} (hu : Interior u)
      (h : Remainder k multiline t) :
      Remainder k multiline (escapeMark k ++ '(' :: (u ++ ')' :: t))
  /-- Any other character is taken where no escape starts and no closing delimiter stands; on a
  single line it is no line end. -/
  | char {k : Nat} {multiline : Bool} {t : Text} (c : Char)
      (hline : multiline = false → isLineEnd c = false) (hescape : ¬ escapeMark k <+: c :: t)
      (hclose : ¬ closing k multiline <+: c :: t) (h : Remainder k multiline t) :
      Remainder k multiline (c :: t)

/-- The text between the parentheses of an interpolation: its own parentheses are balanced. -/
inductive Interior : Text → Prop
  | nil : Interior []
  | parentheses {u t : Text} (hu : Interior u) (h : Interior t) :
      Interior ('(' :: (u ++ ')' :: t))
  /-- Parentheses inside a literal do not count. -/
  | literal {u t : Text} (hu : IsLiteral u t) (h : Interior t) : Interior (u ++ t)
  | char {t : Text} (c : Char) (hc : c ≠ '(' ∧ c ≠ ')') (hopen : ¬ OpensLiteral (c :: t))
      (h : Interior t) : Interior (c :: t)

/-- The first text is a string literal in front of the second: number signs, quotes, three of
them if three stand there, and the rest up to the closing delimiter. -/
inductive IsLiteral : Text → Text → Prop
  | mk {t after : Text} (k : Nat) (multiline : Bool)
      (hquotes : multiline = true ↔ quotes true <+: quotes multiline ++ (t ++ after))
      (h : Remainder k multiline t) : IsLiteral (hashes k ++ (quotes multiline ++ t)) after

end

/-! ## Openings -/

theorem closing_eq (k : Nat) (multiline : Bool) :
    closing k multiline = '\x22' :: closingTail k multiline := by
  cases multiline <;> rfl

/-- A word is not found across a character that it does not hold. -/
theorem prefix_append_iff {w a s : Text} {c : Char} (hc : c ∉ w) :
    w <+: a ++ c :: s ↔ w <+: a := by
  constructor
  · intro h
    rcases List.prefix_or_prefix_of_prefix h (List.prefix_append a (c :: s)) with hshort | hlong
    · exact hshort
    · obtain ⟨x, rfl⟩ := hlong
      rw [List.prefix_append_right_inj] at h
      cases x with
      | nil => rw [List.append_nil]
      | cons d y =>
          obtain ⟨rfl, _⟩ := List.cons_prefix_cons.mp h
          exact absurd (by simp) hc
  · intro h
    exact h.trans (List.prefix_append a (c :: s))

theorem length_hashes (k : Nat) : (hashes k).length = k := List.length_replicate

/-- The number signs of a delimiter end where its quote stands. -/
theorem takeWhile_hashes (k : Nat) (t : Text) :
    (hashes k ++ '\x22' :: t).takeWhile (· == '#') = hashes k := by
  rw [hashes, List.takeWhile_append_of_pos (by simp)]
  simp

theorem notMem_hashes {c : Char} (hc : c ≠ '#') (k : Nat) : c ∉ hashes k := by
  intro h
  exact hc (List.eq_of_mem_replicate h)

/-- Whether a literal opens is seen in front of a parenthesis. -/
theorem opensLiteral_append_iff {a s : Text} : OpensLiteral (a ++ ')' :: s) ↔ OpensLiteral a := by
  have hparen : ∀ k, ')' ∉ hashes k ++ ['\x22'] := by
    intro k
    have := notMem_hashes (c := ')') (by decide) k
    simpa using this
  exact exists_congr fun k => prefix_append_iff (hparen k)

/-- A literal opens with a number sign or a quote. -/
theorem not_opensLiteral {c : Char} (hsign : c ≠ '#') (hquote : c ≠ '\x22') (r : Text) :
    ¬ OpensLiteral (c :: r) := by
  rintro ⟨k, t, ht⟩
  cases k with
  | zero => exact hquote (List.head_eq_of_cons_eq ht).symm
  | succ k => exact hsign (List.head_eq_of_cons_eq ht).symm

/-- A test for a word, character by character, that fails. -/
theorem starts_eq_false {c d : Char} {w r : Text} (h : ¬ d :: w <+: c :: r) :
    (c == d && w.isPrefixOf r) = false := by
  rw [Bool.and_eq_false_iff, beq_eq_false_iff_ne, ← Bool.not_eq_true,
    List.isPrefixOf_iff_prefix, ← not_and_or]
  rintro ⟨rfl, hpre⟩
  exact h ((List.prefix_cons_inj _).mpr hpre)

/-- The delimiter that the scan finds behind `k` number signs. -/
theorem opening?_hashes (k : Nat) (t : Text) {c : Char} {r : Text}
    (h : c :: r = hashes k ++ '\x22' :: t) :
    opening? c r = if quotes true <+: '\x22' :: t then some (.quoted k true, k + 2)
      else some (.quoted k false, k) := by
  have hrun : (c :: r).takeWhile (· == '#') = hashes k := by
    rw [h, takeWhile_hashes]
  have hthree : quotes true <+: '\x22' :: t ↔ ['\x22', '\x22'].isPrefixOf t = true := by
    rw [List.isPrefixOf_iff_prefix]
    exact List.prefix_cons_inj _
  have hdrop : (c :: r).drop k = '\x22' :: t := by
    rw [h, List.drop_left' (length_hashes k)]
  unfold opening?
  rw [hrun, length_hashes]
  simp only [hdrop]
  by_cases hquotes : quotes true <+: '\x22' :: t
  · rw [if_pos hquotes, if_pos (hthree.mp hquotes)]
  · rw [if_neg hquotes, if_neg (mt hthree.mpr hquotes)]

/-- No literal opens where no number signs and quote stand. -/
theorem opening?_eq_none {c : Char} {r : Text} (h : ¬ OpensLiteral (c :: r)) :
    opening? c r = none := by
  unfold opening?
  dsimp only
  split
  · next q hq =>
    refine absurd ?_ h
    have htake := Lexeme.take_run '#' (c :: r)
    have hsplit := List.take_append_drop ((c :: r).takeWhile (· == '#')).length (c :: r)
    rw [htake, hq] at hsplit
    refine ⟨((c :: r).takeWhile (· == '#')).length, q, ?_⟩
    rw [List.append_assoc]
    exact hsplit
  · rfl

/-- The opening delimiter of a literal, with what stands behind it. -/
theorem opening?_eq_some {k : Nat} {multiline : Bool} {t : Text}
    (hquotes : multiline = true ↔ quotes true <+: quotes multiline ++ t) {c : Char} {r : Text}
    (h : c :: r = hashes k ++ (quotes multiline ++ t)) :
    ∃ n, opening? c r = some (.quoted k multiline, n) ∧ r.drop n = t
      ∧ n + 1 = (hashes k ++ quotes multiline).length := by
  have hdrop : ∀ n, n + 1 = (hashes k ++ quotes multiline).length → r.drop n = t := by
    intro n hn
    rw [← List.append_assoc] at h
    have hskip : (c :: r).drop (n + 1) = t := by
      rw [h, List.drop_left' hn.symm]
    exact hskip
  cases multiline with
  | true =>
      have hthree : quotes true <+: '\x22' :: '\x22' :: '\x22' :: t := hquotes.mp rfl
      have hopening := opening?_hashes k ('\x22' :: '\x22' :: t) h
      rw [if_pos hthree] at hopening
      have hn : k + 2 + 1 = (hashes k ++ quotes true).length := by
        rw [List.length_append, length_hashes]
        rfl
      exact ⟨k + 2, hopening, hdrop _ hn, hn⟩
  | false =>
      have hone : ¬ quotes true <+: '\x22' :: t := fun hpre => absurd (hquotes.mpr hpre) (by simp)
      have hopening := opening?_hashes k t h
      rw [if_neg hone] at hopening
      have hn : k + 1 = (hashes k ++ quotes false).length := by
        rw [List.length_append, length_hashes]
        rfl
      exact ⟨k, hopening, hdrop _ hn, hn⟩

/-- Where a literal opens, it opens with three quotes if three stand there, and with one if not. -/
theorem OpensLiteral.exists_quotes {s : Text} (h : OpensLiteral s) :
    ∃ k multiline t, s = hashes k ++ (quotes multiline ++ t)
      ∧ (multiline = true ↔ quotes true <+: quotes multiline ++ t) := by
  obtain ⟨k, t, rfl⟩ := h
  by_cases hthree : quotes true <+: '\x22' :: t
  · obtain ⟨u, hu⟩ := hthree
    exact ⟨k, true, u, by rw [hu]; simp, by simp⟩
  · exact ⟨k, false, t, by simp [quotes], ⟨fun h => absurd h (by simp), fun h => absurd h hthree⟩⟩

/-! ## Steps of the scan -/

/-- The levels that are open behind a closing parenthesis. -/
def outer (depth : Nat) (up : List Level) : List Level :=
  match depth with
  | 0 => up
  | d + 1 => .spliced d :: up

/-- What the scan can take in front of `rest`, and the levels that are open then. -/
inductive Step : List Level → Text → Text → List Level → Prop
  | escape {k : Nat} {multiline : Bool} {up : List Level} (c : Char) (rest : Text) (hc : c ≠ '(') :
      Step (.quoted k multiline :: up) (escapeMark k ++ [c]) rest (.quoted k multiline :: up)
  | interpolation {k : Nat} {multiline : Bool} {up : List Level} (rest : Text) :
      Step (.quoted k multiline :: up) (escapeMark k ++ ['(']) rest
        (.spliced 0 :: .quoted k multiline :: up)
  | close {k : Nat} {multiline : Bool} {up : List Level} (rest : Text) :
      Step (.quoted k multiline :: up) (closing k multiline) rest up
  | char {k : Nat} {multiline : Bool} {up : List Level} (c : Char) (rest : Text)
      (hline : multiline = false → isLineEnd c = false) (hescape : ¬ escapeMark k <+: c :: rest)
      (hclose : ¬ closing k multiline <+: c :: rest) :
      Step (.quoted k multiline :: up) [c] rest (.quoted k multiline :: up)
  | literal {k : Nat} {multiline : Bool} {d : Nat} {up : List Level} (rest : Text)
      (hquotes : multiline = true ↔ quotes true <+: quotes multiline ++ rest) :
      Step (.spliced d :: up) (hashes k ++ quotes multiline) rest
        (.quoted k multiline :: .spliced d :: up)
  | opened {d : Nat} {up : List Level} (rest : Text) :
      Step (.spliced d :: up) ['('] rest (.spliced (d + 1) :: up)
  | closed {d : Nat} {up : List Level} (rest : Text) :
      Step (.spliced d :: up) [')'] rest (outer d up)
  | inner {d : Nat} {up : List Level} (c : Char) (rest : Text) (hc : c ≠ '(' ∧ c ≠ ')')
      (hopen : ¬ OpensLiteral (c :: rest)) :
      Step (.spliced d :: up) [c] rest (.spliced d :: up)

/-- In front of `rest` the scan takes the text, and has the second levels open behind it. -/
def Runs (levels : List Level) (taken rest : Text) (levels' : List Level) : Prop :=
  extent levels (taken ++ rest) = (extent levels' rest).map (· + taken.length)

theorem Runs.nil (levels : List Level) (rest : Text) : Runs levels [] rest levels := by
  unfold Runs
  rw [List.nil_append]
  cases extent levels rest <;> rfl

theorem Runs.append {levels levels' levels'' : List Level} {a b rest : Text}
    (h : Runs levels a (b ++ rest) levels') (h' : Runs levels' b rest levels'') :
    Runs levels (a ++ b) rest levels'' := by
  unfold Runs at *
  rw [List.append_assoc, h, h']
  cases extent levels'' rest with
  | error cause => rfl
  | ok n =>
      have hlength : n + b.length + a.length = n + (a ++ b).length := by
        rw [List.length_append]
        omega
      exact congrArg Except.ok hlength

/-- The scan stops where nothing is open. -/
theorem Runs.extent_eq {levels : List Level} {t after : Text} (h : Runs levels t after []) :
    extent levels (t ++ after) = .ok t.length := by
  have hstop : extent [] after = .ok 0 := extent.eq_1 after
  rw [h, hstop]
  exact congrArg Except.ok (Nat.zero_add _)

/-- What leaves a level open behind the text leaves it open in front of it. -/
theorem Runs.error {levels levels' : List Level} {taken rest : Text} {cause : Cause}
    (h : Runs levels taken rest levels') (herror : extent levels' rest = .error cause) :
    extent levels (taken ++ rest) = .error cause := by
  rw [h, herror]
  rfl

/-- Inside an interpolation one character is taken, unless a literal opens. -/
theorem extent_spliced (d : Nat) (up : List Level) (c : Char) (r : Text) :
    extent (.spliced d :: up) (c :: r) = match opening? c r with
      | some (level, n) => (extent (level :: .spliced d :: up) (r.drop n)).map (· + (n + 1))
      | none =>
        (extent (if c == '(' then .spliced (d + 1) :: up
          else if c == ')' then outer d up else .spliced d :: up) r).map (· + 1) := by
  cases d with
  | zero => exact extent.eq_5 up c r
  | succ d => exact extent.eq_6 up c r d

/-- The scan takes an escape with the character it covers. -/
theorem extent_escape (k : Nat) (multiline : Bool) (up : List Level) (c : Char) (rest : Text) :
    extent (.quoted k multiline :: up) (escapeMark k ++ [c] ++ rest)
      = (extent (if c = '(' then .spliced 0 :: .quoted k multiline :: up
          else .quoted k multiline :: up) rest).map (· + (escapeMark k ++ [c]).length) := by
  have htext : escapeMark k ++ [c] ++ rest = '\\' :: (hashes k ++ c :: rest) := by
    simp [escapeMark]
  have hlength : (escapeMark k ++ [c]).length = k + 2 := by
    simp [escapeMark, hashes]
  have hprefix : (hashes k).isPrefixOf (hashes k ++ c :: rest) = true :=
    List.isPrefixOf_iff_prefix.mpr (List.prefix_append _ _)
  have hdrop : (hashes k ++ c :: rest).drop k = c :: rest := List.drop_left' (length_hashes k)
  have hdrop' : (hashes k ++ c :: rest).drop (k + 1) = rest := by
    rw [← List.drop_drop, hdrop]
    rfl
  rw [htext, hlength, extent, hprefix, hdrop, hdrop']
  by_cases hc : c = '('
  · simp [isLineEnd, hc]
  · simp [isLineEnd, hc]

/-- **The scan takes the steps** that are there to take. -/
theorem Step.runs {levels levels' : List Level} {taken rest : Text}
    (h : Step levels taken rest levels') : Runs levels taken rest levels' := by
  unfold Runs
  cases h with
  | @escape k multiline up c rest hc => rw [extent_escape, if_neg hc]
  | @interpolation k multiline up rest => rw [extent_escape, if_pos rfl]
  | @close k multiline _ rest =>
      have hprefix : (closingTail k multiline).isPrefixOf (closingTail k multiline ++ rest) :=
        List.isPrefixOf_iff_prefix.mpr (List.prefix_append _ _)
      rw [closing_eq, List.cons_append, extent, hprefix, List.drop_left]
      simp [isLineEnd]
  | @char k multiline up c rest hline hescape hclose =>
      have hend : (!multiline && isLineEnd c) = false := by
        cases multiline with
        | true => rfl
        | false => rw [hline rfl]; rfl
      rw [closing_eq] at hclose
      rw [List.singleton_append, extent, hend, starts_eq_false hescape, starts_eq_false hclose]
      rfl
  | @literal k multiline d up rest hquotes =>
      obtain ⟨c, r, hr⟩ : ∃ c r, hashes k ++ quotes multiline ++ rest = c :: r := by
        apply List.exists_cons_of_ne_nil
        cases multiline <;> simp [quotes]
      obtain ⟨n, hopening, hdrop, hn⟩ :=
        opening?_eq_some hquotes (by rw [← hr, List.append_assoc])
      rw [hr, extent_spliced, hopening, ← hn]
      dsimp only
      rw [hdrop]
  | @opened d up rest =>
      rw [List.singleton_append, extent_spliced,
        opening?_eq_none (not_opensLiteral (by decide) (by decide) rest)]
      rfl
  | @closed d up rest =>
      rw [List.singleton_append, extent_spliced,
        opening?_eq_none (not_opensLiteral (by decide) (by decide) rest)]
      rfl
  | @inner d up c rest hc hopen =>
      rw [List.singleton_append, extent_spliced, opening?_eq_none hopen]
      simp [hc.1, hc.2]

/-- An escape that is all there is leaves its literal open. -/
theorem extent_escapeMark (k : Nat) (multiline : Bool) (up : List Level) :
    extent (.quoted k multiline :: up) (escapeMark k) = .error .openString := by
  have hover : ∀ n, k ≤ n → (hashes k).drop n = [] := by
    intro n hn
    exact List.drop_eq_nil_of_le (by rwa [length_hashes])
  have hlast : extent (.quoted k multiline :: up) [] = .error .openString :=
    extent.eq_2 k multiline up
  rw [escapeMark, extent, hover k (Nat.le_refl k), hover (k + 1) (Nat.le_succ k)]
  simp [isLineEnd, hlast, Except.map]

/-- What the scan meets inside a literal. -/
theorem exists_step_quoted (k : Nat) (multiline : Bool) (up : List Level) (s : Text) :
    (∃ taken rest levels', s = taken ++ rest ∧ taken ≠ []
        ∧ Step (.quoted k multiline :: up) taken rest levels')
      ∨ extent (.quoted k multiline :: up) s = .error .openString := by
  cases s with
  | nil => exact .inr (extent.eq_2 k multiline up)
  | cons c r =>
      by_cases hline : multiline = false → isLineEnd c = false
      · by_cases hescape : escapeMark k <+: c :: r
        · obtain ⟨t, ht⟩ := hescape
          cases t with
          | nil =>
              rw [List.append_nil] at ht
              rw [← ht]
              exact .inr (extent_escapeMark k multiline up)
          | cons d rest =>
              have htext : c :: r = escapeMark k ++ [d] ++ rest := by
                rw [← ht, List.append_assoc]
                rfl
              by_cases hd : d = '('
              · subst hd
                exact .inl ⟨_, rest, _, htext, by simp, .interpolation rest⟩
              · exact .inl ⟨_, rest, _, htext, by simp, .escape d rest hd⟩
        · by_cases hclose : closing k multiline <+: c :: r
          · obtain ⟨rest, hrest⟩ := hclose
            exact .inl ⟨_, rest, up, hrest.symm, by simp [closing_eq], .close rest⟩
          · exact .inl ⟨[c], r, _, rfl, by simp, .char c r hline hescape hclose⟩
      · -- the line is over and the literal is not
        obtain ⟨rfl, hend⟩ := Classical.not_imp.mp hline
        refine .inr ?_
        rw [extent]
        simp [hend]

/-- What the scan meets inside an interpolation. -/
theorem exists_step_spliced (d : Nat) (up : List Level) (s : Text) :
    (∃ taken rest levels', s = taken ++ rest ∧ taken ≠ []
        ∧ Step (.spliced d :: up) taken rest levels')
      ∨ extent (.spliced d :: up) s = .error .openInterpolation := by
  cases s with
  | nil => exact .inr (extent.eq_3 d up)
  | cons c r =>
      by_cases hopen : OpensLiteral (c :: r)
      · obtain ⟨k, multiline, t, ht, hquotes⟩ := hopen.exists_quotes
        rw [← List.append_assoc] at ht
        exact .inl ⟨_, t, _, ht, by cases multiline <;> simp [quotes], .literal t hquotes⟩
      · by_cases hc : c ≠ '(' ∧ c ≠ ')'
        · exact .inl ⟨[c], r, _, rfl, by simp, .inner c r hc hopen⟩
        · rw [not_and_or, not_not, not_not] at hc
          rcases hc with rfl | rfl
          · exact .inl ⟨['('], r, _, rfl, by simp, .opened r⟩
          · exact .inl ⟨[')'], r, _, rfl, by simp, .closed r⟩

/-- **What the scan meets**: behind an open level it takes a step, or the literal or the
interpolation is left open. -/
theorem exists_step (level : Level) (up : List Level) (s : Text) :
    (∃ taken rest levels', s = taken ++ rest ∧ taken ≠ [] ∧ Step (level :: up) taken rest levels')
      ∨ extent (level :: up) s = .error .openString
      ∨ extent (level :: up) s = .error .openInterpolation := by
  cases level with
  | quoted k multiline => exact (exists_step_quoted k multiline up s).imp_right .inl
  | spliced d => exact (exists_step_spliced d up s).imp_right .inr

/-! ## What the steps add up to -/

/-- The text closes every open level, from the innermost outwards. -/
inductive Completes : List Level → Text → Prop
  | nil : Completes [] []
  | quoted {k : Nat} {multiline : Bool} {up : List Level} {t v : Text}
      (h : Remainder k multiline t) (hup : Completes up v) :
      Completes (.quoted k multiline :: up) (t ++ v)
  | spliced {d : Nat} {up : List Level} {u v : Text} (hu : Interior u)
      (hup : Completes (outer d up) v) : Completes (.spliced d :: up) (u ++ ')' :: v)

/-- **A step in front of a text that closes what is open then** makes a text that closes what is
open before it: the step is the first rule of the derivation. -/
theorem Completes.step {levels levels' : List Level} {taken t after : Text}
    (h : Step levels taken (t ++ after) levels') (hc : Completes levels' t) :
    Completes levels (taken ++ t) := by
  cases h with
  | escape c _ hne =>
      cases hc with
      | quoted ht hup =>
          have := Completes.quoted (.escape c hne ht) hup
          simpa using this
  | interpolation =>
      cases hc with
      | spliced hu hup =>
          cases hup with
          | quoted ht hup =>
              have := Completes.quoted (.interpolation hu ht) hup
              simpa using this
  | close => exact .quoted (.close _ _) hc
  | char c _ hline hescape hclose =>
      cases hc with
      | @quoted _ _ _ u v ht hup =>
          -- what stands in front of the shorter text stands in front of the longer one
          have hfront : ∀ w : Text, ¬ w <+: c :: (u ++ v ++ after) → ¬ w <+: c :: u := by
            intro w hw hpre
            refine hw (hpre.trans ⟨v ++ after, ?_⟩)
            simp
          have := Completes.quoted (.char c hline (hfront _ hescape) (hfront _ hclose) ht) hup
          simpa using this
  | @literal k multiline d up _ hquotes =>
      cases hc with
      | @quoted _ _ _ t _ ht hup =>
          cases hup with
          | @spliced _ _ u v hu hup =>
              -- a third quote would stand in front of the parenthesis that closes the level
              have hquotes' : multiline = true ↔ quotes true <+: quotes multiline ++ (t ++ u) := by
                have htext : quotes multiline ++ (t ++ (u ++ ')' :: v) ++ after)
                    = quotes multiline ++ (t ++ u) ++ ')' :: (v ++ after) := by
                  simp
                rw [hquotes, htext]
                exact prefix_append_iff (by decide)
              have := Completes.spliced (.literal (.mk k multiline hquotes' ht) hu) hup
              simpa using this
  | opened =>
      cases hc with
      | spliced hu hup =>
          cases hup with
          | spliced hv hup =>
              have := Completes.spliced (.parentheses hu hv) hup
              simpa using this
  | closed => exact .spliced .nil hc
  | @inner d up c _ hne hopen =>
      cases hc with
      | @spliced _ _ u v hu hup =>
          have hopen' : ¬ OpensLiteral (c :: u) := by
            intro h
            refine hopen ?_
            have := (opensLiteral_append_iff (s := v ++ after)).mpr h
            simpa using this
          exact .spliced (.char c hne hopen' hu) hup

/-- **Every outcome of the scan**: it takes a text that closes what is open, or a literal or an
interpolation is left open. -/
theorem extent_cases (levels : List Level) (s : Text) :
    (∃ t after, s = t ++ after ∧ Completes levels t ∧ Runs levels t after [])
      ∨ extent levels s = .error .openString ∨ extent levels s = .error .openInterpolation := by
  -- every step takes something, so the induction is on what is left
  induction hn : s.length using Nat.strong_induction_on generalizing levels s with
  | _ n ih =>
    subst hn
    cases levels with
    | nil => exact .inl ⟨[], s, rfl, .nil, Runs.nil [] s⟩
    | cons level up =>
        rcases exists_step level up s with ⟨taken, rest, levels', rfl, hne, hstep⟩ | herror
        · have hshort : rest.length < (taken ++ rest).length := by
            have := List.length_pos_of_ne_nil hne
            rw [List.length_append]
            omega
          rcases ih rest.length hshort levels' rest rfl with ⟨t, after, rfl, hc, hruns⟩ | herror
          · exact .inl ⟨taken ++ t, after, by simp, hc.step hstep, hstep.runs.append hruns⟩
          · exact .inr (herror.imp hstep.runs.error hstep.runs.error)
        · exact .inr herror

/-! ## The scan along a derivation -/

theorem Remainder.closing_suffix :
    ∀ {k : Nat} {multiline : Bool} {t : Text}, Remainder k multiline t → closing k multiline <:+ t
  | _, _, _, .close _ _ => List.suffix_rfl
  | k, _, _, .escape c _ h => h.closing_suffix.trans ⟨escapeMark k ++ [c], by simp⟩
  | k, _, _, .interpolation (u := u) _ h =>
      h.closing_suffix.trans ⟨escapeMark k ++ '(' :: (u ++ [')']), by simp⟩
  | _, _, _, .char c _ _ _ h => h.closing_suffix.trans (List.suffix_cons c _)

/-- Behind a character of a literal there is room for its delimiters, so what follows the literal
does not decide whether one stands there. -/
theorem Remainder.prefix_cons {k : Nat} {multiline : Bool} {t w : Text} {c : Char} {s : Text}
    (h : Remainder k multiline t) (hw : w.length ≤ (closing k multiline).length + 1)
    (hpre : w <+: c :: (t ++ s)) : w <+: c :: t := by
  have hroom := h.closing_suffix.length_le
  refine List.prefix_of_prefix_length_le hpre ⟨s, rfl⟩ ?_
  rw [List.length_cons]
  omega

theorem length_escapeMark_le (k : Nat) (multiline : Bool) :
    (escapeMark k).length ≤ (closing k multiline).length := by
  cases multiline <;> simp [escapeMark, closing, quotes]

mutual

/-- **The scan follows the literal** to its end. -/
theorem Remainder.runs : ∀ {k : Nat} {multiline : Bool} {t : Text}, Remainder k multiline t →
    ∀ (up : List Level) (s : Text), Runs (.quoted k multiline :: up) t s up
  | _, _, _, .close _ _, _, s => (Step.close s).runs
  | k, multiline, _, .escape c hc h, up, s => by
      have := (Step.escape c _ hc).runs.append (h.runs up s)
      simpa using this
  | k, multiline, _, .interpolation (u := u) (t := t) hu h, up, s => by
      have hopened : Step (.quoted k multiline :: up) _ (u ++ ')' :: (t ++ s)) _ := .interpolation _
      have hclosed : Step (.spliced 0 :: .quoted k multiline :: up) [')'] (t ++ s) _ := .closed _
      have := (hopened.runs.append (hu.runs 0 _ _)).append (hclosed.runs.append (h.runs up s))
      simpa using this
  | k, multiline, _, .char (t := t) c hline hescape hclose h, up, s => by
      have hescape' : ¬ escapeMark k <+: c :: (t ++ s) := by
        intro hpre
        exact hescape (h.prefix_cons (Nat.le_succ_of_le (length_escapeMark_le k multiline)) hpre)
      have hclose' : ¬ closing k multiline <+: c :: (t ++ s) := by
        intro hpre
        exact hclose (h.prefix_cons (Nat.le_succ _) hpre)
      exact (Step.char c _ hline hescape' hclose').runs.append (h.runs up s)

/-- **The scan follows the inside of an interpolation** up to the parenthesis that closes it. -/
theorem Interior.runs : ∀ {u : Text}, Interior u → ∀ (d : Nat) (up : List Level) (s : Text),
    Runs (.spliced d :: up) u (')' :: s) (.spliced d :: up)
  | _, .nil, _, _, _ => Runs.nil _ _
  | _, .parentheses (u := u) (t := t) hu h, d, up, s => by
      have hopened : Step (.spliced d :: up) ['('] (u ++ ')' :: (t ++ ')' :: s)) _ := .opened _
      have hclosed : Step (.spliced (d + 1) :: up) [')'] (t ++ ')' :: s) _ := .closed _
      have := (hopened.runs.append (hu.runs _ _ _)).append (hclosed.runs.append (h.runs d up s))
      simpa using this
  | _, .literal (t := after) (@IsLiteral.mk t _ k multiline hquotes hr) h, d, up, s => by
      have hquotes' : multiline = true
          ↔ quotes true <+: quotes multiline ++ (t ++ (after ++ ')' :: s)) := by
        have htext : quotes multiline ++ (t ++ (after ++ ')' :: s))
            = quotes multiline ++ (t ++ after) ++ ')' :: s := by
          simp
        rw [hquotes, htext]
        exact (prefix_append_iff (by decide)).symm
      have := ((Step.literal _ hquotes').runs.append (hr.runs _ _)).append (h.runs d up s)
      simpa using this
  | _, .char (t := t) c hc hopen h, d, up, s => by
      have hopen' : ¬ OpensLiteral (c :: (t ++ ')' :: s)) := by
        rw [← List.cons_append, opensLiteral_append_iff]
        exact hopen
      exact (Step.inner c _ hc hopen').runs.append (h.runs d up s)

end

/-- **A literal's remainder is what the scan takes**, behind an opening delimiter. -/
theorem extent_eq_iff {k : Nat} {multiline : Bool} {s : Text} {n : Nat} :
    extent [.quoted k multiline] s = .ok n
      ↔ ∃ t after, s = t ++ after ∧ t.length = n ∧ Remainder k multiline t := by
  constructor
  · intro h
    rcases extent_cases [.quoted k multiline] s with ⟨t, after, rfl, hc, hruns⟩ | herror | herror
    · rw [hruns.extent_eq] at h
      cases hc with
      | @quoted _ _ _ t v hr hup =>
          cases hup
          rw [List.append_nil] at h ⊢
          exact ⟨t, after, rfl, Except.ok.inj h, hr⟩
    · rw [herror] at h
      cases h
    · rw [herror] at h
      cases h
  · rintro ⟨t, after, rfl, rfl, hr⟩
    exact (hr.runs [] after).extent_eq

end Literal

namespace Lexeme

open Literal

/-- Where a literal opens, the scanner reads what follows its opening delimiter. -/
theorem tokenAt_of_opensLiteral (last : Option Token) {k : Nat} {multiline : Bool} {t : Text}
    (hquotes : multiline = true ↔ quotes true <+: quotes multiline ++ t) {c : Char} {r : Text}
    (h : c :: r = hashes k ++ (quotes multiline ++ t)) :
    ∃ n, n + 1 = (hashes k ++ quotes multiline).length ∧
      tokenAt last c r = (extent [.quoted k multiline] t).map fun m => (.string, n + m) := by
  obtain ⟨n, hopening, hdrop, hn⟩ := opening?_eq_some hquotes h
  obtain ⟨q, hq⟩ : ∃ q, quotes multiline ++ t = '\x22' :: q := by
    cases multiline <;> exact ⟨_, rfl⟩
  refine ⟨n, hn, ?_⟩
  rw [hq] at h
  -- a quote and a number sign are told apart at once, and both ways end in the same scan
  cases k with
  | zero =>
      obtain ⟨rfl, rfl⟩ : c = '\x22' ∧ r = q := List.cons.inj h
      have htoken : tokenAt last '\x22' r = match opening? '\x22' r with
          | some (level, n) => (extent [level] (r.drop n)).map fun m => (.string, n + m)
          | none => .ok (.unknown, 0) := rfl
      rw [htoken, hopening]
      dsimp only
      rw [hdrop]
  | succ k =>
      obtain ⟨rfl, rfl⟩ : c = '#' ∧ r = hashes k ++ '\x22' :: q := List.cons.inj h
      have htoken : tokenAt last '#' (hashes k ++ '\x22' :: q)
          = poundAt (hashes k ++ '\x22' :: q) := rfl
      rw [htoken]
      unfold poundAt
      rw [takeWhile_hashes, length_hashes]
      simp only [Nat.add_sub_cancel, List.drop_left' (length_hashes k), hopening, hdrop]

/-- **A string token is a literal** in front of what follows it. -/
theorem tokenAt_string_iff {last : Option Token} {c : Char} {r : Text} {n : Nat}
    (hopen : OpensLiteral (c :: r)) :
    tokenAt last c r = .ok (.string, n)
      ↔ ∃ u after, c :: r = u ++ after ∧ u.length = n + 1 ∧ IsLiteral u after := by
  constructor
  · intro h
    obtain ⟨k, multiline, t, htext, hquotes⟩ := hopen.exists_quotes
    obtain ⟨m, hm, htoken⟩ := tokenAt_of_opensLiteral last hquotes htext
    rw [htoken] at h
    obtain ⟨j, hj, heq⟩ := exists_of_map_eq_ok h
    obtain ⟨-, rfl⟩ := Prod.mk.inj heq
    obtain ⟨t, after, rfl, rfl, hr⟩ := extent_eq_iff.mp hj
    refine ⟨_, after, by simpa using htext, ?_, .mk k multiline hquotes hr⟩
    rw [← List.append_assoc, List.length_append, ← hm]
    omega
  · rintro ⟨u, after, htext, hlength, hu⟩
    cases hu with
    | @mk t _ k multiline hquotes hr =>
        have htext' : c :: r = hashes k ++ (quotes multiline ++ (t ++ after)) := by
          simpa using htext
        obtain ⟨m, hm, htoken⟩ := tokenAt_of_opensLiteral last hquotes htext'
        rw [htoken, extent_eq_iff.mpr ⟨t, after, rfl, rfl, hr⟩]
        rw [← List.append_assoc, List.length_append, ← hm] at hlength
        have hn : m + t.length = n := by omega
        rw [← hn]
        rfl

/-- **How far a string literal reaches.** Where a literal opens in a source, the scanner takes the
text up to `e` if and only if that text is a literal in front of what follows it, so it lies
within the source; if no text is, the literal or an interpolation in it is left open, and there
is no other outcome. -/
theorem string_extent (source : Text) (p : Nat) {c : Char} {r : Text}
    (hat : source.drop p = c :: r) (hopen : OpensLiteral (c :: r)) (last : Option Token) :
    (∀ e, (∃ n, tokenAt last c r = .ok (.string, n) ∧ e = p + (n + 1))
      ↔ p < e ∧ e ≤ source.length
        ∧ IsLiteral ((source.drop p).take (e - p)) (source.drop e)) ∧
    ((∃ n, tokenAt last c r = .ok (.string, n))
      ∨ ∃ cause, (cause = .openString ∨ cause = .openInterpolation)
        ∧ tokenAt last c r = .error cause) := by
  constructor
  · intro e
    have hsize := congrArg List.length hat
    rw [List.length_drop] at hsize
    constructor
    · rintro ⟨n, htoken, rfl⟩
      obtain ⟨u, after, htext, hlength, hu⟩ := (tokenAt_string_iff hopen).mp htoken
      have hfront : (source.drop p).take (p + (n + 1) - p) = u := by
        rw [hat, htext, Nat.add_sub_cancel_left, ← hlength, List.take_left]
      have hback : source.drop (p + (n + 1)) = after := by
        rw [← List.drop_drop, hat, htext, ← hlength, List.drop_left]
      have hfits := congrArg List.length htext
      rw [List.length_append, hlength] at hfits
      rw [hfront, hback]
      exact ⟨by omega, by omega, hu⟩
    · rintro ⟨hpos, hend, hu⟩
      refine ⟨e - p - 1, (tokenAt_string_iff hopen).mpr ⟨_, _, ?_, ?_, hu⟩, by omega⟩
      · have hback : source.drop e = (source.drop p).drop (e - p) := by
          rw [List.drop_drop, Nat.add_sub_cancel' hpos.le]
        rw [hback, List.take_append_drop, hat]
      · rw [List.length_take, List.length_drop]
        omega
  · obtain ⟨k, multiline, t, htext, hquotes⟩ := hopen.exists_quotes
    obtain ⟨m, -, htoken⟩ := tokenAt_of_opensLiteral last hquotes htext
    rw [htoken]
    rcases extent_cases [.quoted k multiline] t with ⟨t, after, rfl, -, hruns⟩ | herror | herror
    · exact .inl ⟨m + t.length, by rw [hruns.extent_eq]; rfl⟩
    · exact .inr ⟨.openString, .inl rfl, by rw [herror]; rfl⟩
    · exact .inr ⟨.openInterpolation, .inr rfl, by rw [herror]; rfl⟩

/-- The parentheses in `"("` and in the inner interpolation do not close the outer one, and a quote
without its number sign does not close the literal. -/
theorem string_extent_nested :
    let source := "f(#\x22a\x22)\\#(g(\x22(\x22, \x22b\\(x)\x22))\x22#) + 1".toList
    OpensLiteral (source.drop 2) ∧ IsLiteral ((source.drop 2).take 26) (source.drop 28) := by
  intro source
  have hopen : OpensLiteral (source.drop 2) := ⟨1, List.isPrefixOf_iff_prefix.mp (by decide)⟩
  have htoken : tokenAt none '#' (source.drop 3) = .ok (.string, 25) := by
    decide +kernel
  have hat : source.drop 2 = '#' :: source.drop 3 := by decide
  have hextent := string_extent source 2 hat (hat ▸ hopen) none
  exact ⟨hopen, ((hextent.1 28).mp ⟨25, htoken, rfl⟩).2.2⟩

end Lexeme

end Unflag
