/-
Preprocessor chains, taken as text.

Sources of the C family are not parsed. A chain is found by its opening line, which names
the flag, and by the first directives that can end it: the text up to the first alternative,
fallback or ending is its body, and the chain is replaced by that body. Chains inside
chains are not understood; the first ending ends the outermost.

Everything works on what is left of the text: each function returns the text behind what it
recognised, so "not longer than before" is the one fact that termination needs.
-/
import Unflag.Text

set_option autoImplicit false

namespace Unflag

namespace Chain

open Text

/-! ## Lines -/

/-- The text behind the next line feed, if there is one. -/
def afterLine? : Text → Option Text
  | [] => none
  | c :: r => if c = '\n' then some r else afterLine? r

/-- The text behind the current line, with or without a line feed at its end. -/
def dropLine (s : Text) : Text := (afterLine? s).getD []

/-- The first place from which `p` finds something: the text in front of it and what was
found. -/
def firstAt {α : Type} (p : Text → Option α) : Text → Option (Text × α)
  | [] => (p []).map fun a => ([], a)
  | c :: r =>
    match p (c :: r) with
    | some a => some ([], a)
    | none => (firstAt p r).map fun (before, a) => (c :: before, a)

/-! ## Directives -/

/-- The text behind an ending directive and its line. -/
def afterEnding? (s : Text) : Option Text := (after? "#endif".toList s).map dropLine

/-- The text behind a chain at its fallback, or at its ending if there is none. -/
def afterFallback? (s : Text) : Option Text :=
  match ((after? "#else".toList s).bind afterLine?).bind (firstAt afterEnding?) with
  | some (_, rest) => some rest
  | none => afterEnding? s

/-- The text behind a chain at its first alternative, fallback or ending. -/
def afterAlternatives? (s : Text) : Option Text :=
  match ((after? "#elif".toList s).bind afterLine?).bind (firstAt afterFallback?) with
  | some (_, rest) => some rest
  | none => afterFallback? s

/-- The characters that a name can go on with. -/
def isWordChar (c : Char) : Bool := c.isAlphanum || c == '_'

/-- The text behind the opening line of a chain on `flag`. -/
def afterOpening? (word flag s : Text) : Option Text :=
  match after? (word ++ [' '] ++ flag) s with
  | none => none
  | some r => if (r.head?.map isWordChar) == some true then none else afterLine? r

/-- The chain on `flag` at the start of `s`: its body and the text behind it. -/
def at? (word flag s : Text) : Option (Text × Text) :=
  (afterOpening? word flag s).bind (firstAt afterAlternatives?)

/-! ## Lengths -/

theorem length_after?_le {p s r : Text} (h : after? p s = some r) : r.length ≤ s.length := by
  unfold after? at h
  split at h
  · simp only [Option.some.injEq] at h
    subst h
    simp
  · simp at h

theorem length_afterLine?_lt {s r : Text} (h : afterLine? s = some r) : r.length < s.length := by
  induction s with
  | nil => simp [afterLine?] at h
  | cons c q ih =>
    unfold afterLine? at h
    split at h
    · simp_all
    · have := ih h
      simp only [List.length_cons]
      omega

theorem length_dropLine_le (s : Text) : (dropLine s).length ≤ s.length := by
  unfold dropLine
  cases h : afterLine? s with
  | none => simp
  | some r => exact Nat.le_of_lt (length_afterLine?_lt h)

theorem length_firstAt_le {p : Text → Option Text}
    (hp : ∀ s r, p s = some r → r.length ≤ s.length) {s before r : Text}
    (h : firstAt p s = some (before, r)) : r.length ≤ s.length := by
  induction s generalizing before with
  | nil =>
    simp only [firstAt, Option.map_eq_some_iff, Prod.mk.injEq] at h
    obtain ⟨a, ha, -, rfl⟩ := h
    exact hp _ _ ha
  | cons c q ih =>
    unfold firstAt at h
    split at h
    · next a ha =>
      simp only [Option.some.injEq, Prod.mk.injEq] at h
      obtain ⟨-, rfl⟩ := h
      exact hp _ _ ha
    · simp only [Option.map_eq_some_iff, Prod.mk.injEq, Prod.exists] at h
      obtain ⟨b, a, ha, -, rfl⟩ := h
      have := ih ha
      simp only [List.length_cons]
      omega

theorem length_afterEnding?_le (s r : Text) (h : afterEnding? s = some r) :
    r.length ≤ s.length := by
  unfold afterEnding? at h
  obtain ⟨q, hq, rfl⟩ := Option.map_eq_some_iff.1 h
  exact Nat.le_trans (length_dropLine_le q) (length_after?_le hq)

theorem length_afterFallback?_le (s r : Text) (h : afterFallback? s = some r) :
    r.length ≤ s.length := by
  unfold afterFallback? at h
  split at h
  · next before rest hs =>
    simp only [Option.some.injEq] at h
    subst h
    obtain ⟨b, hb, hr⟩ := Option.bind_eq_some_iff.1 hs
    obtain ⟨a, ha, hl⟩ := Option.bind_eq_some_iff.1 hb
    have h₁ := length_firstAt_le length_afterEnding?_le hr
    have h₂ := length_afterLine?_lt hl
    have h₃ := length_after?_le ha
    omega
  · exact length_afterEnding?_le _ _ h

theorem length_afterAlternatives?_le (s r : Text) (h : afterAlternatives? s = some r) :
    r.length ≤ s.length := by
  unfold afterAlternatives? at h
  split at h
  · next before rest hs =>
    simp only [Option.some.injEq] at h
    subst h
    obtain ⟨b, hb, hr⟩ := Option.bind_eq_some_iff.1 hs
    obtain ⟨a, ha, hl⟩ := Option.bind_eq_some_iff.1 hb
    have h₁ := length_firstAt_le length_afterFallback?_le hr
    have h₂ := length_afterLine?_lt hl
    have h₃ := length_after?_le ha
    omega
  · exact length_afterFallback?_le _ _ h

theorem length_at?_lt {word flag s body rest : Text} (h : at? word flag s = some (body, rest)) :
    rest.length < s.length := by
  unfold at? at h
  obtain ⟨q, hq, hr⟩ := Option.bind_eq_some_iff.1 h
  have h₁ := length_firstAt_le length_afterAlternatives?_le hr
  unfold afterOpening? at hq
  split at hq
  · simp at hq
  · next r hs =>
    split at hq
    · simp at hq
    · have h₂ := length_afterLine?_lt hq
      have h₃ := length_after?_le hs
      omega

/-! ## Replacement -/

/-- The text with every chain on `flag` that opens with `word` replaced by its body, and
the number of those chains. -/
def sweep (word flag : Text) : Text → Text × Nat
  | [] => ([], 0)
  | c :: r =>
    match _found : at? word flag (c :: r) with
    | some (body, rest) =>
      let (text, n) := sweep word flag rest
      (body ++ text, n + 1)
    | none =>
      let (text, n) := sweep word flag r
      (c :: text, n)
termination_by s => s.length
decreasing_by
  · exact length_at?_lt _found
  · simp

/-- The two words that can open a chain on a flag. -/
def openers : List Text := ["#if".toList, "#ifdef".toList]

/-- The text with every chain on `flag` replaced by its body, and the number of chains
replaced. Each opener has a pass of its own, the second on the text the first left. -/
def clean (flag source : Text) : Text × Nat :=
  openers.foldl
    (fun (text, n) word =>
      let (text', m) := sweep word flag text
      (text', n + m))
    (source, 0)

end Chain

end Unflag
