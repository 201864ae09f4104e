/-
Texts that are laid out in lines and chains.

The pass over a text looks for a chain at every character and takes no notice of lines. On a
text whose lines are plain lines and the lines of chains, with no chain inside another, it
works line by line all the same: what it looks for starts with a directive word, a word
without line feeds is found within one line, and a line holds such a word at its start or
nowhere (`Passes`). A chain that opens on the flag is then found from its opening line to its
ending (`at?_chain`), and the pass is a map over the items of the text (`sweep_items`).
-/
import Mathlib.Data.List.Infix
import Unflag.Chain

set_option autoImplicit false

namespace Unflag

/-! ## Lines -/

namespace Text

/-- The lines of a text, each with the line feed that ends it. -/
def lines : Text → List Text
  | [] => []
  | c :: r =>
    if c = '\n' then [c] :: lines r
    else
      match lines r with
      | [] => [[c]]
      | l :: ls => (c :: l) :: ls

/-- Lines as a text is cut into: each ends in its only line feed, but for the last, which may
have none. -/
inductive AreLines : List Text → Prop
  | nil : AreLines []
  | last (u : Text) (hne : u ≠ []) (hu : '\n' ∉ u) : AreLines [u]
  | line {ls : List Text} (u : Text) (hu : '\n' ∉ u) (h : AreLines ls) :
      AreLines ((u ++ ['\n']) :: ls)

theorem lines_append {u : Text} (hu : '\n' ∉ u) (s : Text) :
    lines (u ++ '\n' :: s) = (u ++ ['\n']) :: lines s := by
  induction u with
  | nil => rw [List.nil_append, lines, if_pos rfl, List.nil_append]
  | cons c r ih =>
      obtain ⟨hc, hr⟩ := not_or.mp (mt List.mem_cons.mpr hu)
      rw [List.cons_append, lines, if_neg (Ne.symm hc), ih hr]
      rfl

theorem lines_eq_singleton {u : Text} (hu : '\n' ∉ u) (hne : u ≠ []) : lines u = [u] := by
  induction u with
  | nil => exact absurd rfl hne
  | cons c r ih =>
      obtain ⟨hc, hr⟩ := not_or.mp (mt List.mem_cons.mpr hu)
      rw [lines, if_neg (Ne.symm hc)]
      cases r with
      | nil => rfl
      | cons d q => rw [ih hr (List.cons_ne_nil d q)]

/-- **Lines are cut where they were joined.** -/
theorem lines_flatten {ls : List Text} (h : AreLines ls) : lines ls.flatten = ls := by
  induction h with
  | nil => rfl
  | last u hne hu => rw [List.flatten_singleton, lines_eq_singleton hu hne]
  | line u hu _ ih =>
      rw [List.flatten_cons, List.append_assoc, List.singleton_append, lines_append hu, ih]

/-- A text is a line with a line feed and a text behind it, or a last line. -/
theorem exists_line (s : Text) :
    (∃ u r, '\n' ∉ u ∧ s = u ++ '\n' :: r) ∨ '\n' ∉ s := by
  by_cases h : '\n' ∈ s
  · obtain ⟨u, r, rfl, hu⟩ := List.eq_append_cons_of_mem h
    exact .inl ⟨u, r, hu, rfl⟩
  · exact .inr h

/-- The lines of a text are lines, and joined they are the text. -/
theorem areLines_lines (s : Text) : AreLines (lines s) ∧ (lines s).flatten = s := by
  induction hlength : s.length using Nat.strong_induction_on generalizing s with
  | _ n ih =>
      rcases exists_line s with ⟨u, r, hu, rfl⟩ | hs
      · have hless : r.length < n := by
          rw [← hlength, List.length_append, List.length_cons]
          omega
        obtain ⟨hlines, htext⟩ := ih r.length hless r rfl
        rw [lines_append hu]
        refine ⟨.line u hu hlines, ?_⟩
        rw [List.flatten_cons, htext, List.append_assoc, List.singleton_append]
      · by_cases hnil : s = []
        · subst hnil
          exact ⟨.nil, rfl⟩
        · rw [lines_eq_singleton hs hnil]
          exact ⟨.last s hnil hs, List.flatten_singleton⟩

theorem AreLines.tail {l : Text} {ls : List Text} (h : AreLines (l :: ls)) : AreLines ls := by
  cases h with
  | last u hne hu => exact .nil
  | line u hu h => exact h

/-- With lines left out, lines are still lines. -/
theorem AreLines.sublist {ls ls' : List Text} (h : AreLines ls) (hsub : ls'.Sublist ls) :
    AreLines ls' := by
  induction h generalizing ls' with
  | nil => rw [List.sublist_nil.mp hsub]; exact .nil
  | last u hne hu =>
      rcases List.sublist_singleton.mp hsub with rfl | rfl
      · exact .nil
      · exact .last u hne hu
  | line u hu _ ih =>
      rcases List.sublist_cons_iff.mp hsub with hless | ⟨r, rfl, hless⟩
      · exact ih hless
      · exact .line u hu (ih hless)

theorem AreLines.flatten_ne_nil {ls : List Text} (h : AreLines ls) (hne : ls ≠ []) :
    ls.flatten ≠ [] := by
  intro hnil
  refine hne ?_
  rw [← lines_flatten h, hnil]
  rfl

/-- A line in front of a text: it ends in its only line feed, or nothing follows. -/
def IsLineBefore (line more : Text) : Prop :=
  ∃ u, '\n' ∉ u ∧ (line = u ++ ['\n'] ∨ line = u ∧ more = [])

theorem AreLines.head {l : Text} {ls : List Text} (h : AreLines (l :: ls)) :
    IsLineBefore l ls.flatten := by
  cases h with
  | last u hne hu => exact ⟨l, hu, .inr ⟨rfl, rfl⟩⟩
  | line u hu h => exact ⟨u, hu, .inl rfl⟩

/-- What a line ends with is a line. -/
theorem IsLineBefore.suffix {line more t : Text} (h : IsLineBefore line more) (ht : t <:+ line)
    (hne : t ≠ []) : IsLineBefore t more := by
  obtain ⟨u, hu, rfl | ⟨rfl, hmore⟩⟩ := h
  · rcases List.suffix_concat_iff.mp ht with hnil | ⟨v, rfl, hv⟩
    · exact absurd hnil hne
    · exact ⟨v, fun hmem => hu (hv.subset hmem), .inl rfl⟩
  · exact ⟨t, fun hmem => hu (ht.subset hmem), .inr ⟨rfl, hmore⟩⟩

/-- A word without line feeds does not go on behind a line. -/
theorem IsLineBefore.prefix_of {line more w : Text} (h : IsLineBefore line more)
    (hw : '\n' ∉ w) (hpre : w <+: line ++ more) : w <+: line := by
  obtain ⟨u, hu, rfl | ⟨rfl, rfl⟩⟩ := h
  · rcases List.prefix_or_prefix_of_prefix hpre (List.prefix_append _ _) with hshort | hlong
    · exact hshort
    · exact absurd (hlong.subset (by simp)) hw
  · rwa [List.append_nil] at hpre

end Text

open Text

namespace Chain

theorem afterLine?_append {u : Text} (hu : '\n' ∉ u) (s : Text) :
    afterLine? (u ++ '\n' :: s) = some s := by
  induction u with
  | nil => rfl
  | cons c r ih =>
      obtain ⟨hc, hr⟩ := not_or.mp (mt List.mem_cons.mpr hu)
      rw [List.cons_append, afterLine?, if_neg (Ne.symm hc), ih hr]

theorem afterLine?_of_not_mem {u : Text} (hu : '\n' ∉ u) : afterLine? u = none := by
  induction u with
  | nil => rfl
  | cons c r ih =>
      obtain ⟨hc, hr⟩ := not_or.mp (mt List.mem_cons.mpr hu)
      rw [afterLine?, if_neg (Ne.symm hc), ih hr]

/-- Behind a line is what follows it, if anything does. -/
theorem afterLine?_line {line more : Text} (h : IsLineBefore line more) (hmore : more ≠ []) :
    afterLine? (line ++ more) = some more := by
  obtain ⟨u, hu, rfl | ⟨_, hnil⟩⟩ := h
  · rw [List.append_assoc, List.singleton_append, afterLine?_append hu]
  · exact absurd hnil hmore

theorem dropLine_line {line more : Text} (h : IsLineBefore line more) :
    dropLine (line ++ more) = more := by
  obtain ⟨u, hu, rfl | ⟨rfl, rfl⟩⟩ := h
  · rw [dropLine, List.append_assoc, List.singleton_append, afterLine?_append hu]
    rfl
  · rw [dropLine, List.append_nil, afterLine?_of_not_mem hu]
    rfl

/-! ## Directive words -/

/-- The words that a pass looks for, or that start those it looks for. -/
def directives : List Text := ["#if".toList, "#elif".toList, "#else".toList, "#endif".toList]

/-- A text that names no directive. -/
def IsPlain (s : Text) : Prop := ∀ w ∈ directives, ¬ w <:+: s

/-- A line that starts with a directive word and names no directive behind it. -/
def IsDirectiveLine (w line : Text) : Prop := w <+: line ∧ IsPlain (line.drop w.length)

instance (s : Text) : Decidable (IsPlain s) :=
  inferInstanceAs (Decidable (∀ w ∈ directives, ¬ w <:+: s))

instance (w line : Text) : Decidable (IsDirectiveLine w line) :=
  inferInstanceAs (Decidable (_ ∧ _))

theorem IsPlain.mono {s t : Text} (h : IsPlain s) (ht : t <:+: s) : IsPlain t :=
  fun w hw hin => h w hw (hin.trans ht)

/-- A directive word holds no line feed, and a number sign only at its start. -/
theorem of_mem_directives {w : Text} (h : w ∈ directives) :
    '\n' ∉ w ∧ ∃ v, w = '#' :: v ∧ '#' ∉ v := by
  have hwords : ∀ w ∈ directives, '\n' ∉ w ∧ w.head? = some '#' ∧ '#' ∉ w.tail := by decide
  obtain ⟨hfeed, hhead, htail⟩ := hwords w h
  obtain ⟨v, rfl⟩ := List.head?_eq_some_iff.mp hhead
  exact ⟨hfeed, v, rfl, htail⟩

/-- A word is not found across a place in front of which its first character is missing. -/
theorem infix_of_infix_append {c : Char} {v a b : Text} (ha : c ∉ a) (h : c :: v <:+: a ++ b) :
    c :: v <:+: b := by
  induction a with
  | nil => exact h
  | cons d r ih =>
      obtain ⟨hd, hr⟩ := not_or.mp (mt List.mem_cons.mpr ha)
      rcases List.infix_cons_iff.mp h with hpre | hrest
      · exact absurd (List.head_eq_of_cons_eq hpre.choose_spec) hd
      · exact ih hr hrest

/-- Behind its first character, a directive line names no directive. -/
theorem IsDirectiveLine.isPlain_tail {w line : Text} (h : IsDirectiveLine w line)
    (hw : w ∈ directives) : IsPlain line.tail := by
  obtain ⟨hpre, hplain⟩ := h
  obtain ⟨_, v, rfl, hv⟩ := of_mem_directives hw
  rw [List.prefix_append_drop hpre]
  intro d hd hin
  obtain ⟨_, v', rfl, _⟩ := of_mem_directives hd
  exact hplain _ hd (infix_of_infix_append hv hin)

/-! ## Passing over lines -/

theorem after?_eq_some_iff {w s r : Text} : after? w s = some r ↔ s = w ++ r := by
  unfold after?
  constructor
  · intro h
    split at h
    · next hpre =>
      rw [← Option.some.inj h]
      exact List.prefix_append_drop (List.isPrefixOf_iff_prefix.mp hpre)
    · exact absurd h (by simp)
  · rintro rfl
    rw [if_pos (List.isPrefixOf_iff_prefix.mpr (List.prefix_append w r)), List.drop_left]

/-- A search that finds something only where a directive word stands. -/
def StartsAtDirective {α : Type} (p : Text → Option α) : Prop :=
  ∀ s a, p s = some a → ∃ w ∈ directives, w <+: s

theorem startsAtDirective_afterEnding? : StartsAtDirective afterEnding? := by
  intro s a h
  obtain ⟨r, hr, _⟩ := Option.map_eq_some_iff.mp h
  rw [after?_eq_some_iff.mp hr]
  exact ⟨_, by decide, List.prefix_append _ r⟩

/-- The text behind a chain, at a branch that opens with `w` or at what `next` finds. -/
def pastBranch (w : Text) (next : Text → Option Text) (s : Text) : Option Text :=
  match ((after? w s).bind afterLine?).bind (firstAt next) with
  | some (_, rest) => some rest
  | none => next s

theorem afterFallback?_eq : afterFallback? = pastBranch "#else".toList afterEnding? := rfl

theorem afterAlternatives?_eq : afterAlternatives? = pastBranch "#elif".toList afterFallback? := rfl

theorem startsAtDirective_pastBranch {w : Text} {next : Text → Option Text} (hw : w ∈ directives)
    (hnext : StartsAtDirective next) : StartsAtDirective (pastBranch w next) := by
  intro s a h
  unfold pastBranch at h
  split at h
  · next hfound =>
    obtain ⟨_, hline, _⟩ := Option.bind_eq_some_iff.mp hfound
    obtain ⟨r, hr, _⟩ := Option.bind_eq_some_iff.mp hline
    rw [after?_eq_some_iff.mp hr]
    exact ⟨w, hw, List.prefix_append _ r⟩
  · exact hnext s a h

theorem startsAtDirective_afterFallback? : StartsAtDirective afterFallback? :=
  startsAtDirective_pastBranch (by decide) startsAtDirective_afterEnding?

theorem startsAtDirective_afterAlternatives? : StartsAtDirective afterAlternatives? :=
  startsAtDirective_pastBranch (by decide) startsAtDirective_afterFallback?

/-- A chain on the flag is found where its opener stands. -/
theorem prefix_of_at? {word flag s : Text} {found : Text × Text}
    (h : at? word flag s = some found) : word <+: s := by
  obtain ⟨q, hopening, _⟩ := Option.bind_eq_some_iff.mp h
  unfold afterOpening? at hopening
  split at hopening
  · exact absurd hopening (by simp)
  · next r hr =>
    rw [after?_eq_some_iff.mp hr, List.append_assoc, List.append_assoc]
    exact List.prefix_append _ _

theorem startsAtDirective_at? {word : Text} (hword : word ∈ openers) (flag : Text) :
    StartsAtDirective (at? word flag) := by
  have hopener : ∀ word ∈ openers, "#if".toList <+: word := by decide
  exact fun s a h => ⟨"#if".toList, by decide, (hopener word hword).trans (prefix_of_at? h)⟩

/-- A search passes over a line: it finds nothing at its start, whatever follows, and behind
its start no directive word stands. -/
structure Passes {α : Type} (p : Text → Option α) (line : Text) : Prop where
  tail : IsPlain line.tail
  head : ∀ more, IsLineBefore line more → p (line ++ more) = none

theorem eq_none_of_isPlain {α : Type} {p : Text → Option α} (hp : StartsAtDirective p)
    {t more : Text} (ht : IsPlain t) (hline : IsLineBefore t more) : p (t ++ more) = none := by
  cases hfound : p (t ++ more) with
  | none => rfl
  | some a =>
      obtain ⟨w, hw, hpre⟩ := hp _ a hfound
      exact absurd (hline.prefix_of (of_mem_directives hw).1 hpre).isInfix (ht w hw)

theorem passes_of_isPlain {α : Type} {p : Text → Option α} (hp : StartsAtDirective p) {line : Text}
    (h : IsPlain line) : Passes p line :=
  ⟨h.mono (List.tail_suffix line).isInfix, fun _ hline => eq_none_of_isPlain hp h hline⟩

/-- A search for other words passes over a directive line. -/
theorem passes_of_isDirectiveLine {α : Type} {p : Text → Option α} {w line : Text}
    (hw : w ∈ directives) (hp : ∀ s, p (w ++ s) = none) (h : IsDirectiveLine w line) :
    Passes p line := by
  refine ⟨h.isPlain_tail hw, fun more _ => ?_⟩
  rw [List.prefix_append_drop h.1, List.append_assoc]
  exact hp _

/-- Nothing is found at any place of a line that is passed over. -/
theorem Passes.eq_none {α : Type} {p : Text → Option α} (hp : StartsAtDirective p)
    {line more : Text} (h : Passes p line) (hline : IsLineBefore line more) :
    ∀ t, t ≠ [] → t <:+ line → p (t ++ more) = none := by
  intro t hne ht
  cases line with
  | nil => exact absurd (List.suffix_nil.mp ht) hne
  | cons c r =>
      rcases List.suffix_cons_iff.mp ht with rfl | htail
      · exact h.head more hline
      · exact eq_none_of_isPlain hp (h.tail.mono htail.isInfix) (hline.suffix ht hne)

theorem firstAt_append {α : Type} {p : Text → Option α} {u s : Text}
    (h : ∀ t, t ≠ [] → t <:+ u → p (t ++ s) = none) :
    firstAt p (u ++ s) = (firstAt p s).map fun found => (u ++ found.1, found.2) := by
  induction u with
  | nil => simp
  | cons c r ih =>
      have hhead : p (c :: r ++ s) = none := h (c :: r) (List.cons_ne_nil c r) List.suffix_rfl
      have hrest := ih fun t hne ht => h t hne (ht.trans (List.suffix_cons c r))
      rw [List.cons_append, firstAt, ← List.cons_append, hhead, hrest]
      simp [Function.comp_def]

/-- **A search passes over lines** and finds what stands behind them. -/
theorem firstAt_lines {α : Type} {p : Text → Option α} (hp : StartsAtDirective p)
    {ls ls' : List Text} (h : AreLines (ls ++ ls')) (hls : ∀ l ∈ ls, Passes p l) :
    firstAt p (ls ++ ls').flatten
      = (firstAt p ls'.flatten).map fun found => (ls.flatten ++ found.1, found.2) := by
  induction ls with
  | nil => simp
  | cons l r ih =>
      obtain ⟨hl, hr⟩ := List.forall_mem_cons.mp hls
      have hskip := firstAt_append (s := (r ++ ls').flatten) (hl.eq_none hp h.head)
      rw [List.cons_append, List.flatten_cons, hskip, ih h.tail hr]
      simp [Function.comp_def]

/-- What a search finds behind lines that it passes over is the first it finds. -/
theorem firstAt_of_passes {α : Type} {p : Text → Option α} (hp : StartsAtDirective p)
    {ls ls' : List Text} (h : AreLines (ls ++ ls')) (hls : ∀ l ∈ ls, Passes p l) {a : α}
    (hfound : p ls'.flatten = some a) : firstAt p (ls ++ ls').flatten = some (ls.flatten, a) := by
  have hfirst : firstAt p ls'.flatten = some ([], a) := by
    cases hs : ls'.flatten with
    | nil => rw [firstAt, ← hs, hfound]; rfl
    | cons c r => rw [firstAt, ← hs, hfound]
  rw [firstAt_lines hp h hls, hfirst, Option.map_some, List.append_nil]

/-! ## Chains, line by line -/

/-- A directive line of a chain and the lines of the body behind it. -/
structure Branch where
  line : Text
  body : List Text

def Branch.lines (b : Branch) : List Text := b.line :: b.body

/-- A chain, from its opening line to its ending. -/
structure Group where
  first : Branch
  alternatives : List Branch
  fallback : Option Branch
  ending : Text

/-- The lines from the fallback of a chain on. -/
def Group.fallbackLines (g : Group) : List Text :=
  g.fallback.toList.flatMap Branch.lines ++ [g.ending]

/-- The lines behind the first body of a chain. -/
def Group.otherLines (g : Group) : List Text :=
  g.alternatives.flatMap Branch.lines ++ g.fallbackLines

def Group.lines (g : Group) : List Text := g.first.lines ++ g.otherLines

/-- A plain line or a chain. -/
inductive Item where
  | line (l : Text)
  | chain (g : Group)

def Item.lines : Item → List Text
  | .line l => [l]
  | .chain g => g.lines

/-- A branch that opens with a directive word; no directive stands in its body. -/
structure Branch.IsLaid (w : Text) (b : Branch) : Prop where
  line : IsDirectiveLine w b.line
  body : ∀ l ∈ b.body, IsPlain l

/-- The branches of a chain open with the words for their places. -/
structure Group.IsLaid (g : Group) : Prop where
  first : g.first.IsLaid "#if".toList
  alternatives : ∀ b ∈ g.alternatives, b.IsLaid "#elif".toList
  fallback : ∀ b ∈ g.fallback, b.IsLaid "#else".toList
  ending : IsDirectiveLine "#endif".toList g.ending

def Item.IsLaid : Item → Prop
  | .line l => IsPlain l
  | .chain g => g.IsLaid

theorem branch_isLaid_iff {w : Text} {b : Branch} :
    b.IsLaid w ↔ IsDirectiveLine w b.line ∧ ∀ l ∈ b.body, IsPlain l :=
  ⟨fun h => ⟨h.line, h.body⟩, fun h => ⟨h.1, h.2⟩⟩

instance (w : Text) (b : Branch) : Decidable (b.IsLaid w) :=
  decidable_of_iff _ branch_isLaid_iff.symm

theorem group_isLaid_iff {g : Group} :
    g.IsLaid ↔ g.first.IsLaid "#if".toList ∧ (∀ b ∈ g.alternatives, b.IsLaid "#elif".toList)
      ∧ (∀ b ∈ g.fallback, b.IsLaid "#else".toList) ∧ IsDirectiveLine "#endif".toList g.ending :=
  ⟨fun h => ⟨h.first, h.alternatives, h.fallback, h.ending⟩,
    fun h => ⟨h.1, h.2.1, h.2.2.1, h.2.2.2⟩⟩

instance (g : Group) : Decidable g.IsLaid := decidable_of_iff _ group_isLaid_iff.symm

instance : (i : Item) → Decidable i.IsLaid
  | .line l => inferInstanceAs (Decidable (IsPlain l))
  | .chain g => inferInstanceAs (Decidable g.IsLaid)

/-- The lines of a text that is given by its items. -/
def linesOf (items : List Item) : List Text := items.flatMap Item.lines

/-! ## Finding the end of a chain -/

theorem after?_directive {w line : Text} (h : IsDirectiveLine w line) (more : Text) :
    after? w (line ++ more) = some (line.drop w.length ++ more) := by
  rw [after?_eq_some_iff, ← List.append_assoc, ← List.prefix_append_drop h.1]

/-- Behind a directive word, the line goes on up to the text behind it. -/
theorem IsDirectiveLine.isLineBefore {w line more : Text} (h : IsDirectiveLine w line)
    (hw : w ∈ directives) (hline : IsLineBefore line more) :
    IsLineBefore (line.drop w.length) more := by
  by_cases hnil : line.drop w.length = []
  · -- the line is the word alone, without a line feed, so it is the last
    obtain ⟨u, hu, hend | ⟨_, hmore⟩⟩ := hline
    · have hword : line = w := by
        have hsplit := List.prefix_append_drop h.1
        rwa [hnil, List.append_nil] at hsplit
      refine absurd ?_ (of_mem_directives hw).1
      rw [← hword, hend]
      simp
    · rw [hnil, hmore]
      exact ⟨[], List.not_mem_nil, .inr ⟨rfl, rfl⟩⟩
  · exact hline.suffix (List.drop_suffix _ _) hnil

theorem afterEnding?_line {line more : Text} (h : IsDirectiveLine "#endif".toList line)
    (hline : IsLineBefore line more) : afterEnding? (line ++ more) = some more := by
  rw [afterEnding?, after?_directive h, Option.map_some,
    dropLine_line (h.isLineBefore (by decide) hline)]

variable {g : Group} {ls : List Text}

theorem Group.fallbackLines_ne_nil (g : Group) : g.fallbackLines ≠ [] :=
  List.append_ne_nil_of_right_ne_nil _ (List.cons_ne_nil _ _)

theorem pastBranch_of_eq_none {w s : Text} {next : Text → Option Text} (h : after? w s = none) :
    pastBranch w next s = next s := by
  rw [pastBranch, h]
  rfl

/-- **At a branch**, the end of a chain is what is found behind the lines that are passed over. -/
theorem pastBranch_line {w line rest : Text} {next : Text → Option Text} (hw : w ∈ directives)
    (hnext : StartsAtDirective next) (hline : IsDirectiveLine w line) {ls ls' : List Text}
    (h : AreLines (line :: (ls ++ ls'))) (hls : ∀ l ∈ ls, Passes next l) (hne : ls' ≠ [])
    (hfound : next ls'.flatten = some rest) :
    pastBranch w next (line :: (ls ++ ls')).flatten = some rest := by
  have hmore := h.tail.flatten_ne_nil (List.append_ne_nil_of_right_ne_nil ls hne)
  rw [List.flatten_cons, pastBranch, after?_directive hline, Option.bind_some,
    afterLine?_line (hline.isLineBefore hw h.head) hmore, Option.bind_some,
    firstAt_of_passes hnext h.tail hls hfound]

/-- **From the fallback on**, the end of a chain is found behind its ending. -/
theorem afterFallback?_lines (hg : g.IsLaid) (h : AreLines (g.fallbackLines ++ ls)) :
    afterFallback? (g.fallbackLines ++ ls).flatten = some ls.flatten := by
  have hending : AreLines (g.ending :: ls) :=
    h.sublist ((List.sublist_append_right _ [g.ending]).append (List.Sublist.refl ls))
  have hfound := afterEnding?_line hg.ending hending.head
  rw [afterFallback?_eq]
  cases hfallback : g.fallback with
  | none =>
      have hlines : g.fallbackLines = [g.ending] := by simp [Group.fallbackLines, hfallback]
      have hnone : after? "#else".toList (g.ending ++ ls.flatten) = none := by
        rw [List.prefix_append_drop hg.ending.1]
        rfl
      rw [hlines, List.singleton_append, List.flatten_cons, pastBranch_of_eq_none hnone]
      exact hfound
  | some b =>
      have hb := hg.fallback b hfallback
      have hlines : g.fallbackLines ++ ls = b.line :: (b.body ++ g.ending :: ls) := by
        simp [Group.fallbackLines, hfallback, Branch.lines]
      rw [hlines] at h ⊢
      exact pastBranch_line (by decide) startsAtDirective_afterEnding? hb.line h
        (fun l hl => passes_of_isPlain startsAtDirective_afterEnding? (hb.body l hl))
        (List.cons_ne_nil _ _) hfound

/-- A search for other words than the one a branch opens with passes over the branch. -/
theorem Branch.IsLaid.passes {α : Type} {p : Text → Option α} {w : Text} {b : Branch}
    (h : b.IsLaid w) (hw : w ∈ directives) (hp : StartsAtDirective p)
    (hnone : ∀ s, p (w ++ s) = none) : ∀ l ∈ b.lines, Passes p l := by
  refine List.forall_mem_cons.mpr ⟨passes_of_isDirectiveLine hw hnone h.line, fun l hl => ?_⟩
  exact passes_of_isPlain hp (h.body l hl)

/-- **From the first alternative on**, the end of a chain is found behind its ending. -/
theorem afterAlternatives?_lines (hg : g.IsLaid) (h : AreLines (g.otherLines ++ ls)) :
    afterAlternatives? (g.otherLines ++ ls).flatten = some ls.flatten := by
  have hfallback : AreLines (g.fallbackLines ++ ls) :=
    h.sublist ((List.sublist_append_right _ _).append (List.Sublist.refl ls))
  have hfound := afterFallback?_lines hg hfallback
  rw [afterAlternatives?_eq]
  cases halternatives : g.alternatives with
  | nil =>
      have hlines : g.otherLines = g.fallbackLines := by simp [Group.otherLines, halternatives]
      have hnone : after? "#elif".toList (g.fallbackLines ++ ls).flatten = none := by
        cases hb : g.fallback with
        | none =>
            simp only [Group.fallbackLines, hb, Option.toList_none, List.flatMap_nil,
              List.nil_append, List.singleton_append, List.flatten_cons]
            rw [List.prefix_append_drop hg.ending.1]
            rfl
        | some b =>
            simp only [Group.fallbackLines, hb, Option.toList_some, List.flatMap_cons, Branch.lines,
              List.cons_append, List.flatten_cons]
            rw [List.prefix_append_drop (hg.fallback b hb).line.1]
            rfl
      rw [hlines, pastBranch_of_eq_none hnone]
      exact hfound
  | cons b bs =>
      obtain ⟨hb, hbs⟩ := List.forall_mem_cons.mp (halternatives ▸ hg.alternatives)
      have hlines : g.otherLines ++ ls
          = b.line :: (b.body ++ bs.flatMap Branch.lines ++ (g.fallbackLines ++ ls)) := by
        simp [Group.otherLines, halternatives, Branch.lines]
      rw [hlines] at h ⊢
      have hpasses : ∀ l ∈ b.body ++ bs.flatMap Branch.lines, Passes afterFallback? l := by
        refine List.forall_mem_append.mpr ⟨fun l hl => ?_, fun l hl => ?_⟩
        · exact passes_of_isPlain startsAtDirective_afterFallback? (hb.body l hl)
        · obtain ⟨c, hc, hlc⟩ := List.mem_flatMap.mp hl
          exact (hbs c hc).passes (by decide) startsAtDirective_afterFallback? (fun _ => rfl) l hlc
      exact pastBranch_line (by decide) startsAtDirective_afterFallback? hb.line h hpasses
        (List.append_ne_nil_of_left_ne_nil g.fallbackLines_ne_nil ls) hfound

/-! ## Opening lines -/

/-- Whether a line opens a chain on the flag: behind the opener and a space stands the flag,
and no longer word. -/
def opensOn (word flag line : Text) : Bool :=
  match after? (word ++ [' '] ++ flag) line with
  | some r => !r.head?.any isWordChar
  | none => false

theorem after?_line {needle line more : Text} (h : IsLineBefore line more)
    (hneedle : '\n' ∉ needle) :
    after? needle (line ++ more) = (after? needle line).map (· ++ more) := by
  cases hline : after? needle line with
  | some r =>
      rw [Option.map_some, after?_eq_some_iff, after?_eq_some_iff.mp hline, List.append_assoc]
  | none =>
      cases hfound : after? needle (line ++ more) with
      | none => rfl
      | some r =>
          have hpre : needle <+: line ++ more := ⟨r, (after?_eq_some_iff.mp hfound).symm⟩
          have hsome := after?_eq_some_iff.mpr (List.prefix_append_drop (h.prefix_of hneedle hpre))
          rw [hline] at hsome
          exact absurd hsome (by simp)

section Opening

variable {word flag line more : Text}

theorem feed_notMem_needle (hword : word ∈ openers) (hflag : '\n' ∉ flag) :
    '\n' ∉ word ++ [' '] ++ flag := by
  have hopeners : ∀ word ∈ openers, '\n' ∉ word := by decide
  simp [hopeners word hword, hflag]

theorem afterOpening?_eq_none (hword : word ∈ openers) (hflag : '\n' ∉ flag)
    (hline : IsLineBefore line more) (h : opensOn word flag line = false) :
    afterOpening? word flag (line ++ more) = none := by
  have hafter := after?_line hline (feed_notMem_needle hword hflag)
  unfold opensOn at h
  unfold afterOpening?
  rw [hafter]
  cases hneedle : after? (word ++ [' '] ++ flag) line with
  | none => rfl
  | some r =>
      rw [hneedle] at h
      cases r with
      | nil => exact absurd h (by simp)
      | cons c q =>
          have hc : isWordChar c = true := by simpa using h
          simp [hc]

theorem afterOpening?_eq_some (hword : word ∈ openers) (hflag : '\n' ∉ flag)
    (hline : IsLineBefore line more) (hmore : more ≠ []) (h : opensOn word flag line = true) :
    afterOpening? word flag (line ++ more) = some more := by
  have hfeed := feed_notMem_needle hword hflag
  have hafter := after?_line hline hfeed
  unfold opensOn at h
  unfold afterOpening?
  rw [hafter]
  cases hneedle : after? (word ++ [' '] ++ flag) line with
  | none => rw [hneedle] at h; exact absurd h (by simp)
  | some r =>
      rw [hneedle] at h
      have hsplit := after?_eq_some_iff.mp hneedle
      cases r with
      | nil =>
          -- the line goes on at least to its line feed
          obtain ⟨u, hu, hend | ⟨_, hnil⟩⟩ := hline
          · rw [hsplit, List.append_nil] at hend
            exact absurd (by rw [hend]; simp) hfeed
          · exact absurd hnil hmore
      | cons c q =>
          have hc : isWordChar c = false := by simpa using h
          have hrest : IsLineBefore (c :: q) more :=
            hline.suffix ⟨_, hsplit.symm⟩ (List.cons_ne_nil c q)
          have hbehind := afterLine?_line hrest hmore
          simpa [hc] using hbehind

/-- **A chain on the flag is found as a whole**: its first body, and the text behind it. -/
theorem at?_chain (hword : word ∈ openers) (hflag : '\n' ∉ flag) (hg : g.IsLaid)
    (h : AreLines (g.lines ++ ls)) (hopens : opensOn word flag g.first.line = true) :
    at? word flag (g.lines ++ ls).flatten = some (g.first.body.flatten, ls.flatten) := by
  have hlines : g.lines ++ ls = g.first.line :: (g.first.body ++ (g.otherLines ++ ls)) := by
    simp [Group.lines, Branch.lines]
  rw [hlines] at h ⊢
  have hother : AreLines (g.otherLines ++ ls) := h.tail.sublist (List.sublist_append_right _ _)
  have hbody := firstAt_of_passes startsAtDirective_afterAlternatives? h.tail
    (fun l hl => passes_of_isPlain startsAtDirective_afterAlternatives? (hg.first.body l hl))
    (afterAlternatives?_lines hg hother)
  have hne := h.tail.flatten_ne_nil (List.append_ne_nil_of_right_ne_nil _
    (List.append_ne_nil_of_left_ne_nil
      (List.append_ne_nil_of_right_ne_nil _ g.fallbackLines_ne_nil) ls))
  rw [List.flatten_cons, at?, afterOpening?_eq_some hword hflag h.head hne hopens, Option.bind_some,
    hbody]

/-- A pass goes over a chain that does not open on the flag. -/
theorem passes_chain (hword : word ∈ openers) (hflag : '\n' ∉ flag) (hg : g.IsLaid)
    (hopens : opensOn word flag g.first.line = false) :
    ∀ l ∈ g.lines, Passes (at? word flag) l := by
  have hp := startsAtDirective_at? hword flag
  -- the other words of a chain are no openers
  have hother : ∀ s, at? word flag ("#elif".toList ++ s) = none
      ∧ at? word flag ("#else".toList ++ s) = none
      ∧ at? word flag ("#endif".toList ++ s) = none := by
    intro s
    rcases List.mem_cons.mp hword with rfl | hword'
    · exact ⟨rfl, rfl, rfl⟩
    · rw [List.mem_singleton.mp hword']
      exact ⟨rfl, rfl, rfl⟩
  have hfirst : ∀ l ∈ g.first.lines, Passes (at? word flag) l := by
    refine List.forall_mem_cons.mpr ⟨⟨hg.first.line.isPlain_tail (by decide), fun more hline => ?_⟩,
      fun l hl => passes_of_isPlain hp (hg.first.body l hl)⟩
    rw [at?, afterOpening?_eq_none hword hflag hline hopens, Option.bind_none]
  refine List.forall_mem_append.mpr ⟨hfirst, List.forall_mem_append.mpr ⟨fun l hl => ?_,
    List.forall_mem_append.mpr ⟨fun l hl => ?_, List.forall_mem_singleton.mpr ?_⟩⟩⟩
  · obtain ⟨b, hb, hlb⟩ := List.mem_flatMap.mp hl
    exact (hg.alternatives b hb).passes (by decide) hp (fun s => (hother s).1) l hlb
  · obtain ⟨b, hb, hlb⟩ := List.mem_flatMap.mp hl
    exact (hg.fallback b (by simpa using hb)).passes (by decide) hp (fun s => (hother s).2.1) l hlb
  · exact passes_of_isDirectiveLine (by decide) (fun s => (hother s).2.2) hg.ending

end Opening

/-! ## The pass over a text -/

section Pass

variable {word flag : Text}

theorem sweep_of_eq_some {s body rest : Text} (h : at? word flag s = some (body, rest)) :
    sweep word flag s
      = (body ++ (sweep word flag rest).1, (sweep word flag rest).2 + 1) := by
  cases s with
  | nil => exact absurd (length_at?_lt h) (by simp)
  | cons c r =>
      rw [sweep]
      split
      · next body' rest' hfound =>
        rw [h] at hfound
        cases hfound
        rfl
      · next hnone =>
        rw [h] at hnone
        exact absurd hnone (by simp)

theorem sweep_append {u s : Text} (h : ∀ t, t ≠ [] → t <:+ u → at? word flag (t ++ s) = none) :
    sweep word flag (u ++ s) = (u ++ (sweep word flag s).1, (sweep word flag s).2) := by
  induction u with
  | nil => rfl
  | cons c r ih =>
      have hhead : at? word flag (c :: (r ++ s)) = none :=
        h (c :: r) (List.cons_ne_nil c r) List.suffix_rfl
      have hrest := ih fun t hne ht => h t hne (ht.trans (List.suffix_cons c r))
      rw [List.cons_append, sweep]
      split
      · next hfound =>
        rw [hhead] at hfound
        exact absurd hfound (by simp)
      · rw [hrest]
        rfl

/-- **The pass leaves lines alone** that it passes over. -/
theorem sweep_lines (hword : word ∈ openers) {ls ls' : List Text} (h : AreLines (ls ++ ls'))
    (hls : ∀ l ∈ ls, Passes (at? word flag) l) :
    sweep word flag (ls ++ ls').flatten
      = (ls.flatten ++ (sweep word flag ls'.flatten).1, (sweep word flag ls'.flatten).2) := by
  induction ls with
  | nil => rfl
  | cons l r ih =>
      obtain ⟨hl, hr⟩ := List.forall_mem_cons.mp hls
      have hskip := sweep_append (s := (r ++ ls').flatten)
        (hl.eq_none (startsAtDirective_at? hword flag) h.head)
      rw [List.cons_append, List.flatten_cons, hskip, ih h.tail hr, List.flatten_cons,
        List.append_assoc]

/-- Whether an item is a chain that opens on the flag. -/
def Item.opensOn (word flag : Text) : Item → Bool
  | .line _ => false
  | .chain g => Chain.opensOn word flag g.first.line

/-- The items in the place of an item: the first body of a chain that opens on the flag, and
any other item itself. -/
def Item.resolve (word flag : Text) : Item → List Item
  | .line l => [.line l]
  | .chain g =>
    if Chain.opensOn word flag g.first.line then g.first.body.map Item.line else [.chain g]

/-- The items of a text behind a pass. -/
def resolveItems (word flag : Text) (items : List Item) : List Item :=
  items.flatMap (Item.resolve word flag)

theorem linesOf_map_line (ls : List Text) : linesOf (ls.map Item.line) = ls := by
  rw [linesOf, List.flatMap_map]
  exact List.flatMap_singleton' ls

theorem Item.resolve_of_opensOn {g : Group} (h : Chain.opensOn word flag g.first.line = true) :
    (Item.chain g).resolve word flag = g.first.body.map Item.line := if_pos h

theorem Item.resolve_of_not_opensOn {g : Group}
    (h : ¬ Chain.opensOn word flag g.first.line = true) :
    (Item.chain g).resolve word flag = [.chain g] := if_neg h

/-- An item keeps its lines, or it is a chain that opens on the flag and keeps its first body. -/
theorem Item.linesOf_resolve (i : Item) :
    linesOf (i.resolve word flag) = i.lines ∨ ∃ g, i = .chain g
      ∧ Chain.opensOn word flag g.first.line = true
      ∧ linesOf (i.resolve word flag) = g.first.body := by
  cases i with
  | line l => exact .inl rfl
  | chain g =>
      by_cases hopens : Chain.opensOn word flag g.first.line = true
      · rw [Item.resolve_of_opensOn hopens]
        exact .inr ⟨g, rfl, hopens, linesOf_map_line g.first.body⟩
      · rw [Item.resolve_of_not_opensOn hopens]
        exact .inl (List.append_nil g.lines)

theorem linesOf_resolveItems_cons (i : Item) (items : List Item) :
    linesOf (resolveItems word flag (i :: items))
      = linesOf (i.resolve word flag) ++ linesOf (resolveItems word flag items) := by
  simp [linesOf, resolveItems]

/-- **The pass over a text of items** replaces the chains that open on the flag and nothing
else, and counts them. -/
theorem sweep_items (hword : word ∈ openers) (hflag : '\n' ∉ flag) {items : List Item}
    (hitems : ∀ i ∈ items, i.IsLaid) (h : AreLines (linesOf items)) :
    sweep word flag (linesOf items).flatten
      = ((linesOf (resolveItems word flag items)).flatten,
          items.countP (Item.opensOn word flag)) := by
  induction items with
  | nil =>
      show sweep word flag [] = ([], 0)
      rw [sweep]
  | cons i r ih =>
      obtain ⟨hi, hr⟩ := List.forall_mem_cons.mp hitems
      have hcons : linesOf (i :: r) = i.lines ++ linesOf r := rfl
      rw [hcons] at h ⊢
      have hrest := ih hr (h.sublist (List.sublist_append_right _ _))
      rw [linesOf_resolveItems_cons, List.countP_cons]
      cases i with
      | line l =>
          have hpass : ∀ l' ∈ (Item.line l).lines, Passes (at? word flag) l' :=
            List.forall_mem_singleton.mpr (passes_of_isPlain (startsAtDirective_at? hword flag) hi)
          rw [sweep_lines hword h hpass, hrest, List.flatten_append]
          rfl
      | chain g =>
          have hlines : (Item.chain g).lines = g.lines := rfl
          rw [hlines] at h ⊢
          by_cases hopens : Chain.opensOn word flag g.first.line = true
          · have hcount : Item.opensOn word flag (.chain g) = true := hopens
            rw [sweep_of_eq_some (at?_chain hword hflag hi h hopens), hrest, if_pos hcount,
              Item.resolve_of_opensOn hopens, linesOf_map_line, List.flatten_append]
          · have hcount : ¬ Item.opensOn word flag (.chain g) = true := hopens
            have hpass := passes_chain hword hflag hi (Bool.eq_false_iff.mpr hopens)
            rw [sweep_lines hword h hpass, hrest, if_neg hcount,
              Item.resolve_of_not_opensOn hopens, List.flatten_append, Nat.add_zero]
            congr 2
            exact congrArg List.flatten (List.append_nil g.lines).symm

/-! ## What a pass keeps -/

/-- What holds of the items of a text holds of those behind a pass, if it is handed on to the
lines of a first body. -/
theorem forall_mem_resolveItems (word flag : Text) {P : Item → Prop}
    (hP : ∀ g, P (.chain g) → ∀ l ∈ g.first.body, P (.line l)) {items : List Item}
    (h : ∀ i ∈ items, P i) : ∀ i ∈ resolveItems word flag items, P i := by
  intro i hi
  obtain ⟨j, hj, hij⟩ := List.mem_flatMap.mp hi
  cases j with
  | line l =>
      rw [List.mem_singleton.mp hij]
      exact h _ hj
  | chain g =>
      by_cases hopens : Chain.opensOn word flag g.first.line = true
      · rw [Item.resolve_of_opensOn hopens] at hij
        obtain ⟨l, hl, rfl⟩ := List.mem_map.mp hij
        exact hP g (h _ hj) l hl
      · rw [Item.resolve_of_not_opensOn hopens] at hij
        rw [List.mem_singleton.mp hij]
        exact h _ hj

/-- Behind a pass, a text is a text of items again. -/
theorem isLaid_resolveItems (word flag : Text) {items : List Item} (h : ∀ i ∈ items, i.IsLaid) :
    ∀ i ∈ resolveItems word flag items, i.IsLaid := by
  refine forall_mem_resolveItems word flag (fun g hchain l hl => ?_) h
  have hg : g.IsLaid := hchain
  exact hg.first.body l hl

/-- A pass only takes lines away. -/
theorem sublist_linesOf_resolveItems (word flag : Text) (items : List Item) :
    (linesOf (resolveItems word flag items)).Sublist (linesOf items) := by
  induction items with
  | nil => exact .refl []
  | cons i r ih =>
      rw [linesOf_resolveItems_cons]
      refine List.Sublist.append ?_ ih
      rcases i.linesOf_resolve with hsame | ⟨g, rfl, _, hbody⟩
      · rw [hsame]
      · rw [hbody]
        exact (List.sublist_cons_self _ _).trans (List.sublist_append_left _ _)

/-- **Both passes** over a text of items. -/
theorem clean_items (hflag : '\n' ∉ flag) {items : List Item} (hitems : ∀ i ∈ items, i.IsLaid)
    (h : AreLines (linesOf items)) :
    clean flag (linesOf items).flatten
      = ((linesOf (resolveItems "#ifdef".toList flag
            (resolveItems "#if".toList flag items))).flatten,
          items.countP (Item.opensOn "#if".toList flag)
            + (resolveItems "#if".toList flag items).countP
              (Item.opensOn "#ifdef".toList flag)) := by
  have hif : "#if".toList ∈ openers := by decide
  have hifdef : "#ifdef".toList ∈ openers := by decide
  have hfirst := sweep_items hif hflag hitems h
  -- the second pass is given a text of items again
  have hsecond := sweep_items hifdef hflag (isLaid_resolveItems "#if".toList flag hitems)
    (h.sublist (sublist_linesOf_resolveItems "#if".toList flag items))
  simp only [clean, openers, List.foldl_cons, List.foldl_nil, hfirst, hsecond, Nat.zero_add]

end Pass

end Chain

end Unflag
