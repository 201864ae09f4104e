/-
What a preprocessor makes of a text and of the text behind the passes.

A preprocessor reads a text line by line and keeps a stack with a frame for every chain it
is in; a plain line is selected if every frame is live (`run`). It knows nothing of items,
and its conditions have any value. On a text without nested chains it comes to the end of
each chain with the stack it started with, and of a chain whose first condition is true it
selects the first body (`run_group`): just what the passes leave of it. Where the conditions
of all chains that are replaced are true, a text is selected from as before
(`selected_clean`).

A pass replaces a chain for what its opening line starts with. A condition that only starts
with the flag need not be true where the flag is, and there the alternatives are lost.
-/
import Unflag.Proofs.ChainLayout

set_option autoImplicit false

namespace Unflag

namespace Preprocessor

open Text Chain

/-! ## Selecting lines -/

/-- The directives of conditional compilation; the first of them open a chain with a word. -/
inductive Directive where
  | opening (word condition : Text)
  | alternative (condition : Text)
  | fallback
  | ending

/-- What a directive does in a chain. -/
inductive Role where
  | opening
  | alternative
  | fallback
  | ending
  deriving DecidableEq

def Directive.role : Directive → Role
  | .opening _ _ => .opening
  | .alternative _ => .alternative
  | .fallback => .fallback
  | .ending => .ending

/-- The words that open a chain. -/
def openings : List Text := ["#if".toList, "#ifdef".toList, "#ifndef".toList]

/-- The word behind a number sign at the start of a line, with the sign. -/
def wordOf : Text → Text
  | [] => []
  | c :: r => if c = '#' then c :: r.takeWhile isWordChar else []

/-- What stands behind the word, without the blanks at its ends. -/
def conditionOf (line : Text) : Text := trim (line.drop (wordOf line).length)

/-- The directive on a line. -/
def directive? (line : Text) : Option Directive :=
  if wordOf line ∈ openings then some (.opening (wordOf line) (conditionOf line))
  else if wordOf line = "#elif".toList then some (.alternative (conditionOf line))
  else if wordOf line = "#else".toList then some .fallback
  else if wordOf line = "#endif".toList then some .ending
  else none

/-- A chain that has been opened: whether its current branch is selected, and whether one of
its branches has been. -/
structure Frame where
  live : Bool
  taken : Bool

/-- The stack behind a directive; `v` gives the value of a condition behind a word. A directive
without a chain to belong to is passed by. -/
def enter (v : Text → Text → Bool) (stack : List Frame) : Directive → List Frame
  | .opening word c => ⟨v word c, v word c⟩ :: stack
  | .alternative c =>
    match stack with
    | [] => []
    | f :: r => ⟨!f.taken && v "#elif".toList c, f.taken || v "#elif".toList c⟩ :: r
  | .fallback =>
    match stack with
    | [] => []
    | f :: r => ⟨!f.taken, true⟩ :: r
  | .ending => stack.tail

/-- The stack behind some lines, and the lines selected from them. -/
def run (v : Text → Text → Bool) : List Frame → List Text → List Frame × List Text
  | stack, [] => (stack, [])
  | stack, l :: ls =>
    match directive? l with
    | some d => run v (enter v stack d) ls
    | none =>
      ((run v stack ls).1,
        if stack.all Frame.live then l :: (run v stack ls).2 else (run v stack ls).2)

/-- **The lines that a preprocessor selects.** -/
def selected (v : Text → Text → Bool) (ls : List Text) : List Text := (run v [] ls).2

section Run

variable {v : Text → Text → Bool}

theorem run_append (stack : List Frame) (a b : List Text) :
    run v stack (a ++ b)
      = ((run v (run v stack a).1 b).1, (run v stack a).2 ++ (run v (run v stack a).1 b).2) := by
  induction a generalizing stack with
  | nil => rfl
  | cons l r ih =>
      rw [List.cons_append, run, run]
      cases directive? l with
      | some d => exact ih (enter v stack d)
      | none =>
          dsimp only
          rw [ih stack]
          split <;> rfl

theorem run_directive {l : Text} {d : Directive} (h : directive? l = some d) (stack : List Frame)
    (ls : List Text) : run v stack (l :: ls) = run v (enter v stack d) ls := by
  rw [run, h]

/-- Plain lines are selected together or not at all. -/
theorem run_plain {ls : List Text} (h : ∀ l ∈ ls, directive? l = none) (stack : List Frame) :
    run v stack ls = (stack, if stack.all Frame.live then ls else []) := by
  induction ls with
  | nil => rw [run, ite_self]
  | cons l r ih =>
      obtain ⟨hl, hr⟩ := List.forall_mem_cons.mp h
      rw [run, hl, ih hr]
      dsimp only
      split <;> rfl

end Run

/-! ## Lines and their directives -/

theorem wordOf_isPrefix (line : Text) : wordOf line <+: line := by
  cases line with
  | nil => exact List.prefix_rfl
  | cons c r =>
      rw [wordOf]
      split
      · exact (List.prefix_cons_inj c).mpr (List.takeWhile_prefix _)
      · exact List.nil_prefix

/-- A directive starts its line with a directive word. -/
theorem exists_prefix_of_directive? {line : Text} {d : Directive} (h : directive? line = some d) :
    ∃ w ∈ directives, w <+: line := by
  have hopenings : ∀ w ∈ openings, ∃ w' ∈ directives, w' <+: w := by decide
  have hword : wordOf line ∈ openings ∨ wordOf line ∈ directives := by
    by_contra hnone
    obtain ⟨hopening, hother⟩ := not_or.mp hnone
    -- no word that could be read is left
    have hne : ∀ w ∈ directives, wordOf line ≠ w := fun w hw heq => hother (heq ▸ hw)
    rw [directive?, if_neg hopening, if_neg (hne _ (by decide)), if_neg (hne _ (by decide)),
      if_neg (hne _ (by decide))] at h
    exact absurd h (by simp)
  rcases hword with hopening | hdirective
  · obtain ⟨w, hw, hpre⟩ := hopenings _ hopening
    exact ⟨w, hw, hpre.trans (wordOf_isPrefix line)⟩
  · exact ⟨_, hdirective, wordOf_isPrefix line⟩

theorem directive?_of_isPlain {line : Text} (h : IsPlain line) : directive? line = none := by
  cases hd : directive? line with
  | none => rfl
  | some d =>
      obtain ⟨w, hw, hpre⟩ := exists_prefix_of_directive? hd
      exact absurd hpre.isInfix (h w hw)

/-- The directive on a line that opens a chain on the flag has its opener as its word. -/
theorem wordOf_of_opensOn {word flag line : Text} (hword : word ∈ openers)
    (h : opensOn word flag line = true) : wordOf line = word := by
  unfold opensOn at h
  cases hneedle : after? (word ++ [' '] ++ flag) line with
  | none => rw [hneedle] at h; exact absurd h (by simp)
  | some r =>
      rw [after?_eq_some_iff.mp hneedle]
      rcases List.mem_cons.mp hword with rfl | hword'
      · rfl
      · rw [List.mem_singleton.mp hword']
        rfl

theorem of_directive?_opening {line word c : Text}
    (h : directive? line = some (.opening word c)) : word = wordOf line ∧ c = conditionOf line := by
  unfold directive? at h
  split at h
  · cases h
    exact ⟨rfl, rfl⟩
  split at h
  · exact absurd h (by simp)
  split at h
  · exact absurd h (by simp)
  split at h <;> exact absurd h (by simp)

/-! ## Chains -/

/-- A line is read as a directive with this role. -/
def IsRead (role : Role) (line : Text) : Prop := (directive? line).map Directive.role = some role

instance (role : Role) (line : Text) : Decidable (IsRead role line) :=
  inferInstanceAs (Decidable (_ = _))

/-- The lines of a chain that start with a directive word are read as directives with the roles
they have in it: none of them starts with a longer word. -/
structure GroupIsRead (g : Group) : Prop where
  first : IsRead .opening g.first.line
  alternatives : ∀ b ∈ g.alternatives, IsRead .alternative b.line
  fallback : ∀ b ∈ g.fallback, IsRead .fallback b.line
  ending : IsRead .ending g.ending

theorem groupIsRead_iff {g : Group} :
    GroupIsRead g ↔ IsRead .opening g.first.line
      ∧ (∀ b ∈ g.alternatives, IsRead .alternative b.line)
      ∧ (∀ b ∈ g.fallback, IsRead .fallback b.line) ∧ IsRead .ending g.ending :=
  ⟨fun h => ⟨h.first, h.alternatives, h.fallback, h.ending⟩,
    fun h => ⟨h.1, h.2.1, h.2.2.1, h.2.2.2⟩⟩

instance (g : Group) : Decidable (GroupIsRead g) := decidable_of_iff _ groupIsRead_iff.symm

def ItemIsRead : Item → Prop
  | .line _ => True
  | .chain g => GroupIsRead g

instance : (i : Item) → Decidable (ItemIsRead i)
  | .line _ => inferInstanceAs (Decidable True)
  | .chain g => inferInstanceAs (Decidable (GroupIsRead g))

/-- **A source without nested chains**: its lines are plain lines and the lines of chains. -/
def IsNonNested (source : Text) : Prop :=
  ∃ items : List Item, (∀ i ∈ items, i.IsLaid ∧ ItemIsRead i) ∧ lines source = linesOf items

theorem IsRead.exists_directive {role : Role} {line : Text} (h : IsRead role line) :
    ∃ d, directive? line = some d ∧ d.role = role := by
  obtain ⟨d, hd, hrole⟩ := Option.map_eq_some_iff.mp h
  exact ⟨d, hd, hrole⟩

theorem exists_opening {line : Text} (h : IsRead .opening line) :
    ∃ word c, directive? line = some (.opening word c) := by
  obtain ⟨d, hd, hrole⟩ := h.exists_directive
  cases d with
  | opening word c => exact ⟨word, c, hd⟩
  | alternative c => cases hrole
  | fallback => cases hrole
  | ending => cases hrole

section Branches

variable {v : Text → Text → Bool}

/-- Behind an alternative or a fallback there is a frame again, and it is dead if a branch has
been taken. -/
theorem exists_enter {d : Directive} (hd : d.role = .alternative ∨ d.role = .fallback) (f : Frame) :
    ∃ f', enter v [f] d = [f'] ∧ (f.taken = true → f'.taken = true ∧ f'.live = false) := by
  cases d with
  | opening word c => exact absurd hd (by simp [Directive.role])
  | alternative c =>
      refine ⟨_, rfl, fun htaken => ?_⟩
      rw [htaken]
      exact ⟨rfl, rfl⟩
  | fallback =>
      refine ⟨_, rfl, fun htaken => ?_⟩
      rw [htaken]
      exact ⟨rfl, rfl⟩
  | ending => exact absurd hd (by simp [Directive.role])

/-- **Later branches.** They leave one frame, and select nothing once a branch has been taken. -/
theorem exists_run_branches {bs : List Branch} (hbodies : ∀ b ∈ bs, ∀ l ∈ b.body, IsPlain l)
    (hreads : ∀ b ∈ bs, IsRead .alternative b.line ∨ IsRead .fallback b.line) (f : Frame) :
    ∃ f' out, run v [f] (bs.flatMap Branch.lines) = ([f'], out)
      ∧ (f.taken = true → f'.taken = true ∧ out = []) := by
  induction bs generalizing f with
  | nil => exact ⟨f, [], rfl, fun h => ⟨h, rfl⟩⟩
  | cons b r ih =>
      obtain ⟨hbody, hbodies'⟩ := List.forall_mem_cons.mp hbodies
      obtain ⟨hread, hreads'⟩ := List.forall_mem_cons.mp hreads
      obtain ⟨d, hd, hrole⟩ : ∃ d, directive? b.line = some d
          ∧ (d.role = .alternative ∨ d.role = .fallback) := by
        rcases hread with hread | hread
        · obtain ⟨d, hd, hrole⟩ := hread.exists_directive
          exact ⟨d, hd, .inl hrole⟩
        · obtain ⟨d, hd, hrole⟩ := hread.exists_directive
          exact ⟨d, hd, .inr hrole⟩
      obtain ⟨f₁, henter, hdead⟩ := exists_enter (v := v) hrole f
      obtain ⟨f₂, out, hrun, hrest⟩ := ih hbodies' hreads' f₁
      have hplain := run_plain (v := v) (fun l hl => directive?_of_isPlain (hbody l hl)) [f₁]
      refine ⟨f₂, (if [f₁].all Frame.live then b.body else []) ++ out, ?_, fun htaken => ?_⟩
      · rw [List.flatMap_cons, Branch.lines, List.cons_append, run_directive hd, henter, run_append,
          hplain, hrun]
      · obtain ⟨htaken₁, hlive⟩ := hdead htaken
        obtain ⟨htaken₂, hout⟩ := hrest htaken₁
        refine ⟨htaken₂, ?_⟩
        rw [hout, List.append_nil, if_neg (by simp [hlive])]

/-- **A chain is left as it was entered**, and where its first condition is true its first body
is selected. -/
theorem run_group {g : Group} (hlaid : g.IsLaid) (hread : GroupIsRead g) :
    ∃ out, run v [] g.lines = ([], out)
      ∧ ∀ word c, directive? g.first.line = some (.opening word c) → v word c = true →
          out = g.first.body := by
  obtain ⟨word, c, hfirst⟩ := exists_opening hread.first
  obtain ⟨d, hd, hrole⟩ := hread.ending.exists_directive
  have hlines : g.lines = g.first.line :: (g.first.body
      ++ ((g.alternatives ++ g.fallback.toList).flatMap Branch.lines ++ [g.ending])) := by
    simp [Group.lines, Group.otherLines, Group.fallbackLines, Branch.lines]
  -- the branches behind the first, with the fallback as the last of them
  have hbodies : ∀ b ∈ g.alternatives ++ g.fallback.toList, ∀ l ∈ b.body, IsPlain l :=
    List.forall_mem_append.mpr ⟨fun b hb => (hlaid.alternatives b hb).body,
      fun b hb => (hlaid.fallback b (by simpa using hb)).body⟩
  have hreads : ∀ b ∈ g.alternatives ++ g.fallback.toList,
      IsRead .alternative b.line ∨ IsRead .fallback b.line :=
    List.forall_mem_append.mpr ⟨fun b hb => .inl (hread.alternatives b hb),
      fun b hb => .inr (hread.fallback b (by simpa using hb))⟩
  obtain ⟨f, out, hrun, hout⟩ := exists_run_branches (v := v) hbodies hreads ⟨v word c, v word c⟩
  have hplain := run_plain (v := v)
    (fun l hl => directive?_of_isPlain (hlaid.first.body l hl)) [⟨v word c, v word c⟩]
  have hending : run v [f] [g.ending] = ([], []) := by
    rw [run_directive hd]
    cases d with
    | opening word c => cases hrole
    | alternative c => cases hrole
    | fallback => cases hrole
    | ending => rfl
  refine ⟨(if [(⟨v word c, v word c⟩ : Frame)].all Frame.live then g.first.body else []) ++ out,
    ?_, fun word' c' hfirst' htrue => ?_⟩
  · rw [hlines, run_directive hfirst, enter, run_append, hplain, run_append, hrun, hending,
      List.append_nil]
  · rw [hfirst] at hfirst'
    obtain ⟨rfl, rfl⟩ := Directive.opening.inj (Option.some.inj hfirst')
    rw [htrue, (hout htrue).2, List.append_nil]
    rfl

end Branches

/-! ## Texts of items -/

section Items

variable {v : Text → Text → Bool} {word flag : Text}

/-- In front of an item and behind it, no chain is open. -/
theorem run_item {i : Item} (hlaid : i.IsLaid) (hread : ItemIsRead i) :
    (run v [] i.lines).1 = [] := by
  cases i with
  | line l =>
      have hplain : ∀ l' ∈ [l], directive? l' = none :=
        List.forall_mem_singleton.mpr (directive?_of_isPlain hlaid)
      exact congrArg Prod.fst (run_plain hplain [])
  | chain g =>
      obtain ⟨out, hrun, _⟩ := run_group (v := v) hlaid hread
      exact congrArg Prod.fst hrun

/-- **A pass changes nothing that is selected**, where the chains it replaces have a true
condition. -/
theorem run_resolveItems (hword : word ∈ openers) {items : List Item}
    (hitems : ∀ i ∈ items, i.IsLaid ∧ ItemIsRead i)
    (hopens : ∀ line ∈ linesOf items, opensOn word flag line = true →
      ∀ c, directive? line = some (.opening word c) → v word c = true) :
    run v [] (linesOf (resolveItems word flag items)) = run v [] (linesOf items) := by
  induction items with
  | nil => rfl
  | cons i r ih =>
      obtain ⟨⟨hlaid, hread⟩, hr⟩ := List.forall_mem_cons.mp hitems
      have hcons : linesOf (i :: r) = i.lines ++ linesOf r := rfl
      rw [hcons] at hopens
      obtain ⟨hi, hrest⟩ := List.forall_mem_append.mp hopens
      have hitem : run v [] (linesOf (i.resolve word flag)) = run v [] i.lines := by
        rcases i.linesOf_resolve with hsame | ⟨g, rfl, hflag, hbody⟩
        · rw [hsame]
        · -- the chain is replaced, and selects what it is replaced by
          have hg : g.IsLaid := hlaid
          obtain ⟨out, hrun, hfirst⟩ := run_group (v := v) hg hread
          obtain ⟨word', c, hopening⟩ := exists_opening (GroupIsRead.first hread)
          have hmem : g.first.line ∈ (Item.chain g).lines := List.mem_cons_self
          have hword' : word' = word :=
            (of_directive?_opening hopening).1.trans (wordOf_of_opensOn hword hflag)
          rw [hword'] at hopening
          have hout := hfirst word c hopening (hi g.first.line hmem hflag c hopening)
          have hplain := run_plain (v := v)
            (fun l hl => directive?_of_isPlain (hg.first.body l hl)) []
          have hlines : run v [] (Item.chain g).lines = ([], out) := hrun
          rw [hbody, hplain, hlines, hout]
          rfl
      rw [linesOf_resolveItems_cons, hcons, run_append, run_append, hitem, run_item hlaid hread,
        ih hr hrest]

end Items

/-! ## Cleaned texts -/

/-- **Cleaning preserves what a preprocessor selects.** From a source without nested chains the
same lines are selected as from the text behind the passes, whatever the conditions of other
chains are worth, if the flag is true where it stands alone, and true where an opening line
only starts with it. -/
theorem selected_clean {flag source : Text} (hflag : '\n' ∉ flag) (hsource : IsNonNested source)
    {v : Text → Text → Bool} (hexact : ∀ word ∈ openers, v word flag = true)
    (hopens : ∀ line ∈ lines source, ∀ word ∈ openers, opensOn word flag line = true →
      ∀ c, directive? line = some (.opening word c) → c = flag ∨ v word c = true) :
    selected v (lines (clean flag source).1) = selected v (lines source) := by
  obtain ⟨items, hitems, hlines⟩ := hsource
  obtain ⟨hare, htext⟩ := areLines_lines source
  rw [hlines] at hare htext hopens
  have hopens' : ∀ line ∈ linesOf items, ∀ word ∈ openers, opensOn word flag line = true →
      ∀ c, directive? line = some (.opening word c) → v word c = true := by
    intro line hline word hword hon c hc
    rcases hopens line hline word hword hon c hc with rfl | htrue
    · exact hexact word hword
    · exact htrue
  have hfirst := sublist_linesOf_resolveItems "#if".toList flag items
  have hsecond := sublist_linesOf_resolveItems "#ifdef".toList flag
    (resolveItems "#if".toList flag items)
  -- the second pass is given the items that the first has left
  have hitems' : ∀ i ∈ resolveItems "#if".toList flag items, i.IsLaid ∧ ItemIsRead i := by
    refine forall_mem_resolveItems "#if".toList flag (fun g hchain l hl => ?_) hitems
    have hg : g.IsLaid := hchain.1
    exact ⟨hg.first.body l hl, trivial⟩
  have hclean : lines (clean flag source).1
      = linesOf (resolveItems "#ifdef".toList flag (resolveItems "#if".toList flag items)) := by
    rw [← htext, clean_items hflag (fun i hi => (hitems i hi).1) hare]
    exact lines_flatten (hare.sublist (hsecond.trans hfirst))
  rw [selected, selected, hclean, hlines,
    run_resolveItems (by decide) hitems' fun line hline => hopens' line (hfirst.subset hline) _
      (by decide),
    run_resolveItems (by decide) hitems fun line hline => hopens' line hline _ (by decide)]

theorem selected_clean_chains :
    ∃ flag source v, flag = "A".toList
      ∧ source = "a\n#if A\nx\n#elif B\ny\n#else\nz\n#endif\n#if B\nu\n#else\nw\n#endif\n#ifdef A // on\nt\n#endif".toList
      ∧ v = (fun _ c => c == flag || c == "A // on".toList)
      ∧ '\n' ∉ flag ∧ IsNonNested source ∧ (∀ word ∈ openers, v word flag = true)
      ∧ (∀ line ∈ lines source, ∀ word ∈ openers, opensOn word flag line = true →
          ∀ c, directive? line = some (.opening word c) → c = flag ∨ v word c = true)
      ∧ (clean flag source).1 = "a\nx\n#if B\nu\n#else\nw\n#endif\nt\n".toList
      ∧ selected v (lines (clean flag source).1) = selected v (lines source)
      ∧ selected v (lines source) = ["a\n".toList, "x\n".toList, "w\n".toList, "t\n".toList] := by
  let source := "a\n#if A\nx\n#elif B\ny\n#else\nz\n#endif\n#if B\nu\n#else\nw\n#endif\n#ifdef A // on\nt\n#endif".toList
  let v : Text → Text → Bool := fun _ c => c == "A".toList || c == "A // on".toList
  have hsource : IsNonNested source := by
    refine ⟨[.line "a\n".toList,
      .chain ⟨⟨"#if A\n".toList, ["x\n".toList]⟩, [⟨"#elif B\n".toList, ["y\n".toList]⟩],
        some ⟨"#else\n".toList, ["z\n".toList]⟩, "#endif\n".toList⟩,
      .chain ⟨⟨"#if B\n".toList, ["u\n".toList]⟩, [], some ⟨"#else\n".toList, ["w\n".toList]⟩,
        "#endif\n".toList⟩,
      .chain ⟨⟨"#ifdef A // on\n".toList, ["t\n".toList]⟩, [], none, "#endif".toList⟩], ?_, ?_⟩
    · decide +kernel
    · decide +kernel
  have hopens : ∀ line ∈ lines source, ∀ word ∈ openers, opensOn word "A".toList line = true →
      v word (conditionOf line) = true := by decide +kernel
  have hopens' : ∀ line ∈ lines source, ∀ word ∈ openers, opensOn word "A".toList line = true →
      ∀ c, directive? line = some (.opening word c) → c = "A".toList ∨ v word c = true := by
    intro line hline word hword hon c hc
    rw [(of_directive?_opening hc).2]
    exact .inr (hopens line hline word hword hon)
  exact ⟨_, source, v, rfl, rfl, rfl, by decide, hsource, by decide, hopens', by decide +kernel,
    selected_clean (by decide) hsource (by decide) hopens', by decide +kernel⟩

/-- A condition that only starts with the flag is not the flag. Where it is false, the branch
that is selected goes with the chain. -/
theorem selected_clean_conjunction :
    ∃ flag source v, flag = "A".toList ∧ source = "#if A && B\nx\n#else\ny\n#endif\n".toList
      ∧ v = (fun _ c => c == flag) ∧ IsNonNested source ∧ (∀ word ∈ openers, v word flag = true)
      ∧ selected v (lines (clean flag source).1) = ["x\n".toList]
      ∧ selected v (lines source) = ["y\n".toList] := by
  refine ⟨_, _, _, rfl, rfl, rfl, ?_, by decide, by decide +kernel, by decide +kernel⟩
  refine ⟨[.chain ⟨⟨"#if A && B\n".toList, ["x\n".toList]⟩, [],
    some ⟨"#else\n".toList, ["y\n".toList]⟩, "#endif\n".toList⟩], ?_, ?_⟩
  · decide +kernel
  · decide +kernel

end Preprocessor

end Unflag
