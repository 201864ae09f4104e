/-
What the passes take out of a text.

On any text, well formed or not, a pass only takes characters away. What it finds may be far
from the chain that was meant, but it always starts with the opener, a space, the flag and the
rest of a line, and it ends with an ending; the body between the two is kept. So every
replacement costs at least the characters of these two, which is all that is needed to compare
the count with the texts (`clean_only_deletes`): the text is as it was exactly if the count is
zero, and a worker that compares texts decides as one that looks at the count.

On a text of plain lines and chains without nesting, what is found is what was meant. There the
two passes are one map over the items (`clean_replaces_chains`): the second is given the text
that the first has left, but of an item the first pass leaves either the item itself or plain
lines.
-/
import Unflag.Proofs.ChainLayout
import Unflag.Proofs.FileStep

set_option autoImplicit false

namespace Unflag

namespace Chain

open Text

/-! ## What a search takes -/

/-- What is found is the end of the text, and at least `n` characters stand in front of it. -/
def Takes (n : Nat) (p : Text → Option Text) : Prop :=
  ∀ s r, p s = some r → r <:+ s ∧ r.length + n ≤ s.length

theorem takes_after? (w : Text) : Takes w.length (after? w) := by
  intro s r h
  rw [after?_eq_some_iff] at h
  rw [h, List.length_append]
  exact ⟨List.suffix_append w r, by omega⟩

theorem takes_afterLine? : Takes 1 afterLine? := by
  intro s
  induction s with
  | nil => intro r h; exact absurd h (by simp [afterLine?])
  | cons c q ih =>
      intro r h
      rw [List.length_cons]
      by_cases hc : c = '\n'
      · rw [afterLine?, if_pos hc] at h
        rw [← Option.some.inj h]
        exact ⟨List.suffix_cons c q, by omega⟩
      · rw [afterLine?, if_neg hc] at h
        obtain ⟨hsuffix, hlength⟩ := ih r h
        exact ⟨hsuffix.trans (List.suffix_cons c q), by omega⟩

/-- One search behind another takes what both take. -/
theorem Takes.bind {m n : Nat} {p q : Text → Option Text} (hp : Takes m p) (hq : Takes n q) :
    Takes (m + n) fun s => (p s).bind q := by
  intro s r h
  obtain ⟨t, ht, hr⟩ := Option.bind_eq_some_iff.mp h
  obtain ⟨hsuffix, hlength⟩ := hp s t ht
  obtain ⟨hsuffix', hlength'⟩ := hq t r hr
  exact ⟨hsuffix'.trans hsuffix, by omega⟩

/-- What is found first is found at some place of the text. -/
theorem exists_of_firstAt {α : Type} {p : Text → Option α} {s before : Text} {a : α}
    (h : firstAt p s = some (before, a)) : ∃ t, s = before ++ t ∧ p t = some a := by
  induction s generalizing before with
  | nil =>
      obtain ⟨b, hb, heq⟩ := Option.map_eq_some_iff.mp h
      cases heq
      exact ⟨[], rfl, hb⟩
  | cons c r ih =>
      rw [firstAt] at h
      split at h
      · next b hb =>
        cases h
        exact ⟨c :: r, rfl, hb⟩
      · obtain ⟨⟨before', b⟩, hb, heq⟩ := Option.map_eq_some_iff.mp h
        cases heq
        obtain ⟨t, ht, hfound⟩ := ih hb
        exact ⟨t, by rw [ht, List.cons_append], hfound⟩

theorem takes_afterEnding? : Takes 6 afterEnding? := by
  intro s r h
  obtain ⟨t, ht, hr⟩ := Option.map_eq_some_iff.mp h
  have hword : "#endif".toList.length = 6 := rfl
  obtain ⟨hsuffix, hlength⟩ := takes_after? _ s t ht
  have hline : r <:+ t := by
    rw [← hr, dropLine]
    cases hafter : afterLine? t with
    | none => exact List.nil_suffix
    | some u => exact (takes_afterLine? t u hafter).1
  have := hline.length_le
  exact ⟨hline.trans hsuffix, by omega⟩

/-- A branch in front of the end makes what is taken longer. -/
theorem takes_pastBranch {n : Nat} {w : Text} {next : Text → Option Text} (h : Takes n next) :
    Takes n (pastBranch w next) := by
  intro s r hfound
  unfold pastBranch at hfound
  split at hfound
  · next before rest hbranch =>
    obtain ⟨t, ht, hfirst⟩ := Option.bind_eq_some_iff.mp hbranch
    obtain ⟨u, rfl, hu⟩ := exists_of_firstAt hfirst
    obtain ⟨hsuffix, hlength⟩ := ((takes_after? w).bind takes_afterLine?) s _ ht
    obtain ⟨hsuffix', hlength'⟩ := h u rest hu
    rw [List.length_append] at hlength
    rw [← Option.some.inj hfound]
    exact ⟨hsuffix'.trans ((List.suffix_append before u).trans hsuffix), by omega⟩
  · exact h s r hfound

theorem takes_afterAlternatives? : Takes 6 afterAlternatives? :=
  takes_pastBranch (takes_pastBranch takes_afterEnding?)

variable {word flag : Text}

theorem takes_afterOpening? (word flag : Text) :
    Takes (word.length + flag.length + 2) (afterOpening? word flag) := by
  intro s r h
  have hneedle : (word ++ [' '] ++ flag).length = word.length + flag.length + 1 := by
    simp only [List.length_append, List.length_cons, List.length_nil]
    omega
  unfold afterOpening? at h
  split at h
  · exact absurd h (by simp)
  · next t ht =>
    obtain ⟨hsuffix, hlength⟩ := takes_after? _ s t ht
    split at h
    · exact absurd h (by simp)
    · obtain ⟨hsuffix', hlength'⟩ := takes_afterLine? t r h
      exact ⟨hsuffix'.trans hsuffix, by omega⟩

/-- **What is found**: an opening line, the body, and an ending in front of the rest. -/
theorem exists_of_at? {s body rest : Text} (h : at? word flag s = some (body, rest)) :
    ∃ t, body ++ t <:+ s ∧ (body ++ t).length + (word.length + flag.length + 2) ≤ s.length
      ∧ rest <:+ t ∧ rest.length + 6 ≤ t.length := by
  obtain ⟨q, hq, hfirst⟩ := Option.bind_eq_some_iff.mp h
  obtain ⟨t, rfl, ht⟩ := exists_of_firstAt hfirst
  obtain ⟨hsuffix, hlength⟩ := takes_afterOpening? word flag s _ hq
  obtain ⟨hsuffix', hlength'⟩ := takes_afterAlternatives? t rest ht
  exact ⟨t, hsuffix, hlength, hsuffix', hlength'⟩

/-! ## Any text -/

/-- A pass over a text, from left to right, with what it leaves and the chains it replaces. -/
inductive Swept (word flag : Text) : Text → Text → Nat → Prop
  | nil : Swept word flag [] [] 0
  | chain {s body rest t : Text} {n : Nat} (hfound : at? word flag s = some (body, rest))
      (h : Swept word flag rest t n) : Swept word flag s (body ++ t) (n + 1)
  | char {c : Char} {s t : Text} {n : Nat} (hnone : at? word flag (c :: s) = none)
      (h : Swept word flag s t n) : Swept word flag (c :: s) (c :: t) n

theorem swept_sweep (word flag s : Text) :
    Swept word flag s (sweep word flag s).1 (sweep word flag s).2 := by
  fun_induction sweep word flag s with
  | case1 => exact .nil
  | case2 c r body rest hfound text n hsweep ih =>
      rw [hsweep] at ih
      exact .chain hfound ih
  | case3 c r hnone text n hsweep ih =>
      rw [hsweep] at ih
      exact .char hnone ih

namespace Swept

variable {s t : Text} {n : Nat}

/-- A pass takes characters away and puts none in, -/
theorem sublist (h : Swept word flag s t n) : t.Sublist s := by
  induction h with
  | nil => exact .refl []
  | @chain s body rest t n hfound _ ih =>
      obtain ⟨u, hsuffix, _, hrest, _⟩ := exists_of_at? hfound
      have hbody : (body ++ t).Sublist (body ++ u) :=
        (List.Sublist.refl body).append (ih.trans hrest.sublist)
      exact hbody.trans hsuffix.sublist
  | @char c s t n _ _ ih => exact ih.cons_cons c

/-- and every chain it replaces costs its opening line and its ending. -/
theorem length_add_le (h : Swept word flag s t n) :
    t.length + n * (word.length + flag.length + 8) ≤ s.length := by
  induction h with
  | nil => simp
  | @chain s body rest t n hfound _ ih =>
      obtain ⟨u, _, hlength, _, hrest⟩ := exists_of_at? hfound
      simp only [List.length_append, Nat.add_mul, Nat.one_mul] at hlength ih ⊢
      omega
  | @char c s t n _ _ ih =>
      simp only [List.length_cons]
      omega

/-- A pass that replaces nothing leaves the text as it is. -/
theorem eq_self (h : Swept word flag s t n) (hn : n = 0) : t = s := by
  induction h with
  | nil => rfl
  | chain hfound _ ih => omega
  | @char c s t n _ _ ih => rw [ih hn]

end Swept

/-- The second pass is given what the first has left. -/
theorem clean_eq (flag source : Text) :
    clean flag source
      = ((sweep "#ifdef".toList flag (sweep "#if".toList flag source).1).1,
          (sweep "#if".toList flag source).2
            + (sweep "#ifdef".toList flag (sweep "#if".toList flag source).1).2) := by
  simp only [clean, openers, List.foldl_cons, List.foldl_nil, Nat.zero_add]

theorem sublist_clean (flag source : Text) : (clean flag source).1.Sublist source := by
  rw [clean_eq]
  exact (swept_sweep _ _ _).sublist.trans (swept_sweep _ _ _).sublist

theorem length_clean_add_le (flag source : Text) :
    (clean flag source).1.length + (clean flag source).2 * (flag.length + 11) ≤ source.length := by
  have hfirst := (swept_sweep "#if".toList flag source).length_add_le
  have hsecond :=
    (swept_sweep "#ifdef".toList flag (sweep "#if".toList flag source).1).length_add_le
  have hif : "#if".toList.length + flag.length + 8 = flag.length + 11 := by
    show 3 + flag.length + 8 = flag.length + 11
    omega
  -- the longer opener of the second pass costs more
  have hifdef : flag.length + 11 ≤ "#ifdef".toList.length + flag.length + 8 := by
    show flag.length + 11 ≤ 6 + flag.length + 8
    omega
  rw [hif] at hfirst
  rw [clean_eq]
  dsimp only
  rw [Nat.add_mul]
  have hcost := Nat.mul_le_mul_left
    (sweep "#ifdef".toList flag (sweep "#if".toList flag source).1).2 hifdef
  omega

/-- **The text and the count agree**: nothing is replaced exactly if the text is as it was. -/
theorem clean_eq_self_iff (flag source : Text) :
    (clean flag source).1 = source ↔ (clean flag source).2 = 0 := by
  constructor
  · intro h
    have hcost := length_clean_add_le flag source
    rw [h] at hcost
    by_contra hne
    have hpos : 1 * (flag.length + 11) ≤ (clean flag source).2 * (flag.length + 11) :=
      Nat.mul_le_mul_right _ (Nat.one_le_iff_ne_zero.mpr hne)
    omega
  · intro h
    rw [clean_eq] at h ⊢
    obtain ⟨hfirst, hsecond⟩ := Nat.add_eq_zero_iff.mp h
    dsimp only
    rw [(swept_sweep _ _ _).eq_self hsecond, (swept_sweep _ _ _).eq_self hfirst]

/-- **Cleaning only deletes.** Whatever the text and the flag, the new text is a subsequence of
the characters of the source, and each replaced chain makes it shorter by eleven characters and
the flag at least. So a worker that reads the source leaves the file alone exactly if nothing
was replaced, and writes the new text otherwise. -/
theorem clean_only_deletes (flag source : Text) :
    (clean flag source).1.Sublist source
      ∧ (clean flag source).1.length + (clean flag source).2 * (flag.length + 11) ≤ source.length
      ∧ ((clean flag source).1 = source ↔ (clean flag source).2 = 0)
      ∧ ∀ {σ : Type} (store : Store σ) (s : σ) (path : Path) (dryRun : Bool),
        store.holds s path = .ok true → store.read s path = .ok source →
          ((Worker.chains dryRun flag path).run store path s).outcome
            = if (clean flag source).2 = 0 then .ok (.settled path .unchanged) else
              ((Worker.writing dryRun path (clean flag source).1).run store path s).outcome := by
  refine ⟨sublist_clean flag source, length_clean_add_le flag source,
    clean_eq_self_iff flag source, ?_⟩
  intro σ store s path dryRun hholds hread
  simp only [Worker.chains, Worker.opening, Session.run, hholds, hread]
  by_cases hcount : (clean flag source).2 = 0
  · have hsame := (clean_eq_self_iff flag source).mpr hcount
    rw [if_pos hcount, if_pos (by simpa using hsame)]
    rfl
  · have hchanged : ¬ (clean flag source).1 = source := by
      rwa [clean_eq_self_iff]
    rw [if_neg hcount, if_neg (by simpa using hchanged)]
    rfl

/-- A chain inside a chain: the ending of the inner one is taken for that of the outer one, and
still the text is only shortened, by an opening line and an ending. -/
theorem clean_only_deletes_nested :
    ∃ flag source path, flag = "A".toList
      ∧ source = "#if A\n#if A\nx\n#endif\ny\n#endif\n".toList
      ∧ clean flag source = ("#if A\nx\ny\n#endif\n".toList, 1)
      ∧ (clean flag source).1.Sublist source
      ∧ (clean flag source).1.length + (clean flag source).2 * (flag.length + 11) ≤ source.length
      ∧ ((clean flag source).1 = source ↔ (clean flag source).2 = 0)
      ∧ MemoryStore.store.holds ⟨[(path, source)], none, none, none⟩ path = .ok true
      ∧ ((Worker.chains true flag path).run MemoryStore.store path
          ⟨[(path, source)], none, none, none⟩).outcome.toOption
        = some (.planned path .written) := by
  let source := "#if A\n#if A\nx\n#endif\ny\n#endif\n".toList
  let path : Path := ⟨.root, ["a.m".toList]⟩
  let s : MemoryStore := ⟨[(path, source)], none, none, none⟩
  have hclean : clean "A".toList source = ("#if A\nx\ny\n#endif\n".toList, 1) := by decide +kernel
  have hholds : MemoryStore.store.holds s path = .ok true := by decide +kernel
  have hread : MemoryStore.store.read s path = .ok source := rfl
  obtain ⟨hsub, hlength, hsame, hworker⟩ := clean_only_deletes "A".toList source
  refine ⟨_, source, path, rfl, rfl, hclean, hsub, hlength, hsame, hholds, ?_⟩
  rw [hworker MemoryStore.store s path true hholds hread, if_neg (by rw [hclean]; decide)]
  rfl

/-! ## Texts of items -/

/-- A line opens a chain on the flag: behind an opener and a space stands the flag, and no letter,
digit or underscore behind it. -/
def OpensOn (flag line : Text) : Prop :=
  ∃ word ∈ openers, ∃ rest, line = word ++ ' ' :: (flag ++ rest)
    ∧ ∀ c ∈ rest.head?, isWordChar c = false

theorem opensOn_eq_true_iff {line : Text} : opensOn word flag line = true ↔
    ∃ rest, line = word ++ ' ' :: (flag ++ rest) ∧ ∀ c ∈ rest.head?, isWordChar c = false := by
  have hsplit : ∀ rest, word ++ [' '] ++ flag ++ rest = word ++ ' ' :: (flag ++ rest) := by simp
  have hend : ∀ rest : Text, (!rest.head?.any isWordChar) = true
      ↔ ∀ c ∈ rest.head?, isWordChar c = false := by
    intro rest
    cases rest with
    | nil => simp
    | cons c r => simp
  unfold opensOn
  constructor
  · intro h
    split at h
    · next rest hrest =>
      rw [after?_eq_some_iff, hsplit] at hrest
      exact ⟨rest, hrest, (hend rest).mp h⟩
    · exact absurd h (by simp)
  · rintro ⟨rest, hline, hrest⟩
    rw [← hsplit, ← after?_eq_some_iff] at hline
    rw [hline]
    exact (hend rest).mpr hrest

theorem opensOn_iff {line : Text} : OpensOn flag line
    ↔ opensOn "#if".toList flag line = true ∨ opensOn "#ifdef".toList flag line = true := by
  rw [opensOn_eq_true_iff, opensOn_eq_true_iff]
  simp only [OpensOn, openers, List.mem_cons, List.not_mem_nil, or_false, exists_eq_or_imp,
    exists_eq_left]

instance (flag line : Text) : Decidable (OpensOn flag line) := decidable_of_iff _ opensOn_iff.symm

/-- Whether an item is a chain that opens on the flag, with either opener. -/
def Item.isOn (flag : Text) : Item → Bool
  | .line _ => false
  | .chain g => decide (OpensOn flag g.first.line)

/-- The lines that are left of an item: of a chain that opens on the flag its first body, of any
other item all. -/
def Item.kept (flag : Text) : Item → List Text
  | .line l => [l]
  | .chain g => if OpensOn flag g.first.line then g.first.body else g.lines

/-- Plain lines are what they are behind a pass, -/
theorem resolveItems_map_line (word flag : Text) (ls : List Text) :
    resolveItems word flag (ls.map Item.line) = ls.map Item.line := by
  rw [resolveItems, List.flatMap_map]
  exact List.map_eq_flatMap.symm

/-- and none of them is counted. -/
theorem countP_map_line (word flag : Text) (ls : List Text) :
    (ls.map Item.line).countP (Item.opensOn word flag) = 0 := by
  rw [List.countP_map, List.countP_eq_zero]
  intro l _
  exact Bool.false_ne_true

/-- **Two passes over an item** leave what is kept of it, and count it once if it is replaced. -/
theorem Item.resolve_twice (flag : Text) (i : Item) :
    linesOf (resolveItems "#ifdef".toList flag (i.resolve "#if".toList flag)) = i.kept flag
      ∧ (if i.opensOn "#if".toList flag = true then 1 else 0)
          + (i.resolve "#if".toList flag).countP (Item.opensOn "#ifdef".toList flag)
        = if i.isOn flag = true then 1 else 0 := by
  cases i with
  | line l => exact ⟨rfl, rfl⟩
  | chain g =>
      have hkept : (Item.chain g).kept flag
          = if OpensOn flag g.first.line then g.first.body else g.lines := rfl
      have hon : (Item.chain g).isOn flag = decide (OpensOn flag g.first.line) := rfl
      have hopens : ∀ word, (Item.chain g).opensOn word flag
          = Chain.opensOn word flag g.first.line := fun _ => rfl
      rw [hkept, hon, hopens]
      by_cases hif : Chain.opensOn "#if".toList flag g.first.line = true
      · -- the first pass leaves plain lines, which the second passes over
        have hopen : OpensOn flag g.first.line := opensOn_iff.mpr (.inl hif)
        rw [Item.resolve_of_opensOn hif, resolveItems_map_line, linesOf_map_line, countP_map_line,
          if_pos hif, if_pos hopen, if_pos (by simpa using hopen)]
        exact ⟨rfl, rfl⟩
      · rw [Item.resolve_of_not_opensOn hif, if_neg hif, List.countP_singleton, hopens]
        have hone : resolveItems "#ifdef".toList flag [.chain g]
            = (Item.chain g).resolve "#ifdef".toList flag := List.append_nil _
        rw [hone]
        by_cases hifdef : Chain.opensOn "#ifdef".toList flag g.first.line = true
        · have hopen : OpensOn flag g.first.line := opensOn_iff.mpr (.inr hifdef)
          rw [Item.resolve_of_opensOn hifdef, linesOf_map_line, if_pos hifdef, if_pos hopen,
            if_pos (by simpa using hopen)]
          exact ⟨rfl, rfl⟩
        · have hclosed : ¬ OpensOn flag g.first.line := by
            rw [opensOn_iff]
            exact not_or.mpr ⟨hif, hifdef⟩
          rw [Item.resolve_of_not_opensOn hifdef, if_neg hifdef, if_neg hclosed,
            if_neg (by simpa using hclosed)]
          exact ⟨List.append_nil g.lines, rfl⟩

/-- **Two passes over a text of items.** -/
theorem resolveItems_twice (flag : Text) (items : List Item) :
    linesOf (resolveItems "#ifdef".toList flag (resolveItems "#if".toList flag items))
        = items.flatMap (Item.kept flag)
      ∧ items.countP (Item.opensOn "#if".toList flag)
          + (resolveItems "#if".toList flag items).countP (Item.opensOn "#ifdef".toList flag)
        = items.countP (Item.isOn flag) := by
  induction items with
  | nil => exact ⟨rfl, rfl⟩
  | cons i r ih =>
      obtain ⟨hlines, hcount⟩ := i.resolve_twice flag
      obtain ⟨ihlines, ihcount⟩ := ih
      have hfirst : resolveItems "#if".toList flag (i :: r)
          = i.resolve "#if".toList flag ++ resolveItems "#if".toList flag r := List.flatMap_cons
      have hsecond : resolveItems "#ifdef".toList flag (resolveItems "#if".toList flag (i :: r))
          = resolveItems "#ifdef".toList flag (i.resolve "#if".toList flag)
            ++ resolveItems "#ifdef".toList flag (resolveItems "#if".toList flag r) := by
        rw [hfirst]
        exact List.flatMap_append
      have happend : ∀ a b : List Item, linesOf (a ++ b) = linesOf a ++ linesOf b :=
        fun _ _ => List.flatMap_append
      constructor
      · rw [hsecond, happend, hlines, ihlines, List.flatMap_cons]
      · rw [hfirst, List.countP_append, List.countP_cons, List.countP_cons]
        omega

/-- **Chains are replaced exactly.** A source whose lines are plain lines and the lines of chains,
none inside another, becomes the text in which each chain that opens on the flag is replaced by
its first body and everything else stands as it was; the count is the number of those chains. -/
theorem clean_replaces_chains {flag source : Text} (hflag : '\n' ∉ flag) {items : List Item}
    (hitems : ∀ i ∈ items, i.IsLaid) (hsource : lines source = linesOf items) :
    clean flag source
      = ((items.flatMap (Item.kept flag)).flatten, items.countP (Item.isOn flag)) := by
  obtain ⟨hare, htext⟩ := areLines_lines source
  rw [hsource] at hare htext
  obtain ⟨hlines, hcount⟩ := resolveItems_twice flag items
  rw [← htext, clean_items hflag hitems hare, hlines, hcount]

theorem clean_replaces_chains_mixed :
    ∃ flag source items, flag = "A".toList
      ∧ source = "a\n#if A // on\nx\n#elif B\ny\n#else\nz\n#endif\n#if AB\nu\n#endif\n#ifdef A\nt\n#endif".toList
      ∧ '\n' ∉ flag ∧ (∀ i ∈ items, i.IsLaid) ∧ lines source = linesOf items
      ∧ (items.flatMap (Item.kept flag)).flatten = "a\nx\n#if AB\nu\n#endif\nt\n".toList
      ∧ items.countP (Item.isOn flag) = 2
      ∧ clean flag source
        = ((items.flatMap (Item.kept flag)).flatten, items.countP (Item.isOn flag)) := by
  let source := "a\n#if A // on\nx\n#elif B\ny\n#else\nz\n#endif\n#if AB\nu\n#endif\n#ifdef A\nt\n#endif".toList
  let items : List Item := [.line "a\n".toList,
    .chain ⟨⟨"#if A // on\n".toList, ["x\n".toList]⟩, [⟨"#elif B\n".toList, ["y\n".toList]⟩],
      some ⟨"#else\n".toList, ["z\n".toList]⟩, "#endif\n".toList⟩,
    .chain ⟨⟨"#if AB\n".toList, ["u\n".toList]⟩, [], none, "#endif\n".toList⟩,
    .chain ⟨⟨"#ifdef A\n".toList, ["t\n".toList]⟩, [], none, "#endif".toList⟩]
  have hflag : '\n' ∉ "A".toList := by decide
  have hitems : ∀ i ∈ items, i.IsLaid := by decide +kernel
  have hsource : lines source = linesOf items := by decide +kernel
  exact ⟨_, source, items, rfl, rfl, hflag, hitems, hsource, by decide +kernel, by decide +kernel,
    clean_replaces_chains hflag hitems hsource⟩

end Chain

end Unflag
