/-
A source that does not mention the flag.

The search looks for the flag in the text of a file and passes by every file without it. That
is safe only if no worker would have changed such a file. The worker that parses edits a
source for the sake of a condition, and a name in a condition is the text of a token: the
flag stands in the source from end to end (`infix_of_isEdited`). The other worker needs the
flag behind the word that opens a chain; its second pass is given a text that the first has
changed, but then the first has met the flag already (`clean_cases`).

The search does not test the text that the workers are given. It replaces what is no
character and writes all line ends alike. The first makes no difference to a file that a
worker can read, and the second none to a flag without line ends.
-/
import Unflag.Cleaning
import Unflag.Proofs.ConditionNames
import Unflag.Proofs.FoundFiles
import Unflag.Proofs.OnePass
import Unflag.Proofs.Pruning

set_option autoImplicit false

namespace Unflag

/-! ## Occurrences in a text -/

namespace Text

/-- What does not start with a line feed is written alike in any text that it ends. -/
theorem normalizeLineEnds_suffix {t s : Text} (h : t <:+ s) (hhead : t.head? ≠ some '\n') :
    normalizeLineEnds t <:+ normalizeLineEnds s := by
  fun_induction normalizeLineEnds s with
  | case1 => rw [List.suffix_nil.mp h, normalizeLineEnds]
  | case2 r ih =>
      rcases List.suffix_cons_iff.mp h with rfl | h
      · rw [normalizeLineEnds]
      · rcases List.suffix_cons_iff.mp h with rfl | h
        · exact absurd rfl hhead
        · exact (ih h).trans (List.suffix_cons _ _)
  | case3 c r hne ih =>
      rcases List.suffix_cons_iff.mp h with rfl | h
      · rw [normalizeLineEnds]
        exact hne
      · exact (ih h).trans (List.suffix_cons _ _)

theorem normalizeLineEnds_append {needle : Text} (h : ∀ c ∈ needle, isLineEnd c = false)
    (s : Text) : normalizeLineEnds (needle ++ s) = needle ++ normalizeLineEnds s := by
  induction needle with
  | nil => rfl
  | cons c r ih =>
      obtain ⟨hc, hr⟩ := List.forall_mem_cons.mp h
      have hreturn : c ≠ '\r' := by
        rintro rfl
        exact absurd hc (by decide)
      rw [List.cons_append, normalizeLineEnds, if_neg hreturn, ih hr, List.cons_append]
      intro _ hcr
      exact absurd hcr hreturn

/-- **A needle without line ends** is found whatever the line ends of the text are. -/
theorem infix_normalizeLineEnds {needle s : Text} (h : ∀ c ∈ needle, isLineEnd c = false)
    (hs : needle <:+: s) : needle <:+: normalizeLineEnds s := by
  obtain ⟨before, after, rfl⟩ := hs
  by_cases hnil : needle = []
  · rw [hnil]
    exact List.nil_infix
  · have hhead : (needle ++ after).head? ≠ some '\n' := by
      obtain ⟨c, r, rfl⟩ := List.exists_cons_of_ne_nil hnil
      intro hc
      cases hc
      exact absurd (h '\n' List.mem_cons_self) (by decide)
    have hsuffix : needle ++ after <:+ before ++ needle ++ after :=
      ⟨before, (List.append_assoc before needle after).symm⟩
    obtain ⟨front, hfront⟩ := normalizeLineEnds_suffix hsuffix hhead
    rw [normalizeLineEnds_append h] at hfront
    exact ⟨front, normalizeLineEnds after, by rw [← hfront, List.append_assoc]⟩

theorem occursIn_normalizeLineEnds {needle s : Text} (h : ∀ c ∈ needle, isLineEnd c = false)
    (hs : needle <:+: s) : occursIn needle (normalizeLineEnds s) = true := by
  rw [occursIn_iff]
  exact infix_normalizeLineEnds h hs

end Text

/-! ## Parsed sources -/

/-- A name of several conditions is a name of one of them. -/
theorem Condition.exists_mem_of_namesAll {es : List Condition} {ns : List Text} {n : Text}
    (h : Condition.namesAll es = .ok ns) (hn : n ∈ ns) :
    ∃ e ∈ es, ∃ ms, e.names = .ok ms ∧ n ∈ ms := by
  induction es generalizing ns with
  | nil =>
      cases h
      exact absurd hn List.not_mem_nil
  | cons e es ih =>
      rw [Condition.namesAll_cons] at h
      obtain ⟨ls, rs, hls, hrs, rfl⟩ := Condition.thenNames_eq_ok h
      rcases List.mem_append.mp hn with hn | hn
      · exact ⟨e, List.mem_cons_self, ls, hls, hn⟩
      · obtain ⟨d, hd, hnames⟩ := ih hrs hn
        exact ⟨d, List.mem_cons_of_mem e hd, hnames⟩

/-- A way to read conditions: what it reads is the condition of the tokens in some grouping. -/
def ReadsConditions (read : List Token → Except Refusal Condition) : Prop :=
  ∀ ts e, read ts = .ok e → ∃ g, Condition.ofTokens g ts = .ok e

theorem readsConditions_ofTokens (g : Grouping) :
    ReadsConditions (Condition.ofTokens g) :=
  fun _ _ h => ⟨g, h⟩

theorem readsConditions_ofTokensBy (label : String) :
    ReadsConditions (Condition.ofTokensBy label) := by
  intro ts e h
  unfold Condition.ofTokensBy at h
  split at h
  · next g _ => exact ⟨g, h⟩
  · cases h

section Parsed

variable {read : List Token → Except Refusal Condition} {flag : Text}

/-- The flag of a block is the text of one of its tokens. -/
theorem exists_token_of_isBlockOn (hread : ReadsConditions read) {n : Node}
    (hbuilt : n.IsBuilt read) (h : IsBlockOn flag n) : ∃ t ∈ n.tokens, t.text = flag := by
  cases n with
  | item kind parts => exact h.elim
  | placeholder t => exact h.elim
  | block cs ending =>
      obtain ⟨ns, hnames, hflag⟩ := h
      obtain ⟨e, he, ms, hms, hmem⟩ :=
        Condition.exists_mem_of_namesAll hnames ((hflag flag).mpr rfl)
      obtain ⟨c, hc, hcondition⟩ := List.mem_filterMap.mp he
      obtain ⟨_, hsome, hnone, _⟩ := hbuilt.2.2 c hc
      have hkind : c.head.kind ≠ .fallback := by
        intro hkind
        rw [(hnone hkind).2] at hcondition
        exact absurd hcondition (by simp)
      obtain ⟨_, e', hread', he'⟩ := hsome hkind
      obtain rfl : e' = e := Option.some.inj (he'.symm.trans hcondition)
      obtain ⟨g, hg⟩ := hread _ _ hread'
      obtain ⟨t, ht, htext⟩ := Condition.exists_token_of_mem_names hg hms hmem
      refine ⟨t, ?_, htext⟩
      rw [Node.tokens, tokensOfClauses_eq]
      refine List.mem_append_left _ (List.mem_flatMap.mpr ⟨c, hc, ?_⟩)
      obtain ⟨head, body⟩ := c
      exact List.mem_append_left _ (List.mem_cons_of_mem _ ht)

/-- The text of a token stands in the source. -/
theorem Token.infix_sourceAll {ts : List Token} {t : Token} (h : t ∈ ts) :
    t.text <:+: Token.sourceAll ts := by
  obtain ⟨before, after, rfl⟩ := List.append_of_mem h
  have htoken : t.text <:+: t.source := ⟨t.leading.text, t.trailing.text, rfl⟩
  refine htoken.trans ⟨Token.sourceAll before, Token.sourceAll after, ?_⟩
  simp [Token.sourceAll]

/-- **A source that is edited mentions the flag.** -/
theorem infix_of_isEdited (hread : ReadsConditions read) {source : Text} {tree : SourceTree}
    (h : SourceTree.parseWith read source = .ok tree) (hedited : tree.isEdited flag = true) :
    flag <:+: source := by
  unfold SourceTree.parseWith at h
  split at h
  · exact absurd h (by simp)
  · next l hl =>
    obtain ⟨site, hsite, hblock⟩ := (tree.isEdited_iff flag).mp hedited
    have hbuilt := (Assembly.isParsed_of_assemble h site hsite).1
    obtain ⟨t, ht, rfl⟩ := exists_token_of_isBlockOn hread hbuilt hblock
    have hmember : t ∈ tokensOfNodes tree.members :=
      everywhere_tokens (fun u hu => hu) site hsite t ht
    have htree : t ∈ tree.tokens := List.mem_append_left _ hmember
    rw [(Assembly.tree_of_assemble h).1] at htree
    rw [← source_of_tokenize hl]
    exact Token.infix_sourceAll htree

/-- A source for which there is a new text, well formed or not, mentions the flag. -/
theorem Edit.infix_of_ofSourceWith (hread : ReadsConditions read) {source : Text}
    (h : (∃ new isEmpty, Edit.ofSourceWith read flag source = .ok (.rewritten new isEmpty))
      ∨ ∃ f, Edit.ofSourceWith read flag source = .error (.broken f)) : flag <:+: source := by
  cases hparse : SourceTree.parseWith read source with
  | error r =>
      simp [Edit.ofSourceWith, hparse] at h
  | ok tree =>
      by_cases hedited : tree.isEdited flag = true
      · exact infix_of_isEdited hread hparse hedited
      · simp [Edit.ofSourceWith, hparse, hedited] at h

end Parsed

/-! ## Chains -/

namespace Chain

variable {word flag : Text}

/-- A chain on the flag mentions it. -/
theorem infix_of_at? {s : Text} {found : Text × Text} (h : at? word flag s = some found) :
    flag <:+: s := by
  obtain ⟨q, hopening, _⟩ := Option.bind_eq_some_iff.mp h
  unfold afterOpening? at hopening
  split at hopening
  · exact absurd hopening (by simp)
  · next r hafter =>
    unfold Text.after? at hafter
    split at hafter
    · next hpre =>
      have hprefix := List.isPrefixOf_iff_prefix.mp hpre
      exact (List.suffix_append _ flag).isInfix.trans hprefix.isInfix
    · exact absurd hafter (by simp)

/-- A pass over a text leaves it alone, or the text mentions the flag. -/
theorem sweep_cases (word flag s : Text) : sweep word flag s = (s, 0) ∨ flag <:+: s := by
  fun_induction sweep word flag s with
  | case1 => exact .inl rfl
  | case2 c r body rest hfound text n hsweep ih => exact .inr (infix_of_at? hfound)
  | case3 c r hnone text n hsweep ih =>
      rcases ih with ih | ih
      · rw [hsweep] at ih
        cases ih
        exact .inl rfl
      · exact .inr (List.infix_cons ih)

/-- **Both passes** leave a text alone, or it mentions the flag. -/
theorem clean_cases (flag source : Text) : clean flag source = (source, 0) ∨ flag <:+: source := by
  rcases sweep_cases "#if".toList flag source with hfirst | hmentions
  · rcases sweep_cases "#ifdef".toList flag source with hsecond | hmentions
    · -- the second pass is given the source itself
      left
      simp only [clean, openers, List.foldl_cons, List.foldl_nil, hfirst, hsecond]
    · exact .inr hmentions
  · exact .inr hmentions

end Chain

/-! ## The text that the search tests -/

namespace Disk

variable {codecs : Codecs} {encoding : Text} {d : Disk} {p : Path}

/-- **The search and the workers** see the same text but for its line ends, unless the codec has no
text for the search. -/
theorem readLeniently_of_readText {text : Text} (h : d.readText codecs encoding p = .ok text) :
    d.readLeniently codecs encoding p = .ok (Text.normalizeLineEnds text)
      ∨ ∃ f, d.readLeniently codecs encoding p = .error f ∧ f.family ≠ .system := by
  unfold readText at h
  unfold readLeniently
  cases hallow : Codecs.allow encoding with
  | error f =>
      rw [hallow] at h
      cases h
  | ok _ =>
      rw [hallow] at h
      cases hbytes : d.readBytes p with
      | error f =>
          rw [hbytes] at h
          cases h
      | ok bytes =>
          rw [hbytes] at h
          cases hnamed : codecs.named encoding with
          | error f =>
              rw [hnamed] at h
              cases h
          | ok codec =>
              rw [hnamed] at h
              dsimp only [bind, Except.bind] at h ⊢
              cases hlenient : codec.decodeLeniently bytes with
              | error f => exact .inr ⟨f, rfl, codec.notSystem hlenient⟩
              | ok lenient =>
                  rw [codec.agree h hlenient]
                  exact .inl rfl

end Disk

namespace Search

variable {σ : Type} {host : Host σ} {o : Settings} {s : σ} {needle : Text}

/-- A path that is looked into and not found does not hold the needle. -/
theorem not_occursIn_of_mentioning {ps found : List Path}
    (h : (mentioning host o s needle ps).2 = .ok found) {p : Path} (hp : p ∈ ps)
    (hskipped : p ∉ found) {text : Text} (htext : host.readLeniently o.encoding s p = .ok text) :
    Text.occursIn needle text = false := by
  by_contra hoccurs
  rw [Bool.not_eq_false] at hoccurs
  exact hskipped (((mentioning_cases h).2 p).mpr ⟨hp, text, htext, hoccurs⟩)

end Search

/-! ## Files that are passed by -/

namespace Cleaning

variable {σ : Type} {host : Host σ} {c : Cleaning} {p : Path} {s : σ}

/-- The worker that parses leaves a file alone that does not mention the flag, -/
theorem parsedWork_unchanged
    (h : ∀ source, (host.store c.settings.encoding).read s p = .ok source →
      ¬ c.flag <:+: source) :
    (c.parsedWork host p s).state = s
      ∧ ∀ o, (c.parsedWork host p s).outcome = .ok o → o.changed = false := by
  apply (ending_source _ _).unchanged_of_no_edit
  intro source hread new isEmpty hedit
  apply h source hread
  exact Edit.infix_of_ofSourceWith (readsConditions_ofTokensBy _) (.inl ⟨new, isEmpty, hedit⟩)

/-- and so does the worker that takes sources as text. -/
theorem textWork_unchanged
    (h : ∀ source, (host.store c.settings.encoding).read s p = .ok source →
      ¬ c.flag <:+: source) :
    (c.textWork host p s).state = s
      ∧ ∀ o, (c.textWork host p s).outcome = .ok o → o.changed = false := by
  apply (ending_chains _).unchanged_of_no_edit
  intro source hread new isEmpty hedit
  obtain ⟨hnew, hne, _⟩ := Chain.clean_of_edit (Except.ok.inj hedit)
  rcases Chain.clean_cases c.flag source with hsame | hmentions
  · rw [hsame] at hnew
    exact hne hnew
  · exact h source hread hmentions

end Cleaning

/-- **The search misses no edit.** A flag without line ends stands in the text that the search
tests whenever the source is edited, well or not, or a chain in it is replaced. So a source
that the search has passed by is one that both workers would have left as it was. -/
theorem search_misses_no_edit {flag : Text} (hflag : ∀ c ∈ flag, Text.isLineEnd c = false) :
    (∀ (g : Grouping) (source : Text),
      (∃ new isEmpty, Edit.ofSource g flag source = .ok (.rewritten new isEmpty))
          ∨ (∃ f, Edit.ofSource g flag source = .error (.broken f)) →
        Text.occursIn flag (Text.normalizeLineEnds source) = true)
    ∧ (∀ source : Text,
      0 < (Chain.clean flag source).2 ∨ (Chain.clean flag source).1 ≠ source →
        Text.occursIn flag (Text.normalizeLineEnds source) = true)
    ∧ ∀ (codecs : Codecs) (tool : Option (Tool Disk)) (c : Cleaning) (d : Disk)
        (sources found : List Path), c.flag = flag →
      Search.sources (Disk.host codecs tool) c.settings d c.root = .ok sources →
      (Search.files (Disk.host codecs tool) c.settings d c.root flag).2 = .ok found →
      ∀ p ∈ sources, p ∉ found →
        (∀ source, d.readText codecs c.settings.encoding p = .ok source →
          d.readLeniently codecs c.settings.encoding p = .ok (Text.normalizeLineEnds source)
            ∧ Text.occursIn flag (Text.normalizeLineEnds source) = false)
        ∧ ∀ r ∈ [c.parsedWork (Disk.host codecs tool) p d, c.textWork (Disk.host codecs tool) p d],
            r.state = d ∧ ∀ o, r.outcome = .ok o → o.changed = false := by
  refine ⟨?_, ?_, ?_⟩
  · intro g source hedit
    apply Text.occursIn_normalizeLineEnds hflag
    exact Edit.infix_of_ofSourceWith (readsConditions_ofTokens g) hedit
  · intro source hclean
    apply Text.occursIn_normalizeLineEnds hflag
    rcases Chain.clean_cases flag source with hsame | hmentions
    · rw [hsame] at hclean
      exact absurd hclean (by simp)
    · exact hmentions
  · rintro codecs tool c d sources found rfl hsources hfound p hp hskipped
    have hlooked := Search.mentioning_of_files hsources hfound
    have hpassed : ∀ source, d.readText codecs c.settings.encoding p = .ok source →
        d.readLeniently codecs c.settings.encoding p = .ok (Text.normalizeLineEnds source)
          ∧ Text.occursIn c.flag (Text.normalizeLineEnds source) = false := by
      intro source hread
      rcases Disk.readLeniently_of_readText hread with htext | ⟨f, hfault, hfamily⟩
      · exact ⟨htext, Search.not_occursIn_of_mentioning hlooked hp hskipped htext⟩
      · -- such a file would have ended the search
        exact absurd ⟨hfault, hfamily⟩ (Search.not_breaks_of_mentioning hlooked hp f)
    have habsent : ∀ source, d.readText codecs c.settings.encoding p = .ok source →
        ¬ c.flag <:+: source := by
      intro source hread hmentions
      have hoccurs := Text.occursIn_normalizeLineEnds hflag hmentions
      exact absurd hoccurs (by simp [(hpassed source hread).2])
    refine ⟨hpassed, ?_⟩
    intro r hr
    rcases List.mem_cons.mp hr with rfl | hr
    · exact Cleaning.parsedWork_unchanged habsent
    · rw [List.mem_singleton.mp hr]
      exact Cleaning.textWork_unchanged habsent

/-- A source that both workers would change, with line ends that the search does not see. -/
theorem search_misses_no_edit_returns :
    ∃ source new, source = "#if A\r\nx\r\n#endif\r\n".toList
      ∧ Edit.ofSource .sequential "A".toList source = .ok (.rewritten new true)
      ∧ 0 < (Chain.clean "A".toList source).2
      ∧ Text.normalizeLineEnds source = "#if A\nx\n#endif\n".toList
      ∧ Text.occursIn "A".toList (Text.normalizeLineEnds source) = true := by
  have hedit : Edit.ofSource .sequential "A".toList "#if A\r\nx\r\n#endif\r\n".toList
      = .ok (.rewritten "x\r\n".toList true) := by decide +kernel
  refine ⟨_, _, rfl, hedit, by decide +kernel, by decide +kernel, ?_⟩
  have hflag : ∀ c ∈ "A".toList, Text.isLineEnd c = false := by
    intro c hc
    have hall : "A".toList.all (fun c => !Text.isLineEnd c) = true := by decide +kernel
    simpa using List.all_eq_true.mp hall c hc
  exact (search_misses_no_edit hflag).1 .sequential _ (.inl ⟨_, _, hedit⟩)

end Unflag
