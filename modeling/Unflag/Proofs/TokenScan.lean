/-
What the tokens of a source look like.

Cutting a source loses nothing: the tokens, each with the trivia on its two sides, are the
source again. The pieces also have a fixed shape that everything behind the scan relies on
without looking: a line break is always leading trivia, the trivia in front of a token
other than the first starts with one or is empty, and a comment that fills its line is
never directly in front of a token on the same line.

As for trivia, the scan is first turned into a relation, `Cut`, and each property is an
induction over it. What travels along is `Leads`: the leading trivia that has been taken
for the next token, with what is known about it and the text behind it.
-/
import Mathlib.Data.List.Infix
import Unflag.Proofs.TriviaScan

set_option autoImplicit false

namespace Unflag

open Text

/-- An answer that went through a map was there before it. -/
theorem exists_of_map_eq_ok {ε α β : Type} {x : Except ε α} {f : α → β} {b : β}
    (h : x.map f = .ok b) : ∃ a, x = .ok a ∧ f a = b := by
  cases x with
  | error e => exact absurd h (by simp [Except.map])
  | ok a => exact ⟨a, rfl, Except.ok.inj h⟩

/-- A run that fails stops at one step, behind others that do not. -/
theorem exists_of_foldlM_eq_error {ε σ α : Type} {step : σ → α → Except ε σ} {xs : List α} {s : σ}
    {e : ε} (h : xs.foldlM step s = .error e) :
    ∃ before x after s', xs = before ++ x :: after ∧ before.foldlM step s = .ok s'
      ∧ step s' x = .error e := by
  induction xs generalizing s with
  | nil => cases h
  | cons x xs ih =>
      rw [List.foldlM_cons] at h
      cases hone : step s x with
      | error e' =>
          rw [hone] at h
          cases h
          exact ⟨[], x, xs, s, rfl, rfl, hone⟩
      | ok s₁ =>
          rw [hone] at h
          obtain ⟨before, y, after, s', rfl, hrun, hlast⟩ := ih h
          refine ⟨x :: before, y, after, s', rfl, ?_, hlast⟩
          rw [List.foldlM_cons, hone]
          exact hrun

namespace Lexeme

/-! ## The class of a token -/

/-- The classes of what a number sign starts. -/
theorem poundAt_kind {r : Text} {k : Token.Kind} {n : Nat} (h : poundAt r = .ok (k, n)) :
    k ∈ [Token.Kind.string, .regex, .directive, .poundName, .unknown] := by
  unfold poundAt at h
  dsimp only at h
  split at h
  · split at h
    · obtain ⟨m, _, hm⟩ := exists_of_map_eq_ok h
      cases hm; decide
    · cases h; decide
  · split at h
    · cases h; decide
    · exact absurd h (by simp)
  · split at h
    · cases h; split <;> decide
    · cases h; decide
  · cases h; decide

/-- So a number sign starts no token of another class. -/
theorem poundAt_ne {k' : Token.Kind}
    (hk' : k' ∉ [Token.Kind.string, .regex, .directive, .poundName, .unknown]) {r : Text}
    {k : Token.Kind} {n : Nat} (h : poundAt r = .ok (k, n)) : k ≠ k' := by
  rintro rfl
  exact hk' (poundAt_kind h)

/-- **No token of a source is the end of the file or a placeholder.** -/
theorem tokenAt_kind {last : Option Token} {c : Char} {r : Text} {k : Token.Kind} {n : Nat}
    (h : tokenAt last c r = .ok (k, n)) : k ≠ .endOfFile ∧ k ≠ .placeholder := by
  unfold tokenAt at h
  dsimp only at h
  split at h
  · cases h; decide
  split at h
  · split at h <;> (cases h; decide)
  split at h
  · cases h; split <;> decide
  split at h
  · split at h
    · obtain ⟨m, _, hm⟩ := exists_of_map_eq_ok h
      cases hm; decide
    · cases h; decide
  split at h
  · exact ⟨poundAt_ne (by decide) h, poundAt_ne (by decide) h⟩
  split at h
  · cases h; decide
  split at h
  · cases h; decide
  split at h
  · cases h; decide
  split at h <;> (cases h; decide)

end Lexeme

/-! ## Leading trivia -/

/-- Trivia that has been taken in front of `rest`. What fills its line can be the last
piece only if nothing is left. -/
structure Trivia.Leads (ts : Trivia) (rest : Text) : Prop where
  scanned : ts.IsScanned
  last : ∀ p ∈ ts.getLast?, p.kind.fillsLine → rest = []

namespace Scan

theorem leads_of_trivia {line : Nat} {s rest : Text} {ts : Trivia}
    (h : trivia false line s = .ok (ts, rest)) : ts.Leads rest :=
  ⟨(scanned_of_trivia h).isScanned, (scanned_of_trivia h).eq_nil_of_fillsLine⟩

theorem shebang_prefix (source : Text) : (shebang source).text <+: source := by
  unfold shebang
  split
  · simpa [Trivia.text] using List.take_prefix _ source
  · exact List.nil_prefix

/-- The interpreter line is trivia like a comment that fills its line: a line break is
behind it, or nothing. -/
theorem leads_shebang_append {source rest : Text} {ts : Trivia}
    (h : trivia false 1 (source.drop (shebang source).text.length) = .ok (ts, rest)) :
    (shebang source ++ ts).Leads rest := by
  have hts := leads_of_trivia h
  by_cases hmark : "#!".toList.isPrefixOf source
  · have hline : shebang source = [⟨.shebang, source.take (Lexeme.lineLength source)⟩] :=
      if_pos hmark
    have hlength : (shebang source).text.length = Lexeme.lineLength source := by
      rw [hline]
      simp only [Trivia.text, List.flatMap_cons, List.flatMap_nil, List.append_nil,
        List.length_take]
      exact Nat.min_eq_left (List.takeWhile_prefix _).length_le
    rw [hlength] at h
    have hscan := scanned_of_trivia h
    rw [hline]
    -- the line has been read up to its end, so what is behind it can only be a line break
    refine ⟨⟨?_, ?_⟩, ?_⟩
    · intro p hp
      rcases List.mem_cons.mp hp with rfl | hp
      · intro unit hunit
        exact absurd hunit (by simp [Trivia.Kind.unit?])
      · exact hts.scanned.whole p hp
    · refine hts.scanned.chain.cons fun q hq => ⟨fun _ => rfl, fun _ => ?_⟩
      obtain ⟨us, rfl⟩ := List.head?_eq_some_iff.mp hq
      obtain ⟨c, r, n, hcons, _, hpiece⟩ := hscan.head
      rw [Lexeme.isNewline_of_triviaAt hpiece]
      exact Lexeme.isLineEnd_of_drop hcons
    · intro p hp hfills
      cases ts with
      | cons q us => exact hts.last p (by simpa using hp) hfills
      | nil => exact hscan.eq_nil_of_lineEnd fun _ _ => Lexeme.isLineEnd_of_drop
  · have hnone : shebang source = [] := if_neg hmark
    rw [hnone]
    exact hts

/-! ## The scan as a relation -/

/-- `l` is what a text is cut into, with the token `last` and the trivia `leading` already
taken from in front of it. -/
inductive Cut : Option Token → Nat → Trivia → Text → Lexed → Prop
  | done (last : Option Token) (line : Nat) (leading : Trivia) :
      Cut last line leading [] ⟨[], ⟨.endOfFile, [], leading, [], line⟩⟩
  | token {last : Option Token} {line : Nat} {leading : Trivia} {c : Char} {r : Text}
      {kind : Token.Kind} {n : Nat} {trailing next : Trivia} {r₁ r₂ : Text} {l : Lexed} (t : Token)
      (htoken : t = ⟨kind, c :: r.take n, leading, trailing, line⟩)
      (hkind : Lexeme.tokenAt last c r = .ok (kind, n))
      (hbehind : trivia true (line + lineBreaks t.text) (r.drop n) = .ok (trailing, r₁))
      (hahead : trivia false (line + lineBreaks t.text + trailing.lineBreaks) r₁ = .ok (next, r₂))
      (htail : Cut (some t)
        (line + lineBreaks t.text + trailing.lineBreaks + next.lineBreaks) next r₂ l) :
      Cut last line leading (c :: r) (l.cons t)

theorem cut_of_tokens {last : Option Token} {line : Nat} {leading : Trivia} {s : Text} {l : Lexed}
    (h : tokens last line leading s = .ok l) : Cut last line leading s l := by
  fun_induction tokens last line leading s generalizing l with
  | case1 last line leading => cases h; exact .done last line leading
  | case2 => exact absurd h (by simp)
  | case3 => exact absurd h (by simp)
  | case4 => exact absurd h (by simp)
  | case5 last line leading c r kind n hkind text endLine trailing r₁ hbehind nextLine next r₂
      hahead token =>
      rename_i ih
      obtain ⟨l', hl', rfl⟩ := exists_of_map_eq_ok h
      exact .token token rfl hkind hbehind hahead (ih hl')

/-! ## What the relation keeps -/

variable {last : Option Token} {line : Nat} {leading : Trivia} {s : Text} {l : Lexed}

/-- The trivia already taken is the leading trivia of the first token. -/
theorem Cut.head (h : Cut last line leading s l) :
    ∃ t ts, l.toList = t :: ts ∧ t.leading = leading := by
  cases h with
  | done => exact ⟨_, [], rfl, rfl⟩
  | token t htoken _ _ _ _ => exact ⟨t, _, rfl, by rw [htoken]⟩

/-- **Nothing is lost.** The tokens are the text, behind the trivia already taken. -/
theorem Cut.source_eq (h : Cut last line leading s l) : l.source = leading.text ++ s := by
  induction h with
  | done last line leading =>
      simp [Lexed.source, Lexed.toList, Token.sourceAll, Token.source, Trivia.text]
  | @token _ _ leading c r _ n trailing next r₁ r₂ l t htoken _ hbehind hahead _ ih =>
      have hcons : (l.cons t).source = t.source ++ l.source := rfl
      -- both scans behind the token give back what they have taken
      have hrest : trailing.text ++ (next.text ++ r₂) = r.drop n := by
        rw [trivia_append hahead, trivia_append hbehind]
      rw [hcons, ih, htoken, Token.source]
      simp only [List.append_assoc, List.cons_append, hrest, List.take_append_drop]

/-- Every token in front of the end of the file has been cut off some text. -/
theorem Cut.exists_tokenAt (h : Cut last line leading s l) :
    ∀ t ∈ l.tokens, ∃ last c r n,
      t.text = c :: r.take n ∧ Lexeme.tokenAt last c r = .ok (t.kind, n) := by
  induction h with
  | done => exact fun t ht => absurd ht List.not_mem_nil
  | token t htoken hkind _ _ _ ih =>
      refine List.forall_mem_cons.mpr ⟨?_, ih⟩
      rw [htoken]
      exact ⟨_, _, _, _, rfl, hkind⟩

/-- So it has a text and a class of its own. -/
theorem Cut.of_mem_tokens (h : Cut last line leading s l) :
    ∀ t ∈ l.tokens, t.text ≠ [] ∧ t.kind ≠ .endOfFile ∧ t.kind ≠ .placeholder := by
  intro t ht
  obtain ⟨last, c, r, n, htext, hkind⟩ := h.exists_tokenAt t ht
  rw [htext]
  exact ⟨List.cons_ne_nil _ _, Lexeme.tokenAt_kind hkind⟩

theorem Cut.eof_eq (h : Cut last line leading s l) :
    l.eof.kind = .endOfFile ∧ l.eof.text = [] ∧ l.eof.trailing = [] := by
  induction h with
  | done => exact ⟨rfl, rfl, rfl⟩
  | token _ _ _ _ _ _ ih => exact ih

/-- What the scan guarantees of the trivia of a single token. -/
structure TokenScanned (t : Token) : Prop where
  leading : t.leading.IsScanned
  trailing : t.trailing.IsScanned
  sameLine : ∀ p ∈ t.trailing, p.kind.isNewline = false
  last : ∀ p ∈ t.leading.getLast?, p.kind.fillsLine → t.kind = .endOfFile

theorem Cut.tokenScanned (h : Cut last line leading s l) (hleads : leading.Leads s) :
    ∀ t ∈ l.toList, TokenScanned t := by
  induction h with
  | done last line leading =>
      intro t ht
      obtain rfl := List.mem_singleton.mp ht
      exact ⟨hleads.scanned, Trivia.isScanned_nil, fun p hp => absurd hp List.not_mem_nil,
        fun _ _ _ => rfl⟩
  | token t htoken _ hbehind hahead _ ih =>
      intro u hu
      rcases List.mem_cons.mp hu with rfl | hu
      · have hscan := scanned_of_trivia hbehind
        rw [htoken]
        refine ⟨hleads.scanned, hscan.isScanned, hscan.not_isNewline, fun p hp hfills => ?_⟩
        -- there is text left, so the last piece of the leading trivia fills no line
        exact absurd (hleads.last p hp hfills) (List.cons_ne_nil _ _)
      · exact ih (leads_of_trivia hahead) u hu

/-- Behind the first token, leading trivia is empty or starts with a line break. -/
theorem Cut.starts_line (h : Cut last line leading s l) :
    ∀ t ∈ l.toList.tail, t.leading = [] ∨ ∃ p us, t.leading = p :: us ∧ p.kind.isNewline := by
  induction h with
  | done => exact fun t ht => absurd ht (by simp [Lexed.toList])
  | token t _ _ hbehind hahead htail ih =>
      -- the first token behind `t` leads with the trivia taken ahead of it
      obtain ⟨u, us, hlist, hu⟩ := htail.head
      have hcons : ∀ l' : Lexed, (l'.cons t).toList.tail = l'.toList := fun _ => rfl
      rw [hcons, hlist]
      rw [hlist] at ih
      intro v hv
      rcases List.mem_cons.mp hv with rfl | hv
      · rw [hu]
        exact (scanned_of_trivia hbehind).starts_line (scanned_of_trivia hahead)
      · exact ih v hv

end Scan

/-! ## The tokens of a source -/

/-- A source is scanned from its first character: the trivia taken first, interpreter line
included, and the text behind it are the source. -/
theorem cut_of_tokenize {source : Text} {l : Lexed} (h : tokenize source = .ok l) :
    ∃ line leading rest, Scan.Cut none line leading rest l ∧ leading.Leads rest
      ∧ leading.text ++ rest = source := by
  unfold tokenize at h
  dsimp only at h
  split at h
  · exact absurd h (by simp)
  · next ts rest htrivia =>
    refine ⟨_, _, rest, Scan.cut_of_tokens h, Scan.leads_shebang_append htrivia, ?_⟩
    calc (Scan.shebang source ++ ts).text ++ rest
        = (Scan.shebang source).text ++ (ts.text ++ rest) := by
          simp only [Trivia.text, List.flatMap_append, List.append_assoc]
      _ = (Scan.shebang source).text ++ source.drop (Scan.shebang source).text.length := by
          rw [Scan.trivia_append htrivia]
      _ = source := (List.prefix_append_drop (Scan.shebang_prefix source)).symm

/-- The tokens of a source are the source. -/
theorem source_of_tokenize {source : Text} {l : Lexed} (h : tokenize source = .ok l) :
    l.source = source := by
  obtain ⟨line, leading, rest, hcut, _, hsource⟩ := cut_of_tokenize h
  rw [hcut.source_eq, hsource]

/-- Every token of a source is cut off some text. -/
theorem exists_tokenAt_of_tokenize {source : Text} {l : Lexed} (h : tokenize source = .ok l) :
    ∀ t ∈ l.tokens, ∃ last c r n,
      t.text = c :: r.take n ∧ Lexeme.tokenAt last c r = .ok (t.kind, n) := by
  obtain ⟨_, _, _, hcut, _⟩ := cut_of_tokenize h
  exact hcut.exists_tokenAt

theorem exists_of_tokenize_any {source : Text} {p : Lexed → Bool}
    (h : (tokenize source).toOption.any p = true) : ∃ l, tokenize source = .ok l ∧ p l = true := by
  cases hl : tokenize source with
  | error f => rw [hl] at h; exact absurd h (by simp [Except.toOption])
  | ok l => rw [hl] at h; exact ⟨l, rfl, h⟩

/-- The shape of a source that has been cut into tokens. -/
structure Lexed.WellShaped (source : Text) (l : Lexed) : Prop where
  /-- The tokens with their trivia are the source. -/
  lossless : l.source = source
  /-- The end of the file has no text and no trailing trivia. -/
  eof : l.eof.kind = .endOfFile ∧ l.eof.text = [] ∧ l.eof.trailing = []
  /-- It is the only one of its class, and the only token without a text. -/
  inner : ∀ t ∈ l.tokens, t.text ≠ [] ∧ t.kind ≠ .endOfFile ∧ t.kind ≠ .placeholder
  /-- A line break is never trailing trivia. -/
  trailing : ∀ t ∈ l.toList, ∀ p ∈ t.trailing, p.kind.isNewline = false
  /-- Leading trivia is empty or starts with a line break, the first token's apart. -/
  leading : ∀ t ∈ l.toList.tail,
    t.leading = [] ∨ ∃ p us, t.leading = p :: us ∧ p.kind.isNewline
  /-- A run is its unit over and over, at least once. -/
  runs : ∀ t ∈ l.toList, ∀ p ∈ t.leading ++ t.trailing, p.IsWhole
  /-- Two runs of one kind never stand side by side. -/
  maximal : ∀ t ∈ l.toList, ∀ ts ∈ [t.leading, t.trailing],
    ts.IsChain fun p q => p.kind = q.kind → p.kind.unit? = none
  /-- What fills its line has a line break behind it, or the end of the file. -/
  comments : ∀ t ∈ l.toList, ∀ before p after, t.leading = before ++ p :: after →
    p.kind.fillsLine →
      (∃ q us, after = q :: us ∧ q.kind.isNewline) ∨ (after = [] ∧ t = l.eof)

/-- **A source is cut without loss, or refused.** Whatever the source, the scan refuses it
or gives tokens that are the source and have the shape above. -/
theorem tokenize_lossless_or_refused (source : Text) :
    (∃ f, tokenize source = .error f) ∨ ∃ l, tokenize source = .ok l ∧ l.WellShaped source := by
  cases h : tokenize source with
  | error f => exact .inl ⟨f, rfl⟩
  | ok l =>
      obtain ⟨line, leading, rest, hcut, hleads, hsource⟩ := cut_of_tokenize h
      have hscanned := hcut.tokenScanned hleads
      refine .inr ⟨l, rfl, source_of_tokenize h, hcut.eof_eq, hcut.of_mem_tokens,
        fun t ht => (hscanned t ht).sameLine, hcut.starts_line, ?_, ?_, ?_⟩
      · intro t ht p hp
        rcases List.mem_append.mp hp with hp | hp
        · exact (hscanned t ht).leading.whole p hp
        · exact (hscanned t ht).trailing.whole p hp
      · intro t ht ts hts
        have hts' : ts = t.leading ∨ ts = t.trailing := by simpa using hts
        rcases hts' with rfl | rfl
        · exact (hscanned t ht).leading.chain.imp fun _ _ hpair => hpair.1
        · exact (hscanned t ht).trailing.chain.imp fun _ _ hpair => hpair.1
      · intro t ht before p after hsplit hfills
        cases after with
        | cons q us =>
            have hchain := (hscanned t ht).leading.chain
            rw [hsplit] at hchain
            have hpair := (List.isChain_append_cons_cons.mp hchain).2.1
            exact .inl ⟨q, us, rfl, hpair.2 hfills⟩
        | nil =>
            -- only the end of the file has nothing behind such a piece
            have hkind := (hscanned t ht).last p (by simp [hsplit]) hfills
            rcases List.mem_append.mp ht with ht | ht
            · exact absurd hkind (hcut.of_mem_tokens t ht).2.1
            · exact .inr ⟨rfl, List.mem_singleton.mp ht⟩

end Unflag
