/-
Reading a text without looking at trivia.

What a scan makes of trivia, which pieces it cuts and where the lines are, does not matter
to the tokens behind it. `Skips` says only that trivia has been passed over, and whether a
line break was among it; its rules work character by character, so blanks may be put in
front of a text or taken away without asking which runs they belong to. `Reads` says which
words, a class and a text each, are read from a text, which of them start a line, and which
have trivia behind them on their line. Both are relations that a text satisfies or not, and
what satisfies them is scanned without a failure and with that result (`tokenize_of_reads`).

In the other direction, `Lexes` keeps of a scanned source what the same tokens need in
order to be read again somewhere else: what was asked at the first character of each of
them, and how the trivia behind it was cut.
-/
import Unflag.Proofs.LineLocal

set_option autoImplicit false

namespace Unflag

open Text

theorem Trivia.text_append (a b : Trivia) : Trivia.text (a ++ b) = a.text ++ b.text :=
  List.flatMap_append

theorem Trivia.hasNewline_append (a b : Trivia) :
    Trivia.hasNewline (a ++ b) = (a.hasNewline || b.hasNewline) :=
  List.any_append

/-! ## Passing over trivia -/

/-- The second text is the first behind its trivia; the last answer is whether a line break
was among it. -/
inductive Skips : Text → Text → Bool → Prop
  | done : Skips [] [] false
  /-- No trivia starts here. -/
  | stop (c : Char) (r : Text) (h : Lexeme.triviaAt c r = .ok none) : Skips (c :: r) (c :: r) false
  | blank {s rest : Text} {b : Bool} (c : Char) (hc : isBlank c = true) (h : Skips s rest b) :
      Skips (c :: s) rest (isLineEnd c || b)
  /-- A comment up to the end of its line. -/
  | lineComment {s rest : Text} {b : Bool} (v : Text) (hv : ∀ c ∈ v, isLineEnd c = false)
      (hs : AtLineEnd s) (h : Skips s rest b) : Skips ('/' :: '/' :: v ++ s) rest b
  /-- A comment up to its own end. -/
  | blockComment {s rest : Text} {b : Bool} (v : Text)
      (hv : Lexeme.commentLength 0 v = some v.length) (h : Skips s rest b) :
      Skips ('/' :: '*' :: v ++ s) rest b

/-- The end of a comment is not moved by what follows it. -/
theorem commentLength_append {depth n : Nat} {v : Text} (h : Lexeme.commentLength depth v = some n)
    (s : Text) : Lexeme.commentLength depth (v ++ s) = some n := by
  fun_induction Lexeme.commentLength depth v generalizing n with
  | case1 => exact absurd h (by simp)
  | case2 depth r ih =>
      obtain ⟨m, hm, rfl⟩ := Option.map_eq_some_iff.mp h
      show (Lexeme.commentLength (depth + 1) (r ++ s)).map (· + 2) = _
      rw [ih hm]
      rfl
  | case3 r => exact h
  | case4 r d ih =>
      obtain ⟨m, hm, rfl⟩ := Option.map_eq_some_iff.mp h
      show (Lexeme.commentLength d (r ++ s)).map (· + 2) = _
      rw [ih hm]
      rfl
  | case5 depth c r hopen hclose ih =>
      obtain ⟨m, hm, rfl⟩ := Option.map_eq_some_iff.mp h
      cases r with
      | nil => exact absurd hm (by simp [Lexeme.commentLength])
      | cons d q =>
          rw [List.cons_append, Lexeme.commentLength, ih hm]
          · rfl
          · intro r hc hr
            exact hopen q hc (by rw [List.head_eq_of_cons_eq hr])
          · intro r hc hr
            exact hclose q hc (by rw [List.head_eq_of_cons_eq hr])

/-- At a blank, trivia takes a run of blanks that are all line ends or all not. -/
theorem triviaAt_of_isBlank {c : Char} (hc : isBlank c = true) (r : Text) :
    ∃ k n, Lexeme.triviaAt c r = .ok (some (k, n))
      ∧ ∀ d ∈ r.take n, isBlank d = true ∧ isLineEnd d = isLineEnd c := by
  obtain ⟨k, n, hpiece⟩ : ∃ k n, Lexeme.triviaAt c r = .ok (some (k, n)) := by
    by_cases hend : isLineEnd c = true
    · exact Lexeme.triviaAt_lineEnd r hend
    · have hslash : (c == '/') = false := by
        refine beq_eq_false_iff_ne.mpr ?_
        rintro rfl
        exact absurd hc (by decide)
      unfold Lexeme.triviaAt
      simp only [hslash, hc, Bool.false_and, Bool.false_eq_true, if_false, if_true]
      split
      · exact ⟨_, _, rfl⟩
      split
      · exact ⟨_, _, rfl⟩
      split
      · exact ⟨_, _, rfl⟩
      split
      · split <;> exact ⟨_, _, rfl⟩
      · exact ⟨_, _, rfl⟩
  refine ⟨k, n, hpiece, ?_⟩
  have hrun : ∀ {e : Char} {m : Nat}, r.take n = List.replicate m e → c = e →
      ∀ d ∈ r.take n, isBlank d = true ∧ isLineEnd d = isLineEnd c := by
    intro e m htake hce d hd
    rw [htake] at hd
    rw [List.eq_of_mem_replicate hd, ← hce]
    exact ⟨hc, rfl⟩
  cases Lexeme.triviaAt_cases hpiece with
  | spaces h => exact hrun (Lexeme.take_run ' ' r) h
  | tabs h => exact hrun (Lexeme.take_run '\t' r) h
  | lineFeeds h => exact hrun (Lexeme.take_run '\n' r) h
  | returnFeeds q h hr =>
      intro d hd
      rw [hr, List.take_succ_cons, Lexeme.take_returnFeeds] at hd
      have hcases : d = '\n' ∨ d = '\r' := by
        rcases List.mem_cons.mp hd with hd | hd
        · exact .inl hd
        · obtain ⟨unit, hunit, hd⟩ := List.mem_flatten.mp hd
          rw [List.eq_of_mem_replicate hunit] at hd
          simpa [or_comm] using hd
      rw [h]
      rcases hcases with rfl | rfl <;> exact ⟨rfl, rfl⟩
  | carriageReturns h hr => exact hrun (Lexeme.take_loneReturns r) h
  | lineComment k h hr hk => rw [h] at hc; exact absurd hc (by decide)
  | blockComment k m h hr hm hk => rw [h] at hc; exact absurd hc (by decide)
  | other h hend => exact fun d hd => absurd hd (by simp)

/-- Blanks in front of a text can be taken away again. -/
theorem Skips.of_blanks {u s rest : Text} {b : Bool} (h : Skips (u ++ s) rest b)
    (hu : ∀ c ∈ u, isBlank c = true) : ∃ b', Skips s rest b' ∧ b = (u.any isLineEnd || b') := by
  induction u generalizing b with
  | nil => exact ⟨b, h, rfl⟩
  | cons c u ih =>
      obtain ⟨hc, hu⟩ := List.forall_mem_cons.mp hu
      have hslash : c ≠ '/' := by
        rintro rfl
        exact absurd hc (by decide)
      rw [List.cons_append] at h
      generalize hw : c :: (u ++ s) = w at h
      cases h with
      | done => exact absurd hw (by simp)
      | stop d r hstop =>
          cases hw
          obtain ⟨k, n, hpiece, _⟩ := triviaAt_of_isBlank hc (u ++ s)
          rw [hpiece] at hstop
          exact absurd hstop (by simp)
      | blank d hd h =>
          cases hw
          obtain ⟨b', hs, rfl⟩ := ih h hu
          exact ⟨b', hs, by simp [Bool.or_assoc]⟩
      | lineComment v hv hs h => exact absurd (List.head_eq_of_cons_eq hw) hslash
      | blockComment v hv h => exact absurd (List.head_eq_of_cons_eq hw) hslash

/-- **One piece at a time.** Where trivia is passed over, a scan stops as well, or takes a
piece behind which the rest of the trivia is passed over. -/
theorem Skips.step {c : Char} {r rest : Text} {b : Bool} (h : Skips (c :: r) rest b) :
    (Lexeme.triviaAt c r = .ok none ∧ rest = c :: r ∧ b = false)
      ∨ ∃ k n b', Lexeme.triviaAt c r = .ok (some (k, n)) ∧ Skips (r.drop n) rest b'
        ∧ b = (k.isNewline || b') := by
  generalize hw : c :: r = w at h
  cases h with
  | done => exact absurd hw (by simp)
  | stop d q hstop => cases hw; exact .inl ⟨hstop, rfl, rfl⟩
  | @blank s rest b d hd h =>
      cases hw
      -- a scan takes the whole run of blanks at once, of which this rule took the first
      obtain ⟨k, n, hpiece, hrun⟩ := triviaAt_of_isBlank hd r
      rw [← List.take_append_drop n r] at h
      obtain ⟨b', hskips, rfl⟩ := h.of_blanks fun e he => (hrun e he).1
      refine .inr ⟨k, n, b', hpiece, hskips, ?_⟩
      rw [Lexeme.isNewline_of_triviaAt hpiece]
      -- the rest of the run is a line break exactly if its first character is
      cases hend : isLineEnd c with
      | true => rfl
      | false =>
          have hnone : (r.take n).any isLineEnd = false :=
            List.any_eq_false.mpr fun e he => by simp [(hrun e he).2, hend]
          rw [hnone, Bool.false_or, Bool.false_or]
  | @lineComment s rest b v hv hs h =>
      rw [List.cons_append] at hw
      obtain ⟨rfl, rfl⟩ := List.cons_eq_cons.mp hw
      have hlength : Lexeme.lineLength ('/' :: v ++ s) = ('/' :: v).length := by
        rw [Lexeme.lineLength, takeWhile_append_of_atLineEnd ⟨rfl, rfl⟩ hs,
          List.takeWhile_eq_self_iff.mpr]
        simpa using ⟨rfl, hv⟩
      refine .inr ⟨Lexeme.lineCommentKind ('/' :: '/' :: v), ('/' :: v).length, b, ?_, ?_, ?_⟩
      · unfold Lexeme.triviaAt
        simp only [Char.reduceBEq, Bool.false_eq_true, if_false, hlength, List.take_left]
        rfl
      · rwa [List.drop_left]
      · rw [Lexeme.isNewline_lineCommentKind, Bool.false_or]
  | @blockComment s rest b v hv h =>
      rw [List.cons_append] at hw
      obtain ⟨rfl, rfl⟩ := List.cons_eq_cons.mp hw
      have hlength := commentLength_append hv s
      refine .inr ⟨Lexeme.blockCommentKind ('/' :: '*' :: v), ('*' :: v).length, b, ?_, ?_, ?_⟩
      · unfold Lexeme.triviaAt
        simp only [Char.reduceBEq, Bool.false_eq_true, if_false, List.cons_append, List.tail_cons,
          hlength, List.take_succ_cons, List.take_left]
        rfl
      · rwa [List.drop_left]
      · rw [(Lexeme.blockCommentKind_plain _).2.2, Bool.false_or]

/-! ## Scanning what is passed over -/

/-- Across lines a scan passes over the same trivia. -/
theorem Skips.trivia_eq {s rest : Text} {b : Bool} (h : Skips s rest b) (line : Nat) :
    ∃ ts : Trivia, Scan.trivia false line s = .ok (ts, rest) ∧ ts.hasNewline = b := by
  induction hlength : s.length using Nat.strong_induction_on generalizing s b line with
  | _ size ih =>
  cases s with
  | nil =>
      cases h
      exact ⟨[], by rw [Scan.trivia], rfl⟩
  | cons c r =>
      rcases h.step with ⟨hstop, rfl, rfl⟩ | ⟨k, n, b', hpiece, hskips, rfl⟩
      · exact ⟨[], by rw [Scan.trivia, hstop]; rfl, rfl⟩
      · have hshort : (r.drop n).length < size := by
          rw [← hlength, List.length_drop, List.length_cons]
          omega
        obtain ⟨ts, hts, hnewline⟩ := ih _ hshort hskips (line + lineBreaks (c :: r.take n)) rfl
        refine ⟨⟨k, c :: r.take n⟩ :: ts, ?_, by rw [← hnewline]; rfl⟩
        rw [Scan.trivia, hpiece]
        simp only [Bool.false_and, Bool.false_eq_true, if_false, hts]

/-- On one line it passes over a part of it, and the rest is passed over from there. -/
theorem Skips.trivia_sameLine {s rest : Text} {b : Bool} (h : Skips s rest b) (line : Nat) :
    ∃ ts s₁, Scan.trivia true line s = .ok (ts, s₁) ∧ Skips s₁ rest b := by
  induction hlength : s.length using Nat.strong_induction_on generalizing s b line with
  | _ size ih =>
  cases s with
  | nil => exact ⟨[], [], by rw [Scan.trivia], h⟩
  | cons c r =>
      -- the line is over: all that is left is passed over from here
      by_cases hend : isLineEnd c = true
      · exact ⟨[], c :: r, by rw [Scan.trivia, if_pos (by simpa using hend)], h⟩
      rcases h.step with ⟨hstop, rfl, rfl⟩ | ⟨k, n, b', hpiece, hskips, rfl⟩
      · refine ⟨[], c :: r, ?_, h⟩
        rw [Scan.trivia, if_neg (by simpa using hend), hstop]
      · have hshort : (r.drop n).length < size := by
          rw [← hlength, List.length_drop, List.length_cons]
          omega
        obtain ⟨ts, s₁, hts, hskips⟩ :=
          ih _ hshort hskips (line + lineBreaks (c :: r.take n)) rfl
        refine ⟨⟨k, c :: r.take n⟩ :: ts, s₁, ?_, ?_⟩
        · rw [Scan.trivia, if_neg (by simpa using hend), hpiece]
          simp only [hts]
        · have hplain : isLineEnd c = false := by simpa using hend
          rwa [Lexeme.isNewline_of_triviaAt hpiece, hplain, Bool.false_or]

/-! ## Trivia on the same line -/

/-- Whether a text starts with trivia that does not end the line. -/
def startsTrailing : Text → Bool
  | [] => false
  | c :: r =>
    !isLineEnd c &&
      match Lexeme.triviaAt c r with
      | .ok (some _) => true
      | _ => false

/-- A text at which the trivia of a line is over: the line ends there, or a token starts. -/
def EndsTrailing (s : Text) : Prop :=
  ∀ c r, s = c :: r → isLineEnd c = true ∨ Lexeme.triviaAt c r = .ok none

theorem EndsTrailing.startsTrailing_eq {s : Text} (h : EndsTrailing s) :
    startsTrailing s = false := by
  cases s with
  | nil => rfl
  | cons c r =>
      rcases h c r rfl with hend | hnone
      · simp [startsTrailing, hend]
      · simp [startsTrailing, hnone]

/-- A scan on one line takes something exactly if there is something to take. -/
theorem startsTrailing_of_trivia {line : Nat} {s rest : Text} {ts : Trivia}
    (h : Scan.trivia true line s = .ok (ts, rest)) : startsTrailing s = !ts.isEmpty := by
  cases s with
  | nil =>
      rw [Scan.trivia] at h
      cases h
      rfl
  | cons c r =>
      rw [Scan.trivia] at h
      split at h
      · next hend =>
        cases h
        simp only [Bool.true_and] at hend
        simp [startsTrailing, hend]
      · next hend =>
        have hplain : isLineEnd c = false := by simpa using hend
        split at h
        · exact absurd h (by simp)
        · next hnone =>
          cases h
          simp [startsTrailing, hnone]
        · next k n hpiece =>
          dsimp only at h
          split at h
          · exact absurd h (by simp)
          · cases h
            simp [startsTrailing, hpiece, hplain]

/-- Behind the trivia of a line, it is over. -/
theorem Scan.Scanned.endsTrailing {s rest : Text} {ts : Trivia} (h : Scanned true s ts rest) :
    EndsTrailing rest := by
  induction h with
  | done => exact fun c r hs => absurd hs (by simp)
  | stop c r hstop =>
      intro d q hs
      cases hs
      simpa using hstop
  | piece _ _ _ ih => exact ih

/-! ## Words -/

/-- What is read of a token apart from its trivia: its class, its text, whether it starts a
line, and whether trivia follows it on its line. -/
structure Word where
  kind : Token.Kind
  text : Text
  startsLine : Bool
  isSpaced : Bool
  deriving DecidableEq, Repr

/-- The word of a token. -/
def Token.word (t : Token) : Word := ⟨t.kind, t.text, t.startsLine, !t.trailing.isEmpty⟩

/-- The words that are read from a text at which no trivia starts; `follows` says whether a
slash would start an operand here, `broken` whether the first word starts its line. -/
inductive Reads : (follows broken : Bool) → Text → List Word → Prop
  | done (follows broken : Bool) : Reads follows broken [] []
  | word {follows broken broken' : Bool} {c : Char} {v s rest : Text} {ws : List Word} (t : Token)
      (htext : t.text = c :: v)
      (hkind : ∀ last, Lexeme.operandFollows last = follows →
        Lexeme.tokenAt last c (v ++ s) = .ok (t.kind, v.length))
      (hskips : Skips s rest broken')
      (h : Reads (Lexeme.operandFollows (some t)) broken' rest ws) :
      Reads follows broken (c :: v ++ s) (⟨t.kind, t.text, broken, startsTrailing s⟩ :: ws)

/-- What a slash starts behind a token depends on the class and the text of the token. -/
theorem operandFollows_congr {t u : Token} (hkind : t.kind = u.kind) (htext : t.text = u.text) :
    Lexeme.operandFollows (some t) = Lexeme.operandFollows (some u) := by
  simp only [Lexeme.operandFollows, Token.isOneOf, hkind, htext]

theorem exists_operandFollows (follows : Bool) : ∃ last, Lexeme.operandFollows last = follows := by
  cases follows with
  | true => exact ⟨none, rfl⟩
  | false => exact ⟨some ⟨.integer, [], [], [], 0⟩, rfl⟩

/-- A token with its trivia, and the tokens behind it. -/
theorem Scan.tokens_cons {last : Option Token} {line n : Nat} {leading trailing next : Trivia}
    {c : Char} {r r₁ r₂ : Text} {k : Token.Kind} (hkind : Lexeme.tokenAt last c r = .ok (k, n))
    (hbehind : Scan.trivia true (line + lineBreaks (c :: r.take n)) (r.drop n) = .ok (trailing, r₁))
    (hahead : Scan.trivia false (line + lineBreaks (c :: r.take n) + trailing.lineBreaks) r₁
      = .ok (next, r₂)) :
    Scan.tokens last line leading (c :: r)
      = (Scan.tokens (some ⟨k, c :: r.take n, leading, trailing, line⟩)
          (line + lineBreaks (c :: r.take n) + trailing.lineBreaks + next.lineBreaks) next r₂).map
        (Lexed.cons ⟨k, c :: r.take n, leading, trailing, line⟩) := by
  rw [Scan.tokens, hkind]
  dsimp only
  split
  · next e he =>
    rw [hbehind] at he
    exact absurd he (by simp)
  · next trailing' r' he =>
    rw [hbehind] at he
    cases he
    split
    · next e he =>
      rw [hahead] at he
      exact absurd he (by simp)
    · next next' r'' he =>
      rw [hahead] at he
      cases he
      rfl

/-- **What is read is scanned.** -/
theorem Reads.tokens_eq {follows broken : Bool} {s : Text} {ws : List Word}
    (h : Reads follows broken s ws) {last : Option Token}
    (hlast : Lexeme.operandFollows last = follows) {leading : Trivia}
    (hleading : leading.hasNewline = broken) (line : Nat) :
    ∃ l, Scan.tokens last line leading s = .ok l ∧ l.tokens.map Token.word = ws := by
  induction h generalizing last leading line with
  | done follows broken => exact ⟨_, by rw [Scan.tokens], rfl⟩
  | @word follows broken broken' c v s rest ws t htext hkind hskips h ih =>
      have htake : (v ++ s).take v.length = v := List.take_left
      have hdrop : (v ++ s).drop v.length = s := List.drop_left
      obtain ⟨trailing, s₁, htrailing, hskips'⟩ :=
        hskips.trivia_sameLine (line + lineBreaks (c :: v))
      obtain ⟨next, hnext, hbroken⟩ :=
        hskips'.trivia_eq (line + lineBreaks (c :: v) + trailing.lineBreaks)
      -- the token that is scanned; `t` has its class and text, but perhaps another place
      let token : Token := ⟨t.kind, c :: v, leading, trailing, line⟩
      have hfollows : Lexeme.operandFollows (some token) = Lexeme.operandFollows (some t) :=
        operandFollows_congr rfl htext.symm
      obtain ⟨l, hl, hwords⟩ := ih hfollows hbroken
        (line + lineBreaks (c :: v) + trailing.lineBreaks + next.lineBreaks)
      refine ⟨l.cons token, ?_, ?_⟩
      · rw [List.cons_append, Scan.tokens_cons (hkind last hlast) (by rwa [htake, hdrop])
          (by rwa [htake]), htake, hl]
        rfl
      · show token.word :: l.tokens.map Token.word = _
        rw [hwords, htext, ← hleading, startsTrailing_of_trivia htrailing]
        rfl

/-! ## Trivia that can be passed over -/

/-- Trivia as a scan cuts it, seen by the texts of its pieces. A comment that fills its line
has a line break behind it, or comes last where `atEnd` holds. -/
inductive Trivia.IsCut (atEnd : Prop) : Trivia → Prop
  | nil : IsCut atEnd []
  | blanks {ts : Trivia} (p : Trivia.Piece) (hne : p.text ≠ [])
      (hblank : ∀ c ∈ p.text, isBlank c = true ∧ isLineEnd c = p.kind.isNewline)
      (h : IsCut atEnd ts) : IsCut atEnd (p :: ts)
  | blockComment {ts : Trivia} (p : Trivia.Piece) (v : Text) (htext : p.text = '/' :: '*' :: v)
      (hv : Lexeme.commentLength 0 v = some v.length) (hkind : p.kind.isNewline = false)
      (h : IsCut atEnd ts) : IsCut atEnd (p :: ts)
  | lineComment {ts : Trivia} (p q : Trivia.Piece) (v : Text) (htext : p.text = '/' :: '/' :: v)
      (hv : ∀ c ∈ v, isLineEnd c = false) (hkind : p.kind.isNewline = false)
      (hnext : q.kind.isNewline = true) (h : IsCut atEnd (q :: ts)) : IsCut atEnd (p :: q :: ts)
  | lastComment (p : Trivia.Piece) (v : Text) (htext : p.text = '/' :: '/' :: v)
      (hv : ∀ c ∈ v, isLineEnd c = false) (hkind : p.kind.isNewline = false) (hend : atEnd) :
      IsCut atEnd [p]

namespace Trivia.IsCut

variable {atEnd : Prop} {ts us : Trivia}

theorem mono {atEnd' : Prop} (himp : atEnd → atEnd') (h : IsCut atEnd ts) : IsCut atEnd' ts := by
  induction h with
  | nil => exact .nil
  | blanks p hne hblank _ ih => exact .blanks p hne hblank ih
  | blockComment p v htext hv hkind _ ih => exact .blockComment p v htext hv hkind ih
  | lineComment p q v htext hv hkind hnext _ ih => exact .lineComment p q v htext hv hkind hnext ih
  | lastComment p v htext hv hkind hend => exact .lastComment p v htext hv hkind (himp hend)

/-- Trivia that leaves no comment open goes in front of any other. -/
theorem append (h : IsCut False ts) (h' : IsCut atEnd us) : IsCut atEnd (ts ++ us) := by
  induction h with
  | nil => exact h'
  | blanks p hne hblank _ ih => exact .blanks p hne hblank ih
  | blockComment p v htext hv hkind _ ih => exact .blockComment p v htext hv hkind ih
  | lineComment p q v htext hv hkind hnext _ ih => exact .lineComment p q v htext hv hkind hnext ih
  | lastComment p v htext hv hkind hend => exact hend.elim

/-- A line break at the start of trivia ends a line. -/
theorem atLineEnd {p : Trivia.Piece} (h : IsCut atEnd (p :: ts)) (hp : p.kind.isNewline = true)
    (s : Text) : AtLineEnd (Trivia.text (p :: ts) ++ s) := by
  cases h with
  | blanks _ hne hblank _ =>
      obtain ⟨c, r, hcons⟩ := List.exists_cons_of_ne_nil hne
      have hfirst : isLineEnd c = true := by
        rw [(hblank c (by rw [hcons]; exact List.mem_cons_self)).2, hp]
      have htext : Trivia.text (p :: ts) ++ s = c :: (r ++ (Trivia.text ts ++ s)) := by
        simp [Trivia.text, hcons]
      rw [htext]
      intro d hd
      cases hd
      exact hfirst
  | blockComment _ _ _ _ hkind _ => exact absurd hp (by simp [hkind])
  | lineComment _ _ _ _ _ hkind _ _ => exact absurd hp (by simp [hkind])
  | lastComment _ _ _ _ hkind _ => exact absurd hp (by simp [hkind])

/-- Trivia without line breaks starts on the line it stands on. -/
theorem startsTrailing (h : IsCut atEnd ts) (hne : ts ≠ []) (hline : ts.hasNewline = false)
    (s : Text) : Unflag.startsTrailing (ts.text ++ s) = true := by
  have hcomment : ∀ (v w : Text), Unflag.startsTrailing ('/' :: '/' :: (v ++ w)) = true :=
    fun _ _ => rfl
  cases h with
  | nil => exact absurd rfl hne
  | @blanks us p htext hblank _ =>
      obtain ⟨c, r, hcons⟩ := List.exists_cons_of_ne_nil htext
      obtain ⟨hc, hend⟩ := hblank c (by rw [hcons]; exact List.mem_cons_self)
      have hplain : isLineEnd c = false := by
        rw [hend]
        exact (Bool.or_eq_false_iff.mp hline).1
      obtain ⟨k, n, hpiece, _⟩ := triviaAt_of_isBlank hc (r ++ (Trivia.text us ++ s))
      have hshape : Trivia.text (p :: us) ++ s = c :: (r ++ (Trivia.text us ++ s)) := by
        simp [Trivia.text, hcons]
      rw [hshape, Unflag.startsTrailing, hpiece, hplain]
      rfl
  | @blockComment us p v htext hv _ _ =>
      have hlength := commentLength_append hv (Trivia.text us ++ s)
      have hshape : Trivia.text (p :: us) ++ s = '/' :: '*' :: (v ++ (Trivia.text us ++ s)) := by
        simp [Trivia.text, htext]
      rw [hshape, Unflag.startsTrailing]
      simp [Lexeme.triviaAt, hlength, isLineEnd]
  | @lineComment us p q v htext _ _ _ _ =>
      have hshape : Trivia.text (p :: q :: us) ++ s
          = '/' :: '/' :: (v ++ (Trivia.text (q :: us) ++ s)) := by
        simp [Trivia.text, htext]
      rw [hshape, hcomment]
  | @lastComment p v htext _ _ _ =>
      have hshape : Trivia.text [p] ++ s = '/' :: '/' :: (v ++ s) := by
        simp [Trivia.text, htext]
      rw [hshape, hcomment]

/-- **Such trivia is passed over** in front of whatever is read behind it. -/
theorem skips (h : IsCut atEnd ts) {s rest : Text} {b : Bool} (hs : atEnd → AtLineEnd s)
    (hskips : Skips s rest b) : Skips (ts.text ++ s) rest (ts.hasNewline || b) := by
  induction h with
  | nil => exact hskips
  | @blanks ts p hne hblank _ ih =>
      have hrun : ∀ u : Text, (∀ c ∈ u, isBlank c = true) →
          ∀ {s : Text} {b : Bool}, Skips s rest b → Skips (u ++ s) rest (u.any isLineEnd || b) := by
        intro u hu s b h
        induction u with
        | nil => exact h
        | cons c u ih =>
            obtain ⟨hc, hu⟩ := List.forall_mem_cons.mp hu
            rw [List.any_cons, Bool.or_assoc]
            exact .blank c hc (ih hu)
      have hany : p.text.any isLineEnd = p.kind.isNewline := by
        obtain ⟨c, r, hcons⟩ := List.exists_cons_of_ne_nil hne
        rw [Bool.eq_iff_iff, List.any_eq_true]
        constructor
        · rintro ⟨d, hd, hend⟩
          rw [← (hblank d hd).2, hend]
        · intro hp
          exact ⟨c, by simp [hcons], by rw [(hblank c (by simp [hcons])).2, hp]⟩
      have hall := hrun p.text (fun c hc => (hblank c hc).1) ih
      rw [hany, ← Bool.or_assoc] at hall
      simpa [Trivia.text, Trivia.hasNewline] using hall
  | blockComment p v htext hv hkind _ ih =>
      have hall := Skips.blockComment v hv ih
      simpa [Trivia.text, Trivia.hasNewline, htext, hkind] using hall
  | @lineComment ts p q v htext hv hkind hnext h ih =>
      have hall := Skips.lineComment v hv (h.atLineEnd hnext s) ih
      simpa [Trivia.text, Trivia.hasNewline, htext, hkind] using hall
  | lastComment p v htext hv hkind hend =>
      have hall := Skips.lineComment v hv (hs hend) hskips
      simpa [Trivia.text, Trivia.hasNewline, htext, hkind] using hall

end Trivia.IsCut

namespace Scan

/-- A scan stops where no trivia starts. -/
theorem Scanned.stops {s rest : Text} {ts : Trivia} (h : Scanned false s ts rest) :
    ∀ c r, rest = c :: r → Lexeme.triviaAt c r = .ok none := by
  induction h with
  | done => exact fun c r heq => absurd heq (by simp)
  | stop c r hstop =>
      rintro d q heq
      cases heq
      exact hstop.resolve_left (by simp)
  | piece _ _ _ ih => exact ih

/-- A scan that finds nothing has gone nowhere. -/
theorem Scanned.eq_of_nil {sameLine : Bool} {s rest : Text} (h : Scanned sameLine s [] rest) :
    rest = s := by
  generalize hts : ([] : Trivia) = ts at h
  cases h with
  | done => rfl
  | stop => rfl
  | piece => exact absurd hts (by simp)

/-- Where a scan stops, a line ends only if the text does. -/
theorem Scanned.eq_nil_of_atLineEnd {s rest : Text} {ts : Trivia} (h : Scanned false s ts rest)
    (hrest : AtLineEnd rest) : rest = [] := by
  cases rest with
  | nil => rfl
  | cons c r =>
      obtain ⟨k, n, hpiece⟩ := Lexeme.triviaAt_lineEnd r (hrest c rfl)
      rw [h.stops c r rfl] at hpiece
      exact absurd hpiece (by simp)

/-- A comment of a line holds no line end. -/
theorem isLineEnd_of_mem_take {r : Text} :
    ∀ c ∈ r.take (Lexeme.lineLength r), isLineEnd c = false := by
  intro c hc
  rw [Lexeme.lineLength, ← List.prefix_iff_eq_take.mp (List.takeWhile_prefix _)] at hc
  simpa using List.mem_takeWhile_imp hc

theorem commentLength_take {depth n : Nat} {v : Text}
    (h : Lexeme.commentLength depth v = some n) :
    n ≤ v.length ∧ Lexeme.commentLength depth (v.take n) = some n := by
  fun_induction Lexeme.commentLength depth v generalizing n with
  | case1 => exact absurd h (by simp)
  | case2 depth r ih =>
      obtain ⟨m, hm, rfl⟩ := Option.map_eq_some_iff.mp h
      obtain ⟨hle, htake⟩ := ih hm
      refine ⟨Nat.add_le_add_right hle 2, ?_⟩
      show (Lexeme.commentLength (depth + 1) (r.take m)).map (· + 2) = _
      rw [htake]
      rfl
  | case3 r => cases h; exact ⟨by simp, rfl⟩
  | case4 r d ih =>
      obtain ⟨m, hm, rfl⟩ := Option.map_eq_some_iff.mp h
      obtain ⟨hle, htake⟩ := ih hm
      refine ⟨Nat.add_le_add_right hle 2, ?_⟩
      show (Lexeme.commentLength d (r.take m)).map (· + 2) = _
      rw [htake]
      rfl
  | case5 depth c r hopen hclose ih =>
      obtain ⟨m, hm, rfl⟩ := Option.map_eq_some_iff.mp h
      obtain ⟨hle, htake⟩ := ih hm
      refine ⟨Nat.succ_le_succ hle, ?_⟩
      rw [List.take_succ_cons, Lexeme.commentLength, htake]
      · rfl
      · intro q hc hq
        cases r with
        | nil => exact absurd hq (by simp)
        | cons d w =>
            cases m with
            | zero => exact absurd hq (by simp)
            | succ m => exact hopen w hc (by rw [List.head_eq_of_cons_eq hq])
      · intro q hc hq
        cases r with
        | nil => exact absurd hq (by simp)
        | cons d w =>
            cases m with
            | zero => exact absurd hq (by simp)
            | succ m => exact hclose w hc (by rw [List.head_eq_of_cons_eq hq])

/-- A block comment ends in a slash. -/
theorem commentLength_ends {depth n : Nat} {s : Text} (h : Lexeme.commentLength depth s = some n) :
    ∃ w, s.take n = w ++ ['/'] := by
  fun_induction Lexeme.commentLength depth s generalizing n with
  | case1 => cases h
  | case2 depth r ih =>
      obtain ⟨m, hm, rfl⟩ := Option.map_eq_some_iff.mp h
      obtain ⟨w, hw⟩ := ih hm
      exact ⟨'/' :: '*' :: w, by rw [List.take_succ_cons, List.take_succ_cons, hw]; rfl⟩
  | case3 r =>
      cases h
      exact ⟨['*'], rfl⟩
  | case4 r d ih =>
      obtain ⟨m, hm, rfl⟩ := Option.map_eq_some_iff.mp h
      obtain ⟨w, hw⟩ := ih hm
      exact ⟨'*' :: '/' :: w, by rw [List.take_succ_cons, List.take_succ_cons, hw]; rfl⟩
  | case5 depth c r _ _ ih =>
      obtain ⟨m, hm, rfl⟩ := Option.map_eq_some_iff.mp h
      obtain ⟨w, hw⟩ := ih hm
      exact ⟨c :: w, by rw [List.take_succ_cons, hw]; rfl⟩

/-- What a scan takes is trivia that can be passed over. -/
theorem Scanned.isCut {sameLine : Bool} {s rest : Text} {ts : Trivia}
    (h : Scanned sameLine s ts rest) : ts.IsCut (AtLineEnd rest) := by
  induction h with
  | done => exact .nil
  | stop c r _ => exact .nil
  | @piece c r k n ts rest hline hpiece htail ih =>
      have hkind := Lexeme.isNewline_of_triviaAt hpiece
      by_cases hc : isBlank c = true
      · obtain ⟨k', n', hpiece', hrun⟩ := triviaAt_of_isBlank hc r
        obtain ⟨rfl, rfl⟩ : k' = k ∧ n' = n := by
          rw [hpiece] at hpiece'
          simpa using hpiece'.symm
        refine .blanks _ (List.cons_ne_nil _ _) (List.forall_mem_cons.mpr ⟨⟨hc, hkind.symm⟩, ?_⟩) ih
        exact fun d hd => ⟨(hrun d hd).1, (hrun d hd).2.trans hkind.symm⟩
      · cases Lexeme.triviaAt_cases hpiece with
        | lineComment k hslash hr hk =>
            have hnewline : k.isNewline = false := by rw [hk, Lexeme.isNewline_lineCommentKind]
            obtain ⟨q, rfl⟩ := List.head?_eq_some_iff.mp hr
            have htext : c :: ('/' :: q).take (Lexeme.lineLength ('/' :: q))
                = '/' :: '/' :: q.take (Lexeme.lineLength q) := by
              rw [hslash]
              rfl
            have hv : ∀ d ∈ q.take (Lexeme.lineLength q), isLineEnd d = false :=
              isLineEnd_of_mem_take
            cases ts with
            | nil =>
                -- nothing behind the comment: the scan has stopped where the line ends
                refine .lastComment _ _ htext hv hnewline fun d hd => ?_
                obtain ⟨w, hw⟩ := List.head?_eq_some_iff.mp hd
                exact Lexeme.isLineEnd_of_drop (htail.eq_of_nil.symm.trans hw)
            | cons p us =>
                have hnext := (Scanned.mayPrecede hpiece htail p rfl).2
                  (hk ▸ Lexeme.fillsLine_lineCommentKind _)
                exact .lineComment _ p _ htext hv hnewline hnext ih
        | blockComment k m hslash hr hm hk =>
            have hnewline : k.isNewline = false := by rw [hk, (Lexeme.blockCommentKind_plain _).2.2]
            obtain ⟨q, rfl⟩ := List.head?_eq_some_iff.mp hr
            rw [List.tail_cons] at hm
            obtain ⟨hle, htake⟩ := commentLength_take hm
            refine .blockComment _ (q.take m) (by rw [hslash]; rfl) ?_ hnewline ih
            rwa [List.length_take, Nat.min_eq_left hle]
        | other hblank _ => exact absurd hblank hc
        | _ => subst c; exact absurd rfl hc

end Scan

/-! ## Tokens that have been scanned -/

/-- The tokens of a source behind a place where `follows` says whether a slash would start an
operand. -/
inductive Lexes : (follows : Bool) → List Token → Prop
  | eof (follows : Bool) (t : Token) (hkind : t.kind = .endOfFile) (htext : t.text = [])
      (htrailing : t.trailing = []) : Lexes follows [t]
  | token {follows : Bool} {ts : List Token} (t : Token) (c : Char) (v : Text)
      (htext : t.text = c :: v)
      (hstart : Lexeme.triviaAt c (v ++ (t.trailing.text ++ Token.sourceAll ts)) = .ok none)
      (hkind : ∀ last, Lexeme.operandFollows last = follows →
        Lexeme.tokenAt last c (v ++ (t.trailing.text ++ Token.sourceAll ts))
          = .ok (t.kind, v.length))
      (htrailing : t.trailing.IsCut (AtLineEnd (Token.sourceAll ts)))
      (hline : t.trailing.hasNewline = false) (hover : EndsTrailing (Token.sourceAll ts))
      (h : Lexes (Lexeme.operandFollows (some t)) ts) : Lexes follows (t :: ts)

/-- A source that has been cut has been read at each of its tokens. -/
theorem Scan.Cut.lexes {last : Option Token} {line : Nat} {leading : Trivia} {s : Text} {l : Lexed}
    (h : Scan.Cut last line leading s l)
    (hs : ∀ c r, s = c :: r → Lexeme.triviaAt c r = .ok none) :
    Lexes (Lexeme.operandFollows last) l.toList := by
  induction h with
  | done last line leading => exact .eof _ _ rfl rfl rfl
  | @token last line leading c r kind n trailing next r₁ r₂ l t htoken hkind hbehind hahead htail
      ih =>
      have hscan := Scan.scanned_of_trivia hbehind
      have hscan' := Scan.scanned_of_trivia hahead
      -- what the tokens behind it spell is what was left behind its trailing trivia
      have hrest : Token.sourceAll l.toList = r₁ := by
        rw [← Scan.trivia_append hahead]
        exact htail.source_eq
      have hdrop : r.drop n = t.trailing.text ++ Token.sourceAll l.toList := by
        rw [hrest, htoken, Scan.trivia_append hbehind]
      have hr : r = r.take n ++ (t.trailing.text ++ Token.sourceAll l.toList) := by
        rw [← hdrop, List.take_append_drop]
      have hn : (r.take n).length = n := List.length_take_of_le (Lexeme.tokenAt_le hkind)
      have hlist : (l.cons t).toList = t :: l.toList := rfl
      rw [hlist]
      refine .token t c (r.take n) (by rw [htoken]) ?_ ?_ ?_ ?_ ?_ (ih hscan'.stops)
      · rw [← hr]
        exact hs c r rfl
      · intro last' hlast'
        rw [← hr, hn, Lexeme.tokenAt_congr (.inl hlast') r, hkind, htoken]
      · rw [hrest, htoken]
        exact hscan.isCut
      · rw [htoken]
        exact List.any_eq_false.mpr fun p hp => by simp [hscan.not_isNewline p hp]
      · rw [hrest]
        exact hscan.endsTrailing

/-- The first token leads with the trivia already taken, and is the end of the file only if
nothing is left. -/
theorem Scan.Cut.first {last : Option Token} {line : Nat} {leading : Trivia} {s : Text} {l : Lexed}
    (h : Scan.Cut last line leading s l) :
    ∃ t ts, l.toList = t :: ts ∧ t.leading = leading ∧ (s = [] → t.kind = .endOfFile) := by
  cases h with
  | done => exact ⟨_, [], rfl, rfl, fun _ => rfl⟩
  | token t htoken _ _ _ _ => exact ⟨t, _, rfl, by rw [htoken], fun hs => absurd hs (by simp)⟩

/-- The leading trivia of the tokens behind the first can be passed over. -/
theorem Scan.Cut.isCut_leading {last : Option Token} {line : Nat} {leading : Trivia} {s : Text}
    {l : Lexed} (h : Scan.Cut last line leading s l) :
    ∀ t ∈ l.toList.tail, t.leading.IsCut (t.kind = .endOfFile) := by
  induction h with
  | done => exact fun t ht => absurd ht (by simp [Lexed.toList])
  | @token last line leading c r kind n trailing next r₁ r₂ l t htoken hkind hbehind hahead htail
      ih =>
      have hscan := Scan.scanned_of_trivia hahead
      have hlist : (l.cons t).toList.tail = l.toList := rfl
      obtain ⟨u, us, hu, hleading, heof⟩ := htail.first
      rw [hlist, hu]
      rw [hu] at ih
      refine List.forall_mem_cons.mpr ⟨?_, ih⟩
      rw [hleading]
      exact hscan.isCut.mono fun hend => heof (hscan.eq_nil_of_atLineEnd hend)

/-- The end of the file is the last token, and has nothing but its leading trivia. -/
theorem Lexes.of_endOfFile {follows : Bool} {t : Token} {ts : List Token}
    (h : Lexes follows (t :: ts)) (ht : t.kind = .endOfFile) :
    ts = [] ∧ t.text = [] ∧ t.trailing = [] := by
  cases h with
  | eof _ _ _ htext htrailing => exact ⟨rfl, htext, htrailing⟩
  | token _ c v _ _ hkind _ _ _ _ =>
      obtain ⟨last, hlast⟩ := exists_operandFollows follows
      exact absurd ht (Lexeme.tokenAt_kind (hkind last hlast)).1

/-- What leads a token does not matter to what has been read at it. -/
theorem Lexes.withLeading {follows : Bool} {t : Token} {ts : List Token}
    (h : Lexes follows (t :: ts)) (leading : Trivia) :
    Lexes follows ({ t with leading } :: ts) := by
  cases h with
  | eof _ _ hkind htext htrailing => exact .eof _ _ hkind htext htrailing
  | token _ c v htext hstart hkind htrailing hline hover h =>
      exact .token _ c v htext hstart hkind htrailing hline hover h

/-- The tokens behind some others of a source are tokens of a source. -/
theorem Lexes.of_append {follows : Bool} {us ts : List Token} (h : Lexes follows (us ++ ts))
    (hus : ∀ t ∈ us, t.kind ≠ .endOfFile) : ∃ follows', Lexes follows' ts := by
  induction us generalizing follows with
  | nil => exact ⟨follows, h⟩
  | cons u us ih =>
      obtain ⟨hu, hus⟩ := List.forall_mem_cons.mp hus
      rw [List.cons_append] at h
      generalize hw : us ++ ts = w at h
      cases h with
      | eof _ _ hkind _ _ => exact absurd hkind hu
      | token _ _ _ _ _ _ _ _ _ h => exact ih (hw ▸ h) hus

/-! ## The start of a source -/

/-- A source is its interpreter line, trivia, and the text that is cut into tokens. -/
theorem exists_cut_of_tokenize {source : Text} {l : Lexed} (h : tokenize source = .ok l) :
    ∃ line ts rest, Scan.Cut none line (Scan.shebang source ++ ts) rest l
      ∧ Scan.Scanned false (source.drop (Scan.shebang source).text.length) ts rest := by
  unfold tokenize at h
  dsimp only at h
  split at h
  · exact absurd h (by simp)
  · next ts rest htrivia =>
    exact ⟨_, ts, rest, Scan.cut_of_tokens h, Scan.scanned_of_trivia htrivia⟩

/-- A text that starts like an interpreter line. -/
def IsMarked (s : Text) : Prop := "#!".toList <+: s

theorem not_isMarked_of_head {c : Char} (hc : c ≠ '#') (s : Text) : ¬ IsMarked (c :: s) := by
  rintro ⟨r, hr⟩
  exact hc (List.head_eq_of_cons_eq hr).symm

theorem Scan.shebang_of_not_isMarked {s : Text} (h : ¬ IsMarked s) : Scan.shebang s = [] :=
  if_neg fun hmark => h (List.isPrefixOf_iff_prefix.mp hmark)

theorem hasNewline_shebang (s : Text) : (Scan.shebang s).hasNewline = false := by
  unfold Scan.shebang
  split <;> rfl

/-- **What is read is cut into tokens.** `first` is the interpreter line, if there is one. -/
theorem tokenize_of_reads {first s rest : Text} {broken : Bool} {ws : List Word}
    (hfirst : (Scan.shebang (first ++ s)).text = first) (hskips : Skips s rest broken)
    (h : Reads true broken rest ws) :
    ∃ l, tokenize (first ++ s) = .ok l ∧ l.tokens.map Token.word = ws := by
  obtain ⟨ts, hts, hbroken⟩ := hskips.trivia_eq 1
  have hleading : Trivia.hasNewline (Scan.shebang (first ++ s) ++ ts) = broken := by
    rw [Trivia.hasNewline_append, hasNewline_shebang, Bool.false_or, hbroken]
  have hstart : Lexeme.operandFollows none = true := rfl
  obtain ⟨l, hl, hwords⟩ := h.tokens_eq hstart hleading (1 + ts.lineBreaks)
  refine ⟨l, ?_, hwords⟩
  unfold tokenize
  dsimp only
  rw [hfirst, List.drop_left, hts]
  exact hl

end Unflag
