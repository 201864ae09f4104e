/-
What a scan of trivia yields.

A scan cuts the blanks and comments in front of it into pieces, and the pieces are never
arbitrary: a run is as long as it can be, so two runs of one kind never stand side by
side, and a comment that reaches to the end of its line has a line break behind it or
nothing at all. Everything that is later said about the trivia of a token comes from
these two facts and from where a scan stops.

The argument goes by single pieces. `triviaAt_cases` says once what can start at a
character and how far it reaches; the rest of the file asks three questions of each case:
is the text a run (`isWhole_of_triviaAt`), can a run of the same kind follow
(`not_opensRun_of_triviaAt`), and what stands behind a piece that fills its line
(`lineEnd_of_triviaAt`). The induction over the scan then only puts neighbours together.
-/
import Mathlib.Data.List.Chain
import Mathlib.Data.List.TakeWhile
import Unflag.Token.Scan

set_option autoImplicit false

namespace Unflag

open Text

namespace Trivia

/-! ## The shape of trivia -/

/-- The kinds whose text reaches to the end of its line. -/
def Kind.fillsLine : Kind → Bool
  | .lineComment | .docLineComment | .shebang => true
  | _ => false

/-- A run is its unit, repeated as often as its count says, and at least once. A piece
of a kind without a unit has nothing to satisfy. -/
def Piece.IsWhole (p : Piece) : Prop :=
  ∀ unit, p.kind.unit? = some unit → 1 ≤ p.count ∧ p.text = repeated unit p.count

/-- Which pieces can be neighbours: two runs of one kind would be a single run, and behind
a piece that fills its line only a line break can stand. -/
def Piece.MayPrecede (p q : Piece) : Prop :=
  (p.kind = q.kind → p.kind.unit? = none) ∧ (p.kind.fillsLine → q.kind.isNewline)

/-- Trivia as a scan cuts it. -/
structure IsScanned (ts : Trivia) : Prop where
  whole : ∀ p ∈ ts, p.IsWhole
  chain : ts.IsChain Piece.MayPrecede

theorem isScanned_nil : IsScanned [] :=
  ⟨fun _ hp => absurd hp List.not_mem_nil, .nil⟩

/-- A line break fills no line and a piece that fills its line is no run, so the two
conditions on neighbours never meet. -/
theorem Kind.unit?_of_fillsLine {k : Kind} (hk : k.fillsLine) : k.unit? = none := by
  cases k <;> first | rfl | exact absurd hk (by decide)

/-- A run of a single character is that character over and over. -/
theorem isWhole_replicate {k : Kind} {c : Char} (hk : k.unit? = some [c]) (n : Nat) :
    Piece.IsWhole ⟨k, List.replicate (n + 1) c⟩ := by
  intro unit hunit
  rw [hk] at hunit
  obtain rfl := Option.some.inj hunit
  have hcount : Piece.count ⟨k, List.replicate (n + 1) c⟩ = n + 1 := by
    simp [Piece.count, hk]
  rw [hcount]
  exact ⟨Nat.le_add_left 1 n, by simp [repeated]⟩

end Trivia

namespace Lexeme

/-! ## How far the runs reach -/

theorem drop_length_takeWhile (p : Char → Bool) (s : Text) :
    s.drop (s.takeWhile p).length = s.dropWhile p := by
  conv_lhs => rw [← List.takeWhile_append_dropWhile (p := p) (l := s)]
  rw [List.drop_left' (by simp)]

/-- The characters equal to `c` at the start of a text are `c` over and over. -/
theorem take_run (c : Char) (s : Text) :
    s.take (s.takeWhile (· == c)).length = List.replicate (s.takeWhile (· == c)).length c := by
  rw [← List.prefix_iff_eq_take.mp (List.takeWhile_prefix _)]
  refine List.eq_replicate_of_mem fun d hd => ?_
  simpa using List.mem_takeWhile_imp hd

theorem head?_dropWhile_ne (c : Char) (s : Text) : (s.dropWhile (· == c)).head? ≠ some c := by
  intro h
  have hnot := List.head?_dropWhile_not (· == c) s
  rw [h] at hnot
  exact absurd hnot (by simp)

/-- Where a line has been read up to its end, its end follows. -/
theorem isLineEnd_of_drop {s q : Text} {c : Char} (h : s.drop (lineLength s) = c :: q) :
    isLineEnd c := by
  have hnot := List.head?_dropWhile_not (fun c => !isLineEnd c) s
  rw [lineLength, drop_length_takeWhile] at h
  rw [h] at hnot
  simpa using hnot

theorem take_loneReturns (s : Text) :
    s.take (loneReturns s) = List.replicate (loneReturns s) '\r' := by
  fun_induction loneReturns s with
  | case1 => simp
  | case2 r _ ih => rw [List.take_succ_cons, ih, List.replicate_succ]
  | case3 => simp

/-- Behind the lone carriage returns no further one stands. -/
theorem drop_loneReturns (s : Text) {r : Text} (h : s.drop (loneReturns s) = '\r' :: r) :
    r.head? = some '\n' := by
  fun_induction loneReturns s with
  | case1 q => rw [← List.tail_eq_of_cons_eq h]; rfl
  | case2 q _ ih => exact ih h
  | case3 s _ hs => exact absurd h (by simpa using hs r)

theorem take_returnFeeds (s : Text) :
    s.take (2 * returnFeeds s) = Trivia.repeated ['\r', '\n'] (returnFeeds s) := by
  fun_induction returnFeeds s with
  | case1 r ih =>
      rw [Nat.mul_succ, List.take_succ_cons, List.take_succ_cons, ih]
      rfl
  | case2 => simp [Trivia.repeated]

/-- Behind the CRLF pairs no further pair stands. -/
theorem drop_returnFeeds (s : Text) (r : Text) :
    s.drop (2 * returnFeeds s) ≠ '\r' :: '\n' :: r := by
  fun_induction returnFeeds s with
  | case1 q ih => rw [Nat.mul_succ]; exact ih
  | case2 s hs => exact hs r

/-! ## What starts at a character -/

/-- The pieces of trivia that can start with `c` in front of `r`, and how many characters
of `r` each takes. -/
inductive TriviaStart (c : Char) (r : Text) : Trivia.Kind → Nat → Prop
  | spaces (hc : c = ' ') : TriviaStart c r .spaces (r.takeWhile (· == ' ')).length
  | tabs (hc : c = '\t') : TriviaStart c r .tabs (r.takeWhile (· == '\t')).length
  | lineFeeds (hc : c = '\n') : TriviaStart c r .lineFeeds (r.takeWhile (· == '\n')).length
  | returnFeeds (q : Text) (hc : c = '\r') (hr : r = '\n' :: q) :
      TriviaStart c r .returnFeeds (2 * returnFeeds q + 1)
  | carriageReturns (hc : c = '\r') (hr : r.head? ≠ some '\n') :
      TriviaStart c r .carriageReturns (loneReturns r)
  | lineComment (k : Trivia.Kind) (hc : c = '/') (hr : r.head? = some '/')
      (hk : k = lineCommentKind (c :: r.take (lineLength r))) : TriviaStart c r k (lineLength r)
  | blockComment (k : Trivia.Kind) (n : Nat) (hc : c = '/') (hr : r.head? = some '*')
      (hn : commentLength 0 r.tail = some n)
      (hk : k = blockCommentKind (c :: r.take (n + 1))) : TriviaStart c r k (n + 1)
  | other (hc : isBlank c) (hend : isLineEnd c = false) : TriviaStart c r .other 0

/-- **The pieces of trivia, case by case.** Every later fact about a single piece is read
off here and `triviaAt` is not opened again. -/
theorem triviaAt_cases {c : Char} {r : Text} {k : Trivia.Kind} {n : Nat}
    (h : triviaAt c r = .ok (some (k, n))) : TriviaStart c r k n := by
  unfold triviaAt at h
  split at h
  · next hc => cases h; exact .spaces (eq_of_beq hc)
  split at h
  · next hc => cases h; exact .tabs (eq_of_beq hc)
  split at h
  · next hc => cases h; exact .lineFeeds (eq_of_beq hc)
  next hfeed =>
  split at h
  · next hc =>
    split at h
    · next q => cases h; exact .returnFeeds q (eq_of_beq hc) rfl
    · next hr =>
      cases h
      refine .carriageReturns (eq_of_beq hc) fun hhead => ?_
      obtain ⟨q, hq⟩ := List.head?_eq_some_iff.mp hhead
      exact hr q hq
  next hreturn =>
  split at h
  · next hc =>
    obtain ⟨hslash, hnext⟩ := by simpa using hc
    cases h
    exact .lineComment _ hslash hnext rfl
  split at h
  · next hc =>
    obtain ⟨hslash, hstar⟩ := by simpa using hc
    split at h
    · next m hm =>
      cases h
      exact .blockComment _ m hslash hstar hm rfl
    · exact absurd h (by simp)
  split at h
  · next hc =>
    -- both line ends have been asked for above, so this blank is neither
    cases h
    exact .other hc (by simpa [isLineEnd] using And.intro hfeed hreturn)
  · exact absurd h (by simp)

/-! ## Three questions about a piece -/

theorem fillsLine_lineCommentKind (comment : Text) : (lineCommentKind comment).fillsLine := by
  unfold lineCommentKind
  split <;> rfl

theorem isNewline_lineCommentKind (comment : Text) :
    (lineCommentKind comment).isNewline = false := by
  unfold lineCommentKind
  split <;> rfl

/-- A block comment is no run, fills no line and is no line break. -/
theorem blockCommentKind_plain (comment : Text) :
    (blockCommentKind comment).unit? = none ∧ (blockCommentKind comment).fillsLine = false
      ∧ (blockCommentKind comment).isNewline = false := by
  unfold blockCommentKind
  split <;> exact ⟨rfl, rfl, rfl⟩

/-- A piece of a run kind is a whole run. -/
theorem isWhole_of_triviaAt {c : Char} {r : Text} {k : Trivia.Kind} {n : Nat}
    (h : triviaAt c r = .ok (some (k, n))) : Trivia.Piece.IsWhole ⟨k, c :: r.take n⟩ := by
  cases triviaAt_cases h with
  | spaces hc => rw [hc, take_run]; exact Trivia.isWhole_replicate rfl _
  | tabs hc => rw [hc, take_run]; exact Trivia.isWhole_replicate rfl _
  | lineFeeds hc => rw [hc, take_run]; exact Trivia.isWhole_replicate rfl _
  | returnFeeds q hc hr =>
      -- the pair just read is one more unit in front of those of `q`
      rw [hc, hr, List.take_succ_cons, take_returnFeeds]
      intro unit hunit
      obtain rfl := Option.some.inj hunit
      have htext : '\r' :: '\n' :: Trivia.repeated ['\r', '\n'] (returnFeeds q)
          = Trivia.repeated ['\r', '\n'] (returnFeeds q + 1) := rfl
      have hcount : Trivia.Piece.count
          ⟨.returnFeeds, Trivia.repeated ['\r', '\n'] (returnFeeds q + 1)⟩ = returnFeeds q + 1 := by
        simp [Trivia.Piece.count, Trivia.Kind.unit?, Trivia.repeated]
      rw [htext, hcount]
      exact ⟨Nat.le_add_left 1 _, rfl⟩
  | carriageReturns hc hr => rw [hc, take_loneReturns]; exact Trivia.isWhole_replicate rfl _
  | lineComment k hc hr hk =>
      intro unit hunit
      rw [hk, Trivia.Kind.unit?_of_fillsLine (fillsLine_lineCommentKind _)] at hunit
      exact absurd hunit (by simp)
  | blockComment k m hc hr hm hk =>
      intro unit hunit
      rw [hk, (blockCommentKind_plain _).1] at hunit
      exact absurd hunit (by simp)
  | other hc hend =>
      intro unit hunit
      exact absurd hunit (by simp [Trivia.Kind.unit?])

/-- Whether a run of this kind starts here. A carriage return with a line feed behind it
starts a run of pairs, not one of returns. -/
def OpensRun : Trivia.Kind → Text → Prop
  | .spaces, s => s.head? = some ' '
  | .tabs, s => s.head? = some '\t'
  | .lineFeeds, s => s.head? = some '\n'
  | .carriageReturns, s => ∃ r, s = '\r' :: r ∧ r.head? ≠ some '\n'
  | .returnFeeds, s => ∃ r, s = '\r' :: '\n' :: r
  | _, _ => False

/-- Only a run has a start. -/
theorem not_opensRun_of_unit? {k : Trivia.Kind} (hk : k.unit? = none) (s : Text) :
    ¬ OpensRun k s := by
  cases k <;> first | exact id | exact absurd hk (by simp [Trivia.Kind.unit?])

/-- A piece of a run kind stands where such a run starts. -/
theorem opensRun_of_triviaAt {c : Char} {r : Text} {k : Trivia.Kind} {n : Nat}
    (h : triviaAt c r = .ok (some (k, n))) (hk : k.unit? ≠ none) : OpensRun k (c :: r) := by
  cases triviaAt_cases h with
  | spaces hc => rw [hc]; rfl
  | tabs hc => rw [hc]; rfl
  | lineFeeds hc => rw [hc]; rfl
  | returnFeeds q hc hr => exact ⟨q, by rw [hc, hr]⟩
  | carriageReturns hc hr => exact ⟨r, by rw [hc], hr⟩
  | lineComment k hc hr hkind =>
      exact absurd (Trivia.Kind.unit?_of_fillsLine (fillsLine_lineCommentKind _)) (hkind ▸ hk)
  | blockComment k m hc hr hm hkind => exact absurd (blockCommentKind_plain _).1 (hkind ▸ hk)
  | other hc hend => exact absurd rfl hk

/-- **Runs are maximal.** Behind a piece no run of its kind starts. -/
theorem not_opensRun_of_triviaAt {c : Char} {r : Text} {k : Trivia.Kind} {n : Nat}
    (h : triviaAt c r = .ok (some (k, n))) : ¬ OpensRun k (r.drop n) := by
  cases triviaAt_cases h with
  | spaces hc => rw [drop_length_takeWhile]; exact head?_dropWhile_ne ' ' r
  | tabs hc => rw [drop_length_takeWhile]; exact head?_dropWhile_ne '\t' r
  | lineFeeds hc => rw [drop_length_takeWhile]; exact head?_dropWhile_ne '\n' r
  | returnFeeds q hc hr =>
      rintro ⟨s, hs⟩
      rw [hr, List.drop_succ_cons] at hs
      exact drop_returnFeeds q s hs
  | carriageReturns hc hr =>
      -- the next return may belong to a pair, which is a run of another kind
      rintro ⟨s, hs, hnot⟩
      exact hnot (drop_loneReturns r hs)
  | lineComment k hc hr hk =>
      exact not_opensRun_of_unit?
        (hk ▸ Trivia.Kind.unit?_of_fillsLine (fillsLine_lineCommentKind _)) _
  | blockComment k m hc hr hm hk =>
      exact not_opensRun_of_unit? (hk ▸ (blockCommentKind_plain _).1) _
  | other hc hend => exact id

/-- Behind a piece that fills its line the line ends. -/
theorem lineEnd_of_triviaAt {c d : Char} {r q : Text} {k : Trivia.Kind} {n : Nat}
    (h : triviaAt c r = .ok (some (k, n))) (hk : k.fillsLine) (hq : r.drop n = d :: q) :
    isLineEnd d := by
  cases triviaAt_cases h with
  | lineComment k hc hr hkind => exact isLineEnd_of_drop hq
  | blockComment k m hc hr hm hkind =>
      rw [hkind, (blockCommentKind_plain _).2.1] at hk
      exact absurd hk (by simp)
  | _ => exact absurd hk (by decide)

/-- A piece is a line break exactly if its first character ends a line. -/
theorem isNewline_of_triviaAt {c : Char} {r : Text} {k : Trivia.Kind} {n : Nat}
    (h : triviaAt c r = .ok (some (k, n))) : k.isNewline = isLineEnd c := by
  cases triviaAt_cases h with
  | lineComment k hc hr hk => rw [hk, isNewline_lineCommentKind, hc]; rfl
  | blockComment k m hc hr hm hk => rw [hk, (blockCommentKind_plain _).2.2, hc]; rfl
  | other hc hend => rw [hend]; rfl
  | _ => subst c; rfl

/-- At a character that ends a line there is always a piece of trivia. -/
theorem triviaAt_lineEnd {c : Char} (r : Text) (hc : isLineEnd c) :
    ∃ k n, triviaAt c r = .ok (some (k, n)) := by
  have hcases : c = '\n' ∨ c = '\r' := by simpa [isLineEnd] using hc
  rcases hcases with rfl | rfl
  · exact ⟨_, _, rfl⟩
  · unfold triviaAt
    simp only [Char.reduceBEq, Bool.false_eq_true, if_false, if_true]
    split
    · exact ⟨_, _, rfl⟩
    · exact ⟨_, _, rfl⟩

end Lexeme

namespace Scan

/-! ## A whole scan

`Scanned` is the scan as a relation: it forgets the line, which only errors mention, and
its three constructors are the three ways a successful scan goes on. The facts below are
inductions over it. -/

/-- `ts` is the trivia at the start of a text, and the last text is what follows it. -/
inductive Scanned (sameLine : Bool) : Text → Trivia → Text → Prop
  | done : Scanned sameLine [] [] []
  | stop (c : Char) (r : Text)
      (hstop : (sameLine && isLineEnd c) = true ∨ Lexeme.triviaAt c r = .ok none) :
      Scanned sameLine (c :: r) [] (c :: r)
  | piece {c : Char} {r : Text} {k : Trivia.Kind} {n : Nat} {ts : Trivia} {rest : Text}
      (hline : (sameLine && isLineEnd c) = false)
      (hpiece : Lexeme.triviaAt c r = .ok (some (k, n)))
      (htail : Scanned sameLine (r.drop n) ts rest) :
      Scanned sameLine (c :: r) (⟨k, c :: r.take n⟩ :: ts) rest

theorem scanned_of_trivia {sameLine : Bool} {line : Nat} {s : Text} {ts : Trivia} {rest : Text}
    (h : trivia sameLine line s = .ok (ts, rest)) : Scanned sameLine s ts rest := by
  fun_induction trivia sameLine line s generalizing ts rest with
  | case1 => cases h; exact .done
  | case2 line c r hend => cases h; exact .stop c r (.inl hend)
  | case3 => exact absurd h (by simp)
  | case4 line c r _ hnone => cases h; exact .stop c r (.inr hnone)
  | case5 => exact absurd h (by simp)
  | case6 line c r hend k n hpiece text us q hq =>
      rename_i ih
      cases h
      exact .piece (by simpa using hend) hpiece (ih hq)

variable {sameLine : Bool} {s rest : Text} {ts : Trivia}

/-- The first piece of a scan is the one that starts at the first character. -/
theorem Scanned.head {p : Trivia.Piece} (h : Scanned sameLine s (p :: ts) rest) :
    ∃ c r n, s = c :: r ∧ (sameLine && isLineEnd c) = false
      ∧ Lexeme.triviaAt c r = .ok (some (p.kind, n)) := by
  cases h with
  | piece hline hpiece _ => exact ⟨_, _, _, rfl, hline, hpiece⟩

/-- **Neighbours in a scan.** A run ends only where no run of its kind goes on, and what
fills its line ends only where the line does. -/
theorem Scanned.mayPrecede {c : Char} {r : Text} {k : Trivia.Kind} {n : Nat}
    (hpiece : Lexeme.triviaAt c r = .ok (some (k, n)))
    (htail : Scanned sameLine (r.drop n) ts rest) :
    ∀ q ∈ ts.head?, Trivia.Piece.MayPrecede ⟨k, c :: r.take n⟩ q := by
  intro q hq
  obtain ⟨us, rfl⟩ := List.head?_eq_some_iff.mp hq
  obtain ⟨d, t, m, hdrop, _, hnext⟩ := htail.head
  constructor
  · intro hsame
    -- a neighbour of the same kind would start a run where the run has just ended
    by_contra hrun
    have hopens := Lexeme.opensRun_of_triviaAt hnext (hsame ▸ hrun)
    rw [← hdrop, ← hsame] at hopens
    exact Lexeme.not_opensRun_of_triviaAt hpiece hopens
  · intro hfills
    rw [Lexeme.isNewline_of_triviaAt hnext]
    exact Lexeme.lineEnd_of_triviaAt hpiece hfills hdrop

/-- **The pieces of a scan** are whole runs, side by side as they may be. -/
theorem Scanned.isScanned (h : Scanned sameLine s ts rest) : ts.IsScanned := by
  induction h with
  | done => exact Trivia.isScanned_nil
  | stop c r _ => exact Trivia.isScanned_nil
  | piece _ hpiece htail ih =>
      constructor
      · intro p hp
        rcases List.mem_cons.mp hp with rfl | hp
        · exact Lexeme.isWhole_of_triviaAt hpiece
        · exact ih.whole p hp
      · exact ih.chain.cons (Scanned.mayPrecede hpiece htail)

/-- On one line there is no line break. -/
theorem Scanned.not_isNewline (h : Scanned true s ts rest) :
    ∀ p ∈ ts, p.kind.isNewline = false := by
  induction h with
  | done => exact fun p hp => absurd hp List.not_mem_nil
  | stop c r _ => exact fun p hp => absurd hp List.not_mem_nil
  | piece hline hpiece _ ih =>
      intro p hp
      rcases List.mem_cons.mp hp with rfl | hp
      · rw [Lexeme.isNewline_of_triviaAt hpiece]; exact hline
      · exact ih p hp

/-- Across lines a scan does not stop where a line ends. -/
theorem Scanned.exists_head {c : Char} {r : Text} (h : Scanned false (c :: r) ts rest)
    (hc : isLineEnd c) : ∃ p us, ts = p :: us ∧ p.kind.isNewline := by
  obtain ⟨k, n, hpiece⟩ := Lexeme.triviaAt_lineEnd r hc
  cases h with
  | stop _ _ hstop =>
      rw [Bool.false_and, hpiece] at hstop
      exact absurd hstop (by simp)
  | piece _ hpiece' _ =>
      refine ⟨_, _, rfl, ?_⟩
      rw [Lexeme.isNewline_of_triviaAt hpiece']
      exact hc

/-- Hence a scan that finds nothing where only a line end could stand has nothing left. -/
theorem Scanned.eq_nil_of_lineEnd (h : Scanned false s [] rest)
    (hs : ∀ c q, s = c :: q → isLineEnd c) : rest = [] := by
  cases h with
  | done => rfl
  | stop c r hstop =>
      obtain ⟨_, _, hcons, _⟩ := (Scanned.stop c r hstop).exists_head (hs c r rfl)
      exact absurd hcons (by simp)

/-- Across lines a scan ends in a piece that fills its line only at the end of the text. -/
theorem Scanned.eq_nil_of_fillsLine (h : Scanned false s ts rest) :
    ∀ p ∈ ts.getLast?, p.kind.fillsLine → rest = [] := by
  induction h with
  | done => exact fun p hp => absurd hp (by simp)
  | stop c r _ => exact fun p hp => absurd hp (by simp)
  | @piece c r k n ts rest hline hpiece htail ih =>
      intro p hp hfills
      cases ts with
      | cons q us => exact ih p (by simpa using hp) hfills
      | nil =>
          -- the piece is the last one, and behind it only a line end could stand
          obtain rfl : _ = p := by simpa using hp
          exact htail.eq_nil_of_lineEnd fun d q => Lexeme.lineEnd_of_triviaAt hpiece hfills

/-- Behind the trivia of a line the next scan finds a line break first, or nothing. -/
theorem Scanned.starts_line {s₁ : Text} {us : Trivia} (h : Scanned true s ts s₁)
    (hnext : Scanned false s₁ us rest) : us = [] ∨ ∃ p vs, us = p :: vs ∧ p.kind.isNewline := by
  induction h with
  | done => cases hnext; exact .inl rfl
  | stop c r hstop =>
      rcases hstop with hend | hnone
      · exact .inr (hnext.exists_head (by simpa using hend))
      · -- no trivia starts here, for the second scan as little as for the first
        cases hnext with
        | stop => exact .inl rfl
        | piece _ hpiece _ =>
            rw [hnone] at hpiece
            exact absurd hpiece (by simp)
  | piece _ _ _ ih => exact ih hnext

end Scan

end Unflag
