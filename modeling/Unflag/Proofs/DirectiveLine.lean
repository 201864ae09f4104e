/-
What a directive line takes with it.

When a directive goes, `dropDirectiveLine` takes one unit off the run of line breaks in front of
it. That this is one line break of the text is not plain from the operation: what is left of the
run is put in front of the next piece, and a carriage return that comes to stand in front of a line
feed would be one line break with it instead of two.

In the trivia of a scan this does not happen. A run is one unit over and over, so it has as many
line breaks as units (`lineBreaks_repeated`), and no piece ends between a carriage return and its
line feed (`Scanned.keepsPairs`), so that the line breaks of the run and of the rest add up, with
the whole run in front of the rest and with what is left of it.
-/
import Unflag.Proofs.LineNumbers
import Unflag.Proofs.Pruning

set_option autoImplicit false

namespace Unflag

open Text

/-! ## Runs of line breaks -/

namespace Text

/-- The last part of a text ends as the text does. -/
theorem NoPairAcross.of_append {a b c : Text} (h : NoPairAcross (a ++ b) c) :
    NoPairAcross b c := by
  induction a with
  | nil => exact h
  | cons d a ih => exact ih h.tail

theorem NoPairAcross.mono {a b c : Text} (h : NoPairAcross a c) (hb : b <+: c) :
    NoPairAcross a b := by
  obtain ⟨w, rfl⟩ := hb
  intro hlast hfeed
  refine h hlast ?_
  rw [List.head?_append, hfeed]
  rfl

end Text

namespace Trivia

/-- The line breaks, each of which is the unit of a kind of run. -/
def breakUnits : List Text := [['\n'], ['\r'], ['\r', '\n']]

theorem Kind.unit?_of_isNewline {k : Kind} (h : k.isNewline = true) :
    ∃ unit ∈ breakUnits, k.unit? = some unit := by
  cases k with
  | lineFeeds => exact ⟨['\n'], by decide, rfl⟩
  | carriageReturns => exact ⟨['\r'], by decide, rfl⟩
  | returnFeeds => exact ⟨['\r', '\n'], by decide, rfl⟩
  | _ => exact absurd h (by decide)

/-- A run of line breaks has as many of them as it has units. -/
theorem lineBreaks_repeated {unit : Text} (hunit : unit ∈ breakUnits) (n : Nat) :
    Text.lineBreaks (repeated unit n) = n := by
  induction n with
  | zero => rfl
  | succ n ih =>
      obtain ⟨hseam, hone⟩ :
          NoPairAcross unit (repeated unit n) ∧ Text.lineBreaks unit = 1 := by
        have hcases : unit = ['\n'] ∨ unit = ['\r'] ∨ unit = ['\r', '\n'] := by
          simpa [breakUnits] using hunit
        rcases hcases with rfl | rfl | rfl
        · exact ⟨noPairAcross_concat [] (by decide) _, rfl⟩
        · -- behind a return stands another one, or the run has ended
          refine ⟨fun _ => ?_, rfl⟩
          cases n <;> simp [repeated, List.replicate_succ]
        · exact ⟨noPairAcross_concat ['\r'] (by decide) _, rfl⟩
      rw [repeated_succ, lineBreaks_append hseam, hone, ih, Nat.add_comm]

/-- **What is dropped.** Of trivia that starts with a whole run of line breaks one unit goes. -/
theorem dropDirectiveLine_run {p : Piece} (hwhole : p.IsWhole)
    (hnewline : p.kind.isNewline = true) :
    ∃ unit ∈ breakUnits, ∃ n, p.text = repeated unit (n + 1)
      ∧ ∀ r, text (dropDirectiveLine (p :: r)) = repeated unit n ++ text r := by
  obtain ⟨unit, hbreak, hunit⟩ := Kind.unit?_of_isNewline hnewline
  obtain ⟨hpos, htext⟩ := hwhole unit hunit
  obtain ⟨n, hn⟩ : ∃ n, p.count = n + 1 := ⟨p.count - 1, by omega⟩
  refine ⟨unit, hbreak, n, by rw [htext, hn], fun r => ?_⟩
  rw [dropDirectiveLine, if_pos hnewline, hn]
  split
  · rw [Piece.withCount?, hunit]
    rfl
  · obtain rfl : n = 0 := by omega
    rfl

/-! ## Pairs in trivia -/

/-- No piece ends between a carriage return and its line feed. -/
def KeepsPairs : Trivia → Prop
  | [] => True
  | p :: r => NoPairAcross p.text (text r) ∧ KeepsPairs r

/-- **One line break less.** A run of line breaks in front of trivia that does not complete a pair
gives one of its units away, and the text has one line break less. -/
theorem text_dropDirectiveLine {p : Piece} {r : Trivia} (hwhole : p.IsWhole)
    (hnewline : p.kind.isNewline = true) (hseam : NoPairAcross p.text (text r)) :
    ∃ u ∈ breakUnits, text (p :: r) = u ++ text (dropDirectiveLine (p :: r))
      ∧ Text.lineBreaks (text (p :: r))
        = Text.lineBreaks (text (dropDirectiveLine (p :: r))) + 1 := by
  obtain ⟨unit, hunit, n, htext, hdrop⟩ := dropDirectiveLine_run hwhole hnewline
  have hbefore : text (p :: r) = repeated unit (n + 1) ++ text r := by
    rw [← htext]
    rfl
  rw [htext] at hseam
  -- what is left of the run ends as the run does
  have hseam' : NoPairAcross (repeated unit n) (text r) := by
    rw [repeated_succ] at hseam
    exact hseam.of_append
  refine ⟨unit, hunit, ?_, ?_⟩
  · rw [hbefore, hdrop, repeated_succ, List.append_assoc]
  · rw [hbefore, hdrop, lineBreaks_append hseam, lineBreaks_append hseam',
      lineBreaks_repeated hunit, lineBreaks_repeated hunit]
    omega

end Trivia

/-! ## The trivia of a source -/

namespace Scan

variable {sameLine : Bool} {s rest : Text} {ts : Trivia}

/-- The text of the trivia is the start of what was scanned. -/
theorem Scanned.text_prefix (h : Scanned sameLine s ts rest) : ts.text <+: s := by
  induction h with
  | done => exact List.nil_prefix
  | stop => exact List.nil_prefix
  | @piece c r k n ts rest _ _ _ ih =>
      have htext : Trivia.text (⟨k, c :: r.take n⟩ :: ts) = c :: (r.take n ++ ts.text) := rfl
      have hr : r = r.take n ++ r.drop n := (List.take_append_drop n r).symm
      rw [htext, List.cons_prefix_cons]
      refine ⟨rfl, ?_⟩
      conv_rhs => rw [hr]
      exact (List.prefix_append_right_inj _).mpr ih

/-- **A scan keeps its pairs.** -/
theorem Scanned.keepsPairs (h : Scanned sameLine s ts rest) : ts.KeepsPairs := by
  induction h with
  | done => trivial
  | stop => trivial
  | piece _ hpiece htail ih =>
      exact ⟨(Lexeme.noPairAcross_of_triviaAt hpiece).mono htail.text_prefix, ih⟩

/-- So does a scan behind the interpreter line. -/
theorem keepsPairs_shebang_append {source : Text}
    (h : Scanned sameLine (source.drop (shebang source).text.length) ts rest) :
    Trivia.KeepsPairs (shebang source ++ ts) := by
  have hseam := (reached_shebang source).noPair.mono h.text_prefix
  unfold shebang at hseam ⊢
  split at hseam
  · next hmark =>
    rw [if_pos hmark]
    refine ⟨?_, h.keepsPairs⟩
    simpa [Trivia.text] using hseam
  · next hmark =>
    rw [if_neg hmark]
    exact h.keepsPairs

variable {last : Option Token} {line : Nat} {leading : Trivia} {l : Lexed}

/-- The leading trivia of each token keeps its pairs if that of the first one does. -/
theorem Cut.keepsPairs (h : Cut last line leading s l) (hleading : leading.KeepsPairs) :
    ∀ t ∈ l.toList, t.leading.KeepsPairs := by
  induction h with
  | done =>
      intro t ht
      rw [List.mem_singleton.mp ht]
      exact hleading
  | token t htoken _ _ hahead _ ih =>
      refine List.forall_mem_cons.mpr ⟨?_, ih (scanned_of_trivia hahead).keepsPairs⟩
      rw [htoken]
      exact hleading

end Scan

/-- No leading trivia of a source has a piece that ends inside a pair. -/
theorem keepsPairs_of_tokenize {source : Text} {l : Lexed} (h : tokenize source = .ok l) :
    ∀ t ∈ l.toList, t.leading.KeepsPairs := by
  unfold tokenize at h
  dsimp only at h
  split at h
  · cases h
  · next ts rest htrivia =>
    exact (Scan.cut_of_tokens h).keepsPairs
      (Scan.keepsPairs_shebang_append (Scan.scanned_of_trivia htrivia))

/-- **A directive line takes one line break with it.** The leading trivia of a token of a source
is what `dropDirectiveLine` leaves of it, behind one LF, CR or CRLF if it starts with a run of line
breaks and behind nothing otherwise; and what is left has one line break less in the first case and
as many in the second. -/
theorem directive_line_takes_one_break {source : Text} {l : Lexed} (h : tokenize source = .ok l)
    {t : Token} (ht : t ∈ l.toList) :
    ∃ u, t.leading.text = u ++ t.leading.dropDirectiveLine.text
      ∧ (((∃ p r, t.leading = p :: r ∧ p.kind.isNewline = true)
          ∧ u ∈ [['\n'], ['\r'], ['\r', '\n']]
          ∧ lineBreaks t.leading.text = lineBreaks t.leading.dropDirectiveLine.text + 1)
        ∨ ((∀ p ∈ t.leading.head?, p.kind.isNewline = false) ∧ u = []
          ∧ lineBreaks t.leading.text = lineBreaks t.leading.dropDirectiveLine.text)) := by
  obtain ⟨_, _, _, hcut, hleads, _⟩ := cut_of_tokenize h
  have hwhole := (hcut.tokenScanned hleads t ht).leading.whole
  have hpairs := keepsPairs_of_tokenize h t ht
  cases hleading : t.leading with
  | nil => exact ⟨[], rfl, .inr ⟨fun p hp => absurd hp (by simp), rfl, rfl⟩⟩
  | cons p r =>
      rw [hleading] at hwhole hpairs
      by_cases hnewline : p.kind.isNewline = true
      · obtain ⟨u, hu, htext, hbreaks⟩ :=
          Trivia.text_dropDirectiveLine (hwhole p List.mem_cons_self) hnewline hpairs.1
        exact ⟨u, htext, .inl ⟨⟨p, r, rfl, hnewline⟩, hu, hbreaks⟩⟩
      · have hkept : Trivia.dropDirectiveLine (p :: r) = p :: r := if_neg hnewline
        rw [hkept]
        refine ⟨[], rfl, .inr ⟨?_, rfl, rfl⟩⟩
        intro q hq
        cases hq
        simpa using hnewline

/-- Runs of all three kinds and a comment: behind the first return stands a pair, which stays one
line break when the return has gone. -/
theorem directive_line_takes_one_break_mixed :
    ∃ l t u, tokenize "a\r\r\n\n// b\n\rc".toList = .ok l ∧ t ∈ l.toList
      ∧ t.leading.dropDirectiveLine.text = "\r\n\n// b\n\r".toList
      ∧ t.leading.text = u ++ t.leading.dropDirectiveLine.text ∧ u = ['\r']
      ∧ lineBreaks t.leading.text = lineBreaks t.leading.dropDirectiveLine.text + 1 := by
  have hscan : (tokenize "a\r\r\n\n// b\n\rc".toList).toOption.any (fun l =>
      l.toList.any fun t => t.leading.text == "\r\r\n\n// b\n\r".toList
        && t.leading.dropDirectiveLine.text == "\r\n\n// b\n\r".toList) = true := by
    decide +kernel
  obtain ⟨l, hl, hany⟩ := exists_of_tokenize_any hscan
  obtain ⟨t, ht, htexts⟩ := List.any_eq_true.mp hany
  rw [Bool.and_eq_true, beq_iff_eq, beq_iff_eq] at htexts
  obtain ⟨hbefore, hafter⟩ := htexts
  obtain ⟨u, htext, ⟨_, hu, hbreaks⟩ | ⟨_, rfl, _⟩⟩ := directive_line_takes_one_break hl ht
  · refine ⟨l, t, u, hl, ht, hafter, htext, ?_, hbreaks⟩
    rw [hbefore, hafter] at htext
    have hfront : u ++ "\r\n\n// b\n\r".toList = ['\r'] ++ "\r\n\n// b\n\r".toList := htext.symm
    exact List.append_cancel_right hfront
  · rw [hbefore, hafter] at htext
    exact absurd htext (by decide)

end Unflag
