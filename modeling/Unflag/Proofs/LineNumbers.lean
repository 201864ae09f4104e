/-
On which line a token stands.

The scan counts lines piece by piece: it adds the line breaks of what it has just taken to the
line it is on. The sum is right as long as no piece ends between a carriage return and the line
feed that belongs to it, because such a pair would then be counted twice (`lineBreaks_append`).
So the question is how pieces end. Of the trivia only runs of carriage returns end in one, and
they stop in front of a pair (`noPairAcross_of_triviaAt`). A token never ends in a line end at
all, not even a literal that runs over several lines or one whose escapes cover a line end
(`endsOnLine_of_tokenAt`).

`Reached` is what the scan keeps on its way: the text behind it, the text in front of it and the
line between them. A refusal is noticed at such a place or, by the assembly, at a token that
stands on one, and its line is a line of the source for that reason.
-/
import Unflag.Proofs.AssemblySteps
import Unflag.Proofs.Reading
import Unflag.Proofs.StringExtent

set_option autoImplicit false

namespace Unflag

open Text

/-- A refusal that went through a map was there before it. -/
theorem error_of_map_eq_error {ε α β : Type} {x : Except ε α} {f : α → β} {e : ε}
    (h : x.map f = .error e) : x = .error e := by
  cases x with
  | error e' => exact congrArg Except.error (Except.error.inj h)
  | ok a => cases h

namespace Text

/-! ## Counting in pieces -/

/-- No carriage return at the end of the first text has its line feed in the second. -/
def NoPairAcross (a b : Text) : Prop := a.getLast? = some '\r' → b.head? ≠ some '\n'

/-- The text does not end in a line end. -/
def EndsOnLine (a : Text) : Prop := ∀ d ∈ a.getLast?, isLineEnd d = false

/-- The line is one of the text. -/
def IsLineOf (s : Text) (line : Nat) : Prop := 1 ≤ line ∧ line ≤ 1 + lineBreaks s

theorem noPairAcross_nil (b : Text) : NoPairAcross [] b := by
  intro h
  cases h

theorem noPairAcross_of_notMem {a b : Text} (h : '\r' ∉ a) : NoPairAcross a b := by
  intro hlast
  exact absurd (List.mem_of_getLast? hlast) h

theorem noPairAcross_concat (a : Text) {d : Char} (hd : d ≠ '\r') (b : Text) :
    NoPairAcross (a ++ [d]) b := by
  intro hlast
  rw [List.getLast?_concat] at hlast
  exact absurd (Option.some.inj hlast) hd

theorem EndsOnLine.noPairAcross {a : Text} (h : EndsOnLine a) (b : Text) : NoPairAcross a b := by
  intro hlast
  exact absurd (h _ hlast) (by decide)

theorem endsOnLine_of_forall {a : Text} (h : ∀ d ∈ a, isLineEnd d = false) : EndsOnLine a := by
  intro d hd
  exact h d (List.mem_of_getLast? hd)

theorem endsOnLine_singleton {c : Char} (hc : isLineEnd c = false) : EndsOnLine [c] :=
  endsOnLine_of_forall (List.forall_mem_singleton.mpr hc)

theorem endsOnLine_of_suffix {w a : Text} (hw : w <:+ a) (hne : w ≠ [])
    (h : ∀ d ∈ w, isLineEnd d = false) : EndsOnLine a := by
  obtain ⟨t, rfl⟩ := hw
  intro d hd
  rw [List.getLast?_append_of_ne_nil t hne] at hd
  exact h d (List.mem_of_getLast? hd)

theorem NoPairAcross.tail {c : Char} {r b : Text} (h : NoPairAcross (c :: r) b) :
    NoPairAcross r b := by
  cases r with
  | nil => exact noPairAcross_nil b
  | cons d q =>
      intro hlast
      refine h ?_
      rwa [List.getLast?_cons_cons]

/-- A carriage return in front of its line feed does not count, -/
theorem lineBreaks_pair {r : Text} (h : r.head? = some '\n') :
    lineBreaks ('\r' :: r) = lineBreaks r := by
  obtain ⟨q, rfl⟩ := List.head?_eq_some_iff.mp h
  rw [lineBreaks, lineBreaks]
  · rfl
  · simp

/-- and any other character counts on its own. -/
theorem lineBreaks_cons {c : Char} {r : Text} (h : c = '\r' → r.head? ≠ some '\n') :
    lineBreaks (c :: r) = (if isLineEnd c then 1 else 0) + lineBreaks r := by
  rw [lineBreaks]
  · split
    · rw [Nat.add_comm]
    · rw [Nat.zero_add]
  · rintro q rfl rfl
    exact h rfl rfl

/-- **Line breaks add up** over texts that cut no pair. -/
theorem lineBreaks_append {a b : Text} (h : NoPairAcross a b) :
    lineBreaks (a ++ b) = lineBreaks a + lineBreaks b := by
  induction a with
  | nil => rw [List.nil_append, lineBreaks, Nat.zero_add]
  | cons c r ih =>
      have hrest := ih h.tail
      by_cases hpair : c = '\r' ∧ r.head? = some '\n'
      · obtain ⟨rfl, hfeed⟩ := hpair
        have hfeed' : (r ++ b).head? = some '\n' := by
          rw [List.head?_append, hfeed]
          rfl
        rw [List.cons_append, lineBreaks_pair hfeed, lineBreaks_pair hfeed', hrest]
      · have hcons : c = '\r' → r.head? ≠ some '\n' := by
          intro hc hfeed
          exact hpair ⟨hc, hfeed⟩
        -- the last character of the first text is in front of the second one
        have hcons' : c = '\r' → (r ++ b).head? ≠ some '\n' := by
          intro hc
          cases r with
          | nil => exact h (by rw [hc]; rfl)
          | cons d q => exact hcons hc
        rw [List.cons_append, lineBreaks_cons hcons, lineBreaks_cons hcons', hrest]
        omega

theorem lineBreaks_eq_zero {a : Text} (h : ∀ d ∈ a, isLineEnd d = false) : lineBreaks a = 0 := by
  induction a with
  | nil => rfl
  | cons c r ih =>
      obtain ⟨hc, hr⟩ := List.forall_mem_cons.mp h
      have hcons : c = '\r' → r.head? ≠ some '\n' := by
        rintro rfl
        exact absurd hc (by decide)
      rw [lineBreaks_cons hcons, ih hr, hc]
      rfl

/-- A text is what is left of its line and what starts at the end of it. -/
theorem exists_atLineEnd (s : Text) :
    ∃ v x, s = v ++ x ∧ (∀ d ∈ v, isLineEnd d = false) ∧ AtLineEnd x := by
  refine ⟨s.takeWhile (fun c => !isLineEnd c), s.dropWhile (fun c => !isLineEnd c),
    List.takeWhile_append_dropWhile.symm, ?_, ?_⟩
  · intro d hd
    simpa using List.mem_takeWhile_imp hd
  · intro d hd
    have hnot := List.head?_dropWhile_not (fun c => !isLineEnd c) s
    rw [Option.mem_def.mp hd] at hnot
    simpa using hnot

/-- What is taken of the rest of a line does not end in a line end. -/
theorem endsOnLine_take {c : Char} {v : Text} {n : Nat} (hc : isLineEnd c = false)
    (hv : ∀ d ∈ v, isLineEnd d = false) (hn : n ≤ v.length) (x : Text) :
    EndsOnLine (c :: (v ++ x).take n) := by
  rw [List.take_append_of_le_length hn]
  refine endsOnLine_of_forall (List.forall_mem_cons.mpr ⟨hc, ?_⟩)
  intro d hd
  exact hv d (List.mem_of_mem_take hd)

end Text

namespace Lexeme

/-! ## How trivia ends -/

/-- Lone carriage returns end in front of a pair, or where none stands. -/
theorem head?_drop_loneReturns {s : Text} (h : s.head? ≠ some '\n') :
    (s.drop (loneReturns s)).head? ≠ some '\n' := by
  fun_induction loneReturns s with
  | case1 => exact h
  | case2 r hr ih =>
      refine ih ?_
      intro hfeed
      obtain ⟨q, rfl⟩ := List.head?_eq_some_iff.mp hfeed
      exact hr q rfl
  | case3 => exact h

/-- **No piece of trivia ends inside a pair.** -/
theorem noPairAcross_of_triviaAt {c : Char} {r : Text} {k : Trivia.Kind} {n : Nat}
    (h : triviaAt c r = .ok (some (k, n))) : NoPairAcross (c :: r.take n) (r.drop n) := by
  cases triviaAt_cases h with
  | spaces hc => exact noPairAcross_of_notMem (by rw [hc, take_run]; simp)
  | tabs hc => exact noPairAcross_of_notMem (by rw [hc, take_run]; simp)
  | lineFeeds hc => exact noPairAcross_of_notMem (by rw [hc, take_run]; simp)
  | returnFeeds q hc hr =>
      rw [hc, hr, List.take_succ_cons, take_returnFeeds]
      have htext : '\r' :: '\n' :: Trivia.repeated ['\r', '\n'] (returnFeeds q)
          = Trivia.repeated ['\r', '\n'] (returnFeeds q) ++ ['\r'] ++ ['\n'] := by
        calc '\r' :: '\n' :: Trivia.repeated ['\r', '\n'] (returnFeeds q)
            = Trivia.repeated ['\r', '\n'] (returnFeeds q + 1) := rfl
          _ = Trivia.repeated ['\r', '\n'] (returnFeeds q) ++ ['\r'] ++ ['\n'] := by
            simp [Trivia.repeated, List.replicate_succ']
      rw [htext]
      exact noPairAcross_concat _ (by decide) _
  | carriageReturns hc hr =>
      intro _
      exact head?_drop_loneReturns hr
  | lineComment k hc hr hk =>
      have hslash : isLineEnd c = false := by rw [hc]; rfl
      have hline : ∀ d ∈ c :: r.take (lineLength r), isLineEnd d = false :=
        List.forall_mem_cons.mpr ⟨hslash, Scan.isLineEnd_of_mem_take⟩
      exact (endsOnLine_of_forall hline).noPairAcross _
  | blockComment k m hc hr hm hk =>
      obtain ⟨q, rfl⟩ := List.head?_eq_some_iff.mp hr
      rw [List.tail_cons] at hm
      obtain ⟨w, hw⟩ := Scan.commentLength_ends hm
      have htext : c :: ('*' :: q).take (m + 1) = c :: '*' :: w ++ ['/'] := by
        rw [List.take_succ_cons, hw]
        rfl
      rw [htext]
      exact noPairAcross_concat _ (by decide) _
  | other hc hend => exact (endsOnLine_singleton hend).noPairAcross _

/-! ## How tokens end -/

theorem bareRegexFrom_ends {p : Char} {s : Text} {n : Nat}
    (h : Literal.bareRegexFrom p s = some n) : ∃ w, s.take n = w ++ ['/'] := by
  fun_induction Literal.bareRegexFrom p s generalizing n with
  | case1 => cases h
  | case2 => cases h
  | case3 => cases h
  | case4 p c _ _ d q ih =>
      obtain ⟨m, hm, rfl⟩ := Option.map_eq_some_iff.mp h
      obtain ⟨w, hw⟩ := ih hm
      exact ⟨c :: d :: w, by rw [List.take_succ_cons, List.take_succ_cons, hw]; rfl⟩
  | case5 => cases h
  | case6 p c r _ _ hc _ =>
      cases h
      exact ⟨[], by rw [eq_of_beq hc]; rfl⟩
  | case7 p c r _ _ _ ih =>
      obtain ⟨m, hm, rfl⟩ := Option.map_eq_some_iff.mp h
      obtain ⟨w, hw⟩ := ih hm
      exact ⟨c :: w, by rw [List.take_succ_cons, hw]; rfl⟩

/-- What is taken up to a word ends in it. -/
theorem find?_suffix {needle s : Text} {n : Nat} (h : find? needle s = some n) :
    needle <:+ s.take (n + needle.length) := by
  induction s generalizing n with
  | nil =>
      rw [find?] at h
      split at h
      · next hempty =>
        rw [List.isEmpty_iff.mp hempty]
        exact List.nil_suffix
      · cases h
  | cons c r ih =>
      rw [find?] at h
      split at h
      · next hpre =>
        cases h
        have htake := List.prefix_iff_eq_take.mp (List.isPrefixOf_iff_prefix.mp hpre)
        rw [Nat.zero_add, ← htake]
      · obtain ⟨m, hm, rfl⟩ := Option.map_eq_some_iff.mp h
        rw [Nat.add_right_comm, List.take_succ_cons]
        exact (ih hm).trans (List.suffix_cons c _)

/-- A literal ends in its closing delimiter. -/
theorem endsOnLine_of_isLiteral {u after : Text} (h : Literal.IsLiteral u after) :
    EndsOnLine u := by
  cases h with
  | @mk t _ k multiline _ hr =>
      have hsuffix : Literal.closing k multiline
          <:+ Literal.hashes k ++ (Literal.quotes multiline ++ t) := by
        rw [← List.append_assoc]
        exact hr.closing_suffix.trans (List.suffix_append _ t)
      refine endsOnLine_of_suffix hsuffix (by simp [Literal.closing_eq]) ?_
      rw [Literal.closing_eq]
      exact List.forall_mem_cons.mpr ⟨rfl, isLineEnd_closingTail k multiline⟩

theorem endsOnLine_of_bareRegex? {r : Text} {n : Nat} (c : Char)
    (h : Literal.bareRegex? r = some n) : EndsOnLine (c :: r.take n) := by
  unfold Literal.bareRegex? at h
  split at h
  · cases h
  · split at h
    · cases h
    · obtain ⟨w, hw⟩ := bareRegexFrom_ends h
      rw [hw]
      exact endsOnLine_of_suffix (w := ['/']) ⟨c :: w, rfl⟩ (by simp) (by simp [isLineEnd])

/-- A delimited expression behind `j` further number signs is these signs, a slash and what is taken
up to its closing delimiter. -/
theorem endsOnLine_of_delimited {r q : Text} {j m : Nat} (hq : r.drop j = '/' :: q)
    (hm : find? ('/' :: Literal.hashes (j + 1)) q = some m) :
    EndsOnLine ('#' :: r.take (m + (2 * (j + 1) + 1))) := by
  have htake : r.take (m + (2 * (j + 1) + 1)) = r.take j ++ '/' :: q.take (m + (j + 2)) := by
    have hn : m + (2 * (j + 1) + 1) = j + (m + (j + 2) + 1) := by omega
    rw [hn, List.take_add, hq, List.take_succ_cons]
  have hsuffix := find?_suffix hm
  rw [List.length_cons, Literal.length_hashes] at hsuffix
  have hdelimiter : ∀ d ∈ '/' :: Literal.hashes (j + 1), isLineEnd d = false :=
    List.forall_mem_cons.mpr ⟨rfl, isLineEnd_hashes _⟩
  rw [htake, ← List.cons_append]
  refine endsOnLine_of_suffix ?_ (List.cons_ne_nil '/' _) hdelimiter
  exact hsuffix.trans ((List.suffix_cons _ _).trans (List.suffix_append _ _))

theorem endsOnLine_of_poundAt {r : Text} {k : Token.Kind} {n : Nat}
    (hopen : ¬ Literal.OpensLiteral ('#' :: r)) (h : poundAt r = .ok (k, n)) :
    EndsOnLine ('#' :: r.take n) := by
  have hsign : EndsOnLine ['#'] := endsOnLine_singleton rfl
  unfold poundAt at h
  dsimp only at h
  rw [Literal.opening?_eq_none hopen] at h
  split at h
  · cases h
    exact hsign
  · next q hq =>
    split at h
    · next m hm =>
      cases h
      rw [Nat.add_sub_cancel] at hq
      exact endsOnLine_of_delimited hq hm
    · cases h
  · split at h
    · cases h
      obtain ⟨v, x, rfl, hv, hx⟩ := exists_atLineEnd r
      have hle : nameLength (v ++ x) ≤ v.length := by
        rw [nameLength_append hx]
        exact (List.takeWhile_prefix _).length_le
      exact endsOnLine_take rfl hv hle x
    · cases h
      exact hsign
  · cases h
    exact hsign

/-- Where a literal opens, the token is a literal. -/
theorem endsOnLine_of_opensLiteral {last : Option Token} {c : Char} {r : Text} {k : Token.Kind}
    {n : Nat} (hopen : Literal.OpensLiteral (c :: r)) (h : tokenAt last c r = .ok (k, n)) :
    EndsOnLine (c :: r.take n) := by
  have hstring : k = .string := by
    obtain ⟨_, _, _, htext, hquotes⟩ := hopen.exists_quotes
    obtain ⟨_, _, htoken⟩ := tokenAt_of_opensLiteral last hquotes htext
    rw [htoken] at h
    obtain ⟨_, _, heq⟩ := exists_of_map_eq_ok h
    exact (Prod.mk.inj heq).1.symm
  subst hstring
  obtain ⟨u, after, hu, hlength, hliteral⟩ := (tokenAt_string_iff hopen).mp h
  have htake : c :: r.take n = u := by
    rw [← List.take_succ_cons, hu, List.take_left' hlength]
  rw [htake]
  exact endsOnLine_of_isLiteral hliteral

/-- **No token ends in a line end**, where none stands at its start. -/
theorem endsOnLine_of_tokenAt {last : Option Token} {c : Char} {r : Text} {k : Token.Kind}
    {n : Nat} (hc : isLineEnd c = false) (h : tokenAt last c r = .ok (k, n)) :
    EndsOnLine (c :: r.take n) := by
  have hsingle : EndsOnLine [c] := endsOnLine_singleton hc
  by_cases hopen : Literal.OpensLiteral (c :: r)
  · exact endsOnLine_of_opensLiteral hopen h
  -- of the other classes, all but the expressions end with their line
  obtain ⟨v, x, hr, hv, hx⟩ := exists_atLineEnd r
  have hline : n ≤ v.length → EndsOnLine (c :: r.take n) := by
    intro hn
    rw [hr]
    exact endsOnLine_take hc hv hn x
  unfold tokenAt at h
  dsimp only at h
  split at h
  · cases h
    refine hline ?_
    rw [hr, nameLength_append hx]
    exact (List.takeWhile_prefix _).length_le
  split at h
  · split at h
    · next hname =>
      cases h
      refine hline ?_
      have hquoted : isQuotedName (v ++ x) = true := by
        rw [← hr]
        exact hname
      obtain ⟨hsame, htake⟩ := isQuotedName_append hx v
      rw [hsame] at hquoted
      rw [hr, htake hquoted]
      exact of_decide_eq_true (Bool.and_eq_true_iff.mp hquoted).1
    · cases h
      exact hsingle
  split at h
  · cases h
    refine hline ?_
    have hle := Literal.number_le (c :: v)
    rw [hr, ← List.cons_append, Literal.number_append hx]
    rw [List.length_cons] at hle
    omega
  split at h
  · rw [Literal.opening?_eq_none hopen] at h
    cases h
    exact hsingle
  split at h
  · next hsign =>
    obtain rfl := eq_of_beq hsign
    exact endsOnLine_of_poundAt hopen h
  split at h
  · cases h
    refine hline ?_
    rw [hr, takeWhile_append_of_atLineEnd ⟨rfl, rfl⟩ hx]
    exact (List.takeWhile_prefix _).length_le
  split at h
  · next m hm =>
    cases h
    split at hm
    · exact endsOnLine_of_bareRegex? c hm
    · cases hm
  split at h
  · cases h
    refine hline ?_
    rw [hr, operatorLength_append hx]
    exact operatorLength_le v
  split at h
  · cases h
    exact hsingle
  · cases h
    exact hsingle

end Lexeme

namespace Scan

/-! ## Where the scan is -/

/-- The scan has taken the first text, is on this line and has the second text in front of it. -/
structure Reached (front rest : Text) (line : Nat) : Prop where
  noPair : NoPairAcross front rest
  line_eq : line = 1 + lineBreaks front

variable {front rest s : Text} {line : Nat}

theorem Reached.isLineOf (h : Reached front rest line) : IsLineOf (front ++ rest) line := by
  have := lineBreaks_append h.noPair
  have := h.line_eq
  exact ⟨by omega, by omega⟩

/-- **The scan takes a piece** that does not end inside a pair, and counts its line breaks. -/
theorem Reached.append {a b : Text} (h : Reached front (a ++ b) line) (hab : NoPairAcross a b) :
    Reached (front ++ a) b (line + lineBreaks a) := by
  by_cases ha : a = []
  · subst ha
    simpa [lineBreaks] using h
  · -- what is in front of the scan starts as the piece does
    have hfront : NoPairAcross front a := by
      intro hlast hfeed
      refine h.noPair hlast ?_
      rw [List.head?_append, hfeed]
      rfl
    constructor
    · intro hlast
      rw [List.getLast?_append_of_ne_nil front ha] at hlast
      exact hab hlast
    · rw [lineBreaks_append hfront, h.line_eq]
      omega

/-- The scan takes what stands in front of it from `c` on. -/
theorem Reached.take {c : Char} {r : Text} {n : Nat} (h : Reached front (c :: r) line)
    (hab : NoPairAcross (c :: r.take n) (r.drop n)) :
    Reached (front ++ c :: r.take n) (r.drop n) (line + lineBreaks (c :: r.take n)) := by
  have htext : c :: r = c :: r.take n ++ r.drop n := by
    rw [List.cons_append, List.take_append_drop]
  rw [htext] at h
  exact h.append hab

/-- **Across trivia** the count stays right, -/
theorem Scanned.reached {sameLine : Bool} {ts : Trivia} (h : Scanned sameLine s ts rest)
    (hs : Reached front s line) : Reached (front ++ ts.text) rest (line + ts.lineBreaks) := by
  induction h generalizing front line with
  | done => simpa [Trivia.text, Trivia.lineBreaks] using hs
  | stop => simpa [Trivia.text, Trivia.lineBreaks] using hs
  | piece _ hpiece _ ih =>
      have htail := ih (hs.take (Lexeme.noPairAcross_of_triviaAt hpiece))
      simpa [Trivia.text, Trivia.lineBreaks, Nat.add_assoc] using htail

/-- and where trivia is refused, it is refused on a line of the source. -/
theorem isLineOf_of_trivia {sameLine : Bool} {f : Failure} (h : trivia sameLine line s = .error f)
    (hs : Reached front s line) : IsLineOf (front ++ s) f.line := by
  fun_induction trivia sameLine line s generalizing front with
  | case1 => cases h
  | case2 => cases h
  | case3 line c r _ cause hcause =>
      cases h
      exact hs.isLineOf
  | case4 => cases h
  | case5 line c r _ k n hpiece text e he =>
      rename_i ih
      cases h
      have := ih he (hs.take (Lexeme.noPairAcross_of_triviaAt hpiece))
      simpa [text] using this
  | case6 => cases h

/-- Across lines, trivia leaves no line end in front of the scan. -/
theorem Scanned.head_rest {ts : Trivia} (h : Scanned false s ts rest) :
    ∀ c ∈ rest.head?, isLineEnd c = false := by
  intro c hc
  obtain ⟨r, rfl⟩ := List.head?_eq_some_iff.mp hc
  by_contra hend
  obtain ⟨k, n, hpiece⟩ := Lexeme.triviaAt_lineEnd r (by simpa using hend)
  rw [h.stops c r rfl] at hpiece
  exact absurd hpiece (by simp)

variable {last : Option Token} {leading : Trivia} {l : Lexed}

/-- **Across a token and the trivia on both sides of it** the count stays right. -/
theorem Reached.token {c : Char} {r r₁ r₂ : Text} {kind : Token.Kind} {n : Nat}
    {trailing next : Trivia} (h : Reached front (c :: r) line)
    (hc : isLineEnd c = false) (hkind : Lexeme.tokenAt last c r = .ok (kind, n))
    (hbehind : Scanned true (r.drop n) trailing r₁) (hahead : Scanned false r₁ next r₂) :
    Reached (front ++ c :: r.take n ++ trailing.text ++ next.text) r₂
      (line + lineBreaks (c :: r.take n) + trailing.lineBreaks + next.lineBreaks) := by
  have hend := Lexeme.endsOnLine_of_tokenAt hc hkind
  exact hahead.reached (hbehind.reached (h.take (hend.noPairAcross _)))

/-- **Every token stands where its line says**, with the tokens in front of it taken. -/
theorem Cut.reached (h : Cut last line leading s l) (hs : Reached (front ++ leading.text) s line)
    (hhead : ∀ c ∈ s.head?, isLineEnd c = false) {us vs : List Token} {t : Token}
    (hsplit : l.toList = us ++ t :: vs) :
    ∃ after, front ++ leading.text ++ s
        = front ++ Token.sourceAll us ++ t.leading.text ++ (t.text ++ after)
      ∧ Reached (front ++ Token.sourceAll us ++ t.leading.text) (t.text ++ after) t.line := by
  -- the text in front grows by a whole token at each step, so it is general in the induction
  induction h generalizing front us with
  | done last line leading =>
      cases us with
      | nil =>
          obtain ⟨rfl, -⟩ := List.cons.inj hsplit
          exact ⟨[], by simp [Token.sourceAll], by simpa [Token.sourceAll] using hs⟩
      | cons u us => exact absurd hsplit (by simp [Lexed.toList])
  | @token _ line leading c r _ n trailing next r₁ r₂ l u htoken hkind hbehind hahead htail ih =>
      have hc := hhead c rfl
      have hbehind' := scanned_of_trivia hbehind
      have hahead' := scanned_of_trivia hahead
      have hrest : c :: r = c :: r.take n ++ (trailing.text ++ (next.text ++ r₂)) := by
        rw [trivia_append hahead, trivia_append hbehind, List.cons_append, List.take_append_drop]
      have htext : u.text = c :: r.take n := by rw [htoken]
      have hsource : u.source = leading.text ++ c :: r.take n ++ trailing.text := by
        rw [htoken]
        rfl
      cases us with
      | nil =>
          obtain ⟨rfl, -⟩ := List.cons.inj hsplit
          refine ⟨r.drop n, ?_, ?_⟩
          · rw [htoken]
            simp [Token.sourceAll]
          · rw [htoken]
            simpa [Token.sourceAll] using hs
      | cons w us =>
          -- what has been taken ends with the leading trivia of the next token
          obtain ⟨rfl, htailsplit⟩ := List.cons.inj hsplit
          have hnext := hs.token hc hkind hbehind' hahead'
          have hfront : front ++ leading.text ++ c :: r.take n ++ trailing.text ++ next.text
              = front ++ u.source ++ next.text := by
            rw [hsource]
            simp
          rw [hfront, ← htext] at hnext
          obtain ⟨after, htotal, hreached⟩ := ih hnext hahead'.head_rest htailsplit
          have hfront' : front ++ Token.sourceAll (u :: us)
              = front ++ u.source ++ Token.sourceAll us := by
            simp [Token.sourceAll]
          refine ⟨after, ?_, ?_⟩
          · rw [hfront', ← htotal, hsource, hrest]
            simp
          · rw [hfront']
            exact hreached

/-- A token is refused on a line of the source. -/
theorem isLineOf_of_tokens {f : Failure} (h : tokens last line leading s = .error f)
    (hs : Reached front s line) (hhead : ∀ c ∈ s.head?, isLineEnd c = false) :
    IsLineOf (front ++ s) f.line := by
  fun_induction tokens last line leading s generalizing front with
  | case1 => cases h
  | case2 last line leading c r cause hcause =>
      cases h
      exact hs.isLineOf
  | case3 last line leading c r kind n hkind text endLine e =>
      rename_i hbehind
      cases h
      have hend := Lexeme.endsOnLine_of_tokenAt (hhead c rfl) hkind
      have := isLineOf_of_trivia hbehind (hs.take (hend.noPairAcross _))
      simpa using this
  | case4 last line leading c r kind n hkind text endLine trailing r₁ hbehind nextLine e =>
      rename_i hahead
      cases h
      have hend := Lexeme.endsOnLine_of_tokenAt (hhead c rfl) hkind
      have hmiddle := (scanned_of_trivia hbehind).reached (hs.take (hend.noPairAcross _))
      have := isLineOf_of_trivia hahead hmiddle
      rwa [List.append_assoc, trivia_append hbehind, List.append_assoc, List.cons_append,
        List.take_append_drop] at this
  | case5 last line leading c r kind n hkind text endLine trailing r₁ hbehind nextLine next r₂
      hahead token =>
      rename_i ih
      have hahead' := scanned_of_trivia hahead
      have hnext := hs.token (hhead c rfl) hkind (scanned_of_trivia hbehind) hahead'
      have := ih (error_of_map_eq_error h) hnext hahead'.head_rest
      rwa [List.append_assoc, trivia_append hahead, List.append_assoc, trivia_append hbehind,
        List.append_assoc, List.cons_append, List.take_append_drop] at this

end Scan

/-! ## The lines of a source -/

/-- The interpreter line has no line break in it. -/
theorem Scan.reached_shebang (source : Text) :
    Reached (shebang source).text (source.drop (shebang source).text.length) 1 := by
  have hline : ∀ d ∈ (shebang source).text, isLineEnd d = false := by
    intro d hd
    unfold shebang at hd
    split at hd
    · exact isLineEnd_of_mem_take d (by simpa [Trivia.text] using hd)
    · exact absurd hd (by simp [Trivia.text])
  constructor
  · exact (endsOnLine_of_forall hline).noPairAcross _
  · rw [lineBreaks_eq_zero hline]

/-- **Every token of a source stands where its line says.** -/
theorem reached_of_tokenize {source : Text} {l : Lexed} (h : tokenize source = .ok l)
    {us vs : List Token} {t : Token} (hsplit : l.toList = us ++ t :: vs) :
    ∃ after, source = Token.sourceAll us ++ t.leading.text ++ (t.text ++ after)
      ∧ Scan.Reached (Token.sourceAll us ++ t.leading.text) (t.text ++ after) t.line := by
  unfold tokenize at h
  dsimp only at h
  split at h
  · cases h
  · next ts rest htrivia =>
    have hscan := Scan.scanned_of_trivia htrivia
    have hstart := hscan.reached (Scan.reached_shebang source)
    have hleading : (Scan.shebang source).text ++ ts.text
        = [] ++ (Scan.shebang source ++ ts).text := by
      simp [Trivia.text]
    rw [hleading] at hstart
    obtain ⟨after, htotal, hreached⟩ :=
      (Scan.cut_of_tokens h).reached hstart hscan.head_rest hsplit
    have hsource : source = [] ++ (Scan.shebang source ++ ts).text ++ rest := by
      rw [← hleading, List.append_assoc, Scan.trivia_append htrivia]
      exact List.prefix_append_drop (Scan.shebang_prefix source)
    rw [htotal] at hsource
    exact ⟨after, hsource, hreached⟩

/-- A source is refused on one of its lines. -/
theorem isLineOf_of_tokenize {source : Text} {f : Failure} (h : tokenize source = .error f) :
    IsLineOf source f.line := by
  have hfirst := Scan.reached_shebang source
  have hsource : (Scan.shebang source).text
      ++ source.drop (Scan.shebang source).text.length = source :=
    (List.prefix_append_drop (Scan.shebang_prefix source)).symm
  unfold tokenize at h
  dsimp only at h
  split at h
  · next e htrivia =>
    cases h
    have := Scan.isLineOf_of_trivia htrivia hfirst
    rwa [hsource] at this
  · next ts rest htrivia =>
    have hscan := Scan.scanned_of_trivia htrivia
    have := Scan.isLineOf_of_tokens h (hscan.reached hfirst) hscan.head_rest
    rwa [List.append_assoc, Scan.trivia_append htrivia, hsource] at this

namespace Assembly

/-! ## Refusals of the assembly -/

/-- The source is refused at a token, for whatever cause. -/
def RefusedAt (e : Refusal) (t : Token) : Prop := ∃ cause, e = .malformed ⟨cause, t.line⟩

/-- Tokens of a condition stand behind a directive that wants one. -/
def StandsBehind (us ts : List Token) (directive : Token) : Prop :=
  (directive.is .directive "#if" = true ∨ directive.is .directive "#elseif" = true)
    ∧ ∃ before after, ts = before ++ directive :: (us ++ after)

/-- The condition in hand is what has been read last, behind its directive. -/
def HeadRead (ts : List Token) : State → Prop
  | .listing _ _ => True
  | .heading _ _ _ directive taken _ =>
    (directive.is .directive "#if" = true ∨ directive.is .directive "#elseif" = true)
      ∧ ∃ before, ts = before ++ directive :: taken

variable {read : List Token → Except Refusal Condition}

theorem refusedAt_of_refuse {α : Type} {cause : Cause} {t : Token} {e : Refusal}
    (h : (refuse cause t : Except Refusal α) = .error e) : RefusedAt e t :=
  ⟨cause, (Except.error.inj h).symm⟩

theorem headRead_step {ts : List Token} {s s' : State} {t : Token} (hs : HeadRead ts s)
    (h : Step read s t s') : HeadRead (ts ++ [t]) s' := by
  induction h with
  | alternative block head up m t ht => exact ⟨.inr ht, ts, rfl⟩
  | openBlock stack m t ht => exact ⟨.inl ht, ts, rfl⟩
  | condition =>
      obtain ⟨hword, before, rfl⟩ := hs
      exact ⟨hword, before, by simp⟩
  | body _ _ _ _ _ _ _ _ _ _ _ _ _ ih => exact ih trivial
  | _ => trivial

theorem refusedAt_closeGroup {stack : List Frame} {m : Members} {t : Token} {e : Refusal}
    (h : closeGroup stack m t = .error e) : RefusedAt e t := by
  unfold closeGroup at h
  split at h
  · exact refusedAt_of_refuse h
  · cases h
  · exact refusedAt_of_refuse h

theorem refusedAt_closeClause {stack : List Frame} {m : Members} {t : Token} {e : Refusal}
    (h : closeClause stack m t = .error e) : RefusedAt e t := by
  unfold closeClause at h
  split at h
  · exact refusedAt_of_refuse h
  · exact refusedAt_of_refuse h
  · dsimp only at h
    split at h
    · cases h
    split at h
    · exact refusedAt_of_refuse h
    split at h
    · cases h
    · cases h

/-- Inside a member list the token itself is refused. -/
theorem refusedAt_stepList {stack : List Frame} {m : Members} {t : Token} {e : Refusal}
    (h : stepList stack m t = .error e) : RefusedAt e t := by
  unfold stepList at h
  split at h
  · exact refusedAt_closeGroup h
  split at h
  · exact refusedAt_closeClause h
  split at h
  · split at h
    · exact refusedAt_of_refuse h
    · cases h
  split at h
  · cases h
  · cases h

/-- A condition is refused at its directive, if it is there to be read. -/
theorem refusedAt_closeHeading {stack : List Frame} {block : OpenBlock} {kind : ClauseKind}
    {directive : Token} {taken : List Token} {e : Refusal}
    (h : closeHeading read stack block kind directive taken = .error e) :
    RefusedAt e directive ∨ read taken = .error e := by
  unfold closeHeading at h
  split at h
  · exact .inl (refusedAt_of_refuse h)
  · split at h
    · next e' hread =>
      cases h
      exact .inr hread
    · cases h

/-- **A refused step** is refused at the token read or at one that has been read, or by the
reader of conditions at one that stands there. -/
theorem refusedAt_step {ts : List Token} {s : State} {t : Token} {e : Refusal}
    (hs : HeadRead ts s) (h : step read s t = .error e) :
    (∃ u ∈ ts ++ [t], RefusedAt e u)
      ∨ ∃ us directive, StandsBehind us ts directive ∧ read us = .error e := by
  have hlast : t ∈ ts ++ [t] := List.mem_append_right ts (List.mem_singleton_self t)
  cases s with
  | listing stack m => exact .inl ⟨t, hlast, refusedAt_stepList h⟩
  | heading stack block kind directive taken depth =>
      rw [step] at h
      split at h
      · -- the token ends the condition, which is read first
        split at h
        · next e' hclose =>
          cases h
          obtain ⟨hword, before, rfl⟩ := hs
          rcases refusedAt_closeHeading hclose with hrefused | hread
          · exact .inl ⟨directive, by simp, hrefused⟩
          · exact .inr ⟨taken, directive, ⟨hword, before, [], by simp⟩, hread⟩
        · exact .inl ⟨t, hlast, refusedAt_stepList h⟩
      · cases h

/-- At the end of the file it is the end that is refused, or the condition in hand. -/
theorem refusedAt_finish {ts : List Token} {s : State} {eof : Token} {e : Refusal}
    (hs : HeadRead ts s) (h : finish read s eof = .error e) :
    (∃ u ∈ ts ++ [eof], RefusedAt e u)
      ∨ ∃ us directive, StandsBehind us ts directive ∧ read us = .error e := by
  have hlast : eof ∈ ts ++ [eof] := List.mem_append_right ts (List.mem_singleton_self eof)
  unfold finish at h
  dsimp only at h
  split at h
  · refine .inl ⟨eof, hlast, ?_⟩
    split at h
    · cases h
    · exact refusedAt_of_refuse h
    · exact refusedAt_of_refuse h
  · split at h
    · next e' hheading =>
      cases h
      obtain ⟨hword, before, rfl⟩ := hs
      rcases refusedAt_closeHeading hheading with hrefused | hread
      · exact .inl ⟨_, by simp, hrefused⟩
      · exact .inr ⟨_, _, ⟨hword, before, [], by simp⟩, hread⟩
    · next inner hheading =>
      -- the condition can be read, but its clause is still open
      obtain ⟨e', _, _, rfl⟩ := closeHeading_eq_ok hheading
      exact .inl ⟨eof, hlast, refusedAt_of_refuse h⟩

/-- **An assembly is refused at a token** of the source, or by the reader at one of its
conditions. -/
theorem refusedAt_assemble {l : Lexed} {e : Refusal} (h : assemble read l = .error e) :
    (∃ t ∈ l.toList, RefusedAt e t)
      ∨ ∃ us directive, StandsBehind us l.tokens directive ∧ read us = .error e := by
  have hinvariant : ∀ {us : List Token} {s : State},
      us.foldlM (step read) (.listing [] .empty) = .ok s → HeadRead us s := by
    intro us s hrun
    have hstart : HeadRead [] (.listing [] .empty) := trivial
    exact foldlM_invariant HeadRead (fun _ _ _ _ => headRead_step) hstart hrun
  unfold assemble at h
  split at h
  · next e' hrun =>
    cases h
    obtain ⟨vs, t, ws, s, hsplit, hbefore, hrefused⟩ := exists_of_foldlM_eq_error hrun
    refine (refusedAt_step (hinvariant hbefore) hrefused).imp ?_ ?_
    · rintro ⟨u, hu, hrefused⟩
      refine ⟨u, ?_, hrefused⟩
      rw [Lexed.toList, hsplit, List.append_assoc, ← List.singleton_append, ← List.append_assoc,
        ← List.append_assoc]
      exact List.mem_append_left _ (List.mem_append_left _ hu)
    · rintro ⟨us, directive, ⟨hword, before, after, rfl⟩, hread⟩
      exact ⟨us, directive, ⟨hword, before, after ++ t :: ws, by simp [hsplit]⟩, hread⟩
  · next s hrun =>
    exact refusedAt_finish (hinvariant hrun) h

end Assembly

/-- The reader of conditions in a named grouping finds nothing malformed. -/
theorem ofTokensBy_ne_malformed (label : String) (ts : List Token) (f : Failure) :
    Condition.ofTokensBy label ts ≠ .error (.malformed f) := by
  intro h
  rw [Condition.ofTokensBy] at h
  split at h
  · rw [Condition.ofTokens] at h
    split at h
    · cases h
    · split at h <;> cases h
  · cases h

/-- A malformed source is refused on one of its lines, by the scan or by the assembly. -/
theorem isLineOf_of_parseBy {label : String} {source : Text} {f : Failure}
    (h : SourceTree.parseBy label source = .error (.malformed f)) : IsLineOf source f.line := by
  unfold SourceTree.parseBy SourceTree.parseWith at h
  split at h
  · next f' hscan =>
    cases h
    exact isLineOf_of_tokenize hscan
  · next l hscan =>
    rcases Assembly.refusedAt_assemble h with ⟨t, ht, cause, hcause⟩ | ⟨us, _, _, hread⟩
    · cases hcause
      obtain ⟨us, vs, hsplit⟩ := List.append_of_mem ht
      obtain ⟨after, hsource, hreached⟩ := reached_of_tokenize hscan hsplit
      rw [hsource]
      exact hreached.isLineOf
    · exact absurd hread (ofTokensBy_ne_malformed label us f)

/-- **Line numbers are exact.** The line of every token, the end of the file included, is one
more than the line breaks in front of its text; and a source that is refused, by the scan or by
the assembly, is refused on one of its lines. -/
theorem line_numbers_exact (source : Text) :
    (∀ l, tokenize source = .ok l → ∀ us t vs, l.toList = us ++ t :: vs →
      ∃ after, source = Token.sourceAll us ++ t.leading.text ++ (t.text ++ after)
        ∧ t.line = 1 + lineBreaks (Token.sourceAll us ++ t.leading.text))
    ∧ (∀ f, tokenize source = .error f → IsLineOf source f.line)
    ∧ ∀ label f, SourceTree.parseBy label source = .error (.malformed f) →
        IsLineOf source f.line := by
  refine ⟨?_, fun f h => isLineOf_of_tokenize h, fun label f h => isLineOf_of_parseBy h⟩
  -- what is left is the line of a token
  intro l h us t vs hsplit
  obtain ⟨after, hsource, hreached⟩ := reached_of_tokenize h hsplit
  exact ⟨after, hsource, hreached.line_eq⟩

/-- The escape in the literal covers the first half of a pair, which still counts once; the
closing brace is refused on its own line. -/
theorem line_numbers_exact_pair :
    let source := "a\r\n\x22\x22\x22x\\\r\n\x22\x22\x22\rb".toList
    (∃ l, tokenize source = .ok l ∧ l.toList.map Token.line = [1, 2, 4, 4]
      ∧ ∀ us t vs, l.toList = us ++ t :: vs →
        t.line = 1 + lineBreaks (Token.sourceAll us ++ t.leading.text))
    ∧ ∃ f, SourceTree.parseBy "sequential" "a\r\n\x7d".toList = .error (.malformed f)
      ∧ f.line = 2 ∧ IsLineOf "a\r\n\x7d".toList f.line := by
  intro source
  have hlines : (tokenize source).map (fun l => l.toList.map Token.line) = .ok [1, 2, 4, 4] := by
    decide +kernel
  obtain ⟨l, hl, hline⟩ := exists_of_map_eq_ok hlines
  have hrefused : (SourceTree.parseBy "sequential" "a\r\n\x7d".toList).map (fun _ => ())
      = .error (.malformed ⟨.strayToken ['\x7d'], 2⟩) := by
    decide +kernel
  have hparse := error_of_map_eq_error hrefused
  refine ⟨⟨l, hl, hline, ?_⟩, _, hparse, rfl, (line_numbers_exact _).2.2 _ _ hparse⟩
  intro us t vs hsplit
  obtain ⟨_, _, htline⟩ := (line_numbers_exact source).1 l hl us t vs hsplit
  exact htline

end Unflag
