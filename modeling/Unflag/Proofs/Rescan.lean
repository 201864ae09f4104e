/-
Scanning the text of a resolved source.

The text of a resolved tree has been cut by no scan, and its tokens stand beside tokens
they did not stand beside before. Whether they are read again as they were is a question
about the places where lines of a block have gone, and each place gives two of them: what
the scan makes of a token in front of it, which looks ahead along its line, and what it
makes of the token behind it, which looks back at the token before.

With the lines of the blocks on lines of their own (`OwnLine`), a token in front reads the
same characters up to the end of its line, and nothing it is followed by matters unless the
line ends inside an escape. A token behind the place is read as before unless it starts with
a slash, which is an operator or a literal depending on what stands before it. `CleanSeam`
leaves these cases out, and a number sign, which could become an interpreter line.

Under the two every token is read again with its class and its text (`tokenize_render_resolve`).
Without the second the class can change, and the text with it.
-/
import Unflag.Edit
import Unflag.Proofs.Reading
import Unflag.Proofs.TokenFrame

set_option autoImplicit false

namespace Unflag

open Text

variable {flag : Text}

/-! ## Where lines have gone -/

/-- The second of two tokens in a row is the first one behind an opening line, or behind the
end, of a block on the flag. -/
def IsBehind (flag : Text) (a b : Occurrence) : Prop := a.IsMarkerOn flag ∧ ¬ b.IsConditionOn flag

instance (flag : Text) (a b : Occurrence) : Decidable (IsBehind flag a b) :=
  inferInstanceAs (Decidable (_ ∧ _))

/-- Of two tokens in a row: the lines of a block on the flag are lines of their own. -/
structure OwnLine (flag : Text) (a b : Occurrence) : Prop where
  /-- A directive starts its line, -/
  directive : b.IsDirectiveOn flag → b.token.startsLine = true
  /-- and nothing but another directive follows on its line. -/
  behind : IsBehind flag a b →
    b.token.startsLine = true ∨ b.token.kind = .directive ∨ b.token.kind = .endOfFile

/-- Of two tokens in a row: taking the lines of a block on the flag away does not change
what is read on either side. -/
structure CleanSeam (flag : Text) (a b : Occurrence) : Prop where
  /-- In front of a directive, no line ends in an escape. -/
  escape : b.IsDirectiveOn flag → (a.token.text ++ a.token.trailing.text).getLast? ≠ some '\\'
  /-- Behind one, no line starts with a slash -/
  slash : IsBehind flag a b → b.token.text.head? ≠ some '/'
  /-- or with a lone number sign, -/
  sign : IsBehind flag a b → b.token.text ≠ ['#']
  /-- and a directive starts a line of its own. -/
  line : IsBehind flag a b → b.token.kind = .directive → b.token.startsLine = true

theorem ownLine_iff {a b : Occurrence} : OwnLine flag a b ↔
    (b.IsDirectiveOn flag → b.token.startsLine = true)
      ∧ (IsBehind flag a b → b.token.startsLine = true ∨ b.token.kind = .directive
        ∨ b.token.kind = .endOfFile) :=
  ⟨fun h => ⟨h.directive, h.behind⟩, fun h => ⟨h.1, h.2⟩⟩

theorem cleanSeam_iff {a b : Occurrence} : CleanSeam flag a b ↔
    (b.IsDirectiveOn flag → (a.token.text ++ a.token.trailing.text).getLast? ≠ some '\\')
      ∧ (IsBehind flag a b → b.token.text.head? ≠ some '/')
      ∧ (IsBehind flag a b → b.token.text ≠ ['#'])
      ∧ (IsBehind flag a b → b.token.kind = .directive → b.token.startsLine = true) :=
  ⟨fun h => ⟨h.escape, h.slash, h.sign, h.line⟩, fun h => ⟨h.1, h.2.1, h.2.2.1, h.2.2.2⟩⟩

instance (flag : Text) (a b : Occurrence) : Decidable (OwnLine flag a b) :=
  decidable_of_iff _ ownLine_iff.symm

instance (flag : Text) (a b : Occurrence) : Decidable (CleanSeam flag a b) :=
  decidable_of_iff _ cleanSeam_iff.symm

/-- What is asked of two tokens in a row. -/
def Seam (flag : Text) (a b : Occurrence) : Prop := OwnLine flag a b ∧ CleanSeam flag a b

theorem isChain_seam {os : List Occurrence} (hown : os.IsChain (OwnLine flag))
    (hseam : os.IsChain (CleanSeam flag)) : os.IsChain (Seam flag) := by
  rw [List.isChain_iff_forall_rel_of_append_cons_cons] at *
  exact fun a b pre post heq => ⟨hown heq, hseam heq⟩

/-- Behind a line that goes, a token starts a line or is the end of the file. -/
theorem Seam.startsLine {a b : Occurrence} (h : Seam flag a b) (hbehind : IsBehind flag a b) :
    b.token.startsLine = true ∨ b.token.kind = .endOfFile := by
  rcases h.1.behind hbehind with hline | hdirective | heof
  · exact .inl hline
  · exact .inl (h.2.line hbehind hdirective)
  · exact .inr heof

/-- A kept token behind an opening line or the end of a block on the flag. -/
theorem isBehind_of_kept {a b : Occurrence} (ha : a.IsMarkerOn flag) (hb : ¬ b.IsDropped flag) :
    IsBehind flag a b :=
  ⟨ha, fun h => hb h.isDropped⟩

/-! ## Trivia in front of a body that moves up -/

/-- A line break less leaves trivia that can be passed over. -/
theorem Trivia.IsCut.dropDirectiveLine {atEnd : Prop} {ts : Trivia} (h : ts.IsCut atEnd)
    (hwhole : ∀ p ∈ ts, p.IsWhole) : ts.dropDirectiveLine.IsCut atEnd := by
  rcases dropDirectiveLine_cases hwhole with heq | ⟨p, r, rfl, hnewline, hrest⟩
  · rwa [heq]
  · cases h with
    | blanks _ _ hblank htail =>
        rcases hrest with heq | ⟨unit, n, hunit, htext, heq⟩
        · rwa [heq]
        · have hne : unit ≠ [] := by
            cases hkind : p.kind <;> rw [hkind] at hunit <;> cases hunit <;> simp
          rw [heq]
          refine .blanks _ ?_ (fun c hc => hblank c ?_) htail
          · rw [repeated_succ]
            exact List.append_ne_nil_of_left_ne_nil hne _
          · rw [htext, repeated_succ]
            exact List.mem_append_right _ hc
    | blockComment _ _ _ _ hkind _ => exact absurd hnewline (by simp [hkind])
    | lineComment _ _ _ _ _ hkind _ _ => exact absurd hnewline (by simp [hkind])
    | lastComment _ _ _ _ hkind _ => exact absurd hnewline (by simp [hkind])

/-- Gathered trivia can be passed over. -/
theorem Gathered.isCut {us : List Token} {ts : Trivia} (h : Gathered us ts)
    (hus : ∀ t ∈ us, t.leading.IsCut False ∧ ∀ p ∈ t.leading, p.IsWhole) : ts.IsCut False := by
  induction h with
  | done => exact .nil
  | skip t _ ih => exact ih (List.forall_mem_cons.mp hus).2
  | take t n _ ih =>
      obtain ⟨⟨hcut, hwhole⟩, hrest⟩ := List.forall_mem_cons.mp hus
      have hleading : (Trivia.dropDirectiveLine^[n] t.leading).IsCut False := by
        induction n with
        | zero => exact hcut
        | succ n ihn =>
            rw [Function.iterate_succ_apply']
            exact ihn.dropDirectiveLine (isWhole_iterate hwhole n)
      exact hleading.append (ih hrest)

/-! ## The tokens of a source, in their places -/

/-- What a scan says of a token in its place. -/
structure Occurrence.IsLaid (flag : Text) (o : Occurrence) : Prop where
  leading : o.token.leading.IsCut (o.token.kind = .endOfFile)
  whole : ∀ p ∈ o.token.leading, p.IsWhole
  inside : o.IsInside flag → o.token.kind ≠ .endOfFile

/-- Leading trivia that is empty or starts with a line break. -/
def Token.BreaksLine (t : Token) : Prop :=
  t.leading = [] ∨ ∃ p us, t.leading = p :: us ∧ p.kind.isNewline = true

theorem Occurrence.IsLaid.isCut {o : Occurrence} (h : o.IsLaid flag) (hinside : o.IsInside flag) :
    o.token.leading.IsCut False :=
  h.leading.mono (h.inside hinside)

/-- A line ends in front of a token that starts one. -/
theorem Occurrence.IsLaid.atLineEnd {o : Occurrence} (h : o.IsLaid flag)
    (hbreaks : o.token.BreaksLine) (hline : o.token.startsLine = true) (s : Text) :
    AtLineEnd (o.token.leading.text ++ s) := by
  rcases hbreaks with hnil | ⟨p, us, hcons, hp⟩
  · rw [Token.startsLine, hnil] at hline
    exact absurd hline (by simp [Trivia.hasNewline])
  · have hcut := h.leading
    rw [hcons] at hcut ⊢
    exact hcut.atLineEnd hp s

/-- A line ends in front of a directive of a block on the flag. -/
theorem Seam.atLineEnd {a d : Occurrence} (h : Seam flag a d) (hd : d.IsDirectiveOn flag)
    (hlaid : d.IsLaid flag) (hbreaks : d.token.BreaksLine) (s : Text) :
    AtLineEnd (d.token.leading.text ++ s) :=
  hlaid.atLineEnd hbreaks (h.1.directive hd) s

/-- What is asked of tokens in a row is asked of the last of a run and the one behind. -/
theorem exists_last_chain {R : Occurrence → Occurrence → Prop} {P : Occurrence → Prop}
    {d : Occurrence} {gap os : List Occurrence} (hlast : ∀ o ∈ (d :: gap).getLast?, P o)
    (hchain : (d :: gap ++ os).IsChain R) : ∃ e, P e ∧ (e :: os).IsChain R := by
  obtain ⟨init, e, heq⟩ : ∃ init e, d :: gap = init ++ [e] :=
    ⟨_, _, (List.dropLast_append_getLast (List.cons_ne_nil d gap)).symm⟩
  refine ⟨e, hlast e (by rw [heq]; simp), ?_⟩
  rw [heq, List.append_assoc] at hchain
  exact hchain.right_of_append

/-- No token of a run is the end of the file. -/
theorem IsGap.kind_ne {d : Occurrence} {gap os : List Occurrence} (h : IsGap flag d gap)
    (hlaid : ∀ o ∈ d :: gap ++ os, o.IsLaid flag) :
    ∀ t ∈ (d :: gap).map Occurrence.token, t.kind ≠ .endOfFile := by
  intro t ht
  obtain ⟨o, ho, rfl⟩ := List.mem_map.mp ht
  exact (hlaid o (List.mem_append_left _ ho)).inside (h.dropped o ho).isInside

/-- A run begins with a directive, which is no condition and not the end of the file. -/
theorem IsGap.startsLine {d : Occurrence} {gap : List Occurrence} (h : IsGap flag d gap)
    (hd : d.IsLaid flag) (hhead : ¬ d.IsConditionOn flag →
      d.token.startsLine = true ∨ d.token.kind = .endOfFile) : d.token.startsLine = true := by
  refine (hhead h.directive.not_isConditionOn).resolve_right ?_
  exact hd.inside (h.dropped d List.mem_cons_self).isInside

/-- The trivia gathered in front of a body that moves up can be passed over. -/
theorem IsGap.isCut_append {d o : Occurrence} {gap os : List Occurrence} {r : Trivia}
    (h : IsGap flag d gap) (hr : Gathered (gap.map Occurrence.token ++ [o.token]) r)
    (hinside : o.IsInside flag) (hlaid : ∀ u ∈ d :: gap ++ o :: os, u.IsLaid flag) :
    Trivia.IsCut False (d.token.leading ++ r) := by
  obtain ⟨hrun, hrest⟩ := List.forall_mem_append.mp hlaid
  have ho := hrest o List.mem_cons_self
  have hcut : ∀ u ∈ d :: gap, u.token.leading.IsCut False ∧ ∀ p ∈ u.token.leading, p.IsWhole :=
    fun u hu => ⟨(hrun u hu).isCut (h.dropped u hu).isInside, (hrun u hu).whole⟩
  obtain ⟨hd, hgap⟩ := List.forall_mem_cons.mp hcut
  refine hd.1.append (hr.isCut (List.forall_mem_append.mpr ⟨List.forall_mem_map.mpr hgap, ?_⟩))
  exact List.forall_mem_singleton.mpr ⟨ho.isCut hinside, ho.whole⟩

/-- Behind a run of dropped tokens: the last of the run, and the tokens of a source. -/
theorem IsGap.behind {d : Occurrence} {gap os : List Occurrence} {follows : Bool}
    (h : IsGap flag d gap) (hchain : (d :: gap ++ os).IsChain (Seam flag))
    (hlaid : ∀ o ∈ d :: gap ++ os, o.IsLaid flag)
    (hlex : Lexes follows ((d :: gap ++ os).map Occurrence.token)) :
    ∃ e follows', e.IsMarkerOn flag ∧ (e :: os).IsChain (Seam flag)
      ∧ Lexes follows' (os.map Occurrence.token) := by
  obtain ⟨e, he, hchain'⟩ := exists_last_chain h.closes hchain
  rw [List.map_append] at hlex
  obtain ⟨follows', hos⟩ := hlex.of_append (h.kind_ne hlaid)
  exact ⟨e, follows', he, hchain', hos⟩

/-- Of no tokens, none are left. -/
theorem Pruned.eq_nil {ts : List Token} (h : Pruned flag [] ts) : ts = [] := by
  generalize hos : ([] : List Occurrence) = os at h
  cases h with
  | done => rfl
  | keep => exact absurd hos (by simp)
  | drop => exact absurd hos (by simp)
  | vacate => exact absurd hos (by simp)
  | splice => exact absurd hos (by simp)

theorem sourceAll_cons (t : Token) (ts : List Token) :
    Token.sourceAll (t :: ts)
      = t.leading.text ++ (t.text ++ (t.trailing.text ++ Token.sourceAll ts)) := by
  simp [Token.sourceAll, Token.source]

theorem sourceAll_placeholder (leading : Trivia) (ts : List Token) :
    Token.sourceAll (.placeholder leading :: ts) = leading.text ++ Token.sourceAll ts := by
  rw [sourceAll_cons]
  rfl

/-! ## Texts that agree up to the end of a line -/

/-- Behind a line that goes the first token starts a line, is the end of the file, or goes
as well. -/
theorem Seam.head {e : Occurrence} {os : List Occurrence} (he : e.IsMarkerOn flag)
    (hchain : (e :: os).IsChain (Seam flag)) :
    ∀ o ∈ os.head?, ¬ o.IsConditionOn flag →
      o.token.startsLine = true ∨ o.token.kind = .endOfFile := by
  intro o ho hcondition
  obtain ⟨us, rfl⟩ := List.head?_eq_some_iff.mp ho
  exact hchain.rel.startsLine ⟨he, hcondition⟩

/-- **Where a line ends in the source, a line ends** in the text that is left. -/
theorem Pruned.atLineEnd {os : List Occurrence} {ts : List Token} (h : Pruned flag os ts)
    {follows : Bool} (hchain : os.IsChain (Seam flag)) (hlaid : ∀ o ∈ os, o.IsLaid flag)
    (hbreaks : ∀ o ∈ os, o.token.BreaksLine) (hlex : Lexes follows (os.map Occurrence.token))
    (hhead : ∀ o ∈ os.head?, ¬ o.IsConditionOn flag →
      o.token.startsLine = true ∨ o.token.kind = .endOfFile) :
    AtLineEnd (Token.sourceAll ts) := by
  induction h generalizing follows with
  | done => exact atLineEnd_nil
  | @keep os ts o hkept htail _ =>
      have ho := hlaid o List.mem_cons_self
      have hbreak := hbreaks o List.mem_cons_self
      rw [sourceAll_cons]
      rcases hhead o rfl fun h => hkept h.isDropped with hline | heof
      · exact ho.atLineEnd hbreak hline _
      · -- only the trivia of the end of the file is left
        obtain ⟨hnil, htext, htrailing⟩ := hlex.of_endOfFile heof
        obtain rfl := List.map_eq_nil_iff.mp hnil
        rw [htext, htrailing, htail.eq_nil]
        rcases hbreak with hnil | ⟨p, us, hcons, hp⟩
        · rw [hnil]
          exact atLineEnd_nil
        · have hcut := ho.leading
          rw [hcons] at hcut ⊢
          exact hcut.atLineEnd hp _
  | drop d gap hgap _ _ ih =>
      obtain ⟨e, follows', he, hchain', hlex'⟩ := hgap.behind hchain hlaid hlex
      exact ih hchain'.tail (fun o ho => hlaid o (List.mem_append_right _ ho))
        (fun o ho => hbreaks o (List.mem_append_right _ ho)) hlex' (Seam.head he hchain')
  | vacate d gap hgap _ _ =>
      have hd := hlaid d List.mem_cons_self
      rw [sourceAll_placeholder]
      exact hd.atLineEnd (hbreaks d List.mem_cons_self) (hgap.startsLine hd (hhead d rfl)) _
  | splice d gap o r hgap _ _ _ _ _ =>
      have hd := hlaid d List.mem_cons_self
      rw [sourceAll_cons, Token.leading_withLeading, Trivia.text_append, List.append_assoc]
      exact hd.atLineEnd (hbreaks d List.mem_cons_self) (hgap.startsLine hd (hhead d rfl)) _

/-- Two texts behind `w` that are the same, or the same up to the end of a line that does
not end in an escape. -/
def Agrees (w x y : Text) : Prop :=
  x = y ∨ ∃ u x' y', x = u ++ x' ∧ y = u ++ y' ∧ AtLineEnd x' ∧ AtLineEnd y'
    ∧ (w ++ u).getLast? ≠ some '\\'

theorem Agrees.endsTrailing {w x y : Text} (h : Agrees w x y) (hx : EndsTrailing x) :
    EndsTrailing y := by
  rcases h with rfl | ⟨u, x', y', rfl, rfl, hx', hy', _⟩
  · exact hx
  · cases u with
    | nil => exact fun c r hs => .inl (hy' c (by rw [List.nil_append] at hs; rw [hs]; rfl))
    | cons c u =>
        intro d r hs
        cases hs
        exact (hx c (u ++ x') rfl).imp_right (Lexeme.triviaAt_local hx' hy')

theorem Agrees.atLineEnd {w x y : Text} (h : Agrees w x y) (hx : AtLineEnd x) : AtLineEnd y := by
  rcases h with rfl | ⟨u, x', y', rfl, rfl, _, hy', _⟩
  · exact hx
  · cases u with
    | nil => exact hy'
    | cons c u => exact hx

/-- In front of a directive that goes, with any line end in its place. -/
theorem Seam.agrees {a d : Occurrence} (h : Seam flag a d) (hd : d.IsDirectiveOn flag)
    (hlaid : d.IsLaid flag) (hbreaks : d.token.BreaksLine) (us : List Token) {y : Text}
    (hy : AtLineEnd y) :
    Agrees (a.token.text ++ a.token.trailing.text) (Token.sourceAll (d.token :: us)) y := by
  refine .inr ⟨[], Token.sourceAll (d.token :: us), y, rfl, rfl, ?_, hy,
    by simpa using h.2.escape hd⟩
  rw [sourceAll_cons]
  exact h.atLineEnd hd hlaid hbreaks _

/-- **In front of a line that goes, nothing changes up to the end of the line.** -/
theorem Pruned.agrees {os : List Occurrence} {ts : List Token} (h : Pruned flag os ts)
    {a : Occurrence} {follows : Bool} (hchain : (a :: os).IsChain (Seam flag))
    (hlaid : ∀ o ∈ os, o.IsLaid flag) (hbreaks : ∀ o ∈ os, o.token.BreaksLine)
    (hlex : Lexes follows (os.map Occurrence.token)) :
    Agrees (a.token.text ++ a.token.trailing.text) (Token.sourceAll (os.map Occurrence.token))
      (Token.sourceAll ts) := by
  -- kept tokens are the same on both sides; the first run that goes starts at a line end
  induction h generalizing a follows with
  | done => exact .inl rfl
  | @keep os ts o hkept htail ih =>
      rw [List.map_cons] at hlex ⊢
      generalize hus : os.map Occurrence.token = us at hlex
      cases hlex with
      | eof _ _ _ _ _ =>
          obtain rfl := List.map_eq_nil_iff.mp hus
          rw [htail.eq_nil]
          exact .inl rfl
      | token _ c v htext _ _ _ _ _ htokens =>
          have hrest := ih hchain.tail (List.forall_mem_cons.mp hlaid).2
            (List.forall_mem_cons.mp hbreaks).2 (hus ▸ htokens)
          rw [hus] at hrest
          rcases hrest with heq | ⟨u, x, y, hx, hy, hx', hy', hescape⟩
          · exact .inl (by rw [sourceAll_cons, sourceAll_cons, heq])
          · refine .inr ⟨o.token.source ++ u, x, y, ?_, ?_, hx', hy', ?_⟩
            · rw [sourceAll_cons, hx]
              simp [Token.source]
            · rw [sourceAll_cons, hy]
              simp [Token.source]
            · have hne : o.token.text ++ o.token.trailing.text ++ u ≠ [] := by simp [htext]
              have hsplit : a.token.text ++ a.token.trailing.text ++ (o.token.source ++ u)
                  = (a.token.text ++ a.token.trailing.text ++ o.token.leading.text)
                    ++ (o.token.text ++ o.token.trailing.text ++ u) := by
                simp [Token.source]
              rwa [hsplit, List.getLast?_append_of_ne_nil _ hne]
  | drop d gap hgap _ htail _ =>
      have hseam : Seam flag a d := hchain.rel
      obtain ⟨e, follows', he, hchain', hlex'⟩ := hgap.behind hchain.tail hlaid hlex
      exact hseam.agrees hgap.directive (hlaid d List.mem_cons_self) (hbreaks d List.mem_cons_self)
        _ (htail.atLineEnd hchain'.tail (fun o ho => hlaid o (List.mem_append_right _ ho))
          (fun o ho => hbreaks o (List.mem_append_right _ ho)) hlex' (Seam.head he hchain'))
  | vacate d gap hgap htail _ =>
      have hseam : Seam flag a d := hchain.rel
      have hd := hlaid d List.mem_cons_self
      have hbreak := hbreaks d List.mem_cons_self
      refine hseam.agrees hgap.directive hd hbreak _ ?_
      rw [sourceAll_placeholder]
      exact hseam.atLineEnd hgap.directive hd hbreak _
  | splice d gap o r hgap hkept hinside hr htail _ =>
      have hseam : Seam flag a d := hchain.rel
      have hd := hlaid d List.mem_cons_self
      have hbreak := hbreaks d List.mem_cons_self
      refine hseam.agrees hgap.directive hd hbreak _ ?_
      rw [sourceAll_cons, Token.leading_withLeading, Trivia.text_append, List.append_assoc]
      exact hseam.atLineEnd hgap.directive hd hbreak _

/-! ## Reading what is left -/

/-- The words of a list of tokens, placeholders and the end of the file left out. -/
def words (ts : List Token) : List Word :=
  (ts.filter fun t => t.kind != .placeholder && t.kind != .endOfFile).map Token.word

theorem words_placeholder (leading : Trivia) (ts : List Token) :
    words (.placeholder leading :: ts) = words ts := rfl

theorem words_endOfFile {t : Token} (h : t.kind = .endOfFile) (ts : List Token) :
    words (t :: ts) = words ts := by
  rw [words, List.filter_cons_of_neg (by simp [h]), ← words]

theorem words_cons {t : Token} (h : t.kind ≠ .endOfFile ∧ t.kind ≠ .placeholder)
    (ts : List Token) : words (t :: ts) = t.word :: words ts := by
  rw [words, List.filter_cons_of_pos (by simp [h]), List.map_cons, ← words]

/-- Where no word is left, nothing tells whether one would start a line. -/
theorem Reads.of_nil {follows broken : Bool} {s : Text} (h : Reads follows broken s [])
    (broken' : Bool) : Reads follows broken' s [] := by
  generalize hws : ([] : List Word) = ws at h
  cases h with
  | done => exact .done _ _
  | word => exact absurd hws (by simp)

/-- **A token is read again** in front of a text that agrees with the one it was read in
front of. `follows` is what the scan knew in front of it, `follows'` what it knows now. -/
theorem reads_token {follows follows' broken : Bool} {t : Token} {c : Char} {v x y rest : Text}
    {ws : List Word} {leading : Trivia} (htext : t.text = c :: v)
    (hstart : Lexeme.triviaAt c (v ++ (t.trailing.text ++ x)) = .ok none)
    (hkind : ∀ last, Lexeme.operandFollows last = follows →
      Lexeme.tokenAt last c (v ++ (t.trailing.text ++ x)) = .ok (t.kind, v.length))
    (htrailing : t.trailing.IsCut (AtLineEnd x)) (hline : t.trailing.hasNewline = false)
    (hover : EndsTrailing x)
    (hagrees : Agrees (t.text ++ t.trailing.text) x y) (hfollows : follows' = follows ∨ c ≠ '/')
    (hleading : leading.IsCut False) (hskips : Skips y rest broken)
    (hreads : Reads (Lexeme.operandFollows (some t)) broken rest ws) :
    ∃ rest', Skips (leading.text ++ (t.text ++ (t.trailing.text ++ y))) rest' leading.hasNewline
      ∧ Reads follows' leading.hasNewline rest' ((t.withLeading leading).word :: ws) := by
  have hagain : Lexeme.triviaAt c (v ++ (t.trailing.text ++ y)) = .ok none
      ∧ ∀ last, Lexeme.operandFollows last = follows →
        Lexeme.tokenAt last c (v ++ (t.trailing.text ++ y)) = .ok (t.kind, v.length) := by
    rcases hagrees with rfl | ⟨u, x', y', rfl, rfl, hx', hy', hescape⟩
    · exact ⟨hstart, hkind⟩
    · have hsplit : ∀ z, v ++ (t.trailing.text ++ (u ++ z)) = (v ++ t.trailing.text ++ u) ++ z := by
        simp
      have hlength : v.length ≤ (v ++ t.trailing.text ++ u).length := by
        simp only [List.length_append]
        omega
      have hlast : (v ++ t.trailing.text ++ u).getLast? ≠ some '\\' := by
        intro hlast
        refine hescape ?_
        have hne : v ++ t.trailing.text ++ u ≠ [] := by
          intro hnil
          rw [hnil] at hlast
          exact absurd hlast (by simp)
        have hcons : t.text ++ t.trailing.text ++ u = [c] ++ (v ++ t.trailing.text ++ u) := by
          simp [htext]
        rw [hcons, List.getLast?_append_of_ne_nil _ hne, hlast]
      rw [hsplit] at hstart
      simp only [hsplit] at hkind ⊢
      exact ⟨Lexeme.triviaAt_local hx' hy' hstart,
        fun last h => Lexeme.tokenAt_local hx' hy' (hkind last h) hlength hlast⟩
  -- the trivia behind it ends in a comment only in front of a line end, which stays one
  obtain ⟨hstart', hkind'⟩ := hagain
  have hbehind : Skips (t.trailing.text ++ y) rest broken := by
    have hpass := htrailing.skips (fun hx => hagrees.atLineEnd hx) hskips
    rwa [hline, Bool.false_or] at hpass
  have hspaced : startsTrailing (t.trailing.text ++ y) = !t.trailing.isEmpty := by
    by_cases hnil : t.trailing = []
    · rw [hnil]
      exact (hagrees.endsTrailing hover).startsTrailing_eq
    · rw [htrailing.startsTrailing hnil hline]
      simp [hnil]
  refine ⟨t.text ++ (t.trailing.text ++ y), ?_, ?_⟩
  · have hpass := hleading.skips (fun h => h.elim) (Skips.stop c _ hstart')
    rwa [Bool.or_false, ← List.cons_append, ← htext] at hpass
  · have hword : (t.withLeading leading).word
        = ⟨t.kind, t.text, leading.hasNewline, startsTrailing (t.trailing.text ++ y)⟩ := by
      rw [hspaced]
      rfl
    rw [htext, hword]
    refine .word t htext (fun last hlast => ?_) hbehind hreads
    rcases hfollows with rfl | hslash
    · exact hkind' last hlast
    · -- what stands before it matters only to a slash
      obtain ⟨last', hlast'⟩ := exists_operandFollows follows
      rw [Lexeme.tokenAt_congr (.inr hslash), hkind' last' hlast']

/-- A kept token, with what is read behind it. -/
theorem reads_kept {os : List Occurrence} {ts : List Token} (htail : Pruned flag os ts)
    {o : Occurrence} {follows : Bool} (follows' : Bool) {leading : Trivia}
    (hchain : (o :: os).IsChain (Seam flag)) (hlaid : ∀ o ∈ os, o.IsLaid flag)
    (hbreaks : ∀ o ∈ os, o.token.BreaksLine)
    (hlex : Lexes follows (o.token :: os.map Occurrence.token)) (heof : o.token.kind ≠ .endOfFile)
    (hfollows : follows' = follows ∨ o.token.text.head? ≠ some '/')
    (hleading : leading.IsCut False)
    (hrest : Lexes (Lexeme.operandFollows (some o.token)) (os.map Occurrence.token) →
      ∃ rest broken, Skips (Token.sourceAll ts) rest broken
        ∧ Reads (Lexeme.operandFollows (some o.token)) broken rest (words ts)) :
    ∃ rest, Skips (Token.sourceAll (o.token.withLeading leading :: ts)) rest leading.hasNewline
      ∧ Reads follows' leading.hasNewline rest (words (o.token.withLeading leading :: ts)) := by
  generalize hus : os.map Occurrence.token = us at hlex
  cases hlex with
  | eof _ _ hkind _ _ => exact absurd hkind heof
  | token _ c v htext hstart hkind htrailing hline hover htokens =>
      rw [← hus] at hstart hkind htrailing hover htokens
      obtain ⟨rest, broken, hskips, hreads⟩ := hrest htokens
      have hagrees := htail.agrees hchain hlaid hbreaks htokens
      have hslash : follows' = follows ∨ c ≠ '/' := by simpa [htext] using hfollows
      obtain ⟨last, hlast⟩ := exists_operandFollows follows
      have hclass : (o.token.withLeading leading).kind ≠ .endOfFile
          ∧ (o.token.withLeading leading).kind ≠ .placeholder :=
        Lexeme.tokenAt_kind (hkind last hlast)
      rw [words_cons hclass, sourceAll_cons]
      exact reads_token htext hstart hkind htrailing hline hover hagrees hslash hleading hskips
        hreads

/-- **Every token that is left is read again.** `a` is the token in front, if there is one:
where it is in a line that goes, what the scan knows of the token before differs from what
it knew. -/
theorem Pruned.reads {os : List Occurrence} {ts : List Token} (h : Pruned flag os ts)
    {a : Option Occurrence} {follows follows' : Bool}
    (hchain : (a.toList ++ os).IsChain (Seam flag)) (hlaid : ∀ o ∈ os, o.IsLaid flag)
    (hbreaks : ∀ o ∈ os.tail, o.token.BreaksLine) (hlex : Lexes follows (os.map Occurrence.token))
    (hfollows : follows' = follows ∨ ∃ e ∈ a, e.IsMarkerOn flag) :
    ∃ rest broken, Skips (Token.sourceAll ts) rest broken ∧ Reads follows' broken rest (words ts)
      ∧ ((∃ e ∈ a, e.IsMarkerOn flag) → broken = true ∨ words ts = []) := by
  induction h generalizing a follows follows' with
  | done => cases hlex
  | @keep os ts o hkept htail ih =>
      have hchain' := hchain.right_of_append
      have ho := hlaid o List.mem_cons_self
      -- where the line in front has gone, the token starts a line and not with a slash
      have hseam : (∃ e ∈ a, e.IsMarkerOn flag) → ∃ e, Seam flag e o ∧ IsBehind flag e o := by
        rintro ⟨e, rfl, he⟩
        exact ⟨e, hchain.rel, isBehind_of_kept he hkept⟩
      rw [List.map_cons] at hlex
      by_cases heof : o.token.kind = .endOfFile
      · obtain ⟨hnil, htext, htrailing⟩ := hlex.of_endOfFile heof
        obtain rfl := List.map_eq_nil_iff.mp hnil
        have hnone : words [o.token] = [] := words_endOfFile heof []
        rw [htail.eq_nil, sourceAll_cons, htext, htrailing, hnone]
        exact ⟨[], _, ho.leading.skips (fun _ => atLineEnd_nil) .done, .done _ _,
          fun _ => .inr rfl⟩
      · have hkeep := reads_kept htail follows' hchain'
          (fun u hu => hlaid u (List.mem_cons_of_mem _ hu))
          hbreaks hlex heof (hfollows.imp_right fun h => by
            obtain ⟨e, hseam, hbehind⟩ := hseam h
            exact hseam.2.slash hbehind) (ho.leading.mono heof) fun htokens => by
          obtain ⟨rest, broken, hskips, hreads, _⟩ := ih (a := some o) hchain'
            (fun u hu => hlaid u (List.mem_cons_of_mem _ hu))
            (fun u hu => hbreaks u (List.mem_of_mem_tail hu)) htokens (.inl rfl)
          exact ⟨rest, broken, hskips, hreads⟩
        obtain ⟨rest, hskips, hreads⟩ := hkeep
        refine ⟨rest, _, hskips, hreads, fun h => .inl ?_⟩
        obtain ⟨e, hseam, hbehind⟩ := hseam h
        exact (hseam.startsLine hbehind).resolve_right heof
  | @drop os ts d gap hgap _ _ ih =>
      have hchain' := hchain.right_of_append
      obtain ⟨e, follows₁, he, hchain₁, hlex₁⟩ := hgap.behind hchain' hlaid hlex
      obtain ⟨rest, broken, hskips, hreads, hbroken⟩ := ih (a := some e) hchain₁
        (fun o ho => hlaid o (List.mem_append_right _ ho))
        (fun o ho => hbreaks o (List.mem_append_right _ (List.mem_of_mem_tail ho))) hlex₁
        (.inr ⟨e, rfl, he⟩)
      exact ⟨rest, broken, hskips, hreads, fun _ => hbroken ⟨e, rfl, he⟩⟩
  | @vacate os ts d gap hgap _ ih =>
      have hchain' := hchain.right_of_append
      obtain ⟨e, follows₁, he, hchain₁, hlex₁⟩ := hgap.behind hchain' hlaid hlex
      obtain ⟨rest, broken, hskips, hreads, hbroken⟩ := ih (a := some e) hchain₁
        (fun o ho => hlaid o (List.mem_append_right _ ho))
        (fun o ho => hbreaks o (List.mem_append_right _ (List.mem_of_mem_tail ho))) hlex₁
        (.inr ⟨e, rfl, he⟩)
      have hleading := (hlaid d List.mem_cons_self).isCut
        (hgap.dropped d List.mem_cons_self).isInside
      have hpass := hleading.skips (fun h => h.elim) hskips
      -- the trivia of the run adds a line break only in front of a word that has one
      rw [sourceAll_placeholder, words_placeholder]
      refine ⟨rest, _, hpass, ?_, fun _ => ?_⟩
      · rcases hbroken ⟨e, rfl, he⟩ with rfl | hnil
        · rwa [Bool.or_true]
        · rw [hnil] at hreads ⊢
          exact hreads.of_nil _
      · exact (hbroken ⟨e, rfl, he⟩).imp_left fun hb => by rw [hb, Bool.or_true]
  | @splice os ts d gap o r hgap hkept hinside hr htail ih =>
      have hchain' := hchain.right_of_append
      obtain ⟨e, follows₁, he, hchain₁, hlex₁⟩ := hgap.behind hchain' hlaid hlex
      have hbehind := isBehind_of_kept he hkept
      obtain ⟨ho, hos⟩ := List.forall_mem_cons.mp (List.forall_mem_append.mp hlaid).2
      have hbreaks' : ∀ u ∈ os, u.token.BreaksLine := fun u hu =>
        hbreaks u (List.mem_append_right _ (List.mem_cons_of_mem _ hu))
      have hleading := hgap.isCut_append hr hinside hlaid
      have hkeep := reads_kept htail follows' hchain₁.tail hos hbreaks' hlex₁ (ho.inside hinside)
        (.inr (hchain₁.rel.2.slash hbehind)) hleading fun htokens => by
          obtain ⟨rest, broken, hskips, hreads, _⟩ := ih (a := some o) hchain₁.tail hos
            (fun u hu => hbreaks' u (List.mem_of_mem_tail hu)) htokens (.inl rfl)
          exact ⟨rest, broken, hskips, hreads⟩
      obtain ⟨rest, hskips, hreads⟩ := hkeep
      refine ⟨rest, _, hskips, hreads, fun h => .inl ?_⟩
      obtain ⟨f, rfl, _⟩ := h
      have hline : d.token.leading.hasNewline = true := hchain.rel.1.directive hgap.directive
      rw [Trivia.hasNewline_append, hline, Bool.true_or]

/-! ## The start of the text -/

theorem isMarked_cons_cons {c d : Char} {s : Text} :
    IsMarked (c :: d :: s) ↔ c = '#' ∧ d = '!' := by
  simp [IsMarked, eq_comm]

theorem AtLineEnd.not_isMarked {s : Text} (h : AtLineEnd s) : ¬ IsMarked s := by
  rintro ⟨r, rfl⟩
  exact absurd (h '#' rfl) (by decide)

/-- An interpreter line stays one in front of the end of its line. -/
theorem Scan.shebang_append {line s : Text} (hline : IsMarked line)
    (hends : ∀ c ∈ line, isLineEnd c = false) (hs : AtLineEnd s) :
    Scan.shebang (line ++ s) = [⟨.shebang, line⟩] := by
  have hlength : Lexeme.lineLength (line ++ s) = line.length := by
    rw [Lexeme.lineLength, takeWhile_append_of_atLineEnd ⟨rfl, rfl⟩ hs,
      List.takeWhile_eq_self_iff.mpr]
    simpa using hends
  have hmark : "#!".toList.isPrefixOf (line ++ s) = true :=
    List.isPrefixOf_iff_prefix.mpr (hline.trans (List.prefix_append _ _))
  rw [Scan.shebang, if_pos hmark, hlength, List.take_left]

/-- Trivia starts with a blank or a slash. -/
theorem Trivia.IsCut.not_isMarked {atEnd : Prop} {ts : Trivia} (h : ts.IsCut atEnd) {s : Text}
    (hs : ts = [] → ¬ IsMarked s) : ¬ IsMarked (ts.text ++ s) := by
  have hpiece : ∀ {p : Trivia.Piece} {us : Trivia} {c : Char} {v : Text},
      p.text = c :: v → c ≠ '#' → ¬ IsMarked (Trivia.text (p :: us) ++ s) := by
    intro p us c v htext hc
    have hcons : Trivia.text (p :: us) ++ s = c :: (v ++ (Trivia.text us ++ s)) := by
      simp [Trivia.text, htext]
    rw [hcons]
    exact not_isMarked_of_head hc _
  cases h with
  | nil => exact hs rfl
  | blanks p hne hblank _ =>
      obtain ⟨c, v, htext⟩ := List.exists_cons_of_ne_nil hne
      refine hpiece htext ?_
      rintro rfl
      exact absurd (hblank '#' (by simp [htext])).1 (by decide)
  | blockComment p v htext _ _ _ => exact hpiece htext (by decide)
  | lineComment p q v htext _ _ _ _ => exact hpiece htext (by decide)
  | lastComment p v htext _ _ _ => exact hpiece htext (by decide)

/-- Two texts that agree behind some characters start alike. -/
theorem Agrees.isMarked {w x y : Text} (h : Agrees w x y) (hw : w ≠ []) (hy : IsMarked (w ++ y)) :
    IsMarked (w ++ x) := by
  rcases h with rfl | ⟨u, x', y', rfl, rfl, _, hy', _⟩
  · exact hy
  · rw [← List.append_assoc] at hy ⊢
    obtain ⟨c, z, hz⟩ := List.exists_cons_of_ne_nil (List.append_ne_nil_of_left_ne_nil hw u)
    rw [hz] at hy ⊢
    cases z with
    | nil =>
        cases y' with
        | nil => exact absurd hy (by simp [IsMarked])
        | cons d r =>
            have hd := (isMarked_cons_cons.mp hy).2
            exact absurd (hy' d rfl) (by rw [hd]; decide)
    | cons d z => exact isMarked_cons_cons.mpr (isMarked_cons_cons.mp hy)

/-- No token starts like an interpreter line, -/
theorem not_isMarked_of_tokenAt {last : Option Token} {c : Char} {v s : Text} {k : Token.Kind}
    (h : Lexeme.tokenAt last c (v ++ s) = .ok (k, v.length)) : ¬ IsMarked (c :: v) := by
  intro hmark
  cases v with
  | nil => exact absurd hmark (by simp [IsMarked])
  | cons d v =>
      obtain ⟨rfl, rfl⟩ := isMarked_cons_cons.mp hmark
      have hsign : Lexeme.tokenAt last '#' ('!' :: v ++ s) = .ok (.unknown, 0) := rfl
      rw [hsign] at h
      exact absurd (congrArg Prod.snd (Except.ok.inj h)) (by simp)

/-- and only a lone number sign can with what follows it. -/
theorem eq_sign_of_isMarked {last : Option Token} {c : Char} {v s y : Text} {k : Token.Kind}
    (h : Lexeme.tokenAt last c (v ++ s) = .ok (k, v.length)) (hmark : IsMarked (c :: v ++ y)) :
    c :: v = ['#'] := by
  cases v with
  | nil =>
      obtain rfl : c = '#' := by
        by_contra hc
        exact not_isMarked_of_head hc y hmark
      rfl
  | cons d v =>
      have hmark' : IsMarked (c :: d :: v) := isMarked_cons_cons.mpr (isMarked_cons_cons.mp hmark)
      exact absurd hmark' (not_isMarked_of_tokenAt h)

/-- **No interpreter line is made** of the first tokens that are left. -/
theorem Pruned.not_isMarked {o : Occurrence} {os : List Occurrence} {ts : List Token}
    (h : Pruned flag (o :: os) ts) {follows : Bool} (hchain : (o :: os).IsChain (Seam flag))
    (hlaid : ∀ u ∈ o :: os, u.IsLaid flag) (hbreaks : ∀ u ∈ os, u.token.BreaksLine)
    (hlex : Lexes follows ((o :: os).map Occurrence.token))
    (hsource : ¬ IsMarked (Token.sourceAll ((o :: os).map Occurrence.token))) :
    ¬ IsMarked (Token.sourceAll ts) := by
  -- behind a run of dropped tokens, the text that is left starts at the end of a line
  have hbehind : ∀ {d : Occurrence} {gap us : List Occurrence} {ts : List Token},
      o :: os = d :: gap ++ us → IsGap flag d gap → Pruned flag us ts →
      ¬ IsMarked (Token.sourceAll ts) := by
    intro d gap us ts heq hgap htail
    rw [heq] at hchain hlaid hlex
    have hus : ∀ u ∈ us, u.token.BreaksLine := by
      obtain ⟨rfl, rfl⟩ := List.cons_eq_cons.mp heq
      exact fun u hu => hbreaks u (List.mem_append_right _ hu)
    obtain ⟨e, follows', he, hchain', hlex'⟩ := hgap.behind hchain hlaid hlex
    exact (htail.atLineEnd hchain'.tail (fun u hu => hlaid u (List.mem_append_right _ hu)) hus hlex'
      (Seam.head he hchain')).not_isMarked
  generalize hoos : o :: os = us at h
  cases h with
  | done => exact absurd hoos (by simp)
  | @keep os' ts o' hkept htail =>
      obtain ⟨rfl, rfl⟩ := List.cons_eq_cons.mp hoos
      obtain ⟨ho, hos⟩ := List.forall_mem_cons.mp hlaid
      rw [List.map_cons, sourceAll_cons] at hsource
      rw [sourceAll_cons]
      -- with nothing in front, it would have started the source in the same way
      refine ho.leading.not_isMarked fun hnil hmark => hsource ?_
      rw [List.map_cons] at hlex
      generalize hus : os.map Occurrence.token = us at hlex
      cases hlex with
      | eof _ _ _ htext htrailing =>
          obtain rfl := List.map_eq_nil_iff.mp hus
          rw [htext, htrailing, htail.eq_nil] at hmark
          exact absurd hmark (by simp [IsMarked, Trivia.text, Token.sourceAll])
      | token _ c v htext _ _ _ _ _ htokens =>
          rw [← hus] at htokens
          have hagrees := htail.agrees hchain hos hbreaks htokens
          have hne : o.token.text ++ o.token.trailing.text ≠ [] := by simp [htext]
          rw [← List.append_assoc] at hmark
          rw [hnil, ← hus, ← List.append_assoc o.token.text]
          exact hagrees.isMarked hne hmark
  | drop d gap hgap _ htail => exact hbehind hoos hgap htail
  | vacate d gap hgap htail =>
      obtain ⟨rfl, _⟩ := List.cons_eq_cons.mp hoos
      rw [sourceAll_placeholder]
      exact (hlaid o List.mem_cons_self).leading.not_isMarked fun _ => hbehind hoos hgap htail
  | @splice us ts d gap b r hgap hkept hinside hr htail =>
      rw [hoos] at hchain hlaid hlex
      obtain ⟨e, follows', he, hchain', hlex'⟩ := hgap.behind hchain hlaid hlex
      rw [sourceAll_cons]
      refine (hgap.isCut_append hr hinside hlaid).not_isMarked fun _ hmark => ?_
      -- the token that moves up would have to be a lone number sign
      rw [List.map_cons] at hlex'
      generalize us.map Occurrence.token = vs at hlex'
      cases hlex' with
      | eof _ _ hkind _ _ => exact (hlaid b (by simp)).inside hinside hkind
      | token _ c v htext _ hkind _ _ _ _ =>
          obtain ⟨last, hlast⟩ := exists_operandFollows follows'
          have htext' : (b.token.withLeading (d.token.leading ++ r)).text = c :: v := htext
          rw [htext'] at hmark
          refine hchain'.rel.2.sign (isBehind_of_kept he hkept) ?_
          rw [htext, eq_sign_of_isMarked (hkind last hlast) hmark]

/-- A token in its place with other trivia in front. -/
def Occurrence.withLeading (o : Occurrence) (leading : Trivia) : Occurrence :=
  { o with token := o.token.withLeading leading }

theorem word_withLeading {t : Token} {a b : Trivia} (hleading : t.leading = a ++ b)
    (ha : a.hasNewline = false) : (t.withLeading b).word = t.word := by
  have hline : (t.withLeading b).startsLine = t.startsLine := by
    rw [Token.startsLine, Token.startsLine, hleading, Trivia.hasNewline_append, ha, Bool.false_or]
    rfl
  rw [Token.word, Token.word, hline]
  rfl

theorem words_cons_congr {t u : Token} (h : t.word = u.word) (ts : List Token) :
    words (t :: ts) = words (u :: ts) := by
  have hkind : t.kind = u.kind := congrArg Word.kind h
  rw [words, words, List.filter_cons, List.filter_cons, hkind]
  split
  · rw [List.map_cons, List.map_cons, h]
  · rfl

/-- Trivia in front of the first token, such as the interpreter line, stays in front of what
is left, or goes. -/
theorem Pruned.strip {o : Occurrence} {os : List Occurrence} {ts : List Token}
    (h : Pruned flag (o :: os) ts) {a b : Trivia} (hleading : o.token.leading = a ++ b)
    (ha : a.hasNewline = false) :
    ∃ ts', Pruned flag (o.withLeading b :: os) ts' ∧ words ts' = words ts
      ∧ (Token.sourceAll ts = a.text ++ Token.sourceAll ts'
        ∨ Token.sourceAll ts = Token.sourceAll ts') := by
  -- a run of dropped tokens is one with other trivia in front
  have hlast : ∀ {p : Place → Bool} {gap : List Occurrence},
      (∀ u ∈ (o :: gap).getLast?, u.IsAt flag p) →
        ∀ u ∈ (o.withLeading b :: gap).getLast?, u.IsAt flag p := by
    intro p gap h u hu
    cases gap with
    | nil => cases hu; exact h o rfl
    | cons e r => exact h u hu
  have hrun : ∀ {gap : List Occurrence}, IsGap flag o gap → IsGap flag (o.withLeading b) gap := by
    intro gap hgap
    obtain ⟨hdropped, hrest⟩ := List.forall_mem_cons.mp hgap.dropped
    exact ⟨hgap.directive, List.forall_mem_cons.mpr ⟨hdropped, hrest⟩, hlast hgap.closes⟩
  generalize hoos : o :: os = us at h
  cases h with
  | done => exact absurd hoos (by simp)
  | @keep os' ts o' hkept htail =>
      obtain ⟨rfl, rfl⟩ := List.cons_eq_cons.mp hoos
      refine ⟨o.token.withLeading b :: ts, .keep (o.withLeading b) hkept htail,
        words_cons_congr (word_withLeading hleading ha) ts, .inl ?_⟩
      rw [sourceAll_cons, sourceAll_cons, hleading, Trivia.text_append, List.append_assoc]
      rfl
  | @drop os' ts d gap hgap hends htail =>
      obtain ⟨rfl, rfl⟩ := List.cons_eq_cons.mp hoos
      exact ⟨ts, .drop _ gap (hrun hgap) (hlast hends) htail, rfl, .inr rfl⟩
  | @vacate os' ts d gap hgap htail =>
      obtain ⟨rfl, rfl⟩ := List.cons_eq_cons.mp hoos
      refine ⟨_, .vacate _ gap (hrun hgap) htail, rfl, .inl ?_⟩
      rw [sourceAll_placeholder, sourceAll_placeholder, hleading, Trivia.text_append,
        List.append_assoc]
      rfl
  | @splice os' ts d gap u r hgap hkept hinside hr htail =>
      obtain ⟨rfl, rfl⟩ := List.cons_eq_cons.mp hoos
      have hlead : (u.token.withLeading (o.token.leading ++ r)).leading = a ++ (b ++ r) := by
        rw [Token.leading_withLeading, hleading, List.append_assoc]
      refine ⟨_, .splice _ gap u r (hrun hgap) hkept hinside hr htail,
        words_cons_congr (word_withLeading hlead ha) ts, .inl ?_⟩
      rw [sourceAll_cons, sourceAll_cons, hlead, Trivia.text_append, List.append_assoc]
      rfl

/-- Behind the end of a line, trivia starts with a line break, or nothing is left. -/
theorem Scan.Scanned.of_atLineEnd {s rest : Text} {ts : Trivia} (h : Scanned false s ts rest)
    (hs : AtLineEnd s) :
    (ts = [] ∧ rest = []) ∨ ∃ p us, ts = p :: us ∧ p.kind.isNewline = true := by
  cases ts with
  | nil =>
      have hrest := h.eq_of_nil
      exact .inl ⟨rfl, h.eq_nil_of_atLineEnd (hrest ▸ hs)⟩
  | cons p us =>
      obtain ⟨c, r, n, hcons, _, hpiece⟩ := h.head
      refine .inr ⟨p, us, rfl, ?_⟩
      rw [Lexeme.isNewline_of_triviaAt hpiece]
      exact hs c (by rw [hcons]; rfl)

/-- The interpreter line of a source ends where a line ends, and holds no line end. -/
theorem Scan.shebang_of_isMarked {s : Text} (h : IsMarked s) :
    IsMarked (Scan.shebang s).text ∧ (∀ c ∈ (Scan.shebang s).text, isLineEnd c = false)
      ∧ AtLineEnd (s.drop (Scan.shebang s).text.length) := by
  have htext : (Scan.shebang s).text = s.take (Lexeme.lineLength s) := by
    rw [Scan.shebang, if_pos (List.isPrefixOf_iff_prefix.mpr h)]
    simp [Trivia.text]
  have hlength : (s.take (Lexeme.lineLength s)).length = Lexeme.lineLength s :=
    List.length_take_of_le (List.takeWhile_prefix _).length_le
  rw [htext, hlength]
  refine ⟨?_, Scan.isLineEnd_of_mem_take, ?_⟩
  · obtain ⟨r, rfl⟩ := h
    exact isMarked_cons_cons.mpr ⟨rfl, rfl⟩
  · intro c hc
    obtain ⟨r, hr⟩ := List.head?_eq_some_iff.mp hc
    exact Lexeme.isLineEnd_of_drop hr

/-! ## Resolved sources -/

/-- What is asked of two tokens in a row does not ask for the leading trivia of the first. -/
theorem Seam.withLeading {a b : Occurrence} (h : Seam flag a b) (leading : Trivia) :
    Seam flag (a.withLeading leading) b :=
  ⟨⟨h.1.directive, h.1.behind⟩, ⟨h.2.escape, h.2.slash, h.2.sign, h.2.line⟩⟩

/-- The tokens of a parsed source in their places, with `lead` in front of the first instead
of the interpreter line and `lead`, are laid out as a scan lays them. -/
structure IsLaidOut (flag source : Text) (o : Occurrence) (os : List Occurrence) (lead : Trivia)
    (rest : Text) : Prop where
  source_eq : Token.sourceAll ((o :: os).map Occurrence.token) = source
  leading : o.token.leading = Scan.shebang source ++ lead
  scanned : Scan.Scanned false (source.drop (Scan.shebang source).text.length) lead rest
  eof : rest = [] → o.token.kind = .endOfFile
  lexes : Lexes true ((o.withLeading lead :: os).map Occurrence.token)
  laid : ∀ u ∈ o.withLeading lead :: os, u.IsLaid flag
  breaks : ∀ u ∈ os, u.token.BreaksLine

/-- The tokens of the members of a parsed source: neither placeholders nor the end of the file. -/
theorem kind_of_mem_members {read : List Token → Except Refusal Condition} {source : Text}
    {l : Lexed} {tree : SourceTree} (hl : tokenize source = .ok l)
    (h : Assembly.assemble read l = .ok tree) :
    ∀ o ∈ occurrencesOfNodes [] tree.members,
      o.token.kind ≠ .endOfFile ∧ o.token.kind ≠ .placeholder := by
  intro o ho
  obtain ⟨_, _, _, hcut, _⟩ := cut_of_tokenize hl
  refine (hcut.of_mem_tokens o.token ?_).2
  have htree := (Assembly.tree_of_assemble h).1
  rw [SourceTree.tokens, Lexed.toList] at htree
  rw [← (List.append_inj' htree rfl).1, ← map_token_occurrencesOfNodes []]
  exact List.mem_map_of_mem ho

theorem exists_isLaidOut {read : List Token → Except Refusal Condition} {source : Text}
    {l : Lexed} {tree : SourceTree} (hl : tokenize source = .ok l)
    (h : Assembly.assemble read l = .ok tree) (flag : Text) :
    ∃ o os lead rest, tree.occurrences = o :: os ∧ IsLaidOut flag source o os lead rest := by
  obtain ⟨line, lead, rest, hcut, hscan⟩ := exists_cut_of_tokenize hl
  have htokens : tree.occurrences.map Occurrence.token = l.toList := by
    rw [tree.map_token_occurrences, (Assembly.tree_of_assemble h).1]
  obtain ⟨t, ts, hlist, hleading, heof⟩ := hcut.first
  obtain ⟨o, os, hos, rfl, rfl⟩ : ∃ o os, tree.occurrences = o :: os ∧ o.token = t
      ∧ os.map Occurrence.token = ts := by
    rw [hlist] at htokens
    exact List.map_eq_cons_iff.mp htokens
  have hwhole : ∀ u ∈ l.toList, ∀ p ∈ u.leading, p.IsWhole := by
    obtain ⟨_, _, _, hcut', hleads, _⟩ := cut_of_tokenize hl
    exact fun u hu => (hcut'.tokenScanned hleads u hu).leading.whole
  -- the end of the file stands in no block
  have hinside : ∀ u ∈ tree.occurrences, u.IsInside flag → u.token.kind ≠ .endOfFile := by
    refine List.forall_mem_append.mpr
      ⟨fun u hu _ => (kind_of_mem_members hl h u hu).1, List.forall_mem_singleton.mpr ?_⟩
    rintro ⟨a, ha, _⟩
    exact absurd ha List.not_mem_nil
  have hlex := hcut.lexes hscan.stops
  have hcutLeading := hcut.isCut_leading
  have hbreaks := hcut.starts_line
  have hsource := source_of_tokenize hl
  rw [Lexed.source] at hsource
  rw [hlist] at hlex hwhole hcutLeading hbreaks hsource
  rw [hos] at hinside
  refine ⟨o, os, lead, rest, hos, hsource, hleading, hscan, heof, hlex.withLeading lead, ?_,
    fun u hu => hbreaks _ (List.mem_map_of_mem hu)⟩
  refine List.forall_mem_cons.mpr ⟨⟨?_, ?_, hinside o List.mem_cons_self⟩, fun u hu => ⟨?_, ?_, ?_⟩⟩
  · exact hscan.isCut.mono fun hend => heof (hscan.eq_nil_of_atLineEnd hend)
  · intro p hp
    exact hwhole o.token List.mem_cons_self p (by rw [hleading]; exact List.mem_append_right _ hp)
  · exact hcutLeading _ (List.mem_map_of_mem hu)
  · exact hwhole _ (List.mem_cons_of_mem _ (List.mem_map_of_mem hu))
  · exact hinside u (List.mem_cons_of_mem _ hu)

namespace IsLaidOut

variable {source : Text} {o : Occurrence} {os : List Occurrence} {lead : Trivia} {rest : Text}

/-- Behind an interpreter line, what is left starts at the end of that line. -/
theorem atLineEnd (h : IsLaidOut flag source o os lead rest) (hmark : IsMarked source)
    {ts : List Token} (hpruned : Pruned flag (o.withLeading lead :: os) ts)
    (hchain : (o.withLeading lead :: os).IsChain (Seam flag)) : AtLineEnd (Token.sourceAll ts) := by
  have hstart := h.scanned.of_atLineEnd (Scan.shebang_of_isMarked hmark).2.2
  refine hpruned.atLineEnd hchain h.laid (List.forall_mem_cons.mpr ⟨?_, h.breaks⟩) h.lexes ?_
  · exact hstart.imp_left And.left
  · intro u hu _
    cases hu
    rcases hstart with ⟨_, hrest⟩ | ⟨p, us, hlead, hp⟩
    · exact .inr (h.eof hrest)
    · refine .inl (List.any_eq_true.mpr ⟨p, ?_, hp⟩)
      show p ∈ lead
      rw [hlead]
      exact List.mem_cons_self

/-- Without one, what is left starts like none. -/
theorem not_isMarked (h : IsLaidOut flag source o os lead rest) (hmark : ¬ IsMarked source)
    {ts : List Token} (hpruned : Pruned flag (o.withLeading lead :: os) ts)
    (hchain : (o.withLeading lead :: os).IsChain (Seam flag)) :
    ¬ IsMarked (Token.sourceAll ts) := by
  refine hpruned.not_isMarked hchain h.laid h.breaks h.lexes ?_
  have hself : o.withLeading lead = o := by
    have hleading := h.leading
    rw [Scan.shebang_of_not_isMarked hmark, List.nil_append] at hleading
    rw [← hleading]
    rfl
  rwa [hself, h.source_eq]

end IsLaidOut

/-- A token that is left is a token of the source, or a placeholder. -/
theorem Pruned.kind_of_mem {os : List Occurrence} {ts : List Token} (h : Pruned flag os ts) :
    ∀ t ∈ ts, t.kind = .placeholder ∨ ∃ o ∈ os, t.kind = o.token.kind := by
  induction h with
  | done => exact fun t ht => absurd ht List.not_mem_nil
  | keep o _ _ ih =>
      refine List.forall_mem_cons.mpr ⟨.inr ⟨o, List.mem_cons_self, rfl⟩, fun t ht => ?_⟩
      exact (ih t ht).imp_right fun ⟨u, hu, hkind⟩ => ⟨u, List.mem_cons_of_mem _ hu, hkind⟩
  | drop d gap _ _ _ ih =>
      exact fun t ht => (ih t ht).imp_right fun ⟨u, hu, hkind⟩ =>
        ⟨u, List.mem_append_right _ hu, hkind⟩
  | vacate d gap _ _ ih =>
      refine List.forall_mem_cons.mpr ⟨.inl rfl, fun t ht => ?_⟩
      exact (ih t ht).imp_right fun ⟨u, hu, hkind⟩ => ⟨u, List.mem_append_right _ hu, hkind⟩
  | splice d gap o r _ _ _ _ _ ih =>
      refine List.forall_mem_cons.mpr ⟨.inr ⟨o, by simp, rfl⟩, fun t ht => ?_⟩
      exact (ih t ht).imp_right fun ⟨u, hu, hkind⟩ =>
        ⟨u, List.mem_append_right _ (List.mem_cons_of_mem _ hu), hkind⟩

/-- The words of a resolved source are those of its members. -/
theorem words_resolve {read : List Token → Except Refusal Condition} {source : Text} {l : Lexed}
    {tree : SourceTree} (hl : tokenize source = .ok l) (h : Assembly.assemble read l = .ok tree) :
    words (tree.resolve flag).tokens
      = (solid (tokensOfNodes (resolveNodes flag tree.members))).map Token.word := by
  obtain ⟨_, _, _, hcut, _⟩ := cut_of_tokenize hl
  have heof : tree.eof = l.eof := by
    have htokens := (Assembly.tree_of_assemble h).1
    rw [SourceTree.tokens, Lexed.toList] at htokens
    exact List.singleton_inj.mp (List.append_inj' htokens rfl).2
  have hkinds : ∀ t ∈ tokensOfNodes (resolveNodes flag tree.members), t.kind ≠ .endOfFile := by
    intro t ht
    have hpruned := pruned_members_of_assemble h (fun t ht => (hcut.of_mem_tokens t ht).2.2) flag
    rcases hpruned.kind_of_mem t ht with hkind | ⟨o, ho, hkind⟩
    · rw [hkind]
      decide
    · rw [hkind]
      exact (kind_of_mem_members hl h o ho).1
  have hlast : words [(tree.resolve flag).eof] = [] :=
    words_endOfFile (by rw [SourceTree.resolve, heof]; exact hcut.eof_eq.1) []
  have hmembers : words (tree.resolve flag).tokens
      = words (tokensOfNodes (resolveNodes flag tree.members))
        ++ words [(tree.resolve flag).eof] := by
    rw [words, words, words, ← List.map_append, ← List.filter_append]
    rfl
  rw [hmembers, hlast, List.append_nil, words, solid]
  congr 1
  refine List.filter_congr fun t ht => ?_
  simp [hkinds t ht]

/-- **The text of a resolved source is read as its tokens.** -/
theorem tokenize_words {read : List Token → Except Refusal Condition} {source : Text} {l : Lexed}
    {tree : SourceTree} (hl : tokenize source = .ok l) (h : Assembly.assemble read l = .ok tree)
    (hchain : tree.occurrences.IsChain (Seam flag)) :
    ∃ l', tokenize (tree.resolve flag).render = .ok l'
      ∧ l'.tokens.map Token.word = words (tree.resolve flag).tokens := by
  obtain ⟨o, os, lead, rest, hos, hlaid⟩ := exists_isLaidOut hl h flag
  have hpruned : Pruned flag (o :: os) (tree.resolve flag).tokens := by
    obtain ⟨_, _, _, hcut, _⟩ := cut_of_tokenize hl
    rw [← hos]
    exact pruned_of_assemble h (fun t ht => (hcut.of_mem_tokens t ht).2.2) flag
  obtain ⟨ts, hpruned', hwords, htext⟩ := hpruned.strip hlaid.leading (hasNewline_shebang source)
  rw [hos] at hchain
  have hchain' : (o.withLeading lead :: os).IsChain (Seam flag) :=
    hchain.imp_head fun hseam => hseam.withLeading lead
  -- behind the interpreter line, the text is read as a text of its own
  obtain ⟨rest', broken, hskips, hreads, _⟩ := hpruned'.reads (a := none) hchain' hlaid.laid
    hlaid.breaks hlaid.lexes (.inl rfl)
  -- the interpreter line, if what is left starts with one
  obtain ⟨first, htext, hfirst⟩ : ∃ first,
      Token.sourceAll (tree.resolve flag).tokens = first ++ Token.sourceAll ts
        ∧ (Scan.shebang (first ++ Token.sourceAll ts)).text = first := by
    by_cases hmark : IsMarked source
    · obtain ⟨hmarked, hends, _⟩ := Scan.shebang_of_isMarked hmark
      have hend := hlaid.atLineEnd hmark hpruned' hchain'
      rcases htext with htext | htext
      · refine ⟨_, htext, ?_⟩
        rw [Scan.shebang_append hmarked hends hend]
        simp [Trivia.text]
      · refine ⟨[], htext, ?_⟩
        rw [List.nil_append, Scan.shebang_of_not_isMarked hend.not_isMarked]
        rfl
    · rw [Scan.shebang_of_not_isMarked hmark] at htext
      refine ⟨[], htext.elim id id, ?_⟩
      rw [List.nil_append, Scan.shebang_of_not_isMarked (hlaid.not_isMarked hmark hpruned' hchain')]
      rfl
  rw [← hwords, SourceTree.render, htext]
  exact tokenize_of_reads hfirst hskips hreads

/-- The text that is handed on is the text of the resolved tree. -/
theorem Edit.exists_of_rewritten {g : Grouping} {source text : Text} {isEmpty : Bool}
    (h : Edit.ofSource g flag source = .ok (.rewritten text isEmpty)) :
    ∃ tree again, SourceTree.parse g source = .ok tree ∧ text = (tree.resolve flag).render
      ∧ SourceTree.parse g text = .ok again := by
  unfold Edit.ofSource Edit.ofSourceWith at h
  split at h
  · exact absurd h (by simp)
  next tree htree =>
  split at h
  · dsimp only at h
    split at h
    · exact absurd h (by simp)
    · exact absurd h (by simp)
    · next again hagain =>
      obtain ⟨rfl, _⟩ := Edit.rewritten.inj (Except.ok.inj h)
      exact ⟨tree, again, htree, rfl, hagain⟩
  · exact absurd h (by simp)

/-- What the scan says of a token: its class and its text. -/
def Token.lexeme (t : Token) : Token.Kind × Text := (t.kind, t.text)

/-- **A rewritten text is scanned as the tree it was written from.** Where the lines of the
blocks on the flag are lines of their own and taking them away leaves a clean seam, every
token of the resolved tree is found again in its text with its class and its text, and no
other token is. -/
theorem tokenize_render_resolve {g : Grouping} {source : Text} {tree : SourceTree}
    (h : SourceTree.parse g source = .ok tree) {flag : Text}
    (hown : tree.occurrences.IsChain (OwnLine flag))
    (hseam : tree.occurrences.IsChain (CleanSeam flag)) :
    (∃ l, tokenize (tree.resolve flag).render = .ok l
      ∧ l.tokens.map Token.lexeme
        = (solid (tokensOfNodes (tree.resolve flag).members)).map Token.lexeme)
    ∧ ∀ text isEmpty, Edit.ofSource g flag source = .ok (.rewritten text isEmpty) →
        text = (tree.resolve flag).render := by
  obtain ⟨l, hl, hassemble⟩ := exists_of_parse h
  refine ⟨?_, fun text isEmpty hedit => ?_⟩
  · obtain ⟨l', hl', hwords⟩ := tokenize_words hl hassemble (isChain_seam hown hseam)
    refine ⟨l', hl', ?_⟩
    rw [words_resolve hl hassemble] at hwords
    have hlexemes := congrArg (List.map fun w : Word => (w.kind, w.text)) hwords
    rwa [List.map_map, List.map_map] at hlexemes
  · obtain ⟨tree', _, htree', htext, _⟩ := Edit.exists_of_rewritten hedit
    obtain rfl : tree = tree' := Except.ok.inj (h.symm.trans htree')
    exact htext

theorem tokenize_render_resolve_nested :
    ∃ source tree l,
      source = "#!sh\nx // c\n#if B\n#if A\n\n#if !A\ny\n#else\n\nz = a / \"b\" // z\n#endif\n#else\nw\n#endif\n#endif\n".toList
      ∧ SourceTree.parse .swift source = .ok tree
      ∧ tree.occurrences.IsChain (OwnLine "A".toList)
      ∧ tree.occurrences.IsChain (CleanSeam "A".toList)
      ∧ (tree.resolve "A".toList).render
        = "#!sh\nx // c\n#if B\n\n\nz = a / \"b\" // z\n#endif\n".toList
      ∧ tokenize (tree.resolve "A".toList).render = .ok l
      ∧ l.tokens.map Token.lexeme
        = (solid (tokensOfNodes (tree.resolve "A".toList).members)).map Token.lexeme := by
  have hparse : (SourceTree.parse .swift
      "#!sh\nx // c\n#if B\n#if A\n\n#if !A\ny\n#else\n\nz = a / \"b\" // z\n#endif\n#else\nw\n#endif\n#endif\n".toList).toOption.any
        (fun tree => decide (tree.occurrences.IsChain (OwnLine "A".toList)
          ∧ tree.occurrences.IsChain (CleanSeam "A".toList)
          ∧ (tree.resolve "A".toList).render
            = "#!sh\nx // c\n#if B\n\n\nz = a / \"b\" // z\n#endif\n".toList)) = true := by
    decide +kernel
  obtain ⟨tree, htree, hshape⟩ := exists_of_parse_any hparse
  obtain ⟨hown, hseam, hrender⟩ := of_decide_eq_true hshape
  obtain ⟨⟨l, hl, hlexemes⟩, _⟩ := tokenize_render_resolve htree hown hseam
  exact ⟨_, tree, l, rfl, htree, hown, hseam, hrender, hl, hlexemes⟩

/-- Own lines are not enough. Behind the name of a condition a slash divides; with the line
of the condition gone, the slash starts a literal. -/
theorem tokenize_render_resolve_slash :
    ∃ source text tree l, source = "#if A\n/a/b\n#endif\n".toList
      ∧ SourceTree.parse .sequential source = .ok tree
      ∧ tree.occurrences.IsChain (OwnLine "A".toList)
      ∧ Edit.ofSource .sequential "A".toList source = .ok (.rewritten text true)
      ∧ tokenize text = .ok l
      ∧ (solid (tokensOfNodes (tree.resolve "A".toList).members)).map Token.lexeme
        = [(.operator, ['/']), (.identifier, ['a']), (.operator, ['/']), (.identifier, ['b'])]
      ∧ l.tokens.map Token.lexeme = [(.regex, ['/', 'a', '/']), (.identifier, ['b'])] := by
  have hparse : (SourceTree.parse .sequential "#if A\n/a/b\n#endif\n".toList).toOption.any
      (fun tree => decide (tree.occurrences.IsChain (OwnLine "A".toList)
        ∧ (solid (tokensOfNodes (tree.resolve "A".toList).members)).map Token.lexeme
          = [(.operator, ['/']), (.identifier, ['a']), (.operator, ['/']), (.identifier, ['b'])]))
      = true := by
    decide +kernel
  obtain ⟨tree, htree, hshape⟩ := exists_of_parse_any hparse
  obtain ⟨hown, hlexemes⟩ := of_decide_eq_true hshape
  have hedit : Edit.ofSource .sequential "A".toList "#if A\n/a/b\n#endif\n".toList
      = .ok (.rewritten "/a/b\n".toList true) := by decide +kernel
  have hscan : (tokenize "/a/b\n".toList).toOption.any (fun l => decide
      (l.tokens.map Token.lexeme = [(.regex, ['/', 'a', '/']), (.identifier, ['b'])])) = true := by
    decide +kernel
  cases hl : tokenize "/a/b\n".toList with
  | error f =>
      rw [hl] at hscan
      exact absurd hscan (by simp [Except.toOption])
  | ok l =>
      rw [hl] at hscan
      exact ⟨_, _, tree, l, rfl, htree, hown, hedit, hl, hlexemes, of_decide_eq_true hscan⟩

end Unflag
