/-
The lines of a resolved source.

A resolution takes the line break of a directive line along with the directive, at every
level and for every block at the top of a body that moves up, and the line break that is
left in front of the body is the one in front of its block. Two things could go wrong: a
token could end up on the line of the token in front of it, and a line comment in front of
it would then swallow it.

The first never happens where the lines of the blocks are lines of their own
(`Pruned.forall₂_startsLine`). For the second a list of tokens is read piece by piece, with
one bit to remember: whether a comment is open that fills its line (`Closes`). In a scanned
source a comment is open behind a token only in front of one that starts a line, and a
resolution preserves this unless a directive stands behind the end of a block on its line.
-/
import Unflag.Proofs.Rescan

set_option autoImplicit false

namespace Unflag

variable {flag : Text}

/-! ## Comments that are open -/

/-- Whether a comment that fills its line is open behind a piece, given whether one is open
in front of it. A line break closes it. -/
def Trivia.Kind.opens (o : Bool) (k : Trivia.Kind) : Bool := !k.isNewline && (o || k.fillsLine)

/-- The same behind trivia. -/
def Trivia.opens (o : Bool) (ts : Trivia) : Bool := ts.foldl (fun o p => p.kind.opens o) o

namespace Trivia

theorem Kind.not_isNewline_of_fillsLine {k : Kind} (h : k.fillsLine = true) :
    k.isNewline = false := by
  cases k <;> first | rfl | exact absurd h (by decide)

theorem Kind.opens_eq_true_iff {o : Bool} {k : Kind} :
    k.opens o = true ↔ k.isNewline = false ∧ (o = true ∨ k.fillsLine = true) := by
  simp [Kind.opens]

theorem opens_cons (o : Bool) (p : Piece) (ts : Trivia) :
    opens o (p :: ts) = opens (p.kind.opens o) ts := rfl

theorem opens_append (o : Bool) (a b : Trivia) : opens o (a ++ b) = opens (opens o a) b :=
  List.foldl_append

/-- What is open in front stays open where no line ends. -/
theorem opens_eq (o : Bool) (ts : Trivia) :
    opens o ts = (opens false ts || (o && !ts.hasNewline)) := by
  induction ts generalizing o with
  | nil => simp [opens, hasNewline]
  | cons p r ih =>
      have hnewline : hasNewline (p :: r) = (p.kind.isNewline || hasNewline r) := rfl
      rw [opens_cons, opens_cons, ih (p.kind.opens o), ih (p.kind.opens false), hnewline,
        Kind.opens, Kind.opens]
      cases p.kind.isNewline <;> cases o <;> cases p.kind.fillsLine <;> simp

/-- A line break less at the start closes no comment less. -/
theorem opens_dropDirectiveLine (ts : Trivia) :
    opens false ts.dropDirectiveLine = opens false ts := by
  cases ts with
  | nil => rfl
  | cons p r =>
      rw [dropDirectiveLine]
      by_cases hnewline : p.kind.isNewline = true
      · have hskip : ∀ q : Piece, q.kind = p.kind → opens false (q :: r) = opens false r := by
          intro q hq
          rw [opens_cons, Kind.opens, hq, hnewline]
          rfl
        rw [if_pos hnewline, hskip p rfl]
        split
        · cases hless : p.withCount? (p.count - 1) with
          | none => rfl
          | some q =>
              obtain ⟨unit, _, rfl⟩ := Option.map_eq_some_iff.mp hless
              exact hskip _ rfl
        · rfl
      · rw [if_neg hnewline]

/-- Trivia that is cut by a scan leaves no comment open unless the comment is its last piece. -/
theorem opens_of_isChain {ts : Trivia} (hchain : ts.IsChain Piece.MayPrecede)
    (hlast : ∀ p ∈ ts.getLast?, p.kind.fillsLine = false) : opens false ts = false := by
  -- with a comment open in front, the first piece would have to be a line break
  suffices h : ∀ o, (o = true → ∃ p ∈ ts.head?, p.kind.isNewline = true) → opens o ts = false from
    h false (by simp)
  induction ts with
  | nil =>
      intro o ho
      cases o with
      | false => rfl
      | true => exact absurd (ho rfl) (by simp)
  | cons p r ih =>
      intro o ho
      rw [opens_cons]
      have hrest : ∀ q ∈ r.getLast?, q.kind.fillsLine = false := by
        intro q hq
        refine hlast q ?_
        rw [List.getLast?_cons, Option.mem_def.mp hq]
        rfl
      refine ih hchain.tail hrest _ fun hopen => ?_
      obtain ⟨hnewline, hopens⟩ := Kind.opens_eq_true_iff.mp hopen
      have hfills : p.kind.fillsLine = true := by
        refine hopens.resolve_left fun h => ?_
        obtain ⟨q, hq, hline⟩ := ho h
        obtain rfl : p = q := by simpa using hq
        rw [hnewline] at hline
        exact absurd hline (by simp)
      cases r with
      | nil => exact absurd hfills (by simp [hlast p rfl])
      | cons q us => exact ⟨q, rfl, hchain.rel.2 hfills⟩

end Trivia

/-- Gathered trivia leaves no comment open. -/
theorem Gathered.opens_eq {us : List Token} {ts : Trivia} (h : Gathered us ts)
    (hus : ∀ t ∈ us, t.leading.opens false = false) : ts.opens false = false := by
  induction h with
  | done => rfl
  | skip t _ ih => exact ih (List.forall_mem_cons.mp hus).2
  | take t n _ ih =>
      obtain ⟨ht, hrest⟩ := List.forall_mem_cons.mp hus
      have hleading : (Trivia.dropDirectiveLine^[n] t.leading).opens false = false := by
        induction n with
        | zero => exact ht
        | succ n ihn => rwa [Function.iterate_succ_apply', Trivia.opens_dropDirectiveLine]
      rw [Trivia.opens_append, hleading]
      exact ih hrest

/-! ## Reading tokens piece by piece -/

/-- A piece of trivia or the text of a token. -/
inductive Mark where
  | piece (p : Trivia.Piece)
  | word (t : Token)

/-- A token with its trivia, piece by piece. -/
def Token.marks (t : Token) : List Mark :=
  t.leading.map Mark.piece ++ .word t :: t.trailing.map Mark.piece

/-- **No token is swallowed.** Between a comment that fills its line, or the interpreter line,
and any later token there is a line break, the end of the file apart. -/
def CommentsEnd (ms : List Mark) : Prop :=
  ∀ before p between t after, ms = before ++ .piece p :: (between ++ .word t :: after) →
    p.kind.fillsLine = true → t.kind ≠ .endOfFile →
      ∃ q, Mark.piece q ∈ between ∧ q.kind.isNewline = true

/-- No token stands behind an open comment; the bit says whether one is open in front. -/
def Closes : Bool → List Mark → Prop
  | _, [] => True
  | o, .piece p :: ms => Closes (p.kind.opens o) ms
  | o, .word t :: ms => (t.kind = .endOfFile ∨ o = false) ∧ Closes o ms

instance decidableCloses : (o : Bool) → (ms : List Mark) → Decidable (Closes o ms)
  | _, [] => inferInstanceAs (Decidable True)
  | o, .piece p :: ms => decidableCloses (p.kind.opens o) ms
  | o, .word t :: ms =>
    haveI := decidableCloses o ms
    inferInstanceAs (Decidable ((t.kind = .endOfFile ∨ o = false) ∧ Closes o ms))

theorem closes_pieces (o : Bool) (us : Trivia) (ms : List Mark) :
    Closes o (us.map Mark.piece ++ ms) ↔ Closes (us.opens o) ms := by
  induction us generalizing o with
  | nil => exact Iff.rfl
  | cons p r ih => exact ih (p.kind.opens o)

theorem closes_marks (o : Bool) (t : Token) (ms : List Mark) :
    Closes o (t.marks ++ ms) ↔ (t.kind = .endOfFile ∨ t.leading.opens o = false)
      ∧ Closes (t.trailing.opens (t.leading.opens o)) ms := by
  rw [Token.marks, List.append_assoc, closes_pieces, List.cons_append, Closes, closes_pieces]

/-- With a comment open in front, a line ends in front of every token. -/
theorem Closes.newline {ms : List Mark} (h : Closes true ms) {between after : List Mark} {t : Token}
    (heq : ms = between ++ .word t :: after) (ht : t.kind ≠ .endOfFile) :
    ∃ q, Mark.piece q ∈ between ∧ q.kind.isNewline = true := by
  induction between generalizing ms with
  | nil =>
      subst heq
      exact absurd (h.1.resolve_left ht) (by simp)
  | cons m r ih =>
      subst heq
      cases m with
      | piece p =>
          by_cases hnewline : p.kind.isNewline = true
          · exact ⟨p, List.mem_cons_self, hnewline⟩
          · have hopen : p.kind.opens true = true := by simp [Trivia.Kind.opens, hnewline]
            have hrest : Closes (p.kind.opens true) (r ++ .word t :: after) := h
            rw [hopen] at hrest
            obtain ⟨q, hq, hline⟩ := ih hrest rfl
            exact ⟨q, List.mem_cons_of_mem _ hq, hline⟩
      | word u =>
          obtain ⟨q, hq, hline⟩ := ih h.2 rfl
          exact ⟨q, List.mem_cons_of_mem _ hq, hline⟩

/-- A comment that is open at the start can be written there. -/
theorem closes_of_commentsEnd {ms : List Mark} {o : Bool} (h : CommentsEnd ms)
    (ho : o = true → ∀ between t after, ms = between ++ .word t :: after → t.kind ≠ .endOfFile →
      ∃ q, Mark.piece q ∈ between ∧ q.kind.isNewline = true) : Closes o ms := by
  induction ms generalizing o with
  | nil => trivial
  | cons m r ih =>
      have hrest : CommentsEnd r := by
        intro before p between t after heq
        exact h (m :: before) p between t after (by rw [heq, List.cons_append])
      cases m with
      | piece p =>
          refine ih hrest fun hopen between t after heq ht => ?_
          obtain ⟨hnewline, hopens⟩ := Trivia.Kind.opens_eq_true_iff.mp hopen
          rcases hopens with htrue | hfills
          · obtain ⟨q, hq, hline⟩ := ho htrue (.piece p :: between) t after (by rw [heq]; rfl) ht
            rcases List.mem_cons.mp hq with heq' | hq
            · obtain rfl := Mark.piece.inj heq'
              exact absurd hline (by simp [hnewline])
            · exact ⟨q, hq, hline⟩
          · exact h [] p between t after (by rw [heq]; rfl) hfills ht
      | word u =>
          refine ⟨?_, ih hrest fun htrue between t after heq ht => ?_⟩
          · by_contra hopen
            obtain ⟨hkind, htrue⟩ : u.kind ≠ .endOfFile ∧ o = true := by simpa using hopen
            obtain ⟨q, hq, _⟩ := ho htrue [] u r rfl hkind
            exact absurd hq List.not_mem_nil
          · obtain ⟨q, hq, hline⟩ := ho htrue (.word u :: between) t after (by rw [heq]; rfl) ht
            rcases List.mem_cons.mp hq with heq' | hq
            · exact absurd heq' (by simp)
            · exact ⟨q, hq, hline⟩

/-- **One bit is enough** to see that no token is swallowed. -/
theorem commentsEnd_iff_closes {ms : List Mark} : CommentsEnd ms ↔ Closes false ms := by
  refine ⟨fun h => closes_of_commentsEnd h (by simp), fun h before => ?_⟩
  intro p between t after heq hfills ht
  -- the bit is set behind the comment, whatever it was in front of it
  suffices hopen : ∀ o ms, Closes o (before ++ .piece p :: ms) → Closes true ms from
    (hopen false _ (heq ▸ h)).newline rfl ht
  clear h heq
  intro o ms h
  induction before generalizing o with
  | nil =>
      have hopen : p.kind.opens o = true := by
        simp [Trivia.Kind.opens, hfills, Trivia.Kind.not_isNewline_of_fillsLine hfills]
      have hrest : Closes (p.kind.opens o) ms := h
      rwa [hopen] at hrest
  | cons m r ih =>
      cases m with
      | piece q => exact ih _ h
      | word u => exact ih o h.2

instance (ms : List Mark) : Decidable (CommentsEnd ms) :=
  decidable_of_iff _ commentsEnd_iff_closes.symm

/-! ## The tokens of a source -/

/-- Of two tokens of a source in a row: the first is not the end of the file, and where it
leaves a comment open the line ends in front of the second. -/
def Token.EndsBefore (a b : Token) : Prop :=
  a.kind ≠ .endOfFile
    ∧ (a.trailing.opens false = true → b.startsLine = true ∨ b.kind = .endOfFile)

namespace Scan

/-- A scan along a line that leaves a comment open has come to the end of the line. -/
theorem Scanned.isLineEnd_of_opens {s rest : Text} {ts : Trivia} (h : Scanned true s ts rest)
    (hopen : ts.opens false = true) : ∀ c r, rest = c :: r → Text.isLineEnd c = true := by
  induction h with
  | done => exact absurd hopen (by simp [Trivia.opens])
  | stop => exact absurd hopen (by simp [Trivia.opens])
  | @piece c r k n ts rest hline hpiece htail ih =>
      rw [Trivia.opens_cons] at hopen
      by_cases hfills : k.fillsLine = true
      · -- the line ends behind a comment, so the scan has gone no further
        cases ts with
        | nil =>
            intro d q hrest
            exact Lexeme.lineEnd_of_triviaAt hpiece hfills (htail.eq_of_nil ▸ hrest)
        | cons p us =>
            obtain ⟨d, q, m, hdrop, hsame, _⟩ := htail.head
            have hend := Lexeme.lineEnd_of_triviaAt hpiece hfills hdrop
            exact absurd hsame (by simp [hend])
      · refine ih ?_
        have hkeeps : k.opens false = false := by simp [Trivia.Kind.opens, hfills]
        rwa [hkeeps] at hopen

theorem Cut.isChain_endsBefore {last : Option Token} {line : Nat} {leading : Trivia} {s : Text}
    {l : Lexed} (h : Cut last line leading s l) : l.toList.IsChain Token.EndsBefore := by
  induction h with
  | done => exact .singleton _
  | @token _ _ _ c r kind n trailing next r₁ r₂ l t htoken hkind hbehind hahead htail ih =>
      have hcons : (l.cons t).toList = t :: l.toList := rfl
      rw [hcons]
      refine List.isChain_cons.mpr ⟨fun b hb => ⟨?_, fun hopen => ?_⟩, ih⟩
      · rw [htoken]
        exact (Lexeme.tokenAt_kind hkind).1
      · obtain ⟨u, us, hlist, hu⟩ := htail.head
        obtain rfl : u = b := by simpa [hlist] using hb
        rw [htoken] at hopen
        have hend := (scanned_of_trivia hbehind).isLineEnd_of_opens hopen
        have hnext := scanned_of_trivia hahead
        cases r₁ with
        | cons d q =>
            obtain ⟨p, vs, hcons, hp⟩ := hnext.exists_head (hend d q rfl)
            refine .inl ?_
            rw [Token.startsLine, hu, hcons]
            exact List.any_eq_true.mpr ⟨p, List.mem_cons_self, hp⟩
        | nil =>
            -- nothing is left to read, so the next token is the end of the file
            cases hnext
            cases htail
            obtain ⟨rfl, _⟩ := List.cons_eq_cons.mp hlist
            exact .inr rfl

end Scan

/-- The leading trivia of a token leaves no comment open. -/
theorem Scan.TokenScanned.opens_leading {t : Token} (h : Scan.TokenScanned t)
    (ht : t.kind ≠ .endOfFile) : t.leading.opens false = false := by
  refine Trivia.opens_of_isChain h.leading.chain fun p hp => ?_
  rw [Bool.eq_false_iff]
  exact fun hfills => ht (h.last p hp hfills)

/-! ## What a resolution preserves -/

/-- Of two tokens in a row: no directive stands behind the end of a block on its line. -/
def EndsLine (flag : Text) (a b : Occurrence) : Prop :=
  a.IsEndOn flag → b.token.kind = .directive → b.token.startsLine = true

instance (flag : Text) (a b : Occurrence) : Decidable (EndsLine flag a b) :=
  inferInstanceAs (Decidable (_ → _ → _))

/-- A token that is left starts a line if it started one. -/
def KeepsLine (o : Occurrence) (t : Token) : Prop :=
  o.token.startsLine = true → t.startsLine = true

/-- The tokens that are not dropped. -/
def keptTokens (flag : Text) (os : List Occurrence) : List Occurrence :=
  os.filter fun o => decide (¬ o.IsDropped flag)

/-- **A token that starts a line starts one behind a resolution**, if the directives do. -/
theorem Pruned.forall₂_keepsLine {os : List Occurrence} {ts : List Token} (h : Pruned flag os ts)
    (hos : ∀ o ∈ os, o.token.kind ≠ .placeholder)
    (hlines : ∀ o ∈ os, o.IsDirectiveOn flag → o.token.startsLine = true) :
    List.Forall₂ KeepsLine (keptTokens flag os) (solid ts) := by
  induction h with
  | done => exact .nil
  | keep o hkept _ ih =>
      obtain ⟨ho, hrest⟩ := List.forall_mem_cons.mp hos
      rw [keptTokens, List.filter_cons_of_pos (by simpa using hkept), solid_cons_of_ne ho]
      exact .cons id (ih hrest (List.forall_mem_cons.mp hlines).2)
  | drop d gap hgap _ _ ih =>
      rw [keptTokens, filter_gap hgap]
      exact ih (List.forall_mem_append.mp hos).2 (List.forall_mem_append.mp hlines).2
  | vacate d gap hgap _ ih =>
      rw [keptTokens, filter_gap hgap, solid_cons_placeholder]
      exact ih (List.forall_mem_append.mp hos).2 (List.forall_mem_append.mp hlines).2
  | splice d gap o r hgap hkept _ _ _ ih =>
      obtain ⟨ho, hrest⟩ := List.forall_mem_cons.mp (List.forall_mem_append.mp hos).2
      obtain ⟨hrun, hlines'⟩ := List.forall_mem_append.mp hlines
      have hline : d.token.leading.hasNewline = true := hrun d List.mem_cons_self hgap.directive
      rw [keptTokens, filter_gap hgap, List.filter_cons_of_pos (by simpa using hkept),
        solid_cons_of_ne (t := o.token.withLeading (d.token.leading ++ r)) ho]
      refine .cons (fun _ => ?_) (ih hrest (List.forall_mem_cons.mp hlines').2)
      rw [Token.startsLine, Token.leading_withLeading, Trivia.hasNewline_append, hline,
        Bool.true_or]

/-- What a token is asked for by the one in front of it holds of all but the first. -/
theorem forall_mem_tail_of_isChain {α : Type} {R : α → α → Prop} {P : α → Prop}
    (hR : ∀ a b, R a b → P b) {l : List α} (h : l.IsChain R) : ∀ b ∈ l.tail, P b := by
  induction l with
  | nil => simp
  | cons a r ih =>
      cases r with
      | nil => simp
      | cons b us => exact List.forall_mem_cons.mpr ⟨hR a b h.rel, ih h.tail⟩

/-- The first token of a source need not start a line, so neither need the first that is left. -/
theorem Pruned.forall₂_keepsLine_tail {os : List Occurrence} {ts : List Token}
    (h : Pruned flag os ts) (hos : ∀ o ∈ os, o.token.kind ≠ .placeholder)
    (hlines : ∀ o ∈ os.tail, o.IsDirectiveOn flag → o.token.startsLine = true) :
    List.Forall₂ KeepsLine (keptTokens flag os).tail (solid ts).tail := by
  -- behind a run, every directive is behind the first token of the source
  have hbehind : ∀ {d : Occurrence} {gap us : List Occurrence},
      (∀ o ∈ (d :: gap ++ us).tail, o.IsDirectiveOn flag → o.token.startsLine = true) →
        ∀ o ∈ us, o.IsDirectiveOn flag → o.token.startsLine = true :=
    fun h o ho => h o (List.mem_append_right _ ho)
  induction h with
  | done => exact .nil
  | keep o hkept htail _ =>
      obtain ⟨ho, hrest⟩ := List.forall_mem_cons.mp hos
      rw [keptTokens, List.filter_cons_of_pos (by simpa using hkept), solid_cons_of_ne ho]
      exact htail.forall₂_keepsLine hrest hlines
  | drop d gap hgap _ _ ih =>
      rw [keptTokens, filter_gap hgap]
      exact ih (List.forall_mem_append.mp hos).2 fun o ho =>
        hbehind hlines o (List.mem_of_mem_tail ho)
  | vacate d gap hgap _ ih =>
      rw [keptTokens, filter_gap hgap, solid_cons_placeholder]
      exact ih (List.forall_mem_append.mp hos).2 fun o ho =>
        hbehind hlines o (List.mem_of_mem_tail ho)
  | splice d gap o r hgap hkept _ _ htail _ =>
      obtain ⟨ho, hrest⟩ := List.forall_mem_cons.mp (List.forall_mem_append.mp hos).2
      rw [keptTokens, filter_gap hgap, List.filter_cons_of_pos (by simpa using hkept),
        solid_cons_of_ne (t := o.token.withLeading (d.token.leading ++ r)) ho]
      exact htail.forall₂_keepsLine hrest fun u hu =>
        hbehind hlines u (List.mem_cons_of_mem _ hu)

/-- What is asked of two tokens of a source in a row. -/
structure Stands (flag : Text) (a b : Occurrence) : Prop where
  own : OwnLine flag a b
  ends : EndsLine flag a b
  scanned : a.token.EndsBefore b.token

/-- What is asked of a single token: no comment is open in front of it. -/
structure Occurrence.IsClosed (flag : Text) (o : Occurrence) : Prop where
  leading : o.token.kind ≠ .endOfFile → o.token.leading.opens false = false
  inside : o.IsInside flag → o.token.kind ≠ .endOfFile

/-- Behind the end of a block that goes, a token starts a line or is the end of the file. -/
theorem Stands.startsLine {e b : Occurrence} (h : Stands flag e b) (he : e.IsMarkerOn flag)
    (hend : e.IsEndOn flag) (hb : ¬ b.IsConditionOn flag) :
    b.token.startsLine = true ∨ b.token.kind = .endOfFile := by
  rcases h.own.behind ⟨he, hb⟩ with hline | hdirective | heof
  · exact .inl hline
  · exact .inl (h.ends hend hdirective)
  · exact .inr heof

/-- The end of a block is one of its lines. -/
theorem Occurrence.IsEndOn.isMarkerOn {o : Occurrence} (h : o.IsEndOn flag) :
    o.IsMarkerOn flag := by
  obtain ⟨a, ha, hflags, hplace⟩ := h
  refine ⟨a, ha, hflags, ?_⟩
  cases hp : a.2 with
  | opening i k => rfl
  | body i => rw [hp] at hplace; exact absurd hplace (by simp [Place.isEnding])
  | ending => rfl

/-- A comment that is open in front of a token of a source is closed by its leading trivia. -/
theorem Occurrence.IsClosed.opens_eq {u : Occurrence} (h : u.IsClosed flag) {o : Bool}
    (hkind : u.token.kind ≠ .endOfFile)
    (hline : o = true → u.token.startsLine = true ∨ u.token.kind = .endOfFile) :
    u.token.leading.opens o = false := by
  rw [Trivia.opens_eq, h.leading hkind, Bool.false_or]
  cases o with
  | false => rfl
  | true =>
      have hstarts : u.token.leading.hasNewline = true := (hline rfl).resolve_right hkind
      simp [hstarts]

/-- **No token is swallowed by a resolution.** What is carried along the list: where a comment
is open, the next token starts a line, is the end of the file, or goes. -/
theorem Pruned.closes {os : List Occurrence} {ts : List Token} (h : Pruned flag os ts) {o : Bool}
    (hchain : os.IsChain (Stands flag)) (hos : ∀ u ∈ os, u.IsClosed flag)
    (hhead : o = true → ∀ u ∈ os.head?, ¬ u.IsConditionOn flag →
      u.token.startsLine = true ∨ u.token.kind = .endOfFile) :
    Closes o (ts.flatMap Token.marks) := by
  -- what is open behind a kept token is closed in front of the next
  have hbehind : ∀ {u : Occurrence} {us : List Occurrence}, (u :: us).IsChain (Stands flag) →
      u.token.trailing.opens false = true → ∀ v ∈ us.head?, ¬ v.IsConditionOn flag →
        v.token.startsLine = true ∨ v.token.kind = .endOfFile := by
    intro u us hchain hopen v hv _
    exact ((List.isChain_cons.mp hchain).1 v hv).scanned.2 hopen
  induction h generalizing o with
  | done => trivial
  | @keep os ts u hkept htail ih =>
      obtain ⟨hu, hrest⟩ := List.forall_mem_cons.mp hos
      rw [List.flatMap_cons, closes_marks]
      by_cases heof : u.token.kind = .endOfFile
      · refine ⟨.inl heof, ih hchain.tail hrest fun _ v hv _ => ?_⟩
        exact absurd heof ((List.isChain_cons.mp hchain).1 v hv).scanned.1
      · have hclosed := hu.opens_eq heof fun ho => hhead ho u rfl fun h => hkept h.isDropped
        rw [hclosed]
        exact ⟨.inr rfl, ih hchain.tail hrest (hbehind hchain)⟩
  | @drop os ts d gap hgap hends htail ih =>
      obtain ⟨e, he, hchain'⟩ := exists_last_chain hends hchain
      refine ih hchain'.tail (List.forall_mem_append.mp hos).2 fun _ v hv hcondition => ?_
      exact ((List.isChain_cons.mp hchain').1 v hv).startsLine he.isMarkerOn he hcondition
  | @vacate os ts d gap hgap htail ih =>
      obtain ⟨hrun, hrest⟩ := List.forall_mem_append.mp hos
      have hd := hrun d List.mem_cons_self
      have hkind := hd.inside (hgap.dropped d List.mem_cons_self).isInside
      have hclosed := hd.opens_eq hkind fun ho =>
        hhead ho d rfl hgap.directive.not_isConditionOn
      have hleading : (Token.placeholder d.token.leading).leading.opens o = false := hclosed
      rw [List.flatMap_cons, closes_marks, hleading]
      exact ⟨.inr rfl, ih hchain.right_of_append hrest (by simp [Token.placeholder, Trivia.opens])⟩
  | @splice os ts d gap u r hgap hkept hinside hr htail ih =>
      obtain ⟨hrun, hrest⟩ := List.forall_mem_append.mp hos
      obtain ⟨hu, hrest'⟩ := List.forall_mem_cons.mp hrest
      have hkind : ∀ v ∈ d :: gap, v.token.kind ≠ .endOfFile := fun v hv =>
        (hrun v hv).inside (hgap.dropped v hv).isInside
      have hclosed := (hrun d List.mem_cons_self).opens_eq (hkind d List.mem_cons_self) fun ho =>
        hhead ho d rfl hgap.directive.not_isConditionOn
      -- the trivia gathered behind it opens nothing that it does not close
      have hgathered : r.opens false = false := by
        refine hr.opens_eq (List.forall_mem_append.mpr
          ⟨List.forall_mem_map.mpr fun v hv => ?_, List.forall_mem_singleton.mpr ?_⟩)
        · exact (hrun v (List.mem_cons_of_mem _ hv)).leading (hkind v (List.mem_cons_of_mem _ hv))
        · exact hu.leading (hu.inside hinside)
      rw [List.flatMap_cons, closes_marks, Token.leading_withLeading, Trivia.opens_append, hclosed,
        hgathered]
      have hchain' := hchain.right_of_append
      exact ⟨.inr rfl, ih hchain'.tail hrest' (hbehind hchain')⟩

/-! ## Resolved sources -/

/-- **Surviving code stays on its own lines.** Where the lines of the blocks on the flag are
lines of their own, a token that is left and is not the first starts a line, in its own
leading trivia, if it started one in the source. Where, besides, no directive follows the end
of a block on its line, every line comment and the interpreter line end before the next
token, placeholders counted. -/
theorem resolve_keeps_lines {g : Grouping} {source : Text} {tree : SourceTree}
    (h : SourceTree.parse g source = .ok tree) {flag : Text}
    (hown : tree.occurrences.IsChain (OwnLine flag)) :
    List.Forall₂ (Carried flag) (keptTokens flag tree.occurrences)
        (solid (tree.resolve flag).tokens)
      ∧ List.Forall₂ KeepsLine (keptTokens flag tree.occurrences).tail
          (solid (tree.resolve flag).tokens).tail
      ∧ (tree.occurrences.IsChain (EndsLine flag) →
          CommentsEnd ((tree.resolve flag).tokens.flatMap Token.marks)) := by
  obtain ⟨l, hl, hassemble⟩ := exists_of_parse h
  obtain ⟨line, leading, rest, hcut, hleads, _⟩ := cut_of_tokenize hl
  have htokens : tree.occurrences.map Occurrence.token = l.toList := by
    rw [tree.map_token_occurrences, (Assembly.tree_of_assemble hassemble).1]
  have hpruned := pruned_of_assemble hassemble (fun t ht => (hcut.of_mem_tokens t ht).2.2) flag
  have hmem : ∀ o ∈ tree.occurrences, o.token ∈ l.toList := by
    intro o ho
    rw [← htokens]
    exact List.mem_map_of_mem ho
  have hsolid : ∀ o ∈ tree.occurrences, o.token.kind ≠ .placeholder := by
    intro o ho
    rcases List.mem_append.mp (hmem o ho) with ht | ht
    · exact (hcut.of_mem_tokens _ ht).2.2
    · rw [List.mem_singleton.mp ht, hcut.eof_eq.1]
      decide
  refine ⟨hpruned.forall₂_carried hsolid, ?_, fun hends => commentsEnd_iff_closes.mpr ?_⟩
  · exact hpruned.forall₂_keepsLine_tail hsolid
      (forall_mem_tail_of_isChain (fun _ _ hpair => hpair.directive) hown)
  · have hscanned : tree.occurrences.IsChain fun a b => a.token.EndsBefore b.token := by
      rw [← List.isChain_map, htokens]
      exact hcut.isChain_endsBefore
    have hchain : tree.occurrences.IsChain (Stands flag) := by
      rw [List.isChain_iff_forall_rel_of_append_cons_cons] at *
      exact fun a b pre post heq => ⟨hown heq, hends heq, hscanned heq⟩
    refine hpruned.closes hchain (fun u hu => ⟨?_, ?_⟩) (by simp)
    · exact (hcut.tokenScanned hleads _ (hmem u hu)).opens_leading
    · rcases List.mem_append.mp hu with hu | hu
      · exact fun _ => (kind_of_mem_members hl hassemble u hu).1
      · -- the end of the file stands in no block
        rw [List.mem_singleton.mp hu]
        rintro ⟨a, ha, _⟩
        exact absurd ha List.not_mem_nil

theorem resolve_keeps_lines_nested :
    ∃ source tree,
      source = "#!sh\nx // c\n#if B\r\n#if A // f\n\n#if !A\ny\n#else\n\nz // z\n#endif\n#else\nw\n#endif\nv\n#endif\n".toList
      ∧ SourceTree.parse .swift source = .ok tree
      ∧ tree.occurrences.IsChain (OwnLine "A".toList)
      ∧ tree.occurrences.IsChain (EndsLine "A".toList)
      ∧ (tree.resolve "A".toList).render
        = "#!sh\nx // c\n#if B\r\n\n\nz // z\nv\n#endif\n".toList
      ∧ List.Forall₂ (Carried "A".toList) (keptTokens "A".toList tree.occurrences)
          (solid (tree.resolve "A".toList).tokens)
      ∧ List.Forall₂ KeepsLine (keptTokens "A".toList tree.occurrences).tail
          (solid (tree.resolve "A".toList).tokens).tail
      ∧ CommentsEnd ((tree.resolve "A".toList).tokens.flatMap Token.marks) := by
  have hparse : (SourceTree.parse .swift
      "#!sh\nx // c\n#if B\r\n#if A // f\n\n#if !A\ny\n#else\n\nz // z\n#endif\n#else\nw\n#endif\nv\n#endif\n".toList).toOption.any
        (fun tree => decide (tree.occurrences.IsChain (OwnLine "A".toList)
          ∧ tree.occurrences.IsChain (EndsLine "A".toList)
          ∧ (tree.resolve "A".toList).render
            = "#!sh\nx // c\n#if B\r\n\n\nz // z\nv\n#endif\n".toList)) = true := by
    decide +kernel
  obtain ⟨tree, htree, hshape⟩ := exists_of_parse_any hparse
  obtain ⟨hown, hends, hrender⟩ := of_decide_eq_true hshape
  obtain ⟨hcarried, hlines, hcomments⟩ := resolve_keeps_lines htree hown
  exact ⟨_, tree, rfl, htree, hown, hends, hrender, hcarried, hlines, hcomments hends⟩

/-- Own lines are not enough for the comments. The directive behind the end of the block is on
a line of its own only together with that end; with the end gone it joins the comment in front. -/
theorem resolve_keeps_lines_swallows :
    ∃ source tree, source = "#if A\nlet x = 1 // on\n#endif #sourceLocation()\n".toList
      ∧ SourceTree.parse .swift source = .ok tree
      ∧ tree.occurrences.IsChain (OwnLine "A".toList)
      ∧ (tree.resolve "A".toList).render = "let x = 1 // on#sourceLocation()\n".toList
      ∧ ¬ CommentsEnd ((tree.resolve "A".toList).tokens.flatMap Token.marks) := by
  have hparse : (SourceTree.parse .swift
      "#if A\nlet x = 1 // on\n#endif #sourceLocation()\n".toList).toOption.any
        (fun tree => decide (tree.occurrences.IsChain (OwnLine "A".toList)
          ∧ (tree.resolve "A".toList).render = "let x = 1 // on#sourceLocation()\n".toList
          ∧ ¬ CommentsEnd ((tree.resolve "A".toList).tokens.flatMap Token.marks))) = true := by
    decide +kernel
  obtain ⟨tree, htree, hshape⟩ := exists_of_parse_any hparse
  obtain ⟨hown, hrender, hswallows⟩ := of_decide_eq_true hshape
  exact ⟨_, tree, rfl, htree, hown, hrender, hswallows⟩

end Unflag
