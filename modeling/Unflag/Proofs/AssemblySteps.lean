/-
What one token does to the assembly.

The assembly is a machine that reads a token at a time. `Step` lists everything a token can
do to it, one constructor for each place a token can go to, with the condition under which
it goes there; a refused token has no step. `step_cases` says that the list is complete, so
an invariant of the assembly is a case analysis over `Step` and never over the functions
behind it.

The one step that is two is the end of a condition: the token that ends it belongs to the
body and is read again there. Its constructor holds the step it leads to, and an invariant
meets it as an induction hypothesis.

`assemble_invariant` then packs the run: what holds at the start and is kept by every step
holds at the end, together with the tokens read so far.
-/
import Unflag.Tree.Assembly

set_option autoImplicit false

namespace Unflag

namespace Assembly

/-! ## Steps -/

/-- Whether a token is neither a brace nor a directive of a block. -/
def IsPlain (t : Token) : Prop :=
  t.is .punctuation "\x7d" = false ∧ isBoundary t = false ∧ t.is .directive "#if" = false
    ∧ t.is .punctuation "\x7b" = false

/-- What a token can do, in each state of the assembly. -/
inductive Step (read : List Token → Except Refusal Condition) : State → Token → State → Prop
  /-- A closing brace ends the group it stands in. -/
  | closeGroup (outer : Members) (opening : Token) (up : List Frame) (m : Members) (t : Token)
      (ht : t.is .punctuation "\x7d" = true) :
      Step read (.listing (.group outer opening :: up) m) t
        (.listing up (outer.addPart (.group opening m.finish t)))
  /-- The end directive ends the block. -/
  | endBlock (block : OpenBlock) (head : ClauseHead) (up : List Frame) (m : Members) (t : Token)
      (ht : t.is .directive "#endif" = true) :
      Step read (.listing (.clause block head :: up) m) t
        (.listing up (block.outer.addNode (.block (block.clauses ++ [.mk head m.finish]) t)))
  /-- Another condition follows, unless the fallback has been. -/
  | alternative (block : OpenBlock) (head : ClauseHead) (up : List Frame) (m : Members) (t : Token)
      (ht : t.is .directive "#elseif" = true) (hhead : head.kind ≠ .fallback) :
      Step read (.listing (.clause block head :: up) m) t
        (.heading up { block with clauses := block.clauses ++ [.mk head m.finish] }
          .alternative t [] 0)
  /-- The fallback follows, unless it has been. -/
  | fallback (block : OpenBlock) (head : ClauseHead) (up : List Frame) (m : Members) (t : Token)
      (ht : t.is .directive "#else" = true) (hhead : head.kind ≠ .fallback) :
      Step read (.listing (.clause block head :: up) m) t
        (.listing (.clause { block with clauses := block.clauses ++ [.mk head m.finish] }
          ⟨.fallback, t, [], none⟩ :: up) .empty)
  /-- A block opens outside brackets. -/
  | openBlock (stack : List Frame) (m : Members) (t : Token)
      (ht : t.is .directive "#if" = true) (hdepth : m.depth = 0) :
      Step read (.listing stack m) t (.heading stack ⟨m.flush, t.line, []⟩ .primary t [] 0)
  /-- An opening brace opens a group. -/
  | openGroup (stack : List Frame) (m : Members) (t : Token)
      (ht : t.is .punctuation "\x7b" = true) :
      Step read (.listing stack m) t (.listing (.group (m.breakBefore t) t :: stack) .empty)
  /-- Any other token joins the item in hand, or starts the next one. -/
  | plain (stack : List Frame) (m : Members) (t : Token) (ht : IsPlain t) :
      Step read (.listing stack m) t (.listing stack ((m.breakBefore t).addToken t))
  /-- A condition goes on. -/
  | condition (stack : List Frame) (block : OpenBlock) (kind : ClauseKind) (directive : Token)
      (taken : List Token) (depth : Int) (t : Token) (ht : endsCondition taken depth t = false) :
      Step read (.heading stack block kind directive taken depth) t
        (.heading stack block kind directive (taken ++ [t]) (depthAfter depth t))
  /-- A condition ends, and the token is read in the body. -/
  | body (stack : List Frame) (block : OpenBlock) (kind : ClauseKind) (directive : Token)
      (taken : List Token) (depth : Int) (t : Token) (e : Condition) (s : State)
      (ht : endsCondition taken depth t = true) (htaken : taken ≠ []) (hread : read taken = .ok e)
      (hnext : Step read
        (.listing (.clause block ⟨kind, directive, taken, some e⟩ :: stack) .empty) t s) :
      Step read (.heading stack block kind directive taken depth) t s

variable {read : List Token → Except Refusal Condition}

/-- A boundary that is neither of the other two is the fallback directive. -/
theorem isFallback_of_isBoundary {t : Token} (h : isBoundary t = true)
    (hend : ¬ t.is .directive "#endif" = true) (halt : ¬ t.is .directive "#elseif" = true) :
    t.is .directive "#else" = true := by
  simp only [isBoundary, Token.isOneOf, Token.is, List.any_cons, List.any_nil, Bool.or_false,
    Bool.and_eq_true, Bool.or_eq_true, not_and] at h hend halt ⊢
  obtain ⟨hkind, htext | htext | htext⟩ := h
  · exact absurd htext (halt hkind)
  · exact ⟨hkind, htext⟩
  · exact absurd htext (hend hkind)

theorem closeGroup_cases {stack : List Frame} {m : Members} {t : Token} {s : State}
    (ht : t.is .punctuation "\x7d" = true) (h : closeGroup stack m t = .ok s) :
    Step read (.listing stack m) t s := by
  unfold closeGroup at h
  split at h
  · exact absurd h (by simp [refuse])
  · next outer opening up => cases h; exact .closeGroup outer opening up m t ht
  · exact absurd h (by simp [refuse])

theorem closeClause_cases {stack : List Frame} {m : Members} {t : Token} {s : State}
    (ht : isBoundary t = true) (h : closeClause stack m t = .ok s) :
    Step read (.listing stack m) t s := by
  unfold closeClause at h
  split at h
  · exact absurd h (by simp [refuse])
  · exact absurd h (by simp [refuse])
  · next block head up =>
    dsimp only at h
    split at h
    · next hend => cases h; exact .endBlock block head up m t hend
    · next hend =>
      split at h
      · exact absurd h (by simp [refuse])
      · next hhead =>
        have hhead' : head.kind ≠ .fallback := by simpa using hhead
        split at h
        · next halt => cases h; exact .alternative block head up m t halt hhead'
        · next halt =>
          cases h
          exact .fallback block head up m t (isFallback_of_isBoundary ht hend halt) hhead'

theorem stepList_cases {stack : List Frame} {m : Members} {t : Token} {s : State}
    (h : stepList stack m t = .ok s) : Step read (.listing stack m) t s := by
  unfold stepList at h
  split at h
  · next hclose => exact closeGroup_cases hclose h
  next hclose =>
  split at h
  · next hboundary => exact closeClause_cases hboundary h
  next hboundary =>
  split at h
  · next hif =>
    split at h
    · exact absurd h (by simp [refuse])
    · next hdepth => cases h; exact .openBlock stack m t hif (by omega)
  next hif =>
  split at h
  · next hopen => cases h; exact .openGroup stack m t hopen
  next hopen =>
  -- none of the four tests has caught the token
  cases h
  exact .plain stack m t ⟨by simpa using hclose, by simpa using hboundary, by simpa using hif,
    by simpa using hopen⟩

/-- The end of a condition opens the frame of its clause. -/
theorem closeHeading_eq_ok {stack inner : List Frame} {block : OpenBlock} {kind : ClauseKind}
    {directive : Token} {taken : List Token}
    (h : closeHeading read stack block kind directive taken = .ok inner) :
    ∃ e, taken ≠ [] ∧ read taken = .ok e
      ∧ inner = .clause block ⟨kind, directive, taken, some e⟩ :: stack := by
  unfold closeHeading at h
  split at h
  · exact absurd h (by simp [refuse])
  · next htaken =>
    split at h
    · exact absurd h (by simp)
    · next e hread => cases h; exact ⟨e, by simpa using htaken, hread, rfl⟩

/-- **The steps are complete.** Whatever a token does is one of them. -/
theorem step_cases {s s' : State} {t : Token} (h : step read s t = .ok s') : Step read s t s' := by
  cases s with
  | listing stack m => exact stepList_cases h
  | heading stack block kind directive taken depth =>
      rw [step] at h
      split at h
      · next hends =>
        split at h
        · exact absurd h (by simp)
        · next inner hclose =>
          -- the token is read again, now in the body
          obtain ⟨e, htaken, hread, rfl⟩ := closeHeading_eq_ok hclose
          exact .body stack block kind directive taken depth t e s' hends htaken hread
            (stepList_cases h)
      · next hends =>
        cases h
        exact .condition stack block kind directive taken depth t (by simpa using hends)

/-! ## Runs -/

/-- Only a run that has closed everything gives a tree. -/
theorem finish_eq_ok {s : State} {eof : Token} {tree : SourceTree}
    (h : finish read s eof = .ok tree) :
    ∃ m, s = .listing [] m ∧ tree = ⟨m.finish, eof⟩ := by
  unfold finish at h
  dsimp only at h
  split at h
  · next stack m =>
    split at h
    · cases h; exact ⟨m, rfl, rfl⟩
    · exact absurd h (by simp [refuse])
    · exact absurd h (by simp [refuse])
  · split at h
    · exact absurd h (by simp)
    · next inner hclose =>
      -- the frame of the clause is still open, so the end of the file is refused
      obtain ⟨e, _, _, rfl⟩ := closeHeading_eq_ok hclose
      exact absurd h (by simp [refuse])

/-- What every step keeps, a run keeps. -/
theorem foldlM_invariant (Inv : List Token → State → Prop)
    (hstep : ∀ ts s t s', Inv ts s → Step read s t s' → Inv (ts ++ [t]) s')
    {ts us : List Token} {s s' : State} (hs : Inv ts s)
    (h : us.foldlM (step read) s = .ok s') : Inv (ts ++ us) s' := by
  induction us generalizing ts s with
  | nil =>
      cases h
      rwa [List.append_nil]
  | cons t us ih =>
      rw [List.foldlM_cons] at h
      cases hone : step read s t with
      | error e =>
          rw [hone] at h
          exact absurd h (by simp [bind, Except.bind])
      | ok s₁ =>
          rw [hone] at h
          have hnext := ih (hstep ts s t s₁ hs (step_cases hone)) h
          rwa [List.append_assoc, List.singleton_append] at hnext

/-- **The invariant of a whole assembly.** A tree comes from a final state in which nothing
is open, and there the invariant holds with all the tokens read. -/
theorem assemble_invariant (Inv : List Token → State → Prop)
    (hstart : Inv [] (.listing [] .empty))
    (hstep : ∀ ts s t s', Inv ts s → Step read s t s' → Inv (ts ++ [t]) s')
    {l : Lexed} {tree : SourceTree} (h : assemble read l = .ok tree) :
    ∃ m, Inv l.tokens (.listing [] m) ∧ tree = ⟨m.finish, l.eof⟩ := by
  unfold assemble at h
  split at h
  · exact absurd h (by simp)
  · next s hrun =>
    obtain ⟨m, rfl, rfl⟩ := finish_eq_ok h
    exact ⟨m, by simpa using foldlM_invariant Inv hstep hstart hrun, rfl⟩

end Assembly

end Unflag
