/-
What an item is told by.

Two questions are asked of the parts of an item: what it declares, and whether the next token
starts another one. Both are answered from the words of its tokens, its groups counting as
what stands at their ends; what is between their braces is never looked at. Whether the first
token of an item starts a line does not matter to either answer: line starts are asked of what
stands behind other parts. So an item stays what it is when its groups are resolved, when it
moves upwards and takes over other trivia, and when its text is read again.
-/
import Unflag.Proofs.Reassembly

set_option autoImplicit false

namespace Unflag

/-! ## Parts that are alike -/

/-- The word of a token but for its place on the line. -/
def Token.spelling (t : Token) : Token.Kind × Text × Bool := (t.kind, t.text, t.trailing.isEmpty)

/-- Two tokens, or two groups, whose ends `f` cannot tell apart. -/
inductive Part.Alike {α : Type} (f : Token → α) : Part → Part → Prop
  | token {t u : Token} (h : f t = f u) : Alike f (.token t) (.token u)
  | group {opening opening' closing closing' : Token} {members members' : List Node}
      (hopening : f opening = f opening') (hclosing : f closing = f closing') :
      Alike f (.group opening members closing) (.group opening' members' closing')

/-- Parts with the same words. -/
def SameWords (ps qs : List Part) : Prop := List.Forall₂ (Part.Alike Token.word) ps qs

/-- Parts with the same words, except that the first token may start its line in one of them
only. -/
inductive SameItem : List Part → List Part → Prop
  | nil : SameItem [] []
  | cons {p q : Part} {r s : List Part} (hfirst : p.Alike Token.spelling q)
      (hrest : SameWords r s) : SameItem (p :: r) (q :: s)

theorem spelling_eq_of_word {t u : Token} (h : t.word = u.word) : t.spelling = u.spelling := by
  have hkind : t.kind = u.kind := congrArg Word.kind h
  have htext : t.text = u.text := congrArg Word.text h
  have hspaced : (!t.trailing.isEmpty) = !u.trailing.isEmpty := congrArg Word.isSpaced h
  rw [Token.spelling, Token.spelling, hkind, htext, Bool.not_inj hspaced]

theorem Part.Alike.spelling {p q : Part} (h : p.Alike Token.word q) : p.Alike Token.spelling q := by
  cases h with
  | token h => exact .token (spelling_eq_of_word h)
  | group ho hc => exact .group (spelling_eq_of_word ho) (spelling_eq_of_word hc)

theorem SameItem.of_sameWords {ps qs : List Part} (h : SameWords ps qs) : SameItem ps qs := by
  cases h with
  | nil => exact .nil
  | cons hp hr => exact .cons hp.spelling hr

/-- Parts that have been changed one by one, but not at their ends. -/
theorem sameWords_map {f : Part → Part} (hf : ∀ p : Part, p.Alike Token.word (f p))
    (parts : List Part) : SameWords parts (parts.map f) := by
  rw [SameWords, List.forall₂_map_right_iff]
  exact List.forall₂_same.mpr fun p _ => hf p

theorem SameWords.spelling {ps qs : List Part} (h : SameWords ps qs) :
    List.Forall₂ (Part.Alike Token.spelling) ps qs := h.imp fun _ _ => Part.Alike.spelling

/-- Without any line starts. -/
theorem SameItem.forall₂ {ps qs : List Part} (h : SameItem ps qs) :
    List.Forall₂ (Part.Alike Token.spelling) ps qs := by
  cases h with
  | nil => exact .nil
  | cons hp hr => exact .cons hp hr.spelling

namespace Item

section Spelling

variable {t u : Token}

theorem kind_of_spelling (h : t.spelling = u.spelling) : t.kind = u.kind := congrArg Prod.fst h

theorem text_of_spelling (h : t.spelling = u.spelling) : t.text = u.text :=
  congrArg (fun s => s.2.1) h

theorem is_of_spelling (h : t.spelling = u.spelling) (kind : Token.Kind) (word : String) :
    t.is kind word = u.is kind word := by
  simp only [Token.is, kind_of_spelling h, text_of_spelling h]

theorem isOneOf_of_spelling (h : t.spelling = u.spelling) (kind : Token.Kind)
    (words : List String) : t.isOneOf kind words = u.isOneOf kind words := by
  simp only [Token.isOneOf, kind_of_spelling h, text_of_spelling h]

end Spelling

/-! ## Attributes and modifiers -/

theorem afterParentheses_congr {ps qs : List Part} (h : SameWords ps qs) (depth : Nat) :
    SameWords (afterParentheses depth ps) (afterParentheses depth qs) := by
  induction h generalizing depth with
  | nil => exact .nil
  | cons hp hr ih =>
      cases hp with
      | group _ _ => exact ih depth
      | token hword =>
          simp only [afterParentheses, is_congr hword]
          split
          · exact ih (depth + 1)
          split
          · cases depth with
            | zero => exact ih 0
            | succ d =>
                cases d with
                | zero => exact hr
                | succ d => exact ih (d + 1)
          · exact ih depth

theorem skipParenthesized_congr {ps qs : List Part} (h : SameWords ps qs) :
    SameWords (skipParenthesized ps) (skipParenthesized qs) := by
  cases h with
  | nil => exact .nil
  | cons hp hr =>
      cases hp with
      | group ho hc => exact .cons (.group ho hc) hr
      | @token t u hword =>
          have htext : t.text = u.text := congrArg Word.text hword
          rw [skipParenthesized, skipParenthesized, htext]
          split
          · exact afterParentheses_congr (.cons (.token hword) hr) 0
          · exact .cons (.token hword) hr

theorem skipAttributeArguments_congr {ps qs : List Part} (h : SameWords ps qs) :
    SameWords (skipAttributeArguments ps) (skipAttributeArguments qs) := by
  cases h with
  | nil => exact .nil
  | cons hp hr =>
      cases hp with
      | group ho hc => exact .cons (.group ho hc) hr
      | @token t u hword =>
          -- the one place where a line start is asked for behind other parts
          have hline : t.startsLine = u.startsLine := congrArg Word.startsLine hword
          rw [skipAttributeArguments, skipAttributeArguments, hline]
          split
          · exact .cons (.token hword) hr
          · exact skipParenthesized_congr (.cons (.token hword) hr)

theorem skipModifierArgument_congr {ps qs : List Part} (h : SameWords ps qs) :
    SameWords (skipModifierArgument ps) (skipModifierArgument qs) := by
  have hsame := h
  rcases h with _ | ⟨⟨ha⟩ | _, _ | ⟨⟨hb⟩ | _, _ | ⟨⟨hc⟩ | _, hr⟩⟩⟩
  case cons.token.cons.token.cons.token a a' b b' _ _ c c' =>
    have ha' : a.text = a'.text := congrArg Word.text ha
    have hb' : b.text = b'.text := congrArg Word.text hb
    have hc' : c.text = c'.text := congrArg Word.text hc
    rw [skipModifierArgument, skipModifierArgument, ha', hb', hc']
    split
    · exact hr
    · exact hsame
  -- fewer than three tokens in a row are left as they are
  all_goals exact hsame

theorem tail_congr {ps qs : List Part} (h : SameWords ps qs) : SameWords ps.tail qs.tail := by
  cases h with
  | nil => exact .nil
  | cons _ hr => exact hr

theorem startsWithName_congr {ps qs : List Part}
    (h : List.Forall₂ (Part.Alike Token.spelling) ps qs) :
    startsWithName ps = startsWithName qs := by
  cases h with
  | nil => rfl
  | cons hp _ =>
      cases hp with
      | group _ _ => rfl
      | token h => rw [startsWithName, startsWithName, kind_of_spelling h]

theorem isEmpty_congr {ps qs : List Part} (h : SameItem ps qs) : ps.isEmpty = qs.isEmpty := by
  cases h with
  | nil => rfl
  | cons _ _ => rfl

/-- Whether the first part is a word that `class` is a modifier in front of. -/
def startsClassMember : List Part → Bool
  | .token t :: _ => isWord classMembers t.text
  | _ => false

theorem startsClassMember_congr {ps qs : List Part} (h : SameWords ps qs) :
    startsClassMember ps = startsClassMember qs := by
  cases h with
  | nil => rfl
  | cons hp _ =>
      cases hp with
      | group _ _ => rfl
      | @token t u hword =>
          have htext : t.text = u.text := congrArg Word.text hword
          rw [startsClassMember, startsClassMember, htext]

theorem afterModifiers_token (t : Token) (r : List Part) :
    afterModifiers (.token t :: r)
      = if t.is .punctuation "@" then
          if startsWithName r then afterModifiers (skipAttributeArguments r.tail)
          else afterModifiers r
        else if t.kind == .identifier && isWord modifiers t.text then
          if (skipModifierArgument r).isEmpty || startsWithName (skipModifierArgument r)
          then afterModifiers (skipModifierArgument r) else .token t :: r
        else if t.is .identifier "class" && startsClassMember r then afterModifiers r
        else .token t :: r := by
  rw [afterModifiers.eq_def]
  rfl

/-- **Attributes and modifiers are told by words**, and by the spelling of the first. -/
theorem afterModifiers_congr {ps qs : List Part} (h : SameItem ps qs) :
    SameItem (afterModifiers ps) (afterModifiers qs) := by
  induction hlength : ps.length using Nat.strong_induction_on generalizing ps qs with
  | _ size ih =>
  cases h with
  | nil =>
      rw [afterModifiers]
      exact .nil
  | @cons p q r s hp hr =>
      cases hp with
      | group ho hc =>
          rw [afterModifiers, afterModifiers]
          exact .cons (.group ho hc) hr
      | @token t u ht =>
          have hsame : SameItem (.token t :: r) (.token u :: s) := .cons (.token ht) hr
          -- whatever is skipped, what is left is no longer than what is behind the token
          have hshorter : ∀ {r' s' : List Part}, SameWords r' s' → r'.length ≤ r.length →
              SameItem (afterModifiers r') (afterModifiers s') := by
            intro r' s' hrest hle
            refine ih _ ?_ (.of_sameWords hrest) rfl
            rw [← hlength, List.length_cons]
            omega
          have hnext := skipModifierArgument_congr hr
          rw [afterModifiers_token, afterModifiers_token, is_of_spelling ht, is_of_spelling ht,
            kind_of_spelling ht, text_of_spelling ht, startsWithName_congr hr.spelling,
            startsClassMember_congr hr, isEmpty_congr (.of_sameWords hnext),
            startsWithName_congr hnext.spelling]
          split
          · split
            · refine hshorter (skipAttributeArguments_congr (tail_congr hr)) ?_
              exact (length_skipAttributeArguments_le _).trans (by simp)
            · exact hshorter hr (Nat.le_refl _)
          split
          · split
            · exact hshorter hnext (length_skipModifierArgument_le r)
            · exact hsame
          split
          · exact hshorter hr (Nat.le_refl _)
          · exact hsame

/-! ## Kind -/

/-- **What an item declares is told by words.** -/
theorem classify_congr {ps qs : List Part} (h : SameItem ps qs) : classify ps = classify qs := by
  have hrest := afterModifiers_congr h
  rw [classify, classify]
  generalize afterModifiers ps = ps' at hrest ⊢
  generalize afterModifiers qs = qs' at hrest ⊢
  cases hrest with
  | nil => rfl
  | cons hp hr =>
      cases hp with
      | group _ _ => rfl
      | token ht =>
          simp only [kind_of_spelling ht, text_of_spelling ht, startsWithName_congr hr.spelling]

/-! ## Boundaries -/

theorem getLast?_congr {ps qs : List Part} (h : List.Forall₂ (Part.Alike Token.spelling) ps qs) :
    Option.Rel (Part.Alike Token.spelling) ps.getLast? qs.getLast? := by
  induction h with
  | nil => exact .none
  | @cons p q r s hp hr ih =>
      cases hr with
      | nil => exact .some hp
      | cons _ _ => simpa only [List.getLast?_cons_cons] using ih

theorem lastToken?_congr {ps qs : List Part}
    (h : List.Forall₂ (Part.Alike Token.spelling) ps qs) :
    (lastToken? ps).map Token.spelling = (lastToken? qs).map Token.spelling := by
  have hlast := getLast?_congr h
  rw [lastToken?, lastToken?]
  generalize ps.getLast? = p? at hlast ⊢
  generalize qs.getLast? = q? at hlast ⊢
  cases hlast with
  | none => rfl
  | some hp =>
      cases hp with
      | token ht => exact congrArg some ht
      | group _ hc => exact congrArg some hc

theorem endsInOperator_congr {ps qs : List Part}
    (h : List.Forall₂ (Part.Alike Token.spelling) ps qs) :
    endsInOperator ps = endsInOperator qs := by
  have hlast := getLast?_congr h
  -- the last part is compared, and then the one in front of it
  have hinit : List.Forall₂ (Part.Alike Token.spelling) ps.dropLast qs.dropLast := by
    rw [List.dropLast_eq_take, List.dropLast_eq_take, h.length_eq]
    exact List.forall₂_take _ h
  have hbefore := lastToken?_congr hinit
  rw [endsInOperator, endsInOperator]
  generalize ps.getLast? = p? at hlast ⊢
  generalize qs.getLast? = q? at hlast ⊢
  generalize lastToken? ps.dropLast = b? at hbefore ⊢
  generalize lastToken? qs.dropLast = c? at hbefore ⊢
  cases hlast with
  | none => rfl
  | some hp =>
      cases hp with
      | group _ _ => rfl
      | token ht =>
          cases b? with
          | none =>
              obtain rfl : c? = none := by simpa using hbefore.symm
              simp only [kind_of_spelling ht, text_of_spelling ht]
          | some b =>
              obtain ⟨c, rfl, hbc⟩ := Option.map_eq_some_iff.mp hbefore.symm
              have htrailing : c.trailing.isEmpty = b.trailing.isEmpty :=
                congrArg (fun s => s.2.2) hbc
              simp only [kind_of_spelling ht, text_of_spelling ht, is_of_spelling hbc, htrailing]

/-- **Where an item ends is told by words.** -/
theorem startsNewItem_congr {ps qs : List Part} (h : SameItem ps qs) {t u : Token}
    (hword : t.word = u.word) : startsNewItem ps t = startsNewItem qs u := by
  have hspelling := spelling_eq_of_word hword
  have hline : t.startsLine = u.startsLine := congrArg Word.startsLine hword
  have htrailing : t.trailing.isEmpty = u.trailing.isEmpty := congrArg (fun s => s.2.2) hspelling
  have hlast := lastToken?_congr h.forall₂
  rw [startsNewItem, startsNewItem, hline, isEmpty_congr (afterModifiers_congr h),
    isOneOf_of_spelling hspelling, isOneOf_of_spelling hspelling, kind_of_spelling hspelling,
    htrailing, endsInOperator_congr h.forall₂]
  generalize lastToken? ps = b? at hlast ⊢
  generalize lastToken? qs = c? at hlast ⊢
  cases b? with
  | none =>
      obtain rfl : c? = none := by simpa using hlast.symm
      rfl
  | some b =>
      obtain ⟨c, rfl, hbc⟩ := Option.map_eq_some_iff.mp hlast.symm
      simp only [isOneOf_of_spelling hbc]

end Item
end Unflag
