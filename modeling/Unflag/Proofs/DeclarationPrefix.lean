/-
Attributes and modifiers in front of a declaration.

A declaration counts only if it is found behind its attributes and modifiers, and a source of
which no declaration is found is deleted. Here it is settled which prefixes are passed over.
A prefix is any sequence of attributes and modifiers, each with its arguments or without
(`Decoration`). An attribute is passed over whatever follows it. A modifier is passed over only
in front of a name: that tells the modifier of `open func f()` from the call `open(url)`. The
sign of an attribute is no name, so a modifier directly in front of an attribute is taken for
the start of a statement, and the declaration behind it is not found (`hidden_declaration`).
That is the only way to hide a declaration (`declares_behind_prefix`).
-/
import Unflag.Proofs.ItemBorders
import Unflag.Tree.Emptiness

set_option autoImplicit false

namespace Unflag

namespace Item

/-! ## Prefixes -/

/-- Parts in which every parenthesis has its counterpart. -/
inductive Balanced : List Part → Prop
  | nil : Balanced []
  | token {t : Token} {r : List Part} (hopen : t.is .punctuation "(" = false)
      (hclose : t.is .punctuation ")" = false) (h : Balanced r) : Balanced (.token t :: r)
  | group {opening closing : Token} {members : List Node} {r : List Part} (h : Balanced r) :
      Balanced (.group opening members closing :: r)
  | nest {opening closing : Token} {inner r : List Part}
      (hopen : opening.is .punctuation "(" = true) (hclose : closing.is .punctuation ")" = true)
      (hinner : Balanced inner) (h : Balanced r) :
      Balanced (.token opening :: (inner ++ .token closing :: r))

/-- What may stand behind the name of an attribute: nothing, or a run in parentheses that begins
on the line of the name. -/
inductive IsAttributeArguments : List Part → Prop
  | none : IsAttributeArguments []
  | run {opening closing : Token} {inner : List Part} (hline : opening.startsLine = false)
      (hopen : opening.is .punctuation "(" = true) (hclose : closing.is .punctuation ")" = true)
      (hinner : Balanced inner) :
      IsAttributeArguments (.token opening :: (inner ++ [.token closing]))

/-- What may stand behind a modifier: nothing, or one of a few words in parentheses. -/
inductive IsModifierArgument : List Part → Prop
  | none : IsModifierArgument []
  | word {opening word closing : Token} (hopen : opening.text = ['('])
      (hword : isWord modifierArguments word.text = true) (hclose : closing.text = [')']) :
      IsModifierArgument [.token opening, .token word, .token closing]

/-- A modifier is a name from the list of modifiers. -/
def IsModifier (t : Token) : Prop := t.kind = .identifier ∧ isWord modifiers t.text = true

/-- What may stand in front of a declaration. -/
inductive Decoration where
  | attr (sign name : Token) (arguments : List Part)
      (hsign : sign.is .punctuation "@" = true) (hname : name.kind = .identifier)
      (harguments : IsAttributeArguments arguments)
  | modifier (word : Token) (argument : List Part) (hword : IsModifier word)
      (hargument : IsModifierArgument argument)

def Decoration.parts : Decoration → List Part
  | .attr sign name arguments _ _ _ => .token sign :: .token name :: arguments
  | .modifier word argument _ _ => .token word :: argument

def Decoration.isAttribute : Decoration → Bool
  | .attr .. => true
  | .modifier .. => false

/-- The parts of a prefix. -/
def partsOf (ds : List Decoration) : List Part := ds.flatMap Decoration.parts

/-- An attribute may follow an attribute only. -/
def Admits (d next : Decoration) : Prop := next.isAttribute = true → d.isAttribute = true

instance (d next : Decoration) : Decidable (Admits d next) :=
  inferInstanceAs (Decidable (_ → _))

/-! ## Passing over the arguments -/

section Parentheses

variable {t : Token}

theorem afterParentheses_opening (h : t.is .punctuation "(" = true) (depth : Nat) (r : List Part) :
    afterParentheses depth (.token t :: r) = afterParentheses (depth + 1) r := by
  rw [afterParentheses.eq_def]
  exact if_pos h

theorem afterParentheses_other (hopen : t.is .punctuation "(" = false)
    (hclose : t.is .punctuation ")" = false) (depth : Nat) (r : List Part) :
    afterParentheses depth (.token t :: r) = afterParentheses depth r := by
  rw [afterParentheses.eq_def]
  simp only [hopen, hclose, Bool.false_eq_true, if_false]

/-- A closing parenthesis is no opening one. -/
theorem is_opening_of_closing (h : t.is .punctuation ")" = true) :
    t.is .punctuation "(" = false := by
  obtain ⟨_, htext⟩ := is_iff.mp h
  simp [Token.is, htext]

theorem afterParentheses_closing (h : t.is .punctuation ")" = true) (depth : Nat)
    (r : List Part) :
    afterParentheses (depth + 2) (.token t :: r) = afterParentheses (depth + 1) r := by
  rw [afterParentheses.eq_def]
  simp only [is_opening_of_closing h, h, Bool.false_eq_true, if_false, if_true]

theorem afterParentheses_last (h : t.is .punctuation ")" = true) (r : List Part) :
    afterParentheses 1 (.token t :: r) = r := by
  rw [afterParentheses.eq_def]
  simp only [is_opening_of_closing h, h, Bool.false_eq_true, if_false, if_true]

end Parentheses

/-- Inside parentheses a balanced run is passed over. -/
theorem afterParentheses_balanced {ps : List Part} (h : Balanced ps) (depth : Nat)
    (rest : List Part) :
    afterParentheses (depth + 1) (ps ++ rest) = afterParentheses (depth + 1) rest := by
  induction h generalizing depth rest with
  | nil => rfl
  | token hopen hclose _ ih =>
      rw [List.cons_append, afterParentheses_other hopen hclose]
      exact ih depth rest
  | group _ ih => exact ih depth rest
  | @nest opening closing inner r hopen hclose _ _ ihInner ih =>
      -- the run is entered one level further in, and left again behind it
      rw [List.cons_append, List.append_assoc, List.cons_append, afterParentheses_opening hopen,
        ihInner, afterParentheses_closing hclose]
      exact ih depth rest

/-- The arguments of an attribute are passed over, if what follows does not look like them. -/
theorem skipAttributeArguments_append {arguments : List Part}
    (h : IsAttributeArguments arguments) {t : Token} (ht : t.text ≠ ['(']) (r : List Part) :
    skipAttributeArguments (arguments ++ .token t :: r) = .token t :: r := by
  cases h with
  | none =>
      have hother : skipParenthesized (.token t :: r) = .token t :: r :=
        if_neg (by simpa using ht)
      rw [List.nil_append, skipAttributeArguments, hother, ite_self]
  | @run opening closing inner hline hopen hclose hinner =>
      obtain ⟨_, htext⟩ := is_iff.mp hopen
      have hrun : ∀ ps, skipParenthesized (.token opening :: ps)
          = afterParentheses 0 (.token opening :: ps) := fun ps => if_pos (by simpa using htext)
      rw [List.cons_append, List.append_assoc, skipAttributeArguments, hline, hrun,
        afterParentheses_opening hopen, afterParentheses_balanced hinner]
      exact afterParentheses_last hclose _

/-- And so is the argument of a modifier. -/
theorem skipModifierArgument_append {argument : List Part} (h : IsModifierArgument argument)
    {t : Token} (ht : t.text ≠ ['(']) (r : List Part) :
    skipModifierArgument (argument ++ .token t :: r) = .token t :: r := by
  cases h with
  | none =>
      rw [List.nil_append, skipModifierArgument.eq_def]
      split
      · next a b c r' heq =>
        obtain ⟨hfirst, _⟩ := List.cons_eq_cons.mp heq
        cases hfirst
        rw [if_neg (by simp [ht])]
        exact heq.symm
      · rfl
  | word hopen hword hclose => exact if_pos (by simp [hopen, hword, hclose])

/-! ## Words of a prefix -/

/-- A word that declares is no modifier. -/
theorem isWord_modifiers_of_lookup {w : Text} {kind : ItemKind}
    (h : lookup declarators w = some kind) : isWord modifiers w = false := by
  obtain ⟨e, he, _⟩ := Option.map_eq_some_iff.mp h
  have hword : w = e.1.toList := by simpa using List.find?_some he
  rw [hword]
  have htable : ∀ e ∈ declarators, isWord modifiers e.1.toList = false := by decide +kernel
  exact htable e (List.mem_of_find?_eq_some he)

/-- A modifier declares nothing. -/
theorem lookup_of_isWord_modifiers {w : Text} (h : isWord modifiers w = true) :
    lookup declarators w = none ∧ lookup namedDeclarators w = none := by
  obtain ⟨m, hm, hword⟩ := List.any_eq_true.mp h
  have htable : ∀ m ∈ modifiers,
      lookup declarators m.toList = none ∧ lookup namedDeclarators m.toList = none := by
    decide +kernel
  rw [beq_iff_eq.mp hword]
  exact htable m hm

/-- No word of these is a parenthesis. -/
theorem text_ne_of_isWord_modifiers {w : Text} (h : isWord modifiers w = true) : w ≠ ['('] := by
  rintro rfl
  exact absurd h (by decide)

theorem text_ne_of_lookup {w : Text} {kind : ItemKind} (h : lookup declarators w = some kind) :
    w ≠ ['('] := by
  rintro rfl
  have hnone : lookup declarators ['('] = none := by decide
  exact absurd (hnone.symm.trans h) (by simp)

/-! ## Passing over a prefix -/

/-- An attribute is passed over. -/
theorem afterModifiers_attribute {sign name : Token} {arguments : List Part}
    (hsign : sign.is .punctuation "@" = true) (hname : name.kind = .identifier)
    (harguments : IsAttributeArguments arguments) {t : Token} (ht : t.text ≠ ['('])
    (r : List Part) :
    afterModifiers (.token sign :: .token name :: arguments ++ .token t :: r)
      = afterModifiers (.token t :: r) := by
  have hstarts : startsWithName (.token name :: (arguments ++ .token t :: r)) = true := by
    simp [startsWithName, hname]
  rw [List.cons_append, List.cons_append, afterModifiers_token, if_pos hsign, if_pos hstarts,
    List.tail_cons, skipAttributeArguments_append harguments ht]

/-- A modifier is passed over in front of a name. -/
theorem afterModifiers_modifier {word : Token} {argument : List Part} (hword : IsModifier word)
    (hargument : IsModifierArgument argument) {t : Token} (ht : t.text ≠ ['(']) (r : List Part) :
    afterModifiers (.token word :: argument ++ .token t :: r)
      = if t.kind = .identifier then afterModifiers (.token t :: r)
        else .token word :: (argument ++ .token t :: r) := by
  obtain ⟨hkind, hlisted⟩ := hword
  have hsign : word.is .punctuation "@" = false := by simp [Token.is, hkind]
  rw [List.cons_append, afterModifiers_token, hsign, hkind, hlisted,
    skipModifierArgument_append hargument ht]
  by_cases hname : t.kind = .identifier
  · rw [if_pos hname]
    simp [startsWithName, hname]
  · rw [if_neg hname]
    simp [startsWithName, hname]

/-- A word that declares what `kind` says, with `rest` behind it. The word `class` declares
nothing in front of the keyword of a member. -/
structure Declares (k : Token) (kind : ItemKind) (rest : List Part) : Prop where
  name : k.kind = .identifier
  word : lookup declarators k.text = some kind
  member : k.text = "class".toList → startsClassMember rest = false

section Declares

variable {k : Token} {kind : ItemKind} {rest : List Part}

theorem Declares.ne_modifier (h : Declares k kind rest) {word : Token} (hword : IsModifier word) :
    word ≠ k := by
  rintro rfl
  exact absurd hword.2 (by simp [isWord_modifiers_of_lookup h.word])

/-- It is not passed over. -/
theorem Declares.afterModifiers_eq (h : Declares k kind rest) :
    afterModifiers (.token k :: rest) = .token k :: rest := by
  have hsign : k.is .punctuation "@" = false := by simp [Token.is, h.name]
  have hmember : (k.is .identifier "class" && startsClassMember rest) = false := by
    by_cases hclass : k.is .identifier "class" = true
    · rw [h.member (is_iff.mp hclass).2, Bool.and_false]
    · simp [hclass]
  rw [afterModifiers_token, hsign, isWord_modifiers_of_lookup h.word, hmember]
  simp

/-- What follows a prefix begins with a token that is no parenthesis, and is a name unless it
begins an attribute. -/
theorem Declares.exists_head (h : Declares k kind rest) (ds : List Decoration) :
    ∃ t r, partsOf ds ++ .token k :: rest = .token t :: r ∧ t.text ≠ ['(']
      ∧ (t.kind = .identifier ↔ ∀ d ∈ ds.head?, d.isAttribute = false) := by
  cases ds with
  | nil => exact ⟨k, rest, rfl, text_ne_of_lookup h.word, by simp [h.name]⟩
  | cons d r =>
      cases d with
      | attr sign name arguments hsign hname harguments =>
          obtain ⟨hkind, htext⟩ := is_iff.mp hsign
          exact ⟨sign, _, rfl, by simp [htext], by simp [hkind, Decoration.isAttribute]⟩
      | modifier word argument hword hargument =>
          exact ⟨word, _, rfl, text_ne_of_isWord_modifiers hword.2,
            by simp [hword.1, Decoration.isAttribute]⟩

/-- **Which prefixes are passed over.** Either no modifier stands in front of an attribute and
the declaration is found, or the first such modifier is. -/
theorem Declares.afterModifiers_prefix (h : Declares k kind rest) (ds : List Decoration) :
    (ds.IsChain Admits ∧ afterModifiers (partsOf ds ++ .token k :: rest) = .token k :: rest)
      ∨ (¬ ds.IsChain Admits ∧ ∃ word r, IsModifier word
          ∧ afterModifiers (partsOf ds ++ .token k :: rest) = .token word :: r) := by
  induction ds with
  | nil => exact .inl ⟨.nil, h.afterModifiers_eq⟩
  | cons d r ih =>
      obtain ⟨t, us, hhead, htext, hname⟩ := h.exists_head r
      have hparts : partsOf (d :: r) ++ .token k :: rest = d.parts ++ .token t :: us := by
        rw [partsOf, List.flatMap_cons, List.append_assoc, ← hhead]
        rfl
      rw [hhead] at ih
      rw [hparts, List.isChain_cons]
      cases d with
      | attr sign name arguments hsign hkind harguments =>
          have hadmits : ∀ next ∈ r.head?,
              Admits (.attr sign name arguments hsign hkind harguments) next := fun _ _ _ => rfl
          rw [Decoration.parts, afterModifiers_attribute hsign hkind harguments htext,
            and_iff_right hadmits]
          exact ih
      | modifier word argument hword hargument =>
          have hadmits : (∀ next ∈ r.head?, Admits (.modifier word argument hword hargument) next)
              ↔ t.kind = .identifier := by
            rw [hname]
            simp [Admits, Decoration.isAttribute]
          rw [Decoration.parts, afterModifiers_modifier hword hargument htext, hadmits]
          by_cases ht : t.kind = .identifier
          · rw [if_pos ht]
            simpa [ht] using ih
          · rw [if_neg ht]
            exact .inr ⟨fun hchain => ht hchain.1, word, _, hword, rfl⟩

end Declares

/-! ## What is declared -/

theorem classify_of_declares {k : Token} {kind : ItemKind} {rest parts : List Part}
    (h : Declares k kind rest) (hparts : afterModifiers parts = .token k :: rest) :
    classify parts = kind := by
  rw [classify, hparts]
  simp only [h.name, h.word]

/-- What begins with a modifier that is not passed over is a statement. -/
theorem classify_of_modifier {word : Token} {r parts : List Part} (h : IsModifier word)
    (hparts : afterModifiers parts = .token word :: r) : classify parts = .statement := by
  obtain ⟨hdeclares, hnamed⟩ := lookup_of_isWord_modifiers h.2
  rw [classify, hparts]
  simp only [h.1, hdeclares, hnamed]

/-- **Attributes and modifiers hide a declaration in one way only.** Behind any sequence of
attributes and modifiers, and whatever follows it, a word that declares is found, and decides
what is declared, if and only if no modifier stands directly in front of an attribute;
otherwise the item is a statement. -/
theorem declares_behind_prefix (ds : List Decoration) {k : Token} {kind : ItemKind}
    {rest : List Part} (h : Declares k kind rest) :
    (afterModifiers (partsOf ds ++ .token k :: rest) = .token k :: rest ↔ ds.IsChain Admits)
      ∧ (ds.IsChain Admits → classify (partsOf ds ++ .token k :: rest) = kind)
      ∧ (¬ ds.IsChain Admits → classify (partsOf ds ++ .token k :: rest) = .statement) := by
  rcases h.afterModifiers_prefix ds with ⟨hchain, hfound⟩ | ⟨hchain, word, r, hword, hfound⟩
  · exact ⟨iff_of_true hfound hchain, fun _ => classify_of_declares h hfound,
      fun hnot => absurd hchain hnot⟩
  · refine ⟨iff_of_false (fun heq => ?_) hchain, fun hchain' => absurd hchain' hchain,
      fun _ => classify_of_modifier hword hfound⟩
    -- the modifier that is found is not the word that declares
    obtain ⟨hsame, _⟩ := List.cons_eq_cons.mp (hfound.symm.trans heq)
    exact h.ne_modifier hword (Part.token.inj hsame)

theorem declares_behind_prefix_unowned :
    ∃ ds k rest, ds.length = 2
      ∧ Token.sourceAll (tokensOfParts (partsOf ds ++ .token k :: rest))
        = "@a(b) unowned(unsafe) var x".toList
      ∧ Declares k .variableDecl rest
      ∧ afterModifiers (partsOf ds ++ .token k :: rest) = .token k :: rest
      ∧ classify (partsOf ds ++ .token k :: rest) = .variableDecl := by
  let plain (kind : Token.Kind) (text : String) : Token := ⟨kind, text.toList, [], [], 1⟩
  let spaced (kind : Token.Kind) (text : String) : Token :=
    ⟨kind, text.toList, [], [⟨.spaces, [' ']⟩], 1⟩
  have hinner : Balanced [.token (plain .identifier "b")] := .token rfl rfl .nil
  have harguments : IsAttributeArguments (.token (plain .punctuation "(") ::
      ([.token (plain .identifier "b")] ++ [.token (spaced .punctuation ")")])) :=
    .run rfl rfl rfl hinner
  have hargument : IsModifierArgument [.token (plain .punctuation "("),
      .token (plain .identifier "unsafe"), .token (spaced .punctuation ")")] :=
    .word rfl (by decide) rfl
  let ds : List Decoration :=
    [.attr (plain .punctuation "@") (plain .identifier "a") _ rfl rfl harguments,
      .modifier (plain .identifier "unowned") _ ⟨rfl, by decide⟩ hargument]
  have hdeclares : Declares (spaced .identifier "var") .variableDecl
      [.token (plain .identifier "x")] := ⟨rfl, by decide, fun hclass => absurd hclass (by decide)⟩
  have hchain : ds.IsChain Admits := List.isChain_pair.mpr fun hattribute => by cases hattribute
  obtain ⟨hfound, hkinds, _⟩ := declares_behind_prefix ds hdeclares
  exact ⟨ds, _, _, rfl, rfl, hdeclares, hfound.mpr hchain, hkinds hchain⟩

/-- Parts without braces are their tokens. -/
theorem eq_map_token {ps : List Part} (h : ∀ p ∈ ps, p.lists = []) :
    ps = (ps.map Part.firstToken).map .token := by
  have hself : ∀ p ∈ ps, (Part.token ∘ Part.firstToken) p = id p := by
    intro p hp
    cases p with
    | token t => rfl
    | group _ _ _ => exact absurd (h _ hp) (by simp [Part.lists])
  rw [List.map_map, List.map_congr_left hself, List.map_id]

/-- A declaration that is not found, and so leaves its source without any. -/
theorem hidden_declaration :
    ∃ source tree ds k rest,
      source = "public @objc func f() \x7b\x7d\n".toList
      ∧ SourceTree.parse .swift source = .ok tree
      ∧ tree.members.length = 1 ∧ directParts tree.members = partsOf ds ++ .token k :: rest
      ∧ ds.length = 2 ∧ Declares k .functionDecl rest
      ∧ afterModifiers (directParts tree.members) ≠ .token k :: rest
      ∧ classify (directParts tree.members) = .statement ∧ tree.isEmpty = true := by
  let spaced (kind : Token.Kind) (text : String) : Token :=
    ⟨kind, text.toList, [], [⟨.spaces, [' ']⟩], 1⟩
  let sign : Token := ⟨.punctuation, ['@'], [], [], 1⟩
  have hparse : (SourceTree.parse .swift "public @objc func f() \x7b\x7d\n".toList).toOption.any
      (fun tree => decide (tree.members.length = 1 ∧ tree.isEmpty = true
        ∧ (∀ p ∈ (directParts tree.members).take 4, p.lists.isEmpty = true)
        ∧ ((directParts tree.members).take 4).map Part.firstToken
          = [spaced .identifier "public", sign, spaced .identifier "objc",
            spaced .identifier "func"])) = true := by
    decide +kernel
  obtain ⟨tree, htree, hshape⟩ := exists_of_parse_any hparse
  obtain ⟨hone, hempty, hplain, htokens⟩ := of_decide_eq_true hshape
  let ds : List Decoration :=
    [.modifier (spaced .identifier "public") [] ⟨rfl, by decide⟩ .none,
      .attr sign (spaced .identifier "objc") [] rfl rfl .none]
  have hparts : directParts tree.members
      = partsOf ds ++ .token (spaced .identifier "func") :: (directParts tree.members).drop 4 := by
    have hfront := eq_map_token fun p hp => List.isEmpty_iff.mp (hplain p hp)
    rw [htokens] at hfront
    conv_lhs => rw [← List.take_append_drop 4 (directParts tree.members), hfront]
    rfl
  have hdeclares : Declares (spaced .identifier "func") .functionDecl
      ((directParts tree.members).drop 4) :=
    ⟨rfl, by decide, fun hclass => absurd hclass (by decide)⟩
  have hchain : ¬ ds.IsChain Admits := fun h =>
    absurd (List.isChain_pair.mp h rfl) (by simp [Decoration.isAttribute])
  rcases hdeclares.afterModifiers_prefix ds with ⟨h, _⟩ | ⟨_, found, r, hfound, heq⟩
  · exact absurd h hchain
  · rw [← hparts] at heq
    refine ⟨_, tree, ds, _, _, rfl, htree, hone, hparts, rfl, hdeclares, fun heq' => ?_,
      classify_of_modifier hfound heq, hempty⟩
    obtain ⟨hsame, _⟩ := List.cons_eq_cons.mp (heq.symm.trans heq')
    exact hdeclares.ne_modifier hfound (Part.token.inj hsame)

end Item
end Unflag
