/-
The comments of a resolved source.

A comment belongs to the token whose trivia it is in. A resolution keeps the comments of the
tokens that are left, and it moves only those in front of a block: the comments in front of
the first directive of a block it resolves come to stand in front of a token that is left, or
in a placeholder. All other comments go with their tokens (`resolve_keeps_comments`).

`Commented` is `Pruned` with an account of the comments. The one place where an account is
needed is a body that moves up (`Commented.spliceTokens`): blocks that were resolved at the
top of it have left their comments in placeholders, and these are collected, together with the
comments in front of the body's block, until a token is found that is left. Line breaks are
taken out on the way, comments are not.
-/
import Mathlib.Data.List.Flatten
import Unflag.Proofs.KeptLines

set_option autoImplicit false

namespace Unflag

open scoped List

variable {flag : Text}

/-! ## Comments -/

/-- The comments of trivia. -/
def Trivia.comments (ts : Trivia) : Trivia := ts.filter fun p => p.kind.isComment

/-- The comments of a token, those in front of it first. -/
def Token.comments (t : Token) : Trivia := t.leading.comments ++ t.trailing.comments

/-- The comments of a list of tokens. -/
def commentsOf (ts : List Token) : Trivia := ts.flatMap Token.comments

@[simp] theorem Trivia.comments_append (a b : Trivia) :
    Trivia.comments (a ++ b) = a.comments ++ b.comments := List.filter_append a b

/-- A line break is no comment. -/
@[simp] theorem Trivia.comments_dropDirectiveLine (ts : Trivia) :
    ts.dropDirectiveLine.comments = ts.comments := by
  cases ts with
  | nil => rfl
  | cons p r =>
      rw [dropDirectiveLine]
      by_cases hnewline : p.kind.isNewline = true
      · have hskip : ∀ q : Piece, q.kind = p.kind → comments (q :: r) = comments r := by
          intro q hq
          refine List.filter_cons_of_neg ?_
          rw [hq]
          cases hkind : p.kind <;> rw [hkind] at hnewline <;> revert hnewline <;> decide
        rw [if_pos hnewline, hskip p rfl]
        split
        · cases hless : p.withCount? (p.count - 1) with
          | none => rfl
          | some q =>
              obtain ⟨unit, _, rfl⟩ := Option.map_eq_some_iff.mp hless
              exact hskip _ rfl
        · rfl
      · rw [if_neg hnewline]

/-! ## Blocks that leave something -/

/-- Whether anything is left of the body that a block on the flag keeps. -/
def leavesTokens (flag : Text) (cs : List Clause) : Bool :=
  ((Build.only flag).chosen cs).any fun c => hasContent (resolveNodes flag c.body)

/-- Blocks around a token of which something is left where the token stands: those on the flag
keep the body it is in, and something is left of that body. -/
def Lasts (flag : Text) (around : List (List Clause × Place)) : Prop :=
  ∀ a ∈ around, FlagsAre flag a.1 → a.2.IsKept flag a.1 ∧ leavesTokens flag a.1 = true

instance (flag : Text) (around : List (List Clause × Place)) : Decidable (Lasts flag around) :=
  inferInstanceAs (Decidable (∀ a ∈ around, FlagsAre flag a.1 → _))

theorem Lasts.stays {around : List (List Clause × Place)} (h : Lasts flag around) :
    Stays flag around := fun a ha hflags => (h a ha hflags).1

theorem Lasts.append {up : List (List Clause × Place)} (h : Lasts flag up) {cs : List Clause}
    {p : Place} (hp : FlagsAre flag cs → p.IsKept flag cs ∧ leavesTokens flag cs = true) :
    Lasts flag (up ++ [(cs, p)]) :=
  List.forall_mem_append.mpr ⟨h, List.forall_mem_singleton.mpr hp⟩

namespace Occurrence

/-- The first directive of a block on the flag, unless the block lies in a clause that is
dropped, or in a kept body of which nothing is left. -/
def IsResolvedOpening (flag : Text) (o : Occurrence) : Prop :=
  o.IsAt flag (fun p => decide (p = .opening 0 0)) ∧ Lasts flag o.around.dropLast

instance (flag : Text) (o : Occurrence) : Decidable (o.IsResolvedOpening flag) :=
  inferInstanceAs (Decidable (_ ∧ _))

/-- The comments that a token that is dropped leaves to another. -/
def handedOn (flag : Text) (o : Occurrence) : Trivia :=
  if o.IsResolvedOpening flag then o.token.leading.comments else []

/-- The comments of a token that are in the result. -/
def keptComments (flag : Text) (o : Occurrence) : Trivia :=
  if o.IsDropped flag then o.handedOn flag else o.token.comments

theorem IsResolvedOpening.isDropped {o : Occurrence} (h : o.IsResolvedOpening flag) :
    o.IsDropped flag := by
  obtain ⟨⟨a, ha, hflags, hplace⟩, _⟩ := h
  refine ⟨a, List.mem_of_getLast? ha, hflags, fun hkept => ?_⟩
  rw [of_decide_eq_true hplace] at hkept
  exact hkept

theorem handedOn_of_silent {o : Occurrence} (h : ¬ o.IsResolvedOpening flag) :
    o.handedOn flag = [] := if_neg h

theorem sublist_keptComments (flag : Text) (o : Occurrence) :
    o.keptComments flag <+ o.token.comments := by
  unfold keptComments handedOn
  split
  · split
    · exact List.sublist_append_left _ _
    · exact List.nil_sublist _
  · exact List.Sublist.refl _

/-- A token stands at a place in a block. -/
def StandsAt (up : List (List Clause × Place)) (cs : List Clause) (p : Place) (o : Occurrence) :
    Prop := up ++ [(cs, p)] <+: o.around

end Occurrence

/-- Tokens of one block on the flag, in front of its end. -/
def InOneBlock (flag : Text) (us : List Occurrence) : Prop :=
  ∃ up cs, FlagsAre flag cs ∧ ∀ u ∈ us, ∃ p, p ≠ .ending ∧ u.StandsAt up cs p

/-! ## The account -/

/-- What becomes of the tokens of a list and of their comments. -/
inductive Commented (flag : Text) : List Occurrence → List Token → Prop
  | done : Commented flag [] []
  /-- A token stays as it is. -/
  | keep {os : List Occurrence} {ts : List Token} (o : Occurrence) (hkept : ¬ o.IsDropped flag)
      (h : Commented flag os ts) : Commented flag (o :: os) (o.token :: ts)
  /-- A token goes with its comments. -/
  | drop {os : List Occurrence} {ts : List Token} (o : Occurrence) (hdropped : o.IsDropped flag)
      (hsilent : ¬ o.IsResolvedOpening flag) (h : Commented flag os ts) :
      Commented flag (o :: os) ts
  /-- A directive goes and leaves the trivia in front of it. -/
  | vacate {os : List Occurrence} {ts : List Token} (d : Occurrence)
      (hd : d.IsResolvedOpening flag) (h : Commented flag os ts) :
      Commented flag (d :: os) (.placeholder d.token.leading :: ts)
  /-- A run of tokens goes, and the token behind it takes over the comments. -/
  | splice {os : List Occurrence} {ts : List Token} (run : List Occurrence) (o : Occurrence)
      (leading : Trivia) (hdropped : ∀ u ∈ run, u.IsDropped flag) (hkept : ¬ o.IsDropped flag)
      (hblock : InOneBlock flag (run ++ [o]))
      (hcomments : leading.comments
        = run.flatMap (Occurrence.handedOn flag) ++ o.token.leading.comments)
      (h : Commented flag os ts) :
      Commented flag (run ++ o :: os) (o.token.withLeading leading :: ts)

namespace Commented

theorem append {os os' : List Occurrence} {ts ts' : List Token} (h : Commented flag os ts)
    (h' : Commented flag os' ts') : Commented flag (os ++ os') (ts ++ ts') := by
  induction h with
  | done => exact h'
  | keep o hkept _ ih => exact .keep o hkept ih
  | drop o hdropped hsilent _ ih => exact .drop o hdropped hsilent ih
  | vacate d hd _ ih => exact .vacate d hd ih
  | splice run o leading hdropped hkept hblock hcomments _ ih =>
      rw [List.append_assoc]
      exact .splice run o leading hdropped hkept hblock hcomments ih

/-- Tokens that all go with their comments. -/
theorem of_silent {os : List Occurrence}
    (h : ∀ o ∈ os, o.IsDropped flag ∧ ¬ o.IsResolvedOpening flag) : Commented flag os [] := by
  induction os with
  | nil => exact .done
  | cons o r ih =>
      obtain ⟨⟨hdropped, hsilent⟩, hr⟩ := List.forall_mem_cons.mp h
      exact .drop o hdropped hsilent (ih hr)

/-- **A body that moves up.** The run in front of it grows until a token is left, and that
token takes over the comments of the run. -/
theorem spliceTokens {os : List Occurrence} {ts : List Token} (h : Commented flag os ts)
    (hos : ∀ o ∈ os, o.token.kind ≠ .placeholder) (hcontent : ∃ t ∈ ts, t.kind ≠ .placeholder)
    {up : List (List Clause × Place)} {cs : List Clause} (hflags : FlagsAre flag cs)
    {run : List Occurrence} (hdropped : ∀ u ∈ run, u.IsDropped flag)
    (hblock : ∀ u ∈ run ++ os, ∃ p, p ≠ .ending ∧ u.StandsAt up cs p) {leading : Trivia}
    (hcomments : leading.comments = run.flatMap (Occurrence.handedOn flag)) :
    Commented flag (run ++ os) (spliceTokens leading ts) := by
  induction h generalizing run leading with
  | done =>
      obtain ⟨t, ht, _⟩ := hcontent
      exact absurd ht List.not_mem_nil
  | keep o hkept htail _ =>
      rw [Unflag.spliceTokens, if_neg (hos o List.mem_cons_self)]
      refine .splice run o _ hdropped hkept ⟨up, cs, hflags, fun u hu => hblock u ?_⟩ ?_ htail
      · rcases List.mem_append.mp hu with hu | hu
        · exact List.mem_append_left _ hu
        · simp [List.mem_singleton.mp hu]
      · simp [hcomments]
  | @drop os' ts' o ho hsilent htail ih =>
      have hrun : ∀ u ∈ run ++ [o], u.IsDropped flag :=
        List.forall_mem_append.mpr ⟨hdropped, List.forall_mem_singleton.mpr ho⟩
      have hleading : leading.comments = (run ++ [o]).flatMap (Occurrence.handedOn flag) := by
        simp [hcomments, Occurrence.handedOn_of_silent hsilent]
      simpa using ih (fun u hu => hos u (List.mem_cons_of_mem _ hu)) hcontent hrun
        (by simpa using hblock) hleading
  | @vacate os' ts' d hd htail ih =>
      have hcontent' : ∃ t ∈ ts', t.kind ≠ .placeholder := by
        obtain ⟨t, ht, hkind⟩ := hcontent
        rcases List.mem_cons.mp ht with rfl | ht
        · exact absurd rfl hkind
        · exact ⟨t, ht, hkind⟩
      have hrun : ∀ u ∈ run ++ [d], u.IsDropped flag :=
        List.forall_mem_append.mpr ⟨hdropped, List.forall_mem_singleton.mpr hd.isDropped⟩
      have hleading : Trivia.comments (leading ++ d.token.leading.dropDirectiveLine)
          = (run ++ [d]).flatMap (Occurrence.handedOn flag) := by
        simp [hcomments, Occurrence.handedOn, hd]
      have hplaceholder : (Token.placeholder d.token.leading).kind = .placeholder := rfl
      rw [Unflag.spliceTokens, if_pos hplaceholder]
      simpa [Token.placeholder] using ih (fun u hu => hos u (List.mem_cons_of_mem _ hu)) hcontent'
        hrun (by simpa using hblock) hleading
  | @splice os' ts' run' o leading' hdropped' hkept _ hcomments' htail _ =>
      have hkind : (o.token.withLeading leading').kind ≠ .placeholder := hos o (by simp)
      rw [Unflag.spliceTokens, if_neg hkind, ← List.append_assoc]
      refine .splice (run ++ run') o _ (List.forall_mem_append.mpr ⟨hdropped, hdropped'⟩) hkept
        ⟨up, cs, hflags, fun u hu => hblock u ?_⟩ ?_ htail
      · simp only [List.mem_append, List.mem_cons] at hu ⊢
        tauto
      · simp [hcomments, hcomments']

end Commented

/-! ## Places in a block -/

/-- The clause a place is in. -/
def Place.clause? : Place → Option Nat
  | .opening i _ => some i
  | .body i => some i
  | .ending => none

section Block

variable {up : List (List Clause × Place)} {cs : List Clause}

/-- A place in a clause that is not left is not kept. -/
theorem Place.not_isKept {p : Place} {i j : Nat} (hkept : keptPlace flag cs = some i)
    (hp : p.clause? = some j) (hne : j ≠ i) : ¬ p.IsKept flag cs := by
  cases p with
  | opening _ _ => exact id
  | body k =>
      cases hp
      intro hk
      exact hne (Option.some.inj (hk.symm.trans hkept))
  | ending => exact id

namespace Occurrence.StandsAt

variable {u : Occurrence} {p q : Place}

theorem unique (hp : u.StandsAt up cs p) (hq : u.StandsAt up cs q) : p = q := by
  obtain ⟨a, ha⟩ := hp
  obtain ⟨b, hb⟩ := hq
  have hplaces := List.append_inj_left (ha.trans hb.symm) (by simp)
  simpa using hplaces

theorem isDropped (h : u.StandsAt up cs p) (hflags : FlagsAre flag cs)
    (hp : ¬ p.IsKept flag cs) : u.IsDropped flag :=
  ⟨(cs, p), h.subset (by simp), hflags, hp⟩

/-- A token of a block leaves no comments, its first directive apart, where it is dropped with
its clause or where nothing is left of the block. -/
theorem not_isResolvedOpening (h : u.StandsAt up cs p) (hflags : FlagsAre flag cs)
    (hp : p ≠ .opening 0 0) (hlost : ¬ p.IsKept flag cs ∨ leavesTokens flag cs = false) :
    ¬ u.IsResolvedOpening flag := by
  rintro ⟨⟨a, ha, _, hplace⟩, hlasts⟩
  obtain ⟨rest, hrest⟩ := h
  rcases List.eq_nil_or_concat rest with rfl | ⟨init, b, rfl⟩
  · rw [List.append_nil] at hrest
    rw [← hrest, List.getLast?_concat] at ha
    cases ha
    exact hp (of_decide_eq_true hplace)
  · rw [← hrest, List.concat_eq_append, ← List.append_assoc, List.dropLast_concat] at hlasts
    obtain ⟨hkept, hleaves⟩ := hlasts (cs, p) (by simp) hflags
    rcases hlost with hlost | hlost
    · exact hlost hkept
    · exact absurd (hlost.symm.trans hleaves) (by simp)

end Occurrence.StandsAt

theorem standsAt_opening {all : List Clause} {i : Nat} {h : ClauseHead} :
    ∀ o ∈ openingOf up all i h, ∃ k, o.StandsAt up all (.opening i k) := by
  intro o ho
  obtain ⟨k, hk⟩ := mem_openingOf ho
  exact ⟨k, ⟨[], by rw [hk, List.append_nil]⟩⟩

theorem standsAt_body {all : List Clause} {i : Nat} {ns : List Node} :
    ∀ o ∈ occurrencesOfNodes (up ++ [(all, .body i)]) ns, o.StandsAt up all (.body i) :=
  prefix_around_of_mem

/-- The tokens of the clauses of a block stand in these clauses. -/
theorem standsAt_clauses {all : List Clause} {i : Nat} {ds : List Clause} :
    ∀ o ∈ occurrencesOfClauses up all i ds, ∃ p j, o.StandsAt up all p ∧ p.clause? = some j
      ∧ i ≤ j ∧ j < i + ds.length := by
  induction ds generalizing i with
  | nil => exact fun o ho => absurd ho List.not_mem_nil
  | cons c r ih =>
      intro o ho
      rw [List.length_cons]
      rcases List.mem_append.mp ho with ho | ho
      · rw [c.occurrences_eq] at ho
        rcases List.mem_append.mp ho with ho | ho
        · obtain ⟨k, hk⟩ := standsAt_opening o ho
          exact ⟨.opening i k, i, hk, rfl, by omega, by omega⟩
        · exact ⟨.body i, i, standsAt_body o ho, rfl, by omega, by omega⟩
      · obtain ⟨p, j, hp, hj, hle, hlt⟩ := ih o ho
        exact ⟨p, j, hp, hj, by omega, by omega⟩

/-- The clauses of a block begin with its first directive, and there is no other in them. -/
theorem occurrencesOfClauses_first (up : List (List Clause × Place)) (c : Clause)
    (r : List Clause) :
    ∃ rest, occurrencesOfClauses up (c :: r) 0 (c :: r)
        = ⟨c.head.directive, up ++ [(c :: r, .opening 0 0)]⟩ :: rest
      ∧ ∀ o ∈ rest, ∃ p, p ≠ .opening 0 0 ∧ o.StandsAt up (c :: r) p := by
  rw [occurrencesOfClauses, c.occurrences_eq, openingOf, List.zipIdx_cons, List.map_cons]
  refine ⟨_, rfl, fun o ho => ?_⟩
  rcases List.mem_append.mp ho with ho | ho
  · rcases List.mem_append.mp ho with ho | ho
    · obtain ⟨t, ht, rfl⟩ := List.mem_map.mp ho
      have hindex := List.le_snd_of_mem_zipIdx ht
      refine ⟨.opening 0 t.2, fun heq => ?_, List.prefix_rfl⟩
      have hfirst : t.2 = 0 := by simpa using heq
      omega
    · exact ⟨.body 0, by simp, standsAt_body o ho⟩
  · obtain ⟨p, j, hp, hj, hle, _⟩ := standsAt_clauses o ho
    refine ⟨p, ?_, hp⟩
    rintro rfl
    cases hj
    omega

/-- The first directive of a block on the flag is one that is resolved, where the block lasts. -/
theorem isResolvedOpening_first (hup : Lasts flag up) (hflags : FlagsAre flag cs) (t : Token) :
    Occurrence.IsResolvedOpening flag ⟨t, up ++ [(cs, .opening 0 0)]⟩ :=
  ⟨⟨(cs, .opening 0 0), by simp, hflags, rfl⟩, by simpa using hup⟩

theorem ne_nil_of_flagsAre (hflags : FlagsAre flag cs) : cs ≠ [] := by
  rintro rfl
  exact absurd hflags (by simp [FlagsAre, conditionsOf, Condition.namesAll])

/-- A block of which nothing is left leaves the comments in front of it. -/
theorem commented_vacated (hup : Lasts flag up) (hflags : FlagsAre flag cs) {ending : Token}
    (hleaves : leavesTokens flag cs = false)
    (hdropped : ∀ o ∈ (Node.block cs ending).occurrences up, o.IsDropped flag) :
    Commented flag ((Node.block cs ending).occurrences up) (tokensOfNodes (vacated cs)) := by
  obtain ⟨c, r, rfl⟩ := List.exists_cons_of_ne_nil (ne_nil_of_flagsAre hflags)
  obtain ⟨rest, heq, hrest⟩ := occurrencesOfClauses_first up c r
  rw [Node.occurrences, heq, List.cons_append] at hdropped ⊢
  refine .vacate _ (isResolvedOpening_first hup hflags _) (.of_silent fun o ho => ?_)
  refine ⟨hdropped o (List.mem_cons_of_mem _ ho), ?_⟩
  rcases List.mem_append.mp ho with ho | ho
  · obtain ⟨p, hp, hstands⟩ := hrest o ho
    exact hstands.not_isResolvedOpening hflags hp (.inr hleaves)
  · rw [List.mem_singleton.mp ho]
    exact Occurrence.StandsAt.not_isResolvedOpening List.prefix_rfl hflags (by simp) (.inl id)

section Chosen

variable {pre post : List Clause} {c : Clause}

/-- In front of the kept body of a block nothing is kept, and the block does not end. -/
theorem standsAt_front (hi : keptPlace flag cs = some pre.length) :
    ∀ o ∈ occurrencesOfClauses up cs 0 pre ++ openingOf up cs pre.length c.head,
      ∃ p, p ≠ .ending ∧ ¬ p.IsKept flag cs ∧ o.StandsAt up cs p := by
  intro o ho
  rcases List.mem_append.mp ho with ho | ho
  · obtain ⟨p, j, hp, hj, _, hlt⟩ := standsAt_clauses o ho
    refine ⟨p, ?_, Place.not_isKept hi hj (by omega), hp⟩
    rintro rfl
    cases hj
  · obtain ⟨k, hk⟩ := standsAt_opening o ho
    exact ⟨_, by simp, id, hk⟩

/-- What stands there leaves the comments in front of the block, and no others. -/
theorem handedOn_front (hup : Lasts flag up) (hflags : FlagsAre flag cs)
    (hcs : cs = pre ++ c :: post) (hi : keptPlace flag cs = some pre.length) :
    (occurrencesOfClauses up cs 0 pre ++ openingOf up cs pre.length c.head).flatMap
      (Occurrence.handedOn flag) = (leadingOf cs).comments := by
  obtain ⟨first, others, rfl⟩ := List.exists_cons_of_ne_nil (ne_nil_of_flagsAre hflags)
  obtain ⟨rest, hcons, hrest⟩ := occurrencesOfClauses_first up first others
  obtain ⟨d, run, hrun⟩ : ∃ d run, occurrencesOfClauses up (first :: others) 0 pre
      ++ openingOf up (first :: others) pre.length c.head = d :: run := by
    obtain ⟨us, hus⟩ := openingOf_eq_cons up (first :: others) pre.length c.head
    exact List.exists_cons_of_ne_nil (by simp [hus])
  have hfront : ∀ o ∈ d :: run,
      ∃ p, p ≠ .ending ∧ ¬ p.IsKept flag (first :: others) ∧ o.StandsAt up (first :: others) p := by
    rw [← hrun]
    exact standsAt_front hi
  rw [occurrencesOfClauses_split up hcs, hrun] at hcons
  obtain ⟨rfl, rfl⟩ := List.cons_eq_cons.mp hcons
  have hsilent : run.flatMap (Occurrence.handedOn flag) = [] := by
    refine List.flatMap_eq_nil_iff.mpr fun o ho => Occurrence.handedOn_of_silent ?_
    obtain ⟨p, _, hp, hstands⟩ := hfront o (List.mem_cons_of_mem _ ho)
    obtain ⟨q, hq, hstands'⟩ := hrest o (List.mem_append_left _ ho)
    obtain rfl := hstands.unique hstands'
    exact hstands.not_isResolvedOpening hflags hq (.inl hp)
  rw [hrun, List.flatMap_cons, hsilent, List.append_nil, Occurrence.handedOn,
    if_pos (isResolvedOpening_first hup hflags _)]
  rfl

/-- Behind the kept body everything goes with its comments. -/
theorem silent_behind (hflags : FlagsAre flag cs) (hi : keptPlace flag cs = some pre.length)
    (ending : Token) :
    ∀ o ∈ occurrencesOfClauses up cs (pre.length + 1) post ++ [⟨ending, up ++ [(cs, .ending)]⟩],
      o.IsDropped flag ∧ ¬ o.IsResolvedOpening flag := by
  intro o ho
  obtain ⟨p, hfirst, hp, hstands⟩ :
      ∃ p, p ≠ .opening 0 0 ∧ ¬ p.IsKept flag cs ∧ o.StandsAt up cs p := by
    rcases List.mem_append.mp ho with ho | ho
    · obtain ⟨p, j, hp, hj, hle, _⟩ := standsAt_clauses o ho
      refine ⟨p, ?_, Place.not_isKept hi hj (by omega), hp⟩
      rintro rfl
      cases hj
      omega
    · rw [List.mem_singleton.mp ho]
      exact ⟨.ending, by simp, id, List.prefix_rfl⟩
  exact ⟨hstands.isDropped hflags hp, hstands.not_isResolvedOpening hflags hfirst (.inl hp)⟩

/-- **A block on the flag of which something is left**: the comments in front of it go up with
the body, and all others in its lines and in its other clauses go. -/
theorem commented_of_chosen (hup : Lasts flag up) (hflags : FlagsAre flag cs)
    (hchosen : (Build.only flag).chosen cs = some c)
    (hcontent : hasContent (resolveNodes flag c.body) = true) (ending : Token)
    (hbody : ∀ i, keptPlace flag cs = some i →
      Commented flag (occurrencesOfNodes (up ++ [(cs, .body i)]) c.body)
        (tokensOfNodes (resolveNodes flag c.body)))
    (hsolid : ∀ t ∈ tokensOfNodes c.body, t.kind ≠ .placeholder) :
    Commented flag ((Node.block cs ending).occurrences up)
      (spliceTokens (leadingOf cs) (tokensOfNodes (resolveNodes flag c.body))) := by
  obtain ⟨pre, post, hcs, hi⟩ := exists_split_of_chosen hchosen
  have hdropped : ∀ o ∈ occurrencesOfClauses up cs 0 pre ++ openingOf up cs pre.length c.head,
      o.IsDropped flag := by
    intro o ho
    obtain ⟨p, _, hp, hstands⟩ := standsAt_front hi o ho
    exact hstands.isDropped hflags hp
  have hblock : ∀ o ∈ occurrencesOfClauses up cs 0 pre ++ openingOf up cs pre.length c.head
      ++ occurrencesOfNodes (up ++ [(cs, .body pre.length)]) c.body,
      ∃ p, p ≠ .ending ∧ o.StandsAt up cs p := by
    intro o ho
    rcases List.mem_append.mp ho with ho | ho
    · obtain ⟨p, hp, _, hstands⟩ := standsAt_front hi o ho
      exact ⟨p, hp, hstands⟩
    · exact ⟨.body pre.length, by simp, standsAt_body o ho⟩
  -- the block is a run, the kept body, and another run
  have hmoved := (hbody pre.length hi).spliceTokens (forall_mem_occurrences hsolid _)
    (by simpa [hasContent] using hcontent) hflags hdropped hblock
    (handedOn_front hup hflags hcs hi).symm
  rw [Node.occurrences, occurrencesOfClauses_split up hcs]
  simpa using hmoved.append (.of_silent (silent_behind hflags hi ending))

end Chosen

end Block

/-! ## The resolved tree -/

theorem tracks_commented : Tracks flag (Lasts flag) (Commented flag) where
  nil := .done
  append := Commented.append
  stay t hup := .keep ⟨t, _⟩ hup.stays.not_isDropped .done
  other _ hup hflags := hup.append fun h => absurd h hflags
  block := by
    intro up cs ending hup hflags hblock hbodies hbody
    have hpruned := tracks_pruned.block ending hup.stays hflags hblock hbodies fun c hc i hi =>
      pruned_resolveNodes hi (hbodies c hc).1 (hbodies c hc).2
    have hsolid : ∀ o ∈ (Node.block cs ending).occurrences up, o.token.kind ≠ .placeholder := by
      have hall : ∀ t ∈ tokensOfNodes [.block cs ending], t.kind ≠ .placeholder := by
        simpa [tokensOfNodes] using hblock
      simpa [occurrencesOfNodes] using forall_mem_occurrences hall up
    -- where nothing is left of the block, all of it is known to be dropped
    have hvacated : leavesTokens flag cs = false →
        (Node.block cs ending).resolve flag = vacated cs →
        Commented flag ((Node.block cs ending).occurrences up) (tokensOfNodes (vacated cs)) := by
      intro hleaves hresolved
      rw [hresolved] at hpruned
      refine commented_vacated hup hflags hleaves
        (hpruned.isDropped_of_placeholders hsolid fun t ht => ?_)
      obtain rfl : t = .placeholder (leadingOf cs) := by
        simpa [vacated, tokensOfNodes, Node.tokens] using ht
      rfl
    have hresolve := resolve_block_of_flagsAre (Build.isOn_only flag) hflags ending
    cases hchosen : (Build.only flag).chosen cs with
    | none =>
        rw [hchosen] at hresolve
        rw [hresolve]
        exact hvacated (by simp [leavesTokens, hchosen]) hresolve
    | some c =>
        have hc := Build.mem_of_chosen hchosen
        obtain ⟨hstarts, hsolid'⟩ := hbodies c hc
        simp only [hchosen] at hresolve
        by_cases hcontent : hasContent (resolveNodes flag c.body) = true
        · have hleaves : leavesTokens flag cs = true := by simp [leavesTokens, hchosen, hcontent]
          rw [if_pos hcontent] at hresolve
          rw [hresolve, tokensOfNodes_splice (starts_resolveNodes hstarts).of_mem]
          refine commented_of_chosen hup hflags hchosen hcontent ending (fun i hi => ?_) hsolid'
          exact hbody c hc i (hup.append fun _ => ⟨hi, hleaves⟩)
        · rw [if_neg hcontent] at hresolve
          rw [hresolve]
          exact hvacated (by simp [leavesTokens, hchosen, hcontent]) hresolve

/-! ## Reading the account -/

theorem keptTokens_append (flag : Text) (os us : List Occurrence) :
    keptTokens flag (os ++ us) = keptTokens flag os ++ keptTokens flag us :=
  List.filter_append os us

theorem keptTokens_cons_of_kept {o : Occurrence} (h : ¬ o.IsDropped flag) (os : List Occurrence) :
    keptTokens flag (o :: os) = o :: keptTokens flag os :=
  List.filter_cons_of_pos (by simpa using h)

theorem keptTokens_of_dropped {os : List Occurrence} (h : ∀ o ∈ os, o.IsDropped flag) :
    keptTokens flag os = [] := by
  refine List.filter_eq_nil_iff.mpr fun o ho => ?_
  simpa using h o ho

/-- The comments in front of a directive `d`, with `before` in front of it and `after` behind it
in the source, are in front of a token `t` of the result that has `ts` in front of it. -/
structure TakesOver (flag : Text) (before : List Occurrence) (d : Occurrence)
    (after : List Occurrence) (ts : List Token) (t : Token) : Prop where
  comments : d.token.leading.comments <:+: t.leading.comments
  /-- In front of the token is exactly what is left of the tokens in front of the directive. -/
  front : List.Forall₂ (Carried flag) (keptTokens flag before) (solid ts)
  /-- It is the placeholder of the block, or the first token that is left behind the directive;
  that token stands in the block, or in another block on the flag around it. -/
  place : t = .placeholder d.token.leading ∨ ∃ run o rest, after = run ++ o :: rest
    ∧ (∀ u ∈ run, u.IsDropped flag) ∧ Carried flag o t ∧ InOneBlock flag (d :: (run ++ [o]))

namespace Commented

variable {os : List Occurrence} {ts : List Token}

/-- The token that a run of a block moves up to is carried over, with the comments of the run in
front of its own. -/
theorem carried_withLeading {run : List Occurrence} {o : Occurrence} (leading : Trivia)
    (hblock : InOneBlock flag (run ++ [o])) : Carried flag o (o.token.withLeading leading) := by
  obtain ⟨up, cs, hflags, hplaces⟩ := hblock
  obtain ⟨p, _, hstands⟩ := hplaces o (by simp)
  have hinside : o.IsInside flag := ⟨(cs, p), hstands.subset (by simp), hflags⟩
  exact ⟨rfl, rfl, rfl, rfl, fun hout => absurd hinside hout⟩

/-- The tokens left keep their comments, and what they take over stands in front. -/
theorem forall₂_carried (h : Commented flag os ts) (hos : ∀ o ∈ os, o.token.kind ≠ .placeholder) :
    List.Forall₂ (fun o t => Carried flag o t ∧ o.token.leading.comments <:+ t.leading.comments)
      (keptTokens flag os) (solid ts) := by
  induction h with
  | done => exact .nil
  | keep o hkept _ ih =>
      obtain ⟨ho, hrest⟩ := List.forall_mem_cons.mp hos
      rw [keptTokens_cons_of_kept hkept, solid_cons_of_ne ho]
      exact .cons ⟨⟨rfl, rfl, rfl, rfl, fun _ => rfl⟩, List.suffix_rfl⟩ (ih hrest)
  | drop o hdropped _ _ ih =>
      rw [← List.singleton_append, keptTokens_append,
        keptTokens_of_dropped (by simpa using hdropped)]
      exact ih (List.forall_mem_cons.mp hos).2
  | vacate d hd _ ih =>
      rw [← List.singleton_append, keptTokens_append,
        keptTokens_of_dropped (by simpa using hd.isDropped), solid_cons_placeholder]
      exact ih (List.forall_mem_cons.mp hos).2
  | splice run o leading hdropped hkept hblock hcomments _ ih =>
      obtain ⟨ho, hrest⟩ := List.forall_mem_cons.mp (List.forall_mem_append.mp hos).2
      have hkind : (o.token.withLeading leading).kind ≠ .placeholder := ho
      rw [keptTokens_append, keptTokens_of_dropped hdropped, List.nil_append,
        keptTokens_cons_of_kept hkept, solid_cons_of_ne hkind]
      refine .cons ⟨carried_withLeading leading hblock, ?_⟩ (ih hrest)
      rw [Token.leading_withLeading, hcomments]
      exact List.suffix_append _ _

/-- **The comments of the result** are those that the tokens keep or leave, in their order. -/
theorem commentsOf_eq (h : Commented flag os ts) :
    commentsOf ts = os.flatMap (Occurrence.keptComments flag) := by
  have hdropped : ∀ {us : List Occurrence}, (∀ u ∈ us, u.IsDropped flag) →
      us.flatMap (Occurrence.keptComments flag) = us.flatMap (Occurrence.handedOn flag) :=
    fun hus => List.flatMap_congr fun u hu => if_pos (hus u hu)
  unfold commentsOf
  induction h with
  | done => rfl
  | keep o hkept _ ih =>
      rw [List.flatMap_cons, List.flatMap_cons, ih, Occurrence.keptComments, if_neg hkept]
  | drop o ho hsilent _ ih =>
      rw [List.flatMap_cons, ih, Occurrence.keptComments, if_pos ho,
        Occurrence.handedOn_of_silent hsilent, List.nil_append]
  | vacate d hd _ ih =>
      have hleft : (Token.placeholder d.token.leading).comments = d.token.leading.comments :=
        List.append_nil _
      rw [List.flatMap_cons, List.flatMap_cons, ih, hleft, Occurrence.keptComments,
        if_pos hd.isDropped, Occurrence.handedOn, if_pos hd]
  | splice run o leading hrun hkept _ hcomments _ ih =>
      have hmoved : (o.token.withLeading leading).comments
          = run.flatMap (Occurrence.handedOn flag) ++ o.token.comments := by
        rw [Token.comments, Token.leading_withLeading, hcomments, List.append_assoc]
        rfl
      rw [List.flatMap_cons, List.flatMap_append, List.flatMap_cons, ih, hmoved, hdropped hrun,
        Occurrence.keptComments, if_neg hkept, List.append_assoc]

/-- More of the source in front changes nothing. -/
theorem takesOver_append {before after us : List Occurrence} {d : Occurrence}
    {ts' : List Token} {t : Token} (htakes : TakesOver flag before d after ts' t)
    (h : Commented flag us ts) (hus : ∀ o ∈ us, o.token.kind ≠ .placeholder) :
    TakesOver flag (us ++ before) d after (ts ++ ts') t := by
  have hcarried := (h.forall₂_carried hus).imp fun _ _ hboth => hboth.1
  refine ⟨htakes.comments, ?_, htakes.place⟩
  rw [keptTokens_append, solid, List.filter_append]
  exact List.rel_append hcarried htakes.front

/-- A directive of a run leaves its comments to the token that the run moves up to. -/
theorem takesOver_of_run {before last : List Occurrence} {d o : Occurrence} {leading : Trivia}
    (hd : d.IsResolvedOpening flag) (hdropped : ∀ u ∈ before ++ d :: last, u.IsDropped flag)
    (hblock : InOneBlock flag (before ++ d :: last ++ [o]))
    (hcomments : leading.comments = (before ++ d :: last).flatMap (Occurrence.handedOn flag)
      ++ o.token.leading.comments) (rest : List Occurrence) :
    TakesOver flag before d (last ++ o :: rest) [] (o.token.withLeading leading) := by
  obtain ⟨hbefore, hlast⟩ := List.forall_mem_append.mp hdropped
  refine ⟨⟨before.flatMap (Occurrence.handedOn flag),
    last.flatMap (Occurrence.handedOn flag) ++ o.token.leading.comments, ?_⟩, ?_,
    .inr ⟨last, o, rest, rfl, (List.forall_mem_cons.mp hlast).2, carried_withLeading leading hblock,
      ?_⟩⟩
  · rw [Token.leading_withLeading, hcomments, List.flatMap_append, List.flatMap_cons,
      Occurrence.handedOn, if_pos hd]
    simp only [List.append_assoc]
  · rw [keptTokens_of_dropped hbefore]
    exact .nil
  · obtain ⟨up, cs, hflags, hplaces⟩ := hblock
    refine ⟨up, cs, hflags, fun u hu => hplaces u ?_⟩
    rw [List.append_assoc]
    exact List.mem_append_right _ hu

/-- **The comments in front of a block** are taken over by a token in its place. -/
theorem exists_takesOver (h : Commented flag os ts)
    (hos : ∀ o ∈ os, o.token.kind ≠ .placeholder) {before after : List Occurrence}
    {d : Occurrence} (hsplit : os = before ++ d :: after) (hd : d.IsResolvedOpening flag) :
    ∃ ts' t us, ts = ts' ++ t :: us ∧ TakesOver flag before d after ts' t := by
  -- either the first step is about the directive, or the directive comes later
  induction h generalizing before with
  | done => exact absurd hsplit (by simp)
  | keep o hkept _ ih =>
      obtain ⟨ho, hrest⟩ := List.forall_mem_cons.mp hos
      rcases List.cons_eq_append_iff.mp hsplit with ⟨rfl, heq⟩ | ⟨later, rfl, heq⟩
      · obtain ⟨rfl, _⟩ := List.cons_eq_cons.mp heq
        exact absurd hd.isDropped hkept
      · obtain ⟨ts', t, us, rfl, htakes⟩ := ih hrest heq
        exact ⟨_, t, us, rfl, takesOver_append htakes (.keep o hkept .done) (by simpa using ho)⟩
  | drop o hdropped hsilent _ ih =>
      obtain ⟨ho, hrest⟩ := List.forall_mem_cons.mp hos
      rcases List.cons_eq_append_iff.mp hsplit with ⟨rfl, heq⟩ | ⟨later, rfl, heq⟩
      · obtain ⟨rfl, _⟩ := List.cons_eq_cons.mp heq
        exact absurd hd hsilent
      · obtain ⟨ts', t, us, rfl, htakes⟩ := ih hrest heq
        exact ⟨ts', t, us, rfl,
          takesOver_append htakes (.drop o hdropped hsilent .done) (by simpa using ho)⟩
  | vacate d' hd' _ ih =>
      obtain ⟨ho, hrest⟩ := List.forall_mem_cons.mp hos
      rcases List.cons_eq_append_iff.mp hsplit with ⟨rfl, heq⟩ | ⟨later, rfl, heq⟩
      · obtain ⟨rfl, rfl⟩ := List.cons_eq_cons.mp heq
        exact ⟨[], _, _, rfl, List.infix_rfl, .nil, .inl rfl⟩
      · obtain ⟨ts', t, us, rfl, htakes⟩ := ih hrest heq
        exact ⟨_, t, us, rfl, takesOver_append htakes (.vacate d' hd' .done) (by simpa using ho)⟩
  | splice run o leading hdropped hkept hblock hcomments _ ih =>
      obtain ⟨hrun, hothers⟩ := List.forall_mem_append.mp hos
      obtain ⟨ho, hrest⟩ := List.forall_mem_cons.mp hothers
      rcases List.append_eq_append_iff.mp hsplit with ⟨later, rfl, heq⟩ | ⟨tail, rfl, heq⟩
      · rcases List.cons_eq_append_iff.mp heq with ⟨rfl, hfirst⟩ | ⟨last, rfl, hlater⟩
        · obtain ⟨rfl, _⟩ := List.cons_eq_cons.mp hfirst
          exact absurd hd.isDropped hkept
        · obtain ⟨ts', t, us, rfl, htakes⟩ := ih hrest hlater
          have hstep : Commented flag (run ++ [o]) [o.token.withLeading leading] :=
            .splice run o leading hdropped hkept hblock hcomments .done
          have hsolid : ∀ u ∈ run ++ [o], u.token.kind ≠ .placeholder :=
            List.forall_mem_append.mpr ⟨hrun, List.forall_mem_singleton.mpr ho⟩
          exact ⟨_, t, us, rfl, by simpa using takesOver_append htakes hstep hsolid⟩
      · rcases List.cons_eq_append_iff.mp heq with ⟨rfl, hfirst⟩ | ⟨last, rfl, rfl⟩
        · obtain ⟨rfl, _⟩ := List.cons_eq_cons.mp hfirst
          exact absurd hd.isDropped hkept
        · exact ⟨[], _, _, rfl, takesOver_of_run hd hdropped hblock hcomments _⟩

end Commented

/-! ## Resolved sources -/

/-- No token of a source is a placeholder. -/
theorem kind_ne_placeholder_of_parse {g : Grouping} {source : Text} {tree : SourceTree}
    (h : SourceTree.parse g source = .ok tree) :
    ∀ o ∈ tree.occurrences, o.token.kind ≠ .placeholder := by
  obtain ⟨l, hl, hassemble⟩ := exists_of_parse h
  obtain ⟨_, _, _, hcut, _, _⟩ := cut_of_tokenize hl
  intro o ho
  have hmem : o.token ∈ l.tokens ++ [l.eof] := by
    rw [← Lexed.toList, ← (Assembly.tree_of_assemble hassemble).1, ← tree.map_token_occurrences]
    exact List.mem_map_of_mem ho
  rcases List.mem_append.mp hmem with ht | ht
  · exact (hcut.of_mem_tokens _ ht).2.2
  · rw [List.mem_singleton.mp ht, hcut.eof_eq.1]
    decide

/-- **No comment of surviving code is lost.** In a resolved source, for every flag:
every token that is left carries the comments that were in front of it and behind it;
the comments in front of the first directive of a block that is resolved are taken over by a
placeholder or by the first token that is left of the block or of one around it, unless the
block lies in a dropped clause or in a kept body of which nothing is left;
these are all the comments there are, in the order of the source;
and so none is there more often than in the source. -/
theorem resolve_keeps_comments {g : Grouping} {source : Text} {tree : SourceTree}
    (h : SourceTree.parse g source = .ok tree) (flag : Text) :
    List.Forall₂ (fun o t => Carried flag o t ∧ o.token.leading.comments <:+ t.leading.comments)
        (keptTokens flag tree.occurrences) (solid (tree.resolve flag).tokens)
      ∧ (∀ before d after, tree.occurrences = before ++ d :: after → d.IsResolvedOpening flag →
          ∃ ts t us, (tree.resolve flag).tokens = ts ++ t :: us
            ∧ TakesOver flag before d after ts t)
      ∧ commentsOf (tree.resolve flag).tokens
          = tree.occurrences.flatMap (Occurrence.keptComments flag)
      ∧ ∀ p, (commentsOf (tree.resolve flag).tokens).count p
          ≤ (commentsOf tree.tokens).count p := by
  obtain ⟨l, hl, hassemble⟩ := exists_of_parse h
  obtain ⟨_, _, _, hcut, _, _⟩ := cut_of_tokenize hl
  have hsolid := kind_ne_placeholder_of_parse h
  have hcommented : Commented flag tree.occurrences (tree.resolve flag).tokens :=
    tracks_commented.of_assemble (fun _ ha => absurd ha List.not_mem_nil) hassemble
      fun t ht => (hcut.of_mem_tokens t ht).2.2
  refine ⟨hcommented.forall₂_carried hsolid, ?_, hcommented.commentsOf_eq, fun p => ?_⟩
  · intro before d after hsplit hd
    exact hcommented.exists_takesOver hsolid hsplit hd
  · have hsource : commentsOf tree.tokens
        = tree.occurrences.flatMap fun o => o.token.comments := by
      rw [commentsOf, ← tree.map_token_occurrences, List.flatMap_map]
    have hpart : commentsOf (tree.resolve flag).tokens <+ commentsOf tree.tokens := by
      rw [hcommented.commentsOf_eq, hsource]
      exact List.Sublist.flatMap_right _ fun o _ => o.sublist_keptComments flag
    exact hpart.count_le p

/-- The comments in front of a block that goes, at the top of one that moves up. -/
theorem resolve_keeps_comments_nested :
    ∃ source tree,
      source = "// top\n#if A // gone\n// one\n#if !A\nx\n#endif\n// two\nvar a = 1 // t\n#endif\n".toList
      ∧ SourceTree.parse .swift source = .ok tree
      ∧ (tree.resolve "A".toList).render = "// top\n// one\n// two\nvar a = 1 // t\n".toList
      ∧ commentsOf (tree.resolve "A".toList).tokens
          = tree.occurrences.flatMap (Occurrence.keptComments "A".toList)
      ∧ ∃ before d after ts t us, tree.occurrences = before ++ d :: after
          ∧ d.token.leading.comments = [⟨.lineComment, "// one".toList⟩]
          ∧ (tree.resolve "A".toList).tokens = ts ++ t :: us
          ∧ TakesOver "A".toList before d after ts t := by
  have hparse : (SourceTree.parse .swift
      "// top\n#if A // gone\n// one\n#if !A\nx\n#endif\n// two\nvar a = 1 // t\n#endif\n".toList).toOption.any
        (fun tree => decide ((tree.resolve "A".toList).render
            = "// top\n// one\n// two\nvar a = 1 // t\n".toList
          ∧ ∃ d ∈ tree.occurrences, d.IsResolvedOpening "A".toList
            ∧ d.token.leading.comments = [⟨.lineComment, "// one".toList⟩])) = true := by
    decide +kernel
  obtain ⟨tree, htree, hshape⟩ := exists_of_parse_any hparse
  obtain ⟨hrender, d, hd, hopening, hone⟩ := of_decide_eq_true hshape
  obtain ⟨before, after, hsplit⟩ := List.append_of_mem hd
  obtain ⟨_, htaken, hcomments, _⟩ := resolve_keeps_comments htree "A".toList
  obtain ⟨ts, t, us, htokens, htakes⟩ := htaken before d after hsplit hopening
  exact ⟨_, tree, rfl, htree, hrender, hcomments, before, d, after, ts, t, us, hsplit, hone,
    htokens, htakes⟩

end Unflag
