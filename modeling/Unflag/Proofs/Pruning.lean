/-
What a resolution does to the tokens of a tree, seen as a list.

A resolution works on the tree, but everything that is said about its text is said about a
list of tokens. This file is the step from one to the other. `Pruned` describes the whole
pass on the list of occurrences: tokens are kept as they are, and runs of dropped tokens,
each beginning with a directive of a resolved block, go. A run leaves nothing behind, or a
placeholder with the trivia of its first directive, or that trivia in front of the token
that follows it.

The induction over the tree is done once, in `Tracks.resolved`, for any relation between
the tokens of a list and those that are left of it. What is left to say of `Pruned` is what
becomes of a block on the flag: a body that moves up into the place of its block only widens
the run in front of its first token (`Pruned.spliceTokens`), however many blocks have been
resolved inside it.
-/
import Unflag.Proofs.Occurrences
import Unflag.Proofs.ParsedShape

set_option autoImplicit false

namespace Unflag

variable {flag : Text}

/-! ## Trivia that is gathered from dropped tokens -/

theorem repeated_succ (unit : Text) (n : Nat) :
    Trivia.repeated unit (n + 1) = unit ++ Trivia.repeated unit n := by
  rw [Trivia.repeated, List.replicate_succ, List.flatten_cons, Trivia.repeated]

/-- A unit over and over is a whole run. -/
theorem Trivia.isWhole_repeated {k : Trivia.Kind} {unit : Text} (hk : k.unit? = some unit)
    (n : Nat) : Trivia.Piece.IsWhole ⟨k, Trivia.repeated unit (n + 1)⟩ := by
  have hpos : 0 < unit.length := by
    cases k <;> cases hk <;> decide
  have hcount : Trivia.Piece.count ⟨k, Trivia.repeated unit (n + 1)⟩ = n + 1 := by
    simp [Trivia.Piece.count, hk, Trivia.repeated, Nat.mul_div_cancel _ hpos]
  intro unit' hunit'
  obtain rfl := Option.some.inj (hk.symm.trans hunit')
  rw [hcount]
  exact ⟨Nat.le_add_left 1 n, rfl⟩

/-- **One line break less.** In trivia made of whole runs, the line break of a directive line
is not there to take, or it is the whole first run, or one unit of it. -/
theorem dropDirectiveLine_cases {ts : Trivia} (h : ∀ p ∈ ts, p.IsWhole) :
    ts.dropDirectiveLine = ts
      ∨ ∃ p r, ts = p :: r ∧ p.kind.isNewline = true
        ∧ (ts.dropDirectiveLine = r
          ∨ ∃ unit n, p.kind.unit? = some unit ∧ p.text = Trivia.repeated unit (n + 2)
            ∧ ts.dropDirectiveLine = ⟨p.kind, Trivia.repeated unit (n + 1)⟩ :: r) := by
  cases ts with
  | nil => exact .inl rfl
  | cons p r =>
      by_cases hnewline : p.kind.isNewline = true
      · refine .inr ⟨p, r, rfl, hnewline, ?_⟩
        rw [Trivia.dropDirectiveLine, if_pos hnewline]
        split
        · next hcount =>
          obtain ⟨unit, hunit⟩ : ∃ unit, p.kind.unit? = some unit := by
            cases hkind : p.kind <;> rw [hkind] at hnewline <;>
              first | exact ⟨_, rfl⟩ | exact absurd hnewline (by decide)
          obtain ⟨n, hn⟩ : ∃ n, p.count = n + 2 := ⟨p.count - 2, by omega⟩
          have htext := (h p List.mem_cons_self unit hunit).2
          refine .inr ⟨unit, n, hunit, by rw [htext, hn], ?_⟩
          have hless :
              p.withCount? (p.count - 1) = some ⟨p.kind, Trivia.repeated unit (n + 1)⟩ := by
            rw [Trivia.Piece.withCount?, hunit, hn]
            rfl
          rw [hless]
        · exact .inl rfl
      · refine .inl ?_
        rw [Trivia.dropDirectiveLine, if_neg hnewline]

/-- What is left is made of whole runs again. -/
theorem isWhole_dropDirectiveLine {ts : Trivia} (h : ∀ p ∈ ts, p.IsWhole) :
    ∀ p ∈ ts.dropDirectiveLine, p.IsWhole := by
  rcases dropDirectiveLine_cases h with heq | ⟨p, r, rfl, _, hrest⟩
  · rwa [heq]
  · obtain ⟨_, hr⟩ := List.forall_mem_cons.mp h
    rcases hrest with heq | ⟨unit, n, hunit, _, heq⟩
    · rwa [heq]
    · rw [heq]
      exact List.forall_mem_cons.mpr ⟨Trivia.isWhole_repeated hunit n, hr⟩

theorem isWhole_iterate {ts : Trivia} (h : ∀ p ∈ ts, p.IsWhole) (n : Nat) :
    ∀ p ∈ Trivia.dropDirectiveLine^[n] ts, p.IsWhole := by
  induction n with
  | zero => exact h
  | succ n ih =>
      rw [Function.iterate_succ_apply']
      exact isWhole_dropDirectiveLine ih

/-- Trivia put together from the leading trivia of tokens, in their order: each gives its
own, less some line breaks at the start, or nothing. -/
inductive Gathered : List Token → Trivia → Prop
  | done : Gathered [] []
  | skip {us : List Token} {ts : Trivia} (t : Token) (h : Gathered us ts) : Gathered (t :: us) ts
  | take {us : List Token} {ts : Trivia} (t : Token) (n : Nat) (h : Gathered us ts) :
      Gathered (t :: us) (Trivia.dropDirectiveLine^[n] t.leading ++ ts)

theorem Gathered.append {us vs : List Token} {a b : Trivia} (ha : Gathered us a)
    (hb : Gathered vs b) : Gathered (us ++ vs) (a ++ b) := by
  induction ha with
  | done => exact hb
  | skip t _ ih => exact .skip t ih
  | take t n _ ih => rw [List.append_assoc]; exact .take t n ih

theorem gathered_nil (us : List Token) : Gathered us [] := by
  induction us with
  | nil => exact .done
  | cons t r ih => exact .skip t ih

theorem gathered_leading (t : Token) : Gathered [t] t.leading := by
  simpa using Gathered.take t 0 .done

theorem dropDirectiveLine_append_of_ne_nil {a : Trivia} (h : a ≠ []) (b : Trivia) :
    (a ++ b).dropDirectiveLine = a.dropDirectiveLine ++ b := by
  obtain ⟨p, r, rfl⟩ := List.exists_cons_of_ne_nil h
  simp only [List.cons_append, Trivia.dropDirectiveLine]
  split
  · split
    · split <;> rfl
    · rfl
  · rfl

/-- The line break of a directive line can be taken out of gathered trivia. -/
theorem Gathered.dropDirectiveLine {us : List Token} {ts : Trivia} (h : Gathered us ts) :
    Gathered us ts.dropDirectiveLine := by
  induction h with
  | done => exact .done
  | skip t _ ih => exact .skip t ih
  | @take us ts t n h ih =>
      by_cases hnil : Trivia.dropDirectiveLine^[n] t.leading = []
      · rw [hnil, List.nil_append]
        exact .skip t ih
      · have hnext : (Trivia.dropDirectiveLine^[n] t.leading).dropDirectiveLine
            = Trivia.dropDirectiveLine^[n + 1] t.leading :=
          (Function.iterate_succ_apply' _ n t.leading).symm
        rw [dropDirectiveLine_append_of_ne_nil hnil, hnext]
        exact .take t (n + 1) h

/-! ## Pruning -/

/-- A run of dropped tokens that begins with a directive of a block on the flag and ends with
an opening line or the end of one. -/
structure IsGap (flag : Text) (d : Occurrence) (gap : List Occurrence) : Prop where
  directive : d.IsDirectiveOn flag
  dropped : ∀ o ∈ d :: gap, o.IsDropped flag
  closes : ∀ o ∈ (d :: gap).getLast?, o.IsMarkerOn flag

/-- A run and the one behind it are a single run. -/
theorem IsGap.widen {d d' : Occurrence} {gap gap' : List Occurrence} (h : IsGap flag d gap)
    (h' : IsGap flag d' gap') : IsGap flag d (gap ++ d' :: gap') := by
  refine ⟨h.directive, ?_, ?_⟩
  · rw [← List.cons_append]
    exact List.forall_mem_append.mpr ⟨h.dropped, h'.dropped⟩
  · rw [← List.cons_append, List.getLast?_append_of_ne_nil _ (List.cons_ne_nil _ _)]
    exact h'.closes

/-- A token with other trivia in front. -/
def Token.withLeading (t : Token) (leading : Trivia) : Token := { t with leading }

@[simp] theorem Token.leading_withLeading (t : Token) (leading : Trivia) :
    (t.withLeading leading).leading = leading := rfl

@[simp] theorem Token.withLeading_withLeading (t : Token) (a b : Trivia) :
    (t.withLeading a).withLeading b = t.withLeading b := rfl

/-- The tokens of a list that are in the source. -/
def solid (ts : List Token) : List Token := ts.filter fun t => t.kind != .placeholder

theorem solid_cons_of_ne {t : Token} (h : t.kind ≠ .placeholder) (ts : List Token) :
    solid (t :: ts) = t :: solid ts := List.filter_cons_of_pos (by simpa using h)

theorem solid_cons_placeholder (leading : Trivia) (ts : List Token) :
    solid (.placeholder leading :: ts) = solid ts := rfl

/-- What becomes of the tokens of a list once the blocks on the flag are resolved. -/
inductive Pruned (flag : Text) : List Occurrence → List Token → Prop
  | done : Pruned flag [] []
  /-- A token stays as it is. -/
  | keep {os : List Occurrence} {ts : List Token} (o : Occurrence) (hkept : ¬ o.IsDropped flag)
      (h : Pruned flag os ts) : Pruned flag (o :: os) (o.token :: ts)
  /-- A run of tokens goes, up to the end of a block. -/
  | drop {os : List Occurrence} {ts : List Token} (d : Occurrence) (gap : List Occurrence)
      (hgap : IsGap flag d gap) (hends : ∀ o ∈ (d :: gap).getLast?, o.IsEndOn flag)
      (h : Pruned flag os ts) : Pruned flag (d :: gap ++ os) ts
  /-- A run of tokens goes and leaves the trivia in front of it. -/
  | vacate {os : List Occurrence} {ts : List Token} (d : Occurrence) (gap : List Occurrence)
      (hgap : IsGap flag d gap) (h : Pruned flag os ts) :
      Pruned flag (d :: gap ++ os) (.placeholder d.token.leading :: ts)
  /-- A run of tokens goes, and the token behind it takes over the trivia. -/
  | splice {os : List Occurrence} {ts : List Token} (d : Occurrence) (gap : List Occurrence)
      (o : Occurrence) (r : Trivia) (hgap : IsGap flag d gap) (hkept : ¬ o.IsDropped flag)
      (hinside : o.IsInside flag) (hr : Gathered (gap.map Occurrence.token ++ [o.token]) r)
      (h : Pruned flag os ts) :
      Pruned flag (d :: gap ++ o :: os)
        (o.token.withLeading (d.token.leading ++ r) :: ts)

theorem Pruned.append {os os' : List Occurrence} {ts ts' : List Token} (h : Pruned flag os ts)
    (h' : Pruned flag os' ts') : Pruned flag (os ++ os') (ts ++ ts') := by
  induction h with
  | done => exact h'
  | keep o hkept _ ih => exact .keep o hkept ih
  | drop d gap hgap hends _ ih => rw [List.append_assoc]; exact .drop d gap hgap hends ih
  | vacate d gap hgap _ ih => rw [List.append_assoc]; exact .vacate d gap hgap ih
  | splice d gap o r hgap hkept hinside hr _ ih =>
      rw [List.append_assoc]
      exact .splice d gap o r hgap hkept hinside hr ih

/-- Where only placeholders are left, everything has been dropped. -/
theorem Pruned.isDropped_of_placeholders {os : List Occurrence} {ts : List Token}
    (h : Pruned flag os ts) (hos : ∀ o ∈ os, o.token.kind ≠ .placeholder)
    (hts : ∀ t ∈ ts, t.kind = .placeholder) : ∀ o ∈ os, o.IsDropped flag := by
  induction h with
  | done => exact fun o ho => absurd ho List.not_mem_nil
  | keep o _ _ _ => exact absurd (hts _ List.mem_cons_self) (hos o List.mem_cons_self)
  | drop d gap hgap _ _ ih =>
      have htail := ih (fun o ho => hos o (List.mem_append_right _ ho)) hts
      exact List.forall_mem_append.mpr ⟨hgap.dropped, htail⟩
  | vacate d gap hgap _ ih =>
      have htail := ih (fun o ho => hos o (List.mem_append_right _ ho))
        fun t ht => hts t (List.mem_cons_of_mem _ ht)
      exact List.forall_mem_append.mpr ⟨hgap.dropped, htail⟩
  | splice d gap o r _ _ _ _ _ _ =>
      exact absurd (hts _ List.mem_cons_self) (hos o (by simp))

/-- The tokens of a body in the place of its block. -/
def spliceTokens (leading : Trivia) : List Token → List Token
  | [] => []
  | t :: r =>
    if t.kind = .placeholder then spliceTokens (leading ++ t.leading.dropDirectiveLine) r
    else t.withLeading (leading ++ t.leading.dropDirectiveLine) :: r

/-- **A body that moves up** behind a run of dropped tokens. What has been resolved at the
top of the body widens the run, and its trivia joins the trivia of the run. -/
theorem Pruned.spliceTokens {os : List Occurrence} {ts : List Token} (h : Pruned flag os ts)
    (hos : ∀ o ∈ os, o.token.kind ≠ .placeholder ∧ o.IsInside flag)
    (hcontent : ∃ t ∈ ts, t.kind ≠ .placeholder) {d : Occurrence} {gap : List Occurrence}
    {r : Trivia} (hgap : IsGap flag d gap) (hr : Gathered (gap.map Occurrence.token) r) :
    Pruned flag (d :: gap ++ os) (spliceTokens (d.token.leading ++ r) ts) := by
  -- on what has been done to the body; the run in front of it grows until a token is kept
  induction h generalizing gap r with
  | done =>
      obtain ⟨t, ht, _⟩ := hcontent
      exact absurd ht List.not_mem_nil
  | keep o hkept htail _ =>
      obtain ⟨hkind, hinside⟩ := hos o List.mem_cons_self
      have hall := hr.append (gathered_leading o.token).dropDirectiveLine
      rw [Unflag.spliceTokens, if_neg hkind, List.append_assoc]
      exact .splice d gap o _ hgap hkept hinside hall htail
  | @drop os' ts' d' gap' hgap' _ htail ih =>
      have hall : Gathered ((gap ++ d' :: gap').map Occurrence.token) r := by
        simpa using hr.append (gathered_nil ((d' :: gap').map Occurrence.token))
      simpa using ih (fun o ho => hos o (List.mem_append_right _ ho)) hcontent (hgap.widen hgap')
        hall
  | @vacate os' ts' d' gap' hgap' htail ih =>
      have hleft : Gathered ((d' :: gap').map Occurrence.token) d'.token.leading := by
        simpa using (gathered_leading d'.token).append (gathered_nil (gap'.map Occurrence.token))
      have hall : Gathered ((gap ++ d' :: gap').map Occurrence.token)
          (r ++ d'.token.leading.dropDirectiveLine) := by
        rw [List.map_append]
        exact hr.append hleft.dropDirectiveLine
      have hcontent' : ∃ t ∈ ts', t.kind ≠ .placeholder := by
        obtain ⟨t, ht, hkind⟩ := hcontent
        rcases List.mem_cons.mp ht with rfl | ht
        · exact absurd rfl hkind
        · exact ⟨t, ht, hkind⟩
      have hplaceholder : (Token.placeholder d'.token.leading).kind = .placeholder := rfl
      rw [Unflag.spliceTokens, if_pos hplaceholder, List.append_assoc]
      simpa [Token.placeholder] using
        ih (fun o ho => hos o (List.mem_append_right _ ho)) hcontent' (hgap.widen hgap') hall
  | @splice os' ts' d' gap' o r' hgap' hkept hinside hr' htail _ =>
      have hmoved : Gathered (d'.token :: gap'.map Occurrence.token ++ [o.token])
          (d'.token.leading ++ r') := by
        simpa using (gathered_leading d'.token).append hr'
      have hall : Gathered ((gap ++ d' :: gap').map Occurrence.token ++ [o.token])
          (r ++ (d'.token.leading ++ r').dropDirectiveLine) := by
        simpa using hr.append hmoved.dropDirectiveLine
      have hkind : (o.token.withLeading (d'.token.leading ++ r')).kind ≠ .placeholder :=
        (hos o (by simp)).1
      rw [Unflag.spliceTokens, if_neg hkind, List.append_assoc]
      simpa using Pruned.splice d _ o _ (hgap.widen hgap') hkept hinside hall htail

/-! ## Splicing nodes and splicing tokens -/

/-- What holds at any depth holds at the top. -/
theorem Everywhere.of_mem {P : Node → Prop} {ns : List Node} (h : Everywhere P ns) :
    ∀ n ∈ ns, P n := by
  intro n hn
  refine h ⟨n, []⟩ ?_
  rw [sitesOfNodes_eq]
  refine List.mem_flatMap.mpr ⟨n, hn, ?_⟩
  cases n <;> exact List.mem_cons_self

/-- With another first token, the tokens of a node change in the first one. -/
theorem tokens_withFirstToken {n : Node} {t : Token} (ht : n.firstToken? = some t) (u : Token) :
    ∃ ts, n.tokens = t :: ts ∧ (n.withFirstToken u).tokens = u :: ts := by
  cases n with
  | item kind parts =>
      cases parts with
      | nil => exact absurd ht (by simp [Node.firstToken?])
      | cons p r =>
          cases p with
          | token v => cases ht; exact ⟨_, rfl, rfl⟩
          | group v members closing => cases ht; exact ⟨_, rfl, rfl⟩
  | block cs ending =>
      cases cs with
      | nil => exact absurd ht (by simp [Node.firstToken?])
      | cons c r =>
          obtain ⟨head, body⟩ := c
          cases ht
          exact ⟨_, rfl, rfl⟩
  | placeholder v => cases ht; exact ⟨[], rfl, rfl⟩

/-- A node that has a first token, which is a placeholder only if the node is one. -/
def Node.Starts (n : Node) : Prop :=
  ∃ t, n.firstToken? = some t ∧ (t.kind = .placeholder ↔ n = .placeholder t)

/-- Splicing a body is splicing its tokens. -/
theorem tokensOfNodes_splice {ns : List Node} (h : ∀ n ∈ ns, n.Starts) (leading : Trivia) :
    tokensOfNodes (splice leading ns) = spliceTokens leading (tokensOfNodes ns) := by
  induction ns generalizing leading with
  | nil => rfl
  | cons n r ih =>
      obtain ⟨⟨t, ht, hkind⟩, hr⟩ := List.forall_mem_cons.mp h
      by_cases hplaceholder : t.kind = .placeholder
      · obtain rfl := hkind.mp hplaceholder
        rw [splice, ih hr, tokensOfNodes, Node.tokens, List.cons_append, List.nil_append,
          spliceTokens, if_pos hplaceholder]
      · have hsplice : splice leading (n :: r)
            = n.withFirstToken (t.withLeading (leading ++ t.leading.dropDirectiveLine)) :: r := by
          cases n with
          | placeholder u =>
              cases ht
              exact absurd (hkind.mpr rfl) hplaceholder
          | item kind parts =>
              rw [splice, ht]
              · rfl
              · simp
          | block cs ending =>
              rw [splice, ht]
              · rfl
              · simp
        obtain ⟨ts, hbefore, hafter⟩ := tokens_withFirstToken ht
          (t.withLeading (leading ++ t.leading.dropDirectiveLine))
        rw [hsplice, tokensOfNodes, hafter, tokensOfNodes, hbefore, List.cons_append,
          List.cons_append, spliceTokens, if_neg hplaceholder]

/-! ## Nodes that start -/

/-- Resolving a list of nodes that start leaves nodes that start. -/
theorem starts_resolveNodes {ns : List Node} (h : Everywhere Node.Starts ns) :
    Everywhere Node.Starts (resolveNodes flag ns) := by
  refine everywhere_resolve ?_ ?_ (fun _ ht => ht) ?_ ?_ h
  · rintro kind parts ⟨t, ht, hkind⟩
    cases parts with
    | nil => exact absurd ht (by simp [Node.firstToken?])
    | cons p r => cases p <;> exact ⟨t, ht, by simpa using hkind⟩
  · rintro cs ending ⟨t, ht, hkind⟩ _
    cases cs with
    | nil => exact absurd ht (by simp [Node.firstToken?])
    | cons c r =>
        obtain ⟨head, body⟩ := c
        exact ⟨t, ht, by simpa using hkind⟩
  · exact fun leading => ⟨_, rfl, iff_of_true rfl rfl⟩
  · rintro n t leading ht ⟨u, hu, hkind⟩
    obtain rfl : t = u := Option.some.inj (ht.symm.trans hu)
    cases n with
    | item kind parts =>
        cases parts with
        | nil => exact absurd ht (by simp [Node.firstToken?])
        | cons p r => cases p <;> exact ⟨_, rfl, by simpa [Node.withFirstToken] using hkind⟩
    | block cs ending =>
        cases cs with
        | nil => exact absurd ht (by simp [Node.firstToken?])
        | cons c r =>
            obtain ⟨head, body⟩ := c
            exact ⟨_, rfl, by simpa [Node.withFirstToken] using hkind⟩
    | placeholder v =>
        cases ht
        exact ⟨_, rfl, iff_of_true (hkind.mpr rfl) rfl⟩

/-! ## Tracking a resolution through a tree -/

/-- A relation between the tokens of a list, in their places, and what is left of them that
survives all a resolution does to a tree. `Up` is asked of the blocks around the list. -/
structure Tracks (flag : Text) (Up : List (List Clause × Place) → Prop)
    (R : List Occurrence → List Token → Prop) : Prop where
  /-- It goes through a list part by part. -/
  nil : R [] []
  append : ∀ {os os' ts ts'}, R os ts → R os' ts' → R (os ++ os') (ts ++ ts')
  /-- It holds of a token that stays, and the lines of a block on another flag stay. -/
  stay : ∀ {up} (t : Token), Up up → R [⟨t, up⟩] [t]
  other : ∀ {up cs} (p : Place), Up up → ¬ FlagsAre flag cs → Up (up ++ [(cs, p)])
  /-- It holds of a block on the flag if it holds of the bodies of the block. -/
  block : ∀ {up cs} (ending : Token), Up up → FlagsAre flag cs →
    (∀ t ∈ (Node.block cs ending).tokens, t.kind ≠ .placeholder) →
    (∀ c ∈ cs, Everywhere Node.Starts c.body ∧ ∀ t ∈ tokensOfNodes c.body, t.kind ≠ .placeholder) →
    (∀ c ∈ cs, ∀ i, Up (up ++ [(cs, .body i)]) →
      R (occurrencesOfNodes (up ++ [(cs, .body i)]) c.body)
        (tokensOfNodes (resolveNodes flag c.body))) →
    R ((Node.block cs ending).occurrences up) (tokensOfNodes ((Node.block cs ending).resolve flag))

namespace Tracks

variable {Up : List (List Clause × Place) → Prop} {R : List Occurrence → List Token → Prop}
  {up : List (List Clause × Place)}

theorem flatMap (hR : Tracks flag Up R) {α : Type} {l : List α} {f : α → List Occurrence}
    {g : α → List Token} (h : ∀ a ∈ l, R (f a) (g a)) : R (l.flatMap f) (l.flatMap g) := by
  induction l with
  | nil => exact hR.nil
  | cons a r ih =>
      obtain ⟨ha, hr⟩ := List.forall_mem_cons.mp h
      exact hR.append ha (ih hr)

/-- The opening line of a clause of a block on another flag. -/
theorem opening (hR : Tracks flag Up R) (hup : Up up) {cs : List Clause}
    (hflags : ¬ FlagsAre flag cs) (i : Nat) (h : ClauseHead) :
    R (openingOf up cs i h) (h.directive :: h.tokens) := by
  rw [← map_token_openingOf up cs i h, ← List.flatMap_singleton' (openingOf up cs i h),
    List.map_flatMap]
  refine hR.flatMap fun o ho => ?_
  obtain ⟨k, hk⟩ := mem_openingOf ho
  have hstay := hR.stay o.token (hR.other (.opening i k) hup hflags)
  rwa [← hk] at hstay

/-- The clauses of a block on another flag. -/
theorem clauses (hR : Tracks flag Up R) (hup : Up up) {cs : List Clause}
    (hflags : ¬ FlagsAre flag cs) (i : Nat) (ds : List Clause)
    (hbodies : ∀ c ∈ ds, ∀ j, R (occurrencesOfNodes (up ++ [(cs, .body j)]) c.body)
      (tokensOfNodes (resolveNodes flag c.body))) :
    R (occurrencesOfClauses up cs i ds) (tokensOfClauses (resolveClauses flag ds)) := by
  induction ds generalizing i with
  | nil => exact hR.nil
  | cons c r ih =>
      obtain ⟨hc, hr⟩ := List.forall_mem_cons.mp hbodies
      have htokens : (c.resolve flag).tokens
          = (c.head.directive :: c.head.tokens) ++ tokensOfNodes (resolveNodes flag c.body) := by
        cases c; rfl
      rw [occurrencesOfClauses, c.occurrences_eq, resolveClauses, tokensOfClauses, htokens]
      exact hR.append (hR.append (hR.opening hup hflags i c.head) (hc i)) (ih (i + 1) hr)

/-- **A relation that tracks a resolution holds of every resolved list.** -/
theorem resolved (hR : Tracks flag Up R) {ns : List Node} (hup : Up up)
    (hstarts : Everywhere Node.Starts ns)
    (hsolid : ∀ t ∈ tokensOfNodes ns, t.kind ≠ .placeholder) :
    R (occurrencesOfNodes up ns) (tokensOfNodes (resolveNodes flag ns)) := by
  induction ns using memberInduction generalizing up with
  | nil => exact hR.nil
  | item kind parts rest ihGroups ihRest =>
      obtain ⟨hfirst, hrest⟩ := everywhere_cons.mp hstarts
      obtain ⟨hparts, hrest'⟩ := List.forall_mem_append.mp hsolid
      have hpart : ∀ p ∈ parts, R (p.occurrences up) (p.resolve flag).tokens := by
        intro p hp
        cases p with
        | token t => exact hR.stay t hup
        | group opening members closing =>
            have hmembers := ihGroups opening members closing hp hup
              ((everywhere_item.mp hfirst).2 opening members closing hp) (fun t ht => hparts t (by
                rw [Node.tokens, tokensOfParts_eq]
                exact List.mem_flatMap.mpr ⟨_, hp, by simp [Part.tokens, ht]⟩))
            exact hR.append (hR.append (hR.stay opening hup) hmembers) (hR.stay closing hup)
      have hitem : R ((Node.item kind parts).occurrences up)
          (Node.item kind (resolveParts flag parts)).tokens := by
        rw [Node.occurrences, occurrencesOfParts_eq, Node.tokens, tokensOfParts_eq, resolveParts_eq,
          List.flatMap_map]
        exact hR.flatMap hpart
      rw [occurrencesOfNodes, resolveNodes, Node.resolve, Assembly.tokensOfNodes_append]
      simpa [tokensOfNodes] using hR.append hitem (ihRest hup hrest hrest')
  | block cs ending rest ihBodies ihRest =>
      obtain ⟨hfirst, hrest⟩ := everywhere_cons.mp hstarts
      obtain ⟨hblock, hrest'⟩ := List.forall_mem_append.mp hsolid
      have hbodies : ∀ c ∈ cs, Everywhere Node.Starts c.body
          ∧ ∀ t ∈ tokensOfNodes c.body, t.kind ≠ .placeholder := by
        intro c hc
        refine ⟨(everywhere_block.mp hfirst).2 c hc, fun t ht => hblock t ?_⟩
        rw [Node.tokens, tokensOfClauses_eq]
        refine List.mem_append_left _ (List.mem_flatMap.mpr ⟨c, hc, ?_⟩)
        cases c
        exact List.mem_append_right _ ht
      have hbody : ∀ c ∈ cs, ∀ i, Up (up ++ [(cs, .body i)]) →
          R (occurrencesOfNodes (up ++ [(cs, .body i)]) c.body)
            (tokensOfNodes (resolveNodes flag c.body)) :=
        fun c hc i hi => ihBodies c hc hi (hbodies c hc).1 (hbodies c hc).2
      rw [occurrencesOfNodes, resolveNodes, Assembly.tokensOfNodes_append]
      refine hR.append ?_ (ihRest hup hrest hrest')
      by_cases hflags : FlagsAre flag cs
      · exact hR.block ending hup hflags hblock hbodies hbody
      · have hclauses := hR.clauses hup hflags 0 cs fun c hc j =>
          hbody c hc j (hR.other _ hup hflags)
        rw [resolve_block_of_not_flagsAre hflags, Node.occurrences]
        simpa [tokensOfNodes, Node.tokens] using
          hR.append hclauses (hR.stay ending (hR.other .ending hup hflags))
  | placeholder t rest ihRest =>
      have hrest := (everywhere_cons.mp hstarts).2
      exact hR.append (hR.stay t hup)
        (ihRest hup hrest fun u hu => hsolid u (List.mem_cons_of_mem t hu))

end Tracks

/-! ## Blocks -/

/-- Blocks around a token that leave it where it is: for those on the flag, the token stands
in the body that is kept. -/
def Stays (flag : Text) (around : List (List Clause × Place)) : Prop :=
  ∀ a ∈ around, FlagsAre flag a.1 → a.2.IsKept flag a.1

theorem Stays.not_isDropped {o : Occurrence} (h : Stays flag o.around) : ¬ o.IsDropped flag := by
  rintro ⟨a, ha, hflags, hplace⟩
  exact hplace (h a ha hflags)

/-- One block further in. -/
theorem Stays.append {up : List (List Clause × Place)} (h : Stays flag up) {cs : List Clause}
    {p : Place} (hp : FlagsAre flag cs → p.IsKept flag cs) : Stays flag (up ++ [(cs, p)]) := by
  intro a ha
  rcases List.mem_append.mp ha with ha | ha
  · exact h a ha
  · rw [List.mem_singleton.mp ha]
    exact hp

/-- A list falls apart at each of its places. -/
theorem exists_split_of_getElem? {α : Type} {l : List α} {i : Nat} {a : α} (h : l[i]? = some a) :
    ∃ pre post, l = pre ++ a :: post ∧ pre.length = i := by
  obtain ⟨hi, rfl⟩ := List.getElem?_eq_some_iff.mp h
  refine ⟨l.take i, l.drop (i + 1), ?_, List.length_take_of_le (Nat.le_of_lt hi)⟩
  rw [List.getElem_cons_drop, List.take_append_drop]

/-- The opening line of a clause begins with its directive. -/
theorem openingOf_eq_cons (up : List (List Clause × Place)) (all : List Clause) (i : Nat)
    (h : ClauseHead) :
    ∃ r, openingOf up all i h = ⟨h.directive, up ++ [(all, .opening i 0)]⟩ :: r := by
  rw [openingOf, List.zipIdx_cons, List.map_cons]
  exact ⟨_, rfl⟩

section Block

variable {up : List (List Clause × Place)} {cs : List Clause}

/-- A run of tokens of a block on the flag, none of them in the kept body. -/
theorem isGap_of_block (hflags : FlagsAre flag cs) {d : Occurrence} {gap : List Occurrence}
    {p : Place} (hd : d.around = up ++ [(cs, p)]) (hp : p.isDirective = true)
    (hgap : ∀ o ∈ d :: gap, ∃ q, (cs, q) ∈ o.around ∧ ¬ q.IsKept flag cs)
    (hlast : ∀ o ∈ (d :: gap).getLast?,
      ∃ q : Place, o.around = up ++ [(cs, q)] ∧ q.isMarker = true) :
    IsGap flag d gap := by
  refine ⟨⟨(cs, p), by simp [hd], hflags, hp⟩, fun o ho => ?_, fun o ho => ?_⟩
  · obtain ⟨q, hq, hplace⟩ := hgap o ho
    exact ⟨(cs, q), hq, hflags, hplace⟩
  · obtain ⟨q, hq, hmarker⟩ := hlast o ho
    exact ⟨(cs, q), by simp [hq], hflags, hmarker⟩

/-- Clauses that do not hold the kept place keep nothing. -/
theorem not_isKept_of_mem {i : Nat} {ds : List Clause}
    (hk : ∀ k, keptPlace flag cs = some k → k < i ∨ i + ds.length ≤ k) :
    ∀ o ∈ occurrencesOfClauses up cs i ds, ∃ q, (cs, q) ∈ o.around ∧ ¬ q.IsKept flag cs := by
  intro o ho
  obtain ⟨q, hq, hplace⟩ := mem_occurrencesOfClauses ho
  refine ⟨q, hq, fun hkept => ?_⟩
  cases q with
  | opening _ _ => exact hkept
  | body j =>
      have hj := hplace j rfl
      have := hk j hkept
      omega
  | ending => exact hkept

/-- An opening line is not kept. -/
theorem not_isKept_of_mem_openingOf {i : Nat} {h : ClauseHead} :
    ∀ o ∈ openingOf up cs i h, ∃ q, (cs, q) ∈ o.around ∧ ¬ q.IsKept flag cs := by
  intro o ho
  obtain ⟨k, hk⟩ := mem_openingOf ho
  exact ⟨.opening i k, by simp [hk], id⟩

/-- What follows the kept body up to the end of its block is a run, -/
theorem exists_gap_behind (up : List (List Clause × Place)) (hflags : FlagsAre flag cs) {i : Nat}
    {post : List Clause} (ending : Token)
    (hk : ∀ k, keptPlace flag cs = some k → k < i ∨ i + post.length ≤ k) :
    ∃ d gap, occurrencesOfClauses up cs i post ++ [⟨ending, up ++ [(cs, .ending)]⟩] = d :: gap
      ∧ IsGap flag d gap ∧ ∀ o ∈ (d :: gap).getLast?, o.IsEndOn flag := by
  have hdropped : ∀ o ∈ occurrencesOfClauses up cs i post ++ [⟨ending, up ++ [(cs, .ending)]⟩],
      ∃ q, (cs, q) ∈ o.around ∧ ¬ q.IsKept flag cs := by
    refine List.forall_mem_append.mpr ⟨not_isKept_of_mem hk, ?_⟩
    exact List.forall_mem_singleton.mpr ⟨.ending, by simp, id⟩
  have hlast : ∀ o ∈
      (occurrencesOfClauses up cs i post
        ++ [Occurrence.mk ending (up ++ [(cs, .ending)])]).getLast?,
      ∃ q : Place, o.around = up ++ [(cs, q)] ∧ q.isMarker = true := by
    intro o ho
    rw [List.getLast?_concat] at ho
    cases ho
    exact ⟨.ending, rfl, rfl⟩
  have hends : ∀ o ∈
      (occurrencesOfClauses up cs i post
        ++ [Occurrence.mk ending (up ++ [(cs, .ending)])]).getLast?, o.IsEndOn flag := by
    intro o ho
    rw [List.getLast?_concat] at ho
    cases ho
    exact ⟨(cs, .ending), by simp, hflags, rfl⟩
  cases post with
  | nil => exact ⟨_, [], rfl, isGap_of_block hflags rfl rfl hdropped hlast, hends⟩
  | cons c r =>
      obtain ⟨us, hus⟩ := openingOf_eq_cons up cs i c.head
      rw [occurrencesOfClauses, c.occurrences_eq, hus] at hdropped hlast hends ⊢
      exact ⟨_, _, rfl, isGap_of_block hflags rfl rfl hdropped hlast, hends⟩

/-- and so is what stands in front of it, from the first directive on. -/
theorem exists_gap_before (up : List (List Clause × Place)) (hflags : FlagsAre flag cs)
    {pre post : List Clause} {c : Clause} (hcs : cs = pre ++ c :: post)
    (hk : keptPlace flag cs = some pre.length) :
    ∃ d gap, occurrencesOfClauses up cs 0 pre ++ openingOf up cs pre.length c.head = d :: gap
      ∧ IsGap flag d gap ∧ d.token.leading = leadingOf cs := by
  have hdropped : ∀ o ∈ occurrencesOfClauses up cs 0 pre ++ openingOf up cs pre.length c.head,
      ∃ q, (cs, q) ∈ o.around ∧ ¬ q.IsKept flag cs := by
    refine List.forall_mem_append.mpr ⟨not_isKept_of_mem fun k hk' => ?_,
      not_isKept_of_mem_openingOf⟩
    have := Option.some.inj (hk.symm.trans hk')
    omega
  have hlast : ∀ o ∈
      (occurrencesOfClauses up cs 0 pre ++ openingOf up cs pre.length c.head).getLast?,
      ∃ q : Place, o.around = up ++ [(cs, q)] ∧ q.isMarker = true := by
    obtain ⟨us, hus⟩ := openingOf_eq_cons up cs pre.length c.head
    have hne : openingOf up cs pre.length c.head ≠ [] := by simp [hus]
    intro o ho
    rw [List.getLast?_append_of_ne_nil _ hne] at ho
    obtain ⟨k, hk⟩ := mem_openingOf (List.mem_of_getLast? ho)
    exact ⟨.opening pre.length k, hk, rfl⟩
  cases pre with
  | nil =>
      obtain ⟨us, hus⟩ := openingOf_eq_cons up cs 0 c.head
      rw [occurrencesOfClauses, List.nil_append, List.length_nil, hus] at hdropped hlast ⊢
      exact ⟨_, us, rfl, isGap_of_block hflags rfl rfl hdropped hlast, by rw [hcs]; rfl⟩
  | cons b r =>
      obtain ⟨us, hus⟩ := openingOf_eq_cons up cs 0 b.head
      rw [occurrencesOfClauses, b.occurrences_eq, hus] at hdropped hlast ⊢
      exact ⟨_, _, rfl, isGap_of_block hflags rfl rfl hdropped hlast, by rw [hcs]; rfl⟩

/-- The clause that is left of a block, among the others. -/
theorem exists_split_of_chosen {c : Clause} (h : (Build.only flag).chosen cs = some c) :
    ∃ pre post, cs = pre ++ c :: post ∧ keptPlace flag cs = some pre.length := by
  obtain ⟨i, hi, hplace⟩ : ∃ i, keptPlace flag cs = some i ∧ cs[i]? = some c := by
    rw [← getElem?_keptPlace] at h
    exact Option.bind_eq_some_iff.mp h
  obtain ⟨pre, post, hcs, rfl⟩ := exists_split_of_getElem? hplace
  exact ⟨pre, post, hcs, hi⟩

/-- The tokens of the clauses of a block: what stands in front of the body of one of them, the
body, and what follows it. -/
theorem occurrencesOfClauses_split (up : List (List Clause × Place)) {pre post : List Clause}
    {c : Clause} (hcs : cs = pre ++ c :: post) :
    occurrencesOfClauses up cs 0 cs
      = (occurrencesOfClauses up cs 0 pre ++ openingOf up cs pre.length c.head)
        ++ (occurrencesOfNodes (up ++ [(cs, .body pre.length)]) c.body
          ++ occurrencesOfClauses up cs (pre.length + 1) post) := by
  conv_lhs => arg 4; rw [hcs]
  rw [occurrencesOfClauses_append, occurrencesOfClauses, c.occurrences_eq]
  simp only [Nat.zero_add, List.append_assoc]

/-- A block on the flag of which no clause is kept goes as a whole. -/
theorem pruned_vacated_of_none (hflags : FlagsAre flag cs)
    (hnone : (Build.only flag).chosen cs = none) (ending : Token) :
    Pruned flag ((Node.block cs ending).occurrences up) (tokensOfNodes (vacated cs)) := by
  have hk : ∀ k, keptPlace flag cs = some k → k < 0 ∨ 0 + cs.length ≤ k := by
    intro k hk
    rw [← getElem?_keptPlace, hk, Option.bind_some] at hnone
    exact .inr (by simpa using hnone)
  obtain ⟨d, gap, heq, hgap, _⟩ := exists_gap_behind up hflags ending hk
  have hleading : d.token.leading = leadingOf cs := by
    cases cs with
    | nil => exact absurd hflags (by simp [FlagsAre, conditionsOf, Condition.namesAll])
    | cons c r =>
        obtain ⟨us, hus⟩ := openingOf_eq_cons up (c :: r) 0 c.head
        rw [occurrencesOfClauses, c.occurrences_eq, hus] at heq
        obtain ⟨rfl, _⟩ := List.cons_eq_cons.mp heq
        rfl
  rw [Node.occurrences, heq, vacated, tokensOfNodes, Node.tokens, ← hleading]
  simpa [tokensOfNodes] using Pruned.vacate d gap hgap .done

/-- **A block on the flag** with a kept clause: the runs on both sides of its body go, and
the body moves up to the first directive, or goes with them if it holds nothing. -/
theorem pruned_of_chosen (hflags : FlagsAre flag cs) {c : Clause}
    (hchosen : (Build.only flag).chosen cs = some c) (ending : Token)
    (hbody : ∀ i, keptPlace flag cs = some i →
      Pruned flag (occurrencesOfNodes (up ++ [(cs, .body i)]) c.body)
        (tokensOfNodes (resolveNodes flag c.body)))
    (hstarts : ∀ n ∈ resolveNodes flag c.body, n.Starts)
    (hsolid : ∀ t ∈ tokensOfNodes c.body, t.kind ≠ .placeholder) :
    Pruned flag ((Node.block cs ending).occurrences up)
      (tokensOfNodes (if hasContent (resolveNodes flag c.body) then
        splice (leadingOf cs) (resolveNodes flag c.body) else vacated cs)) := by
  obtain ⟨pre, post, hcs, hi⟩ := exists_split_of_chosen hchosen
  obtain ⟨d, gap, hbefore, hgap, hleading⟩ := exists_gap_before up hflags hcs hi
  have hbehind : ∀ k, keptPlace flag cs = some k →
      k < pre.length + 1 ∨ pre.length + 1 + post.length ≤ k := by
    intro k hk
    have := Option.some.inj (hi.symm.trans hk)
    omega
  obtain ⟨d', gap', hbehind, hgap', hends'⟩ := exists_gap_behind up hflags ending hbehind
  -- the block is a run, the kept body, and another run
  let os := occurrencesOfNodes (up ++ [(cs, .body pre.length)]) c.body
  have hoccurrences : (Node.block cs ending).occurrences up = d :: gap ++ os ++ (d' :: gap') := by
    rw [← hbefore, ← hbehind, Node.occurrences, occurrencesOfClauses_split up hcs]
    simp only [os, List.append_assoc]
  have hbody' := hbody _ hi
  have hos : ∀ o ∈ os, o.token.kind ≠ .placeholder ∧ o.IsInside flag := by
    intro o ho
    have haround : (cs, Place.body pre.length) ∈ o.around :=
      (prefix_around_of_mem o ho).subset (by simp)
    exact ⟨forall_mem_occurrences hsolid _ o ho, _, haround, hflags⟩
  rw [hoccurrences]
  split
  · next hcontent =>
    have hsome : ∃ t ∈ tokensOfNodes (resolveNodes flag c.body), t.kind ≠ .placeholder := by
      simpa [hasContent] using hcontent
    have hmoved := hbody'.spliceTokens hos hsome hgap (gathered_nil _)
    rw [tokensOfNodes_splice hstarts, ← hleading]
    simpa using hmoved.append (.drop d' gap' hgap' hends' .done)
  · next hcontent =>
    -- nothing of the body is left, so the whole block is one run
    have hall := hbody'.isDropped_of_placeholders (fun o ho => (hos o ho).1)
      (by simpa [hasContent] using hcontent)
    have hwide : IsGap flag d (gap ++ os ++ (d' :: gap')) := by
      refine ⟨hgap.directive, ?_, ?_⟩
      · rw [← List.cons_append, ← List.cons_append]
        exact List.forall_mem_append.mpr
          ⟨List.forall_mem_append.mpr ⟨hgap.dropped, hall⟩, hgap'.dropped⟩
      · rw [← List.cons_append, List.getLast?_append_of_ne_nil _ (List.cons_ne_nil _ _)]
        exact hgap'.closes
    have hvacate := Pruned.vacate d _ hwide Pruned.done
    rw [hleading] at hvacate
    simpa [vacated, tokensOfNodes, Node.tokens] using hvacate

end Block

/-! ## The resolved tree -/

theorem tracks_pruned : Tracks flag (Stays flag) (Pruned flag) where
  nil := .done
  append := Pruned.append
  stay t hup := .keep ⟨t, _⟩ hup.not_isDropped .done
  other _ hup hflags := hup.append fun h => absurd h hflags
  block := by
    intro up cs ending hup hflags _ hbodies hbody
    rw [resolve_block_of_flagsAre (Build.isOn_only flag) hflags]
    cases hchosen : (Build.only flag).chosen cs with
    | none => exact pruned_vacated_of_none hflags hchosen ending
    | some c =>
        have hc := Build.mem_of_chosen hchosen
        obtain ⟨hstarts, hsolid⟩ := hbodies c hc
        refine pruned_of_chosen hflags hchosen ending (fun i hi => ?_)
          (starts_resolveNodes hstarts).of_mem hsolid
        exact hbody c hc i (hup.append fun _ => hi)

/-- **What a resolution does to the tokens.** -/
theorem pruned_resolveNodes {up : List (List Clause × Place)} {ns : List Node}
    (hup : Stays flag up) (hstarts : Everywhere Node.Starts ns)
    (hsolid : ∀ t ∈ tokensOfNodes ns, t.kind ≠ .placeholder) :
    Pruned flag (occurrencesOfNodes up ns) (tokensOfNodes (resolveNodes flag ns)) :=
  tracks_pruned.resolved hup hstarts hsolid

/-! ## Parsed trees -/

/-- What holds of every token of a list holds of the tokens of each node in it. -/
theorem everywhere_tokens {P : Token → Prop} {ns : List Node} (h : ∀ t ∈ tokensOfNodes ns, P t) :
    Everywhere (fun n => ∀ t ∈ n.tokens, P t) ns := by
  induction ns using memberInduction with
  | nil => exact everywhere_nil
  | item kind parts rest ihGroups ihRest =>
      obtain ⟨hitem, hrest⟩ := List.forall_mem_append.mp h
      refine everywhere_cons.mpr ⟨everywhere_item.mpr ⟨hitem, ?_⟩, ihRest hrest⟩
      intro opening members closing hgroup
      refine ihGroups opening members closing hgroup fun t ht => hitem t ?_
      rw [Node.tokens, tokensOfParts_eq]
      exact List.mem_flatMap.mpr ⟨_, hgroup, by simp [Part.tokens, ht]⟩
  | block cs ending rest ihBodies ihRest =>
      obtain ⟨hblock, hrest⟩ := List.forall_mem_append.mp h
      refine everywhere_cons.mpr ⟨everywhere_block.mpr ⟨hblock, ?_⟩, ihRest hrest⟩
      intro c hc
      refine ihBodies c hc fun t ht => hblock t ?_
      rw [Node.tokens, tokensOfClauses_eq]
      refine List.mem_append_left _ (List.mem_flatMap.mpr ⟨c, hc, ?_⟩)
      cases c
      exact List.mem_append_right _ ht
  | placeholder t rest ihRest =>
      obtain ⟨hself, hrest⟩ := List.forall_mem_append.mp h
      exact everywhere_cons.mpr ⟨everywhere_placeholder.mpr hself, ihRest hrest⟩

/-- A node as it is built, of tokens of a source, starts. -/
theorem Node.IsBuilt.starts {read : List Token → Except Refusal Condition} {n : Node}
    (h : n.IsBuilt read) (hsolid : ∀ t ∈ n.tokens, t.kind ≠ .placeholder) : n.Starts := by
  cases n with
  | item kind parts =>
      cases parts with
      | nil => exact absurd rfl h.1
      | cons p r =>
          cases p with
          | token t => exact ⟨t, rfl, iff_of_false (hsolid t List.mem_cons_self) (by simp)⟩
          | group t members closing =>
              exact ⟨t, rfl, iff_of_false (hsolid t List.mem_cons_self) (by simp)⟩
  | block cs ending =>
      cases cs with
      | nil => exact h.2.1.elim
      | cons c r =>
          obtain ⟨head, body⟩ := c
          exact ⟨_, rfl, iff_of_false (hsolid _ List.mem_cons_self) (by simp)⟩
  | placeholder t =>
      have hkind : t.kind = .placeholder := congrArg Token.kind h
      exact absurd hkind (hsolid t List.mem_cons_self)

/-- Every node of a parsed source starts. -/
theorem starts_of_isParsed {read : List Token → Except Refusal Condition} {ns : List Node}
    (h : Everywhere (Assembly.IsParsed read) ns)
    (hsolid : ∀ t ∈ tokensOfNodes ns, t.kind ≠ .placeholder) : Everywhere Node.Starts ns :=
  fun s hs => (h s hs).1.starts (everywhere_tokens hsolid s hs)

/-- What tracks a resolution holds of the members of a source, -/
theorem Tracks.members_of_assemble {Up : List (List Clause × Place) → Prop}
    {R : List Occurrence → List Token → Prop} (hR : Tracks flag Up R) (hup : Up [])
    {read : List Token → Except Refusal Condition} {l : Lexed} {tree : SourceTree}
    (h : Assembly.assemble read l = .ok tree) (hsolid : ∀ t ∈ l.tokens, t.kind ≠ .placeholder) :
    R (occurrencesOfNodes [] tree.members) (tokensOfNodes (resolveNodes flag tree.members)) := by
  have hmembers : ∀ t ∈ tokensOfNodes tree.members, t.kind ≠ .placeholder := by
    have htokens := (Assembly.tree_of_assemble h).1
    rw [SourceTree.tokens, Lexed.toList] at htokens
    rwa [(List.append_inj' htokens rfl).1]
  exact hR.resolved hup (starts_of_isParsed (Assembly.isParsed_of_assemble h) hmembers) hmembers

/-- **and of all of the source.** -/
theorem Tracks.of_assemble {Up : List (List Clause × Place) → Prop}
    {R : List Occurrence → List Token → Prop} (hR : Tracks flag Up R) (hup : Up [])
    {read : List Token → Except Refusal Condition} {l : Lexed} {tree : SourceTree}
    (h : Assembly.assemble read l = .ok tree) (hsolid : ∀ t ∈ l.tokens, t.kind ≠ .placeholder) :
    R tree.occurrences (tree.resolve flag).tokens :=
  hR.append (hR.members_of_assemble hup h hsolid) (hR.stay tree.eof hup)

/-- The tokens of a resolved member list, from the tokens of the list, -/
theorem pruned_members_of_assemble {read : List Token → Except Refusal Condition} {l : Lexed}
    {tree : SourceTree} (h : Assembly.assemble read l = .ok tree)
    (hsolid : ∀ t ∈ l.tokens, t.kind ≠ .placeholder) (flag : Text) :
    Pruned flag (occurrencesOfNodes [] tree.members)
      (tokensOfNodes (resolveNodes flag tree.members)) :=
  tracks_pruned.members_of_assemble (fun _ ha => absurd ha List.not_mem_nil) h hsolid

/-- **and those of a resolved source.** -/
theorem pruned_of_assemble {read : List Token → Except Refusal Condition} {l : Lexed}
    {tree : SourceTree} (h : Assembly.assemble read l = .ok tree)
    (hsolid : ∀ t ∈ l.tokens, t.kind ≠ .placeholder) (flag : Text) :
    Pruned flag tree.occurrences (tree.resolve flag).tokens :=
  tracks_pruned.of_assemble (fun _ ha => absurd ha List.not_mem_nil) h hsolid

end Unflag
