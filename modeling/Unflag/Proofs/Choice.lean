/-
Which clause of a block is left.

A build decides every condition: it says which names are on, and it gives an answer for
each construct that the cleaner cannot evaluate. Its choice among the clauses of a block is
the first whose condition is true, else the fallback. That is the meaning of a block, and
it is said here without the evaluator that the cleaner uses.

The two meet on the blocks that are resolved. Where the names of a block are exactly the
flag, nothing is unsupported and nothing is unknown, so the evaluation with its early exits
is the truth in *every* build that has the flag on (`holds_eq_truth`), and the clause it
selects is the choice of every such build (`select_eq_chosen`).
-/
import Unflag.Resolution

set_option autoImplicit false

namespace Unflag

/-! ## Builds -/

/-- A build: which names are on, and how each construct turns out that is kept as
unsupported text. -/
structure Build where
  isOn : Text → Bool
  passes : Text → Bool

/-- The build in which one flag is on and nothing else holds. -/
def Build.only (flag : Text) : Build := ⟨fun n => n == flag, fun _ => false⟩

theorem Build.isOn_only (flag : Text) : (Build.only flag).isOn flag = true := by
  simp [Build.only]

/-- The truth of a condition in a build. A number stands for "is positive". -/
def Condition.truth (b : Build) : Condition → Bool
  | .name n => b.isOn n
  | .int v => decide (0 < v)
  | .bool v => v
  | .not e => !e.truth b
  | .binary .and l r => l.truth b && r.truth b
  | .binary .or l r => l.truth b || r.truth b
  | .paren e => e.truth b
  | .unsupported t => b.passes t

/-- Whether a build takes a clause for its condition. -/
def Build.takes (b : Build) (h : ClauseHead) : Bool :=
  h.kind != .fallback && h.condition.any (Condition.truth b)

/-- The clause a build chooses: the first whose condition is true, else the fallback. -/
def Build.choose {α : Type} (b : Build) (cs : List (ClauseHead × α)) : Option (ClauseHead × α) :=
  (cs.find? fun c => b.takes c.1).or (cs.filter fun c => c.1.kind == .fallback).getLast?

/-- The choice depends on the opening lines alone, not on what they are paired with. -/
theorem Build.choose_map {α β : Type} (b : Build) (f : α → β) (cs : List (ClauseHead × α)) :
    b.choose (cs.map fun c => (c.1, f c.2)) = (b.choose cs).map fun c => (c.1, f c.2) := by
  unfold Build.choose
  rw [List.find?_map, List.filter_map, List.getLast?_map, Option.map_or]
  rfl

/-- What a build chooses is one of the clauses. -/
theorem Build.mem_of_choose {α : Type} {b : Build} {cs : List (ClauseHead × α)} {c : ClauseHead × α}
    (h : b.choose cs = some c) : c ∈ cs := by
  rcases Option.or_eq_some_iff.mp h with h | ⟨_, h⟩
  · exact List.mem_of_find?_eq_some h
  · exact (List.mem_filter.mp (List.mem_of_getLast? h)).1

/-- The clause that a build chooses. -/
def Build.chosen (b : Build) (cs : List Clause) : Option Clause :=
  (b.choose (cs.map fun c => (c.head, c))).map Prod.snd

theorem Build.mem_of_chosen {b : Build} {cs : List Clause} {c : Clause}
    (h : b.chosen cs = some c) : c ∈ cs := by
  obtain ⟨p, hp, rfl⟩ := Option.map_eq_some_iff.mp h
  obtain ⟨d, hd, rfl⟩ := List.mem_map.mp (Build.mem_of_choose hp)
  exact hd

/-- Whatever is said of each clause, the choice among the clauses decides what is left. -/
theorem Build.choose_eq_chosen {α : Type} (b : Build) (cs : List Clause) (f : Clause → α) :
    b.choose (cs.map fun c => (c.head, f c)) = (b.chosen cs).map fun c => (c.head, f c) := by
  have hpairs : cs.map (fun c => (c.head, f c))
      = (cs.map fun c => (c.head, c)).map fun p => (p.1, f p.2) := by
    rw [List.map_map]
    rfl
  rw [hpairs, Build.choose_map, Build.chosen, Option.map_map]
  cases hp : b.choose (cs.map fun c => (c.head, c)) with
  | none => rfl
  | some p =>
      obtain ⟨c, _, rfl⟩ := List.mem_map.mp (Build.mem_of_choose hp)
      rfl

/-! ## The names of a block -/

/-- The names that the conditions of a block mention are exactly the one flag, and there is
nothing unsupported among them. -/
def FlagsAre (flag : Text) (cs : List Clause) : Prop :=
  ∃ ns, Condition.namesAll (conditionsOf cs) = .ok ns ∧ ∀ n, n ∈ ns ↔ n = flag

theorem onlyFlag_iff (flag : Text) (ns : List Text) :
    Condition.onlyFlag flag ns = true ↔ ∀ n, n ∈ ns ↔ n = flag := by
  unfold Condition.onlyFlag
  constructor
  · intro h n
    obtain ⟨hne, hall⟩ := Bool.and_eq_true_iff.mp h
    have hevery : ∀ m ∈ ns, m = flag := by simpa using hall
    refine ⟨hevery n, fun hn => ?_⟩
    obtain ⟨m, hm⟩ := List.exists_mem_of_ne_nil ns (by simpa using hne)
    rwa [hn, ← hevery m hm]
  · intro h
    have hmem : flag ∈ ns := (h flag).mpr rfl
    refine Bool.and_eq_true_iff.mpr ⟨by simpa using List.ne_nil_of_mem hmem, ?_⟩
    simpa using fun m hm => (h m).mp hm

/-- **The guard says what it is meant to say.** -/
theorem isGuardedBy_iff (flag : Text) (cs : List Clause) :
    isGuardedBy flag cs = true ↔ FlagsAre flag cs := by
  unfold isGuardedBy FlagsAre
  cases hnames : Condition.namesAll (conditionsOf cs) with
  | error o => simp
  | ok ns => simp [onlyFlag_iff]

instance (flag : Text) (cs : List Clause) : Decidable (FlagsAre flag cs) :=
  decidable_of_iff _ (isGuardedBy_iff flag cs)

/-- The conditions of a block are those of its opening lines. -/
theorem conditionsOf_eq (cs : List Clause) :
    conditionsOf cs = (cs.map Clause.head).filterMap ClauseHead.condition := by
  rw [conditionsOf, List.filterMap_map]
  rfl

/-- So a block with other bodies has the same names. -/
theorem flagsAre_congr {flag : Text} {cs ds : List Clause}
    (h : cs.map Clause.head = ds.map Clause.head) : FlagsAre flag cs ↔ FlagsAre flag ds := by
  rw [FlagsAre, FlagsAre, conditionsOf_eq, conditionsOf_eq, h]

/-! ## Evaluation and truth -/

/-- The names of a list of conditions hold those of each of them. -/
theorem Condition.names_of_mem {es : List Condition} {e : Condition} {ns : List Text}
    (h : Condition.namesAll es = .ok ns) (he : e ∈ es) :
    ∃ ms, e.names = .ok ms ∧ ∀ n ∈ ms, n ∈ ns := by
  induction es generalizing ns with
  | nil => exact absurd he List.not_mem_nil
  | cons d ds ih =>
      rw [Condition.namesAll] at h
      split at h
      · exact absurd h (by simp)
      · next ms hms =>
        split at h
        · exact absurd h (by simp)
        · next rs hrs =>
          obtain rfl := Except.ok.inj h
          rcases List.mem_cons.mp he with rfl | he
          · exact ⟨ms, hms, fun n hn => List.mem_append_left rs hn⟩
          · obtain ⟨ks, hks, hsub⟩ := ih hrs he
            exact ⟨ks, hks, fun n hn => List.mem_append_right ms (hsub n hn)⟩

/-- **Evaluation is truth** where only the flag is named: the evaluation raises nothing and
gives the truth of the condition in any build that has the flag on. -/
theorem Condition.holds_eq_truth {flag : Text} {b : Build} (hb : b.isOn flag = true)
    {e : Condition} {ns : List Text} (hnames : e.names = .ok ns) (honly : ∀ n ∈ ns, n = flag) :
    e.holds flag = .ok (e.truth b) := by
  induction e generalizing ns with
  | name n =>
      obtain rfl := Except.ok.inj hnames
      obtain rfl : n = flag := honly n (by simp)
      rw [Condition.holds, if_pos rfl, Condition.truth, hb]
  | int v => rfl
  | bool v => rfl
  | not e ih => rw [Condition.holds, ih hnames honly, Condition.truth]; rfl
  | paren e ih => exact ih hnames honly
  | unsupported t => exact absurd hnames (by simp [Condition.names])
  | binary op l r ihl ihr =>
      rw [Condition.names] at hnames
      split at hnames
      · exact absurd hnames (by simp)
      · next ls hls =>
        split at hnames
        · exact absurd hnames (by simp)
        · next rs hrs =>
          obtain rfl := Except.ok.inj hnames
          have hl := ihl hls fun n hn => honly n (List.mem_append_left rs hn)
          have hr := ihr hrs fun n hn => honly n (List.mem_append_right ls hn)
          -- the right-hand side is looked at only if the left one leaves the answer open
          cases op with
          | and =>
              rw [Condition.holds, hl, Condition.truth]
              cases l.truth b
              · rfl
              · exact hr
          | or =>
              rw [Condition.holds, hl, Condition.truth]
              cases l.truth b
              · exact hr
              · rfl

/-- Where every condition evaluates to its truth, selecting is choosing. -/
theorem selectFrom_eq {α : Type} {flag : Text} {b : Build} (fallback : Option (ClauseHead × α))
    (cs : List (ClauseHead × α))
    (h : ∀ c ∈ cs, ∀ e, c.1.condition = some e → e.holds flag = .ok (e.truth b)) :
    selectFrom flag fallback cs = .ok ((cs.find? fun c => b.takes c.1).or
      ((cs.filter fun c => c.1.kind == .fallback).getLast?.or fallback)) := by
  induction cs generalizing fallback with
  | nil => rfl
  | cons c r ih =>
      have hr := fun d hd => h d (List.mem_cons_of_mem c hd)
      rw [selectFrom]
      split
      · -- a fallback is kept in mind, and a later one takes its place
        next hkind =>
        have htakes : b.takes c.1 = false := by simp [Build.takes, hkind]
        rw [ih _ hr, List.find?_cons_of_neg (by simp [htakes]),
          List.filter_cons_of_pos (by simp [hkind]), List.getLast?_cons]
        cases (r.filter fun c => c.1.kind == .fallback).getLast? <;> rfl
      · next hnone hkind =>
        have htakes : b.takes c.1 = false := by simp [Build.takes, hnone]
        rw [ih _ hr, List.find?_cons_of_neg (by simp [htakes]),
          List.filter_cons_of_neg (by simpa using hkind)]
      · next e hsome hkind =>
        have hkind' : c.1.kind ≠ .fallback := hkind
        have htakes : b.takes c.1 = e.truth b := by simp [Build.takes, hkind', hsome]
        rw [h c List.mem_cons_self e hsome]
        cases htruth : e.truth b with
        | true => rw [List.find?_cons_of_pos (by rw [htakes, htruth])]; rfl
        | false =>
            rw [ih _ hr, List.find?_cons_of_neg (by rw [htakes, htruth]; simp),
              List.filter_cons_of_neg (by simpa using hkind')]

/-- Every condition of a block on the flag evaluates to its truth. -/
theorem holds_of_flagsAre {flag : Text} {b : Build} (hb : b.isOn flag = true) {cs : List Clause}
    (hflags : FlagsAre flag cs) {c : Clause} (hc : c ∈ cs) {e : Condition}
    (he : c.head.condition = some e) : e.holds flag = .ok (e.truth b) := by
  obtain ⟨ns, hns, honly⟩ := hflags
  have hmem : e ∈ conditionsOf cs := List.mem_filterMap.mpr ⟨c, hc, he⟩
  obtain ⟨ms, hms, hsub⟩ := Condition.names_of_mem hns hmem
  exact Condition.holds_eq_truth hb hms fun n hn => (honly n).mp (hsub n hn)

/-- **The selected clause** of a resolved block is the one that every build with the flag
on chooses. -/
theorem select_eq_chosen {α : Type} {flag : Text} {b : Build} (hb : b.isOn flag = true)
    {cs : List Clause} (hflags : FlagsAre flag cs) (f : Clause → α) :
    select flag (cs.map fun c => (c.head, f c))
      = .ok ((b.chosen cs).map fun c => (c.head, f c)) := by
  rw [← Build.choose_eq_chosen, select, selectFrom_eq (b := b), Option.or_none]
  · rfl
  · intro c hc e he
    obtain ⟨d, hd, rfl⟩ := List.mem_map.mp hc
    exact holds_of_flagsAre hb hflags hd he

end Unflag
