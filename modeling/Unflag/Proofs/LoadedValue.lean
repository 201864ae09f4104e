/-
What is loaded from a document.

A mapping is made entry by entry, and an entry takes the place of an earlier one that has the same
key. So it has under each key what came last (`lookUp_distinct`), and no key twice; and this holds
of every mapping and of every set inside of a value that is loaded (`load_isProper`).

A document is surveyed before its value is laid out. The survey goes from node to node on a given
number of steps, and these are enough: a node is met once, and one that holds others waits once, so
each step leaves less to do (`Survey.shrinks_meetInside`), and more steps come to the same
(`value_eq_of_more`).
-/
import Mathlib.Data.Finset.Card
import Mathlib.Data.List.Induction
import Unflag.Yaml

set_option autoImplicit false

namespace Unflag

/-! ## Keys -/

namespace Value

variable {a b : Value}

theorem sameKey_iff : a.sameKey b = true ↔ ∃ i, a.identity? = some i ∧ b.identity? = some i := by
  rw [sameKey, Bool.and_eq_true, Option.isSome_iff_exists, beq_iff_eq]
  constructor
  · rintro ⟨⟨i, ha⟩, hb⟩
    exact ⟨i, ha, hb ▸ ha⟩
  · rintro ⟨i, ha, hb⟩
    exact ⟨⟨i, ha⟩, ha.trans hb.symm⟩

theorem sameKey_comm (a b : Value) : a.sameKey b = b.sameKey a := by
  rw [Bool.eq_iff_iff, sameKey_iff, sameKey_iff]
  simp only [and_comm]

/-- Where one key is the same as another, so is the other. -/
theorem sameKey_congr (h : a.sameKey b = true) (c : Value) : a.sameKey c = b.sameKey c := by
  obtain ⟨i, ha, hb⟩ := sameKey_iff.mp h
  rw [sameKey, sameKey, ha, hb]

/-- No two of these keys are the same. -/
def AreDistinct (ks : List Value) : Prop := ks.Pairwise fun a b => a.sameKey b = false

/-- A value that holds no others. -/
def IsLeaf : Value → Prop
  | .list _ | .set _ | .map _ => False
  | _ => True

/-- No mapping and no set inside of a value has a key twice. -/
inductive IsProper : Value → Prop
  | leaf {v : Value} (h : v.IsLeaf) : IsProper v
  | list {items : List Value} (h : ∀ v ∈ items, IsProper v) : IsProper (.list items)
  | set {items : List Value} (hdistinct : AreDistinct items) (h : ∀ v ∈ items, IsProper v) :
    IsProper (.set items)
  | map {es : List (Value × Value)} (hdistinct : AreDistinct (es.map Prod.fst))
    (hkeys : ∀ e ∈ es, IsProper e.1) (hvalues : ∀ e ∈ es, IsProper e.2) : IsProper (.map es)

end Value

namespace Yaml

theorem exists_of_bind {α β : Type} {x : Reading α} {f : α → Reading β} {b : β}
    (h : (x >>= f) = .ok b) : ∃ a, x = .ok a ∧ f a = .ok b := by
  cases x with
  | ok a => exact ⟨a, rfl, h⟩
  | error stop => cases h

/-- What every step keeps, steps that come to their end have kept. -/
theorem foldlM_keeps {α β : Type} {step : β → α → Reading β} {P : β → Prop}
    (hstep : ∀ b a b', P b → step b a = .ok b' → P b') {b b' : β} {as : List α} (hb : P b)
    (h : as.foldlM step b = .ok b') : P b' := by
  induction as generalizing b with
  | nil =>
      cases h
      exact hb
  | cons a as ih =>
      rw [List.foldlM_cons] at h
      obtain ⟨c, hc, h⟩ := exists_of_bind h
      exact ih (hstep b a c hb hc) h

/-! ## Mappings -/

namespace Nodes

variable {k v c : Value} {es : List (Value × Value)}

/-- What is under a key: the value of the first entry that has it. -/
def lookUp (k : Value) (es : List (Value × Value)) : Option Value :=
  (es.find? fun e => e.1.sameKey k).map Prod.snd

/-- A key that is put is there already, or comes last. -/
theorem keys_putKey (k v : Value) (es : List (Value × Value)) :
    (putKey k v es).map Prod.fst = es.map Prod.fst
      ∨ (putKey k v es).map Prod.fst = es.map Prod.fst ++ [k]
        ∧ ∀ a ∈ es.map Prod.fst, a.sameKey k = false := by
  induction es with
  | nil => exact .inr ⟨rfl, by simp⟩
  | cons e r ih =>
      rw [putKey]
      cases hsame : e.1.sameKey k with
      | true => exact .inl rfl
      | false =>
          rw [if_neg (by simp)]
          rcases ih with hkeys | ⟨hkeys, hnew⟩
          · exact .inl (by rw [List.map_cons, hkeys, List.map_cons])
          · refine .inr ⟨by rw [List.map_cons, hkeys, List.map_cons, List.cons_append], ?_⟩
            exact List.forall_mem_cons.mpr ⟨hsame, hnew⟩

theorem areDistinct_putKey (h : Value.AreDistinct (es.map Prod.fst)) (k v : Value) :
    Value.AreDistinct ((putKey k v es).map Prod.fst) := by
  rcases keys_putKey k v es with hkeys | ⟨hkeys, hnew⟩
  · rwa [hkeys]
  · rw [hkeys, Value.AreDistinct, List.pairwise_append]
    refine ⟨h, List.pairwise_singleton _ _, ?_⟩
    intro a ha b hb
    rw [List.mem_singleton.mp hb]
    exact hnew a ha

theorem forall_mem_putKey {P : Value → Prop} (hk : P k) (hv : P v)
    (h : ∀ e ∈ es, P e.1 ∧ P e.2) : ∀ e ∈ putKey k v es, P e.1 ∧ P e.2 := by
  induction es with
  | nil =>
      rw [putKey, List.forall_mem_singleton]
      exact ⟨hk, hv⟩
  | cons x r ih =>
      obtain ⟨hx, hr⟩ := List.forall_mem_cons.mp h
      rw [putKey]
      split
      · exact List.forall_mem_cons.mpr ⟨⟨hx.1, hv⟩, hr⟩
      · exact List.forall_mem_cons.mpr ⟨hx, ih hr⟩

/-- **What is put under a key is found under it**, and nothing else changes. -/
theorem lookUp_putKey (k v c : Value) (es : List (Value × Value)) :
    lookUp c (putKey k v es) = if k.sameKey c then some v else lookUp c es := by
  induction es with
  | nil => cases hc : k.sameKey c <;> simp [putKey, lookUp, hc]
  | cons e r ih =>
      rw [putKey]
      cases hsame : e.1.sameKey k with
      | true =>
          have hc := Value.sameKey_congr hsame c
          cases hk : k.sameKey c <;> simp [lookUp, hc, hk]
      | false =>
          simp only [Bool.false_eq_true, if_false]
          cases hc : e.1.sameKey c with
          | true =>
              -- `e` is under `c` and not under `k`, so these are not the same
              have hk : k.sameKey c = false := by
                rw [Value.sameKey_comm, ← Value.sameKey_congr hc, hsame]
              simp [lookUp, hc, hk]
          | false =>
              simp only [lookUp, List.find?_cons, hc]
              exact ih

/-- **The last value of every key.** -/
theorem lookUp_distinct (c : Value) (es : List (Value × Value)) :
    lookUp c (distinct es) = lookUp c es.reverse := by
  induction es using List.reverseRecOn with
  | nil => rfl
  | append_singleton es e ih =>
      rw [distinct, List.foldl_append, ← distinct]
      rw [List.foldl_cons, List.foldl_nil, lookUp_putKey, ih, List.reverse_concat]
      cases hc : e.1.sameKey c <;> simp [lookUp, hc]

theorem areDistinct_distinct (es : List (Value × Value)) :
    Value.AreDistinct ((distinct es).map Prod.fst) := by
  induction es using List.reverseRecOn with
  | nil => exact List.Pairwise.nil
  | append_singleton es e ih =>
      rw [distinct, List.foldl_append]
      exact areDistinct_putKey ih e.1 e.2

theorem forall_mem_distinct {P : Value → Prop} (h : ∀ e ∈ es, P e.1 ∧ P e.2) :
    ∀ e ∈ distinct es, P e.1 ∧ P e.2 := by
  induction es using List.reverseRecOn with
  | nil => exact fun e he => absurd he List.not_mem_nil
  | append_singleton es x ih =>
      rw [List.forall_mem_append, List.forall_mem_singleton] at h
      rw [distinct, List.foldl_append]
      exact forall_mem_putKey h.2.1 h.2.2 (ih h.1)

/-! ## Values -/

variable {ns : Nodes} {id : Nat}

theorem isLeaf_made {α : Type} {f : α → Value} (hf : ∀ a, (f a).IsLeaf) {r : Except Fault α}
    {v : Value} (h : made f r = .ok v) : v.IsLeaf := by
  cases r with
  | ok a =>
      cases h
      exact hf a
  | error fault => cases h

theorem isLeaf_timestampOf {s : Text} {v : Value} (h : Scalar.timestampOf s = .ok v) :
    v.IsLeaf := by
  rw [Scalar.timestampOf] at h
  split at h
  · next t ht =>
    rw [Timestamp.value] at h
    split at h
    · cases h
    · cases h
      trivial
    · cases h
      trivial
  · cases h

/-- What is made of a scalar holds no other values. -/
theorem isLeaf_scalarValue {v : Value} (h : ns.scalarValue id = .ok v) : v.IsLeaf := by
  rw [scalarValue] at h
  obtain ⟨text, -, h⟩ := exists_of_bind h
  dsimp only at h
  split at h
  case h_1 =>
    cases h
    split <;> trivial
  case h_2 =>
    cases h
    trivial
  case h_3 => exact isLeaf_made (f := .bool) (fun _ => trivial) h
  case h_4 => exact isLeaf_made (f := .int) (fun _ => trivial) h
  case h_5 => exact isLeaf_made (f := .float) (fun _ => trivial) h
  case h_6 =>
    obtain ⟨bytes, -, hbytes⟩ := exists_of_bind h
    cases hbytes
    trivial
  case h_7 =>
    split at h
    · cases hmoment : Scalar.timestampOf text.1 with
      | ok u =>
          rw [hmoment] at h
          cases h
          exact isLeaf_timestampOf hmoment
      | error fault =>
          rw [hmoment] at h
          cases h
    · cases h
  case h_8 => cases h

theorem isProper_scalarOrNull (ns : Nodes) (id : Nat) : (value.scalarOrNull ns id).IsProper := by
  rw [value.scalarOrNull]
  cases h : ns.scalarValue id with
  | ok v => exact .leaf (isLeaf_scalarValue h)
  | error stop => exact .leaf trivial

/-- **A value that is laid out is proper**, down to any depth. -/
theorem isProper_value (ns : Nodes) (depth id : Nat) : (ns.value depth id).IsProper := by
  induction depth generalizing id with
  | zero =>
      rw [value]
      split
      · exact .map List.Pairwise.nil (by simp) (by simp)
      · exact .set List.Pairwise.nil (by simp)
      · split
        · exact .list (by simp)
        · exact isProper_scalarOrNull ns id
  | succ depth ih =>
      have hpairs : ∀ e ∈ distinct ((ns.entries id).map fun e =>
          (value ns depth e.1, value ns depth e.2)), e.1.IsProper ∧ e.2.IsProper := by
        refine forall_mem_distinct ?_
        rw [List.forall_mem_map]
        exact fun e _ => ⟨ih e.1, ih e.2⟩
      rw [value]
      split
      · exact .map (areDistinct_distinct _) (fun e he => (hpairs e he).1) fun e he =>
          (hpairs e he).2
      · refine .set (areDistinct_distinct _) ?_
        rw [List.forall_mem_map]
        exact fun e he => (hpairs e he).1
      · refine .list ?_
        rw [List.forall_mem_map]
        exact fun i _ => ih i
      · split
        · refine .list ?_
          rw [List.forall_mem_map]
          exact fun i _ => .list (by simp)
        · exact isProper_scalarOrNull ns id
      · exact isProper_scalarOrNull ns id

end Nodes

theorem isProper_of_value {d : Document} {v : Value} (h : d.value = .ok v) : v.IsProper := by
  rw [Document.value] at h
  obtain ⟨met, -, h⟩ := exists_of_bind h
  obtain ⟨surveyed, -, h⟩ := exists_of_bind h
  cases h
  exact surveyed.nodes.isProper_value depth d.root

/-- **What is loaded is proper**: no mapping in it has a key twice. -/
theorem load_isProper {source : Text} {v : Value} (h : load source = .ok v) : v.IsProper := by
  rw [load] at h
  split at h
  · obtain ⟨_, hrefused, _⟩ := exists_of_bind h
    cases hrefused
  · obtain ⟨ts, -, h⟩ := exists_of_bind h
    obtain ⟨document, -, h⟩ := exists_of_bind h
    cases document with
    | none =>
        cases h
        exact .leaf trivial
    | some d => exact isProper_of_value h

/-! ## Surveys -/

namespace Nodes

variable {ns ns' : Nodes}

theorem size_setEntries (ns : Nodes) (id : Nat) (es : List (Nat × Nat)) :
    (ns.setEntries id es).size = ns.size :=
  Array.size_setIfInBounds

theorem size_settleKeys (ns : Nodes) (id : Nat) : (ns.settleKeys id).size = ns.size := by
  rw [settleKeys]
  generalize ns.entries id = es
  induction es generalizing ns with
  | nil => rfl
  | cons e r ih => rw [List.foldl_cons, ih, Array.size_modify]

/-- Taking over entries neither adds nor removes a node. -/
theorem size_takeOver {fuel id : Nat} {taken : List (Nat × Nat)}
    (h : ns.takeOver fuel id taken = .ok ns') : ns'.size = ns.size := by
  induction fuel generalizing ns id taken ns' with
  | zero => cases h
  | succ fuel ih =>
      rw [takeOver] at h
      dsimp only at h
      split at h
      · cases h
        rw [size_settleKeys, size_setEntries]
      · next v hv =>
        split at h
        · obtain ⟨after, hafter, h⟩ := exists_of_bind h
          rw [ih h, ih hafter, size_setEntries]
        · next items hitems =>
          obtain ⟨⟨after, lists⟩, hafter, h⟩ := exists_of_bind h
          have hsize : after.size = ns.size := by
            refine foldlM_keeps (P := fun b => b.1.size = ns.size) ?_ ?_ hafter
            · intro b i b' hb hstep
              split at hstep
              · obtain ⟨one, hone, hstep⟩ := exists_of_bind hstep
                cases hstep
                rw [ih hone, hb]
              · cases hstep
            · exact size_setEntries ns id _
          rw [ih h, hsize]
        · cases h

end Nodes

namespace Survey

variable {s s' : Survey} {id : Nat}

/-- What is left to do in a survey: the nodes that have not been met, and those that wait. -/
def left (s : Survey) : Nat :=
  (Finset.range s.nodes.size \ s.met.toFinset).card + s.pending.length

/-- The survey `s'` has as many nodes as `s`, and no more to do. -/
def Shrinks (s s' : Survey) : Prop := s'.nodes.size = s.nodes.size ∧ s'.left ≤ s.left

theorem Shrinks.refl (s : Survey) : s.Shrinks s := ⟨rfl, le_rfl⟩

theorem Shrinks.trans {s₁ s₂ s₃ : Survey} (h : s₁.Shrinks s₂) (h' : s₂.Shrinks s₃) :
    s₁.Shrinks s₃ :=
  ⟨h'.1.trans h.1, h'.2.trans h.2⟩

/-- Only a node that is there can hold others. -/
theorem lt_size_of_isCollection {ns : Nodes} (h : (ns.tag id).isCollection = true) :
    id < ns.size := by
  rw [Nodes.tag] at h
  by_contra hid
  rw [Array.getElem?_eq_none (Nat.not_lt.mp hid)] at h
  cases h

/-- Meeting a node leaves no more to do: one that has to wait has not been met before. -/
theorem shrinks_meet (h : s.meet id = .ok s') : s.Shrinks s' := by
  rw [meet] at h
  split at h
  · cases h
    exact .refl s
  · next hnew =>
    have hmem : id ∉ s.met.toFinset := by simpa using hnew
    dsimp only at h
    split at h
    · next hcollection =>
      cases h
      have hlt := lt_size_of_isCollection hcollection
      refine ⟨rfl, ?_⟩
      have herase := Finset.card_erase_add_one
        (Finset.mem_sdiff.mpr ⟨Finset.mem_range.mpr hlt, hmem⟩)
      simp only [left, List.toFinset_cons, Finset.sdiff_insert, List.length_append,
        List.length_singleton]
      omega
    · cases hvalue : s.nodes.scalarValue id with
      | error stop =>
          rw [hvalue] at h
          cases h
      | ok v =>
          rw [hvalue] at h
          cases h
          refine ⟨rfl, ?_⟩
          have hless : Finset.range s.nodes.size \ (id :: s.met).toFinset
              ⊆ Finset.range s.nodes.size \ s.met.toFinset := by
            rw [List.toFinset_cons]
            exact Finset.sdiff_subset_sdiff (Finset.Subset.refl _) (Finset.subset_insert _ _)
          exact Nat.add_le_add_right (Finset.card_le_card hless) _

theorem shrinks_foldlM {α : Type} {step : Survey → α → Reading Survey} {as : List α}
    (hstep : ∀ s a s', step s a = .ok s' → s.Shrinks s') (h : as.foldlM step s = .ok s') :
    s.Shrinks s' :=
  foldlM_keeps (fun b a b' hb hone => hb.trans (hstep b a b' hone)) (.refl s) h

theorem shrinks_meetEntry {e : Nat × Nat} (h : s.meetEntry e = .ok s') : s.Shrinks s' := by
  obtain ⟨s₁, hkey, hvalue⟩ := exists_of_bind h
  exact (shrinks_meet hkey).trans (shrinks_meet hvalue)

theorem shrinks_meetKeyed {e : Nat × Nat} (h : s.meetKeyed e = .ok s') : s.Shrinks s' := by
  obtain ⟨s₁, hkey, h⟩ := exists_of_bind h
  dsimp only at h
  split at h
  · obtain ⟨_, hrefused, _⟩ := exists_of_bind h
    cases hrefused
  · exact (shrinks_meet hkey).trans (shrinks_meet h)

/-- Meeting what a mapping holds: its entries may be others by then, and its nodes are as many. -/
theorem shrinks_meetMapping (h : meetInside.meetMapping s id = .ok s') : s.Shrinks s' := by
  rw [meetInside.meetMapping] at h
  obtain ⟨ns, hns, h⟩ := exists_of_bind h
  have hsize := Nodes.size_takeOver hns
  have htaken : s.Shrinks { s with nodes := ns } := by
    refine ⟨hsize, ?_⟩
    rw [left, left, hsize]
  exact htaken.trans (shrinks_foldlM (fun _ _ _ => shrinks_meetKeyed) h)

theorem shrinks_meetPairs {items : List Nat} (h : meetInside.meetPairs s items = .ok s') :
    s.Shrinks s' := by
  rw [meetInside.meetPairs] at h
  refine shrinks_foldlM ?_ h
  intro b i b' hone
  split at hone
  · exact shrinks_meetEntry hone
  · cases hone

/-- **Going on to what a node holds** leaves no more to do. -/
theorem shrinks_meetInside (h : s.meetInside id = .ok s') : s.Shrinks s' := by
  rw [meetInside] at h
  split at h
  · exact shrinks_foldlM (fun _ _ _ => shrinks_meet) h
  · exact shrinks_meetMapping h
  · exact shrinks_meetMapping h
  · exact shrinks_meetPairs h
  · exact shrinks_meetPairs h
  · cases h

theorem run_of_nil (h : s.pending = []) (fuel : Nat) : s.run fuel = .ok s := by
  cases fuel <;> simp [run, h]

theorem run_of_cons {rest : List Nat} (h : s.pending = id :: rest) (fuel : Nat) :
    s.run (fuel + 1) = ({ s with pending := rest }.meetInside id >>= run fuel) := by
  obtain ⟨nodes, met, pending⟩ := s
  cases h
  rfl

/-- **More steps come to the same** where there are as many as there is left to do. -/
theorem run_add {fuel : Nat} (hfuel : s.left ≤ fuel) (more : Nat) :
    s.run (fuel + more) = s.run fuel := by
  induction fuel generalizing s with
  | zero =>
      rw [left, Nat.le_zero, Nat.add_eq_zero_iff] at hfuel
      have hpending := List.eq_nil_of_length_eq_zero hfuel.2
      rw [run_of_nil hpending, run_of_nil hpending]
  | succ fuel ih =>
      cases hpending : s.pending with
      | nil => rw [run_of_nil hpending, run_of_nil hpending]
      | cons id rest =>
          rw [Nat.add_right_comm, run_of_cons hpending, run_of_cons hpending]
          cases hinside : { s with pending := rest }.meetInside id with
          | error stop => rfl
          | ok s' =>
              -- one node waits no longer
              have hless : s'.left ≤ fuel := by
                have hle := (shrinks_meetInside hinside).2
                rw [left, hpending, List.length_cons] at hfuel
                simp only [left] at hle ⊢
                omega
              exact ih hless

end Survey

/-- **A survey has steps enough.** With any number of steps more, a document has the same value. -/
theorem value_eq_of_more (d : Document) (more : Nat) :
    d.value = (do
      let s ← (⟨d.nodes, [], []⟩ : Survey).meet d.root
      let s ← s.run (d.nodes.size + 1 + more)
      return s.nodes.value depth d.root) := by
  rw [Document.value]
  cases hmeet : (⟨d.nodes, [], []⟩ : Survey).meet d.root with
  | error stop => rfl
  | ok s =>
      have hleft : s.left ≤ d.nodes.size + 1 := by
        have hle := (Survey.shrinks_meet hmeet).2
        have hall : (⟨d.nodes, [], []⟩ : Survey).left = d.nodes.size := by simp [Survey.left]
        omega
      change (s.run (d.nodes.size + 1) >>= _) = (s.run (d.nodes.size + 1 + more) >>= _)
      rw [Survey.run_add hleft]

end Yaml

end Unflag
