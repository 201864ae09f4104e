/-
Paths in order, and paths in writing.

Texts are compared character by character and paths name by name, so both orders are total,
transitive and antisymmetric, and a list of paths has one sorted form however it is shuffled
(`Path.sort_eq_of_perm`). Two different paths are told apart by their parts only if no name
holds a slash, which is the case of every name a file can have (`Path.IsName`).

The same condition makes a path readable: the path that is read from the text of a path whose
names are names of files is the path itself (`Path.ofText_text`).
-/
import Unflag.Path

set_option autoImplicit false

namespace Unflag

/-! ## The order of texts -/

namespace Text

theorem le_cons_iff {a b : Char} {r q : Text} :
    le (a :: r) (b :: q) = true ↔ a.toNat < b.toNat ∨ a.toNat = b.toNat ∧ le r q = true := by
  simp [le]

theorem le_total (s t : Text) : le s t = true ∨ le t s = true := by
  induction s generalizing t with
  | nil => exact .inl rfl
  | cons a r ih =>
      cases t with
      | nil => exact .inr rfl
      | cons b q =>
          rw [le_cons_iff, le_cons_iff]
          rcases Nat.lt_trichotomy a.toNat b.toNat with hlt | heq | hgt
          · exact .inl (.inl hlt)
          · rcases ih q with h | h
            · exact .inl (.inr ⟨heq, h⟩)
            · exact .inr (.inr ⟨heq.symm, h⟩)
          · exact .inr (.inl hgt)

theorem le_trans {s t u : Text} (hst : le s t = true) (htu : le t u = true) :
    le s u = true := by
  induction s generalizing t u with
  | nil => rfl
  | cons a r ih =>
      cases t with
      | nil => exact absurd hst (by simp [le])
      | cons b q =>
          cases u with
          | nil => exact absurd htu (by simp [le])
          | cons c v =>
              rw [le_cons_iff] at *
              rcases hst with hab | ⟨hab, hrq⟩
              · rcases htu with hbc | ⟨hbc, -⟩
                · exact .inl (by omega)
                · exact .inl (by omega)
              · rcases htu with hbc | ⟨hbc, hqv⟩
                · exact .inl (by omega)
                · exact .inr ⟨by omega, ih hrq hqv⟩

theorem le_antisymm {s t : Text} (hst : le s t = true) (hts : le t s = true) : s = t := by
  induction s generalizing t with
  | nil =>
      cases t with
      | nil => rfl
      | cons b q => exact absurd hts (by simp [le])
  | cons a r ih =>
      cases t with
      | nil => exact absurd hst (by simp [le])
      | cons b q =>
          rw [le_cons_iff] at hst hts
          -- neither first character comes before the other
          have hcode : a.toNat = b.toNat := by omega
          have hrq : le r q = true := by
            rcases hst with hlt | ⟨-, h⟩
            · omega
            · exact h
          have hqr : le q r = true := by
            rcases hts with hlt | ⟨-, h⟩
            · omega
            · exact h
          rw [Char.toNat_inj.mp hcode, ih hrq hqr]

end Text

/-! ## The order of paths -/

namespace Path

theorem leParts_cons_iff {a b : Text} {r q : List Text} :
    leParts (a :: r) (b :: q) = true
      ↔ a = b ∧ leParts r q = true ∨ a ≠ b ∧ Text.le a b = true := by
  rw [leParts]
  by_cases hab : a = b
  · simp [hab]
  · simp [hab]

theorem leParts_total (xs ys : List Text) : leParts xs ys = true ∨ leParts ys xs = true := by
  induction xs generalizing ys with
  | nil => exact .inl rfl
  | cons a r ih =>
      cases ys with
      | nil => exact .inr rfl
      | cons b q =>
          rw [leParts_cons_iff, leParts_cons_iff]
          by_cases hab : a = b
          · exact (ih q).imp (fun h => .inl ⟨hab, h⟩) (fun h => .inl ⟨hab.symm, h⟩)
          · exact (Text.le_total a b).imp (fun h => .inr ⟨hab, h⟩) fun h => .inr ⟨Ne.symm hab, h⟩

theorem leParts_trans {xs ys zs : List Text} (hxy : leParts xs ys = true)
    (hyz : leParts ys zs = true) : leParts xs zs = true := by
  induction xs generalizing ys zs with
  | nil => rfl
  | cons a r ih =>
      cases ys with
      | nil => exact absurd hxy (by simp [leParts])
      | cons b q =>
          cases zs with
          | nil => exact absurd hyz (by simp [leParts])
          | cons c v =>
              rw [leParts_cons_iff] at *
              rcases hxy with ⟨rfl, hrq⟩ | ⟨hab, hle⟩
              · rcases hyz with ⟨hac, hqv⟩ | hac
                · exact .inl ⟨hac, ih hrq hqv⟩
                · exact .inr hac
              · rcases hyz with ⟨rfl, -⟩ | ⟨hbc, hle'⟩
                · exact .inr ⟨hab, hle⟩
                · refine .inr ⟨?_, Text.le_trans hle hle'⟩
                  rintro rfl
                  exact hab (Text.le_antisymm hle hle')

theorem leParts_antisymm {xs ys : List Text} (hxy : leParts xs ys = true)
    (hyx : leParts ys xs = true) : xs = ys := by
  induction xs generalizing ys with
  | nil =>
      cases ys with
      | nil => rfl
      | cons b q => exact absurd hyx (by simp [leParts])
  | cons a r ih =>
      cases ys with
      | nil => exact absurd hxy (by simp [leParts])
      | cons b q =>
          rw [leParts_cons_iff] at hxy hyx
          rcases hxy with ⟨rfl, hrq⟩ | ⟨hab, hle⟩
          · rcases hyx with ⟨-, hqr⟩ | ⟨hne, -⟩
            · rw [ih hrq hqr]
            · exact absurd rfl hne
          · rcases hyx with ⟨hba, -⟩ | ⟨-, hle'⟩
            · exact absurd hba.symm hab
            · exact absurd (Text.le_antisymm hle hle') hab

/-- A name that a file can have. -/
def IsName (n : Text) : Prop := n ≠ [] ∧ '/' ∉ n ∧ n ≠ ['.']

instance (n : Text) : Decidable (IsName n) := inferInstanceAs (Decidable (_ ∧ _ ∧ _))

/-- A path made of names that files can have. -/
def IsProper (p : Path) : Prop := ∀ n ∈ p.names, IsName n

/-- The parts of a proper path tell where it starts: an anchor is no name. -/
theorem eq_of_parts_eq {p q : Path} (hp : p.IsProper) (hq : q.IsProper)
    (h : p.parts = q.parts) : p = q := by
  have hanchor : ∀ (a : Anchor) (ns ms : List Text), (∀ n ∈ ns, IsName n) → '/' ∈ a.text →
      ns ≠ a.text :: ms := by
    intro a ns ms hns hslash heq
    have hname := hns a.text (by simp [heq])
    exact hname.2.1 hslash
  obtain ⟨a, ns⟩ := p
  obtain ⟨b, ms⟩ := q
  cases a <;> cases b <;> simp only [parts] at h
  case here.here => rw [h]
  case here.root => exact absurd h (hanchor .root ns ms hp (by decide))
  case here.doubleRoot => exact absurd h (hanchor .doubleRoot ns ms hp (by decide))
  case root.here => exact absurd h.symm (hanchor .root ms ns hq (by decide))
  case root.root => rw [(List.cons.inj h).2]
  case root.doubleRoot => exact absurd (List.cons.inj h).1 (by decide)
  case doubleRoot.here => exact absurd h.symm (hanchor .doubleRoot ms ns hq (by decide))
  case doubleRoot.root => exact absurd (List.cons.inj h).1 (by decide)
  case doubleRoot.doubleRoot => rw [(List.cons.inj h).2]

theorem pairwise_sort (ps : List Path) : (sort ps).Pairwise fun p q => le p q = true := by
  apply List.pairwise_mergeSort
  · intro p q r hpq hqr
    exact leParts_trans hpq hqr
  · intro p q
    rw [Bool.or_eq_true]
    exact leParts_total p.parts q.parts

/-- **One sorted form.** Paths in any order are sorted into the list of them that is in
order. -/
theorem sort_eq_of_perm {ps qs : List Path} (hperm : ps.Perm qs)
    (hproper : ∀ q ∈ qs, q.IsProper) (hsorted : qs.Pairwise fun p q => le p q = true) :
    sort ps = qs := by
  have hall : (sort ps).Perm qs := (List.mergeSort_perm ps le).trans hperm
  refine hall.eq_of_pairwise ?_ (pairwise_sort ps) hsorted
  intro p q hp hq hpq hqp
  exact eq_of_parts_eq (hproper p (hall.mem_iff.mp hp)) (hproper q hq) (leParts_antisymm hpq hqp)

/-- Paths that are in order, each listed once, are strictly increasing. -/
theorem pairwise_strict {ps : List Path} (hproper : ∀ p ∈ ps, p.IsProper) (hnodup : ps.Nodup)
    (hsorted : ps.Pairwise fun p q => le p q = true) :
    ps.Pairwise fun p q => le p q = true ∧ le q p = false := by
  refine (hsorted.and hnodup).imp_of_mem ?_
  rintro p q hp hq ⟨hle, hne⟩
  refine ⟨hle, ?_⟩
  cases hback : le q p with
  | false => rfl
  | true =>
      exact absurd (eq_of_parts_eq (hproper p hp) (hproper q hq) (leParts_antisymm hle hback)) hne

/-! ## Paths in writing -/

theorem splitSlashes_of_notMem {n : Text} (h : '/' ∉ n) : splitSlashes n = [n] := by
  induction n with
  | nil => rfl
  | cons c r ih =>
      have hc : c ≠ '/' := (List.ne_of_not_mem_cons h).symm
      rw [splitSlashes, if_neg hc, ih (List.not_mem_of_not_mem_cons h)]

theorem splitSlashes_append {n : Text} (h : '/' ∉ n) (s : Text) :
    splitSlashes (n ++ '/' :: s) = n :: splitSlashes s := by
  induction n with
  | nil => rw [List.nil_append, splitSlashes, if_pos rfl]
  | cons c r ih =>
      have hc : c ≠ '/' := (List.ne_of_not_mem_cons h).symm
      rw [List.cons_append, splitSlashes, if_neg hc, ih (List.not_mem_of_not_mem_cons h)]

/-- Names with slashes between them fall apart into the names. -/
theorem splitSlashes_joinWith {ns : List Text} (h : ∀ n ∈ ns, '/' ∉ n) (hne : ns ≠ []) :
    splitSlashes (Text.joinWith ['/'] ns) = ns := by
  induction ns with
  | nil => exact absurd rfl hne
  | cons n r ih =>
      obtain ⟨hn, hr⟩ := List.forall_mem_cons.mp h
      cases r with
      | nil => exact splitSlashes_of_notMem hn
      | cons m r =>
          rw [Text.joinWith, List.append_assoc, List.singleton_append, splitSlashes_append hn,
            ih hr (by simp)]
          simp

theorem exists_joinWith_cons (n : Text) (r : List Text) :
    ∃ s, Text.joinWith ['/'] (n :: r) = n ++ s := by
  cases r with
  | nil => exact ⟨[], (List.append_nil n).symm⟩
  | cons m r => exact ⟨['/'] ++ Text.joinWith ['/'] (m :: r), by simp [Text.joinWith]⟩

/-- In front of the names stands nothing but the anchor. -/
theorem takeWhile_slashes {a : Text} {ns : List Text} (ha : ∀ c ∈ a, (c == '/') = true)
    (hns : ∀ n ∈ ns, IsName n) :
    (a ++ Text.joinWith ['/'] ns).takeWhile (· == '/') = a := by
  rw [List.takeWhile_append_of_pos ha]
  cases ns with
  | nil => simp [Text.joinWith]
  | cons n r =>
      obtain ⟨hne, hslash, -⟩ := hns n List.mem_cons_self
      obtain ⟨c, m, rfl⟩ := List.exists_cons_of_ne_nil hne
      obtain ⟨s, hs⟩ := exists_joinWith_cons (c :: m) r
      have hc : (c == '/') = false := by simpa using (List.ne_of_not_mem_cons hslash).symm
      rw [hs, List.cons_append, List.takeWhile_cons, hc]
      exact List.append_nil a

/-- The names that are read behind slashes. -/
theorem names_of_joined {ns : List Text} (hns : ∀ n ∈ ns, IsName n) :
    (splitSlashes (Text.joinWith ['/'] ns)).filter (fun n => !n.isEmpty && n != ['.']) = ns := by
  by_cases hnil : ns = []
  · rw [hnil]
    rfl
  · rw [splitSlashes_joinWith (fun n hn => (hns n hn).2.1) hnil, List.filter_eq_self]
    intro n hn
    obtain ⟨hne, -, hdot⟩ := hns n hn
    simp [hne, hdot]

/-- **A proper path is read as it is written.** -/
theorem ofText_text {p : Path} (h : p.IsProper) : ofText p.text = p := by
  obtain ⟨a, ns⟩ := p
  have hnames := names_of_joined h
  have hslashes : ∀ b : Anchor, ∀ c ∈ b.text, (c == '/') = true := by
    intro b
    cases b <;> simp [Anchor.text]
  cases a with
  | here =>
      by_cases hnil : ns = []
      · rw [hnil]
        rfl
      · have htext : text ⟨.here, ns⟩ = Text.joinWith ['/'] ns := by
          obtain ⟨n, r, rfl⟩ := List.exists_cons_of_ne_nil hnil
          rfl
        have hstart := takeWhile_slashes (hslashes .here) h
        rw [htext, ofText, anchorOf, hnames]
        rw [Anchor.text, List.nil_append] at hstart
        rw [hstart]
        rfl
  | root =>
      have htext : text ⟨.root, ns⟩ = '/' :: Text.joinWith ['/'] ns := rfl
      have hstart := takeWhile_slashes (hslashes .root) h
      rw [htext, ofText, anchorOf, splitSlashes, if_pos rfl, List.filter_cons_of_neg (by decide),
        hnames]
      rw [Anchor.text, List.singleton_append] at hstart
      rw [hstart]
      rfl
  | doubleRoot =>
      have htext : text ⟨.doubleRoot, ns⟩ = '/' :: '/' :: Text.joinWith ['/'] ns := rfl
      have hstart := takeWhile_slashes (hslashes .doubleRoot) h
      rw [htext, ofText, anchorOf, splitSlashes, if_pos rfl, splitSlashes, if_pos rfl,
        List.filter_cons_of_neg (by decide), List.filter_cons_of_neg (by decide), hnames]
      rw [Anchor.text, List.cons_append, List.singleton_append] at hstart
      rw [hstart]
      rfl

/-! ## The characters of a path -/

theorem mem_of_mem_splitSlashes {s n : Text} (hn : n ∈ splitSlashes s) : ∀ c ∈ n, c ∈ s := by
  induction s generalizing n with
  | nil =>
      rw [splitSlashes, List.mem_singleton] at hn
      simp [hn]
  | cons d r ih =>
      intro c hc
      rw [splitSlashes] at hn
      split at hn
      · rcases List.mem_cons.mp hn with rfl | hn
        · exact absurd hc List.not_mem_nil
        · exact List.mem_cons_of_mem d (ih hn c hc)
      · split at hn
        · next hnil =>
          rw [List.mem_singleton.mp hn] at hc
          rw [List.mem_singleton.mp hc]
          exact List.mem_cons_self
        · next m ms hms =>
          rcases List.mem_cons.mp hn with rfl | hn
          · rcases List.mem_cons.mp hc with rfl | hc
            · exact List.mem_cons_self
            · exact List.mem_cons_of_mem d (ih (by simp [hms]) c hc)
          · exact List.mem_cons_of_mem d (ih (by simp [hms, hn]) c hc)

theorem mem_of_mem_joinWith {ns : List Text} {c : Char} (hc : c ∈ Text.joinWith ['/'] ns) :
    c = '/' ∨ ∃ n ∈ ns, c ∈ n := by
  induction ns with
  | nil => exact absurd hc List.not_mem_nil
  | cons n r ih =>
      cases r with
      | nil => exact .inr ⟨n, List.mem_cons_self, hc⟩
      | cons m r =>
          rw [Text.joinWith, List.mem_append, List.mem_append, List.mem_singleton] at hc
          rcases hc with (hc | hc) | hc
          · exact .inr ⟨n, List.mem_cons_self, hc⟩
          · exact .inl hc
          · rcases ih hc with hc | ⟨k, hk, hc⟩
            · exact .inl hc
            · exact .inr ⟨k, List.mem_cons_of_mem n hk, hc⟩
          · simp

/-- The text of a path that was read holds no character but those that were read, slashes
and dots. -/
theorem mem_of_mem_text_ofText {s : Text} {c : Char} (hc : c ∈ (ofText s).text) :
    c ∈ s ∨ c = '/' ∨ c = '.' := by
  have hjoined : c ∈ Text.joinWith ['/'] (ofText s).names → c ∈ s ∨ c = '/' ∨ c = '.' := by
    intro hc
    rcases mem_of_mem_joinWith hc with hc | ⟨n, hn, hc⟩
    · exact .inr (.inl hc)
    · exact .inl (mem_of_mem_splitSlashes (List.mem_filter.mp hn).1 c hc)
  have hanchor : ∀ a : Anchor, ∀ c ∈ a.text, c = '/' := by
    intro a
    cases a <;> simp [Anchor.text]
  rw [text] at hc
  split at hc
  · exact .inr (.inr (List.mem_singleton.mp hc))
  · rcases List.mem_append.mp hc with hc | hc
    · exact .inr (.inl (hanchor _ c hc))
    · exact hjoined hc

end Path

end Unflag
