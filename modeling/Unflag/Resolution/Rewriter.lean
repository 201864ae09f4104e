/-
A rewriter: the flag, and what has been done for it so far.

One rewriter may be used on tree after tree. It remembers whether any of them was edited, and how
many blocks were resolved in all of them.
-/
import Unflag.Resolution.Note

set_option autoImplicit false

namespace Unflag

/-- A flag, and what has been done for it. -/
structure Rewriter where
  flag : Text
  edited : Bool
  resolved : Nat

namespace Rewriter

/-- A rewriter that has not been used. -/
def new (flag : Text) : Rewriter := ⟨flag, false, 0⟩

/-- Resolves the blocks of a tree. -/
def rewrite (r : Rewriter) (t : SourceTree) : Rewriter × SourceTree :=
  ({ r with
      edited := r.edited || t.isEdited r.flag
      resolved := r.resolved + t.resolvedCount r.flag },
    t.resolve r.flag)

/-- Resolves the blocks of one tree after the other. -/
def rewriteAll (r : Rewriter) : List SourceTree → Rewriter × List SourceTree
  | [] => (r, [])
  | t :: ts =>
    let (r, t) := r.rewrite t
    let (r, ts) := rewriteAll r ts
    (r, t :: ts)

/-- **What a rewriter remembers**: the blocks of all trees, and whether there was one. -/
theorem rewriteAll_eq (r : Rewriter) (ts : List SourceTree) :
    r.rewriteAll ts
      = ({ r with
            edited := r.edited || ts.any fun t => t.isEdited r.flag
            resolved := ts.foldl (fun n t => n + t.resolvedCount r.flag) r.resolved },
          ts.map fun t => t.resolve r.flag) := by
  induction ts generalizing r with
  | nil => simp [rewriteAll]
  | cons t ts ih =>
      rw [rewriteAll]
      dsimp only
      rw [ih]
      simp [rewrite, Bool.or_assoc]

end Rewriter

end Unflag
