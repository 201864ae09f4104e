/-
The items of a tree, cut anew.

Where an item ends is decided by what stands in front of a token in its member list, and not
by the item alone. A body that has moved upwards has other neighbours than before, so the
items of a resolved tree need not be those that the assembly makes of the same tokens.
`SourceTree.regrouped` is the tree with the items that it does make: it takes the tokens of a
tree in their order through the rules of `Members`, which are those of the assembly, and
leaves the blocks where they are. Placeholders have no token and divide nothing.

No block is opened or closed on the way, and no condition is read, so this is a recursion
over the tree and needs no stack. That an assembly goes the same way is `lands_of_spells`.
-/
import Unflag.Tree.Assembly

set_option autoImplicit false

namespace Unflag

open Assembly

mutual

/-- A member list that has taken in a node. -/
def Node.regroup (m : Members) : Node → Members
  | .item _ parts => regroupParts m parts
  | .block clauses ending => m.flush.addNode (.block (regroupClauses clauses) ending)
  | .placeholder _ => m

/-- A member list that has taken in a part of an item. -/
def Part.regroup (m : Members) : Part → Members
  | .token t => (m.breakBefore t).addToken t
  | .group opening members closing =>
    (m.breakBefore opening).addPart (.group opening (regroupNodes .empty members).finish closing)

/-- A clause with the items of its body cut anew. -/
def Clause.regroup : Clause → Clause
  | .mk h body => .mk h (regroupNodes .empty body).finish

/-- A member list that has taken in other nodes. -/
def regroupNodes (m : Members) : List Node → Members
  | [] => m
  | n :: r => regroupNodes (n.regroup m) r

/-- A member list that has taken in the parts of an item. -/
def regroupParts (m : Members) : List Part → Members
  | [] => m
  | p :: r => regroupParts (p.regroup m) r

/-- The clauses of a block with the items of their bodies cut anew. -/
def regroupClauses : List Clause → List Clause
  | [] => []
  | c :: r => c.regroup :: regroupClauses r

end

/-- A tree with its items cut anew. -/
def SourceTree.regrouped (t : SourceTree) : SourceTree :=
  { t with members := (regroupNodes .empty t.members).finish }

theorem regroupClauses_eq (cs : List Clause) : regroupClauses cs = cs.map Clause.regroup := by
  induction cs with
  | nil => rfl
  | cons c r ih => rw [regroupClauses, ih, List.map_cons]

@[simp] theorem Clause.body_regroup (c : Clause) :
    c.regroup.body = (regroupNodes .empty c.body).finish := by
  cases c
  rw [Clause.regroup]
  rfl

end Unflag
