/-
Whether a file still declares anything.

A file is empty if no item of a meaningful kind is left in it. The search goes through the
tree in the order of the source and looks into items that declare nothing themselves and
into every clause of every block.
-/
import Unflag.Tree

set_option autoImplicit false

namespace Unflag

/-- An item found in a tree. -/
structure FoundItem where
  kind : ItemKind
  parts : List Part

/-- The text of the item. -/
def FoundItem.render (f : FoundItem) : Text := Token.sourceAll (tokensOfParts f.parts)

mutual

/-- The first meaningful item of a node. -/
def Node.meaningful? : Node → Option FoundItem
  | .item kind parts => if kind.isMeaningful then some ⟨kind, parts⟩ else meaningfulInParts? parts
  | .block clauses _ => meaningfulInClauses? clauses
  | .placeholder _ => none

/-- The first meaningful item inside a part. -/
def Part.meaningful? : Part → Option FoundItem
  | .token _ => none
  | .group _ members _ => meaningfulInNodes? members

/-- The first meaningful item of a clause. -/
def Clause.meaningful? : Clause → Option FoundItem
  | .mk _ body => meaningfulInNodes? body

/-- The first meaningful item of a member list. -/
def meaningfulInNodes? : List Node → Option FoundItem
  | [] => none
  | n :: r => match n.meaningful? with | some i => some i | none => meaningfulInNodes? r

/-- The first meaningful item inside the parts of an item. -/
def meaningfulInParts? : List Part → Option FoundItem
  | [] => none
  | p :: r => match p.meaningful? with | some i => some i | none => meaningfulInParts? r

/-- The first meaningful item of the clauses of a block. -/
def meaningfulInClauses? : List Clause → Option FoundItem
  | [] => none
  | c :: r => match c.meaningful? with | some i => some i | none => meaningfulInClauses? r

end

/-- Whether only comments, imports and the like are left of a file. -/
def SourceTree.isEmpty (t : SourceTree) : Bool := (meaningfulInNodes? t.members).isNone

end Unflag
