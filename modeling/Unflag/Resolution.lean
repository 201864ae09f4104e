/-
Resolving the blocks of one flag.

A block is resolved if the names in its conditions are exactly the flag. It is replaced by
the body of the clause that is left once the flag is on, and the directive lines go with
it; every other block is kept as it is, but its bodies are resolved in turn.

The clause to keep depends only on the opening lines of the clauses, so `select` works on
opening lines paired with anything at all: with bodies here, with positions or records
elsewhere. Bodies are resolved before one of them is chosen, which makes `resolve`
recursive on the structure of the tree alone.
-/
import Unflag.Tree

set_option autoImplicit false

namespace Unflag

/-! ## Choosing a clause -/

/-- The first clause with a condition that holds, else the last fallback, else nothing.
Conditions behind the chosen one are not looked at. -/
def selectFrom {α : Type} (flag : Text) (fallback : Option (ClauseHead × α)) :
    List (ClauseHead × α) → Except Obstacle (Option (ClauseHead × α))
  | [] => .ok fallback
  | c :: r =>
    match c.1.kind, c.1.condition with
    | .fallback, _ => selectFrom flag (some c) r
    | _, none => selectFrom flag fallback r
    | _, some e =>
      match e.holds flag with
      | .error o => .error o
      | .ok true => .ok (some c)
      | .ok false => selectFrom flag fallback r

/-- The clause that is left of a block once `flag` is on. -/
def select {α : Type} (flag : Text) (cs : List (ClauseHead × α)) :
    Except Obstacle (Option (ClauseHead × α)) :=
  selectFrom flag none cs

/-- Whether the names in the conditions of a block are exactly the flag. -/
def isGuardedBy (flag : Text) (cs : List Clause) : Bool :=
  match Condition.namesAll (conditionsOf cs) with
  | .ok ns => Condition.onlyFlag flag ns
  | .error _ => false

/-! ## Replacing a block -/

/-- Puts a body where its block was. The first token of the body takes over the trivia of
the block, less the line break of the directive line; blocks that were removed at the top
of the body leave no line behind either. -/
def splice (leading : Trivia) : List Node → List Node
  | [] => []
  | .placeholder t :: r => splice (leading ++ t.leading.dropDirectiveLine) r
  | n :: r =>
    match n.firstToken? with
    | some t => n.withFirstToken { t with leading := leading ++ t.leading.dropDirectiveLine } :: r
    | none => n :: r

/-- What a removed block leaves. -/
def vacated (cs : List Clause) : List Node := [.placeholder (.placeholder (leadingOf cs))]

/-- What is left of a block whose bodies have been resolved. -/
def settleBlock (flag : Text) (cs : List Clause) (ending : Token) : List Node :=
  if isGuardedBy flag cs then
    match select flag (cs.map fun c => (c.head, c.body)) with
    | .ok (some (_, body)) =>
      if hasContent body then splice (leadingOf cs) body else vacated cs
    | _ => vacated cs
  else [.block cs ending]

mutual

/-- What is left of a node once `flag` is on. -/
def Node.resolve (flag : Text) : Node → List Node
  | .item kind parts => [.item kind (resolveParts flag parts)]
  | .block clauses ending => settleBlock flag (resolveClauses flag clauses) ending
  | .placeholder t => [.placeholder t]

/-- What is left of a part. -/
def Part.resolve (flag : Text) : Part → Part
  | .token t => .token t
  | .group opening members closing => .group opening (resolveNodes flag members) closing

/-- A clause with its body resolved. -/
def Clause.resolve (flag : Text) : Clause → Clause
  | .mk h body => .mk h (resolveNodes flag body)

/-- What is left of a member list. -/
def resolveNodes (flag : Text) : List Node → List Node
  | [] => []
  | n :: r => n.resolve flag ++ resolveNodes flag r

/-- What is left of the parts of an item. -/
def resolveParts (flag : Text) : List Part → List Part
  | [] => []
  | p :: r => p.resolve flag :: resolveParts flag r

/-- The clauses of a block with their bodies resolved. -/
def resolveClauses (flag : Text) : List Clause → List Clause
  | [] => []
  | c :: r => c.resolve flag :: resolveClauses flag r

end

/-- A tree with the blocks of `flag` resolved. -/
def SourceTree.resolve (flag : Text) (t : SourceTree) : SourceTree :=
  { t with members := resolveNodes flag t.members }

end Unflag
