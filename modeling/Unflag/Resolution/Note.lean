/-
What happened to each block.

One note is made for every block that is resolved and for every block that is left alone
because of an unsupported condition. Notes come in the order of the work: those of a body
before that of the block it was kept from, and none from a body that is dropped. The number
of blocks resolved is the number of such notes, and a tree is edited if there is one.
-/
import Unflag.Log
import Unflag.Resolution

set_option autoImplicit false

namespace Unflag

/-- What happened to the block that starts on `line`. -/
inductive Note where
  /-- Left alone: a condition cannot be evaluated. -/
  | skipped (line : Nat) (obstacle : Obstacle)
  /-- Removed: no clause is left. -/
  | vacated (line : Nat)
  /-- Removed: the body that is left holds nothing. -/
  | hollow (line : Nat) (kind : ClauseKind)
  /-- Replaced by the body of a clause. -/
  | kept (line : Nat) (kind : ClauseKind)
  deriving DecidableEq, Repr

namespace Note

/-- Whether the block was resolved. -/
def isResolved : Note → Bool
  | .skipped _ _ => false
  | _ => true

/-- The wording of a note. -/
def message : Note → String
  | .skipped line o => s!"Skipping block on line {line}: {o.message}"
  | .vacated line => s!"Removing block on line {line}: no clause holds"
  | .hollow line kind => s!"Removing block on line {line}: {kind.word} body is empty"
  | .kept line kind => s!"Keeping {kind.word} body of block on line {line}"

/-- Notes are for verbose runs. -/
def record (n : Note) : Record := .debug n.message

end Note

/-- The notes of a resolved block, given for each clause its body and the notes made in
it. -/
def notesOfBlock (flag : Text) (line : Nat) (cs : List (ClauseHead × List Node × List Note)) :
    List Note :=
  match select flag cs with
  | .ok (some (h, body, notes)) =>
    notes ++
      [if hasContent (resolveNodes flag body) then .kept line h.kind else .hollow line h.kind]
  | _ => [.vacated line]

mutual

/-- The notes made on a node. -/
def Node.notes (flag : Text) : Node → List Note
  | .item _ parts => notesOfParts flag parts
  | .block clauses _ =>
    match Condition.namesAll (conditionsOf clauses) with
    | .error o => .skipped (lineOf clauses) o :: (notesOfBodies flag clauses).flatten
    | .ok ns =>
      if Condition.onlyFlag flag ns then
        notesOfBlock flag (lineOf clauses)
          ((clauses.map Clause.head).zip
            ((clauses.map Clause.body).zip (notesOfBodies flag clauses)))
      else (notesOfBodies flag clauses).flatten
  | .placeholder _ => []

/-- The notes made in a part. -/
def Part.notes (flag : Text) : Part → List Note
  | .token _ => []
  | .group _ members _ => notesOfNodes flag members

/-- The notes made in the body of a clause. -/
def Clause.notes (flag : Text) : Clause → List Note
  | .mk _ body => notesOfNodes flag body

/-- The notes made in a member list. -/
def notesOfNodes (flag : Text) : List Node → List Note
  | [] => []
  | n :: r => n.notes flag ++ notesOfNodes flag r

/-- The notes made in the parts of an item. -/
def notesOfParts (flag : Text) : List Part → List Note
  | [] => []
  | p :: r => p.notes flag ++ notesOfParts flag r

/-- The notes made in each body of a block. -/
def notesOfBodies (flag : Text) : List Clause → List (List Note)
  | [] => []
  | c :: r => c.notes flag :: notesOfBodies flag r

end

/-- The notes made on a tree. -/
def SourceTree.notes (flag : Text) (t : SourceTree) : List Note := notesOfNodes flag t.members

/-- The number of blocks resolved. -/
def SourceTree.resolvedCount (flag : Text) (t : SourceTree) : Nat :=
  (t.notes flag).countP Note.isResolved

/-- Whether a block is resolved at all. -/
def SourceTree.isEdited (flag : Text) (t : SourceTree) : Bool :=
  (t.notes flag).any Note.isResolved

end Unflag
