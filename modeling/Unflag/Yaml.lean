/-
Reading a YAML document as a value.

The values of scalars are made by their types. A mapping keeps the last value of every key; it
may take over the entries of other mappings under a key of its own, and then its own entries
win.

A document can hold itself, so reading has two parts. A survey goes through all nodes, each
once and those further out first, and stops at the first one of which there is no value. Then
the value is laid out as a tree, but only down to a given depth: a list or mapping that lies
deeper is left empty.
-/
import Unflag.Yaml.Node

set_option autoImplicit false

namespace Unflag

namespace Yaml

/-- The characters that a document may hold. -/
def isDocumentChar (c : Char) : Bool :=
  Text.inRanges
    [(0x09, 0x0A), (0x0D, 0x0D), (0x20, 0x7E), (0x85, 0x85), (0xA0, 0xD7FF), (0xE000, 0xFFFD),
      (0x10000, 0x10FFFF)] c.toNat

/-- The nodes of a document. -/
abbrev Nodes := Array Node

namespace Nodes

/-- The type of the node at a place. -/
def tag (ns : Nodes) (id : Nat) : Tag := (ns[id]?.map Node.tag).getD .other

/-- The entries of the mapping at a place. -/
def entries (ns : Nodes) (id : Nat) : List (Nat × Nat) :=
  match ns[id]? with
  | some (.mapping _ es) => es
  | _ => []

/-- The nodes with other entries in the mapping at a place. -/
def setEntries (ns : Nodes) (id : Nat) (es : List (Nat × Nat)) : Nodes :=
  ns.setIfInBounds id (.mapping (ns.tag id) es)

/-- The number of entries in all mappings. -/
def entryCount (ns : Nodes) : Nat := ns.foldl (fun n node =>
  match node with
  | .mapping _ es => n + es.length
  | _ => n) 0

/-! ## Scalars -/

/-- The text that a scalar has. A mapping has the one under its value key. -/
def scalarText (ns : Nodes) (fuel : Nat) (id : Nat) : Reading (Text × Bool) :=
  match fuel with
  | 0 => malformed
  | fuel + 1 =>
    match ns[id]? with
    | some (.scalar _ text isBroken) => .ok (text, isBroken)
    | some (.mapping _ es) =>
      match es.find? fun e => ns.tag e.1 == .value with
      | some e => scalarText ns fuel e.2
      | none => malformed
    | _ => malformed

/-- A value made from a text. -/
def made {α : Type} (f : α → Value) (r : Except Fault α) : Reading Value :=
  (r.map f).mapError .fault

/-- The value of a node whose type is one of a scalar. -/
def scalarValue (ns : Nodes) (id : Nat) : Reading Value := do
  let (s, isBroken) ← ns.scalarText (ns.size + 1) id
  match ns.tag id with
  | .str => return if isBroken then .broken s else .string s
  | .null => return .null
  | .bool => made .bool (Scalar.boolOf s)
  | .int => made .int (Scalar.integerOf s)
  | .float => made .float (Scalar.fractionOf s)
  | .binary => return .bytes (← orMalformed (Scalar.bytesOf? s))
  | .timestamp =>
    match ns[id]? with
    | some (.scalar _ _ _) => (Scalar.timestampOf s).mapError .fault
    | _ => .error (.fault .listForText)
  | _ => malformed

/-! ## Mappings that take over others -/

/-- A node that is a text if it is a value key. -/
def settled : Node → Node
  | .scalar .value s isBroken => .scalar .str s isBroken
  | .sequence .value items => .sequence .str items
  | .mapping .value es => .mapping .str es
  | n => n

/-- The nodes with the value keys of a mapping as texts. -/
def settleKeys (ns : Nodes) (id : Nat) : Nodes :=
  (ns.entries id).foldl (fun ns e => ns.modify e.1 settled) ns

/-- The nodes after the mapping at a place has taken over all that it asks for, in front of its
own entries; `taken` is what it has taken over so far. Of a list of mappings the first wins. A
request is dropped before it is followed, so a mapping can ask for itself. -/
def takeOver (ns : Nodes) (fuel : Nat) (id : Nat) (taken : List (Nat × Nat)) : Reading Nodes :=
  match fuel with
  | 0 => malformed
  | fuel + 1 =>
    let es := ns.entries id
    let isRequest (e : Nat × Nat) : Bool := ns.tag e.1 == .merge
    match es.find? isRequest with
    | none => .ok ((ns.setEntries id (taken ++ es)).settleKeys id)
    | some (_, v) =>
      let ns := ns.setEntries id (es.eraseP isRequest)
      match ns[v]? with
      | some (.mapping _ _) => do
        let ns ← takeOver ns fuel v []
        takeOver ns fuel id (taken ++ ns.entries v)
      | some (.sequence _ items) => do
        let (ns, lists) ← items.foldlM (fun (ns, lists) i =>
          match ns[i]? with
          | some (.mapping _ _) => do
            let ns ← takeOver ns fuel i []
            return (ns, ns.entries i :: lists)
          | _ => malformed) (ns, [])
        takeOver ns fuel id (taken ++ lists.flatten)
      | _ => malformed

/-! ## Values -/

/-- Puts a value under a key. A key that is there keeps its place and its form. -/
def putKey (k v : Value) : List (Value × Value) → List (Value × Value)
  | [] => [(k, v)]
  | e :: r => if e.1.sameKey k then (e.1, v) :: r else e :: putKey k v r

/-- Entries of which each may replace an earlier one. -/
def distinct (entries : List (Value × Value)) : List (Value × Value) :=
  entries.foldl (fun es e => putKey e.1 e.2 es) []

/-- The value of a node, laid out down to a depth. -/
def value (ns : Nodes) (depth : Nat) (id : Nat) : Value :=
  match depth with
  | 0 =>
    match ns.tag id with
    | .map => .map []
    | .set => .set []
    | t => if t.isCollection then .list [] else scalarOrNull
  | depth + 1 =>
    let pairs := (ns.entries id).map fun e => (value ns depth e.1, value ns depth e.2)
    match ns.tag id, ns[id]? with
    | .map, _ => .map (distinct pairs)
    | .set, _ => .set ((distinct pairs).map Prod.fst)
    | .seq, some (.sequence _ items) => .list (items.map (value ns depth))
    | t, some (.sequence _ items) =>
      if t.isCollection then .list (items.map fun _ => .list []) else scalarOrNull
    | _, _ => scalarOrNull
where
  /-- The value of a scalar. -/
  scalarOrNull : Value := (ns.scalarValue id).toOption.getD .null

end Nodes

/-! ## The survey -/

/-- A survey of a document: the nodes, those that have been met, and those of them that hold
nodes which still have to be met. -/
structure Survey where
  nodes : Nodes
  met : List Nat
  pending : List Nat

namespace Survey

/-- Meets a node. The value of a scalar is made at once; other nodes have to wait. -/
def meet (s : Survey) (id : Nat) : Reading Survey :=
  if s.met.contains id then .ok s
  else
    let s := { s with met := id :: s.met }
    if (s.nodes.tag id).isCollection then .ok { s with pending := s.pending ++ [id] }
    else (s.nodes.scalarValue id).map fun _ => s

/-- Meets the key and the value of an entry. -/
def meetEntry (s : Survey) (e : Nat × Nat) : Reading Survey := do (← s.meet e.1).meet e.2

/-- Meets an entry of a mapping, whose key cannot be a list, a set or a mapping. -/
def meetKeyed (s : Survey) (e : Nat × Nat) : Reading Survey := do
  let s ← s.meet e.1
  if (s.nodes.tag e.1).isCollection then malformed
  s.meet e.2

/-- Meets all that a node holds. -/
def meetInside (s : Survey) (id : Nat) : Reading Survey :=
  match s.nodes.tag id, s.nodes[id]? with
  | .seq, some (.sequence _ items) => items.foldlM meet s
  | .map, some (.mapping _ _) => meetMapping
  | .set, some (.mapping _ _) => meetMapping
  | .omap, some (.sequence _ items) => meetPairs items
  | .pairs, some (.sequence _ items) => meetPairs items
  | _, _ => malformed
where
  /-- Meets the entries of a mapping after it has taken over others. -/
  meetMapping : Reading Survey := do
    let ns ← s.nodes.takeOver (2 * s.nodes.entryCount + 2) id []
    (ns.entries id).foldlM meetKeyed { s with nodes := ns }
  /-- Meets the entries of mappings that have one each. -/
  meetPairs (items : List Nat) : Reading Survey :=
    items.foldlM (fun s i =>
      match s.nodes.entries i with
      | [e] => s.meetEntry e
      | _ => malformed) s

/-- Meets all that is left. -/
def run (fuel : Nat) (s : Survey) : Reading Survey :=
  match fuel, s.pending with
  | _, [] => .ok s
  | 0, _ => malformed
  | fuel + 1, id :: rest => do run fuel (← { s with pending := rest }.meetInside id)

end Survey

/-! ## Documents -/

/-- The depth down to which values are laid out: the items of a list in a mapping are told
apart, but not looked into. -/
def depth : Nat := 2

/-- The value of a document. -/
def Document.value (d : Document) : Reading Value := do
  let s ← (⟨d.nodes, [], []⟩ : Survey).meet d.root
  let s ← s.run (d.nodes.size + 1)
  return s.nodes.value depth d.root

/-- The value of a source. One without a document has the value null; one that is not well
formed, or that holds several documents, is refused. -/
def load (source : Text) : Reading Value := do
  if !source.all isDocumentChar then malformed
  let ts ← orMalformed (tokens (Text.normalizeLineEnds source))
  match ← Document.ofTokens ts with
  | none => return .null
  | some d => d.value

end Yaml

end Unflag
