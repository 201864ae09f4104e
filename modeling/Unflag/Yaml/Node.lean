/-
The nodes of a YAML document.

A source holds at most one document. An alias stands for the node of its anchor, and an anchor
holds inside of its own node, so a document is a graph: its nodes are kept in one array, and
a node that holds others refers to them by their places there. A node has its place before
what it holds is read.

Nodes are read from tokens by recursive descent. Every call takes a token or ends, which
bounds the depth by the number of tokens; that bound is the fuel.
-/
import Unflag.Yaml.Scalar
import Unflag.Yaml.Token

set_option autoImplicit false

namespace Unflag

namespace Yaml

/-- A node of a document. -/
inductive Node where
  /-- A text, which is broken if it has code points in it that are no characters. -/
  | scalar (tag : Tag) (text : Text) (isBroken : Bool)
  | sequence (tag : Tag) (items : List Nat)
  | mapping (tag : Tag) (entries : List (Nat × Nat))
  deriving DecidableEq, Repr

/-- The type of a node. -/
def Node.tag : Node → Tag
  | .scalar t _ _ => t
  | .sequence t _ => t
  | .mapping t _ => t

/-- A document: its nodes, and the place of the one that holds all others. -/
structure Document where
  nodes : Array Node
  root : Nat

namespace Node

/-- What is left of the tokens, what the handles stand for, the nodes so far, and the places of
those with an anchor. -/
structure Reader where
  tokens : List Token
  handles : List (Text × Text)
  nodes : Array Node
  anchors : List (Text × Nat)

/-- A step of reading: the place of a node, and the reader behind it. -/
abbrev Step := Reading (Nat × Reader)

namespace Reader

/-- The next token. -/
def peek (r : Reader) : Option Token := r.tokens.head?

/-- The reader behind the next token. -/
def next (r : Reader) : Reader := { r with tokens := r.tokens.tail }

/-- The reader behind a token that has to come next. -/
def expect (r : Reader) (t : Token) : Reading Reader :=
  match r.peek with
  | some (.fault f) => .error (.fault f)
  | found => if found = some t then .ok r.next else malformed

/-- Whether one of these tokens comes next. -/
def isAt (r : Reader) (ts : List Token) : Bool := (r.peek.map ts.contains).getD false

/-- Adds a node, perhaps with an anchor. -/
def add (r : Reader) (anchor : Option Text) (n : Node) : Nat × Reader :=
  let id := r.nodes.size
  let anchors := match anchor with | some a => (a, id) :: r.anchors | none => r.anchors
  (id, { r with nodes := r.nodes.push n, anchors })

/-- Adds the node where nothing is written. -/
def addEmpty (r : Reader) : Nat × Reader := r.add none (.scalar .null [] false)

/-- Puts a node in the place that was kept for it. -/
def fill (r : Reader) (id : Nat) (n : Node) : Reader :=
  { r with nodes := r.nodes.setIfInBounds id n }

end Reader

/-- The anchor in front of a node, and what its tag asks for. -/
structure Properties where
  anchor : Option Text
  typing : Typing

/-- Reads at most one anchor and one tag, in either order. -/
def properties (r : Reader) : Reading (Properties × Reader) :=
  let typing (t : Tag.Spelling) : Reading Typing := orMalformed (Typing.ofSpelling? r.handles t)
  match r.peek, r.next.peek with
  | some (.anchor a), some (.tag t) => do return (⟨some a, ← typing t⟩, r.next.next)
  | some (.tag t), some (.anchor a) => do return (⟨some a, ← typing t⟩, r.next.next)
  | some (.anchor a), _ => .ok (⟨some a, .untyped⟩, r.next)
  | some (.tag t), _ => do return (⟨none, ← typing t⟩, r.next)
  | _, _ => .ok (⟨none, .untyped⟩, r)

/-- The type of a scalar. -/
def scalarTag (typing : Typing) (text : Text) (isPlain : Bool) : Tag :=
  match typing with
  | .typed t => t
  | .byForm => Scalar.tagOf text
  | .untyped => if isPlain then Scalar.tagOf text else .str

/-- Where a node stands. -/
inductive Context where
  /-- Inside brackets. -/
  | flow
  /-- In a block. -/
  | block
  /-- In a block mapping, where a sequence need not be indented. -/
  | mappingValue
  deriving DecidableEq, Repr

/-- A node of which there are only the properties, if there are any. -/
def nothing (p : Properties) (r : Reader) : Step :=
  if p.anchor.isNone && p.typing == .untyped then malformed
  else .ok (r.add p.anchor (.scalar (p.typing.orElse .null) [] false))

mutual

/-- Reads a node. No anchor may be used twice. -/
def read (fuel : Nat) (ctx : Context) (r : Reader) : Step :=
  match fuel with
  | 0 => malformed
  | fuel + 1 =>
    match r.peek with
    | some (.alias name) => (orMalformed (r.anchors.lookup name)).map fun id => (id, r.next)
    | _ => do
      let (p, r) ← properties r
      if (p.anchor.bind fun a => r.anchors.lookup a).isSome then malformed
      content fuel ctx p r

/-- Reads a node behind its properties. -/
def content (fuel : Nat) (ctx : Context) (p : Properties) (r : Reader) : Step :=
  match fuel with
  | 0 => malformed
  | fuel + 1 =>
    let sequence (items : List Nat) : Node := .sequence (p.typing.orElse .seq) items
    let mapping (entries : List (Nat × Nat)) : Node := .mapping (p.typing.orElse .map) entries
    match r.peek with
    | some (.fault f) => .error (.fault f)
    | some (.scalar text isPlain isBroken) =>
      .ok (r.next.add p.anchor (.scalar (scalarTag p.typing text isPlain) text isBroken))
    | some .listOpen => do
      let (id, r) := r.next.add p.anchor (sequence [])
      let (items, r) ← listItems fuel true r
      return (id, r.fill id (sequence items))
    | some .mapOpen => do
      let (id, r) := r.next.add p.anchor (mapping [])
      let (entries, r) ← mapEntries fuel true r
      return (id, r.fill id (mapping entries))
    | some .blockEntry =>
      if ctx = .mappingValue then do
        let (id, r) := r.add p.anchor (sequence [])
        let (items, r) ← flushItems fuel r
        return (id, r.fill id (sequence items))
      else nothing p r
    | some .sequenceStart =>
      if ctx = .flow then nothing p r
      else do
        let (id, r) := r.next.add p.anchor (sequence [])
        let (items, r) ← blockItems fuel r
        return (id, (← r.expect .blockEnd).fill id (sequence items))
    | some .mappingStart =>
      if ctx = .flow then nothing p r
      else do
        let (id, r) := r.next.add p.anchor (mapping [])
        let (entries, r) ← blockEntries fuel r
        return (id, (← r.expect .blockEnd).fill id (mapping entries))
    | _ => nothing p r

/-- Reads the items of an indented sequence. -/
def blockItems (fuel : Nat) (r : Reader) : Reading (List Nat × Reader) :=
  match fuel with
  | 0 => malformed
  | fuel + 1 =>
    if r.isAt [.blockEntry] then do
      let r := r.next
      let (n, r) ← if r.isAt [.blockEntry, .blockEnd] then .ok r.addEmpty else read fuel .block r
      let (ns, r) ← blockItems fuel r
      return (n :: ns, r)
    else .ok ([], r)

/-- Reads the items of a sequence that is not indented. -/
def flushItems (fuel : Nat) (r : Reader) : Reading (List Nat × Reader) :=
  match fuel with
  | 0 => malformed
  | fuel + 1 =>
    if r.isAt [.blockEntry] then do
      let r := r.next
      let (n, r) ←
        if r.isAt [.blockEntry, .key, .value, .blockEnd] then .ok r.addEmpty
        else read fuel .block r
      let (ns, r) ← flushItems fuel r
      return (n :: ns, r)
    else .ok ([], r)

/-- Reads the entries of a block mapping. -/
def blockEntries (fuel : Nat) (r : Reader) : Reading (List (Nat × Nat) × Reader) :=
  match fuel with
  | 0 => malformed
  | fuel + 1 =>
    if r.isAt [.key] then do
      let r := r.next
      let (k, r) ←
        if r.isAt [.key, .value, .blockEnd] then .ok r.addEmpty else read fuel .mappingValue r
      let (v, r) ←
        if r.isAt [.value] then
          let r := r.next
          if r.isAt [.key, .value, .blockEnd] then .ok r.addEmpty else read fuel .mappingValue r
        else .ok r.addEmpty
      let (es, r) ← blockEntries fuel r
      return ((k, v) :: es, r)
    else .ok ([], r)

/-- Reads the items of a list in brackets up to its end. A single pair is a mapping. -/
def listItems (fuel : Nat) (isFirst : Bool) (r : Reader) : Reading (List Nat × Reader) :=
  match fuel with
  | 0 => malformed
  | fuel + 1 =>
    if r.isAt [.listClose] then .ok ([], r.next)
    else do
      let r ← if isFirst then .ok r else r.expect .flowEntry
      if r.isAt [.listClose] then return ([], r.next)
      let (n, r) ←
        if r.isAt [.key] then do
          let (e, r) ← pair fuel .listClose r.next
          pure (r.add none (.mapping .map [e]))
        else read fuel .flow r
      let (ns, r) ← listItems fuel false r
      return (n :: ns, r)

/-- Reads the entries of a mapping in braces up to its end. A lone node is a key. -/
def mapEntries (fuel : Nat) (isFirst : Bool) (r : Reader) :
    Reading (List (Nat × Nat) × Reader) :=
  match fuel with
  | 0 => malformed
  | fuel + 1 =>
    if r.isAt [.mapClose] then .ok ([], r.next)
    else do
      let r ← if isFirst then .ok r else r.expect .flowEntry
      if r.isAt [.mapClose] then return ([], r.next)
      let (e, r) ←
        if r.isAt [.key] then pair fuel .mapClose r.next
        else do
          let (k, r) ← read fuel .flow r
          let (v, r) := r.addEmpty
          pure ((k, v), r)
      let (es, r) ← mapEntries fuel false r
      return (e :: es, r)

/-- Reads a pair inside brackets, behind the mark of its key. -/
def pair (fuel : Nat) (close : Token) (r : Reader) : Reading ((Nat × Nat) × Reader) :=
  match fuel with
  | 0 => malformed
  | fuel + 1 => do
    let (k, r) ←
      if r.isAt [.value, .flowEntry, close] then .ok r.addEmpty else read fuel .flow r
    let (v, r) ←
      if r.isAt [.value] then
        let r := r.next
        if r.isAt [.flowEntry, close] then .ok r.addEmpty else read fuel .flow r
      else .ok r.addEmpty
    return ((k, v), r)

end

end Node

namespace Document

/-- Reads the directives in front of a document: none may give the version or the same handle
twice, or give a version that is not understood. -/
def afterDirectives (hasVersion : Bool) (handles : List (Text × Text)) :
    List Token → Reading (List (Text × Text) × List Token)
  | .version major :: ts =>
    if hasVersion || major != 1 then malformed else afterDirectives true handles ts
  | .handle h name :: ts =>
    if (handles.lookup h).isSome then malformed
    else afterDirectives hasVersion ((h, name) :: handles) ts
  | .directive :: ts => afterDirectives hasVersion handles ts
  | ts => .ok (handles ++ Tag.defaultHandles, ts)

/-- Whether a token stands in front of a document. -/
def isOpening : Token → Bool
  | .version _ | .handle _ _ | .directive | .documentStart => true
  | _ => false

/-- The handles and the tokens of a document behind what opens it; none if there is no
document. -/
def opened (ts : List Token) : Reading (Option (List (Text × Text) × List Token)) :=
  match ts with
  | [] => .ok none
  | t :: _ =>
    if isOpening t then do
      match ← afterDirectives false [] ts with
      | (handles, .documentStart :: ts) => return some (handles, ts)
      | (_, .fault f :: _) => .error (.fault f)
      | _ => malformed
    else if t = .documentEnd then malformed
    else .ok (some (Tag.defaultHandles, ts))

/-- The document of a list of tokens: none if there is no document, and a fault if there are
several. -/
def ofTokens (ts : List Token) : Reading (Option Document) := do
  match ← opened ts with
  | none => return none
  | some (handles, ts) =>
    let start : Node.Reader := ⟨ts, handles, #[], []⟩
    let isBare := (ts.head?.map fun t => isOpening t || t == .documentEnd).getD true
    let (root, r) ←
      if isBare then .ok start.addEmpty else Node.read (3 * ts.length + 3) .block start
    match r.tokens.dropWhile (· == .documentEnd) with
    | [] => return some ⟨r.nodes, root⟩
    | .fault f :: _ => .error (.fault f)
    | _ => malformed

end Document

end Yaml

end Unflag
