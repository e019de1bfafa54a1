/-
# The value of a YAML text

The value is a scalar, a sequence, a mapping, or an alias of a node with an
anchor. An anchor gets the number of the names that are in use when its node
starts, so that a name that is used again may share its number with the next new
name; an alias stands for the last node of the text that has the number of its
name. A text holds at most one document.

Key definitions: `Yaml.Node`, `Yaml.Document`, `Yaml.Document.target?`,
`Yaml.Parser`, `Yaml.parse?`.
-/
import TreeLint.Yaml.Token

namespace TreeLint
namespace Yaml

/-- A YAML value; the number of its anchor stands with it. -/
inductive Node where
  | scalar (text : String) (plain : Bool) (tag : Option Octets) (anchor : Option Nat)
  | sequence (items : List Node) (anchor : Option Nat)
  | mapping (entries : List (Node × Node)) (anchor : Option Nat)
  | alias (anchor : Nat)
deriving Repr

namespace Node

instance : Inhabited Node := ⟨.alias 0⟩

/-- A value that is left out. -/
def absent : Node := .scalar "" true none none

/-- The number of a node's anchor. -/
def anchor? : Node → Option Nat
  | .scalar _ _ _ a => a
  | .sequence _ a => a
  | .mapping _ a => a
  | .alias _ => none

mutual

/-- A node and the nodes in it, in the order in which they start. -/
def preorder : Node → List Node
  | .scalar text plain tag a => [.scalar text plain tag a]
  | .sequence items a => .sequence items a :: preorderItems items
  | .mapping entries a => .mapping entries a :: preorderEntries entries
  | .alias a => [.alias a]

/-- The nodes in the items of a sequence. -/
def preorderItems : List Node → List Node
  | [] => []
  | n :: ns => n.preorder ++ preorderItems ns

/-- The nodes in the entries of a mapping. -/
def preorderEntries : List (Node × Node) → List Node
  | [] => []
  | (k, v) :: es => k.preorder ++ (v.preorder ++ preorderEntries es)

end

/-- How many places a node takes in the flat form of a document: one, and one more for the end of a
sequence or mapping. -/
def ownSize : Node → Nat
  | .sequence _ _ => 2
  | .mapping _ _ => 2
  | _ => 1

end Node

/-- The value of a text, the nodes with anchors by their numbers, the last first, and the size of
the flat form. -/
structure Document where
  root : Node
  anchored : List (Nat × Node)
  size : Nat
deriving Repr

namespace Document

/-- The document with a root. -/
def ofRoot (root : Node) : Document :=
  let nodes := root.preorder
  { root
    anchored := (nodes.filterMap fun n => n.anchor?.map fun a => (a, n)).reverse
    size := nodes.foldl (fun size n => size + n.ownSize) 0 }

/-- The node that an alias stands for. -/
def target? (d : Document) (anchor : Nat) : Option Node := d.anchored.lookup anchor

end Document

/-- The tokens that are left, the handles of tags, and the numbers of the names of anchors. -/
structure Parser where
  tokens : List Token
  handles : Handles := defaultHandles
  names : List (String × Nat) := []

namespace Parser

/-- The parser after a token. -/
def next (p : Parser) : Parser := { p with tokens := p.tokens.tail }

/-- The token that comes next. -/
def peek (p : Parser) : Option Token := p.tokens.head?

/-- Whether one of some tokens comes next. -/
def sees (p : Parser) (ts : List Token) : Bool := p.peek.any ts.contains

/-- An anchor and a tag, in either order. -/
def properties (p : Parser) : Option String × Option TagRef × Parser :=
  match p.tokens with
  | .anchor a :: .tag t :: ts => (some a, some t, { p with tokens := ts })
  | .tag t :: .anchor a :: ts => (some a, some t, { p with tokens := ts })
  | .anchor a :: ts => (some a, none, { p with tokens := ts })
  | .tag t :: ts => (none, some t, { p with tokens := ts })
  | _ => (none, none, p)

/-- Gives the name of an anchor its number. -/
def declare (p : Parser) : Option String → Option Nat × Parser
  | none => (none, p)
  | some name =>
    let n := p.names.length
    (some n, { p with names := (name, n) :: p.names.filter (·.1 != name) })

end Parser

/-- Tokens that end an entry of a block sequence, or of one that is not indented. -/
def entryEnds (indentless : Bool) : List Token :=
  [.entry, .blockEnd] ++ (if indentless then [.key, .value] else [])

/-- Tokens that end a key or value of a block mapping. -/
def pairEnds : List Token := [.key, .value, .blockEnd]

mutual

/-- Reads a node. In a block it may be a block itself, and after a key also a sequence that is
not indented. -/
def parseNode? : Nat → Bool → Bool → Parser → Option (Node × Parser)
  | 0, _, _, _ => none
  | fuel + 1, block, indentless, p =>
    match p.peek with
    | some (.alias name) => (p.names.lookup name).map fun n => (.alias n, p.next)
    | _ =>
      let (name, ref, p) := p.properties
      let (anchor, p) := p.declare name
      match ref with
      | none => parseContent? fuel block indentless name.isSome none anchor p
      | some ref =>
        match ref.resolve? p.handles with
        | some tag => parseContent? fuel block indentless true (some tag) anchor p
        | none => none

/-- Reads what follows the properties of a node; a node with properties may be left out. On a
scalar that is there, the tag that leaves the choice open is no tag. -/
def parseContent? : Nat → Bool → Bool → Bool → Option Octets → Option Nat → Parser →
    Option (Node × Parser)
  | 0, _, _, _, _, _, _ => none
  | fuel + 1, block, indentless, hasProperties, tag, anchor, p =>
    let leftOut := if hasProperties then some (Node.scalar "" true tag anchor, p) else none
    match p.peek with
    | some .entry => if indentless then parseEntries? fuel true anchor [] p else leftOut
    | some (.scalar text plain) =>
      some (.scalar text plain (if tag = some openTag then none else tag) anchor, p.next)
    | some .openBracket => parseItems? fuel anchor true [] p.next
    | some .openBrace => parseFields? fuel anchor true [] p.next
    | some .blockSequence =>
      if block then parseEntries? fuel false anchor [] p.next else leftOut
    | some .blockMapping => if block then parsePairs? fuel anchor [] p.next else leftOut
    | _ => leftOut

/-- Reads a node, unless one of some tokens says that it is left out. -/
def parseUnless? : Nat → List Token → Bool → Bool → Parser → Option (Node × Parser)
  | 0, _, _, _, _ => none
  | fuel + 1, ends, block, indentless, p =>
    if p.sees ends then some (.absent, p) else parseNode? fuel block indentless p

/-- Reads the entries of a block sequence. -/
def parseEntries? : Nat → Bool → Option Nat → List Node → Parser → Option (Node × Parser)
  | 0, _, _, _, _ => none
  | fuel + 1, indentless, anchor, items, p =>
    match p.peek with
    | some .entry =>
      match parseUnless? fuel (entryEnds indentless) true false p.next with
      | some (n, p) => parseEntries? fuel indentless anchor (n :: items) p
      | none => none
    | t =>
      if indentless then some (.sequence items.reverse anchor, p)
      else if t == some .blockEnd then some (.sequence items.reverse anchor, p.next)
      else none

/-- Reads the pairs of a block mapping. -/
def parsePairs? : Nat → Option Nat → List (Node × Node) → Parser → Option (Node × Parser)
  | 0, _, _, _ => none
  | fuel + 1, anchor, entries, p =>
    match p.peek with
    | some .blockEnd => some (.mapping entries.reverse anchor, p.next)
    | some .key =>
      match parseUnless? fuel pairEnds true true p.next with
      | none => none
      | some (k, p) =>
        match parseValue? fuel pairEnds true p with
        | some (v, p) => parsePairs? fuel anchor ((k, v) :: entries) p
        | none => none
    | _ => none

/-- Reads the colon after a key and its value, each of which may be left out. -/
def parseValue? : Nat → List Token → Bool → Parser → Option (Node × Parser)
  | 0, _, _, _ => none
  | fuel + 1, ends, block, p =>
    if p.sees [.value] then parseUnless? fuel ends block block p.next else some (.absent, p)

/-- Reads the items between brackets. A key makes an item a mapping of one pair; if the key itself
is left out, the token in its place is passed over. -/
def parseItems? : Nat → Option Nat → Bool → List Node → Parser → Option (Node × Parser)
  | 0, _, _, _, _ => none
  | fuel + 1, anchor, first, items, p =>
    if !first && !p.sees [.comma, .closeBracket] then none
    else
      let p := if !first && p.sees [.comma] then p.next else p
      if p.sees [.closeBracket] then some (.sequence items.reverse anchor, p.next)
      else if p.sees [.key] then
        let p := p.next
        match (if p.sees [.value, .comma, .closeBracket] then some (.absent, p.next)
          else parseNode? fuel false false p) with
        | none => none
        | some (k, p) =>
          match parseValue? fuel [.comma, .closeBracket] false p with
          | some (v, p) => parseItems? fuel anchor false (.mapping [(k, v)] none :: items) p
          | none => none
      else
        match parseNode? fuel false false p with
        | some (n, p) => parseItems? fuel anchor false (n :: items) p
        | none => none

/-- Reads the fields between braces. -/
def parseFields? : Nat → Option Nat → Bool → List (Node × Node) → Parser → Option (Node × Parser)
  | 0, _, _, _, _ => none
  | fuel + 1, anchor, first, fields, p =>
    if !first && !p.sees [.comma, .closeBrace] then none
    else
      let p := if !first && p.sees [.comma] then p.next else p
      if p.sees [.closeBrace] then some (.mapping fields.reverse anchor, p.next)
      else if p.sees [.key] then
        match parseUnless? fuel [.value, .comma, .closeBrace] false false p.next with
        | none => none
        | some (k, p) =>
          match parseValue? fuel [.comma, .closeBrace] false p with
          | some (v, p) => parseFields? fuel anchor false ((k, v) :: fields) p
          | none => none
      else
        match parseNode? fuel false false p with
        | some (k, p) => parseFields? fuel anchor false ((k, .absent) :: fields) p
        | none => none

end

/-- The directives that tokens start with, and the tokens after them. -/
def splitDirectives : List Token → List Directive × List Token
  | .directive d :: ts => ((d :: (splitDirectives ts).1), (splitDirectives ts).2)
  | ts => ([], ts)

/-- The root of a document and the tokens after it; after a document marker it may be left out. -/
def parseRoot? (marked : Bool) (handles : Handles) (ts : List Token) :
    Option (Node × List Token) :=
  match ts, marked with
  | [], true => some (.absent, [])
  | .documentEnd :: rest, true => some (.absent, .documentEnd :: rest)
  | ts, _ => (parseNode? (5 * ts.length + 5) true false { tokens := ts, handles }).map
      fun (n, p) => (n, p.tokens)

/-- The value of a YAML text, which is absent if the text has no document. -/
def parse? (s : String) : Option Document := do
  let (directives, ts) := splitDirectives (← tokens? s)
  let handles ← handlesOf? false [] directives
  let (root, rest) ← match ts with
    | [] => if directives.isEmpty then some (Node.absent, []) else none
    | .documentStart :: ts => parseRoot? true handles ts
    | ts => if directives.isEmpty then parseRoot? false handles ts else none
  if rest.all (· == .documentEnd) then return Document.ofRoot root else none

end Yaml
end TreeLint
