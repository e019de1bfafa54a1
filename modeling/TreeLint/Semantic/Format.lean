/-
# Documents as JSON

The exchange format of documents. A field that has its default value is left
out, except references to other symbols and nodes, which are written as `null`.

Key definitions: `Document.toJson`, `Document.ofJson?`, `Tree.load`.
-/
import TreeLint.Json.Decode
import TreeLint.Json.Parser
import TreeLint.Semantic.Tree

namespace TreeLint

open Json

namespace Span

/-- The JSON value of a span. -/
def toJson (s : Span) : Json := .obj [
  ("start_byte", nat s.startByte), ("end_byte", nat s.endByte),
  ("start_line", nat s.startLine), ("start_col", nat s.startCol),
  ("end_line", nat s.endLine), ("end_col", nat s.endCol)]

/-- Reads a span. -/
def ofJson? (v : Json) : Option Span := do
  let fs ← fields? ["start_byte", "end_byte", "start_line", "start_col", "end_line", "end_col"] v
  let startByte ← field? fs "start_byte" count?
  let endByte ← field? fs "end_byte" count?
  let startLine ← field? fs "start_line" count?
  let startCol ← field? fs "start_col" count?
  let endLine ← field? fs "end_line" count?
  let endCol ← field? fs "end_col" count?
  return ⟨startByte, endByte, startLine, startCol, endLine, endCol⟩

end Span

namespace TypeInfo

/-- The JSON value of a type. -/
def toJson (t : TypeInfo) : Json :=
  .obj ([("kind", .str t.kind.name)] ++ optField "name" Json.str t.name ++
    (if t.temporary then [("temporary", .bool true)] else []))

/-- Reads a type. -/
def ofJson? (v : Json) : Option TypeInfo := do
  let fs ← fields? ["kind", "name", "temporary"] v
  let kind ← field? fs "kind" (tag? TypeKind.ofName?)
  let name ← fieldOr fs "name" none (optional? text?)
  let temporary ← fieldOr fs "temporary" false flag?
  return ⟨kind, name, temporary⟩

end TypeInfo

namespace Symbol

/-- The JSON value of a symbol. -/
def toJson (s : Symbol) : Json :=
  .obj ([("kind", .str s.kind.name), ("name", .str s.name),
    ("obsolete_state", .str s.obsolete.name), ("containing", orNull nat s.containing)] ++
    optField "type" TypeInfo.toJson s.declaredType)

/-- Reads a symbol. -/
def ofJson? (v : Json) : Option Symbol := do
  let fs ← fields? ["kind", "name", "obsolete_state", "containing", "type"] v
  let kind ← field? fs "kind" (tag? SymbolKind.ofName?)
  let name ← field? fs "name" text?
  let obsolete ← fieldOr fs "obsolete_state" .current (tag? ObsoleteState.ofName?)
  let containing ← fieldOr fs "containing" none (optional? id?)
  let declaredType ← fieldOr fs "type" none (optional? TypeInfo.ofJson?)
  return ⟨kind, name, obsolete, containing, declaredType⟩

end Symbol

namespace BoundArgument

/-- The JSON value of an argument. -/
def toJson (a : BoundArgument) : Json :=
  .obj [("parameter", orNull Json.str a.parameter), ("value", orNull nat a.value)]

/-- Reads an argument. -/
def ofJson? (v : Json) : Option BoundArgument := do
  let fs ← fields? ["parameter", "value"] v
  let parameter ← fieldOr fs "parameter" none (optional? text?)
  let value ← fieldOr fs "value" none (optional? id?)
  return ⟨parameter, value⟩

end BoundArgument

namespace TargetMethod

/-- The JSON value of a method. -/
def toJson (m : TargetMethod) : Json := .obj [("name", .str m.name), ("kind", .str m.kind.name)]

/-- Reads a method. -/
def ofJson? (v : Json) : Option TargetMethod := do
  let fs ← fields? ["name", "kind"] v
  let name ← field? fs "name" text?
  let kind ← field? fs "kind" (tag? MethodKind.ofName?)
  return ⟨name, kind⟩

end TargetMethod

namespace Invocation

/-- The JSON value of a call's facts. -/
def toJson (i : Invocation) : Json :=
  .obj [("method", i.method.toJson), ("arguments", .arr (i.arguments.map BoundArgument.toJson))]

/-- Reads a call's facts. -/
def ofJson? (v : Json) : Option Invocation := do
  let fs ← fields? ["method", "arguments"] v
  let method ← field? fs "method" TargetMethod.ofJson?
  let arguments ← fieldOr fs "arguments" [] (list? BoundArgument.ofJson?)
  return ⟨method, arguments⟩

end Invocation

namespace Node

/-- The JSON value of a node. -/
def toJson (n : Node) : Json :=
  .obj ([("kind", .str n.kind.name), ("span", n.span.toJson), ("parent", orNull nat n.parent)] ++
    optField "symbol" nat n.symbol ++ optField "type" TypeInfo.toJson n.resolvedType ++
    optField "containing_symbol" nat n.containingSymbol ++
    optField "invocation" Invocation.toJson n.invocation)

/-- Reads a node. -/
def ofJson? (v : Json) : Option Node := do
  let fs ← fields? ["kind", "span", "parent", "symbol", "type", "containing_symbol", "invocation"] v
  let kind ← field? fs "kind" (tag? NodeKind.ofName?)
  let span ← field? fs "span" Span.ofJson?
  let parent ← fieldOr fs "parent" none (optional? id?)
  let symbol ← fieldOr fs "symbol" none (optional? id?)
  let resolvedType ← fieldOr fs "type" none (optional? TypeInfo.ofJson?)
  let containingSymbol ← fieldOr fs "containing_symbol" none (optional? id?)
  let invocation ← fieldOr fs "invocation" none (optional? Invocation.ofJson?)
  return ⟨kind, span, parent, symbol, resolvedType, containingSymbol, invocation⟩

end Node

namespace Document

/-- The JSON value of a document. -/
def toJson (d : Document) : Json :=
  .obj ([("path", .str d.path)] ++ optField "source" Json.str d.source ++
    [("symbols", .arr (d.symbols.map Symbol.toJson)), ("nodes", .arr (d.nodes.map Node.toJson))])

/-- Reads a document. -/
def ofJson? (v : Json) : Option Document := do
  let fs ← fields? ["path", "source", "symbols", "nodes"] v
  let path ← field? fs "path" text?
  let source ← fieldOr fs "source" none (optional? text?)
  let symbols ← fieldOr fs "symbols" [] (list? Symbol.ofJson?)
  let nodes ← fieldOr fs "nodes" [] (list? Node.ofJson?)
  return ⟨path, source, symbols, nodes⟩

end Document

/-- Why an exported text gives no tree. -/
inductive LoadError where
  | json
  | tree (e : TreeError)
deriving DecidableEq, Repr

/-- The tree of an exported text. That a tree is malformed outweighs what may follow it in the
text. -/
def Tree.load (text : String) : Except LoadError Tree :=
  match Json.readFront? text with
  | none => .error .json
  | some (v, alone) =>
    match Document.ofJson? v with
    | none => .error .json
    | some d =>
      match Tree.ofDocument d with
      | .error e => .error (.tree e)
      | .ok t => if alone then .ok t else .error .json

end TreeLint
