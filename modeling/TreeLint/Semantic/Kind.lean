/-
# The closed tag sets of a resolved document

Kinds of nodes, types, symbols and methods, and the lifecycle stage of a
symbol. Every tag has a name, under which documents hold it; the list `all` of
a set reads the names back.

Key definitions: `NodeKind`, `TypeKind`, `SymbolKind`, `ObsoleteState`,
`MethodKind`, `TypeKind.ofKeyword`, `SymbolKind.ofObjectKeyword?`.
-/
import TreeLint.Text.Name

namespace TreeLint

/-- The kind of a node; rules subscribe to kinds. -/
inductive NodeKind where
  | compilationUnit
  | objectDeclaration
  | methodDeclaration
  | triggerDeclaration
  | block
  | expressionStatement
  | assignmentStatement
  | invocationExpression
  | argument
  | memberAccess
  | fieldAccess
  | localReference
  | globalReference
  | parameterReference
  | typeReference
  | identifier
  | literal
  | expression
deriving DecidableEq, Repr

namespace NodeKind

/-- Every node kind. -/
def all : List NodeKind := [
    .compilationUnit, .objectDeclaration, .methodDeclaration, .triggerDeclaration, .block,
    .expressionStatement, .assignmentStatement, .invocationExpression, .argument, .memberAccess,
    .fieldAccess, .localReference, .globalReference, .parameterReference, .typeReference,
    .identifier, .literal, .expression]

/-- The name of a kind in a document. -/
def name : NodeKind → String
  | .compilationUnit => "CompilationUnit"
  | .objectDeclaration => "ObjectDeclaration"
  | .methodDeclaration => "MethodDeclaration"
  | .triggerDeclaration => "TriggerDeclaration"
  | .block => "Block"
  | .expressionStatement => "ExpressionStatement"
  | .assignmentStatement => "AssignmentStatement"
  | .invocationExpression => "InvocationExpression"
  | .argument => "Argument"
  | .memberAccess => "MemberAccess"
  | .fieldAccess => "FieldAccess"
  | .localReference => "LocalReference"
  | .globalReference => "GlobalReference"
  | .parameterReference => "ParameterReference"
  | .typeReference => "TypeReference"
  | .identifier => "Identifier"
  | .literal => "Literal"
  | .expression => "Expression"

/-- The name of a kind in running text. -/
def label : NodeKind → String
  | .compilationUnit => "compilation_unit"
  | .objectDeclaration => "object_declaration"
  | .methodDeclaration => "method_declaration"
  | .triggerDeclaration => "trigger_declaration"
  | .block => "block"
  | .expressionStatement => "expression_statement"
  | .assignmentStatement => "assignment_statement"
  | .invocationExpression => "invocation_expression"
  | .argument => "argument"
  | .memberAccess => "member_access"
  | .fieldAccess => "field_access"
  | .localReference => "local_reference"
  | .globalReference => "global_reference"
  | .parameterReference => "parameter_reference"
  | .typeReference => "type_reference"
  | .identifier => "identifier"
  | .literal => "literal"
  | .expression => "expression"

/-- The kind of a name. -/
def ofName? (s : String) : Option NodeKind := all.find? (·.name == s)

end NodeKind

/-- The kind of a resolved type. -/
inductive TypeKind where
  | record
  | recordRef
  | fieldRef
  | codeunit
  | page
  | report
  | query
  | xmlPort
  | enum
  | option
  | text
  | code
  | label
  | char
  | integer
  | bigInteger
  | decimal
  | boolean
  | date
  | time
  | dateTime
  | duration
  | guid
  | jsonObject
  | jsonArray
  | jsonToken
  | httpClient
  | list
  | dictionary
  | variant
  | isolatedStorage
  | database
  | session
  | system
  | unknown
deriving DecidableEq, Repr

namespace TypeKind

/-- Every type kind. -/
def all : List TypeKind := [
    .record, .recordRef, .fieldRef, .codeunit, .page, .report, .query, .xmlPort, .enum, .option,
    .text, .code, .label, .char, .integer, .bigInteger, .decimal, .boolean, .date, .time,
    .dateTime, .duration, .guid, .jsonObject, .jsonArray, .jsonToken, .httpClient, .list,
    .dictionary, .variant, .isolatedStorage, .database, .session, .system, .unknown]

/-- The name of a kind in a document. -/
def name : TypeKind → String
  | .record => "Record"
  | .recordRef => "RecordRef"
  | .fieldRef => "FieldRef"
  | .codeunit => "Codeunit"
  | .page => "Page"
  | .report => "Report"
  | .query => "Query"
  | .xmlPort => "XmlPort"
  | .enum => "Enum"
  | .option => "Option"
  | .text => "Text"
  | .code => "Code"
  | .label => "Label"
  | .char => "Char"
  | .integer => "Integer"
  | .bigInteger => "BigInteger"
  | .decimal => "Decimal"
  | .boolean => "Boolean"
  | .date => "Date"
  | .time => "Time"
  | .dateTime => "DateTime"
  | .duration => "Duration"
  | .guid => "Guid"
  | .jsonObject => "JsonObject"
  | .jsonArray => "JsonArray"
  | .jsonToken => "JsonToken"
  | .httpClient => "HttpClient"
  | .list => "List"
  | .dictionary => "Dictionary"
  | .variant => "Variant"
  | .isolatedStorage => "IsolatedStorage"
  | .database => "Database"
  | .session => "Session"
  | .system => "System"
  | .unknown => "Unknown"

/-- The kind of a name. -/
def ofName? (s : String) : Option TypeKind := all.find? (·.name == s)

/-- Type keywords that do not spell the name of their kind. -/
def synonyms : List (String × TypeKind) :=
  [("bigtext", .text), ("secrettext", .text), ("byte", .integer)]

/-- The kind that a type keyword names, in any ASCII case. -/
def ofKeyword (word : String) : TypeKind :=
  let w := Name.lower word
  match all.find? (fun k => Name.lower k.name == w) with
  | some k => k
  | none => (synonyms.lookup w).getD .unknown

end TypeKind

/-- The kind of a symbol. -/
inductive SymbolKind where
  | table
  | tableExtension
  | page
  | pageExtension
  | codeunit
  | report
  | query
  | xmlPort
  | enum
  | enumExtension
  | interface
  | permissionSet
  | method
  | trigger
  | field
  | parameter
  | localVariable
  | globalVariable
  | returnValue
deriving DecidableEq, Repr

namespace SymbolKind

/-- The kinds of application objects. -/
def objects : List SymbolKind := [
    .table, .tableExtension, .page, .pageExtension, .codeunit, .report, .query, .xmlPort, .enum,
    .enumExtension, .interface, .permissionSet]

/-- Every symbol kind. -/
def all : List SymbolKind := objects ++ [
    .method, .trigger, .field, .parameter, .localVariable, .globalVariable, .returnValue]

/-- The name of a kind in a document. -/
def name : SymbolKind → String
  | .table => "Table"
  | .tableExtension => "TableExtension"
  | .page => "Page"
  | .pageExtension => "PageExtension"
  | .codeunit => "Codeunit"
  | .report => "Report"
  | .query => "Query"
  | .xmlPort => "XmlPort"
  | .enum => "Enum"
  | .enumExtension => "EnumExtension"
  | .interface => "Interface"
  | .permissionSet => "PermissionSet"
  | .method => "Method"
  | .trigger => "Trigger"
  | .field => "Field"
  | .parameter => "Parameter"
  | .localVariable => "LocalVariable"
  | .globalVariable => "GlobalVariable"
  | .returnValue => "ReturnValue"

/-- The kind of a name. -/
def ofName? (s : String) : Option SymbolKind := all.find? (·.name == s)

/-- Whether symbols of this kind are application objects. -/
def isObject (k : SymbolKind) : Bool := objects.contains k

/-- The object kind that an object keyword names, in any ASCII case. -/
def ofObjectKeyword? (word : String) : Option SymbolKind :=
  objects.find? fun k => Name.lower k.name == Name.lower word

end SymbolKind

/-- The lifecycle stage of a symbol. -/
inductive ObsoleteState where
  | current
  | pending
  | removed
deriving DecidableEq, Repr

namespace ObsoleteState

/-- Every stage. -/
def all : List ObsoleteState := [.current, .pending, .removed]

/-- The name of a stage in a document. -/
def name : ObsoleteState → String
  | .current => "None"
  | .pending => "Pending"
  | .removed => "Removed"

/-- The stage of a name. -/
def ofName? (s : String) : Option ObsoleteState := all.find? (·.name == s)

/-- Whether the symbol is on its way out. -/
def isObsolete : ObsoleteState → Bool
  | .current => false
  | _ => true

/-- The stage that a property value in source text names, in any ASCII case. -/
def ofProperty? (s : String) : Option ObsoleteState :=
  [("no", .current), ("none", .current), ("pending", .pending), ("removed", .removed)].lookup
    (Name.lower s)

end ObsoleteState

/-- How the target of a call is implemented. -/
inductive MethodKind where
  | builtInMethod
  | method
  | trigger
deriving DecidableEq, Repr

namespace MethodKind

/-- Every method kind. -/
def all : List MethodKind := [.builtInMethod, .method, .trigger]

/-- The name of a kind in a document. -/
def name : MethodKind → String
  | .builtInMethod => "BuiltInMethod"
  | .method => "Method"
  | .trigger => "Trigger"

/-- The kind of a name. -/
def ofName? (s : String) : Option MethodKind := all.find? (·.name == s)

end MethodKind
end TreeLint
