/-
# What a call in a routine refers to

The variables visible in a routine are its parameters, its local variables, the
implicit records of the object and the object's variables, in that order; the
first one of a name counts. A call resolves to a user procedure, to a built-in
method of the record type, of the isolated storage or without receiver, or to
a method that is not known further.

Key definitions: `Source.Variable`, `Source.Scope`, `Scope.lookup?`,
`Source.Call`, `Text.calls`, `Source.Receiver`, `Source.Target`,
`Scope.target`.
-/
import TreeLint.Semantic.Tree
import TreeLint.Source.Methods
import TreeLint.Source.Text

namespace TreeLint
namespace Source

/-- A declared variable or parameter, or an implicit record. -/
structure Variable where
  name : String
  symbol : SymbolId
  kind : SymbolKind
  type : TypeInfo
  implicit : Bool
deriving DecidableEq, Repr

/-- The kind of a node that refers to the variable. -/
def Variable.referenceKind (v : Variable) : NodeKind :=
  match v.kind with
  | .parameter => .parameterReference
  | .localVariable => .localReference
  | _ => .globalReference

/-- The names visible inside one routine. -/
structure Scope where
  routine : SymbolId
  locals : List Variable
  globals : List Variable
  procedures : List String
deriving Repr

/-- A call found in a body. -/
structure Call where
  /-- From the receiver, or else the method name, through the closing parenthesis. -/
  extent : Extent
  receiver : Option Extent
  method : String
  arguments : List Extent
deriving Repr

/-- What stands before the dot of a call. -/
inductive Receiver where
  | absent
  | declared (v : Variable) (place : Extent)
  | implicit (v : Variable)
  | static (kind : TypeKind) (place : Extent)
  | unknown (place : Extent)
deriving Repr

/-- What a call resolves to: the kind of method, the parameters it is known to have, and the
receiver. -/
structure Target where
  kind : MethodKind
  parameters : List String
  receiver : Receiver
deriving Repr

/-- A method supplied by the platform. -/
def Target.builtIn (parameters : List String) (r : Receiver) : Target :=
  ⟨.builtInMethod, parameters, r⟩

/-- A method whose parameters are not known. -/
def Target.user (r : Receiver) : Target := ⟨.method, [], r⟩

namespace Text

/-- The call of a call head in a body, unless it is a keyword or not closed in the body. -/
def callOf? (t : Text) (body : Cursor) (f : Found CallHead) : Option Call :=
  let (receiver, method) := match f.value.member with
    | some m => (some f.value.first, t.name m)
    | none => (none, t.name f.value.first)
  if receiver.isNone && callKeywords.contains (Name.lower method) then none
  else
    let opening := f.extent.stop - 1
    (closingParen? (body.moveTo opening)).map fun close =>
      { extent := ⟨f.extent.start, close + 1⟩
        receiver
        method
        arguments := t.arguments ⟨opening + 1, close⟩ }

/-- The calls in a body, in the order in which they start. -/
def calls (t : Text) (body : Extent) : List Call :=
  let start := Cursor.ofSlice t.bare body
  (callHead.all start).filterMap (t.callOf? start)

end Text

namespace Scope

/-- The variables in the order in which names are looked up. -/
def visible (s : Scope) : List Variable := s.locals ++ s.globals

/-- The variable of a name. -/
def lookup? (s : Scope) (name : String) : Option Variable :=
  s.visible.find? fun v => Name.same v.name name

/-- The implicit record of the object. -/
def implicitRecord? (s : Scope) : Option Variable :=
  s.globals.find? fun v => v.implicit && v.name == "Rec"

/-- What a call without receiver resolves to: a procedure of the object, a global method, or a
method of the implicit record. -/
def plainTarget (s : Scope) (method : String) : Target :=
  if s.procedures.any fun p => Name.same p method then .user .absent
  else match globalMethods.lookup (Name.lower method) with
    | some ps => .builtIn ps .absent
    | none =>
      match s.implicitRecord?, recordMethods.lookup (Name.lower method) with
      | some v, some ps => .builtIn ps (.implicit v)
      | _, _ => .user .absent

/-- What a method called on a variable resolves to. -/
def variableTarget (v : Variable) (place : Extent) (method : String) : Target :=
  match v.type.kind with
  | .record =>
    match recordMethods.lookup (Name.lower method) with
    | some ps => .builtIn ps (.declared v place)
    | none => .user (.declared v place)
  | .codeunit => .user (.declared v place)
  | _ => .builtIn [] (.declared v place)

/-- What a method called on a name that is no variable resolves to. -/
def staticTarget (name : String) (place : Extent) (method : String) : Target :=
  match staticReceiver? name with
  | some .isolatedStorage =>
    .builtIn ((storageMethods.lookup (Name.lower method)).getD []) (.static .isolatedStorage place)
  | some kind => .builtIn [] (.static kind place)
  | none => .user (.unknown place)

/-- What a call resolves to. -/
def target (s : Scope) (t : Text) (call : Call) : Target :=
  match call.receiver with
  | none => s.plainTarget call.method
  | some r =>
    match s.lookup? (t.name r) with
    | some v => variableTarget v r call.method
    | none => staticTarget (t.name r) r call.method

end Scope
end Source
end TreeLint
