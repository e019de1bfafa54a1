/-
# Built-in methods and their parameters

The methods that the platform supplies, by the type they are called on, each
with the names of its parameters in order. Method names are in lower case.

Key definitions: `Source.recordMethods`, `Source.storageMethods`,
`Source.globalMethods`, `Source.callKeywords`, `Source.staticReceiver?`.
-/
import TreeLint.Semantic.Kind

namespace TreeLint
namespace Source

/-- Method names in lower case, with the parameters of each. -/
abbrev MethodTable := List (String × List String)

/-- Words that look like a call when a parenthesis follows. -/
def callKeywords : List String := [
  "if", "then", "else", "while", "do", "until", "repeat", "for", "to", "downto", "foreach", "in",
  "case", "of", "with", "exit", "not", "and", "or", "xor", "div", "mod", "begin", "end", "var",
  "array"]

/-- The methods of record variables. -/
def recordMethods : MethodTable := [
  ("insert", ["RunTrigger", "InsertWithSystemId"]),
  ("modify", ["RunTrigger"]),
  ("modifyall", ["Field", "NewValue", "RunTrigger"]),
  ("delete", ["RunTrigger"]),
  ("deleteall", ["RunTrigger"]),
  ("get", ["Value"]),
  ("find", ["Which"]),
  ("findfirst", []),
  ("findlast", []),
  ("findset", ["ForUpdate", "UpdateKey"]),
  ("next", ["Steps"]),
  ("isempty", []),
  ("count", []),
  ("init", []),
  ("reset", []),
  ("setrange", ["Field", "FromValue", "ToValue"]),
  ("setfilter", ["Field", "String", "Value"]),
  ("validate", ["Field", "NewValue"]),
  ("testfield", ["Field", "Value"]),
  ("calcfields", ["Field"]),
  ("setloadfields", ["Field"]),
  ("setcurrentkey", ["Field"]),
  ("setautocalcfields", ["Field"]),
  ("copy", ["FromRecord", "ShareTable"]),
  ("transferfields", ["FromRecord", "InitPrimaryKeyFields"]),
  ("rename", ["Value"]),
  ("locktable", ["Wait", "VersionCheck"])]

/-- The methods of the isolated storage. -/
def storageMethods : MethodTable := [
  ("set", ["Key", "Value", "DataScope"]),
  ("setencrypted", ["Key", "Value", "DataScope"]),
  ("get", ["Key", "DataScope", "Value"]),
  ("delete", ["Key", "DataScope"]),
  ("contains", ["Key", "DataScope"])]

/-- The methods that are called without a receiver. -/
def globalMethods : MethodTable := [
  ("confirm", ["String", "Default", "Value"]),
  ("message", ["String", "Value"]),
  ("error", ["String", "Value"]),
  ("strsubstno", ["String", "Value"]),
  ("strmenu", ["OptionMembers", "DefaultNumber", "Instruction"]),
  ("globallanguage", ["Language"]),
  ("commit", []),
  ("clear", ["Value"]),
  ("clearall", []),
  ("format", ["Value"]),
  ("evaluate", ["Value"]),
  ("guiallowed", []),
  ("userid", []),
  ("companyname", []),
  ("today", []),
  ("workdate", ["Value"]),
  ("sleep", ["Value"]),
  ("copystr", ["Value"]),
  ("strlen", ["Value"]),
  ("lowercase", ["Value"]),
  ("uppercase", ["Value"]),
  ("createguid", []),
  ("isnullguid", ["Value"])]

/-- The data types whose methods are called on the name of the type. -/
def staticTypes : List TypeKind := [
  .isolatedStorage, .database, .session, .system, .codeunit, .page, .report, .query, .xmlPort]

/-- The data type that a receiver names, if methods are called on its name. -/
def staticReceiver? (name : String) : Option TypeKind :=
  let kind := TypeKind.ofKeyword name
  if staticTypes.contains kind then some kind else none

end Source
end TreeLint
