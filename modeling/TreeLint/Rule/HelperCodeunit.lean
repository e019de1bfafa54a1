/-
# Built-in methods that have a helper

`Confirm` belongs behind the codeunit "Confirm Management", and setting
`GlobalLanguage` behind "Translation Helper". Calls inside the helper itself are
in order, and so is reading the language.

Key definitions: `Rule.helperFor?`, `Rule.helperCodeunit`.
-/
import TreeLint.Rule.Basic

namespace TreeLint
namespace Rule

/-- The descriptor of a call that belongs in a helper, and the name of the helper. -/
def helperFor? (call : Invocation) : Option (String × String) :=
  let method := Name.lower call.method.name
  if method = "confirm" then some (Catalog.confirmDirectly, "Confirm Management")
  else if method = "globallanguage" ∧ ¬ call.arguments.isEmpty then
    some (Catalog.languageDirectly, "Translation Helper")
  else none

/-- Whether the object around a symbol is the codeunit of that name. -/
def insideCodeunit (t : Tree) (s : Option SymbolId) (name : String) : Bool :=
  match (s.bind t.containingObject?).bind t.symbol? with
  | some o => o.kind == .codeunit && Name.same o.name name
  | none => false

/-- Reports a call that belongs in a helper and is made outside it. -/
def checkHelperCodeunit (c : RuleContext) : Outcome :=
  onBuiltInCall c fun call =>
    match helperFor? call with
    | none => .nothing
    | some (id, helper) =>
      if insideCodeunit c.tree c.node.containingSymbol helper then .nothing else c.report id []

/-- The rule on methods that have a helper. -/
def helperCodeunit : Rule where
  ruleId := "BuiltInMethodImplementThroughCodeunit"
  descriptors := [Catalog.confirmDirectly, Catalog.languageDirectly]
  kinds := [.invocationExpression]
  check := checkHelperCodeunit

end Rule
end TreeLint
