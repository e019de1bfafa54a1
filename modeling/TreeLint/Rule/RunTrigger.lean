/-
# Changes to records must say whether triggers run

The built-in methods that change records have a parameter that says whether the
triggers of the table run. A call that leaves it out is reported, when something
in the call refers to a record.

Key definitions: `Rule.mutatingMethods`, `Tree.refersToRecord`,
`Rule.runTrigger`.
-/
import TreeLint.Rule.Basic

namespace TreeLint

/-- Whether a node refers to a symbol and is a record: by its own type, or else by the declared
type of the symbol. -/
def Tree.isRecordReference (t : Tree) (n : NodeId) : Bool :=
  match t.node? n with
  | none => false
  | some x =>
    match x.symbol with
    | none => false
    | some s =>
      match x.resolvedType.or ((t.symbol? s).bind (·.declaredType)) with
      | some type => type.isRecord
      | none => false

/-- Whether a node or something below it refers to a record. -/
def Tree.refersToRecord (t : Tree) (n : NodeId) : Bool :=
  (t.descendantsAndSelf n).any t.isRecordReference

namespace Rule

/-- The methods that change records, in lower case. -/
def mutatingMethods : List String := ["insert", "modify", "modifyall", "delete", "deleteall"]

/-- The parameter that says whether triggers run. -/
def runTriggerParameter : String := "RunTrigger"

/-- Reports a call that changes records without binding the trigger parameter. -/
def checkRunTrigger (c : RuleContext) : Outcome :=
  onBuiltInCall c fun call =>
    if mutatingMethods.contains (Name.lower call.method.name) &&
        c.tree.refersToRecord c.nodeId &&
        !call.arguments.any (·.binds runTriggerParameter) then
      c.report Catalog.runTriggerImplicit []
    else .nothing

/-- The rule on changes to records. -/
def runTrigger : Rule where
  ruleId := "ExplicitlySetRunTrigger"
  descriptors := [Catalog.runTriggerImplicit]
  kinds := [.invocationExpression]
  check := checkRunTrigger

end Rule
end TreeLint
