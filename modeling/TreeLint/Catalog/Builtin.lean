/-
# The descriptors that come with the linter

All of them are about design. Some ids were given out twice; the later
descriptor is then an alias of the first.

Key definitions: `Catalog.builtinDescriptors`, `Catalog.builtin`.
-/
import TreeLint.Catalog.Basic

namespace TreeLint
namespace Catalog

/-- The id under which a failed rule is reported. -/
def errorInRule : String := "LC0000"

/-- The id of calls to `Confirm` outside its helper. -/
def confirmDirectly : String := "LC0021"

/-- The id of calls that set the language outside their helper. -/
def languageDirectly : String := "LC0022"

/-- The id of changes to records that leave open whether triggers run. -/
def runTriggerImplicit : String := "LC0040"

/-- A primary descriptor of the category `Design`. -/
def design (id name : String) (severity : Severity) (enabledByDefault : Bool)
    (title template description : String) : Descriptor :=
  { id, name, category := "Design", severity, enabledByDefault, title, template, description }

/-- The descriptor as an alias of the primary of that name. -/
def aliasOf (target : String) (d : Descriptor) : Descriptor := { d with aliasOf := some target }

/-- The descriptors that come with the linter, each primary before its aliases. -/
def builtinDescriptors : List Descriptor := [
  design "LC0000" "ErrorInRule" .info true
    "An error occurred in a rule"
    "An error occurred in rule \x7b0\x7d: \x7b1\x7d"
    "A rule failed while analyzing this node; analysis of the rest of the document continued.",
  design "LC0001" "FlowFieldsShouldNotBeEditable" .warning true
    "FlowFields should not be editable"
    "FlowFields should not be editable."
    "Set Editable = false on FlowFields; their value is calculated.",
  design "LC0002" "CommitMustBeExplainedByComment" .warning true
    "Commit() needs a comment to justify its existence"
    "Commit() needs a comment to justify its existence. Either a leading or a trailing comment."
    "Every explicit Commit() should be explained by a comment next to it.",
  design "LC0003" "DoNotUseObjectIDsInVariablesOrProperties" .warning true
    "Do not use object IDs in variables or properties"
    "Do not use an object ID for properties or variable declarations. Use \x7b0\x7d instead."
    "Reference objects by name so declarations survive renumbering.",
  design "LC0004" "LookupPageIdAndDrillDownPageId" .warning true
    "LookupPageId and DrillDownPageId must be set"
    "Both LookupPageId and DrillDownPageId need to be defined on table \x7b0\x7d."
    "Tables used in lookups should define both pages.",
  design "LC0005" "VariableCasingShouldNotDifferFromDeclaration" .warning true
    "Casing should match the declaration"
    "The casing of variable/method usage must align with the definition."
    "Use identifiers with the same casing as their declaration.",
  design "LC0006" "FieldNotAutoIncrementInTemporaryTable" .error true
    "AutoIncrement in temporary tables"
    "Property AutoIncrement cannot be used in temporary tables."
    "AutoIncrement is not supported on fields of temporary tables.",
  design "LC0007" "DataPerCompanyShouldAlwaysBeSet" .hidden false
    "DataPerCompany should always be set"
    "The property DataPerCompany should always be set explicitly."
    "Make the company scope of table data explicit.",
  design "LC0008" "NoFilterOperatorsInSetRange" .warning true
    "No filter operators in SetRange"
    "Filter operators should not be used in SetRange."
    "SetRange compares values literally; use SetFilter for filter expressions.",
  design "LC0009" "CodeMetricsInfo" .info false
    "Code metrics"
    "Cyclomatic complexity: \x7b0\x7d, Maintainability index: \x7b1\x7d"
    "Reports code metrics for every method.",
  design "LC0010" "CodeMetricsWarning" .warning true
    "Code metrics"
    "Cyclomatic complexity: \x7b0\x7d, Maintainability index: \x7b1\x7d"
    "Reports methods whose metrics exceed the configured thresholds.",
  design "LC0011" "AccessPropertyShouldAlwaysBeSet" .hidden false
    "Access property should always be set"
    "The Access property should always be set explicitly."
    "Make the accessibility of objects explicit.",
  design "LC0012" "DoNotUseObjectIdInSystemFunctions" .warning true
    "Do not use object IDs in system functions"
    "Do not use an object ID in system functions. Use \x7b0\x7d instead."
    "Reference objects by name when calling system functions.",
  design "LC0013" "CheckForNotBlankOnSingleFieldPrimaryKeys" .warning true
    "NotBlank on single field primary keys"
    "Single field primary keys of type Code or Text should have NotBlank set to true."
    "Blank primary key values are rarely intended.",
  design "LC0014" "PermissionSetCaptionLength" .warning true
    "Permission set caption length"
    "The caption of permission set \x7b0\x7d exceeds the maximum length of 30 characters."
    "Permission set captions are truncated after 30 characters.",
  design "LC0015" "PermissionSetCoverage" .warning true
    "Permission set coverage"
    "Application object \x7b0\x7d is not covered by any permission set."
    "Every application object should be part of a permission set.",
  design "LC0016" "CheckForMissingCaptions" .warning true
    "Missing caption"
    "Caption is missing."
    "User-facing elements need a caption.",
  design "LC0017" "WriteToFlowField" .warning true
    "Writing to a FlowField"
    "Writing to a FlowField is not common. Add a comment to explain this."
    "FlowField values are calculated; assignments are usually mistakes.",
  design "LC0018" "NoEventsInInternalCodeunits" .info true
    "No events in internal codeunits"
    "Events in internal codeunits are not accessible to extensions."
    "Publish events from public codeunits.",
  design "LC0019" "DataClassificationFieldEqualsTable" .info true
    "DataClassification repeats the table value"
    "The DataClassification of a field should not repeat the value set on the table."
    "Only set DataClassification on fields that differ from the table.",
  design "LC0020" "ApplicationAreaEqualsToPage" .info true
    "ApplicationArea repeats the page value"
    "The ApplicationArea of a control should not repeat the value set on the page."
    "Only set ApplicationArea on controls that differ from the page.",
  design "LC0021" "ConfirmImplementConfirmManagement" .info true
    "Use Confirm Management instead of Confirm()"
    "Use the \"Confirm Management\" codeunit instead of the built-in Confirm()."
    "Confirm Management respects GUI availability and can be handled in tests.",
  design "LC0022" "GlobalLanguageImplementTranslationHelper" .info true
    "Use Translation Helper instead of GlobalLanguage()"
    "Use the \"Translation Helper\" codeunit instead of setting GlobalLanguage() directly."
    "Translation Helper restores the language reliably.",
  design "LC0023" "AlwaysSpecifyFieldgroups" .info true
    "Always specify fieldgroups"
    "Always specify the DropDown and Brick fieldgroups on table \x7b0\x7d."
    "Fieldgroups drive lookups and tile views.",
  design "LC0024" "SemicolonAfterProcedureDeclaration" .info true
    "Semicolon after procedure declaration"
    "A semicolon is not needed after a procedure declaration."
    "Remove the trailing semicolon after the procedure header.",
  design "LC0025" "InternalProcedureModifier" .hidden true
    "Consider the internal or local modifier"
    "Procedure \x7b0\x7d is only used inside its module; consider the internal or local modifier."
    "Keep the public surface of objects small.",
  design "LC0026" "ToolTipMustEndWithDot" .info true
    "ToolTip must end with a dot"
    "ToolTips must end with a dot."
    "ToolTips are sentences.",
  design "LC0027" "RunPageImplementPageManagement" .info true
    "Use Page Management instead of Page.Run"
    "Use the \"Page Management\" codeunit instead of Page.Run() or Page.RunModal()."
    "Page Management picks the right page for a record.",
  design "LC0028" "IdentifiersInEventSubscribers" .info true
    "Identifiers in event subscribers"
    "Event subscriber arguments should use identifiers instead of strings."
    "Identifiers are checked by the compiler, strings are not.",
  design "LC0029" "CompareDateTimeThroughCodeunit" .info true
    "Compare DateTime values through a codeunit"
    "Compare DateTime values using the \"Type Helper\" codeunit CompareDateTimes()."
    "DateTime values lose precision in SQL; direct comparison is unreliable.",
  design "LC0030" "AccessInternalForInstallAndUpgradeCodeunits" .info true
    "Access Internal for install and upgrade codeunits"
    "Install and upgrade codeunits should set Access = Internal."
    "These codeunits are not meant to be called by other extensions.",
  design "LC0031" "RecordInstanceIsolationLevel" .info true
    "Use the record instance isolation level"
    "Use ReadIsolation on the record instance instead of LockTable()."
    "Record instance isolation is more precise than table locks.",
  design "LC0032" "ClearCodeunitSingleInstance" .warning true
    "Clearing a SingleInstance codeunit"
    "Clearing SingleInstance codeunit \x7b0\x7d also resets its global state."
    "Clear() on a SingleInstance codeunit affects every user of the instance.",
  design "LC0033" "AppManifestRuntimeBehind" .info true
    "Runtime in app manifest is behind"
    "The runtime in app.json (\x7b0\x7d) is behind the version supported by the platform (\x7b1\x7d)."
    "A newer runtime unlocks newer language features.",
  design "LC0034" "ExtensiblePropertyShouldAlwaysBeSet" .hidden true
    "Extensible property should always be set"
    "The Extensible property should always be set explicitly."
    "Make extensibility of objects explicit.",
  design "LC0035" "ExplicitSetAllowInCustomizations" .info true
    "Set AllowInCustomizations explicitly"
    "Set the AllowInCustomizations property explicitly for field \x7b0\x7d."
    "Fields not shown on any page should declare whether they can be added by customizations.",
  design "LC0036" "ToolTipShouldStartWithSpecifies" .info true
    "ToolTip should start with Specifies"
    "ToolTips for fields should start with 'Specifies'."
    "Consistent ToolTip phrasing across the application.",
  design "LC0037" "ToolTipDoNotUseLineBreaks" .info true
    "ToolTip should not use line breaks"
    "ToolTips must not contain line breaks."
    "Line breaks are not rendered in ToolTips.",
  design "LC0038" "ToolTipMaximumLength" .info true
    "ToolTip maximum length"
    "ToolTips should not exceed 200 characters."
    "Long ToolTips are truncated.",
  design "LC0039" "ArgumentDifferentTypeThenExpected" .warning true
    "Argument type differs from the expected type"
    "Argument \x7b0\x7d has type \x7b1\x7d but \x7b2\x7d is expected."
    "Implicit conversions between object types hide mistakes.",
  design "LC0040" "ExplicitlySetRunTrigger" .info true
    "Explicitly set the RunTrigger parameter"
    "Explicitly set the RunTrigger parameter on built-in record methods."
    "Insert, Modify, ModifyAll, Delete and DeleteAll should state whether table triggers run.",
  aliasOf "ExplicitlySetRunTrigger" <| design "LC0040" "ZeroEnumValueReservedForEmpty" .info true
    "Zero enum value is reserved for empty"
    "The zero value of an enum should be reserved for the empty value."
    "Superseded numbering: shares LC0040 with ExplicitlySetRunTrigger.",
  design "LC0041" "EmptyCaptionLocked" .info true
    "Empty captions should be locked"
    "Empty captions should be locked."
    "Empty captions need no translation.",
  aliasOf "EmptyCaptionLocked" <| design "LC0041" "TokLabelsLocked" .info true
    "Labels with the Tok suffix should be locked"
    "Labels with the Tok suffix should be locked."
    "Superseded numbering: shares LC0041 with EmptyCaptionLocked.",
  aliasOf "EmptyCaptionLocked" <| design "LC0041" "LockedLabelsTok" .info true
    "Locked labels should use the Tok suffix"
    "Locked labels should use the Tok suffix."
    "Superseded numbering: shares LC0041 with EmptyCaptionLocked.",
  design "LC0042" "AutoCalcFieldsOnNormalFields" .warning true
    "AutoCalcFields on normal fields"
    "AutoCalcFields should only be used for FlowFields and Blob fields."
    "Calculating normal fields has no effect.",
  design "LC0043" "SecretText" .info true
    "Use SecretText"
    "Use SecretText for credentials and other secrets."
    "SecretText keeps values out of the debugger.",
  design "LC0044" "AnalyzeTransferFields" .info true
    "TransferFields field conflict"
    "Field \x7b0\x7d in table \x7b1\x7d conflicts with field \x7b2\x7d in table \x7b3\x7d when using TransferFields."
    "TransferFields copies by field number; names and types must line up.",
  aliasOf "AnalyzeTransferFields" <| design "LC0044" "AnalyzeTableExtension" .info true
    "TransferFields field conflict in table extensions"
    "Field \x7b0\x7d in table extension \x7b1\x7d conflicts with field \x7b2\x7d in table extension \x7b3\x7d when using TransferFields."
    "Superseded numbering: shares LC0044 with AnalyzeTransferFields."]

/-- The catalog of the descriptors that come with the linter. -/
def builtin : Catalog :=
  match ofDescriptors builtinDescriptors with
  | .ok c => c
  | .error _ => empty

end Catalog
end TreeLint
