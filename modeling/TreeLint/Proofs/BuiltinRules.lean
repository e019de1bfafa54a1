/-
# What the rules of the linter report

Each rule that comes with the linter is given by a property of nodes that says
nothing of walks and steps: which code is in force, which object encloses it,
what lies below a call, how a parameter is named. In a tree made from a document
the checks find exactly the nodes with these properties, and under any
configuration the diagnostics are, node after node, those of the properties whose
id is enabled (`filter_visitAll_builtin`). Diagnostics about faults are apart:
the rules fail only at calls whose method is not known.

Key definitions: `Tree.InForce`, `Tree.RecordReference`, `Tree.LeavesTriggerOpen`,
`Tree.ConfirmsDirectly`, `Tree.SetsLanguageDirectly`.
Key theorems: `Tree.isExempt_eq_false_iff`, `Rule.checkRunTrigger_eq_found_iff`,
`Rule.checkHelperCodeunit_eq_found_iff`, `Dispatcher.filter_visitAll_builtin`,
`Dispatcher.builtin_reports_exactly`.
-/
import Mathlib.Logic.Relation
import TreeLint.Proofs.Builtin
import TreeLint.Proofs.Names
import TreeLint.Proofs.Navigation

namespace TreeLint
namespace Tree

/-! ### Properties of nodes -/

/-- The symbol at `s` is pending removal or removed. -/
def Obsolete (t : Tree) (s : SymbolId) : Prop :=
  ∃ x, t.symbol? s = some x ∧ (x.obsolete = .pending ∨ x.obsolete = .removed)

/-- The object at `o` is the nearest one around the code of a node: the first object met from the
symbol that contains the code, going from each symbol to the one it is declared in. -/
def EnclosedBy (t : Tree) (n : Node) (o : SymbolId) : Prop :=
  t.FindsObject n.containingSymbol (some o)

/-- The code of a node is in force: neither the symbol that contains it nor the nearest object
around it is obsolete. -/
def InForce (t : Tree) (n : Node) : Prop :=
  (∀ s, n.containingSymbol = some s → ¬ t.Obsolete s) ∧ ∀ o, t.EnclosedBy n o → ¬ t.Obsolete o

/-- The nearest object around the code of a node is the codeunit of that name. -/
def InsideCodeunit (t : Tree) (n : Node) (name : String) : Prop :=
  ∃ o x, t.EnclosedBy n o ∧ t.symbol? o = some x ∧ x.kind = .codeunit ∧ Name.Spells x.name name

/-- The node `m` is a child of the node `n`. -/
def ChildOf (t : Tree) (n m : NodeId) : Prop := m ∈ t.childIds n

/-- The node at `m` refers to a symbol and is a record: by its own type, or if it has none by the
declared type of the symbol. -/
def RecordReference (t : Tree) (m : NodeId) : Prop :=
  ∃ x s, t.node? m = some x ∧ x.symbol = some s ∧
    ((∃ type, x.resolvedType = some type ∧ type.kind = .record) ∨
      x.resolvedType = none ∧
        ∃ y type, t.symbol? s = some y ∧ y.declaredType = some type ∧ type.kind = .record)

/-- The node is a call of a built-in method, in code that is in force. -/
structure CallsBuiltIn (t : Tree) (n : Node) (call : Invocation) : Prop where
  kind_eq : n.kind = .invocationExpression
  inForce : t.InForce n
  invocation_eq : n.invocation = some call
  method_kind : call.method.kind = .builtInMethod

/-- The node at `i` changes records and leaves open whether triggers run: it calls a method that
changes records, a record is referred to by the call or something below it, and no argument is
bound to the parameter for the triggers. -/
def LeavesTriggerOpen (t : Tree) (i : NodeId) (n : Node) : Prop :=
  ∃ call, t.CallsBuiltIn n call ∧
    Name.lower call.method.name ∈ ["insert", "modify", "modifyall", "delete", "deleteall"] ∧
    (∃ m, Relation.ReflTransGen t.ChildOf i m ∧ t.RecordReference m) ∧
    ∀ a ∈ call.arguments, ∀ p, a.parameter = some p → ¬ Name.Spells p "RunTrigger"

/-- The node calls a built-in method that belongs behind a helper, outside that helper. -/
def Bypasses (t : Tree) (n : Node) (belongs : Invocation → Prop) (helper : String) : Prop :=
  ∃ call, t.CallsBuiltIn n call ∧ belongs call ∧ ¬ t.InsideCodeunit n helper

/-- The node asks for confirmation outside the helper for that. -/
def ConfirmsDirectly (t : Tree) (n : Node) : Prop :=
  t.Bypasses n (fun call => Name.lower call.method.name = "confirm") "Confirm Management"

/-- The node sets the language outside the helper for that. -/
def SetsLanguageDirectly (t : Tree) (n : Node) : Prop :=
  t.Bypasses n (fun call => Name.lower call.method.name = "globallanguage" ∧ call.arguments ≠ [])
    "Translation Helper"

variable {doc : Document} {t : Tree} {i : NodeId} {n : Node}

/-! ### The guard on obsolete code -/

theorem isObsolete_eq_true_iff {s : SymbolId} : t.isObsolete s = true ↔ t.Obsolete s := by
  unfold isObsolete Obsolete
  cases t.symbol? s with
  | none => simp
  | some x => cases h : x.obsolete <;> simp [h, ObsoleteState.isObsolete]

theorem findsObject_containingObject? (ht : ofDocument doc = .ok t) {s : SymbolId}
    (hs : s < t.symbols.length) : t.FindsObject (some s) (t.containingObject? s) := by
  obtain ⟨⟨-, hwf⟩, rfl, -⟩ := ofDocument_eq_ok_iff.mp ht
  exact findsObject_of_climb hwf _ hs (hwf.climb_eq_none hs)

theorem containingSymbol_lt (ht : ofDocument doc = .ok t) (hn : t.node? i = some n) {s : SymbolId}
    (hs : n.containingSymbol = some s) : s < t.symbols.length := by
  obtain ⟨⟨-, hwf⟩, rfl, -⟩ := ofDocument_eq_ok_iff.mp ht
  exact hwf.symbol_lt i n s hn (Or.inr hs)

/-- The object that the search gives for the code of a node is the one that encloses it. -/
theorem bind_containingObject?_eq_some_iff (ht : ofDocument doc = .ok t) (hn : t.node? i = some n)
    {o : SymbolId} : n.containingSymbol.bind t.containingObject? = some o ↔ t.EnclosedBy n o := by
  unfold EnclosedBy
  cases hs : n.containingSymbol with
  | none =>
    constructor
    · intro h
      cases h
    · intro h
      cases h
  | some s =>
    have hfinds := findsObject_containingObject? ht (containingSymbol_lt ht hn hs)
    constructor
    · intro h
      rw [← h]
      exact hfinds
    · intro h
      exact hfinds.unique h

/-- **The guard lets exactly the code in force pass.** -/
theorem isExempt_eq_false_iff (ht : ofDocument doc = .ok t) (hn : t.node? i = some n) :
    t.isExempt n.containingSymbol = false ↔ t.InForce n := by
  have hobject : ∀ o, t.EnclosedBy n o ↔ n.containingSymbol.bind t.containingObject? = some o :=
    fun o => (bind_containingObject?_eq_some_iff ht hn).symm
  unfold InForce
  simp only [hobject, ← isObsolete_eq_true_iff, Bool.not_eq_true]
  cases n.containingSymbol with
  | none => simp [isExempt]
  | some s =>
    cases ho : t.containingObject? s with
    | none => simp [isExempt, ho]
    | some o => simp [isExempt, ho]

theorem insideCodeunit_eq_true_iff (ht : ofDocument doc = .ok t) (hn : t.node? i = some n)
    {name : String} (hname : Name.IsPlain name) :
    Rule.insideCodeunit t n.containingSymbol name = true ↔ t.InsideCodeunit n name := by
  unfold InsideCodeunit
  simp only [← bind_containingObject?_eq_some_iff ht hn, ← Name.same_iff_spells hname]
  unfold Rule.insideCodeunit
  cases n.containingSymbol.bind t.containingObject? with
  | none => simp
  | some o =>
    cases hx : t.symbol? o with
    | none => simp [hx]
    | some x => simp [hx]

/-! ### What lies below a node -/

theorem isRecordReference_eq_true_iff {m : NodeId} :
    t.isRecordReference m = true ↔ t.RecordReference m := by
  unfold isRecordReference RecordReference
  cases t.node? m with
  | none => simp
  | some x =>
    cases hs : x.symbol with
    | none => simp [hs]
    | some s =>
      cases htype : x.resolvedType with
      | some type => simp [hs, htype, TypeInfo.isRecord]
      | none =>
        cases hy : t.symbol? s with
        | none => simp [hs, htype, hy]
        | some y =>
          cases hdecl : y.declaredType with
          | none => simp [hs, htype, hy, hdecl]
          | some type => simp [hs, htype, hy, hdecl, TypeInfo.isRecord]

theorem Ordered.within_iff_reflTransGen (h : t.Ordered) {n m : NodeId} :
    t.Within n m ↔ Relation.ReflTransGen t.ChildOf n m := by
  constructor
  · intro hm
    induction m using h.induction_up with
    | root m hp => rw [(h.within_iff_of_root hp).mp hm]
    | child m p hp ih =>
      rcases (h.within_iff_of_parent hp).mp hm with rfl | hp'
      · exact .refl
      · exact (ih hp').tail ((h.mem_childIds p m).mpr hp)
  · intro hm
    induction hm with
    | refl => exact Or.inl rfl
    | tail _ hchild ih =>
      exact (h.within_iff_of_parent ((h.mem_childIds _ _).mp hchild)).mpr (Or.inr ih)

theorem refersToRecord_eq_true_iff (ht : ofDocument doc = .ok t) (hi : i < t.nodes.length) :
    t.refersToRecord i = true ↔
      ∃ m, Relation.ReflTransGen t.ChildOf i m ∧ t.RecordReference m := by
  have ho := ordered_of_ofDocument ht
  simp only [refersToRecord, List.any_eq_true, isRecordReference_eq_true_iff,
    ho.descendantsAndSelf_eq hi, ho.mem_preorder, ho.within_iff_reflTransGen]

end Tree

/-! ### What the checks find -/

/-- No argument is bound to a parameter exactly when no parameter's name spells it. -/
theorem Invocation.any_binds_eq_false_iff (call : Invocation) {name : String}
    (hname : Name.IsPlain name) :
    call.arguments.any (·.binds name) = false ↔
      ∀ a ∈ call.arguments, ∀ p, a.parameter = some p → ¬ Name.Spells p name := by
  rw [List.any_eq_false]
  refine forall₂_congr fun a _ => ?_
  cases hp : a.parameter with
  | none => simp [BoundArgument.binds, hp]
  | some p => simp [BoundArgument.binds, hp, ← Name.same_iff_spells hname]

theorem RuleContext.report_eq {c : RuleContext} (hc : c.catalog.Indexed) {id : String}
    (hid : id ∈ c.descriptors) {p : Descriptor} (hp : c.catalog.primary? id = some p)
    (args : List String) :
    c.report id args = .found ⟨p.id, p.severity, c.tree.path, c.node.span, p.format args⟩ := by
  simp [report, diagnostic, diagnosticAt, hid, Catalog.lookup, hc.get?_eq, hp]

namespace Rule

variable {doc : Document} {t : Tree} {i : NodeId} {n : Node} {x : Diagnostic}

theorem isPlain_of_mem {name : String}
    (h : name ∈ ["RunTrigger", "Confirm Management", "Translation Helper"]) :
    Name.IsPlain name := by
  revert name
  decide

section Context

variable {c : RuleContext} (ht : Tree.ofDocument doc = .ok c.tree)
  (hn : c.tree.node? c.nodeId = some c.node)
include ht hn

theorem onBuiltInCall_of_not_inForce (h : ¬ c.tree.InForce c.node)
    (check : Invocation → Outcome) : onBuiltInCall c check = .nothing := by
  have hexempt : c.isExempt = true := by
    rw [← Tree.isExempt_eq_false_iff ht hn, Bool.not_eq_false] at h
    exact h
  rw [onBuiltInCall, if_pos hexempt]

theorem onBuiltInCall_of_callsBuiltIn {call : Invocation} (h : c.tree.CallsBuiltIn c.node call)
    (check : Invocation → Outcome) : onBuiltInCall c check = check call := by
  have hexempt : c.isExempt = false := (Tree.isExempt_eq_false_iff ht hn).mpr h.inForce
  simp [onBuiltInCall, hexempt, h.invocation_eq, h.method_kind]

/-- A check of built-in calls finds something exactly at a built-in call in force, where it finds
what the check of the call finds. -/
theorem onBuiltInCall_eq_found_iff (hkind : c.node.kind = .invocationExpression)
    (check : Invocation → Outcome) :
    onBuiltInCall c check = .found x ↔
      ∃ call, c.tree.CallsBuiltIn c.node call ∧ check call = .found x := by
  constructor
  · intro h
    have hforce : c.tree.InForce c.node := by
      by_contra hnot
      rw [onBuiltInCall_of_not_inForce ht hn hnot] at h
      cases h
    unfold onBuiltInCall at h
    split at h
    · cases h
    · split at h
      · cases h
      · rename_i call hcall
        split at h
        · rename_i hmethod
          exact ⟨call, ⟨hkind, hforce, hcall, hmethod⟩, h⟩
        · cases h
  · rintro ⟨call, hcall, h⟩
    rw [onBuiltInCall_of_callsBuiltIn ht hn hcall, h]

/-- **The rule on changes finds exactly the calls that leave the triggers open.** -/
theorem checkRunTrigger_eq_found_iff (hkind : c.node.kind = .invocationExpression) :
    checkRunTrigger c = .found x ↔ c.tree.LeavesTriggerOpen c.nodeId c.node ∧
      c.report Catalog.runTriggerImplicit [] = .found x := by
  have hi : c.nodeId < c.tree.nodes.length := (List.getElem?_eq_some_iff.mp hn).1
  have hrecord := Tree.refersToRecord_eq_true_iff ht hi
  have hplain : Name.IsPlain runTriggerParameter := isPlain_of_mem List.mem_cons_self
  rw [checkRunTrigger, onBuiltInCall_eq_found_iff ht hn hkind]
  constructor
  · rintro ⟨call, hcall, h⟩
    split at h
    · rename_i hcond
      rw [Bool.and_eq_true, Bool.and_eq_true, Bool.not_eq_true', List.contains_iff_mem,
        call.any_binds_eq_false_iff hplain, hrecord] at hcond
      exact ⟨⟨call, hcall, hcond.1.1, hcond.1.2, hcond.2⟩, h⟩
    · cases h
  · rintro ⟨⟨call, hcall, hmethod, hbelow, hunbound⟩, h⟩
    refine ⟨call, hcall, ?_⟩
    rw [if_pos, h]
    rw [Bool.and_eq_true, Bool.and_eq_true, Bool.not_eq_true', List.contains_iff_mem,
      call.any_binds_eq_false_iff hplain, hrecord]
    exact ⟨⟨hmethod, hbelow⟩, hunbound⟩

end Context

/-- The helper that a call belongs behind, and the descriptor for a call elsewhere. -/
theorem helperFor?_eq_some_iff {call : Invocation} {id helper : String} :
    helperFor? call = some (id, helper) ↔
      Name.lower call.method.name = "confirm" ∧
          id = Catalog.confirmDirectly ∧ helper = "Confirm Management" ∨
        (Name.lower call.method.name = "globallanguage" ∧ call.arguments ≠ []) ∧
          id = Catalog.languageDirectly ∧ helper = "Translation Helper" := by
  unfold helperFor?
  by_cases hconfirm : Name.lower call.method.name = "confirm"
  · simp [hconfirm, eq_comm]
  · by_cases hlanguage : Name.lower call.method.name = "globallanguage"
    · cases call.arguments with
      | nil => simp [hlanguage]
      | cons a as => simp [hlanguage, eq_comm]
    · simp [hconfirm, hlanguage]

theorem isPlain_of_helperFor? {call : Invocation} {id helper : String}
    (h : helperFor? call = some (id, helper)) : Name.IsPlain helper := by
  rcases helperFor?_eq_some_iff.mp h with ⟨-, -, rfl⟩ | ⟨-, -, rfl⟩
  · exact isPlain_of_mem (by simp)
  · exact isPlain_of_mem (by simp)

/-- The check of a call that has a helper finds something exactly outside the helper. -/
theorem checkHelperCodeunit_eq_found_iff_helperFor? {c : RuleContext}
    (ht : Tree.ofDocument doc = .ok c.tree) (hn : c.tree.node? c.nodeId = some c.node)
    (hkind : c.node.kind = .invocationExpression) :
    checkHelperCodeunit c = .found x ↔ ∃ call id helper, c.tree.CallsBuiltIn c.node call ∧
      helperFor? call = some (id, helper) ∧ ¬ c.tree.InsideCodeunit c.node helper ∧
        c.report id [] = .found x := by
  rw [checkHelperCodeunit, onBuiltInCall_eq_found_iff ht hn hkind]
  constructor
  · rintro ⟨call, hcall, h⟩
    split at h
    · cases h
    · rename_i id helper hfor
      have hinside := Tree.insideCodeunit_eq_true_iff ht hn (isPlain_of_helperFor? hfor)
      split at h
      · cases h
      · rename_i hout
        exact ⟨call, id, helper, hcall, hfor, fun hin => hout (hinside.mpr hin), h⟩
  · rintro ⟨call, id, helper, hcall, hfor, hout, h⟩
    have hinside := Tree.insideCodeunit_eq_true_iff ht hn (isPlain_of_helperFor? hfor)
    refine ⟨call, hcall, ?_⟩
    rw [hfor]
    exact (if_neg fun hin => hout (hinside.mp hin)).trans h

/-- **The rule on helpers finds exactly the calls that bypass theirs.** -/
theorem checkHelperCodeunit_eq_found_iff {c : RuleContext} (ht : Tree.ofDocument doc = .ok c.tree)
    (hn : c.tree.node? c.nodeId = some c.node) (hkind : c.node.kind = .invocationExpression) :
    checkHelperCodeunit c = .found x ↔
      c.tree.ConfirmsDirectly c.node ∧ c.report Catalog.confirmDirectly [] = .found x ∨
        c.tree.SetsLanguageDirectly c.node ∧ c.report Catalog.languageDirectly [] = .found x := by
  rw [checkHelperCodeunit_eq_found_iff_helperFor? ht hn hkind]
  constructor
  · rintro ⟨call, id, helper, hcall, hfor, houtside, h⟩
    rcases helperFor?_eq_some_iff.mp hfor with ⟨hmethod, rfl, rfl⟩ | ⟨hmethod, rfl, rfl⟩
    · exact Or.inl ⟨⟨call, hcall, hmethod, houtside⟩, h⟩
    · exact Or.inr ⟨⟨call, hcall, hmethod, houtside⟩, h⟩
  · rintro (⟨⟨call, hcall, hmethod, houtside⟩, h⟩ | ⟨⟨call, hcall, hmethod, houtside⟩, h⟩)
    · have hfor := helperFor?_eq_some_iff.mpr (Or.inl ⟨hmethod, rfl, rfl⟩)
      exact ⟨call, _, _, hcall, hfor, houtside, h⟩
    · have hfor := helperFor?_eq_some_iff.mpr (Or.inr ⟨hmethod, rfl, rfl⟩)
      exact ⟨call, _, _, hcall, hfor, houtside, h⟩

end Rule

/-! ### What is reported -/

namespace Catalog

/-- What the rule on changes says. -/
def runTriggerText : String :=
  "Explicitly set the RunTrigger parameter on built-in record methods."

/-- What the rule on helpers says of a question. -/
def confirmText : String :=
  "Use the \"Confirm Management\" codeunit instead of the built-in Confirm()."

/-- What the rule on helpers says of a change of the language. -/
def languageText : String :=
  "Use the \"Translation Helper\" codeunit instead of setting GlobalLanguage() directly."

/-- What the rules that come with the linter say, by id. -/
def ruleTexts : List (String × String) :=
  [("LC0040", runTriggerText), ("LC0021", confirmText), ("LC0022", languageText)]

end Catalog

theorem RuleContext.report_builtin {c : RuleContext} (hc : c.catalog = Catalog.builtin)
    {id text : String} (hid : id ∈ c.descriptors) (htext : (id, text) ∈ Catalog.ruleTexts) :
    c.report id [] = .found ⟨id, .info, c.tree.path, c.node.span, text⟩ := by
  have hindexed : c.catalog.Indexed := hc ▸ Catalog.built_builtin.indexed
  have hall : ∀ x ∈ Catalog.ruleTexts, (Catalog.builtin.primary? x.1).map
      (fun p => (p.id, p.severity, p.template)) = some (x.1, .info, x.2) := by
    simp only [Catalog.primary?_builtin, Catalog.ruleTexts, List.forall_mem_cons]
    exact ⟨rfl, rfl, rfl, List.forall_mem_nil _⟩
  have hplain : ∀ x ∈ Catalog.ruleTexts, '\x7b' ∉ x.2.toList := by
    simp [Catalog.ruleTexts, Catalog.runTriggerText, Catalog.confirmText, Catalog.languageText]
  have hfill : Descriptor.fill [] 0 text.toList = text.toList := by
    simpa [Descriptor.fill] using Descriptor.fill_append_of_not_mem [] [] (hplain _ htext)
  obtain ⟨p, hp, heq⟩ := Option.map_eq_some_iff.mp (hall _ htext)
  simp only [Prod.mk.injEq] at heq
  rw [report_eq hindexed hid (hc ▸ hp), heq.1, heq.2.1, Descriptor.format, heq.2.2,
    hfill, String.ofList_toList]

namespace Setup

/-- A diagnostic at a node, at the severity in force, if its id is enabled. -/
def reportAt (s : Setup) (t : Tree) (n : Node) (id text : String) : List Diagnostic :=
  (s.severity? id).toList.map fun severity => ⟨id, severity, t.path, n.span, text⟩

theorem severity?_builtin_default {id : String} (hid : id ∈ ["LC0040", "LC0021", "LC0022"]) :
    (builtin {}).severity? id = some .info := by
  revert id
  simp only [severity?, catalog_builtin, Catalog.primary?_builtin, List.forall_mem_cons]
  exact ⟨rfl, rfl, rfl, List.forall_mem_nil _⟩

open Classical in
/-- What is reported at a node, apart from faults. -/
noncomputable def violationsAt (s : Setup) (t : Tree) (x : Node × NodeId) : List Diagnostic :=
  (if t.LeavesTriggerOpen x.2 x.1 then s.reportAt t x.1 "LC0040" Catalog.runTriggerText else []) ++
  (if t.ConfirmsDirectly x.1 then s.reportAt t x.1 "LC0021" Catalog.confirmText else []) ++
  (if t.SetsLanguageDirectly x.1 then s.reportAt t x.1 "LC0022" Catalog.languageText else [])

variable {doc : Document} {t : Tree} {i : NodeId} {n : Node}

theorem kept_eq (s : Setup) (id text : String) (severity : Severity) :
    s.kept ⟨id, severity, t.path, n.span, text⟩ = s.reportAt t n id text := by
  unfold kept reportAt
  cases s.severity? id <;> rfl

theorem id_of_mem_reportAt {s : Setup} {id text : String} {x : Diagnostic}
    (h : x ∈ s.reportAt t n id text) : x.id = id := by
  obtain ⟨severity, -, rfl⟩ := List.mem_map.mp h
  rfl

theorem filter_reportAt (s : Setup) {id : String} (hid : id ≠ "LC0000") (text : String) :
    (s.reportAt t n id text).filter (·.id != "LC0000") = s.reportAt t n id text := by
  rw [List.filter_eq_self]
  intro x hx
  simpa [id_of_mem_reportAt hx] using hid

theorem filter_run_of_found {s : Setup} {rule : Rule} {id text : String} {severity : Severity}
    (hid : id ≠ "LC0000")
    (h : rule.check ⟨t, i, n, s.catalog, rule.ruleId, rule.descriptors⟩ =
      .found ⟨id, severity, t.path, n.span, text⟩) :
    (s.run t i n rule).1.filter (·.id != "LC0000") = s.reportAt t n id text := by
  rw [run, h, recorded, kept_eq, filter_reportAt s hid]

theorem filter_run_of_not_found {s : Setup} {rule : Rule}
    (h : ∀ x, rule.check ⟨t, i, n, s.catalog, rule.ruleId, rule.descriptors⟩ ≠ .found x) :
    (s.run t i n rule).1.filter (·.id != "LC0000") = [] := by
  rw [run]
  cases hcheck : rule.check ⟨t, i, n, s.catalog, rule.ruleId, rule.descriptors⟩ with
  | nothing => rfl
  | found x => exact absurd hcheck (h x)
  | failed chain => simp [recorded, aboutFault_eq]
  | brokeOff text => simp [recorded, aboutFault_eq]

section Builtin

variable {s : Setup} (hs : s.catalog = Catalog.builtin) (ht : Tree.ofDocument doc = .ok t)
  (hn : t.node? i = some n) (hkind : n.kind = .invocationExpression)
include hs ht hn hkind

open Classical in
theorem filter_run_runTrigger :
    (s.run t i n Rule.runTrigger).1.filter (·.id != "LC0000") =
      if t.LeavesTriggerOpen i n then s.reportAt t n "LC0040" Catalog.runTriggerText else [] := by
  let c : RuleContext := ⟨t, i, n, s.catalog, Rule.runTrigger.ruleId, [Catalog.runTriggerImplicit]⟩
  have hiff := fun x => @Rule.checkRunTrigger_eq_found_iff doc x c ht hn hkind
  have hreport := @RuleContext.report_builtin c hs "LC0040" _ List.mem_cons_self List.mem_cons_self
  split
  · rename_i hopen
    exact filter_run_of_found (by decide) ((hiff _).mpr ⟨hopen, hreport⟩)
  · rename_i hopen
    exact filter_run_of_not_found fun x hx => hopen ((hiff x).mp hx).1

open Classical in
theorem filter_run_helperCodeunit :
    (s.run t i n Rule.helperCodeunit).1.filter (·.id != "LC0000") =
      (if t.ConfirmsDirectly n then s.reportAt t n "LC0021" Catalog.confirmText else []) ++
      (if t.SetsLanguageDirectly n then s.reportAt t n "LC0022" Catalog.languageText else []) := by
  let c : RuleContext := ⟨t, i, n, s.catalog, Rule.helperCodeunit.ruleId,
    [Catalog.confirmDirectly, Catalog.languageDirectly]⟩
  have hiff := fun x => @Rule.checkHelperCodeunit_eq_found_iff doc x c ht hn hkind
  have hconfirm := @RuleContext.report_builtin c hs "LC0021" _ List.mem_cons_self
    (.tail _ List.mem_cons_self)
  have hlanguage := @RuleContext.report_builtin c hs "LC0022" _ (.tail _ List.mem_cons_self)
    (.tail _ (.tail _ List.mem_cons_self))
  by_cases hconf : t.ConfirmsDirectly n
  · have hfound := (hiff _).mpr (Or.inl ⟨hconf, hconfirm⟩)
    -- one check finds at most one thing
    have hlang : ¬ t.SetsLanguageDirectly n := by
      intro hlang
      have hother := (hiff _).mpr (Or.inr ⟨hlang, hlanguage⟩)
      rw [hfound] at hother
      simp at hother
    rw [if_pos hconf, if_neg hlang, List.append_nil]
    exact filter_run_of_found (by decide) hfound
  · rw [if_neg hconf, List.nil_append]
    split
    · rename_i hlang
      exact filter_run_of_found (by decide) ((hiff _).mpr (Or.inr ⟨hlang, hlanguage⟩))
    · rename_i hlang
      refine filter_run_of_not_found fun x hx => ?_
      rcases (hiff x).mp hx with h | h
      · exact hconf h.1
      · exact hlang h.1

end Builtin

section Adds

variable {s : Setup} (hs : s.catalog = Catalog.builtin) (ht : Tree.ofDocument doc = .ok t)
  (hn : t.node? i = some n)
include hs ht hn

open Classical in
theorem filter_adds_runTrigger :
    (s.adds t i n Rule.runTrigger).1.filter (·.id != "LC0000") =
      if t.LeavesTriggerOpen i n then s.reportAt t n "LC0040" Catalog.runTriggerText else [] := by
  by_cases hkind : n.kind = .invocationExpression
  · rw [adds]
    split
    · exact filter_run_runTrigger hs ht hn hkind
    · rename_i hoff
      have hnone : s.severity? "LC0040" = none := by
        simpa [applies, Rule.runTrigger, hkind, Catalog.runTriggerImplicit] using hoff
      simp [reportAt, hnone]
  · have hnot : s.applies n Rule.runTrigger = false := by simp [applies, Rule.runTrigger, hkind]
    have hopen : ¬ t.LeavesTriggerOpen i n := by
      rintro ⟨_, hcall, _⟩
      exact hkind hcall.kind_eq
    rw [adds, hnot, if_neg hopen]
    rfl

open Classical in
theorem filter_adds_helperCodeunit :
    (s.adds t i n Rule.helperCodeunit).1.filter (·.id != "LC0000") =
      (if t.ConfirmsDirectly n then s.reportAt t n "LC0021" Catalog.confirmText else []) ++
      (if t.SetsLanguageDirectly n then s.reportAt t n "LC0022" Catalog.languageText else []) := by
  by_cases hkind : n.kind = .invocationExpression
  · rw [adds]
    split
    · exact filter_run_helperCodeunit hs ht hn hkind
    · rename_i hoff
      have hnone : s.severity? "LC0021" = none ∧ s.severity? "LC0022" = none := by
        simpa [applies, Rule.helperCodeunit, hkind, Catalog.confirmDirectly,
          Catalog.languageDirectly] using hoff
      simp [reportAt, hnone]
  · have hnot : s.applies n Rule.helperCodeunit = false := by
      simp [applies, Rule.helperCodeunit, hkind]
    have hconfirm : ¬ t.ConfirmsDirectly n := by
      rintro ⟨_, hcall, _⟩
      exact hkind hcall.kind_eq
    have hlanguage : ¬ t.SetsLanguageDirectly n := by
      rintro ⟨_, hcall, _⟩
      exact hkind hcall.kind_eq
    rw [adds, hnot, if_neg hconfirm, if_neg hlanguage]
    rfl

theorem filter_flatMap_adds (hrules : s.rules = Dispatcher.builtinRules) :
    (s.rules.flatMap fun rule => (s.adds t i n rule).1).filter (·.id != "LC0000") =
      s.violationsAt t (n, i) := by
  rw [hrules, Dispatcher.builtinRules, violationsAt, List.flatMap_cons, List.flatMap_cons,
    List.flatMap_nil, List.append_nil, List.filter_append, filter_adds_runTrigger hs ht hn,
    filter_adds_helperCodeunit hs ht hn, List.append_assoc]

end Adds
end Setup

namespace Dispatcher

variable {config : Config} {d : Dispatcher} {doc : Document} {t : Tree}

/-- What the rules that come with the linter report at a node, under any configuration. -/
theorem filter_visit_builtin (hd : builtinUnder config = .ok d)
    (ht : Tree.ofDocument doc = .ok t) {i : NodeId} {n : Node} (hn : t.node? i = some n) :
    (d.visit t i n .empty).diagnostics.filter (·.id != "LC0000") =
      (Setup.builtin config).violationsAt t (n, i) := by
  rw [(represents_builtinUnder hd).visit_eq, Findings.empty_merge]
  exact Setup.filter_flatMap_adds (Setup.catalog_builtin config) ht hn (Setup.rules_builtin config)

/-- The rule on changes reports at exactly the calls that leave the triggers open, once, if that is
enabled. -/
theorem mem_visit_runTrigger_iff (hd : builtinUnder config = .ok d)
    (ht : Tree.ofDocument doc = .ok t) {i : NodeId} {n : Node} (hn : t.node? i = some n)
    {x : Diagnostic} (hid : x.id = "LC0040") :
    x ∈ (d.visit t i n .empty).diagnostics ↔
      t.LeavesTriggerOpen i n ∧
        x ∈ (Setup.builtin config).reportAt t n "LC0040" Catalog.runTriggerText := by
  have hother : ∀ {id text : String}, id ≠ "LC0040" →
      x ∉ (Setup.builtin config).reportAt t n id text := by
    intro id text hne hx
    exact hne ((Setup.id_of_mem_reportAt hx).symm.trans hid)
  have hkept : x ∈ (d.visit t i n .empty).diagnostics ↔
      x ∈ (d.visit t i n .empty).diagnostics.filter (·.id != "LC0000") := by
    simp [List.mem_filter, hid]
  rw [hkept, filter_visit_builtin hd ht hn]
  simp only [Setup.violationsAt, List.mem_append, List.mem_ite_nil_right,
    hother (show "LC0021" ≠ "LC0040" by decide), hother (show "LC0022" ≠ "LC0040" by decide),
    and_false, or_false]

/-- **What the rules that come with the linter report**, under any configuration: node after node,
what is to be said about it and is enabled. -/
theorem filter_visitAll_builtin (hd : builtinUnder config = .ok d)
    (ht : Tree.ofDocument doc = .ok t) :
    (d.visitAll t .empty).diagnostics.filter (·.id != "LC0000") =
      t.nodes.zipIdx.flatMap ((Setup.builtin config).violationsAt t) := by
  rw [visitAll_eq_merge, Findings.empty_merge, Findings.visiting, List.filter_flatMap]
  refine List.flatMap_congr fun x hx => ?_
  have hn : t.node? x.2 = some x.1 := List.mk_mem_zipIdx_iff_getElem?.mp hx
  rw [← filter_visit_builtin hd ht hn, visit_eq_merge, Findings.empty_merge]
  rfl

open Classical in
/-- **The rules that come with the linter report exactly what they are about.** In a tree without
source text that is not left out, under a configuration that leaves their three ids enabled, the
diagnostics other than those about faults are, node after node, one at each call that leaves open
whether triggers run, one at each call that asks for confirmation outside the helper for it, and
one at each call that sets the language outside the helper for it; each is at the span of the call.
-/
theorem builtin_reports_exactly (hd : builtinUnder config = .ok d)
    {s40 s21 s22 : Severity} (h40 : d.severityFor? "LC0040" = some s40)
    (h21 : d.severityFor? "LC0021" = some s21) (h22 : d.severityFor? "LC0022" = some s22)
    (ht : Tree.ofDocument doc = .ok t) (hsource : t.source = none) :
    (d.analyze t).suppressed = [] ∧
    (d.analyze t).diagnostics.filter (·.id != "LC0000") =
      if d.isExcluded t.path then [] else
        t.nodes.zipIdx.flatMap fun (n, i) =>
          (if t.LeavesTriggerOpen i n then [⟨"LC0040", s40, t.path, n.span, Catalog.runTriggerText⟩]
            else []) ++
          (if t.ConfirmsDirectly n then [⟨"LC0021", s21, t.path, n.span, Catalog.confirmText⟩]
            else []) ++
          (if t.SetsLanguageDirectly n then [⟨"LC0022", s22, t.path, n.span, Catalog.languageText⟩]
            else []) := by
  have hrep := represents_builtinUnder hd
  rw [hrep.severityFor?_eq] at h40 h21 h22
  unfold analyze
  split
  · exact ⟨rfl, rfl⟩
  · have hfinish : finish t (d.visitAll t .empty) =
        { d.visitAll t .empty with treesAnalyzed := (d.visitAll t .empty).treesAnalyzed + 1 } := by
      rw [finish, hsource]
    rw [hfinish]
    refine ⟨d.suppressed_visitAll_empty t, ?_⟩
    rw [filter_visitAll_builtin hd ht]
    refine List.flatMap_congr fun x _ => ?_
    simp only [Setup.violationsAt, Setup.reportAt, h40, h21, h22, Option.toList_some, List.map_cons,
      List.map_nil]

/-- In the helper for confirmation: a change of a record, the record, and a question. -/
def sampleCallsDocument : Document where
  path := "a.al"
  symbols := [{ kind := .codeunit, name := " \"confirm management\"" },
    { kind := .method, name := "Ask", containing := some 0 },
    { kind := .localVariable, name := "Cust", containing := some 1,
      declaredType := some { kind := .record } }]
  nodes := [
    { kind := .invocationExpression, span := ⟨0, 9, 1, 1, 1, 10⟩, containingSymbol := some 1,
      invocation := some ⟨⟨"MODIFY", .builtInMethod⟩, [{ parameter := some "Trigger" }]⟩ },
    { kind := .localReference, span := ⟨0, 1, 1, 1, 1, 2⟩, parent := some 0, symbol := some 2,
      containingSymbol := some 1 },
    { kind := .invocationExpression, span := ⟨10, 19, 2, 1, 2, 10⟩, containingSymbol := some 1,
      invocation := some ⟨⟨"Confirm", .builtInMethod⟩, []⟩ }]

/-- The change is reported; the question is in order where it stands. -/
theorem builtin_reports_sampleCalls : ∃ d t, builtinUnder {} = .ok d ∧
    Tree.ofDocument sampleCallsDocument = .ok t ∧ t.source = none ∧
    d.severityFor? "LC0040" = some .info ∧ d.severityFor? "LC0021" = some .info ∧
    d.severityFor? "LC0022" = some .info ∧
    (d.analyze t).suppressed = [] ∧ (d.analyze t).diagnostics.filter (·.id != "LC0000") =
      [⟨"LC0040", .info, "a.al", ⟨0, 9, 1, 1, 1, 10⟩, Catalog.runTriggerText⟩] := by
  obtain ⟨d, hd⟩ := @exists_builtinUnder {} [] rfl
  have hseverity : ∀ id ∈ ["LC0040", "LC0021", "LC0022"], d.severityFor? id = some .info :=
    fun id hid => ((represents_builtinUnder hd).severityFor?_eq id).trans
      (Setup.severity?_builtin_default hid)
  have h40 := hseverity _ List.mem_cons_self
  have h21 := hseverity _ (.tail _ List.mem_cons_self)
  have h22 := hseverity _ (.tail _ (.tail _ List.mem_cons_self))
  let t : Tree := ⟨sampleCallsDocument, [[1], [], []]⟩
  have ht : Tree.ofDocument sampleCallsDocument = .ok t := rfl
  have hmain := builtin_reports_exactly hd h40 h21 h22 ht rfl
  refine ⟨d, t, hd, ht, rfl, h40, h21, h22, hmain.1, ?_⟩
  have hall : ¬ d.isExcluded t.path = true := by simp [isExcluded_builtinUnder_default hd]
  have hnodes : t.nodes.zipIdx = [(t.nodes[0], 0), (t.nodes[1], 1), (t.nodes[2], 2)] := rfl
  have hchange : t.LeavesTriggerOpen 0 t.nodes[0] :=
    ⟨_, ⟨rfl, (Tree.isExempt_eq_false_iff (i := 0) ht rfl).mp (by decide), rfl, rfl⟩, by decide,
      (Tree.refersToRecord_eq_true_iff ht (by decide)).mp (by decide),
      (Invocation.any_binds_eq_false_iff _ (Rule.isPlain_of_mem (by simp))).mp (by decide)⟩
  have hhelper : t.InsideCodeunit t.nodes[2] "Confirm Management" :=
    (Tree.insideCodeunit_eq_true_iff (i := 2) ht rfl (Rule.isPlain_of_mem (by simp))).mp (by decide)
  have hquestion : ¬ t.ConfirmsDirectly t.nodes[2] := fun ⟨_, _, _, hnot⟩ => hnot hhelper
  have hconfirm₀ : ¬ t.ConfirmsDirectly t.nodes[0] := by
    rintro ⟨call, hcall, hmethod, -⟩
    cases hcall.invocation_eq
    revert hmethod
    decide
  have hlanguage₀ : ¬ t.SetsLanguageDirectly t.nodes[0] := by
    rintro ⟨call, hcall, ⟨hmethod, -⟩, -⟩
    cases hcall.invocation_eq
    revert hmethod
    decide
  have hchange₂ : ¬ t.LeavesTriggerOpen 2 t.nodes[2] := by
    rintro ⟨call, hcall, hmethod, -⟩
    cases hcall.invocation_eq
    revert hmethod
    decide
  have hlanguage₂ : ¬ t.SetsLanguageDirectly t.nodes[2] := by
    rintro ⟨call, hcall, ⟨-, hsome⟩, -⟩
    cases hcall.invocation_eq
    exact hsome rfl
  have hnone : ∀ call, ¬ t.CallsBuiltIn t.nodes[1] call := fun call hcall => by
    cases hcall.kind_eq
  have hchange₁ : ¬ t.LeavesTriggerOpen 1 t.nodes[1] := fun ⟨call, hcall, _⟩ => hnone call hcall
  have hconfirm₁ : ¬ t.ConfirmsDirectly t.nodes[1] := fun ⟨call, hcall, _⟩ => hnone call hcall
  have hlanguage₁ : ¬ t.SetsLanguageDirectly t.nodes[1] := fun ⟨call, hcall, _⟩ => hnone call hcall
  rw [hmain.2, if_neg hall, hnodes]
  simp only [List.flatMap_cons, List.flatMap_nil, hchange, hconfirm₀, hlanguage₀, hchange₁,
    hconfirm₁, hlanguage₁, hchange₂, hquestion, hlanguage₂, if_true, if_false, List.append_nil]
  rfl

end Dispatcher
end TreeLint
