/-
# The rules of the linter fail only where a target is missing

A rule that comes with the linter needs to know which method a call resolves to,
and it fails if that is not known. This is the only way in which it can fail: it
looks at the guard on obsolete code first, what it looks up in a tree made from a
document is there, and the descriptor it reports is one it declares and the
catalog has. So the faults of an analysis can be read off the tree, call by call
and rule by rule (`faults_analyze_builtin`). The front end gives every call it
finds a target, so the analysis of a source text is free of faults.

Key definitions: `Tree.LacksTarget`, `Tree.HoldsLookups`, `Dispatcher.missingTargetFaults`.
Key theorems: `Rule.check_of_lacksTarget`, `Rule.check_of_not_lacksTarget`,
`Dispatcher.faults_analyze_builtin`, `Dispatcher.fails_only_on_missing_targets`.
-/
import TreeLint.Proofs.Nesting

namespace TreeLint

namespace Tree

/-- The node is a call in force of which it is not known what it resolves to. -/
structure LacksTarget (t : Tree) (n : Node) : Prop where
  kind_eq : n.kind = .invocationExpression
  inForce : t.InForce n
  invocation_eq : n.invocation = none

/-- What a check at the node at `i` looks up is there: the walk below the node meets only nodes of
the tree, the symbols that these refer to are symbols of the tree, and so are those on the way to the
object around the node. -/
structure HoldsLookups (t : Tree) (i : NodeId) (n : Node) : Prop where
  walks : t.Walks [i] (t.descendantsAndSelf i)
  symbols : ∀ m x s, t.node? m = some x → x.symbol = some s → ∃ y, t.symbol? s = some y
  object : ∀ s, n.containingSymbol = some s → t.FindsObject (some s) (t.containingObject? s)

variable {doc : Document} {t : Tree} {i : NodeId} {n : Node}

theorem holdsLookups_of_ofDocument (ht : ofDocument doc = .ok t) (hn : t.node? i = some n) :
    t.HoldsLookups i n where
  walks := by
    have ho := ordered_of_ofDocument ht
    have hi : i < t.nodes.length := (List.getElem?_eq_some_iff.mp hn).1
    rw [ho.descendantsAndSelf_eq hi]
    exact ho.walks_self hi
  symbols := by
    intro m x s hx hs
    obtain ⟨⟨-, hwf⟩, rfl, -⟩ := ofDocument_eq_ok_iff.mp ht
    exact ⟨_, List.getElem?_eq_getElem (hwf.symbol_lt m x s hx (Or.inl hs))⟩
  object := fun _ hs => findsObject_containingObject? ht (containingSymbol_lt ht hn hs)

end Tree

/-! ### How the checks end -/

namespace Rule

variable {rule : Rule} {c : RuleContext} {doc : Document}
  (hrule : rule ∈ Dispatcher.builtinRules) (ht : Tree.ofDocument doc = .ok c.tree)
  (hn : c.tree.node? c.nodeId = some c.node)

/-- A check of built-in calls ends with the missing target, with nothing, or as the check of the
call ends. -/
theorem onBuiltInCall_cases (check : Invocation → Outcome) :
    (c.isExempt = false ∧ c.node.invocation = none ∧ onBuiltInCall c check = noTarget c.nodeId) ∨
      onBuiltInCall c check = .nothing ∨ ∃ call, onBuiltInCall c check = check call := by
  unfold onBuiltInCall
  split
  · exact Or.inr (Or.inl rfl)
  · rename_i hexempt
    split
    · rename_i hnone
      exact Or.inl ⟨Bool.eq_false_of_not_eq_true hexempt, hnone, rfl⟩
    · rename_i call _
      split
      · exact Or.inr (Or.inr ⟨call, rfl⟩)
      · exact Or.inr (Or.inl rfl)

include ht hn in
theorem onBuiltInCall_of_lacksTarget (h : c.tree.LacksTarget c.node)
    (check : Invocation → Outcome) : onBuiltInCall c check = noTarget c.nodeId := by
  have hexempt : c.isExempt = false := (Tree.isExempt_eq_false_iff ht hn).mpr h.inForce
  simp [onBuiltInCall, hexempt, h.invocation_eq]

include hrule ht hn in
theorem check_of_lacksTarget (h : c.tree.LacksTarget c.node) :
    rule.check c = noTarget c.nodeId := by
  rcases List.mem_pair.mp hrule with rfl | rfl
  · exact onBuiltInCall_of_lacksTarget ht hn h _
  · exact onBuiltInCall_of_lacksTarget ht hn h _

/-- Whether a check found something or nothing, it did not fail. -/
def Answers (o : Outcome) : Prop := o = .nothing ∨ ∃ x, o = .found x

theorem answers_report (hcatalog : c.catalog = Catalog.builtin) {id text : String}
    (hid : id ∈ c.descriptors) (htext : (id, text) ∈ Catalog.ruleTexts) :
    Answers (c.report id []) :=
  Or.inr ⟨_, RuleContext.report_builtin hcatalog hid htext⟩

include hrule ht hn in
/-- **At any other call neither rule fails**: the descriptor that it reports is one it declares, and
the catalog has it. -/
theorem check_of_not_lacksTarget (hcatalog : c.catalog = Catalog.builtin)
    (hdescriptors : c.descriptors = rule.descriptors)
    (hkind : c.node.kind = .invocationExpression) (h : ¬ c.tree.LacksTarget c.node) :
    Answers (rule.check c) := by
  have hguard : ∀ check : Invocation → Outcome, (∀ call, Answers (check call)) →
      Answers (onBuiltInCall c check) := by
    intro check hcheck
    rcases onBuiltInCall_cases (c := c) check with ⟨hexempt, hnone, -⟩ | hnothing | ⟨call, hcall⟩
    · exact absurd ⟨hkind, (Tree.isExempt_eq_false_iff ht hn).mp hexempt, hnone⟩ h
    · exact Or.inl hnothing
    · exact hcall ▸ hcheck call
  rcases List.mem_pair.mp hrule with rfl | rfl
  · refine hguard _ fun call => ?_
    split
    · exact answers_report hcatalog (hdescriptors ▸ List.mem_cons_self) List.mem_cons_self
    · exact Or.inl rfl
  · refine hguard _ fun call => ?_
    split
    · exact Or.inl rfl
    · rename_i id helper hhelper
      split
      · exact Or.inl rfl
      · rcases helperFor?_eq_some_iff.mp hhelper with ⟨-, rfl, -⟩ | ⟨-, rfl, -⟩
        · exact answers_report hcatalog (hdescriptors ▸ by simp [helperCodeunit])
            (List.mem_cons_of_mem _ List.mem_cons_self)
        · exact answers_report hcatalog (hdescriptors ▸ by simp [helperCodeunit])
            (List.mem_cons_of_mem _ (List.mem_cons_of_mem _ List.mem_cons_self))

end Rule

/-! ### The faults of an analysis -/

namespace Dispatcher

/-- The fault of a rule at a call without a target. -/
def missingTargetFault (t : Tree) (i : NodeId) (n : Node) (rule : Rule) : Fault :=
  ⟨rule.ruleId, t.path, n.span, s!"invocation #{i} has no resolved target"⟩

open Classical in
/-- The faults at a node: at a call without a target one for each rule that has an enabled
descriptor, in the order of registration. -/
noncomputable def missingTargetFaults (d : Dispatcher) (t : Tree) (x : Node × NodeId) : List Fault :=
  if t.LacksTarget x.1 then (builtinRules.filter d.isEnabled).map (missingTargetFault t x.2 x.1)
  else []

theorem noTarget_eq (i : NodeId) :
    Rule.noTarget i = .failed [s!"invocation #{i} has no resolved target"] := by
  have hjoin : "invocation " ++ ("#" ++ toString i) = "invocation #" ++ toString i := by
    rw [← String.append_assoc]
    rfl
  simp only [Rule.noTarget, NodeId.display, toString] at hjoin ⊢
  rw [hjoin]

end Dispatcher

namespace Setup

variable {s : Setup} {doc : Document} {t : Tree} {i : NodeId} {n : Node} {rule : Rule}
  (hcatalog : s.catalog = Catalog.builtin) (ht : Tree.ofDocument doc = .ok t)
  (hn : t.node? i = some n) (hrule : rule ∈ Dispatcher.builtinRules)

theorem applies_eq {n : Node} (hrule : rule ∈ Dispatcher.builtinRules) :
    s.applies n rule = (n.kind == .invocationExpression &&
      rule.descriptors.any fun id => (s.severity? id).isSome) := by
  have hkinds : rule.kinds = [.invocationExpression] := by
    rcases List.mem_pair.mp hrule with rfl | rfl <;> rfl
  rw [applies, hkinds, List.contains_cons, List.contains_nil, Bool.or_false]

open Classical in
include hcatalog ht hn hrule in
theorem faults_adds_builtin :
    (s.adds t i n rule).2 =
      if t.LacksTarget n then
        if rule.descriptors.any fun id => (s.severity? id).isSome then
          [Dispatcher.missingTargetFault t i n rule]
        else []
      else [] := by
  let c : RuleContext := ⟨t, i, n, s.catalog, rule.ruleId, rule.descriptors⟩
  rw [adds, applies_eq hrule]
  by_cases hlacks : t.LacksTarget n
  · have hcheck := Rule.check_of_lacksTarget (c := c) hrule ht hn hlacks
    rw [if_pos hlacks, hlacks.kind_eq, beq_self_eq_true, Bool.true_and]
    split
    · rw [run, hcheck, Dispatcher.noTarget_eq]
      rfl
    · rfl
  · rw [if_neg hlacks]
    split
    · rename_i happlies
      rw [Bool.and_eq_true, beq_iff_eq] at happlies
      have hkind : n.kind = .invocationExpression := happlies.1
      rcases Rule.check_of_not_lacksTarget (c := c) hrule ht hn hcatalog rfl hkind hlacks with
        hnothing | ⟨x, hfound⟩
      · rw [run, hnothing]
        rfl
      · rw [run, hfound]
        rfl
    · rfl

end Setup

namespace Dispatcher

variable {config : Config} {d : Dispatcher} {doc : Document} {t : Tree}

/-- **The faults of an analysis are those of the calls without a target**, node after node. -/
theorem faults_analyze_builtin (hd : builtinUnder config = .ok d)
    (ht : Tree.ofDocument doc = .ok t) (hpath : d.isExcluded t.path = false) :
    (d.analyze t).faults = t.nodes.zipIdx.flatMap (d.missingTargetFaults t) := by
  classical
  have hrep := represents_builtinUnder hd
  rw [faults_analyze, hpath, if_neg Bool.false_ne_true, visitAll_eq_merge, Findings.empty_merge,
    Findings.visiting]
  refine List.flatMap_congr fun x hx => ?_
  have hn : t.node? x.2 = some x.1 := List.mk_mem_zipIdx_iff_getElem?.mp hx
  have hadds : ∀ rule ∈ builtinRules, ((Setup.builtin config).adds t x.2 x.1 rule).2 =
      if t.LacksTarget x.1 then
        if d.isEnabled rule then [missingTargetFault t x.2 x.1 rule] else []
      else [] := by
    intro rule hrule
    rw [hrep.isEnabled_eq]
    exact Setup.faults_adds_builtin (Setup.catalog_builtin config) ht hn hrule
  rw [hrep.faultsAt_eq, Setup.flatMap_plainVisit _ _ _ _ _ rfl, Setup.rules_builtin,
    List.flatMap_congr hadds, missingTargetFaults]
  split
  · simp only [builtinRules, List.flatMap_cons, List.flatMap_nil, List.append_nil]
    cases hfirst : d.isEnabled Rule.runTrigger <;> cases hsecond : d.isEnabled Rule.helperCodeunit <;>
      simp [hfirst, hsecond]
  · exact List.flatMap_eq_nil_iff.mpr fun _ _ => rfl

theorem faults_analyze_resolve (hd : builtinUnder config = .ok d) {path source : String}
    (ht : Source.resolve path source = .ok t) : (d.analyze t).faults = [] := by
  obtain ⟨doc, objects, hdoc, -, hnodes, -, hfits⟩ := Source.exists_nested_of_resolve ht
  cases hpath : d.isExcluded t.path with
  | true => rw [analyze_of_isExcluded hpath, Findings.empty]
  | false =>
    rw [faults_analyze_builtin hd hdoc hpath, List.flatMap_eq_nil_iff]
    intro x hx
    have hn : t.node? x.2 = some x.1 := List.mk_mem_zipIdx_iff_getElem?.mp hx
    obtain ⟨p, e, b, hat, hnode⟩ := Source.Outline.exists_at_of_node? hnodes hn
    rw [missingTargetFaults, if_neg]
    intro hlacks
    have hcall : e.kind = .invocationExpression := by
      rw [← hlacks.kind_eq, hnode]
      rfl
    have hnone : e.target = none := by
      have hinvocation := hlacks.invocation_eq
      rw [hnode] at hinvocation
      exact Option.map_eq_none_iff.mp hinvocation
    have htarget := (hfits.of_at hat).target.mp hcall
    rw [hnone] at htarget
    cases htarget

/-- **The rules fail only where a target is missing.** Under any configuration, in any tree made
from a document: the faults of the analysis, unless the tree is left out, are those of the calls in
force without a target, in document order, one for each rule with an enabled descriptor; a check
fails at such calls only, with that message, and never breaks off, and all that it looks up is
there. So the analysis of a source text has no faults. -/
theorem fails_only_on_missing_targets (hd : builtinUnder config = .ok d) :
    (∀ doc t, Tree.ofDocument doc = .ok t →
      (d.isExcluded t.path = false →
        (d.analyze t).faults = t.nodes.zipIdx.flatMap (d.missingTargetFaults t)) ∧
      ∀ i n, t.node? i = some n → t.HoldsLookups i n ∧
        ∀ rule ∈ builtinRules, n.kind ∈ rule.kinds →
          (∀ chain, rule.check (d.contextOf t i n rule) = .failed chain ↔
            t.LacksTarget n ∧ chain = [s!"invocation #{i} has no resolved target"]) ∧
          ∀ text, rule.check (d.contextOf t i n rule) ≠ .brokeOff text) ∧
    ∀ path source t, Source.resolve path source = .ok t → (d.analyze t).faults = [] := by
  refine ⟨fun doc t ht => ⟨faults_analyze_builtin hd ht, ?_⟩,
    fun path source t ht => faults_analyze_resolve hd ht⟩
  intro i n hn
  refine ⟨Tree.holdsLookups_of_ofDocument ht hn, ?_⟩
  intro rule hrule hkind
  have hcatalog : d.catalog = Catalog.builtin := by
    rw [(represents_builtinUnder hd).catalog_eq, Setup.catalog_builtin]
  have hcall : n.kind = .invocationExpression := by
    rcases List.mem_pair.mp hrule with rfl | rfl
    · exact List.mem_singleton.mp hkind
    · exact List.mem_singleton.mp hkind
  by_cases hlacks : t.LacksTarget n
  · have hcheck : rule.check (d.contextOf t i n rule) =
        .failed [s!"invocation #{i} has no resolved target"] := by
      rw [← noTarget_eq]
      exact Rule.check_of_lacksTarget (c := d.contextOf t i n rule) hrule ht hn hlacks
    rw [hcheck]
    refine ⟨fun chain => ?_, fun text => nofun⟩
    simp [hlacks, eq_comm]
  · have hanswers := Rule.check_of_not_lacksTarget (c := d.contextOf t i n rule) hrule ht hn hcatalog
      rfl hcall hlacks
    rcases hanswers with hnothing | ⟨x, hfound⟩
    · rw [hnothing]
      exact ⟨fun chain => by simp [hlacks], fun text => nofun⟩
    · rw [hfound]
      exact ⟨fun chain => by simp [hlacks], fun text => nofun⟩

/-- A codeunit with one call whose target is not known and one whose target is. -/
def halfResolvedDocument : Document where
  path := "a.al"
  symbols := [{ kind := .codeunit, name := "C" }]
  nodes := [
    { kind := .invocationExpression, span := ⟨0, 3, 1, 1, 1, 4⟩, containingSymbol := some 0 },
    { kind := .invocationExpression, span := ⟨4, 7, 1, 5, 1, 8⟩, containingSymbol := some 0,
      invocation := some ⟨⟨"P", .method⟩, []⟩ }]

/-- Both rules fail at the first call and neither at the second. -/
theorem fails_halfResolved : ∃ d t, builtinUnder {} = .ok d ∧
    Tree.ofDocument halfResolvedDocument = .ok t ∧ d.isExcluded t.path = false ∧
    (d.analyze t).faults =
      [⟨"ExplicitlySetRunTrigger", "a.al", ⟨0, 3, 1, 1, 1, 4⟩,
        "invocation #0 has no resolved target"⟩,
      ⟨"BuiltInMethodImplementThroughCodeunit", "a.al", ⟨0, 3, 1, 1, 1, 4⟩,
        "invocation #0 has no resolved target"⟩] := by
  obtain ⟨d, hd⟩ := @exists_builtinUnder {} [] rfl
  let t : Tree := ⟨halfResolvedDocument, [[], []]⟩
  have ht : Tree.ofDocument halfResolvedDocument = .ok t := rfl
  have hpath := isExcluded_builtinUnder_default hd t.path
  have hfaults := ((fails_only_on_missing_targets hd).1 _ t ht).1 hpath
  have hlacks : t.LacksTarget t.nodes[0] :=
    ⟨rfl, (Tree.isExempt_eq_false_iff (i := 0) ht rfl).mp (by decide), rfl⟩
  have hresolved : ¬ t.LacksTarget t.nodes[1] := fun h => Option.some_ne_none _ h.invocation_eq
  have henabled : ∀ rule ∈ builtinRules, d.isEnabled rule = true := by
    intro rule hrule
    rw [(represents_builtinUnder hd).isEnabled_eq]
    rcases List.mem_pair.mp hrule with rfl | rfl
    · exact List.any_eq_true.mpr ⟨"LC0040", List.mem_cons_self, by
        rw [Setup.severity?_builtin_default List.mem_cons_self]; rfl⟩
    · exact List.any_eq_true.mpr ⟨"LC0021", List.mem_cons_self, by
        rw [Setup.severity?_builtin_default (by simp)]; rfl⟩
  refine ⟨d, t, hd, ht, hpath, hfaults.trans ?_⟩
  have hnodes : t.nodes.zipIdx = [(t.nodes[0], 0), (t.nodes[1], 1)] := rfl
  rw [hnodes, List.flatMap_cons, List.flatMap_cons, List.flatMap_nil, missingTargetFaults,
    missingTargetFaults, if_pos hlacks, if_neg hresolved, List.filter_eq_self.mpr henabled]
  simp only [builtinRules, List.map_cons, List.map_nil, missingTargetFault, List.append_nil]
  rfl

end Dispatcher
end TreeLint
