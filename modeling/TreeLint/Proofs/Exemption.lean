/-
# Obsolete code is exempt

Before anything else a rule that comes with the linter looks at two symbols: the
one that contains the code and the nearest object around it. If either is pending
removal or removed, a visit of the node counts it and does nothing more, so
whatever an analysis gives comes from code in force (`obsolete_code_exempt`).

Nothing between the two symbols, or around the object, is looked at: a call in
the trigger of an obsolete field is reported if the table is not obsolete itself
(`pending_field_reported`).

Key definitions: `Tree.InsideObsolete`.
Key theorems: `Dispatcher.visit_of_not_inForce`, `Dispatcher.obsolete_code_exempt`,
`Dispatcher.pending_field_reported`.
-/
import TreeLint.Proofs.BuiltinRules

namespace TreeLint

/-- The code of a node stands in an obsolete symbol at some depth: the symbol that contains it, or
one that is reached from that by going from each symbol to the one it is declared in. -/
def Tree.InsideObsolete (t : Tree) (n : Node) : Prop :=
  ∃ s o, n.containingSymbol = some s ∧ Relation.ReflTransGen t.ContainedIn s o ∧ t.Obsolete o

/-! ### Where diagnostics and faults are -/

theorem RuleContext.place_of_report {c : RuleContext} {id : String} {args : List String}
    {x : Diagnostic} (h : c.report id args = .found x) :
    x.file = c.tree.path ∧ x.span = c.node.span := by
  unfold report diagnostic diagnosticAt at h
  split at h
  · rename_i y hy
    split at hy
    · split at hy
      · cases hy
        cases h
        exact ⟨rfl, rfl⟩
      · cases hy
    · cases hy
  · cases h

namespace Rule

variable {rule : Rule} {c : RuleContext} {x : Diagnostic}

theorem exists_of_onBuiltInCall_eq_found {check : Invocation → Outcome}
    (h : onBuiltInCall c check = .found x) : ∃ call, check call = .found x := by
  unfold onBuiltInCall at h
  split at h
  · cases h
  · split at h
    · cases h
    · split at h
      · exact ⟨_, h⟩
      · cases h

/-- The rules that come with the linter report at the node they look at. -/
theorem place_of_check (hrule : rule ∈ Dispatcher.builtinRules) (h : rule.check c = .found x) :
    x.file = c.tree.path ∧ x.span = c.node.span := by
  rcases List.mem_pair.mp hrule with rfl | rfl
  · obtain ⟨call, hcall⟩ := exists_of_onBuiltInCall_eq_found h
    split at hcall
    · exact RuleContext.place_of_report hcall
    · cases hcall
  · obtain ⟨call, hcall⟩ := exists_of_onBuiltInCall_eq_found h
    split at hcall
    · cases hcall
    · split at hcall
      · cases hcall
      · exact RuleContext.place_of_report hcall

theorem check_of_not_inForce {doc : Document} (hrule : rule ∈ Dispatcher.builtinRules)
    (ht : Tree.ofDocument doc = .ok c.tree) (hn : c.tree.node? c.nodeId = some c.node)
    (h : ¬ c.tree.InForce c.node) : rule.check c = .nothing := by
  rcases List.mem_pair.mp hrule with rfl | rfl
  · exact onBuiltInCall_of_not_inForce ht hn h _
  · exact onBuiltInCall_of_not_inForce ht hn h _

end Rule

namespace Setup

variable {s : Setup} {rule : Rule} {doc : Document} {t : Tree} {i : NodeId} {n : Node}

theorem adds_of_not_inForce (hrule : rule ∈ Dispatcher.builtinRules)
    (ht : Tree.ofDocument doc = .ok t) (hn : t.node? i = some n) (h : ¬ t.InForce n) :
    s.adds t i n rule = ([], []) := by
  unfold adds
  split
  · rw [run, @Rule.check_of_not_inForce rule ⟨t, i, n, _, _, _⟩ doc hrule ht hn h]
    rfl
  · rfl

theorem place_of_mem_faults_adds {fault : Fault} (h : fault ∈ (s.adds t i n rule).2) :
    fault.file = t.path ∧ fault.span = n.span := by
  unfold adds run recorded at h
  split at h
  · split at h <;> simp_all
  · simp at h

theorem place_of_mem_diagnostics_adds (hrule : rule ∈ Dispatcher.builtinRules) {x : Diagnostic}
    (h : x ∈ (s.adds t i n rule).1) : x.file = t.path ∧ x.span = n.span := by
  unfold adds run at h
  split at h
  · cases hcheck : rule.check ⟨t, i, n, s.catalog, rule.ruleId, rule.descriptors⟩ with
    | nothing => simp [hcheck, recorded] at h
    | found y =>
      have hy := Rule.place_of_check hrule hcheck
      rw [hcheck, recorded, kept] at h
      split at h
      · rw [List.mem_singleton] at h
        subst h
        exact hy
      · cases h
    | failed chain =>
      simp only [hcheck, recorded, aboutFault_eq, List.mem_map] at h
      obtain ⟨_, -, rfl⟩ := h
      exact ⟨rfl, rfl⟩
    | brokeOff text =>
      simp only [hcheck, recorded, aboutFault_eq, List.mem_map] at h
      obtain ⟨_, -, rfl⟩ := h
      exact ⟨rfl, rfl⟩
  · cases h

end Setup

namespace Dispatcher

variable {config : Config} {d : Dispatcher} {doc : Document} {t : Tree} {i : NodeId} {n : Node}

section

variable (hd : builtinUnder config = .ok d)
include hd

/-- **A visit of code that is not in force only counts the node.** -/
theorem visit_of_not_inForce (ht : Tree.ofDocument doc = .ok t) (hn : t.node? i = some n)
    (h : ¬ t.InForce n) (f : Findings) :
    d.visit t i n f = { f with nodesVisited := f.nodesVisited + 1 } := by
  have hadds : ∀ rule ∈ (Setup.builtin config).rules,
      (Setup.builtin config).adds t i n rule = ([], []) :=
    fun rule hrule => Setup.adds_of_not_inForce hrule ht hn h
  have hdiagnostics := List.flatMap_eq_nil_iff.mpr fun rule hrule =>
    congrArg Prod.fst (hadds rule hrule)
  have hfaults := List.flatMap_eq_nil_iff.mpr fun rule hrule => congrArg Prod.snd (hadds rule hrule)
  rw [(represents_builtinUnder hd).visit_eq, hdiagnostics, hfaults]
  simp [Findings.merge, Findings.visiting]

theorem place_of_mem_diagnostics_visit {x : Diagnostic}
    (hx : x ∈ (d.visit t i n .empty).diagnostics) : x.file = t.path ∧ x.span = n.span := by
  rw [(represents_builtinUnder hd).visit_eq, Findings.empty_merge] at hx
  obtain ⟨rule, hrule, hx⟩ := List.mem_flatMap.mp hx
  exact Setup.place_of_mem_diagnostics_adds hrule hx

theorem place_of_mem_faults_visit {fault : Fault}
    (hfault : fault ∈ (d.visit t i n .empty).faults) :
    fault.file = t.path ∧ fault.span = n.span := by
  rw [(represents_builtinUnder hd).visit_eq, Findings.empty_merge] at hfault
  obtain ⟨rule, -, hfault⟩ := List.mem_flatMap.mp hfault
  exact Setup.place_of_mem_faults_adds hfault

end

theorem isNodeExempt_iff (ht : Tree.ofDocument doc = .ok t) (hn : t.node? i = some n) :
    t.isNodeExempt i = true ↔
      (∃ s, n.containingSymbol = some s ∧ t.Obsolete s) ∨ ∃ o, t.EnclosedBy n o ∧ t.Obsolete o := by
  rw [Tree.isNodeExempt, hn, Option.bind_some, ← Bool.not_eq_false, Tree.isExempt_eq_false_iff ht hn,
    Tree.InForce, not_and_or]
  simp only [not_forall, not_not, exists_prop]

/-- **Obsolete code is exempt.** Under any configuration, in any tree made from a document: the
guard holds for a node exactly if the symbol that contains its code or the nearest object around it
is obsolete, whatever is between the two or around the object. Then a visit of the node gives
neither a diagnostic nor a fault. So every diagnostic of an analysis, suppressed or not, and every
fault comes from a visit of a node in force and is at that node. -/
theorem obsolete_code_exempt (hd : builtinUnder config = .ok d) (ht : Tree.ofDocument doc = .ok t) :
    (∀ i n, t.node? i = some n →
      (t.isNodeExempt i = true ↔ (∃ s, n.containingSymbol = some s ∧ t.Obsolete s) ∨
        ∃ o, t.EnclosedBy n o ∧ t.Obsolete o) ∧
      (t.isNodeExempt i = true →
        ∀ f, d.visit t i n f = { f with nodesVisited := f.nodesVisited + 1 })) ∧
    (∀ x ∈ (d.analyze t).raised, ∃ i n, t.node? i = some n ∧ t.InForce n ∧
      x ∈ (d.visit t i n .empty).diagnostics ∧ x.file = t.path ∧ x.span = n.span) ∧
    ∀ fault ∈ (d.analyze t).faults, ∃ i n, t.node? i = some n ∧ t.InForce n ∧
      fault ∈ (d.visit t i n .empty).faults ∧ fault.file = t.path ∧ fault.span = n.span := by
  refine ⟨?_, ?_, ?_⟩
  · intro i n hn
    refine ⟨isNodeExempt_iff ht hn, fun hexempt => visit_of_not_inForce hd ht hn ?_⟩
    rw [Tree.isNodeExempt, hn, Option.bind_some] at hexempt
    rw [← Tree.isExempt_eq_false_iff ht hn, hexempt]
    exact Bool.noConfusion
  · intro x hx
    obtain ⟨i, n, hn, hx⟩ := (d.mem_diagnostics_visitAll t).mp (mem_raised_analyze.mp hx).2
    refine ⟨i, n, hn, ?_, hx, place_of_mem_diagnostics_visit hd hx⟩
    by_contra hnot
    rw [visit_of_not_inForce hd ht hn hnot] at hx
    cases hx
  · intro fault hfault
    have hmem : fault ∈ (d.visitAll t .empty).faults := by
      rw [faults_analyze] at hfault
      split at hfault
      · cases hfault
      · exact hfault
    obtain ⟨i, n, hn, hmem⟩ := (d.mem_faults_visitAll t).mp hmem
    refine ⟨i, n, hn, ?_, hmem, place_of_mem_faults_visit hd hmem⟩
    by_contra hnot
    rw [visit_of_not_inForce hd ht hn hnot] at hmem
    cases hmem

/-- A table with a field, the trigger of the field, and in it a change of a record that leaves open
whether triggers run. The table and the field may be obsolete. -/
def changeInFieldTrigger (table field : ObsoleteState) : Document where
  path := "a.al"
  symbols := [{ kind := .table, name := "T", obsolete := table },
    { kind := .field, name := "F", obsolete := field, containing := some 0 },
    { kind := .trigger, name := "OnValidate", containing := some 1 },
    { kind := .localVariable, name := "Cust", containing := some 2,
      declaredType := some { kind := .record } }]
  nodes := [
    { kind := .invocationExpression, span := ⟨0, 13, 1, 1, 1, 14⟩, containingSymbol := some 2,
      invocation := some ⟨⟨"Modify", .builtInMethod⟩, []⟩ },
    { kind := .localReference, span := ⟨0, 4, 1, 1, 1, 5⟩, parent := some 0, symbol := some 3,
      containingSymbol := some 2 }]

/-- In an obsolete table the change is exempt. -/
theorem exempt_in_removed_table : ∃ d t n, builtinUnder {} = .ok d ∧
    Tree.ofDocument (changeInFieldTrigger .removed .current) = .ok t ∧ t.node? 0 = some n ∧
    (∃ o, t.EnclosedBy n o ∧ t.Obsolete o) ∧ t.isNodeExempt 0 = true ∧
    ∀ f, d.visit t 0 n f = { f with nodesVisited := f.nodesVisited + 1 } := by
  obtain ⟨d, hd⟩ := @exists_builtinUnder {} [] rfl
  let t : Tree := ⟨changeInFieldTrigger .removed .current, [[1], []]⟩
  have ht : Tree.ofDocument (changeInFieldTrigger .removed .current) = .ok t := rfl
  have hobsolete : ∃ o, t.EnclosedBy t.nodes[0] o ∧ t.Obsolete o :=
    ⟨0, (Tree.bind_containingObject?_eq_some_iff (i := 0) ht rfl).mp (by decide),
      Tree.isObsolete_eq_true_iff.mp (by decide)⟩
  obtain ⟨hguard, hvisit⟩ := (obsolete_code_exempt hd ht).1 0 _ rfl
  have hexempt := hguard.mpr (Or.inr hobsolete)
  exact ⟨d, t, _, hd, ht, rfl, hobsolete, hexempt, hvisit hexempt⟩

/-- **An obsolete field does not exempt its trigger.** The change stands in the field, which is
pending removal, and is reported: the trigger is not obsolete, nor is the table. -/
theorem pending_field_reported : ∃ d t n, builtinUnder {} = .ok d ∧
    Tree.ofDocument (changeInFieldTrigger .current .pending) = .ok t ∧ t.node? 0 = some n ∧
    t.InsideObsolete n ∧
    ⟨"LC0040", .info, "a.al", n.span, Catalog.runTriggerText⟩ ∈
      (d.visit t 0 n .empty).diagnostics := by
  obtain ⟨d, hd⟩ := @exists_builtinUnder {} [] rfl
  let t : Tree := ⟨changeInFieldTrigger .current .pending, [[1], []]⟩
  have ht : Tree.ofDocument (changeInFieldTrigger .current .pending) = .ok t := rfl
  have hinside : t.InsideObsolete t.nodes[0] :=
    ⟨2, 1, rfl, .single rfl, Tree.isObsolete_eq_true_iff.mp (by decide)⟩
  have hchange : t.LeavesTriggerOpen 0 t.nodes[0] :=
    ⟨_, ⟨rfl, (Tree.isExempt_eq_false_iff (i := 0) ht rfl).mp (by decide), rfl, rfl⟩, by decide,
      (Tree.refersToRecord_eq_true_iff ht (by decide)).mp (by decide),
      (Invocation.any_binds_eq_false_iff _ (Rule.isPlain_of_mem (by simp))).mp (by decide)⟩
  refine ⟨d, t, t.nodes[0], hd, ht, rfl, hinside, ?_⟩
  rw [mem_visit_runTrigger_iff hd ht rfl rfl, Setup.reportAt,
    Setup.severity?_builtin_default List.mem_cons_self]
  exact ⟨hchange, List.mem_cons_self⟩

end Dispatcher
end TreeLint
