/-
# A rule that fails does not disturb the others

Two dispatchers are set up by the same calls, except that one of them registers
one more rule somewhere on the way. If that rule finds nothing in a tree, whatever
fails, the two analyses of the tree differ in its failures only: there is one
fault for each node where the rule ran and failed, and one diagnostic about each
such fault if those are enabled. All else is the same and in the same order.

The argument has three parts. The extra registration puts the rule somewhere
among the others and every later call keeps it there (`Setup.Inserts.foldl_after`).
What the rules add is put together node by node and rule by rule, so one more rule
puts its own part in between (`Setup.added`). Directives look at each diagnostic
by itself, so they split what was put in between as they would by itself.

Key definitions: `Setup.Inserts`, `Setup.added`, `Dispatcher.failure?`,
`Findings.AddsFailures`.
Key theorems: `Setup.Inserts.after`, `Setup.added_insert_perm`,
`Dispatcher.failing_rule_isolated`.
-/
import Mathlib.Data.List.Perm.Basic
import TreeLint.Proofs.Dispatch

namespace TreeLint

/-! ### One more rule -/

namespace Setup

/-- The second setup is the first with one more rule, somewhere among the others. -/
def Inserts (rule : Rule) (s s' : Setup) : Prop :=
  ∃ before after, s.rules = before ++ after ∧ s' = { s with rules := before ++ rule :: after }

variable {r : Rule} {s s' : Setup}

theorem Inserts.accepts_eq (h : Inserts r s s') (rule : Rule) :
    s'.accepts rule = (s.accepts rule && r.ruleId != rule.ruleId) := by
  obtain ⟨before, after, hrules, rfl⟩ := h
  simp only [accepts, hrules, List.all_append, List.all_cons]
  ac_rfl

theorem rules_subset_after (s : Setup) (c : SetupCall) : s.rules ⊆ (s.after c).rules := by
  cases c with
  | register rule =>
    simp only [after]
    split
    · exact List.subset_append_left _ _
    · exact List.Subset.refl _
  | configure config => exact List.Subset.refl _

theorem rules_subset_foldl_after (calls : List SetupCall) (s : Setup) :
    s.rules ⊆ (calls.foldl after s).rules := by
  induction calls generalizing s with
  | nil => exact List.Subset.refl _
  | cons c calls ih => exact List.Subset.trans (s.rules_subset_after c) (ih _)

theorem catalog_foldl_after (calls : List SetupCall) (s : Setup) :
    (calls.foldl after s).catalog = s.catalog := by
  induction calls generalizing s with
  | nil => rfl
  | cons c calls ih =>
    rw [List.foldl_cons, ih]
    cases c with
    | register rule => simp only [after, apply_ite Setup.catalog, ite_self]
    | configure config => rfl

/-- **A call keeps the additional rule where it is**, if no rule that it registers has its id. -/
theorem Inserts.after (h : Inserts r s s') (c : SetupCall)
    (hfresh : ∀ rule ∈ (s.after c).rules, rule.ruleId ≠ r.ruleId) :
    Inserts r (s.after c) (s'.after c) := by
  have haccepts := h.accepts_eq
  obtain ⟨before, after, hrules, rfl⟩ := h
  cases c with
  | configure config => exact ⟨before, after, hrules, rfl⟩
  | register rule =>
    simp only [Setup.after] at hfresh ⊢
    rw [haccepts rule]
    cases hok : s.accepts rule with
    | false => exact ⟨before, after, hrules, rfl⟩
    | true =>
      have hne : (r.ruleId != rule.ruleId) = true := by
        rw [hok, if_pos rfl] at hfresh
        exact bne_iff_ne.mpr (hfresh rule (by simp)).symm
      rw [hne, Bool.and_true, if_pos rfl, if_pos rfl]
      exact ⟨before, after ++ [rule], by simp [hrules], by simp⟩

theorem Inserts.foldl_after (h : Inserts r s s') {calls : List SetupCall}
    (hfresh : ∀ rule ∈ (calls.foldl Setup.after s).rules, rule.ruleId ≠ r.ruleId) :
    Inserts r (calls.foldl Setup.after s) (calls.foldl Setup.after s') := by
  induction calls generalizing s s' with
  | nil => exact h
  | cons c calls ih =>
    refine ih (h.after c fun rule hrule => ?_) hfresh
    exact hfresh rule (rules_subset_foldl_after calls _ hrule)

theorem Inserts.register (h : s.accepts r = true) : Inserts r s (s.after (.register r)) :=
  ⟨s.rules, [], by simp, by simp [Setup.after, h]⟩

end Setup

namespace Dispatcher

theorem catalog_setUp {c : Catalog} (hc : c.Built) {calls : List SetupCall} {d : Dispatcher}
    (hd : (Dispatcher.new c).setUp calls = some d) : d.catalog = c :=
  ((Represents.new hc).setUp hd).catalog_eq.trans (Setup.catalog_foldl_after calls _)

/-! ### Documents left out -/

theorem exclusions_register {d d' : Dispatcher} {rule : Rule}
    (h : d.call (.register rule) = some d') : d'.exclusions = d.exclusions := by
  cases hr : d.register rule with
  | ok d₁ =>
    cases h.symm.trans (call_register_of_ok hr)
    rw [(register_eq_ok hr).2, written]
  | error e => cases h.symm.trans (call_register_of_error hr); rfl

variable {d₁ d₂ d₁' d₂' : Dispatcher}

theorem exclusions_call (h : d₁.exclusions = d₂.exclusions) {c : SetupCall}
    (h₁ : d₁.call c = some d₁') (h₂ : d₂.call c = some d₂') : d₁'.exclusions = d₂'.exclusions := by
  cases c with
  | register rule => rw [exclusions_register h₁, exclusions_register h₂, h]
  | configure config =>
    simp only [call, withConfig] at h₁ h₂
    cases he : config.exclusions with
    | error e => simp [he] at h₁
    | ok ms =>
      simp only [he, Option.some.injEq] at h₁ h₂
      rw [← h₁, ← h₂]

theorem exclusions_setUp (h : d₁.exclusions = d₂.exclusions) {calls : List SetupCall}
    (h₁ : d₁.setUp calls = some d₁') (h₂ : d₂.setUp calls = some d₂') :
    d₁'.exclusions = d₂'.exclusions := by
  induction calls generalizing d₁ d₂ with
  | nil =>
    cases h₁
    cases h₂
    exact h
  | cons c calls ih =>
    rw [setUp, List.foldlM_cons, Option.bind_eq_bind, Option.bind_eq_some_iff] at h₁ h₂
    obtain ⟨e₁, hcall₁, hrest₁⟩ := h₁
    obtain ⟨e₂, hcall₂, hrest₂⟩ := h₂
    exact ih (exclusions_call h hcall₁ hcall₂) hrest₁ hrest₂

theorem setUp_append (d : Dispatcher) (calls₁ calls₂ : List SetupCall) :
    d.setUp (calls₁ ++ calls₂) = (d.setUp calls₁).bind (·.setUp calls₂) := by
  rw [setUp, List.foldlM_append]
  rfl

/-! ### The failures of a rule -/

/-- The fault of a rule at a node: the rule ran there, as it names the kind of the node and has
something enabled, and its check failed. -/
def failure? (d : Dispatcher) (t : Tree) (rule : Rule) (x : Node × NodeId) : Option Fault :=
  if rule.kinds.contains x.1.kind && d.isEnabled rule then
    (faultMessage? (rule.check (d.contextOf t x.2 x.1 rule))).map fun message =>
      ⟨rule.ruleId, t.path, x.1.span, message⟩
  else none

/-- The faults of a rule in a tree: one for each node where it ran and failed. -/
def failures (d : Dispatcher) (t : Tree) (rule : Rule) : List Fault :=
  if d.isExcluded t.path then [] else t.nodes.zipIdx.filterMap (d.failure? t rule)

/-- The diagnostics about the faults of a rule in a tree: one for each fault, at its place, if such
diagnostics are enabled, and none if they are not. -/
def failureReports (d : Dispatcher) (t : Tree) (rule : Rule) : List Diagnostic :=
  (d.failures t rule).flatMap fun fault => (d.severityFor? "LC0000").toList.map fun severity =>
    ⟨"LC0000", severity, fault.file, fault.span, d.catalog.faultText fault⟩

theorem Represents.faults_adds {d : Dispatcher} {s : Setup} (h : d.Represents s) (t : Tree)
    (rule : Rule) (x : Node × NodeId) :
    (s.adds t x.2 x.1 rule).2 = (d.failure? t rule x).toList := by
  have hcontext : d.contextOf t x.2 x.1 rule =
      ⟨t, x.2, x.1, s.catalog, rule.ruleId, rule.descriptors⟩ := by
    rw [contextOf, h.catalog_eq]
  rw [failure?, h.isEnabled_eq, hcontext, Setup.adds, Setup.applies]
  split
  · rw [Setup.run]
    cases rule.check ⟨t, x.2, x.1, s.catalog, rule.ruleId, rule.descriptors⟩ with
    | nothing => rfl
    | found y => rfl
    | failed chain => rfl
    | brokeOff text => cases text <;> rfl
  · rfl

end Dispatcher

/-! ### What the rules add in a tree -/

namespace Setup

variable {s : Setup} {t : Tree} {r : Rule} {before after : List Rule}

/-- What rules add in a tree, node by node and rule by rule, diagnostics or faults. -/
def added (s : Setup) (t : Tree) {β : Type} (part : List Diagnostic × List Fault → List β)
    (rules : List Rule) : List β :=
  t.nodes.zipIdx.flatMap fun x => rules.flatMap fun rule => part (s.adds t x.2 x.1 rule)

section Part

variable {β : Type} {part : List Diagnostic × List Fault → List β}

/-- **One more rule puts its part in between.** -/
theorem added_insert_perm : (s.added t part (before ++ r :: after)).Perm
    (s.added t part (before ++ after) ++ s.added t part [r]) := by
  refine .trans (.flatMap_left _ fun x _ => ?_) (List.flatMap_append_perm _ _ _).symm
  simp only [List.flatMap_append, List.flatMap_cons, List.flatMap_nil, List.append_nil,
    List.append_assoc]
  exact List.perm_append_comm.append_left _

/-- What a filter drops from the part of the additional rule cannot be told from what is there
without that rule. -/
theorem filter_added_insert {p : β → Bool} (h : ∀ b ∈ s.added t part [r], p b = false) :
    (s.added t part (before ++ r :: after)).filter p =
      (s.added t part (before ++ after)).filter p := by
  rw [added, added, List.filter_flatMap, List.filter_flatMap]
  refine List.flatMap_congr fun x hx => ?_
  have hdropped : (part (s.adds t x.2 x.1 r)).filter p = [] := by
    rw [List.filter_eq_nil_iff]
    intro b hb
    rw [h b (List.mem_flatMap.mpr ⟨x, hx, by simpa using hb⟩)]
    exact Bool.false_ne_true
  simp only [List.flatMap_append, List.flatMap_cons, List.filter_append, hdropped, List.nil_append]

theorem filter_added {p : β → Bool} {keep : Rule → Bool} {rules : List Rule}
    (h : ∀ rule ∈ rules, ∀ x : Node × NodeId, ∀ b ∈ part (s.adds t x.2 x.1 rule), p b = keep rule) :
    (s.added t part rules).filter p = s.added t part (rules.filter keep) := by
  rw [added, added, List.filter_flatMap]
  refine List.flatMap_congr fun x _ => ?_
  induction rules with
  | nil => rfl
  | cons rule rules ih =>
    have hrule := h rule List.mem_cons_self x
    rw [List.flatMap_cons, List.filter_append, List.filter_cons,
      ih fun rule' hrule' => h rule' (List.mem_cons_of_mem _ hrule')]
    cases hkeep : keep rule with
    | true =>
      rw [List.filter_eq_self.mpr fun b hb => (hrule b hb).trans hkeep]
      simp
    | false =>
      rw [List.filter_eq_nil_iff.mpr fun b hb => by simp [hrule b hb, hkeep]]
      simp

theorem flatMap_plainLoop (s : Setup) (t : Tree) (hempty : part ([], []) = []) :
    (s.plainLoop t).flatMap part = s.added t part s.rules := by
  rw [plainLoop, List.flatMap_assoc]
  exact List.flatMap_congr fun x _ => s.flatMap_plainVisit t x.2 x.1 part hempty

end Part

/-- A rule that finds nothing adds the diagnostics about its faults, and only those. -/
theorem diagnostics_adds {i : NodeId} {n : Node} {rule : Rule}
    (h : ∀ x, rule.check ⟨t, i, n, s.catalog, rule.ruleId, rule.descriptors⟩ ≠ .found x) :
    (s.adds t i n rule).1 = (s.adds t i n rule).2.flatMap s.aboutFault := by
  rw [adds]
  split
  · rw [run]
    cases hcheck : rule.check ⟨t, i, n, s.catalog, rule.ruleId, rule.descriptors⟩ with
    | nothing => rfl
    | found x => exact absurd hcheck (h x)
    | failed chain => exact (List.append_nil _).symm
    | brokeOff text => exact (List.append_nil _).symm
  · rfl

end Setup

/-! ### Two analyses -/

namespace Findings

/-- The findings `g` are the findings `f` and the failures of one rule: its faults, the reported
diagnostics about them and the suppressed ones. -/
structure AddsFailures (f g : Findings) (ruleId : String) (failures : List Fault)
    (reports : List Diagnostic) (suppressions : List Suppressed) : Prop where
  diagnostics_eq : g.diagnostics.filter (·.id != "LC0000") = f.diagnostics.filter (·.id != "LC0000")
  suppressed_eq : g.suppressed.filter (·.diagnostic.id != "LC0000") =
    f.suppressed.filter (·.diagnostic.id != "LC0000")
  faults_of_others : g.faults.filter (·.ruleId != ruleId) = f.faults
  faults_of_rule : g.faults.filter (·.ruleId == ruleId) = failures
  diagnostics_perm : g.diagnostics.Perm (f.diagnostics ++ reports)
  suppressed_perm : g.suppressed.Perm (f.suppressed ++ suppressions)
  treesAnalyzed_eq : g.treesAnalyzed = f.treesAnalyzed
  nodesVisited_eq : g.nodesVisited = f.nodesVisited

variable {f g : Findings} {ruleId : String} {failures : List Fault} {reports : List Diagnostic}
  {suppressions : List Suppressed}

theorem filter_suppressions (t : Tree) (p : Diagnostic → Bool) (xs : List Diagnostic) :
    (xs.filterMap fun x => (t.disabling? x).map (Suppressed.mk x)).filter (p ·.diagnostic) =
      (xs.filter p).filterMap fun x => (t.disabling? x).map (Suppressed.mk x) := by
  induction xs with
  | nil => rfl
  | cons x xs ih =>
    cases hx : t.disabling? x <;> cases hp : p x <;> simp [hx, hp, ih]

theorem AddsFailures.finish (h : f.AddsFailures g ruleId failures reports suppressions) (t : Tree) :
    (Dispatcher.finish t f).AddsFailures (Dispatcher.finish t g) ruleId failures
      (reports.filter fun x => (t.disabling? x).isNone)
      (suppressions ++ reports.filterMap fun x => (t.disabling? x).map (Suppressed.mk x)) := by
  rw [Dispatcher.finish_eq_merge, Dispatcher.finish_eq_merge]
  simp only [merge, underDirectives, List.append_nil]
  refine ⟨?_, ?_, h.faults_of_others, h.faults_of_rule, ?_, ?_, ?_, ?_⟩
  · rw [List.filter_comm, h.diagnostics_eq, List.filter_comm]
  · rw [List.filter_append, List.filter_append, h.suppressed_eq,
      filter_suppressions t (·.id != "LC0000"), filter_suppressions t (·.id != "LC0000"),
      h.diagnostics_eq]
  · rw [← List.filter_append]
    exact h.diagnostics_perm.filter _
  · refine (h.suppressed_perm.append (h.diagnostics_perm.filterMap _)).trans ?_
    rw [List.filterMap_append, List.append_assoc, List.append_assoc]
    exact (List.perm_append_comm_assoc _ _ _).append_left _
  · rw [h.treesAnalyzed_eq]
  · rw [h.nodesVisited_eq]

end Findings

namespace Dispatcher

variable {d d' : Dispatcher} {s s' : Setup} {r : Rule} {t : Tree}

theorem Represents.visitAll_eq_added (h : d.Represents s) (t : Tree) :
    d.visitAll t .empty =
      .visiting (s.added t (·.1) s.rules) (s.added t (·.2) s.rules) t.nodes.length := by
  rw [h.visitAll_eq, s.flatMap_plainLoop t rfl, s.flatMap_plainLoop t rfl]
  rfl

theorem Represents.added_faults (h : d.Represents s) (ht : d.isExcluded t.path = false)
    (rule : Rule) : s.added t (·.2) [rule] = d.failures t rule := by
  rw [failures, ht, if_neg Bool.false_ne_true, Setup.added, List.filterMap_eq_flatMap_toList]
  refine List.flatMap_congr fun x _ => ?_
  rw [List.flatMap_cons, List.flatMap_nil, List.append_nil, h.faults_adds]

theorem Represents.ruleId_of_mem_adds (h : d.Represents s) {rule : Rule} {x : Node × NodeId}
    {fault : Fault} (hfault : fault ∈ (s.adds t x.2 x.1 rule).2) : fault.ruleId = rule.ruleId := by
  rw [h.faults_adds, Option.mem_toList, failure?] at hfault
  split at hfault
  · obtain ⟨message, -, rfl⟩ := Option.map_eq_some_iff.mp hfault
    rfl
  · cases hfault

/-- The diagnostics that a rule that finds nothing adds in a tree are those about its failures. -/
theorem Represents.added_diagnostics (h : d.Represents s) (ht : d.isExcluded t.path = false)
    {rule : Rule} (hfails : ∀ i n, t.node? i = some n →
      ∀ x, rule.check ⟨t, i, n, s.catalog, rule.ruleId, rule.descriptors⟩ ≠ .found x) :
    s.added t (·.1) [rule] = d.failureReports t rule := by
  have hreports : d.failureReports t rule = (d.failures t rule).flatMap s.aboutFault := by
    refine List.flatMap_congr fun fault _ => ?_
    rw [s.aboutFault_eq, h.severityFor?_eq, h.catalog_eq]
  rw [hreports, ← h.added_faults ht, Setup.added, Setup.added, List.flatMap_assoc]
  refine List.flatMap_congr fun x hx => ?_
  have hn : t.node? x.2 = some x.1 := List.mk_mem_zipIdx_iff_getElem?.mp hx
  simp only [List.flatMap_cons, List.flatMap_nil, List.append_nil]
  exact Setup.diagnostics_adds (hfails x.2 x.1 hn)

theorem id_of_mem_failureReports {x : Diagnostic} (hx : x ∈ d.failureReports t r) :
    x.id = "LC0000" := by
  obtain ⟨fault, -, hx⟩ := List.mem_flatMap.mp hx
  obtain ⟨severity, -, rfl⟩ := List.mem_map.mp hx
  rfl

/-- **One more rule that only fails.** Visiting the nodes with it adds its failures. -/
theorem Represents.addsFailures_visitAll (h : d.Represents s) (h' : d'.Represents s')
    (hinserts : Setup.Inserts r s s') (hfresh : ∀ rule ∈ s.rules, rule.ruleId ≠ r.ruleId)
    (ht : d'.isExcluded t.path = false)
    (hfails : ∀ i n, t.node? i = some n →
      ∀ x, r.check ⟨t, i, n, s'.catalog, r.ruleId, r.descriptors⟩ ≠ .found x) :
    (d.visitAll t .empty).AddsFailures (d'.visitAll t .empty) r.ruleId (d'.failures t r)
      (d'.failureReports t r) [] := by
  have hfaults := h'.added_faults ht r
  have hreports := h'.added_diagnostics ht hfails
  rw [h.visitAll_eq_added, h'.visitAll_eq_added]
  obtain ⟨before, after, hrules, rfl⟩ := hinserts
  -- what a rule adds depends on the catalog and the configuration, not on the other rules
  have hsame : ∀ {β : Type} (part : List Diagnostic × List Fault → List β) (rules : List Rule),
      ({ s with rules := before ++ r :: after } : Setup).added t part rules =
        s.added t part rules := fun _ _ => rfl
  rw [hsame] at hfaults hreports
  rw [hsame, hsame, hrules]
  rw [hrules] at hfresh
  have hothers : (before ++ r :: after).filter (·.ruleId != r.ruleId) = before ++ after := by
    have hkeep : (before ++ after).filter (·.ruleId != r.ruleId) = before ++ after :=
      List.filter_eq_self.mpr fun rule hrule => bne_iff_ne.mpr (hfresh rule hrule)
    rw [List.filter_append] at hkeep
    simp [hkeep]
  have hown : (before ++ r :: after).filter (·.ruleId == r.ruleId) = [r] := by
    have hdrop : (before ++ after).filter (·.ruleId == r.ruleId) = [] :=
      List.filter_eq_nil_iff.mpr fun rule hrule => by simpa using hfresh rule hrule
    rw [List.filter_append, List.append_eq_nil_iff] at hdrop
    simp [hdrop]
  refine ⟨?_, rfl, ?_, ?_, ?_, .refl _, rfl, rfl⟩
  · refine Setup.filter_added_insert fun x hx => ?_
    rw [hreports] at hx
    simp [id_of_mem_failureReports hx]
  · refine (Setup.filter_added fun rule _ x fault hfault => ?_).trans (congrArg _ hothers)
    rw [h.ruleId_of_mem_adds hfault]
  · refine (Setup.filter_added fun rule _ x fault hfault => ?_).trans
      ((congrArg _ hown).trans hfaults)
    rw [h.ruleId_of_mem_adds hfault]
  · rw [← hreports]
    exact Setup.added_insert_perm

theorem Represents.addsFailures_analyze (h : d.Represents s) (h' : d'.Represents s')
    (hinserts : Setup.Inserts r s s') (hfresh : ∀ rule ∈ s.rules, rule.ruleId ≠ r.ruleId)
    (hexclusions : d.exclusions = d'.exclusions)
    (hfails : ∀ i n, t.node? i = some n →
      ∀ x, r.check ⟨t, i, n, s'.catalog, r.ruleId, r.descriptors⟩ ≠ .found x) :
    (d.analyze t).AddsFailures (d'.analyze t) r.ruleId (d'.failures t r)
      ((d'.failureReports t r).filter fun x => (t.disabling? x).isNone)
      ((d'.failureReports t r).filterMap fun x => (t.disabling? x).map (Suppressed.mk x)) := by
  have hexcluded : d.isExcluded t.path = d'.isExcluded t.path := by
    rw [isExcluded, isExcluded, hexclusions]
  cases ht : d'.isExcluded t.path with
  | true =>
    have hnone : d'.failures t r = [] := by rw [failures, if_pos ht]
    rw [analyze_of_isExcluded ht, analyze_of_isExcluded (hexcluded.trans ht), failureReports, hnone]
    exact ⟨rfl, rfl, rfl, rfl, .refl _, .refl _, rfl, rfl⟩
  | false =>
    have hvisits := (h.addsFailures_visitAll h' hinserts hfresh ht hfails).finish t
    rw [List.nil_append] at hvisits
    rw [analyze, analyze, hexcluded, ht]
    exact hvisits

/-- The rule of a successful registration is put behind the others, and later calls keep it there:
the dispatcher with it exists if the one without it does, and leaves out the same documents. -/
theorem exists_setUp_insert {c : Catalog} (hc : c.Built) {calls₁ calls₂ : List SetupCall}
    (hd : (Dispatcher.new c).setUp (calls₁ ++ calls₂) = some d)
    (hfresh : ∀ rule ∈ d.rules, rule.ruleId ≠ r.ruleId)
    (hknown : ∀ id ∈ r.descriptors, c.contains id = true) :
    ∃ d' s s', (Dispatcher.new c).setUp (calls₁ ++ .register r :: calls₂) = some d' ∧
      d.Represents s ∧ d'.Represents s' ∧ s.catalog = c ∧ Setup.Inserts r s s' ∧
      d.exclusions = d'.exclusions := by
  obtain ⟨e, he, hrest⟩ := Option.bind_eq_some_iff.mp ((setUp_append _ _ _).symm.trans hd)
  have hrep : e.Represents (calls₁.foldl Setup.after ⟨c, {}, []⟩) := (Represents.new hc).setUp he
  have hrepd := hrep.setUp hrest
  rw [hrepd.rules_eq] at hfresh
  have hcatalog : (calls₁.foldl Setup.after ⟨c, {}, []⟩).catalog = c :=
    Setup.catalog_foldl_after calls₁ _
  have haccepts : (calls₁.foldl Setup.after ⟨c, {}, []⟩).accepts r = true := by
    rw [Setup.accepts, Bool.and_eq_true, List.all_eq_true, List.all_eq_true, hcatalog]
    refine ⟨fun rule hrule => ?_, fun id hid => ?_⟩
    · exact bne_iff_ne.mpr (hfresh rule (Setup.rules_subset_foldl_after calls₂ _ hrule))
    · rw [← hc.indexed.contains_eq]
      exact hknown id hid
  obtain ⟨e', he'⟩ := (hrep.register_eq_ok_iff r).mpr haccepts
  have hcall : e.call (.register r) = some e' := call_register_of_ok he'
  obtain ⟨d', hd'⟩ : ∃ d', e'.setUp calls₂ = some d' := by
    rw [← Option.ne_none_iff_exists', Ne, setUp_eq_none_iff, ← setUp_eq_none_iff e, hrest]
    exact Option.some_ne_none d
  refine ⟨d', _, _, ?_, hrepd, (hrep.call hcall).setUp hd',
    (Setup.catalog_foldl_after calls₂ _).trans hcatalog,
    (Setup.Inserts.register haccepts).foldl_after hfresh,
    exclusions_setUp (exclusions_register hcall).symm hrest hd'⟩
  rw [setUp_append, he, Option.bind_some, setUp, List.foldlM_cons, hcall]
  exact hd'

/-- **A rule that fails does not disturb the others.** Take any dispatcher, any tree and one more
rule with a new id and known descriptors whose check finds nothing in the tree: it answers nothing,
fails or breaks off. Registered anywhere among the calls that set the dispatcher up, it only adds
its failures to the analysis of the tree. The diagnostics that are not about faults are the same,
reported and suppressed, and so are the faults of all other rules, all in the same order, and what
is counted. The faults of the rule are one for each node where it ran and failed, and for each of
them there is one more diagnostic at the same place, reported or suppressed as the directives say,
if such diagnostics are enabled, and none if they are not. -/
theorem failing_rule_isolated {c : Catalog} (hc : c.Built) {calls₁ calls₂ : List SetupCall}
    (hd : (Dispatcher.new c).setUp (calls₁ ++ calls₂) = some d)
    (hfresh : ∀ rule ∈ d.rules, rule.ruleId ≠ r.ruleId)
    (hknown : ∀ id ∈ r.descriptors, c.contains id = true)
    (hfails : ∀ i n, t.node? i = some n →
      ∀ x, r.check ⟨t, i, n, c, r.ruleId, r.descriptors⟩ ≠ .found x) :
    ∃ d', (Dispatcher.new c).setUp (calls₁ ++ .register r :: calls₂) = some d' ∧
      (∃ before after, d.rules = before ++ after ∧ d'.rules = before ++ r :: after) ∧
      (d.analyze t).AddsFailures (d'.analyze t) r.ruleId (d'.failures t r)
        ((d'.failureReports t r).filter fun x => (t.disabling? x).isNone)
        ((d'.failureReports t r).filterMap fun x => (t.disabling? x).map (Suppressed.mk x)) := by
  obtain ⟨d', s, s', hd', h, h', rfl, hinserts, hexclusions⟩ :=
    exists_setUp_insert hc hd hfresh hknown
  obtain ⟨before, after, hrules, rfl⟩ := hinserts
  refine ⟨d', hd', ⟨before, after, h.rules_eq.trans hrules, h'.rules_eq⟩, ?_⟩
  rw [h.rules_eq] at hfresh
  exact h.addsFailures_analyze h' ⟨before, after, hrules, rfl⟩ hfresh hexclusions hfails

/-- A rule that breaks off at blocks. -/
def sampleBreaking : Rule := ⟨"Breaking", ["LC0000"], [.block], fun _ => .brokeOff (some "boom")⟩

/-- Two blocks, and between them a directive that disables everything. -/
def sampleBlocks : Tree where
  path := "a.al"
  source := some "x\n#pragma warning disable\ny"
  nodes := [{ kind := .block, span := ⟨0, 1, 1, 1, 1, 2⟩ },
    { kind := .block, span := ⟨26, 27, 3, 1, 3, 2⟩ }]
  children := [[], []]

/-- Registered after a rule that reports blocks and before a configuration, the rule adds one fault
for each block and one diagnostic about each, of which the second is suppressed. -/
theorem failing_rule_isolated_sampleBlocks : ∃ d d',
    (Dispatcher.new sampleCatalog).setUp (sampleCalls.take 2 ++ sampleCalls.drop 3) = some d ∧
    (Dispatcher.new sampleCatalog).setUp
      (sampleCalls.take 2 ++ .register sampleBreaking :: sampleCalls.drop 3) = some d' ∧
    (d.analyze sampleBlocks).AddsFailures (d'.analyze sampleBlocks) "Breaking"
      [⟨"Breaking", "a.al", ⟨0, 1, 1, 1, 1, 2⟩, "panicked: boom"⟩,
        ⟨"Breaking", "a.al", ⟨26, 27, 3, 1, 3, 2⟩, "panicked: boom"⟩]
      [⟨"LC0000", .info, "a.al", ⟨0, 1, 1, 1, 1, 2⟩, "m"⟩]
      [⟨⟨"LC0000", .info, "a.al", ⟨26, 27, 3, 1, 3, 2⟩, "m"⟩, ⟨.disable, [], 2, 2⟩⟩] := by
  have hcatalog : Catalog.ofDescriptors sampleCatalog.descriptors = .ok sampleCatalog := rfl
  let d := ((Dispatcher.new sampleCatalog).setUp (sampleCalls.take 2 ++ sampleCalls.drop 3)).get rfl
  have hd : (Dispatcher.new sampleCatalog).setUp (sampleCalls.take 2 ++ sampleCalls.drop 3) =
    some d := rfl
  have hfresh : ∀ rule ∈ d.rules, rule.ruleId ≠ sampleBreaking.ruleId := by
    intro rule hrule
    cases List.mem_singleton.mp hrule
    decide
  obtain ⟨d', hd', -, hadds⟩ := @failing_rule_isolated d sampleBreaking sampleBlocks _
    (.ofDescriptors hcatalog) _ _ hd hfresh (by decide) (fun i n _ x => by simp [sampleBreaking])
  refine ⟨d, d', hd, hd', ?_⟩
  cases hd'
  exact hadds

end Dispatcher
end TreeLint
