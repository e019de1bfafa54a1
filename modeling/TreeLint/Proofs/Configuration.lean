/-
# A configuration is a filter

Rules whose checks never fail and find only what they declare may run without
knowing the configuration: what is reported is what they find, at the severity in
force, less what is disabled (`Dispatcher.visitAll_eq_found`). What they find
depends on the rules and the tree alone, and whether a directive suppresses a
diagnostic does not depend on its severity. So an analysis under a configuration
is the analysis with every id enabled, with each diagnostic restated or dropped;
passing a rule over that has nothing enabled cannot be noticed; and the setting of
one id does not reach the diagnostics of another.

Key definitions: `Rule.FindsDeclared`, `Config.restate?`, `Dispatcher.found`,
`Dispatcher.analyzeUnskipped`.
Key theorems: `Config.lookup_settings`, `Dispatcher.visitAll_eq_found`,
`Dispatcher.diagnostics_analyze_eq`, `Dispatcher.analyze_restates`,
`Dispatcher.filter_analyze_congr`, `Dispatcher.config_acts_as_filter`.
-/
import TreeLint.Proofs.FaultIsolation
import TreeLint.Proofs.Registration

namespace TreeLint

/-! ### Settings -/

namespace Config

theorem lookup_insertSetting (id : String) (action : RuleAction) (k : String) :
    ∀ rules : List (String × RuleAction),
      (insertSetting id action rules).lookup k = if k = id then some action else rules.lookup k
  | [] => by
    rw [insertSetting, List.lookup_cons, List.lookup_nil]
    by_cases hk : k = id
    · simp [hk]
    · have hk' : (k == id) = false := by simpa using hk
      simp [hk, hk']
  | (k', a) :: rules => by
    have ih := lookup_insertSetting id action k rules
    unfold insertSetting
    by_cases hk : k = id
    · subst hk
      split
      · simp
      · rename_i hne
        have hne' : (k == k') = false := by simpa using hne
        split
        · simp
        · simpa [List.lookup_cons, hne'] using ih
    · have hk' : (k == id) = false := by simpa using hk
      rw [if_neg hk] at ih ⊢
      split
      · rename_i heq
        simp [List.lookup_cons, hk', ← heq]
      · split
        · simp [List.lookup_cons, hk']
        · rw [List.lookup_cons, List.lookup_cons, ih]

theorem lookup_foldl_insertSetting {k : String} {action : RuleAction} :
    ∀ (pairs rules : List (String × RuleAction)), (∀ a, (k, a) ∈ pairs → a = action) →
      rules.lookup k = some action ∨ (k, action) ∈ pairs →
      (pairs.foldl (fun rules (id, action) => insertSetting id action rules) rules).lookup k =
        some action
  | [], _, _, h => h.resolve_right List.not_mem_nil
  | (id, a) :: pairs, rules, hall, h => by
    refine lookup_foldl_insertSetting pairs _
      (fun b hb => hall b (List.mem_cons_of_mem _ hb)) ?_
    rw [lookup_insertSetting]
    by_cases hk : k = id
    · subst hk
      rw [if_pos rfl, hall a List.mem_cons_self]
      exact Or.inl rfl
    · rw [if_neg hk]
      refine h.imp_right fun hmem => ?_
      rcases List.mem_cons.mp hmem with heq | hmem
      · exact absurd (congrArg Prod.fst heq) hk
      · exact hmem

theorem lookup_settings {k : String} {action : RuleAction} {pairs : List (String × RuleAction)}
    (hmem : (k, action) ∈ pairs) (hall : ∀ a, (k, a) ∈ pairs → a = action) :
    (settings pairs).lookup k = some action :=
  lookup_foldl_insertSetting pairs [] hall (Or.inr hmem)

theorem effectiveSeverity?_enabling {c : Catalog} (hc : c.Built) {ids : List String} {p : Descriptor}
    (hp : p ∈ c.primaries) (hid : p.id ∈ ids) :
    (enabling c ids).effectiveSeverity? p = some p.severity := by
  have hget := hc.coherent.get?_eq_some_iff
  have hpairs : ∀ id a, (id, a) ∈ (ids.filterMap c.get?).map
      (fun d => (d.id, RuleAction.report d.severity)) ↔
      ∃ d ∈ c.primaries, d.id ∈ ids ∧ d.id = id ∧ RuleAction.report d.severity = a := by
    intro id a
    simp only [List.mem_map, List.mem_filterMap, Prod.mk.injEq]
    constructor
    · rintro ⟨d, ⟨k, hk, hd⟩, hid, ha⟩
      obtain ⟨hmem, rfl⟩ := (hget _ d).mp hd
      exact ⟨d, hmem, hk, hid, ha⟩
    · rintro ⟨d, hd, hk, hid, ha⟩
      exact ⟨d, ⟨d.id, hk, (hget _ d).mpr ⟨hd, rfl⟩⟩, hid, ha⟩
  have hsetting : (enabling c ids).rules.lookup p.id = some (.report p.severity) := by
    refine lookup_settings ((hpairs _ _).mpr ⟨p, hp, hid, rfl, rfl⟩) fun a ha => ?_
    obtain ⟨d, hd, -, hid, rfl⟩ := (hpairs _ _).mp ha
    -- the primaries have different ids
    have hsame := (hget p.id d).mpr ⟨hd, hid⟩
    rw [(hget p.id p).mpr ⟨hp, rfl⟩, Option.some.injEq] at hsame
    rw [hsame]
  rw [effectiveSeverity?, hsetting]

/-- The configuration that enables every primary of a catalog. -/
def enablingAll (c : Catalog) : Config := enabling c (c.primaries.map (·.id))

theorem effectiveSeverity?_enablingAll {c : Catalog} (hc : c.Built) {p : Descriptor}
    (hp : p ∈ c.primaries) : (enablingAll c).effectiveSeverity? p = some p.severity :=
  effectiveSeverity?_enabling hc hp (List.mem_map_of_mem hp)

/-- A diagnostic as a configuration has it reported: at the severity in force, unless its id is
disabled. -/
def restate? (config : Config) (c : Catalog) (x : Diagnostic) : Option Diagnostic :=
  ((c.get? x.id).bind config.effectiveSeverity?).map x.withSeverity

/-- A suppressed diagnostic as a configuration has it listed. -/
def restateSuppressed? (config : Config) (c : Catalog) (s : Suppressed) : Option Suppressed :=
  (config.restate? c s.diagnostic).map (Suppressed.mk · s.pragma)

/-- How a diagnostic is restated does not depend on how serious it was. -/
theorem restate?_withSeverity (config : Config) (c : Catalog) (x : Diagnostic)
    (severity : Severity) :
    config.restate? c (x.withSeverity severity) = config.restate? c x := rfl

/-- How a diagnostic is restated depends on the setting of its id alone. -/
theorem restate?_congr {c : Catalog} (hc : c.Built) {config config' : Config} {x : Diagnostic}
    (h : config'.rules.lookup x.id = config.rules.lookup x.id) :
    config'.restate? c x = config.restate? c x := by
  unfold restate?
  cases hp : c.get? x.id with
  | none => rfl
  | some p =>
    have hid : p.id = x.id := ((hc.coherent.get?_eq_some_iff _ p).mp hp).2
    rw [Option.bind_some, Option.bind_some, effectiveSeverity?, effectiveSeverity?, hid, h]

theorem isSome_restate?_enablingAll {c : Catalog} (hc : c.Built) {x : Diagnostic}
    (hx : ∃ p ∈ c.primaries, p.id = x.id) : ((enablingAll c).restate? c x).isSome = true := by
  obtain ⟨p, hp, hid⟩ := hx
  rw [restate?, (hc.coherent.get?_eq_some_iff x.id p).mpr ⟨hp, hid⟩, Option.bind_some,
    effectiveSeverity?_enablingAll hc hp]
  rfl

theorem id_of_restate? {config : Config} {c : Catalog} {x y : Diagnostic}
    (h : config.restate? c x = some y) : y.id = x.id := by
  obtain ⟨severity, -, rfl⟩ := Option.map_eq_some_iff.mp h
  rfl

end Config

/-! ### What rules declare -/

/-- Every id that a registered rule declares is in the catalog. -/
def Setup.Declared (s : Setup) : Prop :=
  ∀ rule ∈ s.rules, ∀ id ∈ rule.descriptors, (s.catalog.primary? id).isSome = true

theorem Setup.Declared.after {s : Setup} (h : s.Declared) (c : SetupCall) :
    (s.after c).Declared := by
  cases c with
  | configure config => exact h
  | register rule =>
    simp only [Setup.after]
    split
    · rename_i haccepts
      rw [Setup.accepts, Bool.and_eq_true, List.all_eq_true, List.all_eq_true] at haccepts
      intro rule' hrule'
      rcases List.mem_append.mp hrule' with hold | hnew
      · exact h rule' hold
      · rw [List.mem_singleton.mp hnew]
        exact haccepts.2
    · exact h

theorem Setup.Declared.foldl_after {s : Setup} (h : s.Declared) (calls : List SetupCall) :
    (calls.foldl Setup.after s).Declared := by
  induction calls generalizing s with
  | nil => exact h
  | cons c calls ih => exact ih (h.after c)

/-! ### What the rules find -/

/-- The diagnostic that a check found, if it found one. -/
def Outcome.diagnostic? : Outcome → Option Diagnostic
  | .found x => some x
  | _ => none

/-- In a tree, the check of the rule never fails and finds only diagnostics whose ids the rule
declares. -/
def Rule.FindsDeclared (rule : Rule) (t : Tree) (c : Catalog) : Prop :=
  ∀ i n, t.node? i = some n →
    rule.check ⟨t, i, n, c, rule.ruleId, rule.descriptors⟩ = .nothing ∨
      ∃ x, rule.check ⟨t, i, n, c, rule.ruleId, rule.descriptors⟩ = .found x ∧
        x.id ∈ rule.descriptors

theorem Tree.disabling?_withSeverity (t : Tree) (x : Diagnostic) (severity : Severity) :
    t.disabling? (x.withSeverity severity) = t.disabling? x := rfl

namespace Dispatcher

/-- A diagnostic as the dispatcher reports it: at the severity in force, unless its id is
disabled. -/
def restate? (d : Dispatcher) (x : Diagnostic) : Option Diagnostic :=
  (d.severityFor? x.id).map x.withSeverity

/-- What the subscribed rules find in a tree, node by node and rule by rule, whatever is enabled. -/
def found (d : Dispatcher) (t : Tree) : List Diagnostic :=
  t.nodes.zipIdx.flatMap fun x => (d.subscribers x.1.kind).filterMap fun rule =>
    (rule.check (d.contextOf t x.2 x.1 rule)).diagnostic?

/-- The findings after all nodes were visited, where no rule is passed over for having nothing
enabled. -/
def visitAllUnskipped (d : Dispatcher) (t : Tree) (f : Findings) : Findings :=
  t.nodes.zipIdx.foldl (fun f (n, id) =>
    (d.subscribers n.kind).foldl (fun f rule =>
      f.merge (d.outcomeFindings rule t.path n.span (rule.check (d.contextOf t id n rule))))
    { f with nodesVisited := f.nodesVisited + 1 }) f

/-- The findings in one tree, where no rule is passed over for having nothing enabled. -/
def analyzeUnskipped (d : Dispatcher) (t : Tree) : Findings :=
  if d.isExcluded t.path then .empty else finish t (d.visitAllUnskipped t .empty)

section FindsDeclared

variable {d : Dispatcher} {t : Tree}

/-- The outcome of a check that found something declared, or nothing, is reported as the
configuration says. -/
theorem outcomeFindings_of_findsDeclared {rule : Rule} (h : rule.FindsDeclared t d.catalog)
    {i : NodeId} {n : Node} (hn : t.node? i = some n) :
    d.outcomeFindings rule t.path n.span (rule.check (d.contextOf t i n rule)) =
      .visiting ((rule.check (d.contextOf t i n rule)).diagnostic?.bind d.restate?).toList []
        0 := by
  rcases h i n hn with hnothing | ⟨x, hfound, -⟩
  · rw [contextOf, hnothing]
    rfl
  · rw [contextOf, hfound]
    rfl

/-- **Passing over a rule that has nothing enabled changes nothing**: what it finds is disabled. -/
theorem runRule_of_findsDeclared {rule : Rule} (h : rule.FindsDeclared t d.catalog)
    {i : NodeId} {n : Node} (hn : t.node? i = some n) :
    d.runRule t i n rule =
      d.outcomeFindings rule t.path n.span (rule.check (d.contextOf t i n rule)) := by
  unfold runRule
  split
  · rfl
  · rename_i hoff
    have hnone : ∀ id ∈ rule.descriptors, d.severityFor? id = none := by
      simpa [isEnabled] using hoff
    rcases h i n hn with hnothing | ⟨x, hfound, hid⟩
    · rw [contextOf, hnothing]
      rfl
    · rw [contextOf, hfound, outcomeFindings, hnone x.id hid]
      rfl

variable (hrules : ∀ rule ∈ d.rules, rule.FindsDeclared t d.catalog)
include hrules

/-- **What is reported is what is found**, as the configuration has it. -/
theorem visitAll_eq_found :
    d.visitAll t .empty = .visiting ((d.found t).filterMap d.restate?) [] t.nodes.length := by
  have hrun : ∀ x ∈ t.nodes.zipIdx, ∀ rule ∈ d.subscribers x.1.kind, d.runRule t x.2 x.1 rule =
      .visiting ((rule.check (d.contextOf t x.2 x.1 rule)).diagnostic?.bind d.restate?).toList []
        0 := by
    intro x hx rule hrule
    have hdeclared := hrules rule (mem_rules_of_mem_subscribers hrule)
    have hn : t.node? x.2 = some x.1 := List.mk_mem_zipIdx_iff_getElem?.mp hx
    rw [runRule_of_findsDeclared hdeclared hn, outcomeFindings_of_findsDeclared hdeclared hn]
  have hdiagnostics : (t.nodes.zipIdx.flatMap fun x =>
      d.diagnosticsAt t (d.subscribers x.1.kind) x.2 x.1) = (d.found t).filterMap d.restate? := by
    rw [found, List.filterMap_flatMap]
    refine List.flatMap_congr fun x hx => ?_
    rw [diagnosticsAt, List.filterMap_filterMap, List.filterMap_eq_flatMap_toList]
    refine List.flatMap_congr fun rule hrule => ?_
    rw [hrun x hx rule hrule]
    rfl
  have hfaults : (t.nodes.zipIdx.flatMap fun x =>
      d.faultsAt t (d.subscribers x.1.kind) x.2 x.1) = [] := by
    refine List.flatMap_eq_nil_iff.mpr fun x hx => List.flatMap_eq_nil_iff.mpr fun rule hrule => ?_
    rw [hrun x hx rule hrule]
    rfl
  rw [visitAll_eq_merge, Findings.empty_merge, hdiagnostics, hfaults]

theorem visitAllUnskipped_eq (f : Findings) : d.visitAllUnskipped t f = d.visitAll t f := by
  refine List.foldl_ext _ _ _ fun f x hx => List.foldl_ext _ _ _ fun f rule hrule => ?_
  have hn : t.node? x.2 = some x.1 := List.mk_mem_zipIdx_iff_getElem?.mp hx
  rw [runRule_of_findsDeclared (hrules rule (mem_rules_of_mem_subscribers hrule)) hn]

theorem analyzeUnskipped_eq : d.analyzeUnskipped t = d.analyze t := by
  rw [analyzeUnskipped, analyze, visitAllUnskipped_eq hrules]

theorem declared_of_mem_found {x : Diagnostic} (hx : x ∈ d.found t) :
    ∃ rule ∈ d.rules, x.id ∈ rule.descriptors := by
  obtain ⟨⟨n, i⟩, hn, hx⟩ := List.mem_flatMap.mp hx
  obtain ⟨rule, hrule, hx⟩ := List.mem_filterMap.mp hx
  have hmem := mem_rules_of_mem_subscribers hrule
  refine ⟨rule, hmem, ?_⟩
  rcases hrules rule hmem i n (List.mk_mem_zipIdx_iff_getElem?.mp hn) with hnothing | ⟨y, hy, hid⟩
  · rw [contextOf, hnothing] at hx
    cases hx
  · rw [contextOf, hy] at hx
    cases hx
    exact hid

variable (ht : d.isExcluded t.path = false)
include ht

theorem diagnostics_analyze_eq :
    (d.analyze t).diagnostics =
      ((d.found t).filter fun x => (t.disabling? x).isNone).filterMap d.restate? := by
  have hanalyze : (d.analyze t).diagnostics =
      ((d.found t).filterMap d.restate?).filter fun x => (t.disabling? x).isNone := by
    rw [analyze_eq_merge ht, visitAll_eq_found hrules]
    exact List.append_nil _
  rw [hanalyze, List.filter_filterMap, List.filterMap_filter]
  refine List.filterMap_congr fun x _ => ?_
  unfold restate?
  cases d.severityFor? x.id with
  | none => simp
  | some severity => simp [Option.filter, Tree.disabling?_withSeverity]

theorem suppressed_analyze_eq :
    (d.analyze t).suppressed = (d.found t).filterMap fun x =>
      (t.disabling? x).bind fun p => (d.restate? x).map (Suppressed.mk · p) := by
  have hanalyze : (d.analyze t).suppressed = ((d.found t).filterMap d.restate?).filterMap fun x =>
      (t.disabling? x).map (Suppressed.mk x) := by
    rw [analyze_eq_merge ht, visitAll_eq_found hrules]
    exact List.append_nil _
  rw [hanalyze, List.filterMap_filterMap]
  refine List.filterMap_congr fun x _ => ?_
  unfold restate?
  cases d.severityFor? x.id with
  | none => simp
  | some severity =>
    simp only [Option.map_some, Option.bind_some, Tree.disabling?_withSeverity]
    cases t.disabling? x <;> rfl

end FindsDeclared

/-! ### Two configurations -/

theorem withConfig_eq_ok {d d' : Dispatcher} {config : Config} (h : d.withConfig config = .ok d') :
    d'.catalog = d.catalog ∧ d'.rules = d.rules ∧ d'.byKind = d.byKind := by
  unfold withConfig at h
  split at h
  · cases h
  · cases h
    exact ⟨rfl, rfl, rfl⟩

theorem found_withConfig {d d' : Dispatcher} {config : Config} (h : d.withConfig config = .ok d')
    (t : Tree) : d'.found t = d.found t := by
  obtain ⟨hcatalog, hrules, hbyKind⟩ := withConfig_eq_ok h
  simp only [found, subscribers, contextOf, hcatalog, hrules, hbyKind]

theorem exists_enablingAll (d : Dispatcher) (c : Catalog) :
    ∃ full, d.withConfig (.enablingAll c) = .ok full ∧ ∀ path, full.isExcluded path = false :=
  ⟨_, rfl, fun _ => rfl⟩

section Configured

variable {c : Catalog} (hc : c.Built) {calls : List SetupCall} {d : Dispatcher}
  (hd : (Dispatcher.new c).setUp calls = some d)
include hc hd

theorem exists_primary_of_declared {rule : Rule} (hrule : rule ∈ d.rules) {id : String}
    (hid : id ∈ rule.descriptors) : ∃ p ∈ c.primaries, p.id = id := by
  have hrep := (Represents.new hc).setUp hd
  have hcatalog : (calls.foldl Setup.after ⟨c, {}, []⟩).catalog = c :=
    Setup.catalog_foldl_after calls _
  have hdeclared := Setup.Declared.foldl_after (s := ⟨c, {}, []⟩) (fun _ h => by cases h) calls
  have hsome := hdeclared rule (hrep.rules_eq ▸ hrule) id hid
  rw [hcatalog] at hsome
  obtain ⟨p, hp⟩ := Option.isSome_iff_exists.mp hsome
  exact ⟨p, Catalog.mem_primaries_of_primary? hp⟩

variable {config : Config} {dc : Dispatcher} (hdc : d.withConfig config = .ok dc)
include hdc

/-- An id is reported at the severity that the configuration gives its primary. -/
theorem severityFor?_withConfig (id : String) :
    dc.severityFor? id = (c.get? id).bind config.effectiveSeverity? := by
  have hrep := ((Represents.new hc).setUp hd).withConfig hdc
  have hcatalog : (calls.foldl Setup.after ⟨c, {}, []⟩).catalog = c :=
    Setup.catalog_foldl_after calls _
  rw [hrep.severityFor?_eq, Setup.severity?, hc.indexed.get?_eq]
  simp only [hcatalog]

theorem restate?_withConfig : dc.restate? = config.restate? c := by
  funext x
  rw [restate?, severityFor?_withConfig hc hd hdc, Config.restate?]

variable {t : Tree} (hrules : ∀ rule ∈ d.rules, rule.FindsDeclared t c)
  (ht : dc.isExcluded t.path = false)
include hrules

theorem findsDeclared_withConfig : ∀ rule ∈ dc.rules, rule.FindsDeclared t dc.catalog := by
  obtain ⟨hcatalog, hsame, -⟩ := withConfig_eq_ok hdc
  rw [hsame, hcatalog, catalog_setUp hc hd]
  exact hrules

include ht

theorem diagnostics_withConfig :
    (dc.analyze t).diagnostics =
      ((d.found t).filter fun x => (t.disabling? x).isNone).filterMap (config.restate? c) := by
  rw [diagnostics_analyze_eq (findsDeclared_withConfig hc hd hdc hrules) ht,
    found_withConfig hdc, restate?_withConfig hc hd hdc]

theorem suppressed_withConfig :
    (dc.analyze t).suppressed = (d.found t).filterMap fun x =>
      (t.disabling? x).bind fun p => (config.restate? c x).map (Suppressed.mk · p) := by
  rw [suppressed_analyze_eq (findsDeclared_withConfig hc hd hdc hrules) ht,
    found_withConfig hdc, restate?_withConfig hc hd hdc]

end Configured

section TwoConfigurations

variable {c : Catalog} {config config' : Config}

/-- Whatever was enabled before, restating once more gives what restating gives. -/
theorem bind_restate?_of_isSome {x : Diagnostic} (h : (config'.restate? c x).isSome = true) :
    (config'.restate? c x).bind (config.restate? c) = config.restate? c x := by
  obtain ⟨y, hy⟩ := Option.isSome_iff_exists.mp h
  obtain ⟨severity, -, rfl⟩ := Option.map_eq_some_iff.mp hy
  rw [hy, Option.bind_some, Config.restate?_withSeverity]

theorem filter_restate?_congr (hc : c.Built) {id : String}
    (hsame : ∀ k, k ≠ id → config'.rules.lookup k = config.rules.lookup k) (x : Diagnostic) :
    (config'.restate? c x).filter (·.id != id) = (config.restate? c x).filter (·.id != id) := by
  by_cases hid : x.id = id
  · have hdropped : ∀ cfg : Config, (cfg.restate? c x).filter (·.id != id) = none := by
      intro cfg
      rw [Option.filter_eq_none_iff]
      intro y hy
      simp [Config.id_of_restate? hy, hid]
    rw [hdropped, hdropped]
  · rw [Config.restate?_congr hc (hsame x.id hid)]

variable (hc : c.Built) {calls : List SetupCall} {d dc dc' : Dispatcher}
  (hd : (Dispatcher.new c).setUp calls = some d)
  (hdc : d.withConfig config = .ok dc) (hdc' : d.withConfig config' = .ok dc')
  {t : Tree} (hrules : ∀ rule ∈ d.rules, rule.FindsDeclared t c)
  (ht : dc.isExcluded t.path = false) (ht' : dc'.isExcluded t.path = false)
include hc hd hdc hdc' hrules ht ht'

/-- From an analysis in which all that is found is enabled, any other follows. -/
theorem analyze_restates (hall : ∀ x ∈ d.found t, (config'.restate? c x).isSome = true) :
    (dc.analyze t).diagnostics = (dc'.analyze t).diagnostics.filterMap (config.restate? c) ∧
    (dc.analyze t).suppressed =
      (dc'.analyze t).suppressed.filterMap (config.restateSuppressed? c) := by
  constructor
  · rw [diagnostics_withConfig hc hd hdc hrules ht, diagnostics_withConfig hc hd hdc' hrules ht',
      List.filterMap_filterMap]
    refine List.filterMap_congr fun x hx => ?_
    exact (bind_restate?_of_isSome (hall x (List.mem_of_mem_filter hx))).symm
  · rw [suppressed_withConfig hc hd hdc hrules ht, suppressed_withConfig hc hd hdc' hrules ht',
      List.filterMap_filterMap]
    refine List.filterMap_congr fun x hx => ?_
    rw [← bind_restate?_of_isSome (hall x hx)]
    cases t.disabling? x with
    | none => rfl
    | some p => cases config'.restate? c x <;> rfl

/-- The setting of one id does not reach the diagnostics of another. -/
theorem filter_analyze_congr {id : String}
    (hsame : ∀ k, k ≠ id → config'.rules.lookup k = config.rules.lookup k) :
    (dc'.analyze t).diagnostics.filter (·.id != id) =
      (dc.analyze t).diagnostics.filter (·.id != id) ∧
    (dc'.analyze t).suppressed.filter (·.diagnostic.id != id) =
      (dc.analyze t).suppressed.filter (·.diagnostic.id != id) := by
  have hrestate := filter_restate?_congr hc hsame
  constructor
  · rw [diagnostics_withConfig hc hd hdc' hrules ht', diagnostics_withConfig hc hd hdc hrules ht,
      List.filter_filterMap, List.filter_filterMap]
    exact List.filterMap_congr fun x _ => hrestate x
  · rw [suppressed_withConfig hc hd hdc' hrules ht', suppressed_withConfig hc hd hdc hrules ht,
      List.filter_filterMap, List.filter_filterMap]
    refine List.filterMap_congr fun x _ => ?_
    cases t.disabling? x with
    | none => rfl
    | some p =>
      rw [Option.bind_some, Option.bind_some, Option.filter_map, Option.filter_map]
      exact congrArg (Option.map (Suppressed.mk · p)) (hrestate x)

end TwoConfigurations

/-- **A configuration is a filter.** Take any catalog, any dispatcher set up over it, any
configuration that can be applied to it, and a tree that the configuration does not leave out and
in which the checks of the registered rules never fail and find only what the rules declare. The
diagnostics of the tree, reported and suppressed, are those that there are with every primary
enabled, in the same order: those of disabled ids are dropped and the others have the severity in
force. Running also the rules that have nothing enabled gives the same analysis. Another
configuration that differs in the setting of one id, and does not leave the tree out either, gives
the same diagnostics of all other ids. -/
theorem config_acts_as_filter {c : Catalog} (hc : c.Built) {calls : List SetupCall}
    {d dc : Dispatcher} (hd : (Dispatcher.new c).setUp calls = some d) {config : Config}
    (hdc : d.withConfig config = .ok dc) {t : Tree}
    (hrules : ∀ rule ∈ d.rules, rule.FindsDeclared t c) (ht : dc.isExcluded t.path = false) :
    (∃ full, d.withConfig (.enablingAll c) = .ok full ∧
      (∀ p ∈ c.primaries, full.severityFor? p.id = some p.severity) ∧
      (dc.analyze t).diagnostics = (full.analyze t).diagnostics.filterMap (config.restate? c) ∧
      (dc.analyze t).suppressed =
        (full.analyze t).suppressed.filterMap (config.restateSuppressed? c)) ∧
    dc.analyze t = dc.analyzeUnskipped t ∧
    ∀ config' dc' id, d.withConfig config' = .ok dc' → dc'.isExcluded t.path = false →
      (∀ k, k ≠ id → config'.rules.lookup k = config.rules.lookup k) →
      (dc'.analyze t).diagnostics.filter (·.id != id) =
        (dc.analyze t).diagnostics.filter (·.id != id) ∧
      (dc'.analyze t).suppressed.filter (·.diagnostic.id != id) =
        (dc.analyze t).suppressed.filter (·.diagnostic.id != id) := by
  refine ⟨?_, ?_, ?_⟩
  · obtain ⟨full, hfull, hincluded⟩ := d.exists_enablingAll c
    -- what is found is declared, so it is enabled
    have hall : ∀ x ∈ d.found t, ((Config.enablingAll c).restate? c x).isSome = true := by
      intro x hx
      rw [← found_withConfig hdc] at hx
      obtain ⟨rule, hrule, hid⟩ :=
        declared_of_mem_found (findsDeclared_withConfig hc hd hdc hrules) hx
      rw [(withConfig_eq_ok hdc).2.1] at hrule
      exact Config.isSome_restate?_enablingAll hc (exists_primary_of_declared hc hd hrule hid)
    refine ⟨full, hfull, fun p hp => ?_,
      analyze_restates hc hd hdc hfull hrules ht (hincluded _) hall⟩
    rw [severityFor?_withConfig hc hd hfull, (hc.coherent.get?_eq_some_iff _ p).mpr ⟨hp, rfl⟩]
    exact Config.effectiveSeverity?_enablingAll hc hp
  · exact (analyzeUnskipped_eq (findsDeclared_withConfig hc hd hdc hrules)).symm
  · intro config' dc' id hdc' ht' hsame
    exact filter_analyze_congr hc hd hdc hdc' hrules ht ht' hsame

/-- A rule on blocks that are off by default, reported as warnings: of two blocks the second is
suppressed, and both are the diagnostics with everything enabled, at another severity. -/
theorem config_filters_sampleBlocks : ∃ d dc full,
    (Dispatcher.new sampleCatalog).setUp (sampleCalls.take 1) = some d ∧
    d.withConfig { rules := [("LC0040", .report .warning)] } = .ok dc ∧
    (∀ rule ∈ d.rules, rule.FindsDeclared sampleBlocks sampleCatalog) ∧
    dc.isExcluded sampleBlocks.path = false ∧
    d.withConfig (.enablingAll sampleCatalog) = .ok full ∧
    (full.analyze sampleBlocks).diagnostics = [⟨"LC0040", .info, "a.al", ⟨0, 1, 1, 1, 1, 2⟩, "m"⟩] ∧
    (dc.analyze sampleBlocks).diagnostics =
      [⟨"LC0040", .warning, "a.al", ⟨0, 1, 1, 1, 1, 2⟩, "m"⟩] ∧
    (dc.analyze sampleBlocks).suppressed =
      [⟨⟨"LC0040", .warning, "a.al", ⟨26, 27, 3, 1, 3, 2⟩, "m"⟩, ⟨.disable, [], 2, 2⟩⟩] := by
  have hcatalog : Catalog.ofDescriptors sampleCatalog.descriptors = .ok sampleCatalog := rfl
  let d := ((Dispatcher.new sampleCatalog).setUp (sampleCalls.take 1)).get rfl
  have hd : (Dispatcher.new sampleCatalog).setUp (sampleCalls.take 1) = some d := rfl
  have hrules : ∀ rule ∈ d.rules, rule.FindsDeclared sampleBlocks sampleCatalog := by
    intro rule hrule i n _
    cases List.mem_singleton.mp hrule
    exact Or.inr ⟨_, rfl, List.mem_cons_self⟩
  have hdc : d.withConfig { rules := [("LC0040", .report .warning)] } = .ok _ := rfl
  obtain ⟨⟨full, hfull, -, hdiagnostics, hsuppressed⟩, -⟩ :=
    config_acts_as_filter (.ofDescriptors hcatalog) hd hdc hrules rfl
  refine ⟨d, _, full, hd, hdc, hrules, rfl, hfull, ?_, ?_, ?_⟩
  · cases hfull
    decide
  · rw [hdiagnostics]
    cases hfull
    decide
  · rw [hsuppressed]
    cases hfull
    decide

end Dispatcher
end TreeLint
