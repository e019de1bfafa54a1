/-
# The table of subscribers runs every rule once

A dispatcher finds the rules for a node in a table by kind. What it reports is
what the plain double loop reports, which knows no table: for each node, for each
registered rule in order that names the node's kind and has an enabled
descriptor, run the check once. The invariant is that the table lists, for each
kind, the positions of the rules that name it, in order and each once; a
registration adds the new rule's position wherever it belongs, however often the
rule names a kind. It works on the dispatcher in place, but makes all its checks
before it writes, so one that fails leaves nothing behind.

Key definitions: `Setup`, `Setup.after`, `Setup.plainLoop`, `Dispatcher.call`,
`Dispatcher.setUp`, `Dispatcher.Represents`.
Key theorems: `Dispatcher.runFrom_registering`, `Dispatcher.Represents.call`,
`Dispatcher.Represents.visitAll_eq`, `Dispatcher.visitAll_eq_plainLoop`.
-/
import Mathlib.Data.List.Basic
import TreeLint.Proofs.Catalog
import TreeLint.Proofs.Findings

namespace TreeLint

/-! ### The plain double loop -/

/-- The text of the diagnostic about a fault. -/
def Catalog.faultText (c : Catalog) (fault : Fault) : String :=
  ((c.primary? "LC0000").map (·.format [fault.ruleId, fault.message])).getD ""

/-- A call that sets a dispatcher up. -/
inductive SetupCall where
  | register (rule : Rule)
  | configure (config : Config)

/-- What the plain loop knows: the catalog, the configuration in force and the registered rules in
order. -/
structure Setup where
  catalog : Catalog
  config : Config := {}
  rules : List Rule := []

namespace Setup

/-- Whether a rule can be registered: its id is new and its descriptors are in the catalog. -/
def accepts (s : Setup) (rule : Rule) : Bool :=
  s.rules.all (·.ruleId != rule.ruleId) &&
    rule.descriptors.all fun id => (s.catalog.primary? id).isSome

/-- The setup after a call. -/
def after (s : Setup) : SetupCall → Setup
  | .register rule => if s.accepts rule then { s with rules := s.rules ++ [rule] } else s
  | .configure config => { s with config }

/-- The severity at which an id is reported, if it is enabled. -/
def severity? (s : Setup) (id : String) : Option Severity :=
  (s.catalog.primary? id).bind s.config.effectiveSeverity?

/-- Whether a rule is to run at a node. -/
def applies (s : Setup) (n : Node) (rule : Rule) : Bool :=
  rule.kinds.contains n.kind && rule.descriptors.any fun id => (s.severity? id).isSome

/-- A diagnostic that a check found: kept at the severity in force if its id is enabled. -/
def kept (s : Setup) (x : Diagnostic) : List Diagnostic :=
  match s.severity? x.id with
  | some severity => [{ x with severity }]
  | none => []

/-- The diagnostic about a fault, if that diagnostic is enabled. -/
def aboutFault (s : Setup) (fault : Fault) : List Diagnostic :=
  match s.catalog.primary? "LC0000" with
  | none => []
  | some p =>
    match s.config.effectiveSeverity? p with
    | none => []
    | some severity =>
      [⟨"LC0000", severity, fault.file, fault.span, p.format [fault.ruleId, fault.message]⟩]

theorem aboutFault_eq (s : Setup) (fault : Fault) :
    s.aboutFault fault = (s.severity? "LC0000").toList.map fun severity =>
      ⟨"LC0000", severity, fault.file, fault.span, s.catalog.faultText fault⟩ := by
  unfold aboutFault severity? Catalog.faultText
  cases s.catalog.primary? "LC0000" with
  | none => rfl
  | some p =>
    rw [Option.bind_some]
    cases hs : s.config.effectiveSeverity? p with
    | none => simp [hs]
    | some severity => simp [hs]

/-- What is recorded after a check: diagnostics and faults. -/
def recorded (s : Setup) (t : Tree) (n : Node) (rule : Rule) : Outcome → List Diagnostic × List Fault
  | .nothing => ([], [])
  | .found x => (s.kept x, [])
  | .failed chain =>
    let fault : Fault := ⟨rule.ruleId, t.path, n.span, String.intercalate ": " chain⟩
    (s.aboutFault fault, [fault])
  | .brokeOff text =>
    let fault : Fault :=
      ⟨rule.ruleId, t.path, n.span, "panicked: " ++ text.getD "unknown panic payload"⟩
    (s.aboutFault fault, [fault])

/-- What is recorded when a rule runs at a node. -/
def run (s : Setup) (t : Tree) (id : NodeId) (n : Node) (rule : Rule) :
    List Diagnostic × List Fault :=
  s.recorded t n rule (rule.check ⟨t, id, n, s.catalog, rule.ruleId, rule.descriptors⟩)

/-- What is recorded at a node: the rules in order that are to run there are run, each once. -/
def plainVisit (s : Setup) (t : Tree) (id : NodeId) (n : Node) :
    List (List Diagnostic × List Fault) :=
  (s.rules.filter (s.applies n)).map (s.run t id n)

/-- The plain loop over all nodes in order. -/
def plainLoop (s : Setup) (t : Tree) : List (List Diagnostic × List Fault) :=
  t.nodes.zipIdx.flatMap fun x => s.plainVisit t x.2 x.1

/-- What a rule adds at a node: what is recorded when it runs there, if it is to. -/
def adds (s : Setup) (t : Tree) (id : NodeId) (n : Node) (rule : Rule) :
    List Diagnostic × List Fault :=
  if s.applies n rule then s.run t id n rule else ([], [])

/-- At a node each rule adds its part, rule after rule. This holds of the diagnostics and of the
faults. -/
theorem flatMap_plainVisit (s : Setup) (t : Tree) (id : NodeId) (n : Node) {β : Type}
    (part : List Diagnostic × List Fault → List β) (hempty : part ([], []) = []) :
    (s.plainVisit t id n).flatMap part = s.rules.flatMap fun rule => part (s.adds t id n rule) := by
  rw [plainVisit]
  induction s.rules with
  | nil => rfl
  | cons rule rules ih =>
    rw [List.flatMap_cons, ← ih, List.filter_cons, adds]
    cases s.applies n rule with
    | false => simp [hempty]
    | true => simp

end Setup

namespace Dispatcher

/-! ### One registration -/

/-- Why a rule cannot be registered. -/
def registrationError? (d : Dispatcher) (rule : Rule) : Option EngineError :=
  if d.rules.any (·.ruleId == rule.ruleId) then some (.duplicateRule rule.ruleId)
  else (rule.descriptors.find? fun id => !d.catalog.contains id).map
    (.unknownDescriptor rule.ruleId)

/-- The dispatcher with a rule written to its table and its list. -/
def written (d : Dispatcher) (rule : Rule) : Dispatcher :=
  { d with
    rules := d.rules ++ [rule]
    byKind := rule.kinds.foldl (fun table kind => subscribe table d.rules.length kind) d.byKind }

/-- Looking at the descriptors of a rule stops at the first unknown one and writes nothing. -/
theorem runFrom_forM_contains (d : Dispatcher) (ruleId : String) (ids : List String) :
    Action.runFrom (forM ids fun id => do
      if !(← get).catalog.contains id then
        throw (EngineError.unknownDescriptor ruleId id)) d =
      match ids.find? fun id => !d.catalog.contains id with
      | some id => (.error (EngineError.unknownDescriptor ruleId id), d)
      | none => (.ok (), d) := by
  induction ids with
  | nil => rfl
  | cons id ids ih =>
    rw [List.forM_cons, Action.runFrom_bind, Action.runFrom_get_bind]
    cases hid : d.catalog.contains id with
    | false => simp [hid]
    | true => simpa [hid] using ih

theorem runFrom_forM_subscribe (index : Nat) (kinds : List NodeKind) (d : Dispatcher) :
    Action.runFrom (ε := EngineError) (forM kinds fun kind =>
      modify fun d : Dispatcher => { d with byKind := subscribe d.byKind index kind }) d =
      (.ok (), { d with
        byKind := kinds.foldl (fun table kind => subscribe table index kind) d.byKind }) := by
  induction kinds generalizing d with
  | nil => rfl
  | cons kind kinds ih => rw [List.forM_cons, Action.runFrom_modify_bind, ih, List.foldl_cons]

/-- **A registration writes all or nothing**: it answers the first thing that is wrong and has then
written nothing, or the rule stands in the table and in the list. -/
theorem runFrom_registering (d : Dispatcher) (rule : Rule) :
    (registering rule).runFrom d = match d.registrationError? rule with
      | some e => (.error e, d)
      | none => (.ok (), d.written rule) := by
  unfold registering registrationError?
  rw [Action.runFrom_get_bind]
  cases d.rules.any (·.ruleId == rule.ruleId) with
  | true => rfl
  | false =>
    simp only [Bool.false_eq_true, ↓reduceIte]
    rw [Action.runFrom_bind, runFrom_forM_contains]
    cases rule.descriptors.find? fun id => !d.catalog.contains id with
    | some id => rfl
    | none =>
      dsimp only [Option.map_none]
      rw [Action.runFrom_get_bind, Action.runFrom_bind, runFrom_forM_subscribe]
      rfl

theorem register_eq (d : Dispatcher) (rule : Rule) :
    d.register rule = match d.registrationError? rule with
      | some e => .error e
      | none => .ok (d.written rule) := by
  unfold register Action.result
  rw [runFrom_registering]
  cases d.registrationError? rule <;> rfl

theorem register_eq_ok {d d' : Dispatcher} {rule : Rule} (h : d.register rule = .ok d') :
    d.registrationError? rule = none ∧ d' = d.written rule := by
  rw [register_eq] at h
  cases herror : d.registrationError? rule with
  | none =>
    rw [herror] at h
    exact ⟨rfl, (Except.ok.inj h).symm⟩
  | some e =>
    rw [herror] at h
    cases h

/-! ### Calls -/

/-- The dispatcher that is left after a call. A registration works on it in place, so it is left
whatever the answer; a configuration that fails takes it away. -/
def call (d : Dispatcher) : SetupCall → Option Dispatcher
  | .register rule => some ((registering rule).leaves d)
  | .configure config =>
    match d.withConfig config with
    | .ok d' => some d'
    | .error _ => none

theorem call_register_of_ok {d d' : Dispatcher} {rule : Rule} (h : d.register rule = .ok d') :
    d.call (.register rule) = some d' :=
  congrArg some (Action.leaves_of_result_ok h)

/-- **A rule that is refused leaves nothing behind.** -/
theorem call_register_of_error {d : Dispatcher} {rule : Rule} {e : EngineError}
    (h : d.register rule = .error e) : d.call (.register rule) = some d := by
  rw [register_eq] at h
  rw [call, Action.leaves, runFrom_registering]
  cases herror : d.registrationError? rule with
  | none =>
    rw [herror] at h
    cases h
  | some _ => rfl

/-- The dispatcher after several calls. -/
def setUp (d : Dispatcher) (calls : List SetupCall) : Option Dispatcher := calls.foldlM call d

/-! ### The table by kind -/

/-- The positions of the rules that name a kind, in order. -/
def positionsOf (rules : List Rule) (kind : NodeKind) : List Nat :=
  (rules.zipIdx.filter fun x => x.1.kinds.contains kind).map (·.2)

theorem lt_of_mem_positionsOf {rules : List Rule} {kind : NodeKind} {i : Nat}
    (h : i ∈ positionsOf rules kind) : i < rules.length := by
  simp only [positionsOf, List.mem_map, List.mem_filter] at h
  obtain ⟨⟨r, j⟩, ⟨hmem, -⟩, rfl⟩ := h
  exact (List.mem_zipIdx' hmem).1

/-- The positions that a table lists for a kind lead to the rules that name it. -/
theorem filterMap_positionsOf (rules : List Rule) (kind : NodeKind) :
    (positionsOf rules kind).filterMap (rules[·]?) = rules.filter (·.kinds.contains kind) := by
  have hat : ∀ x ∈ rules.zipIdx.filter (fun x => x.1.kinds.contains kind),
      rules[x.2]? = some x.1 := by
    intro x hx
    exact List.mk_mem_zipIdx_iff_getElem?.mp (List.mem_filter.mp hx).1
  have hfst : rules.zipIdx.map Prod.fst = rules := List.zipIdx_map_fst 0 rules
  rw [positionsOf, List.filterMap_map]
  calc (rules.zipIdx.filter fun x => x.1.kinds.contains kind).filterMap (fun x => rules[x.2]?)
      = (rules.zipIdx.filter fun x => x.1.kinds.contains kind).filterMap (fun x => some x.1) :=
        List.filterMap_congr hat
    _ = (rules.zipIdx.filter fun x => x.1.kinds.contains kind).map Prod.fst :=
        congrFun List.filterMap_eq_map _
    _ = (rules.zipIdx.map Prod.fst).filter (·.kinds.contains kind) := by
        rw [List.filter_map]
        rfl
    _ = rules.filter (·.kinds.contains kind) := by rw [hfst]

theorem foldl_subscribe_of_mem {index : Nat} {k : NodeKind} :
    ∀ (kinds : List NodeKind) (table : NodeKind → List Nat), index ∈ table k →
      kinds.foldl (fun table kind => subscribe table index kind) table k = table k
  | [], _, _ => rfl
  | kind :: kinds, table, h => by
    have hsame : subscribe table index kind k = table k := by simp [subscribe, h]
    rw [List.foldl_cons, foldl_subscribe_of_mem kinds _ (hsame ▸ h), hsame]

/-- **A new rule is listed once for each kind it names**, however often it names it. -/
theorem foldl_subscribe {index : Nat} {k : NodeKind} :
    ∀ (kinds : List NodeKind) (table : NodeKind → List Nat), index ∉ table k →
      kinds.foldl (fun table kind => subscribe table index kind) table k =
        if kinds.contains k then table k ++ [index] else table k
  | [], _, _ => rfl
  | kind :: kinds, table, h => by
    rw [List.foldl_cons]
    by_cases hk : k = kind
    · have hnew : subscribe table index kind k = table k ++ [index] := by simp [subscribe, hk ▸ h, hk]
      rw [foldl_subscribe_of_mem kinds _ (by simp [hnew]), hnew]
      simp [hk]
    · have hsame : subscribe table index kind k = table k := by simp [subscribe, hk]
      rw [foldl_subscribe kinds _ (hsame ▸ h), hsame]
      simp [hk]

theorem positionsOf_concat (rules : List Rule) (rule : Rule) (kind : NodeKind) :
    positionsOf (rules ++ [rule]) kind =
      if rule.kinds.contains kind then positionsOf rules kind ++ [rules.length]
      else positionsOf rules kind := by
  cases h : rule.kinds.contains kind <;> simp_all [positionsOf, List.zipIdx_append]

/-! ### Severities -/

/-- Among descriptors of different ids, the first setting of an id is that of the descriptor that
has it. -/
theorem lookup_filterMap_id {β : Type} (setting : Descriptor → Option β) (id : String) :
    ∀ ps : List Descriptor, (ps.map (·.id)).Nodup →
      (ps.filterMap fun p => (setting p).map fun b => (p.id, b)).lookup id =
        (ps.find? (·.id == id)).bind setting
  | [], _ => rfl
  | p :: ps, hnodup => by
    rw [List.map_cons, List.nodup_cons] at hnodup
    have ih := lookup_filterMap_id setting id ps hnodup.2
    by_cases hid : p.id = id
    · have hrest : ps.find? (·.id == id) = none := by
        rw [List.find?_eq_none]
        intro q hq heq
        have hq' : q.id = p.id := (beq_iff_eq.mp heq).trans hid.symm
        exact hnodup.1 (hq' ▸ List.mem_map_of_mem hq)
      rw [hrest, Option.bind_none] at ih
      rw [List.find?_cons_of_pos (by simpa using hid), Option.bind_some]
      cases hs : setting p with
      | none => rw [List.filterMap_cons_none (by rw [hs, Option.map_none]), ih]
      | some b => simp [hs, hid]
    · have hid' : (id == p.id) = false := by simpa using Ne.symm hid
      rw [List.find?_cons_of_neg (by simpa using hid), ← ih]
      cases hs : setting p with
      | none => rw [List.filterMap_cons_none (by rw [hs, Option.map_none])]
      | some b => simp [hs, List.lookup_cons, hid']

/-! ### What a dispatcher represents -/

/-- A dispatcher holds the catalog, the rules and the severities of a setup, and its table lists
the positions of the rules that name each kind, in order. -/
structure Represents (d : Dispatcher) (s : Setup) : Prop where
  built : s.catalog.Built
  catalog_eq : d.catalog = s.catalog
  rules_eq : d.rules = s.rules
  byKind_eq : ∀ kind, d.byKind kind = positionsOf s.rules kind
  severities_eq : d.severities = effectiveSeverities s.catalog s.config

theorem Represents.new {c : Catalog} (hc : c.Built) : (Dispatcher.new c).Represents ⟨c, {}, []⟩ :=
  ⟨hc, rfl, rfl, fun _ => rfl, rfl⟩

namespace Represents

variable {d d' : Dispatcher} {s : Setup}

theorem severityFor?_eq (h : d.Represents s) (id : String) :
    d.severityFor? id = s.severity? id := by
  rw [severityFor?, h.severities_eq, effectiveSeverities,
    lookup_filterMap_id _ id _ h.built.indexed.nodup_ids]
  rfl

theorem subscribers_eq (h : d.Represents s) (kind : NodeKind) :
    d.subscribers kind = s.rules.filter (·.kinds.contains kind) := by
  rw [subscribers, h.byKind_eq, h.rules_eq, filterMap_positionsOf]

theorem any_ruleId_eq (h : d.Represents s) (rule : Rule) :
    d.rules.any (·.ruleId == rule.ruleId) = !s.rules.all (·.ruleId != rule.ruleId) := by
  simp only [h.rules_eq, List.not_all_eq_any_not, bne, Bool.not_not]

theorem find?_unknown_eq_none_iff (h : d.Represents s) (rule : Rule) :
    (rule.descriptors.find? fun id => !d.catalog.contains id) = none ↔
      (rule.descriptors.all fun id => (s.catalog.primary? id).isSome) = true := by
  simp [h.catalog_eq, h.built.indexed.contains_eq, Option.isSome_iff_ne_none]

/-- **A registration succeeds exactly when the rule is acceptable**, and then adds it. -/
theorem register_eq_ok_iff (h : d.Represents s) (rule : Rule) :
    (∃ d', d.register rule = .ok d') ↔ s.accepts rule = true := by
  unfold Setup.accepts
  rw [register_eq, registrationError?, h.any_ruleId_eq, Bool.and_eq_true,
    ← h.find?_unknown_eq_none_iff]
  cases hid : s.rules.all (·.ruleId != rule.ruleId) with
  | false => simp
  | true =>
    cases hfind : rule.descriptors.find? fun id => !d.catalog.contains id with
    | none => simp
    | some id => simp

theorem register (h : d.Represents s) {rule : Rule} (hr : d.register rule = .ok d') :
    d'.Represents { s with rules := s.rules ++ [rule] } := by
  obtain ⟨-, rfl⟩ := register_eq_ok hr
  refine ⟨h.built, h.catalog_eq, by rw [written, h.rules_eq], fun kind => ?_, h.severities_eq⟩
  have hnew : d.rules.length ∉ d.byKind kind := by
    intro hmem
    rw [h.byKind_eq, h.rules_eq] at hmem
    exact Nat.lt_irrefl _ (lt_of_mem_positionsOf hmem)
  refine (foldl_subscribe rule.kinds d.byKind hnew).trans ?_
  rw [positionsOf_concat, h.byKind_eq, h.rules_eq]

theorem withConfig (h : d.Represents s) {config : Config} (hc : d.withConfig config = .ok d') :
    d'.Represents { s with config } := by
  unfold Dispatcher.withConfig at hc
  split at hc
  · cases hc
  · cases hc
    exact ⟨h.built, h.catalog_eq, h.rules_eq, h.byKind_eq, by rw [h.catalog_eq]⟩

/-- **Every call keeps the invariant.** -/
theorem call (h : d.Represents s) {c : SetupCall} (hcall : d.call c = some d') :
    d'.Represents (s.after c) := by
  cases c with
  | register rule =>
    have hiff := h.register_eq_ok_iff rule
    simp only [Setup.after]
    cases hr : d.register rule with
    | ok d₁ =>
      cases hcall.symm.trans (call_register_of_ok hr)
      rw [if_pos (hiff.mp ⟨_, hr⟩)]
      exact h.register hr
    | error e =>
      cases hcall.symm.trans (call_register_of_error hr)
      have hno : ¬ s.accepts rule = true := by
        rw [← hiff, hr]
        rintro ⟨d₁, hd₁⟩
        cases hd₁
      rw [if_neg hno]
      exact h
  | configure config =>
    simp only [Dispatcher.call] at hcall
    cases hc : d.withConfig config with
    | ok d₁ =>
      simp only [hc, Option.some.injEq] at hcall
      subst hcall
      exact h.withConfig hc
    | error e => simp [hc] at hcall

theorem setUp (h : d.Represents s) {calls : List SetupCall} (hrun : d.setUp calls = some d') :
    d'.Represents (calls.foldl Setup.after s) := by
  induction calls generalizing d s with
  | nil =>
    cases hrun
    exact h
  | cons c calls ih =>
    rw [Dispatcher.setUp, List.foldlM_cons, Option.bind_eq_bind, Option.bind_eq_some_iff] at hrun
    obtain ⟨d₁, hcall, hrest⟩ := hrun
    exact ih (h.call hcall) hrest

/-! ### The same findings -/

theorem faultDiagnostic?_eq (h : d.Represents s) (fault : Fault) :
    (d.faultDiagnostic? fault).toList = s.aboutFault fault := by
  have hget : d.catalog.get? Catalog.errorInRule = s.catalog.primary? "LC0000" := by
    rw [h.catalog_eq, h.built.indexed.get?_eq]
    rfl
  have hseverity : d.severityFor? Catalog.errorInRule =
      (s.catalog.primary? "LC0000").bind s.config.effectiveSeverity? := h.severityFor?_eq _
  unfold faultDiagnostic? Setup.aboutFault
  rw [hget, hseverity]
  cases hp : s.catalog.primary? "LC0000" with
  | none => rfl
  | some p =>
    have hid : p.id = "LC0000" := by simpa using List.find?_some hp
    rw [Option.bind_some]
    cases hs : s.config.effectiveSeverity? p with
    | none => simp [hs]
    | some severity => simp [hs, hid]

theorem outcomeFindings_eq (h : d.Represents s) (t : Tree) (n : Node) (rule : Rule) (o : Outcome) :
    d.outcomeFindings rule t.path n.span o =
      .visiting (s.recorded t n rule o).1 (s.recorded t n rule o).2 0 := by
  cases o with
  | nothing => rfl
  | found x =>
    simp only [outcomeFindings, Setup.recorded, Setup.kept, h.severityFor?_eq]
    cases s.severity? x.id with
    | none => rfl
    | some severity => rfl
  | failed chain =>
    simp only [outcomeFindings, faultMessage?, Setup.recorded, h.faultDiagnostic?_eq]
    rfl
  | brokeOff text =>
    cases text <;>
      simp only [outcomeFindings, faultMessage?, Setup.recorded, h.faultDiagnostic?_eq] <;> rfl

theorem isEnabled_eq (h : d.Represents s) (rule : Rule) :
    d.isEnabled rule = rule.descriptors.any fun id => (s.severity? id).isSome := by
  simp only [isEnabled, h.severityFor?_eq]

/-- A rule that names the kind of a node adds what the plain loop records, if it applies, and else
nothing. -/
theorem runRule_eq (h : d.Represents s) (t : Tree) (id : NodeId) (n : Node) {rule : Rule}
    (hkind : rule.kinds.contains n.kind = true) :
    d.runRule t id n rule =
      if s.applies n rule then
        .visiting (s.run t id n rule).1 (s.run t id n rule).2 0
      else .empty := by
  have hctx : d.contextOf t id n rule =
      ⟨t, id, n, s.catalog, rule.ruleId, rule.descriptors⟩ := by
    rw [contextOf, h.catalog_eq]
  simp only [runRule, h.isEnabled_eq, Setup.applies, hkind, Bool.true_and, h.outcomeFindings_eq,
    hctx, Setup.run]

/-- The rules that name the kind of a node add, one after the other, what the plain loop records:
a rule that names the kind but has nothing enabled adds nothing, and a rule that applies names the
kind. This holds of the diagnostics and of the faults. -/
theorem flatMap_runRule (h : d.Represents s) (t : Tree) (id : NodeId) (n : Node) {β : Type}
    (part : Findings → List β) (hempty : part .empty = []) : ∀ rules : List Rule,
    (rules.filter (·.kinds.contains n.kind)).flatMap (fun rule => part (d.runRule t id n rule)) =
      ((rules.filter (s.applies n)).map (s.run t id n)).flatMap fun r =>
        part (.visiting r.1 r.2 0)
  | [] => rfl
  | rule :: rules => by
    have ih := h.flatMap_runRule t id n part hempty rules
    rw [List.filter_cons, List.filter_cons]
    cases hkind : rule.kinds.contains n.kind with
    | false =>
      have hnot : s.applies n rule = false := by rw [Setup.applies, hkind, Bool.false_and]
      simpa [hnot] using ih
    | true =>
      rw [if_pos rfl, List.flatMap_cons, ih, h.runRule_eq t id n hkind]
      cases happ : s.applies n rule with
      | false => simp [hempty]
      | true => simp

theorem diagnosticsAt_eq (h : d.Represents s) (t : Tree) (id : NodeId) (n : Node) :
    d.diagnosticsAt t (d.subscribers n.kind) id n = (s.plainVisit t id n).flatMap (·.1) := by
  rw [diagnosticsAt, h.subscribers_eq, h.flatMap_runRule t id n (·.diagnostics) rfl]
  rfl

theorem faultsAt_eq (h : d.Represents s) (t : Tree) (id : NodeId) (n : Node) :
    d.faultsAt t (d.subscribers n.kind) id n = (s.plainVisit t id n).flatMap (·.2) := by
  rw [faultsAt, h.subscribers_eq, h.flatMap_runRule t id n (·.faults) rfl]
  rfl

/-- **A visit appends what the rules add at the node**, rule after rule. -/
theorem visit_eq (h : d.Represents s) (t : Tree) (id : NodeId) (n : Node) (f : Findings) :
    d.visit t id n f = f.merge (.visiting (s.rules.flatMap fun rule => (s.adds t id n rule).1)
      (s.rules.flatMap fun rule => (s.adds t id n rule).2) 1) := by
  rw [visit_eq_merge, h.diagnosticsAt_eq, h.faultsAt_eq, s.flatMap_plainVisit t id n _ rfl,
    s.flatMap_plainVisit t id n _ rfl]

/-- **Visiting all nodes is the plain loop.** -/
theorem visitAll_eq (h : d.Represents s) (t : Tree) :
    d.visitAll t .empty =
      { diagnostics := (s.plainLoop t).flatMap (·.1)
        faults := (s.plainLoop t).flatMap (·.2)
        nodesVisited := t.nodes.length } := by
  rw [visitAll_eq_merge, Findings.empty_merge]
  simp only [h.diagnosticsAt_eq, h.faultsAt_eq, Setup.plainLoop, List.flatMap_assoc]
  rfl

end Represents

/-! ### Failing calls -/

theorem call_eq_none_iff (d : Dispatcher) (c : SetupCall) :
    d.call c = none ↔ ∃ config e, c = .configure config ∧ config.exclusions = .error e := by
  cases c with
  | register rule => simp [call]
  | configure config =>
    simp only [call, withConfig]
    cases he : config.exclusions <;> simp [he]

theorem setUp_eq_none_iff (d : Dispatcher) (calls : List SetupCall) :
    d.setUp calls = none ↔
      ∃ config e, .configure config ∈ calls ∧ config.exclusions = .error e := by
  induction calls generalizing d with
  | nil => simp [setUp]
  | cons c calls ih =>
    rw [setUp, List.foldlM_cons]
    cases hc : d.call c with
    | none =>
      obtain ⟨config, e, rfl, he⟩ := (d.call_eq_none_iff c).mp hc
      exact iff_of_true rfl ⟨config, e, List.mem_cons_self, he⟩
    | some d₁ =>
      have hno : ¬ ∃ config e, c = .configure config ∧ config.exclusions = .error e := by
        rw [← d.call_eq_none_iff c, hc]
        simp
      refine (ih d₁).trans ⟨?_, ?_⟩
      · rintro ⟨config, e, hmem, he⟩
        exact ⟨config, e, List.mem_cons_of_mem _ hmem, he⟩
      · rintro ⟨config, e, hmem, he⟩
        rcases List.mem_cons.mp hmem with rfl | hmem
        · exact absurd ⟨config, e, rfl, he⟩ hno
        · exact ⟨config, e, hmem, he⟩

/-- **The table runs what the plain loop runs.** Take any catalog and any calls that set a
dispatcher over it up. There is a dispatcher in the end unless a configuration could not be
applied. Visiting the nodes of a tree then gives the diagnostics and the faults of the plain loop
over the rules that were acceptable when they were registered, under the last configuration. A
further registration succeeds exactly when its rule is acceptable, and leaves the dispatcher as it
is when it fails. -/
theorem visitAll_eq_plainLoop {c : Catalog} (hc : c.Built) (calls : List SetupCall) :
    ((Dispatcher.new c).setUp calls = none ↔
      ∃ config e, .configure config ∈ calls ∧ config.exclusions = .error e) ∧
    ∀ d, (Dispatcher.new c).setUp calls = some d →
      (∀ t, d.visitAll t .empty =
        { diagnostics := ((calls.foldl Setup.after ⟨c, {}, []⟩).plainLoop t).flatMap (·.1)
          faults := ((calls.foldl Setup.after ⟨c, {}, []⟩).plainLoop t).flatMap (·.2)
          nodesVisited := t.nodes.length }) ∧
      (∀ rule, (∃ d', d.register rule = .ok d') ↔
        (calls.foldl Setup.after ⟨c, {}, []⟩).accepts rule = true) ∧
      ∀ rule e, d.register rule = .error e →
        (Dispatcher.new c).setUp (calls ++ [.register rule]) = some d := by
  refine ⟨setUp_eq_none_iff _ calls, fun d hd => ?_⟩
  have hrep := (Represents.new hc).setUp hd
  refine ⟨hrep.visitAll_eq, hrep.register_eq_ok_iff, ?_⟩
  intro rule e he
  rw [setUp, List.foldlM_append]
  rw [setUp] at hd
  rw [hd]
  simp [call_register_of_error he]

/-- A catalog with the diagnostic about faults and one more. -/
def sampleCatalog : Catalog where
  descriptors := [Catalog.design "LC0000" "Fault" .info true "t" "m" "d",
    Catalog.design "LC0040" "Block" .info false "t" "m" "d"]
  byId := [("LC0000", 0), ("LC0040", 1)]
  byName := [("Fault", 0), ("Block", 1)]

/-- A rule that names blocks twice and reports them, the same rule again, a rule that breaks off at
blocks, and a configuration that turns the first rule's descriptor on. -/
def sampleCalls : List SetupCall :=
  let reporting : Rule :=
    ⟨"Reporting", ["LC0040"], [.block, .block], fun c => c.report "LC0040" []⟩
  let breaking : Rule :=
    ⟨"Breaking", ["LC0000"], [.literal, .block], fun _ => .brokeOff (some "boom")⟩
  [.register reporting, .register reporting, .register breaking,
    .configure { rules := [("LC0040", .report .warning)] }]

/-- At one block the first rule runs once, at the severity of the configuration, and the fault of
the other rule is recorded and reported. -/
theorem visitAll_sampleCalls : sampleCatalog.Built ∧
    ∃ d, (Dispatcher.new sampleCatalog).setUp sampleCalls = some d ∧
      (d.visitAll ⟨{ path := "a.al", nodes := [⟨.block, ⟨0, 1, 1, 1, 1, 2⟩, none, none, none, none,
        none⟩] }, [[]]⟩ .empty) =
        { diagnostics := [⟨"LC0040", .warning, "a.al", ⟨0, 1, 1, 1, 1, 2⟩, "m"⟩,
            ⟨"LC0000", .info, "a.al", ⟨0, 1, 1, 1, 1, 2⟩, "m"⟩]
          faults := [⟨"Breaking", "a.al", ⟨0, 1, 1, 1, 1, 2⟩, "panicked: boom"⟩]
          nodesVisited := 1 } := by
  have hcatalog : Catalog.ofDescriptors sampleCatalog.descriptors = .ok sampleCatalog := rfl
  have hbuilt : sampleCatalog.Built := .ofDescriptors hcatalog
  have hmain := visitAll_eq_plainLoop hbuilt sampleCalls
  refine ⟨hbuilt, ?_⟩
  cases hd : (Dispatcher.new sampleCatalog).setUp sampleCalls with
  | none =>
    obtain ⟨config, e, hmem, he⟩ := hmain.1.mp hd
    simp only [sampleCalls, List.mem_cons, reduceCtorEq, SetupCall.configure.injEq,
      List.not_mem_nil, or_false, false_or] at hmem
    subst hmem
    cases he
  | some d =>
    refine ⟨d, rfl, ?_⟩
    rw [(hmain.2 d hd).1]
    decide

end Dispatcher
end TreeLint
