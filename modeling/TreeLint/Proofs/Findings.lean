/-
# What a visit adds and what closing a tree changes

Findings are merged like words are joined: `merge` is associative, the empty
findings are neutral, and what was merged last can be taken off again. A visit
only appends, and what it appends does not depend on the findings so far
(`visitAll_eq_merge`); it never suppresses and never counts a tree.

Closing a tree is different: it looks at all diagnostics so far and applies the
directives of that one tree to them (`finish_eq_merge`).

Key definitions: `Tree.directives`, `Tree.disabling?`, `Findings.underDirectives`,
`Dispatcher.diagnosticsAt`, `Dispatcher.faultsAt`.
Key theorems: `Findings.foldl_merge`, `Pragma.filter_eq`,
`Dispatcher.visitAll_eq_merge`, `Dispatcher.finish_eq_merge`.
-/
import TreeLint.Analysis

namespace TreeLint

namespace Findings

theorem merge_empty (f : Findings) : f.merge empty = f := by simp [merge, empty]

theorem empty_merge (f : Findings) : empty.merge f = f := by simp [merge, empty]

theorem merge_assoc (f g h : Findings) : (f.merge g).merge h = f.merge (g.merge h) := by
  simp [merge, Nat.add_assoc]

theorem merge_right_cancel {f g h : Findings} (e : f.merge h = g.merge h) : f = g := by
  cases f
  cases g
  simpa [merge] using e

theorem foldl_merge : ∀ (fs : List Findings) (f : Findings), fs.foldl merge f = f.merge (mergeAll fs)
  | [], f => (merge_empty f).symm
  | g :: fs, f => by
    have hfirst : mergeAll (g :: fs) = g.merge (mergeAll fs) := by
      rw [mergeAll, List.foldl_cons, empty_merge, foldl_merge fs g]
    rw [List.foldl_cons, foldl_merge fs (f.merge g), hfirst, merge_assoc]

theorem mergeAll_cons (f : Findings) (fs : List Findings) :
    mergeAll (f :: fs) = f.merge (mergeAll fs) := by
  rw [mergeAll, List.foldl_cons, empty_merge, foldl_merge fs f]

theorem foldl_merge_map {α : Type} (add : α → Findings) (xs : List α) (f : Findings) :
    xs.foldl (fun f x => f.merge (add x)) f = f.merge (mergeAll (xs.map add)) := by
  rw [← foldl_merge, List.foldl_map]

theorem mergeAll_concat (fs : List Findings) (f : Findings) :
    mergeAll (fs ++ [f]) = (mergeAll fs).merge f := by
  simp [mergeAll]

theorem diagnostics_mergeAll : ∀ fs : List Findings,
    (mergeAll fs).diagnostics = fs.flatMap (·.diagnostics)
  | [] => rfl
  | f :: fs => by
    rw [mergeAll_cons, List.flatMap_cons, ← diagnostics_mergeAll fs]
    rfl

theorem suppressed_mergeAll : ∀ fs : List Findings,
    (mergeAll fs).suppressed = fs.flatMap (·.suppressed)
  | [] => rfl
  | f :: fs => by
    rw [mergeAll_cons, List.flatMap_cons, ← suppressed_mergeAll fs]
    rfl

/-- All diagnostics, those that a directive suppressed included. -/
def raised (f : Findings) : List Diagnostic := f.diagnostics ++ f.suppressed.map (·.diagnostic)

/-- Findings that report, fail and visit nodes, but neither suppress nor count trees. -/
def visiting (diagnostics : List Diagnostic) (faults : List Fault) (nodes : Nat) : Findings :=
  { diagnostics, faults, nodesVisited := nodes }

theorem mergeAll_visiting {α : Type} (ds : α → List Diagnostic) (fs : α → List Fault) (k : Nat) :
    ∀ xs : List α, mergeAll (xs.map fun x => visiting (ds x) (fs x) k) =
      visiting (xs.flatMap ds) (xs.flatMap fs) (xs.length * k)
  | [] => by simp [mergeAll, visiting, empty]
  | x :: xs => by
    rw [List.map_cons, mergeAll_cons, mergeAll_visiting ds fs k xs]
    simp [visiting, merge, Nat.succ_mul, Nat.add_comm]

end Findings

/-! ### Directives -/

/-- The directives in the source of a tree; a tree without source has none. -/
def Tree.directives (t : Tree) : List Pragma :=
  match t.source with
  | none => []
  | some source => Pragma.parse source

/-- The directive of a tree that disables a diagnostic, if there is one. -/
def Tree.disabling? (t : Tree) (x : Diagnostic) : Option Pragma :=
  Pragma.active? t.directives x.id x.span.startByte

namespace Pragma

theorem partition_eq (ps : List Pragma) : ∀ ds : List Diagnostic,
    partition ps ds =
      (ds.filter fun x => (active? ps x.id x.span.startByte).isNone,
        ds.filterMap fun x => (active? ps x.id x.span.startByte).map (Suppressed.mk x))
  | [] => rfl
  | x :: ds => by
    rw [partition, partition_eq ps ds]
    cases h : active? ps x.id x.span.startByte with
    | none => simp [h]
    | some p => simp [h]

/-- Parting diagnostics keeps those that no directive disables and suppresses the others, both in
order; without directives nothing is disabled. -/
theorem filter_eq (ps : List Pragma) (ds : List Diagnostic) :
    filter ps ds =
      (ds.filter fun x => (active? ps x.id x.span.startByte).isNone,
        ds.filterMap fun x => (active? ps x.id x.span.startByte).map (Suppressed.mk x)) := by
  unfold filter
  cases ps with
  | nil =>
    have hkept : ds.filter (fun x => (active? [] x.id x.span.startByte).isNone) = ds :=
      List.filter_eq_self.mpr fun _ _ => rfl
    rw [hkept]
    simp [active?, lastActive]
  | cons p ps => exact partition_eq (p :: ps) ds

theorem lastActive_mem {id : String} {p : Pragma} : ∀ {ps : List Pragma} {current : Option Pragma},
    lastActive id current ps = some p → current = some p ∨ p ∈ ps
  | [], _, h => Or.inl h
  | q :: ps, current, h => by
    unfold lastActive at h
    split at h
    · split at h
      · rcases lastActive_mem h with hq | hp
        · exact Or.inr (Option.some.inj hq ▸ List.mem_cons_self)
        · exact Or.inr (List.mem_cons_of_mem _ hp)
      · rcases lastActive_mem h with hq | hp
        · cases hq
        · exact Or.inr (List.mem_cons_of_mem _ hp)
    · exact (lastActive_mem h).imp_right (List.mem_cons_of_mem _)

theorem mem_of_active? {ps : List Pragma} {id : String} {offset : Nat} {p : Pragma}
    (h : active? ps id offset = some p) : p ∈ ps := by
  rcases lastActive_mem h with hp | hp
  · cases hp
  · exact (List.takeWhile_sublist _).subset hp

end Pragma

namespace Findings

/-- The findings after the directives of a tree were applied to their diagnostics. -/
def underDirectives (t : Tree) (f : Findings) : Findings :=
  { f with
    diagnostics := f.diagnostics.filter fun x => (t.disabling? x).isNone
    suppressed := f.suppressed ++ f.diagnostics.filterMap fun x =>
      (t.disabling? x).map (Suppressed.mk x) }

/-- Directives are applied to each part of the findings by itself, provided that the later part
has nothing suppressed yet: what the directives suppress is listed behind all that was suppressed
before. -/
theorem underDirectives_merge (t : Tree) (f : Findings) {g : Findings} (hg : g.suppressed = []) :
    (f.merge g).underDirectives t = (f.underDirectives t).merge (g.underDirectives t) := by
  simp [underDirectives, merge, hg]

/-- Directives that disable none of the diagnostics change nothing. -/
theorem underDirectives_eq_self {t : Tree} {f : Findings}
    (h : ∀ x ∈ f.diagnostics, t.disabling? x = none) : f.underDirectives t = f := by
  have hkept : f.diagnostics.filter (fun x => (t.disabling? x).isNone) = f.diagnostics := by
    rw [List.filter_eq_self]
    intro x hx
    rw [h x hx]
    rfl
  have hnone : f.diagnostics.filterMap
      (fun x => (t.disabling? x).map (Suppressed.mk x)) = [] := by
    rw [List.filterMap_eq_nil_iff]
    intro x hx
    rw [h x hx]
    rfl
  rw [underDirectives, hkept, hnone, List.append_nil]

/-- Directives neither add diagnostics nor take any away: they only move them. -/
theorem mem_raised_underDirectives {t : Tree} {f : Findings} (hf : f.suppressed = [])
    {x : Diagnostic} : x ∈ (f.underDirectives t).raised ↔ x ∈ f.diagnostics := by
  simp only [raised, underDirectives, hf, List.nil_append, List.mem_append, List.mem_filter,
    List.mem_map, List.mem_filterMap, Option.map_eq_some_iff]
  constructor
  · rintro (⟨hx, -⟩ | ⟨_, ⟨y, hy, p, -, rfl⟩, rfl⟩)
    · exact hx
    · exact hy
  · intro hx
    cases hp : t.disabling? x with
    | none => exact Or.inl ⟨hx, rfl⟩
    | some p => exact Or.inr ⟨⟨x, p⟩, ⟨x, hx, p, hp, rfl⟩, rfl⟩

theorem length_underDirectives_le (t : Tree) (f : Findings) :
    (f.underDirectives t).diagnostics.length ≤ f.diagnostics.length :=
  List.length_filter_le _ _

theorem disabling?_eq_none_of_length {t : Tree} {f : Findings}
    (h : (f.underDirectives t).diagnostics.length = f.diagnostics.length) :
    ∀ x ∈ f.diagnostics, t.disabling? x = none := by
  intro x hx
  have hall := List.length_filter_eq_length_iff.mp h x hx
  simpa using hall

end Findings

/-! ### Visiting and closing -/

namespace Dispatcher

variable (d : Dispatcher) (t : Tree)

/-- What the outcome of a check adds is reported or a fault, never suppressed. -/
theorem outcomeFindings_eq_visiting (rule : Rule) (file : String) (span : Span) (o : Outcome) :
    d.outcomeFindings rule file span o =
      .visiting (d.outcomeFindings rule file span o).diagnostics
        (d.outcomeFindings rule file span o).faults 0 := by
  unfold outcomeFindings
  cases o with
  | nothing => rfl
  | found x => rfl
  | failed chain => rfl
  | brokeOff text => cases text <;> rfl

theorem runRule_eq_visiting (id : NodeId) (n : Node) (rule : Rule) :
    d.runRule t id n rule =
      .visiting (d.runRule t id n rule).diagnostics (d.runRule t id n rule).faults 0 := by
  unfold runRule
  split
  · exact d.outcomeFindings_eq_visiting rule t.path n.span _
  · rfl

theorem mem_rules_of_mem_subscribers {d : Dispatcher} {kind : NodeKind} {rule : Rule}
    (h : rule ∈ d.subscribers kind) : rule ∈ d.rules := by
  obtain ⟨i, -, hi⟩ := List.mem_filterMap.mp h
  exact List.mem_of_getElem? hi

/-- The diagnostics that the rules of a list add at a node, rule after rule. -/
def diagnosticsAt (rules : List Rule) (id : NodeId) (n : Node) : List Diagnostic :=
  rules.flatMap fun rule => (d.runRule t id n rule).diagnostics

/-- The faults that the rules of a list add at a node, rule after rule. -/
def faultsAt (rules : List Rule) (id : NodeId) (n : Node) : List Fault :=
  rules.flatMap fun rule => (d.runRule t id n rule).faults

/-- A visit appends what the subscribed rules add, one after the other, and counts the node. -/
theorem visit_eq_merge (id : NodeId) (n : Node) (f : Findings) :
    d.visit t id n f = f.merge
      (.visiting (d.diagnosticsAt t (d.subscribers n.kind) id n)
        (d.faultsAt t (d.subscribers n.kind) id n) 1) := by
  have hrules : (d.subscribers n.kind).map (d.runRule t id n) = (d.subscribers n.kind).map fun r =>
      .visiting (d.runRule t id n r).diagnostics (d.runRule t id n r).faults 0 :=
    List.map_congr_left fun r _ => d.runRule_eq_visiting t id n r
  rw [visit, Findings.foldl_merge_map, hrules, Findings.mergeAll_visiting]
  simp [Findings.merge, Findings.visiting, diagnosticsAt, faultsAt]

/-- Visiting all nodes appends what the visits add, node after node, and counts the nodes. -/
theorem visitAll_eq_merge (f : Findings) :
    d.visitAll t f = f.merge
      (.visiting
        (t.nodes.zipIdx.flatMap fun x => d.diagnosticsAt t (d.subscribers x.1.kind) x.2 x.1)
        (t.nodes.zipIdx.flatMap fun x => d.faultsAt t (d.subscribers x.1.kind) x.2 x.1)
        t.nodes.length) := by
  have hvisits := Findings.foldl_merge_map (fun x : Node × NodeId => .visiting
    (d.diagnosticsAt t (d.subscribers x.1.kind) x.2 x.1)
    (d.faultsAt t (d.subscribers x.1.kind) x.2 x.1) 1) t.nodes.zipIdx f
  rw [Findings.mergeAll_visiting, List.length_zipIdx, Nat.mul_one] at hvisits
  rw [← hvisits, visitAll]
  congr 1
  funext f x
  exact d.visit_eq_merge t x.2 x.1 f

/-- What the visits of a tree add does not depend on the findings so far. -/
theorem visitAll_eq_merge_empty (f : Findings) : d.visitAll t f = f.merge (d.visitAll t .empty) := by
  rw [d.visitAll_eq_merge t f, d.visitAll_eq_merge t .empty, Findings.empty_merge]

theorem suppressed_visitAll_empty : (d.visitAll t .empty).suppressed = [] := by
  rw [visitAll_eq_merge, Findings.empty_merge]
  rfl

theorem mem_diagnostics_visitAll {x : Diagnostic} :
    x ∈ (d.visitAll t .empty).diagnostics ↔
      ∃ i n, t.node? i = some n ∧ x ∈ (d.visit t i n .empty).diagnostics := by
  simp only [visitAll_eq_merge, visit_eq_merge, Findings.empty_merge, Findings.visiting,
    List.mem_flatMap, Prod.exists, List.mk_mem_zipIdx_iff_getElem?, Tree.node?]
  exact exists_comm

theorem mem_faults_visitAll {fault : Fault} :
    fault ∈ (d.visitAll t .empty).faults ↔
      ∃ i n, t.node? i = some n ∧ fault ∈ (d.visit t i n .empty).faults := by
  simp only [visitAll_eq_merge, visit_eq_merge, Findings.empty_merge, Findings.visiting,
    List.mem_flatMap, Prod.exists, List.mk_mem_zipIdx_iff_getElem?, Tree.node?]
  exact exists_comm

/-- Closing a tree applies its directives to all findings so far and counts it. -/
theorem finish_eq_merge (f : Findings) :
    finish t f = (f.underDirectives t).merge { treesAnalyzed := 1 } := by
  cases hs : t.source with
  | none =>
    have hnone : ∀ x ∈ f.diagnostics, t.disabling? x = none := by
      intro x _
      simp [Tree.disabling?, Tree.directives, hs, Pragma.active?, Pragma.lastActive]
    rw [Findings.underDirectives_eq_self hnone]
    simp [finish, hs, Findings.merge]
  | some source =>
    simp [finish, hs, Findings.merge, Findings.underDirectives, Tree.disabling?, Tree.directives,
      Pragma.filter_eq]

variable {d t}

/-- A tree that is not left out gives what visiting its nodes gives, under its directives. -/
theorem analyze_eq_merge (ht : d.isExcluded t.path = false) :
    d.analyze t = ((d.visitAll t .empty).underDirectives t).merge { treesAnalyzed := 1 } := by
  rw [analyze, ht, ← finish_eq_merge]
  rfl

theorem analyze_of_isExcluded (ht : d.isExcluded t.path = true) : d.analyze t = .empty := by
  rw [analyze, if_pos ht]

theorem mem_raised_analyze {x : Diagnostic} :
    x ∈ (d.analyze t).raised ↔
      d.isExcluded t.path = false ∧ x ∈ (d.visitAll t .empty).diagnostics := by
  cases ht : d.isExcluded t.path with
  | true => simp [analyze_of_isExcluded ht, Findings.raised, Findings.empty]
  | false =>
    have hmoved := @Findings.mem_raised_underDirectives t _ (d.suppressed_visitAll_empty t) x
    rw [analyze_eq_merge ht]
    simpa [Findings.raised, Findings.merge] using hmoved

theorem faults_analyze :
    (d.analyze t).faults =
      if d.isExcluded t.path then [] else (d.visitAll t .empty).faults := by
  cases ht : d.isExcluded t.path with
  | true => rw [analyze_of_isExcluded ht, if_pos rfl, Findings.empty]
  | false =>
    rw [analyze_eq_merge ht, if_neg Bool.false_ne_true]
    exact List.append_nil _

end Dispatcher
end TreeLint
