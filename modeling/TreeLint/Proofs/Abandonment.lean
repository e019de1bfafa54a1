/-
# A traversal that is broken off

A host that visits the nodes of a tree itself may stop at any of them and close
the tree. What it then has is where the analysis of the whole tree begins: the
diagnostics, the suppressed diagnostics and the faults are those of the analysis
up to some point, in the same order, and what was suppressed was suppressed by the
same directive. A visit only appends (`begins_visit`), and closing a tree decides
about each diagnostic by itself, so it parts the beginning of a list as it parts
the whole (`Begins.finish`).

Key definitions: `Findings.Begins`, `Dispatcher.visitFirst`.
Key theorems: `Dispatcher.begins_visitAll`, `Findings.Begins.finish`,
`Dispatcher.abandoned_begins_analysis`.
-/
import TreeLint.Proofs.Streaming

namespace TreeLint

namespace Findings

/-- The lists of the first findings are where the lists of the second begin. -/
structure Begins (f g : Findings) : Prop where
  diagnostics : f.diagnostics <+: g.diagnostics
  suppressed : f.suppressed <+: g.suppressed
  faults : f.faults <+: g.faults

theorem Begins.refl (f : Findings) : f.Begins f :=
  ⟨List.prefix_rfl, List.prefix_rfl, List.prefix_rfl⟩

theorem Begins.trans {f g h : Findings} (hfg : f.Begins g) (hgh : g.Begins h) : f.Begins h :=
  ⟨hfg.diagnostics.trans hgh.diagnostics, hfg.suppressed.trans hgh.suppressed,
    hfg.faults.trans hgh.faults⟩

theorem begins_merge (f g : Findings) : f.Begins (f.merge g) :=
  ⟨List.prefix_append .., List.prefix_append .., List.prefix_append ..⟩

/-- Closing a tree keeps a beginning, as long as nothing is suppressed yet: what the tree's
directives suppress is listed behind all that was suppressed before. -/
theorem Begins.finish {f g : Findings} (h : f.Begins g) (hf : f.suppressed = [])
    (hg : g.suppressed = []) (t : Tree) :
    (Dispatcher.finish t f).Begins (Dispatcher.finish t g) := by
  rw [Dispatcher.finish_eq_merge, Dispatcher.finish_eq_merge]
  refine ⟨?_, ?_, ?_⟩
  · simpa [merge, underDirectives] using h.diagnostics.filter _
  · simpa [merge, underDirectives, hf, hg] using h.diagnostics.filterMap _
  · simpa [merge, underDirectives] using h.faults

end Findings

namespace Dispatcher

/-- The findings after the first `k` nodes of a tree were visited, in document order. -/
def visitFirst (d : Dispatcher) (t : Tree) (k : Nat) (f : Findings) : Findings :=
  (t.nodes.zipIdx.take k).foldl (fun f (n, id) => d.visit t id n f) f

variable (d : Dispatcher) (t : Tree)

theorem begins_visit (id : NodeId) (n : Node) (f : Findings) : f.Begins (d.visit t id n f) := by
  rw [visit_eq_merge]
  exact Findings.begins_merge f _

theorem begins_foldl_visit (ns : List (Node × NodeId)) (f : Findings) :
    f.Begins (ns.foldl (fun f (n, id) => d.visit t id n f) f) := by
  induction ns generalizing f with
  | nil => exact Findings.Begins.refl f
  | cons x ns ih => exact (d.begins_visit t x.2 x.1 f).trans (ih (d.visit t x.2 x.1 f))

/-- The first visits are where all visits begin. -/
theorem begins_visitAll (k : Nat) (f : Findings) :
    (d.visitFirst t k f).Begins (d.visitAll t f) := by
  have hsplit : d.visitAll t f =
      (t.nodes.zipIdx.drop k).foldl (fun f (n, id) => d.visit t id n f) (d.visitFirst t k f) := by
    rw [visitFirst, ← List.foldl_append, List.take_append_drop, visitAll]
  rw [hsplit]
  exact d.begins_foldl_visit t _ _

theorem visitFirst_of_length_le {k : Nat} (hk : t.nodes.length ≤ k) (f : Findings) :
    d.visitFirst t k f = d.visitAll t f := by
  have hall : t.nodes.zipIdx.take k = t.nodes.zipIdx :=
    List.take_of_length_le (by rw [List.length_zipIdx]; exact hk)
  rw [visitFirst, hall, visitAll]

theorem counts_foldl_visit (ns : List (Node × NodeId)) (f : Findings) :
    (ns.foldl (fun f (n, id) => d.visit t id n f) f).nodesVisited = f.nodesVisited + ns.length ∧
      (ns.foldl (fun f (n, id) => d.visit t id n f) f).treesAnalyzed = f.treesAnalyzed := by
  induction ns generalizing f with
  | nil => exact ⟨rfl, rfl⟩
  | cons x ns ih =>
    obtain ⟨n, id⟩ := x
    obtain ⟨hnodes, htrees⟩ := ih (d.visit t id n f)
    have hone : (d.visit t id n f).nodesVisited = f.nodesVisited + 1 ∧
        (d.visit t id n f).treesAnalyzed = f.treesAnalyzed := by
      rw [visit_eq_merge]
      exact ⟨rfl, rfl⟩
    rw [List.foldl_cons, hnodes, htrees, hone.1, hone.2, List.length_cons]
    exact ⟨by omega, rfl⟩

/-- **A traversal that is broken off is a beginning.** Take any dispatcher and any tree that is not
left out. After the first `k` nodes were visited and the tree was closed, the reported diagnostics,
the suppressed ones, each with its directive, and the faults are lists with which those of the
analysis begin; as many nodes are counted as were visited, and one tree. If no node was left
unvisited it is the analysis. -/
theorem abandoned_begins_analysis (ht : d.isExcluded t.path = false) (k : Nat) :
    (finish t (d.visitFirst t k .empty)).diagnostics <+: (d.analyze t).diagnostics ∧
    (finish t (d.visitFirst t k .empty)).suppressed <+: (d.analyze t).suppressed ∧
    (finish t (d.visitFirst t k .empty)).faults <+: (d.analyze t).faults ∧
    (finish t (d.visitFirst t k .empty)).nodesVisited = min k t.nodes.length ∧
    (finish t (d.visitFirst t k .empty)).treesAnalyzed = 1 ∧
    (t.nodes.length ≤ k → finish t (d.visitFirst t k .empty) = d.analyze t) := by
  have hanalyze : d.analyze t = finish t (d.visitAll t .empty) := by
    rw [analyze, ht]
    rfl
  have hbegins := d.begins_visitAll t k .empty
  have hsuppressed := d.suppressed_visitAll_empty t
  have hnone : (d.visitFirst t k .empty).suppressed = [] :=
    List.prefix_nil.mp (hsuppressed ▸ hbegins.suppressed)
  have hclosed := hbegins.finish hnone hsuppressed t
  obtain ⟨hnodes, htrees⟩ := d.counts_foldl_visit t (t.nodes.zipIdx.take k) .empty
  rw [List.length_take, List.length_zipIdx] at hnodes
  rw [hanalyze]
  refine ⟨hclosed.diagnostics, hclosed.suppressed, hclosed.faults, ?_, ?_, ?_⟩
  · rw [finish_eq_merge]
    exact hnodes.trans (Nat.zero_add _)
  · rw [finish_eq_merge]
    exact congrArg (· + 1) htrees
  · intro hk
    rw [d.visitFirst_of_length_le t hk]

/-- Two blocks in a source that disables everything between them. -/
def halfSilenced : Tree where
  path := "a.al"
  source := some "x\n#pragma warning disable\ny"
  nodes := [{ kind := .block, span := ⟨0, 1, 1, 1, 1, 2⟩ },
    { kind := .block, span := ⟨26, 27, 3, 1, 3, 2⟩ }]
  children := [[], []]

/-- Broken off after the first block, the traversal has the reported diagnostic and not yet the
suppressed one. -/
theorem abandoned_halfSilenced : ofBlocks.isExcluded halfSilenced.path = false ∧
    (finish halfSilenced (ofBlocks.visitFirst halfSilenced 1 .empty)).diagnostics <+:
      (ofBlocks.analyze halfSilenced).diagnostics ∧
    (finish halfSilenced (ofBlocks.visitFirst halfSilenced 1 .empty)).diagnostics.length = 1 ∧
    (ofBlocks.analyze halfSilenced).suppressed.length = 1 ∧
    (finish halfSilenced (ofBlocks.visitFirst halfSilenced 1 .empty)).nodesVisited = 1 := by
  have hmain := ofBlocks.abandoned_begins_analysis halfSilenced (by decide) 1
  exact ⟨by decide, hmain.1, by decide, by decide, hmain.2.2.2.1⟩

end Dispatcher
end TreeLint
