/-
# Streaming several trees into one result

A host may visit the nodes of one tree after the other itself, closing each tree
when it is done with it, and collect everything in one place. Analysing the
trees one by one and merging gives the same result exactly when no tree has
directives that disable a diagnostic still reported in an earlier one: closing a
tree applies its directives to all that was collected, also to the diagnostics
of the trees before it.

Key definitions: `Dispatcher.streamAll`, `Dispatcher.LeavesAlone`.
Key theorem: `Dispatcher.streamAll_eq_analyzeAll_iff`.
-/
import Mathlib.Data.List.Induction
import TreeLint.Proofs.Findings

namespace TreeLint
namespace Dispatcher

/-- The findings of a host that visits the nodes of each tree and then closes the tree, tree after
tree. -/
def streamAll (d : Dispatcher) (ts : List Tree) : Findings :=
  ts.foldl (fun f t => finish t (d.visitAll t f)) .empty

/-- The directives of a later tree disable no diagnostic that is reported in an earlier one. -/
def LeavesAlone (d : Dispatcher) (later earlier : Tree) : Prop :=
  ∀ x ∈ (d.analyze earlier).diagnostics, later.disabling? x = none

instance (d : Dispatcher) (later earlier : Tree) : Decidable (d.LeavesAlone later earlier) :=
  inferInstanceAs (Decidable (∀ x ∈ (d.analyze earlier).diagnostics, later.disabling? x = none))

variable (d : Dispatcher) {t : Tree} {ts : List Tree}

/-- One tree of a stream: its directives are applied to what was there before, and what the tree
gives by itself is merged onto that. -/
theorem finish_visitAll_eq_merge (ht : d.isExcluded t.path = false) (f : Findings) :
    finish t (d.visitAll t f) = (f.underDirectives t).merge (d.analyze t) := by
  have halone : d.analyze t = ((d.visitAll t .empty).underDirectives t).merge
      { treesAnalyzed := 1 } := by
    rw [analyze, ht, ← finish_eq_merge]
    rfl
  rw [finish_eq_merge, visitAll_eq_merge_empty,
    Findings.underDirectives_merge t f (d.suppressed_visitAll_empty t), Findings.merge_assoc,
    ← halone]

theorem streamAll_concat (ht : d.isExcluded t.path = false) :
    d.streamAll (ts ++ [t]) = ((d.streamAll ts).underDirectives t).merge (d.analyze t) := by
  rw [← d.finish_visitAll_eq_merge ht, streamAll, List.foldl_append]
  rfl

theorem analyzeAll_concat : d.analyzeAll (ts ++ [t]) = (d.analyzeAll ts).merge (d.analyze t) := by
  rw [analyzeAll, List.map_append, List.map_singleton, Findings.mergeAll_concat]
  rfl

theorem length_streamAll_le (h : ∀ t ∈ ts, d.isExcluded t.path = false) :
    (d.streamAll ts).diagnostics.length ≤ (d.analyzeAll ts).diagnostics.length := by
  induction ts using List.reverseRecOn with
  | nil => exact Nat.le_refl 0
  | append_singleton ts t ih =>
    have ih := ih fun t ht => h t (List.mem_append_left _ ht)
    have hle := Findings.length_underDirectives_le t (d.streamAll ts)
    rw [d.streamAll_concat (h t (by simp)), d.analyzeAll_concat]
    simp only [Findings.merge, List.length_append]
    omega

/-- **One more tree.** The stream still agrees with the analysis exactly when it did before and the
new tree disables none of the diagnostics collected. -/
theorem streamAll_concat_eq_iff (h : ∀ t ∈ ts, d.isExcluded t.path = false)
    (ht : d.isExcluded t.path = false) :
    d.streamAll (ts ++ [t]) = d.analyzeAll (ts ++ [t]) ↔
      d.streamAll ts = d.analyzeAll ts ∧
        ∀ x ∈ (d.analyzeAll ts).diagnostics, t.disabling? x = none := by
  rw [d.streamAll_concat ht, d.analyzeAll_concat]
  constructor
  · intro heq
    have hcut : (d.streamAll ts).underDirectives t = d.analyzeAll ts :=
      Findings.merge_right_cancel heq
    -- nothing got lost, so the directives disabled nothing
    have hlen : ((d.streamAll ts).underDirectives t).diagnostics.length =
        (d.streamAll ts).diagnostics.length := by
      have hcut_len := congrArg (·.diagnostics.length) hcut
      have hle := d.length_streamAll_le h
      have hunder := Findings.length_underDirectives_le t (d.streamAll ts)
      omega
    have hnone := Findings.disabling?_eq_none_of_length hlen
    have hsame : d.streamAll ts = d.analyzeAll ts := by
      rw [← hcut, Findings.underDirectives_eq_self hnone]
    exact ⟨hsame, hsame ▸ hnone⟩
  · rintro ⟨hsame, hnone⟩
    rw [hsame, Findings.underDirectives_eq_self hnone]

theorem mem_diagnostics_analyzeAll {x : Diagnostic} :
    x ∈ (d.analyzeAll ts).diagnostics ↔ ∃ t ∈ ts, x ∈ (d.analyze t).diagnostics := by
  simp [analyzeAll, Findings.diagnostics_mergeAll]

/-- What is suppressed in a tree was reported in it, and a directive of it disables it. -/
theorem disabling?_of_mem_suppressed {s : Suppressed} (hs : s ∈ (d.analyze t).suppressed) :
    s.diagnostic ∈ (d.visitAll t .empty).diagnostics ∧
      t.disabling? s.diagnostic = some s.pragma := by
  unfold analyze at hs
  split at hs
  · simp [Findings.empty] at hs
  · rw [finish_eq_merge] at hs
    simp only [Findings.merge, Findings.underDirectives, suppressed_visitAll_empty,
      List.nil_append, List.append_nil, List.mem_filterMap, Option.map_eq_some_iff] at hs
    obtain ⟨x, hx, p, hp, rfl⟩ := hs
    exact ⟨hx, hp⟩

/-- **A stream agrees with the analysis exactly when no tree reaches back.** Visiting and closing
trees one after the other gives what analysing them gives if and only if no tree disables a
diagnostic that is reported in a tree before it. In the analysis itself a diagnostic is only
suppressed by a directive of the tree it was reported in. -/
theorem streamAll_eq_analyzeAll_iff (ts : List Tree)
    (h : ∀ t ∈ ts, d.isExcluded t.path = false) :
    (d.streamAll ts = d.analyzeAll ts ↔
      ts.Pairwise fun earlier later => d.LeavesAlone later earlier) ∧
    ∀ s ∈ (d.analyzeAll ts).suppressed, ∃ t ∈ ts,
      s.diagnostic ∈ (d.visitAll t .empty).diagnostics ∧ s.pragma ∈ t.directives ∧
        t.disabling? s.diagnostic = some s.pragma := by
  constructor
  · induction ts using List.reverseRecOn with
    | nil => simp [streamAll, analyzeAll, Findings.mergeAll]
    | append_singleton ts t ih =>
      have hts : ∀ t ∈ ts, d.isExcluded t.path = false := fun t ht =>
        h t (List.mem_append_left _ ht)
      rw [d.streamAll_concat_eq_iff hts (h t (by simp)), ih hts, List.pairwise_append]
      simp only [List.pairwise_singleton, List.mem_singleton, forall_eq, true_and,
        mem_diagnostics_analyzeAll, LeavesAlone]
      refine and_congr_right fun _ => ⟨?_, ?_⟩
      · intro hall a ha x hx
        exact hall x ⟨a, ha, hx⟩
      · rintro hall x ⟨a, ha, hx⟩
        exact hall a ha x hx
  · intro s hs
    rw [analyzeAll, Findings.suppressed_mergeAll, List.mem_flatMap] at hs
    obtain ⟨f, hf, hs⟩ := hs
    obtain ⟨t, ht, rfl⟩ := List.mem_map.mp hf
    obtain ⟨hx, hp⟩ := d.disabling?_of_mem_suppressed hs
    exact ⟨t, ht, hx, Pragma.mem_of_active? hp, hp⟩

/-- A dispatcher with one rule, which reports at every block. -/
def ofBlocks : Dispatcher where
  catalog := {
    descriptors := [Catalog.design "LC0040" "EveryBlock" .info true "t" "m" "d"]
    byId := [("LC0040", 0)]
    byName := [("EveryBlock", 0)] }
  rules := [⟨"EveryBlock", ["LC0040"], [.block], fun c => c.report "LC0040" []⟩]
  byKind := fun kind => if kind = .block then [0] else []
  severities := [("LC0040", .info)]

/-- A block without source. -/
def plainBlock : Tree where
  path := "a.al"
  nodes := [{ kind := .block, span := ⟨24, 25, 2, 1, 2, 2⟩ }]
  children := [[]]

/-- The same block in a source that disables everything. -/
def silencedBlock : Tree :=
  { plainBlock with path := "b.al", source := some "#pragma warning disable\nx" }

/-- A tree that silences itself does not reach the tree after it. -/
theorem streamAll_silenced_first :
    (∀ t ∈ [silencedBlock, plainBlock], ofBlocks.isExcluded t.path = false) ∧
      ofBlocks.streamAll [silencedBlock, plainBlock] =
        ofBlocks.analyzeAll [silencedBlock, plainBlock] :=
  ⟨by decide, (ofBlocks.streamAll_eq_analyzeAll_iff _ (by decide)).1.mpr (by decide)⟩

/-- It does reach the tree before it: the diagnostic of the first tree is suppressed by a directive of
the second. -/
theorem streamAll_silenced_last :
    (∀ t ∈ [plainBlock, silencedBlock], ofBlocks.isExcluded t.path = false) ∧
      ofBlocks.streamAll [plainBlock, silencedBlock] ≠
        ofBlocks.analyzeAll [plainBlock, silencedBlock] ∧
      ∃ s ∈ (ofBlocks.streamAll [plainBlock, silencedBlock]).suppressed,
        s.diagnostic ∈ (ofBlocks.analyze plainBlock).diagnostics ∧
          s.pragma ∉ plainBlock.directives := by
  decide

end Dispatcher
end TreeLint
