/-
# Verdicts on fixtures

A fixture holds if its marks can be read, its source can be resolved, no check
fails, and the marked intervals are those at which the id is reported, each as
often as it is marked. The comparison puts only what is reported in order. That
is enough: the marked intervals are in order as they are read
(`MarkedSource.pairwise_extentLe`), however many of them are empty or meet, and a
list in order is the ordered form of all lists with the same entries. So the
order in which diagnostics are reported has no part in the verdict, nor in the
error of a fixture that does not hold.

The runner of a rule holds that rule alone, with all its descriptors enabled, and
leaves no document out. What it reports is what the plain loop over this one rule
gives, but for what a directive of the source suppresses.

Key definitions: `RuleFixture.alone`.
Key theorems: `RuleFixture.compare_eq_ok_iff`, `RuleFixture.compare_congr`,
`RuleFixture.represents_alone`, `RuleFixture.verdicts_exact`.
-/
import TreeLint.Fixture.Basic
import TreeLint.Proofs.Builtin
import TreeLint.Proofs.Configuration
import TreeLint.Proofs.MarkedTexts

namespace TreeLint

/-! ### The order of intervals -/

namespace Fixture

theorem extentLe_iff {a b : Extent} :
    extentLe a b = true ↔ a.start < b.start ∨ a.start = b.start ∧ a.stop ≤ b.stop := by
  simp [extentLe]

theorem extentLe_trans (a b c : Extent) (hab : extentLe a b = true) (hbc : extentLe b c = true) :
    extentLe a c = true := by
  rw [extentLe_iff] at *
  omega

theorem extentLe_total (a b : Extent) : (extentLe a b || extentLe b a) = true := by
  rw [Bool.or_eq_true, extentLe_iff, extentLe_iff]
  omega

theorem eq_of_extentLe {a b : Extent} (hab : extentLe a b = true) (hba : extentLe b a = true) :
    a = b := by
  obtain ⟨start, stop⟩ := a
  obtain ⟨start', stop'⟩ := b
  rw [extentLe_iff] at hab hba
  simp only at hab hba
  rw [Extent.mk.injEq]
  omega

theorem eq_of_perm_of_pairwise {as bs : List Extent} (has : as.Pairwise (extentLe · ·))
    (hbs : bs.Pairwise (extentLe · ·)) (h : as.Perm bs) : as = bs :=
  h.eq_of_pairwise (fun _ _ _ _ => eq_of_extentLe) has hbs

theorem pairwise_mergeSort (as : List Extent) : (as.mergeSort extentLe).Pairwise (extentLe · ·) :=
  List.pairwise_mergeSort extentLe_trans extentLe_total as

/-- **A list in order is the ordered form of the lists with its entries.** -/
theorem mergeSort_eq_iff {as bs : List Extent} (hbs : bs.Pairwise (extentLe · ·)) :
    as.mergeSort extentLe = bs ↔ as.Perm bs := by
  constructor
  · rintro rfl
    exact (List.mergeSort_perm as _).symm
  · intro h
    exact eq_of_perm_of_pairwise (pairwise_mergeSort as) hbs ((List.mergeSort_perm as _).trans h)

theorem mergeSort_congr {as bs : List Extent} (h : as.Perm bs) :
    as.mergeSort extentLe = bs.mergeSort extentLe :=
  (mergeSort_eq_iff (pairwise_mergeSort bs)).mpr (h.trans (List.mergeSort_perm bs _).symm)

end Fixture

/-- **The marked intervals are in order as they are read.** Two that start at one offset are both
empty, or the first of them is. -/
theorem MarkedSource.pairwise_extentLe {s : String} {m : MarkedSource} (h : ofString s = .ok m) :
    m.markers.Pairwise (Fixture.extentLe · ·) := by
  refine (pairwise_markers h).imp_of_mem fun {a b} ha hb hle => ?_
  have hstart := (cuts_of_mem_markers h ha).1
  have hstop := (cuts_of_mem_markers h hb).1
  rw [Fixture.extentLe_iff]
  omega

namespace RuleFixture

/-! ### The comparison -/

section Compare

variable {id : String} {expected : List Extent} {found found' : Findings}

theorem compare_eq_ok_iff (hexpected : expected.Pairwise (Fixture.extentLe · ·)) :
    compare id expected found = .ok () ↔
      ((found.withId id).map (·.span.extent)).Perm expected := by
  rw [← Fixture.mergeSort_eq_iff hexpected, compare]
  split <;> simp_all

theorem compare_nil_eq_ok_iff :
    compare id [] found = .ok () ↔ ∀ x ∈ found.diagnostics, x.id ≠ id := by
  rw [compare_eq_ok_iff .nil, List.perm_nil, List.map_eq_nil_iff, Findings.withId,
    List.filter_eq_nil_iff]
  simp

theorem compare_congr (h : found.diagnostics.Perm found'.diagnostics) :
    compare id expected found = compare id expected found' := by
  have hextents : ((found.withId id).map (·.span.extent)).Perm
      ((found'.withId id).map (·.span.extent)) := (h.filter _).map _
  rw [compare, compare, Fixture.mergeSort_congr hextents]

end Compare

/-! ### The verdicts of a runner -/

variable {f : RuleFixture} {code id : String} {marked : MarkedSource} {found : Findings}

/-- **A run succeeds if the marks can be read, the source can be resolved and no check fails.** -/
theorem run_eq_ok_iff : f.run code = .ok (marked, found) ↔
    ∃ tree, MarkedSource.ofString code = .ok marked ∧
      f.frontEnd Fixture.path marked.source = .ok tree ∧
      (f.dispatcher.analyze tree).faults = [] ∧ found = f.dispatcher.analyze tree := by
  constructor
  · intro h
    unfold run at h
    split at h
    · cases h
    · rename_i marked' hmarks
      split at h
      · cases h
      · rename_i tree htree
        simp only at h
        split at h
        · cases h
        · rename_i hfaults
          cases h
          exact ⟨tree, hmarks, htree, hfaults, rfl⟩
  · rintro ⟨tree, hmarks, htree, hfaults, rfl⟩
    simp only [run, hmarks, htree, hfaults]

theorem hasDiagnostic_eq_ok_iff : f.hasDiagnostic code id = .ok () ↔
    ∃ marked tree, MarkedSource.ofString code = .ok marked ∧ marked.markers ≠ [] ∧
      f.frontEnd Fixture.path marked.source = .ok tree ∧
      (f.dispatcher.analyze tree).faults = [] ∧
      (((f.dispatcher.analyze tree).withId id).map (·.span.extent)).Perm marked.markers := by
  constructor
  · intro h
    unfold hasDiagnostic at h
    split at h
    · cases h
    · rename_i marked found hrun
      obtain ⟨tree, hmarks, htree, hfaults, rfl⟩ := run_eq_ok_iff.mp hrun
      split at h
      · cases h
      · rename_i hsome
        refine ⟨marked, tree, hmarks, by simpa using hsome, htree, hfaults, ?_⟩
        exact (compare_eq_ok_iff (MarkedSource.pairwise_extentLe hmarks)).mp h
  · rintro ⟨marked, tree, hmarks, hsome, htree, hfaults, hperm⟩
    rw [hasDiagnostic, run_eq_ok_iff.mpr ⟨tree, hmarks, htree, hfaults, rfl⟩]
    simp only
    rw [if_neg (by simpa using hsome)]
    exact (compare_eq_ok_iff (MarkedSource.pairwise_extentLe hmarks)).mpr hperm

theorem noDiagnostic_eq_ok_iff : f.noDiagnostic code id = .ok () ↔
    ∃ marked tree, MarkedSource.ofString code = .ok marked ∧ marked.markers = [] ∧
      f.frontEnd Fixture.path marked.source = .ok tree ∧
      (f.dispatcher.analyze tree).faults = [] ∧
      ∀ x ∈ (f.dispatcher.analyze tree).diagnostics, x.id ≠ id := by
  constructor
  · intro h
    unfold noDiagnostic at h
    split at h
    · cases h
    · rename_i marked found hrun
      obtain ⟨tree, hmarks, htree, hfaults, rfl⟩ := run_eq_ok_iff.mp hrun
      split at h
      · rename_i hempty
        exact ⟨marked, tree, hmarks, by simpa using hempty, htree, hfaults, compare_nil_eq_ok_iff.mp h⟩
      · cases h
  · rintro ⟨marked, tree, hmarks, hempty, htree, hfaults, hothers⟩
    rw [noDiagnostic, run_eq_ok_iff.mpr ⟨tree, hmarks, htree, hfaults, rfl⟩]
    simp only
    rw [if_pos (by simpa using hempty)]
    exact compare_nil_eq_ok_iff.mpr hothers

/-! ### The order of diagnostics -/

section Order

variable {d d' : Dispatcher}
  (hfaults : ∀ tree, (d.analyze tree).faults = (d'.analyze tree).faults)
include hfaults

/-- Runners whose analyses have the same faults fail alike; if not, they find what their analyses
of one tree give. -/
theorem run_cases (frontEnd : FrontEnd) (code : String) :
    (∃ e, run ⟨d, frontEnd⟩ code = .error e ∧ run ⟨d', frontEnd⟩ code = .error e) ∨
      ∃ marked tree, run ⟨d, frontEnd⟩ code = .ok (marked, d.analyze tree) ∧
        run ⟨d', frontEnd⟩ code = .ok (marked, d'.analyze tree) := by
  unfold run
  split
  · exact Or.inl ⟨_, rfl, rfl⟩
  · rename_i marked _
    simp only
    split
    · exact Or.inl ⟨_, rfl, rfl⟩
    · rename_i tree _
      rw [← hfaults tree]
      split
      · exact Or.inl ⟨_, rfl, rfl⟩
      · exact Or.inr ⟨marked, tree, rfl, rfl⟩

variable (hdiagnostics : ∀ tree, (d.analyze tree).diagnostics.Perm (d'.analyze tree).diagnostics)
include hdiagnostics

theorem hasDiagnostic_congr (frontEnd : FrontEnd) (code id : String) :
    hasDiagnostic ⟨d, frontEnd⟩ code id = hasDiagnostic ⟨d', frontEnd⟩ code id := by
  unfold hasDiagnostic
  rcases run_cases hfaults frontEnd code with ⟨e, hrun, hrun'⟩ | ⟨marked, tree, hrun, hrun'⟩
  · rw [hrun, hrun']
  · rw [hrun, hrun']
    simp only
    rw [compare_congr (hdiagnostics tree)]

theorem noDiagnostic_congr (frontEnd : FrontEnd) (code id : String) :
    noDiagnostic ⟨d, frontEnd⟩ code id = noDiagnostic ⟨d', frontEnd⟩ code id := by
  unfold noDiagnostic
  rcases run_cases hfaults frontEnd code with ⟨e, hrun, hrun'⟩ | ⟨marked, tree, hrun, hrun'⟩
  · rw [hrun, hrun']
  · rw [hrun, hrun']
    simp only
    rw [compare_congr (hdiagnostics tree)]

end Order

/-! ### The runner of a rule -/

/-- A rule alone, over the catalog of the linter, with all its descriptors enabled. -/
def alone (rule : Rule) : Setup :=
  ⟨Catalog.builtin, Config.enabling Catalog.builtin rule.descriptors, [rule]⟩

/-- **A rule has a runner if its descriptors are in the catalog.** -/
theorem exists_forRule_iff {rule : Rule} : (∃ f, forRule rule = .ok f) ↔
    ∀ id ∈ rule.descriptors, (Catalog.builtin.primary? id).isSome = true := by
  have hregister := (Dispatcher.Represents.new Catalog.built_builtin).register_eq_ok_iff rule
  simp only [Setup.accepts, List.all_nil, Bool.true_and, List.all_eq_true] at hregister
  rw [← hregister, forRule]
  cases (Dispatcher.new Catalog.builtin).register rule with
  | error e => simp
  | ok d => exact iff_of_true ⟨_, rfl⟩ ⟨d, rfl⟩

theorem severity?_alone {rule : Rule} {id : String} (hid : id ∈ rule.descriptors) :
    (alone rule).severity? id = (Catalog.builtin.primary? id).map (·.severity) := by
  simp only [Setup.severity?, alone]
  cases hp : Catalog.builtin.primary? id with
  | none => rw [Option.bind_none, Option.map_none]
  | some p =>
    have hprimary := Catalog.mem_primaries_of_primary? hp
    rw [Option.bind_some, Option.map_some]
    exact Config.effectiveSeverity?_enabling Catalog.built_builtin hprimary.1 (hprimary.2 ▸ hid)

section ForRule

variable {rule : Rule} {f : RuleFixture} (hf : forRule rule = .ok f)
include hf

/-- The runner of a rule represents the rule alone, and leaves no document out. -/
theorem represents_alone : f.dispatcher.Represents (alone rule) ∧ f.dispatcher.exclusions = [] := by
  unfold forRule at hf
  split at hf
  · cases hf
  · rename_i d hd
    split at hf
    · cases hf
    · rename_i dispatcher hdispatcher
      cases hf
      have hrule := (Dispatcher.Represents.new Catalog.built_builtin).register hd
      have hrep := hrule.withConfig hdispatcher
      -- by rewriting: comparing the setups by evaluation would run through all descriptors
      simp only [List.nil_append] at hrep
      rw [alone]
      refine ⟨hrep, ?_⟩
      cases hdispatcher
      rfl

theorem isExcluded_forRule (path : String) : f.dispatcher.isExcluded path = false := by
  rw [Dispatcher.isExcluded, (represents_alone hf).2, List.any_nil]

/-- **The runner reports what the rule alone finds and no directive suppresses.** -/
theorem analyze_forRule (tree : Tree) :
    (f.dispatcher.analyze tree).diagnostics =
        (((alone rule).plainLoop tree).flatMap (·.1)).filter (fun x => (tree.disabling? x).isNone) ∧
      (f.dispatcher.analyze tree).faults = ((alone rule).plainLoop tree).flatMap (·.2) := by
  rw [Dispatcher.analyze_eq_merge (isExcluded_forRule hf tree.path),
    (represents_alone hf).1.visitAll_eq tree]
  exact ⟨List.append_nil _, List.append_nil _⟩

end ForRule

/-- **Verdicts on fixtures are exact.** Take the runner of any rule that has one, any front end, any
text and any id. The text holds as one with diagnostics if its marks can be read, there is one, the
source can be resolved, no check fails, and the intervals at which the id is reported are the marked
ones, each as often as it is marked. It holds as one without if its marks can be read, there is none,
the source can be resolved, no check fails, and the id is not reported. What is reported is what the
rule alone finds and no directive suppresses. Any dispatcher that has the same faults and, in any
order, the same diagnostics gives the same verdicts, errors included. -/
theorem verdicts_exact {rule : Rule} {f : RuleFixture} (hf : forRule rule = .ok f)
    (frontEnd : FrontEnd) (code id : String) :
    ((f.withFrontEnd frontEnd).hasDiagnostic code id = .ok () ↔
      ∃ marked tree, MarkedSource.ofString code = .ok marked ∧ marked.markers ≠ [] ∧
        frontEnd Fixture.path marked.source = .ok tree ∧
        (f.dispatcher.analyze tree).faults = [] ∧
        (((f.dispatcher.analyze tree).withId id).map (·.span.extent)).Perm marked.markers) ∧
    ((f.withFrontEnd frontEnd).noDiagnostic code id = .ok () ↔
      ∃ marked tree, MarkedSource.ofString code = .ok marked ∧ marked.markers = [] ∧
        frontEnd Fixture.path marked.source = .ok tree ∧
        (f.dispatcher.analyze tree).faults = [] ∧
        ∀ x ∈ (f.dispatcher.analyze tree).diagnostics, x.id ≠ id) ∧
    (∀ tree,
      (f.dispatcher.analyze tree).diagnostics =
        (((alone rule).plainLoop tree).flatMap (·.1)).filter
          (fun x => (tree.disabling? x).isNone) ∧
      (f.dispatcher.analyze tree).faults = ((alone rule).plainLoop tree).flatMap (·.2)) ∧
    ∀ d : Dispatcher, (∀ tree, (d.analyze tree).faults = (f.dispatcher.analyze tree).faults) →
      (∀ tree, (d.analyze tree).diagnostics.Perm (f.dispatcher.analyze tree).diagnostics) →
      hasDiagnostic ⟨d, frontEnd⟩ code id = (f.withFrontEnd frontEnd).hasDiagnostic code id ∧
        noDiagnostic ⟨d, frontEnd⟩ code id = (f.withFrontEnd frontEnd).noDiagnostic code id :=
  ⟨hasDiagnostic_eq_ok_iff, noDiagnostic_eq_ok_iff, analyze_forRule hf,
    fun _ hfaults hdiagnostics => ⟨hasDiagnostic_congr hfaults hdiagnostics frontEnd code id,
      noDiagnostic_congr hfaults hdiagnostics frontEnd code id⟩⟩

/-- A rule that reports every block. -/
def sampleRule : Rule where
  ruleId := "Reporting"
  descriptors := ["LC0040"]
  kinds := [.block]
  check c := .found ⟨"LC0040", .info, c.tree.path, c.node.span, "m"⟩

/-- A front end that finds three blocks in every source, not in the order of their places. -/
def sampleFrontEnd : FrontEnd := fun path source =>
  let block (start stop : Nat) : Node :=
    ⟨.block, ⟨start, stop, 1, start + 1, 1, stop + 1⟩, none, none, none, none, none⟩
  .ok ⟨{ path, source := some source, nodes := [block 3 4, block 1 2, block 3 3] }, [[], [], []]⟩

/-- The rule alone reports each block once, in the order of the nodes. -/
theorem plainLoop_sampleRule {s : Setup} (hrules : s.rules = [sampleRule])
    (hseverity : s.severity? "LC0040" = some .info) {t : Tree} (ht : ∀ n ∈ t.nodes, n.kind = .block) :
    s.plainLoop t = t.nodes.map fun n => ([⟨"LC0040", .info, t.path, n.span, "m"⟩], []) := by
  have hvisit : ∀ x ∈ t.nodes.zipIdx, s.plainVisit t x.2 x.1 =
      [([⟨"LC0040", .info, t.path, x.1.span, "m"⟩], [])] := by
    intro x hx
    have hkind := ht _ (List.mem_of_getElem? (List.mem_zipIdx_iff_getElem?.mp hx))
    have happlies : s.applies x.1 sampleRule = true := by
      simp [Setup.applies, hkind, sampleRule, hseverity]
    rw [Setup.plainVisit, hrules, List.filter_cons_of_pos happlies]
    simp [Setup.run, sampleRule, Setup.recorded, Setup.kept, hseverity]
  have hnodes : t.nodes.zipIdx.map (·.1) = t.nodes := List.zipIdx_map_fst 0 t.nodes
  rw [Setup.plainLoop, List.flatMap_congr hvisit]
  conv_rhs => rw [← hnodes, List.map_map]
  exact List.flatMap_pure_eq_map _ _

theorem severity?_sampleRule : (alone sampleRule).severity? "LC0040" = some .info := by
  rw [severity?_alone List.mem_cons_self, Catalog.primary?_builtin]
  decide

/-- The blocks are reported from the last to the first, and the fixture holds. -/
theorem verdicts_blocks : ∃ f, forRule sampleRule = .ok f ∧
    (f.withFrontEnd sampleFrontEnd).hasDiagnostic "a[|b|]c[||][|d|]" "LC0040" = .ok () := by
  obtain ⟨f, hf⟩ := (@exists_forRule_iff sampleRule).mpr fun id hid => by
    rw [List.mem_singleton.mp hid, Catalog.primary?_builtin]
    decide
  obtain ⟨hhas, -, hreports, -⟩ := verdicts_exact hf sampleFrontEnd "a[|b|]c[||][|d|]" "LC0040"
  have hloop : ∀ t : Tree, (∀ n ∈ t.nodes, n.kind = .block) → (alone sampleRule).plainLoop t = _ :=
    fun _ => plainLoop_sampleRule (by rw [alone]) severity?_sampleRule
  refine ⟨f, hf, hhas.mpr ⟨⟨"abcd", [⟨1, 2⟩, ⟨3, 3⟩, ⟨3, 4⟩]⟩, _, by decide, by simp, rfl, ?_, ?_⟩⟩
  · rw [(hreports _).2, hloop _ (by decide)]
    rfl
  · rw [Findings.withId, (hreports _).1, hloop _ (by decide)]
    decide

end RuleFixture
end TreeLint
