/-
# Directives only move diagnostics

The directives of a source are listed in the order of their lines, so at an
offset the one that decides about an id is the last that is about it and does not
stand behind the offset. The diagnostics of an id are disabled there if that
directive disables (`Pragma.active?_eq_some_iff`).

The rules that come with the linter do not look at the source text. So the
analysis of a tree with source is the analysis of the same tree without it, with
the directives applied to what was reported (`Dispatcher.analyze_eq_underDirectives`):
a diagnostic is reported or suppressed, whichever the directives say, and all else
is the same.

Key definitions: `Pragma.Decides`, `Pragma.DisabledAt`, `Rule.IgnoresSource`.
Key theorems: `Pragma.pairwise_parse`, `Pragma.active?_eq_some_iff`,
`Dispatcher.analyze_eq_underDirectives`, `Dispatcher.directives_only_move`.
-/
import Mathlib.Data.List.Basic
import TreeLint.Proofs.BuiltinRules
import TreeLint.Proofs.Streaming

namespace TreeLint

/-! ### The order of directives -/

theorem Cells.pairwise_linesFrom : ∀ (cs : Cells) (start pos : Nat) (line : Cells), start ≤ pos →
    ((linesFrom start pos line cs).map (·.1)).Pairwise (· < ·) ∧
      ∀ o ∈ (linesFrom start pos line cs).map (·.1), start ≤ o
  | [], start, pos, line, _ => by simp [linesFrom]
  | c :: cs, start, pos, line, hle => by
    unfold linesFrom
    split
    · obtain ⟨hpairwise, hafter⟩ := pairwise_linesFrom cs (pos + 1) (pos + 1) [] (Nat.le_refl _)
      rw [List.map_cons, List.pairwise_cons, List.forall_mem_cons]
      refine ⟨⟨fun o ho => ?_, hpairwise⟩, Nat.le_refl _, fun o ho => ?_⟩
      · have := hafter o ho
        omega
      · have := hafter o ho
        omega
    · exact pairwise_linesFrom cs start (pos + 1) (c :: line) (by omega)

namespace Pragma

/-- Directives stand at the starts of lines. -/
theorem offsets_ofLines_sublist : ∀ (number : Nat) (lines : List (Nat × Cells)),
    ((ofLines number lines).map (·.offset)).Sublist (lines.map (·.1))
  | _, [] => List.Sublist.refl _
  | number, (offset, line) :: lines => by
    have ih := offsets_ofLines_sublist (number + 1) lines
    unfold ofLines
    split
    · exact ih.cons_cons offset
    · exact ih.cons offset

/-- **The directives of a source are listed by their offsets**, which grow. -/
theorem pairwise_parse (source : String) :
    (parse source).Pairwise fun p q => p.offset < q.offset := by
  have hlines := (Cells.pairwise_linesFrom (Cells.ofString source) 0 0 [] (Nat.le_refl 0)).1
  exact List.pairwise_map.mp (hlines.sublist (offsets_ofLines_sublist 1 _))

/-! ### The directive that decides -/

/-- The directive decides about an id at an offset: it is about the id and does not stand behind
the offset, and no other such directive stands behind it. -/
def Decides (ps : List Pragma) (id : String) (offset : Nat) (p : Pragma) : Prop :=
  p ∈ ps ∧ p.appliesTo id = true ∧ p.offset ≤ offset ∧
    ∀ q ∈ ps, q.appliesTo id = true → q.offset ≤ offset → q.offset ≤ p.offset

instance (ps : List Pragma) (id : String) (offset : Nat) (p : Pragma) :
    Decidable (Decides ps id offset p) :=
  inferInstanceAs (Decidable (_ ∧ _ ∧ _ ∧ _))

/-- The diagnostics of an id are disabled at an offset: the directive that decides disables. -/
def DisabledAt (ps : List Pragma) (id : String) (offset : Nat) : Prop :=
  ∃ p ∈ ps, p.action = .disable ∧ Decides ps id offset p

instance (ps : List Pragma) (id : String) (offset : Nat) : Decidable (DisabledAt ps id offset) :=
  inferInstanceAs (Decidable (∃ p ∈ ps, _))

/-- Of the directives passed, the last that is about the id decides; without one, what was in force
before stays in force. -/
theorem lastActive_eq (id : String) : ∀ (ps : List Pragma) (current : Option Pragma),
    lastActive id current ps =
      match (ps.filter (·.appliesTo id)).getLast? with
      | none => current
      | some p => if p.action = .disable then some p else none
  | [], _ => rfl
  | p :: ps, current => by
    unfold lastActive
    cases happlies : p.appliesTo id with
    | false => simp [happlies, lastActive_eq id ps]
    | true =>
      have hlast : ((p :: ps).filter (·.appliesTo id)).getLast? =
          some ((ps.filter (·.appliesTo id)).getLast?.getD p) := by
        simp [happlies, List.getLast?_cons]
      rw [hlast, if_pos rfl]
      cases haction : p.action with
      | disable =>
        simp only [lastActive_eq id ps]
        cases (ps.filter (·.appliesTo id)).getLast? <;> simp [haction]
      | restore =>
        simp only [lastActive_eq id ps]
        cases (ps.filter (·.appliesTo id)).getLast? <;> simp [haction]

section Ordered

variable {ps : List Pragma} (hps : ps.Pairwise fun p q => p.offset < q.offset)
include hps

theorem mem_takeWhile_iff {offset : Nat} {p : Pragma} :
    p ∈ ps.takeWhile (fun q => decide (q.offset ≤ offset)) ↔ p ∈ ps ∧ p.offset ≤ offset := by
  induction ps with
  | nil => simp
  | cons q ps ih =>
    rw [List.pairwise_cons] at hps
    by_cases hq : q.offset ≤ offset
    · rw [List.takeWhile_cons_of_pos (by simpa using hq), List.mem_cons, List.mem_cons, ih hps.2]
      constructor
      · rintro (rfl | ⟨hp, hle⟩)
        · exact ⟨Or.inl rfl, hq⟩
        · exact ⟨Or.inr hp, hle⟩
      · rintro ⟨rfl | hp, hle⟩
        · exact Or.inl rfl
        · exact Or.inr ⟨hp, hle⟩
    · -- the first directive is behind the offset, and so are all others
      rw [List.takeWhile_cons_of_neg (by simpa using hq)]
      simp only [List.not_mem_nil, List.mem_cons, false_iff, not_and]
      rintro (rfl | hp) hle
      · exact hq hle
      · have := hps.1 p hp
        omega

/-- In a list by offsets, the last directive is the one with the greatest offset. -/
theorem getLast?_eq_some_iff_greatest {p : Pragma} :
    ps.getLast? = some p ↔ p ∈ ps ∧ ∀ q ∈ ps, q.offset ≤ p.offset := by
  have hlast : ∀ {r}, ps.getLast? = some r → r ∈ ps ∧ ∀ q ∈ ps, q.offset ≤ r.offset := by
    intro r hr
    obtain ⟨before, rfl⟩ := List.getLast?_eq_some_iff.mp hr
    refine ⟨by simp, fun q hq => ?_⟩
    rcases List.mem_append.mp hq with hq | hq
    · exact Nat.le_of_lt ((List.pairwise_append.mp hps).2.2 q hq r (by simp))
    · rw [List.mem_singleton.mp hq]
  refine ⟨hlast, fun ⟨hp, hgreatest⟩ => ?_⟩
  have hne : ps ≠ [] := List.ne_nil_of_mem hp
  obtain ⟨hmem, hge⟩ := hlast (List.getLast?_eq_some_getLast hne)
  have hsame : (ps.getLast hne).offset = p.offset :=
    Nat.le_antisymm (hgreatest _ hmem) (hge p hp)
  have hinj : ∀ q ∈ ps, ∀ r ∈ ps, q.offset = r.offset → q = r :=
    List.inj_on_of_nodup_map ((List.pairwise_map.mpr hps).imp Nat.ne_of_lt)
  rw [List.getLast?_eq_some_getLast hne, hinj _ hmem p hp hsame]

/-- **The directive in force is the one that decides, if it disables.** -/
theorem active?_eq_some_iff {id : String} {offset : Nat} {p : Pragma} :
    active? ps id offset = some p ↔ p.action = .disable ∧ Decides ps id offset p := by
  have hdecides : ∀ q, ((ps.takeWhile fun q => decide (q.offset ≤ offset)).filter
      (·.appliesTo id)).getLast? = some q ↔ Decides ps id offset q := by
    intro q
    rw [getLast?_eq_some_iff_greatest
      (hps.sublist (List.filter_sublist.trans (List.takeWhile_sublist _)))]
    simp only [List.mem_filter, mem_takeWhile_iff hps, Decides]
    constructor
    · rintro ⟨⟨⟨hq, hle⟩, happlies⟩, hgreatest⟩
      exact ⟨hq, happlies, hle, fun r hr hrapplies hrle => hgreatest r ⟨⟨hr, hrle⟩, hrapplies⟩⟩
    · rintro ⟨hq, happlies, hle, hgreatest⟩
      exact ⟨⟨⟨hq, hle⟩, happlies⟩, fun r hr => hgreatest r hr.1.1 hr.2 hr.1.2⟩
  rw [active?, lastActive_eq, ← hdecides p]
  cases ((ps.takeWhile fun q => decide (q.offset ≤ offset)).filter (·.appliesTo id)).getLast? with
  | none => simp
  | some q =>
    simp only [Option.ite_none_right_eq_some, Option.some.injEq]
    constructor
    · rintro ⟨haction, rfl⟩
      exact ⟨haction, rfl⟩
    · rintro ⟨haction, rfl⟩
      exact ⟨haction, rfl⟩

theorem isSome_active?_iff {id : String} {offset : Nat} :
    (active? ps id offset).isSome = true ↔ DisabledAt ps id offset := by
  rw [Option.isSome_iff_exists]
  constructor
  · rintro ⟨p, hp⟩
    obtain ⟨haction, hdecides⟩ := (active?_eq_some_iff hps).mp hp
    exact ⟨p, hdecides.1, haction, hdecides⟩
  · rintro ⟨p, -, haction, hdecides⟩
    exact ⟨p, (active?_eq_some_iff hps).mpr ⟨haction, hdecides⟩⟩

end Ordered

/-- Without directives the general loop gives what the short cut gives. -/
theorem filter_eq_partition (ps : List Pragma) (ds : List Diagnostic) :
    filter ps ds = partition ps ds := by
  rw [filter_eq, partition_eq]

end Pragma

/-! ### Rules that do not look at the source -/

/-- A check that does not look at the source text. -/
def Rule.IgnoresSource (rule : Rule) : Prop :=
  ∀ c : RuleContext, rule.check { c with tree := c.tree.withoutSource } = rule.check c

namespace Tree

variable (t : Tree)

theorem walk_withoutSource : ∀ (steps : Nat) (pending : List NodeId),
    t.withoutSource.walk steps pending = t.walk steps pending
  | 0, _ => rfl
  | _ + 1, [] => rfl
  | steps + 1, n :: pending => by
    rw [walk, walk, walk_withoutSource steps]
    rfl

theorem refersToRecord_withoutSource (n : NodeId) :
    t.withoutSource.refersToRecord n = t.refersToRecord n := by
  rw [refersToRecord, refersToRecord, descendantsAndSelf, walk_withoutSource]
  rfl

theorem objectWithin_withoutSource : ∀ (steps : Nat) (s : SymbolId),
    t.withoutSource.objectWithin steps s = t.objectWithin steps s
  | 0, _ => rfl
  | steps + 1, s => by
    have ih := objectWithin_withoutSource steps
    have hsymbol : t.withoutSource.symbol? s = t.symbol? s := rfl
    simp only [objectWithin, hsymbol, ih]

theorem containingObject?_withoutSource (s : SymbolId) :
    t.withoutSource.containingObject? s = t.containingObject? s :=
  t.objectWithin_withoutSource _ s

theorem isExempt_withoutSource (s : Option SymbolId) :
    t.withoutSource.isExempt s = t.isExempt s := by
  cases s with
  | none => rfl
  | some s =>
    rw [isExempt, isExempt, containingObject?_withoutSource]
    rfl

theorem insideCodeunit_withoutSource (s : Option SymbolId) (name : String) :
    Rule.insideCodeunit t.withoutSource s name = Rule.insideCodeunit t s name := by
  have hobject : t.withoutSource.containingObject? = t.containingObject? :=
    funext t.containingObject?_withoutSource
  rw [Rule.insideCodeunit, Rule.insideCodeunit, hobject]
  rfl

theorem ofDocument_withoutSource {doc : Document} {t : Tree} (h : ofDocument doc = .ok t) :
    ofDocument { doc with source := none } = .ok t.withoutSource := by
  obtain ⟨⟨hfits, hwf⟩, rfl, hchildren⟩ := ofDocument_eq_ok_iff.mp h
  have hwf' : Document.WellFormed { t.toDocument with source := none } :=
    ⟨hwf.containing_lt, hwf.acyclic, hwf.parent_lt, hwf.symbol_lt, hwf.value_lt⟩
  exact ofDocument_eq_ok_iff.mpr ⟨⟨hfits, hwf'⟩, rfl, hchildren⟩

end Tree

namespace Rule

theorem onBuiltInCall_withoutSource (c : RuleContext) (check : Invocation → Outcome) :
    onBuiltInCall { c with tree := c.tree.withoutSource } check = onBuiltInCall c check := by
  unfold onBuiltInCall RuleContext.isExempt
  rw [Tree.isExempt_withoutSource]

theorem ignoresSource_of_mem_builtinRules {rule : Rule} (h : rule ∈ Dispatcher.builtinRules) :
    rule.IgnoresSource := by
  intro c
  rcases List.mem_pair.mp h with rfl | rfl
  · simp only [runTrigger, checkRunTrigger, onBuiltInCall_withoutSource,
      Tree.refersToRecord_withoutSource]
    rfl
  · simp only [helperCodeunit, checkHelperCodeunit, onBuiltInCall_withoutSource,
      Tree.insideCodeunit_withoutSource]
    rfl

end Rule

namespace Findings

variable {t : Tree} {f : Findings}

theorem map_diagnostic_suppressed_underDirectives (hf : f.suppressed = []) :
    (f.underDirectives t).suppressed.map (·.diagnostic) =
      f.diagnostics.filter fun x => (t.disabling? x).isSome := by
  have hsome : ∀ x, ((t.disabling? x).map (Suppressed.mk x)).map (·.diagnostic) =
      Option.guard (fun x => (t.disabling? x).isSome) x := by
    intro x
    cases h : t.disabling? x <;> simp [Option.guard, h]
  rw [underDirectives, hf, List.nil_append, List.map_filterMap, ← List.filterMap_eq_filter]
  exact List.filterMap_congr fun x _ => hsome x

/-- What the directives leave and what they suppress is together what there was. -/
theorem raised_underDirectives_perm (hf : f.suppressed = []) :
    (f.underDirectives t).raised.Perm f.diagnostics := by
  rw [raised, map_diagnostic_suppressed_underDirectives hf]
  have hparts := List.filter_append_perm (fun x => (t.disabling? x).isNone) f.diagnostics
  simp only [Option.not_isNone] at hparts
  exact hparts

end Findings

namespace Dispatcher

section IgnoresSource

variable {d : Dispatcher} (hrules : ∀ rule ∈ d.rules, rule.IgnoresSource) (t : Tree)
include hrules

theorem visit_withoutSource (id : NodeId) (n : Node) (f : Findings) :
    d.visit t.withoutSource id n f = d.visit t id n f := by
  refine List.foldl_ext _ _ _ fun f rule hrule => ?_
  have hcheck := hrules rule (mem_rules_of_mem_subscribers hrule) (d.contextOf t id n rule)
  have hrun : d.runRule t.withoutSource id n rule = d.runRule t id n rule := by
    rw [runRule, runRule, ← hcheck]
    rfl
  rw [hrun]

theorem visitAll_withoutSource (f : Findings) :
    d.visitAll t.withoutSource f = d.visitAll t f :=
  List.foldl_ext _ _ _ fun f x _ => visit_withoutSource hrules t x.2 x.1 f

/-- **The source only brings in its directives**: analysing a tree with source is analysing it
without and applying the directives to the result. -/
theorem analyze_eq_underDirectives :
    d.analyze t = (d.analyze t.withoutSource).underDirectives t := by
  have hpath : d.isExcluded t.withoutSource.path = d.isExcluded t.path := rfl
  cases ht : d.isExcluded t.path with
  | true =>
    rw [analyze_of_isExcluded ht, analyze_of_isExcluded (hpath.trans ht)]
    rfl
  | false =>
    have hplain : d.analyze t.withoutSource =
        (d.visitAll t .empty).merge { treesAnalyzed := 1 } := by
      rw [analyze, hpath, ht, if_neg Bool.false_ne_true, visitAll_withoutSource hrules]
      simp [finish, Tree.withoutSource, Findings.merge]
    rw [analyze_eq_merge ht, hplain, Findings.underDirectives_merge _ _ rfl]
    rfl

end IgnoresSource

theorem suppressed_analyze_withoutSource (d : Dispatcher) (t : Tree) :
    (d.analyze t.withoutSource).suppressed = [] := by
  unfold analyze
  split
  · rfl
  · exact d.suppressed_visitAll_empty t.withoutSource

variable {config : Config} {d : Dispatcher} {doc : Document} {t : Tree}

/-- **Directives only move diagnostics.** Take the dispatcher that comes with the linter under any
configuration, any tree with source, and the diagnostics of the same tree without its source. Of
these, in order, those are reported that no directive disables at the place where they start, and
the others are suppressed, each as it was and together with the directive in force there. So none is
added, lost, repeated or changed. Faults and counts are the same. Leaving out the loop when there
are no directives makes no difference. -/
theorem directives_only_move (hd : builtinUnder config = .ok d) (ht : Tree.ofDocument doc = .ok t)
    {source : String} (hsource : t.source = some source) :
    Tree.ofDocument { doc with source := none } = .ok t.withoutSource ∧
    (d.analyze t).diagnostics = (d.analyze t.withoutSource).diagnostics.filter (fun x =>
      ¬ Pragma.DisabledAt (Pragma.parse source) x.id x.span.startByte) ∧
    (d.analyze t).suppressed.map (·.diagnostic) =
      (d.analyze t.withoutSource).diagnostics.filter (fun x =>
        Pragma.DisabledAt (Pragma.parse source) x.id x.span.startByte) ∧
    (∀ s ∈ (d.analyze t).suppressed,
      Pragma.active? (Pragma.parse source) s.diagnostic.id s.diagnostic.span.startByte =
        some s.pragma) ∧
    (d.analyze t).raised.Perm (d.analyze t.withoutSource).diagnostics ∧
    (d.analyze t.withoutSource).suppressed = [] ∧
    (d.analyze t).faults = (d.analyze t.withoutSource).faults ∧
    (d.analyze t).treesAnalyzed = (d.analyze t.withoutSource).treesAnalyzed ∧
    (d.analyze t).nodesVisited = (d.analyze t.withoutSource).nodesVisited ∧
    ∀ ps ds, Pragma.filter ps ds = Pragma.partition ps ds := by
  have hrules : ∀ rule ∈ d.rules, rule.IgnoresSource := by
    rw [(represents_builtinUnder hd).rules_eq, Setup.rules_builtin]
    exact fun rule hrule => Rule.ignoresSource_of_mem_builtinRules hrule
  have hmoved := analyze_eq_underDirectives hrules t
  have hnone := d.suppressed_analyze_withoutSource t
  have hdisabling : ∀ x, t.disabling? x =
      Pragma.active? (Pragma.parse source) x.id x.span.startByte := by
    intro x
    rw [Tree.disabling?, Tree.directives, hsource]
  have hdisabled : ∀ x, (t.disabling? x).isSome =
      decide (Pragma.DisabledAt (Pragma.parse source) x.id x.span.startByte) := by
    intro x
    rw [Bool.eq_iff_iff, decide_eq_true_iff, ← Pragma.isSome_active?_iff (Pragma.pairwise_parse _),
      hdisabling]
  refine ⟨Tree.ofDocument_withoutSource ht, ?_, ?_, ?_, ?_, hnone, ?_, ?_, ?_,
    Pragma.filter_eq_partition⟩
  · rw [hmoved, Findings.underDirectives]
    refine List.filter_congr fun x _ => ?_
    rw [decide_not, ← hdisabled, Option.not_isSome]
  · rw [hmoved, Findings.map_diagnostic_suppressed_underDirectives hnone]
    exact List.filter_congr fun x _ => hdisabled x
  · intro s hs
    rw [← hdisabling]
    exact (d.disabling?_of_mem_suppressed hs).2
  · rw [hmoved]
    exact Findings.raised_underDirectives_perm hnone
  · rw [hmoved]
    rfl
  · rw [hmoved]
    rfl
  · rw [hmoved]
    rfl

/-- The change of a record and the question again, now with a source that disables what is said of
the change. -/
def silencedChange : Document :=
  { sampleCallsDocument with source := some "#pragma warning disable lc0040 // later" }

/-- What is said of the change is suppressed by the directive and not reported. -/
theorem directives_move_silencedChange : ∃ d t, builtinUnder {} = .ok d ∧
    Tree.ofDocument silencedChange = .ok t ∧
    t.source = some "#pragma warning disable lc0040 // later" ∧
    ⟨⟨"LC0040", .info, "a.al", ⟨0, 9, 1, 1, 1, 10⟩, Catalog.runTriggerText⟩,
      ⟨.disable, ["lc0040"], 1, 0⟩⟩ ∈ (d.analyze t).suppressed ∧
    ∀ x ∈ (d.analyze t).diagnostics, x.id ≠ "LC0040" := by
  obtain ⟨d, hd⟩ := @exists_builtinUnder {} [] rfl
  let plain : Tree := ⟨sampleCallsDocument, [[1], [], []]⟩
  let t : Tree := ⟨silencedChange, [[1], [], []]⟩
  have hplain : Tree.ofDocument sampleCallsDocument = .ok plain := rfl
  have ht : Tree.ofDocument silencedChange = .ok t := rfl
  have hparse : Pragma.parse "#pragma warning disable lc0040 // later" =
      [⟨.disable, ["lc0040"], 1, 0⟩] := by decide
  have hchange : plain.LeavesTriggerOpen 0 plain.nodes[0] :=
    ⟨_, ⟨rfl, (Tree.isExempt_eq_false_iff (i := 0) hplain rfl).mp (by decide), rfl, rfl⟩, by decide,
      (Tree.refersToRecord_eq_true_iff hplain (by decide)).mp (by decide),
      (Invocation.any_binds_eq_false_iff _ (Rule.isPlain_of_mem (by simp))).mp (by decide)⟩
  let change : Diagnostic :=
    ⟨"LC0040", .info, "a.al", ⟨0, 9, 1, 1, 1, 10⟩, Catalog.runTriggerText⟩
  have hreportAt : change ∈
      (Setup.builtin {}).reportAt plain plain.nodes[0] "LC0040" Catalog.runTriggerText := by
    rw [Setup.reportAt, Setup.severity?_builtin_default List.mem_cons_self]
    exact List.mem_cons_self
  have hreported : change ∈ (d.analyze plain).diagnostics := by
    have hvisit := (mem_visit_runTrigger_iff hd hplain (i := 0) rfl rfl).mpr ⟨hchange, hreportAt⟩
    have hraised : change ∈ (d.analyze plain).raised :=
      mem_raised_analyze.mpr ⟨isExcluded_builtinUnder_default hd _,
        (d.mem_diagnostics_visitAll plain).mpr ⟨0, _, rfl, hvisit⟩⟩
    have hnone : (d.analyze plain).suppressed = [] := d.suppressed_analyze_withoutSource t
    rwa [Findings.raised, hnone, List.map_nil, List.append_nil] at hraised
  obtain ⟨-, hactive, hsuppressed, hpragma, -⟩ := directives_only_move hd ht rfl
  refine ⟨d, t, hd, ht, rfl, ?_, ?_⟩
  · have hmoved : change ∈ (d.analyze t).suppressed.map (·.diagnostic) := by
      rw [hsuppressed, List.mem_filter, hparse]
      exact ⟨hreported, by decide⟩
    obtain ⟨s, hs, hdiagnostic⟩ := List.mem_map.mp hmoved
    have hline := hpragma s hs
    rw [hdiagnostic, hparse] at hline
    have hforce : Pragma.active? [⟨.disable, ["lc0040"], 1, 0⟩] change.id change.span.startByte =
        some ⟨.disable, ["lc0040"], 1, 0⟩ := by decide
    have hs_eq : s = ⟨change, ⟨.disable, ["lc0040"], 1, 0⟩⟩ := by
      rw [← hdiagnostic, ← Option.some.inj (hline.symm.trans hforce)]
    exact hs_eq ▸ hs
  · intro x hx hid
    rw [hactive, List.mem_filter, hid, hparse] at hx
    have hnot : ¬ Pragma.DisabledAt [⟨.disable, ["lc0040"], 1, 0⟩] "LC0040" x.span.startByte := by
      simpa using hx.2
    have happlies : Pragma.appliesTo ⟨.disable, ["lc0040"], 1, 0⟩ "LC0040" = true := by decide
    refine hnot ⟨_, List.mem_cons_self, rfl, List.mem_cons_self, happlies, Nat.zero_le _, ?_⟩
    intro q hq _ _
    rw [List.mem_singleton.mp hq]

end Dispatcher
end TreeLint
