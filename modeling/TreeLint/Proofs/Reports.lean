/-
# Reports refer only to what is there

A check may answer a diagnostic of any id, also of one that the catalog does not
know. What gets into the findings is only what is enabled, at the severity in
force, and only primaries of the catalog are enabled; the diagnostics about faults
are no exception (`Setup.severity?_of_mem_recorded`). Merging and directives keep
this, so every id that an analysis reports has a primary.

A log lists an entry for each id among its results. Since all of them have a
primary, none is missing, and the entries are listed by id
(`Sarif.map_id_rules`). What an entry says is taken from the primary
(`Sarif.Entry.Describes`), and the value written of the log says the same
(`Sarif.Log.ofJson?_toJson`).

Key definitions: `Dispatcher.InForce`, `Sarif.Entry.Describes`, `Sarif.Result.Tells`.
Key theorems: `Dispatcher.Represents.inForce_of_mem_raised`,
`Sarif.pairwise_reportedIds`, `Sarif.map_id_rules`, `Dispatcher.sarif_log_integrity`.
-/
import Mathlib.Data.String.Basic
import TreeLint.Proofs.FaultIsolation
import TreeLint.Proofs.Logs
import TreeLint.Proofs.Registration

namespace TreeLint

/-! ### What gets into the findings -/

namespace Setup

variable {s : Setup} {t : Tree} {i : NodeId} {n : Node} {rule : Rule} {x : Diagnostic}

/-- What is recorded after a check, whatever the check answered, is enabled and has the severity in
force. -/
theorem severity?_of_mem_recorded {o : Outcome} (h : x ∈ (s.recorded t n rule o).1) :
    s.severity? x.id = some x.severity := by
  have habout : ∀ {fault : Fault}, x ∈ s.aboutFault fault → s.severity? x.id = some x.severity := by
    intro fault hx
    rw [aboutFault_eq] at hx
    obtain ⟨severity, hseverity, rfl⟩ := List.mem_map.mp hx
    exact Option.mem_toList.mp hseverity
  cases o with
  | nothing => cases h
  | found y =>
    simp only [recorded, kept] at h
    split at h
    · rename_i severity hseverity
      rw [List.mem_singleton.mp h]
      exact hseverity
    · cases h
  | failed chain => exact habout h
  | brokeOff text => exact habout h

theorem severity?_of_mem_adds (h : x ∈ (s.adds t i n rule).1) :
    s.severity? x.id = some x.severity := by
  unfold adds run at h
  split at h
  · exact severity?_of_mem_recorded h
  · cases h

end Setup

namespace Findings

theorem mem_raised_mergeAll {x : Diagnostic} {fs : List Findings} :
    x ∈ (mergeAll fs).raised ↔ ∃ f ∈ fs, x ∈ f.raised := by
  simp only [raised, diagnostics_mergeAll, suppressed_mergeAll, List.mem_append, List.mem_flatMap,
    List.mem_map]
  constructor
  · rintro (⟨f, hf, hx⟩ | ⟨s, ⟨f, hf, hs⟩, rfl⟩)
    · exact ⟨f, hf, Or.inl hx⟩
    · exact ⟨f, hf, Or.inr ⟨s, hs, rfl⟩⟩
  · rintro ⟨f, hf, hx | ⟨s, hs, rfl⟩⟩
    · exact Or.inl ⟨f, hf, hx⟩
    · exact Or.inr ⟨s, ⟨f, hf, hs⟩, rfl⟩

end Findings

namespace Dispatcher

/-- The diagnostic is one that the dispatcher may report: its id has a primary in the catalog, and
it has the severity in force. -/
def InForce (d : Dispatcher) (x : Diagnostic) : Prop :=
  (∃ p ∈ d.catalog.primaries, p.id = x.id) ∧ d.severityFor? x.id = some x.severity

variable {d : Dispatcher} {s : Setup}

/-- Only ids of primaries are enabled. -/
theorem Represents.inForce_iff (h : d.Represents s) {x : Diagnostic} :
    d.InForce x ↔ s.severity? x.id = some x.severity := by
  rw [InForce, h.severityFor?_eq, and_iff_right_iff_imp]
  intro hseverity
  obtain ⟨p, hp, -⟩ := Option.bind_eq_some_iff.mp hseverity
  rw [h.catalog_eq]
  exact ⟨p, Catalog.mem_primaries_of_primary? hp⟩

/-- **All that an analysis raises is in force**, reported or suppressed. -/
theorem Represents.inForce_of_mem_raised (h : d.Represents s) {ts : List Tree} {x : Diagnostic}
    (hx : x ∈ (d.analyzeAll ts).raised) : d.InForce x := by
  obtain ⟨f, hf, hx⟩ := Findings.mem_raised_mergeAll.mp hx
  obtain ⟨t, -, rfl⟩ := List.mem_map.mp hf
  obtain ⟨i, n, -, hvisit⟩ := (d.mem_diagnostics_visitAll t).mp (mem_raised_analyze.mp hx).2
  rw [h.visit_eq, Findings.empty_merge] at hvisit
  obtain ⟨rule, -, hadds⟩ := List.mem_flatMap.mp hvisit
  exact h.inForce_iff.mpr (Setup.severity?_of_mem_adds hadds)

end Dispatcher

/-! ### Entries of a log -/

namespace Sarif

theorem mem_insertId {id k : String} : ∀ {ids : List String},
    k ∈ insertId id ids ↔ k = id ∨ k ∈ ids
  | [] => by simp [insertId]
  | j :: ids => by
    unfold insertId
    split
    · rename_i heq
      subst heq
      simp
    · split
      · exact List.mem_cons
      · rw [List.mem_cons, mem_insertId, List.mem_cons, or_left_comm]

theorem pairwise_insertId (id : String) : ∀ {ids : List String}, ids.Pairwise (· < ·) →
    (insertId id ids).Pairwise (· < ·)
  | [], _ => List.pairwise_singleton _ _
  | j :: ids, h => by
    have hcons := List.pairwise_cons.mp h
    unfold insertId
    split
    · exact h
    · rename_i hne
      split
      · rename_i hlt
        refine List.pairwise_cons.mpr ⟨fun k hk => ?_, h⟩
        rcases List.mem_cons.mp hk with rfl | hk
        · exact hlt
        · exact lt_trans hlt (hcons.1 k hk)
      · rename_i hnlt
        have hgt : j < id := lt_of_le_of_ne (not_lt.mp hnlt) (Ne.symm hne)
        refine List.pairwise_cons.mpr ⟨fun k hk => ?_, pairwise_insertId id hcons.2⟩
        rcases mem_insertId.mp hk with rfl | hk
        · exact hgt
        · exact hcons.1 k hk

/-- The ids of diagnostics are listed by themselves, each once. -/
theorem pairwise_reportedIds (xs : List Diagnostic) : (reportedIds xs).Pairwise (· < ·) := by
  unfold reportedIds
  suffices h : ∀ ids : List String, ids.Pairwise (· < ·) →
      (xs.foldl (fun ids x => insertId x.id ids) ids).Pairwise (· < ·) from h [] List.Pairwise.nil
  induction xs with
  | nil => exact fun _ h => h
  | cons x xs ih => exact fun ids h => ih _ (pairwise_insertId x.id h)

theorem mem_reportedIds {xs : List Diagnostic} {id : String} :
    id ∈ reportedIds xs ↔ ∃ x ∈ xs, x.id = id := by
  unfold reportedIds
  suffices h : ∀ ids : List String, id ∈ xs.foldl (fun ids x => insertId x.id ids) ids ↔
      id ∈ ids ∨ ∃ x ∈ xs, x.id = id by simpa using h []
  induction xs with
  | nil => simp
  | cons x xs ih =>
    intro ids
    rw [List.foldl_cons, ih, mem_insertId]
    simp only [List.mem_cons, exists_eq_or_imp]
    rw [or_comm (a := id = x.id), or_assoc, eq_comm (a := id)]

/-- What an entry says is taken from the descriptor. -/
structure Entry.Describes (e : Entry) (p : Descriptor) : Prop where
  id : e.id = p.id
  name : e.name = p.name
  shortDescription : e.shortDescription = p.title
  fullDescription : ∀ s, e.fullDescription = some s ↔ s = p.description ∧ s ≠ ""
  helpUri : e.helpUri = Descriptor.helpBase ++ p.id
  level : e.level = Sarif.level p.severity
  enabled : e.enabled = p.enabledByDefault

theorem Entry.describes_of (p : Descriptor) : (Entry.of p).Describes p where
  id := rfl
  name := rfl
  shortDescription := rfl
  fullDescription := by
    intro s
    by_cases h : p.description = ""
    · simp +contextual [Entry.of, h]
    · simp only [Entry.of, String.isEmpty_iff, h, if_false, Option.some_inj]
      constructor
      · rintro rfl
        exact ⟨rfl, h⟩
      · exact fun hs => hs.1.symm
  helpUri := rfl
  level := rfl
  enabled := rfl

/-- A result tells of the diagnostic: its file as seen from a base path, and its lines and columns,
of which none is below one. -/
structure Result.Tells (r : Result) (base : String) (x : Diagnostic) : Prop where
  ruleId : r.ruleId = x.id
  level : r.level = Sarif.level x.severity
  message : r.message = x.message
  uri : r.uri = Path.relativeTo base x.file
  startLine : r.region.startLine = max x.span.startLine 1
  startColumn : r.region.startColumn = max x.span.startCol 1
  endLine : r.region.endLine = max x.span.endLine 1
  endColumn : r.region.endColumn = max x.span.endCol 1

theorem Result.tells_of (base : String) (x : Diagnostic) : (Result.of base x).Tells base x :=
  ⟨rfl, rfl, rfl, rfl, rfl, rfl, rfl, rfl⟩

variable {c : Catalog} {f : Findings}

/-- **There is an entry for each id reported**, in the order of the ids. -/
theorem map_id_rules (hc : c.Built) (base : String)
    (hids : ∀ x ∈ f.diagnostics, ∃ p ∈ c.primaries, p.id = x.id) :
    (Log.of base c f).rules.map (·.id) = reportedIds f.diagnostics := by
  have hget : ∀ id ∈ reportedIds f.diagnostics, (c.get? id).map (·.id) = some id := by
    intro id hid
    obtain ⟨x, hx, rfl⟩ := mem_reportedIds.mp hid
    obtain ⟨p, hp, hpid⟩ := hids x hx
    rw [(hc.coherent.get?_eq_some_iff _ p).mpr ⟨hp, hpid⟩, Option.map_some, hpid]
  have hid : (fun e : Entry => e.id) ∘ Entry.of = (·.id) := rfl
  rw [Log.of, List.map_map, hid, List.map_filterMap, List.filterMap_congr hget,
    List.filterMap_some]

theorem exists_primary_of_mem_rules (hc : c.Built) {base : String} {e : Entry}
    (he : e ∈ (Log.of base c f).rules) : ∃ p ∈ c.primaries, e.Describes p := by
  obtain ⟨p, hp, rfl⟩ := List.mem_map.mp he
  obtain ⟨id, -, hget⟩ := List.mem_filterMap.mp hp
  exact ⟨p, ((hc.coherent.get?_eq_some_iff id p).mp hget).1, Entry.describes_of p⟩

end Sarif

namespace Dispatcher

/-- **Reports refer only to what is there.** Take any catalog, any dispatcher set up over it, with
whatever checks, and any trees. All that the analysis reports or suppresses has an id of a primary
and the severity in force. The log has one result for each diagnostic reported, in order. Its
entries are listed by id, each once; an id has an entry just if a result has it, and the entry says
what the primary says, never an alias. Lines and columns of the results start at one. The value
written of the log holds just these entries and results. -/
theorem sarif_log_integrity {c : Catalog} (hc : c.Built) {calls : List SetupCall} {d : Dispatcher}
    (hd : (Dispatcher.new c).setUp calls = some d) (ts : List Tree) (base : String) :
    (∀ x ∈ (d.analyzeAll ts).raised,
      (∃ p ∈ c.primaries, p.id = x.id) ∧ d.severityFor? x.id = some x.severity) ∧
    List.Forall₂ (fun (r : Sarif.Result) (x : Diagnostic) => r.Tells base x)
      (Sarif.Log.of base c (d.analyzeAll ts)).results (d.analyzeAll ts).diagnostics ∧
    ((Sarif.Log.of base c (d.analyzeAll ts)).rules.map (·.id)).Pairwise (· < ·) ∧
    ((Sarif.Log.of base c (d.analyzeAll ts)).rules.map (·.id)).Nodup ∧
    (∀ id, (∃ e ∈ (Sarif.Log.of base c (d.analyzeAll ts)).rules, e.id = id) ↔
      ∃ r ∈ (Sarif.Log.of base c (d.analyzeAll ts)).results, r.ruleId = id) ∧
    (∀ e ∈ (Sarif.Log.of base c (d.analyzeAll ts)).rules,
      ∃ p ∈ c.primaries, p.isAlias = false ∧ e.Describes p) ∧
    (∀ r ∈ (Sarif.Log.of base c (d.analyzeAll ts)).results, 1 ≤ r.region.startLine ∧
      1 ≤ r.region.startColumn ∧ 1 ≤ r.region.endLine ∧ 1 ≤ r.region.endColumn) ∧
    Sarif.Log.ofJson? (Sarif.Log.of base c (d.analyzeAll ts)).toJson =
      some (Sarif.Log.of base c (d.analyzeAll ts)) := by
  have hraised : ∀ x ∈ (d.analyzeAll ts).raised,
      (∃ p ∈ c.primaries, p.id = x.id) ∧ d.severityFor? x.id = some x.severity := by
    intro x hx
    rw [← catalog_setUp hc hd]
    exact ((Represents.new hc).setUp hd).inForce_of_mem_raised hx
  have hmap := Sarif.map_id_rules hc base fun x hx => (hraised x (List.mem_append_left _ hx)).1
  have hsorted : ((Sarif.Log.of base c (d.analyzeAll ts)).rules.map (·.id)).Pairwise (· < ·) :=
    hmap ▸ Sarif.pairwise_reportedIds _
  refine ⟨hraised, ?_, hsorted, hsorted.imp ne_of_lt, ?_, ?_, ?_, Sarif.Log.ofJson?_toJson _⟩
  · rw [Sarif.Log.of, List.forall₂_map_left_iff, List.forall₂_same]
    exact fun x _ => Sarif.Result.tells_of base x
  · intro id
    have hentry : (∃ e ∈ (Sarif.Log.of base c (d.analyzeAll ts)).rules, e.id = id) ↔
        id ∈ Sarif.reportedIds (d.analyzeAll ts).diagnostics := by
      rw [← hmap, List.mem_map]
    rw [hentry, Sarif.mem_reportedIds]
    simp [Sarif.Log.of, Sarif.Result.of]
  · intro e he
    obtain ⟨p, hp, hdescribes⟩ := Sarif.exists_primary_of_mem_rules hc he
    exact ⟨p, hp, (Catalog.mem_primaries.mp hp).2, hdescribes⟩
  · intro r hr
    obtain ⟨x, -, rfl⟩ := List.mem_map.mp hr
    exact ⟨Nat.le_max_right _ _, Nat.le_max_right _ _, Nat.le_max_right _ _, Nat.le_max_right _ _⟩

/-- A rule that answers a diagnostic of an id that it does not declare and no catalog has. -/
def sampleForeign : Rule :=
  ⟨"Foreign", ["LC0000"], [.block], fun c =>
    .found ⟨"LC9999", .error, c.tree.path, c.node.span, "m"⟩⟩

/-- Beside a rule that reports blocks and one that breaks off at them, the rule adds nothing. The
log has two results and an entry for the id of each, listed by id and not as they were reported, and
each entry says what the primary says. -/
theorem sarif_log_sampleBlocks : sampleCatalog.Built ∧
    ∃ d, (Dispatcher.new sampleCatalog).setUp (.register sampleForeign :: sampleCalls) = some d ∧
      (d.analyzeAll [sampleBlocks]).raised.map (fun x => (x.id, x.severity)) =
        [("LC0040", .warning), ("LC0000", .info), ("LC0040", .warning), ("LC0000", .info)] ∧
      (Sarif.Log.of "." sampleCatalog (d.analyzeAll [sampleBlocks])).results.map (·.ruleId) =
        ["LC0040", "LC0000"] ∧
      ((Sarif.Log.of "." sampleCatalog (d.analyzeAll [sampleBlocks])).rules.map (·.id)).Pairwise
        (· < ·) ∧
      (∀ id ∈ ["LC0000", "LC0040"],
        ∃ e ∈ (Sarif.Log.of "." sampleCatalog (d.analyzeAll [sampleBlocks])).rules,
          ∃ p ∈ sampleCatalog.primaries, e.Describes p ∧ p.id = id) ∧
      Sarif.Log.ofJson? (Sarif.Log.of "." sampleCatalog (d.analyzeAll [sampleBlocks])).toJson =
        some (Sarif.Log.of "." sampleCatalog (d.analyzeAll [sampleBlocks])) := by
  have hbuilt : sampleCatalog.Built :=
    .ofDescriptors (rfl : Catalog.ofDescriptors sampleCatalog.descriptors = .ok sampleCatalog)
  let d := ((Dispatcher.new sampleCatalog).setUp (.register sampleForeign :: sampleCalls)).get rfl
  have hd : (Dispatcher.new sampleCatalog).setUp (.register sampleForeign :: sampleCalls) =
    some d := rfl
  obtain ⟨-, -, hsorted, -, hentry, hprimary, -, hread⟩ :=
    sarif_log_integrity hbuilt hd [sampleBlocks] "."
  have hresults : (Sarif.Log.of "." sampleCatalog (d.analyzeAll [sampleBlocks])).results.map
      (·.ruleId) = ["LC0040", "LC0000"] := by decide
  refine ⟨hbuilt, d, hd, by decide, hresults, hsorted, ?_, hread⟩
  intro id hid
  have hused : id ∈ (Sarif.Log.of "." sampleCatalog (d.analyzeAll [sampleBlocks])).results.map
      (·.ruleId) := by
    rw [hresults]
    exact (List.Perm.swap _ _ _).mem_iff.mp hid
  obtain ⟨e, he, rfl⟩ := (hentry id).mpr (List.mem_map.mp hused)
  obtain ⟨p, hp, -, hdescribes⟩ := hprimary e he
  exact ⟨e, he, p, hp, hdescribes, hdescribes.id.symm⟩

end Dispatcher
end TreeLint
