/-
# The dispatcher that comes with the linter

The descriptors that come with the linter can all be registered, so the catalog
made from them lists them all. The rules that come with it declare only ids of
that catalog, so the dispatcher over both exists, and under any configuration
that can be applied it represents the setup with these two rules.

Key definitions: `Dispatcher.builtinUnder`, `Setup.builtin`.
Key theorems: `Catalog.ofDescriptors_builtin`, `Dispatcher.exists_builtin`,
`Dispatcher.represents_builtinUnder`.
-/
import TreeLint.Proofs.Dispatch

namespace TreeLint

namespace Catalog

theorem descriptors_registerAll {c c' : Catalog} {ds : List Descriptor}
    (h : c.registerAll ds = .ok c') : c'.descriptors = c.descriptors ++ ds := by
  induction ds generalizing c with
  | nil =>
    cases h
    exact (List.append_nil _).symm
  | cons d ds ih =>
    unfold registerAll at h
    split at h
    · rename_i c₁ hreg
      rw [ih h, (register_eq_ok hreg).2.1, List.append_assoc, List.singleton_append]
    · cases h

/-- **Every descriptor that comes with the linter can be registered.** -/
theorem ofDescriptors_builtin : ofDescriptors builtinDescriptors = .ok builtin := by
  have hok : (ofDescriptors builtinDescriptors).isOk = true := by decide +kernel
  unfold builtin
  cases h : ofDescriptors builtinDescriptors with
  | ok c => rfl
  | error e =>
    rw [h] at hok
    cases hok

theorem built_builtin : builtin.Built := .ofDescriptors ofDescriptors_builtin

theorem primary?_builtin (id : String) :
    builtin.primary? id = (builtinDescriptors.filter (!·.isAlias)).find? (·.id == id) := by
  have hall : builtin.descriptors = builtinDescriptors :=
    descriptors_registerAll ofDescriptors_builtin
  rw [primary?, primaries, hall]

end Catalog

/-- The setup of the linter: its own catalog and rules, under a configuration. -/
def Setup.builtin (config : Config) : Setup := ⟨Catalog.builtin, config, Dispatcher.builtinRules⟩

-- by rewriting: comparing the two sides by evaluation would run through all descriptors
theorem Setup.catalog_builtin (config : Config) :
    (builtin config).catalog = Catalog.builtin := by
  rw [builtin]

theorem Setup.rules_builtin (config : Config) :
    (builtin config).rules = Dispatcher.builtinRules := by
  rw [builtin]

/-- Whether rules can be registered one after the other. -/
def Setup.acceptsAll (s : Setup) : List Rule → Bool
  | [] => true
  | r :: rules => s.accepts r && acceptsAll { s with rules := s.rules ++ [r] } rules

namespace Dispatcher

/-- The dispatcher that comes with the linter, under a configuration. -/
def builtinUnder (config : Config) : Except EngineError Dispatcher :=
  builtin.bind (·.withConfig config)

theorem Represents.registerAll {d d' : Dispatcher} {s : Setup} (h : d.Represents s)
    {rules : List Rule} (hr : d.registerAll rules = .ok d') :
    d'.Represents { s with rules := s.rules ++ rules } := by
  induction rules generalizing d s with
  | nil =>
    cases hr
    rw [List.append_nil]
    exact h
  | cons r rules ih =>
    unfold Dispatcher.registerAll at hr
    split at hr
    · rename_i d₁ hreg
      have hrest := ih (h.register hreg) hr
      rwa [List.append_assoc, List.singleton_append] at hrest
    · cases hr

/-- A dispatcher over a catalog, with rules, under a configuration. -/
theorem Represents.of_registerAll {c : Catalog} (hc : c.Built) {rules : List Rule}
    {d₀ d : Dispatcher} {config : Config} (hrules : (Dispatcher.new c).registerAll rules = .ok d₀)
    (hconfig : d₀.withConfig config = .ok d) : d.Represents ⟨c, config, rules⟩ :=
  ((Represents.new hc).registerAll hrules).withConfig hconfig

theorem Represents.exists_registerAll {d : Dispatcher} {s : Setup} (h : d.Represents s) :
    ∀ {rules : List Rule}, s.acceptsAll rules = true → ∃ d', d.registerAll rules = .ok d' := by
  intro rules
  induction rules generalizing d s with
  | nil => exact fun _ => ⟨d, rfl⟩
  | cons r rules ih =>
    intro hall
    rw [Setup.acceptsAll, Bool.and_eq_true] at hall
    obtain ⟨d₁, hreg⟩ := (h.register_eq_ok_iff r).mpr hall.1
    obtain ⟨d₂, hrest⟩ := ih (h.register hreg) hall.2
    exact ⟨d₂, by rw [Dispatcher.registerAll, hreg]; exact hrest⟩

/-- **The dispatcher that comes with the linter can be set up.** -/
theorem exists_builtin : ∃ d, builtin = .ok d := by
  refine (Represents.new Catalog.built_builtin).exists_registerAll ?_
  simp only [builtinRules, Setup.acceptsAll, Setup.accepts, Catalog.primary?_builtin]
  rfl

theorem builtinUnder_eq {d : Dispatcher} (h : builtin = .ok d) (config : Config) :
    builtinUnder config = d.withConfig config := by
  rw [builtinUnder, h]
  rfl

/-- The dispatcher exists under every configuration whose patterns can be read. -/
theorem exists_builtinUnder {config : Config} {ms : List Glob.Matcher}
    (h : config.exclusions = .ok ms) : ∃ d, builtinUnder config = .ok d := by
  obtain ⟨d, hd⟩ := exists_builtin
  rw [builtinUnder_eq hd, Dispatcher.withConfig, h]
  exact ⟨_, rfl⟩

/-- **Under a configuration, the dispatcher represents the setup of the linter.** -/
theorem represents_builtinUnder {config : Config} {d : Dispatcher}
    (h : builtinUnder config = .ok d) : d.Represents (.builtin config) := by
  obtain ⟨d₀, hd₀⟩ := exists_builtin
  rw [builtinUnder_eq hd₀] at h
  exact Represents.of_registerAll Catalog.built_builtin hd₀ h

theorem exclusions_builtinUnder {config : Config} {d : Dispatcher}
    (h : builtinUnder config = .ok d) : config.exclusions = .ok d.exclusions := by
  obtain ⟨d₀, hd₀⟩ := exists_builtin
  rw [builtinUnder_eq hd₀, withConfig] at h
  split at h
  · cases h
  · rename_i ms hms
    cases h
    exact hms

theorem isExcluded_builtinUnder_default {d : Dispatcher} (h : builtinUnder {} = .ok d)
    (path : String) : d.isExcluded path = false := by
  rw [isExcluded, ← Except.ok.inj (exclusions_builtinUnder h)]
  rfl

end Dispatcher
end TreeLint
