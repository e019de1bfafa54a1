/-
# What a structural error says of the document

A document that is refused is refused with one error. The errors for a reference
that leads nowhere and for a parent that does not come first say what is there:
the node or symbol that they name has the reference that they name
(`TreeError.HoldsOf`).

The error for circular containment is raised at the first symbol from which
containment does not end. Such a symbol leads into a circle, but it need not be in
the circle itself, and then the error says too much of it. It is in the circle
exactly if some member of the circle does not stand behind it, since a member
leads into the circle as well and would have been met before.

Key definitions: `TreeError.HoldsOf`, `Document.LeadsIntoCircle`.
Key theorems: `Document.climb_ne_none_iff`, `Document.defect?_eq_some`,
`Tree.error_holds_iff`.
-/
import TreeLint.Proofs.Documents

namespace TreeLint

/-- What the error says is true of the document. -/
def TreeError.HoldsOf (d : Document) : TreeError → Prop
  | .parentOrder i p => ∃ n, d.nodes[i]? = some n ∧ n.parent = some p ∧ i ≤ p
  | .unknownSymbol i s => ∃ n, d.nodes[i]? = some n ∧
      (n.symbol = some s ∨ n.containingSymbol = some s) ∧ d.symbols.length ≤ s
  | .unknownContaining s c => ∃ x, d.symbols[s]? = some x ∧ x.containing = some c ∧
      d.symbols.length ≤ c
  | .symbolCycle s => Relation.TransGen d.ContainedIn s s
  | .unknownArgument i v => ∃ n call, d.nodes[i]? = some n ∧ n.invocation = some call ∧
      (∃ a ∈ call.arguments, a.value = some v) ∧ d.nodes.length ≤ v
  | .tooLarge => UInt32.size ≤ d.nodes.length ∨ UInt32.size ≤ d.symbols.length

/-- In a list, the first position at which something is found. -/
theorem exists_of_findSome?_zipIdx {α β : Type} {f : α × Nat → Option β} {l : List α} {b : β}
    (h : l.zipIdx.findSome? f = some b) :
    ∃ x i, l[i]? = some x ∧ f (x, i) = some b ∧
      ∀ j y, j < i → l[j]? = some y → f (y, j) = none := by
  obtain ⟨front, ⟨x, i⟩, back, hsplit, hfound, hfront⟩ := List.findSome?_eq_some_iff.mp h
  have hlength : front.length = i := by
    have hat : l.zipIdx[front.length]? = some (x, i) := by
      rw [hsplit]
      simp
    rw [List.getElem?_zipIdx] at hat
    obtain ⟨y, -, hy⟩ := Option.map_eq_some_iff.mp hat
    simpa using congrArg Prod.snd hy
  refine ⟨x, i, List.mk_mem_zipIdx_iff_getElem?.mp (by simp [hsplit]), hfound, ?_⟩
  intro j y hj hy
  refine hfront (y, j) ?_
  have hat : l.zipIdx[j]? = some (y, j) := by
    rw [List.getElem?_zipIdx, hy]
    simp
  rw [hsplit, List.getElem?_append_left (hlength ▸ hj)] at hat
  exact List.mem_of_getElem? hat

namespace Document

variable {d : Document}

/-- Following containment from the symbol leads to a symbol that is found again. -/
def LeadsIntoCircle (d : Document) (s : SymbolId) : Prop :=
  ∃ u, Relation.ReflTransGen d.ContainedIn s u ∧ Relation.TransGen d.ContainedIn u u

/-- A chain on from a place that the chain of `s` passes is a chain on from `s`. -/
theorem climb_ne_none_of_reflTransGen {s u : SymbolId}
    (h : Relation.ReflTransGen d.ContainedIn s u) (hu : ∀ k, d.climb k u ≠ none) (k : Nat) :
    d.climb k s ≠ none := by
  induction h using Relation.ReflTransGen.head_induction_on generalizing k with
  | refl => exact hu k
  | head hstep _ ih =>
    cases k with
    | zero => simp [climb]
    | succ k =>
      rw [climb, hstep, Option.bind_some]
      exact ih k

/-- **A chain goes on beyond the number of symbols exactly if it leads into a circle.** -/
theorem climb_ne_none_iff {s : SymbolId} :
    d.climb (d.symbols.length + 1) s ≠ none ↔ d.LeadsIntoCircle s := by
  constructor
  · intro h
    obtain ⟨v, hv⟩ := Option.ne_none_iff_exists'.mp h
    obtain ⟨w, hw, hlast⟩ := climb_of_le (Nat.le_succ d.symbols.length) hv
    rw [Nat.succ_sub (Nat.le_refl _), Nat.sub_self, climb_one] at hlast
    exact exists_cycle_of_climb hw (lt_of_containing? hlast)
  · rintro ⟨u, hreach, hcircle⟩
    exact climb_ne_none_of_reflTransGen hreach (climb_ne_none_of_cycle hcircle) _

/-! ### The checks, one by one -/

theorem holdsOf_of_rangeDefect? {x : Symbol} {i : SymbolId} {e : TreeError}
    (hx : d.symbols[i]? = some x) (h : d.rangeDefect? (x, i) = some e) :
    ∃ c, e = .unknownContaining i c ∧ e.HoldsOf d := by
  cases hc : x.containing with
  | none => simp [rangeDefect?, hc] at h
  | some c =>
    simp only [rangeDefect?, hc, Option.ite_none_left_eq_some, Option.some.injEq] at h
    obtain ⟨hlt, rfl⟩ := h
    exact ⟨c, rfl, x, hx, hc, Nat.le_of_not_lt hlt⟩

theorem cycleDefect?_eq_some_iff {x : Symbol} {i : SymbolId} {e : TreeError}
    (hx : d.symbols[i]? = some x) :
    d.cycleDefect? (x, i) = some e ↔ e = .symbolCycle i ∧ d.LeadsIntoCircle i := by
  rw [← climb_ne_none_iff, Ne, ← cycleDefect?_eq_none_iff hx, cycleDefect?]
  cases d.chainEnds d.symbols.length x.containing with
  | true => simp
  | false => simp [eq_comm]

theorem exists_of_symbolDefect? {i : NodeId} {refs : List (Option SymbolId)} {e : TreeError}
    (h : d.symbolDefect? i refs = some e) :
    ∃ s, e = .unknownSymbol i s ∧ some s ∈ refs ∧ d.symbols.length ≤ s := by
  obtain ⟨r, hr, hfound⟩ := List.exists_of_findSome?_eq_some h
  cases r with
  | none => cases hfound
  | some s =>
    simp only [Option.ite_none_left_eq_some, Option.some.injEq] at hfound
    exact ⟨s, hfound.2.symm, hr, Nat.le_of_not_lt hfound.1⟩

theorem exists_of_argumentDefect? {i : NodeId} {arguments : List BoundArgument} {e : TreeError}
    (h : d.argumentDefect? i arguments = some e) :
    ∃ v, e = .unknownArgument i v ∧ (∃ a ∈ arguments, a.value = some v) ∧ d.nodes.length ≤ v := by
  obtain ⟨a, ha, hfound⟩ := List.exists_of_findSome?_eq_some h
  cases hv : a.value with
  | none => simp [hv] at hfound
  | some v =>
    simp only [hv, Option.ite_none_left_eq_some, Option.some.injEq] at hfound
    exact ⟨v, hfound.2.symm, ⟨a, ha, hv⟩, Nat.le_of_not_lt hfound.1⟩

/-- A defect of a node is one that the node has, and no circle of symbols. -/
theorem holdsOf_of_nodeDefect? {n : Node} {i : NodeId} {e : TreeError}
    (hn : d.nodes[i]? = some n) (h : d.nodeDefect? (n, i) = some e) :
    e.HoldsOf d ∧ ∀ s, e ≠ .symbolCycle s := by
  simp only [nodeDefect?, Option.or_eq_some_iff] at h
  rcases h with (hparent | ⟨-, hsymbol⟩) | ⟨-, hargument⟩
  · cases hp : n.parent with
    | none => simp [hp] at hparent
    | some p =>
      simp only [hp, Option.ite_none_left_eq_some, Option.some.injEq] at hparent
      obtain ⟨hle, rfl⟩ := hparent
      exact ⟨⟨n, hn, hp, Nat.le_of_not_lt hle⟩, fun _ hs => by cases hs⟩
  · obtain ⟨s, rfl, hmem, hle⟩ := exists_of_symbolDefect? hsymbol
    have href : n.symbol = some s ∨ n.containingSymbol = some s := by
      simpa [eq_comm] using hmem
    exact ⟨⟨n, hn, href, hle⟩, fun _ hs => by cases hs⟩
  · obtain ⟨v, rfl, hvalue, hle⟩ := exists_of_argumentDefect? hargument
    cases hcall : n.invocation with
    | none => simp [hcall] at hvalue
    | some call =>
      rw [hcall] at hvalue
      exact ⟨⟨n, call, hn, hcall, hvalue, hle⟩, fun _ hs => by cases hs⟩

/-- **Every error but the one for a circle is true of the document**, and that one names the first
symbol that leads into a circle. -/
theorem defect?_eq_some {e : TreeError} (h : d.defect? = some e) :
    (e.HoldsOf d ∧ ∀ s, e ≠ .symbolCycle s) ∨
      ∃ s, e = .symbolCycle s ∧ s < d.symbols.length ∧ d.LeadsIntoCircle s ∧
        ∀ r < s, ¬ d.LeadsIntoCircle r := by
  simp only [defect?, Option.or_eq_some_iff] at h
  rcases h with ((hsize | ⟨-, hrange⟩) | ⟨-, hcycle⟩) | ⟨-, hnode⟩
  · obtain ⟨hfits, heq⟩ := Option.ite_none_left_eq_some.mp hsize
    obtain rfl := Option.some.inj heq
    refine Or.inl ⟨?_, fun _ hs => by cases hs⟩
    simp only [fits, Bool.and_eq_true, decide_eq_true_eq] at hfits
    simp only [TreeError.HoldsOf]
    omega
  · obtain ⟨x, i, hx, hfound, -⟩ := exists_of_findSome?_zipIdx hrange
    obtain ⟨c, rfl, hholds⟩ := holdsOf_of_rangeDefect? hx hfound
    exact Or.inl ⟨hholds, fun _ hs => by cases hs⟩
  · obtain ⟨x, i, hx, hfound, hbefore⟩ := exists_of_findSome?_zipIdx hcycle
    have hi : i < d.symbols.length := (List.getElem?_eq_some_iff.mp hx).1
    obtain ⟨rfl, hleads⟩ := (cycleDefect?_eq_some_iff hx).mp hfound
    refine Or.inr ⟨i, rfl, hi, hleads, fun r hr hleads' => ?_⟩
    have hy := List.getElem?_eq_getElem (hr.trans hi)
    have hcircle := (cycleDefect?_eq_some_iff hy).mpr ⟨rfl, hleads'⟩
    rw [hbefore r _ hr hy] at hcircle
    cases hcircle
  · obtain ⟨n, i, hn, hfound, -⟩ := exists_of_findSome?_zipIdx hnode
    exact Or.inl (holdsOf_of_nodeDefect? hn hfound)

end Document

namespace Tree

variable {d : Document} {e : TreeError}

theorem defect?_of_ofDocument (h : ofDocument d = .error e) : d.defect? = some e := by
  unfold ofDocument at h
  split at h
  · rename_i e' hdefect
    cases h
    exact hdefect
  · cases h

/-- **When a structural error is true of the document.** An error that is not about a circle of
symbols always is: a parent that it names does not come before the node, a reference that it names
leads to nothing, and the node or symbol has that parent or reference. The error for a circle names
the first symbol that leads into a circle, and is true exactly if some member of the circle stands
not behind that symbol. -/
theorem error_holds_iff (h : ofDocument d = .error e) :
    (e.HoldsOf d ↔ ∀ s, e = .symbolCycle s →
      ∃ u ≤ s, Relation.ReflTransGen d.ContainedIn s u ∧ Relation.TransGen d.ContainedIn u u) ∧
    ∀ s, e = .symbolCycle s →
      s < d.symbols.length ∧ d.LeadsIntoCircle s ∧ ∀ r < s, ¬ d.LeadsIntoCircle r := by
  rcases Document.defect?_eq_some (defect?_of_ofDocument h) with
    ⟨hholds, hother⟩ | ⟨s, rfl, hs, hleads, hfirst⟩
  · exact ⟨⟨fun _ s hs => absurd hs (hother s), fun _ => hholds⟩,
      fun s hs => absurd hs (hother s)⟩
  refine ⟨⟨?_, ?_⟩, ?_⟩
  · rintro hcircle _ ⟨⟩
    exact ⟨s, Nat.le_refl s, .refl, hcircle⟩
  · intro hmember
    obtain ⟨u, hle, -, hcircle⟩ := hmember s rfl
    -- a member before `s` would lead into a circle and be named in place of `s`
    rcases Nat.lt_or_eq_of_le hle with hlt | rfl
    · exact absurd ⟨u, .refl, hcircle⟩ (hfirst u hlt)
    · exact hcircle
  · rintro _ ⟨⟩
    exact ⟨hs, hleads, hfirst⟩

/-- Two methods, each declared in the other. -/
def mutualSymbols : Document where
  path := "a.al"
  symbols := [{ kind := .method, name := "A", containing := some 1 },
    { kind := .method, name := "B", containing := some 0 }]

theorem error_holds_mutualSymbols :
    ofDocument mutualSymbols = .error (.symbolCycle 0) ∧
      (TreeError.symbolCycle 0).HoldsOf mutualSymbols := by
  have hrefused : ofDocument mutualSymbols = .error (.symbolCycle 0) := by decide
  have hcircle : Relation.TransGen mutualSymbols.ContainedIn 0 0 :=
    .tail (.single (show mutualSymbols.containing? 0 = some 1 from rfl)) rfl
  refine ⟨hrefused, (error_holds_iff hrefused).1.mpr ?_⟩
  rintro _ ⟨⟩
  exact ⟨0, Nat.le_refl 0, .refl, hcircle⟩

/-- Two methods declared in the second of them. -/
def outsiderFirst : Document where
  path := "a.al"
  symbols := [{ kind := .method, name := "A", containing := some 1 },
    { kind := .method, name := "B", containing := some 1 }]

/-- The first method leads into the circle of the second and is named as its own ancestor, which
only the second is. -/
theorem outsider_named_in_circle :
    ofDocument outsiderFirst = .error (.symbolCycle 0) ∧
      ¬ (TreeError.symbolCycle 0).HoldsOf outsiderFirst ∧
      ∀ s, (TreeError.symbolCycle s).HoldsOf outsiderFirst ↔ s = 1 := by
  have hlast : ∀ s c, Relation.TransGen outsiderFirst.ContainedIn s c → c = 1 := by
    have hstep : ∀ s c, outsiderFirst.ContainedIn s c → c = 1 := by
      intro s c h
      match s, h with
      | 0, h => exact (Option.some.inj h).symm
      | 1, h => exact (Option.some.inj h).symm
    intro s c h
    cases h with
    | single h => exact hstep s c h
    | tail _ h => exact hstep _ c h
  have hself : Relation.TransGen outsiderFirst.ContainedIn 1 1 := .single rfl
  refine ⟨by decide, fun h => absurd (hlast 0 0 h) (by decide), fun s => ⟨hlast s s, ?_⟩⟩
  rintro rfl
  exact hself

end Tree
end TreeLint
