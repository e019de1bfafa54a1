/-
# The references of a resolved document

The front end numbers symbols as it declares them: a symbol is contained in one
declared before it, and a node refers to symbols of its own object. Nodes are
numbered by the walk over their outline, so a parent comes before the nodes below
it and a call's arguments are nodes of the document. Whatever the source, the
document is well-formed, and only its size can keep it from being a tree.

Key definitions: `Source.Ordered`, `Source.Entry.Refers`, `Source.Scope.Below`.
Key theorems: `Source.ordered_resolveObject`, `Source.refers_resolveObject`,
`Source.wellFormed_resolveDocument`.
-/
import TreeLint.Proofs.Documents
import TreeLint.Proofs.Shape

namespace TreeLint
namespace Source

variable {t : Text} {s : Scope} {n : Nat}

/-! ### Containment -/

/-- Symbols, the first of them at position `first`, that are contained in symbols before them. -/
def Ordered (first : Nat) (symbols : List Symbol) : Prop :=
  ∀ (i : Nat) (x : Symbol) (c : Nat), symbols[i]? = some x → x.containing = some c → c < first + i

theorem ordered_nil (first : Nat) : Ordered first [] := by
  intro i x c hx
  cases hx

theorem Ordered.append {first : Nat} {a b : List Symbol} (ha : Ordered first a)
    (hb : Ordered (first + a.length) b) : Ordered first (a ++ b) := by
  intro i x c hx hc
  by_cases hi : i < a.length
  · rw [List.getElem?_append_left hi] at hx
    exact ha i x c hx hc
  · rw [List.getElem?_append_right (by omega)] at hx
    have := hb (i - a.length) x c hx hc
    omega

/-- A symbol that is contained in an earlier one, before others. -/
theorem Ordered.cons {first : Nat} {x : Symbol} {symbols : List Symbol}
    (hx : ∀ c : Nat, x.containing = some c → c < first) (h : Ordered (first + 1) symbols) :
    Ordered first (x :: symbols) := by
  intro i y c hy hc
  cases i with
  | zero =>
    cases hy
    exact hx c hc
  | succ i =>
    have := h i y c hy hc
    omega

/-- The variables that are declared in a symbol. -/
theorem ordered_toSymbol {first within : Nat} (h : within < first) (vs : List Variable) :
    Ordered first (vs.map (Variable.toSymbol within)) := by
  intro i x c hx hc
  rw [List.getElem?_map] at hx
  obtain ⟨v, -, rfl⟩ := Option.map_eq_some_iff.mp hx
  cases hc
  omega

theorem ordered_resolveRoutine {object first : Nat} (h : object < first)
    (globals : List Variable) (procedures : List String) (r : Routine) :
    Ordered first (resolveRoutine t object first globals procedures r).1 := by
  refine .cons ?_ (ordered_toSymbol (Nat.lt_succ_self first) _)
  rintro c hc
  cases hc
  exact h

theorem ordered_resolveRoutines {object first : Nat} (h : object < first)
    (globals : List Variable) (procedures : List String) (rs : List Routine) :
    Ordered first (resolveRoutines t object globals procedures first rs).1 := by
  induction rs generalizing first with
  | nil => exact ordered_nil first
  | cons r rs ih =>
    refine (ordered_resolveRoutine h globals procedures r).append (ih ?_)
    exact Nat.lt_of_lt_of_le h (Nat.le_add_right _ _)

theorem ordered_resolveObject {first : Nat} {o : ObjectSite} {symbols : List Symbol}
    {outline : Outline} (h : resolveObject t first o = .ok (symbols, outline)) :
    Ordered first symbols := by
  unfold resolveObject at h
  split at h
  · cases h
  · cases h
    refine .append (.cons (by rintro c hc; cases hc) (ordered_toSymbol (Nat.lt_succ_self first) _)) ?_
    rw [List.length_cons, List.length_map, Nat.add_comm (List.length _) 1, ← Nat.add_assoc]
    exact ordered_resolveRoutines (by omega) _ _ _

/-! ### Symbols that nodes refer to -/

/-- A node that refers to symbols before position `n` only. -/
def Entry.Refers (n : Nat) (e : Entry) : Prop :=
  ∀ s : Nat, e.symbol = some s ∨ e.containingSymbol = some s → s < n

/-- Names that stand for symbols before position `n` only. -/
structure Scope.Below (n : Nat) (s : Scope) : Prop where
  routine : s.routine < n
  declared : ∀ v ∈ s.visible, v.symbol < n

/-- The variable that a receiver refers to. -/
def Receiver.holder? : Receiver → Option Variable
  | .declared v _ => some v
  | .implicit v => some v
  | .absent => none
  | .static _ _ => none
  | .unknown _ => none

/-- The receiver of a call is a visible variable, if it is one at all. -/
theorem mem_visible_of_target {call : Call} {v : Variable}
    (h : (s.target t call).receiver.holder? = some v) : v ∈ s.visible := by
  have hcases := resolves_target s t call
  generalize s.target t call = target at h hcases
  cases hcases with
  | recordMethod _ _ hrecord _ =>
    cases h
    exact List.mem_append_right _ (List.mem_of_find?_eq_some hrecord)
  | onVariable _ hlookup =>
    cases h
    exact List.mem_of_find?_eq_some hlookup
  | ownProcedure | globalMethod | unknownMethod | onType | onUnknown => cases h

theorem refers_plainEntry (kind : NodeKind) (span : Span) (h : s.routine < n) :
    (plainEntry kind span s.routine).Refers n := by
  rintro k (hk | hk)
  · cases hk
  · cases hk
    exact h

theorem refers_reference (hs : s.Below n) {v : Variable} (hv : v ∈ s.visible) (span : Span) :
    (v.reference span s.routine).Refers n := by
  rintro k (hk | hk)
  · cases hk
    exact hs.declared v hv
  · cases hk
    exact hs.routine

theorem refers_receiverOutline (hs : s.Below n) (call : Call) {r : Receiver}
    (hr : ∀ v, r.holder? = some v → v ∈ s.visible) :
    (receiverOutline t s call r).All fun e _ => e.Refers n := by
  cases r with
  | absent => trivial
  | declared v place => exact .single (refers_reference hs (hr v rfl) _) trivial
  | implicit v => exact .single (refers_reference hs (hr v rfl) _) trivial
  | static kind place => exact .single (refers_plainEntry .typeReference (t.span place) hs.routine) trivial
  | unknown place => exact .single (refers_plainEntry _ _ hs.routine) trivial

theorem refers_operandOutline (hs : s.Below n) (r : Extent) :
    (operandOutline t s r).All fun e _ => e.Refers n := by
  unfold operandOutline
  simp only
  split
  · rename_i v hv
    split at hv
    · exact .single (refers_reference hs (List.mem_of_find?_eq_some hv) _) trivial
    · cases hv
  · exact .single (refers_plainEntry _ _ hs.routine) trivial

theorem refers_argumentsOutline (hs : s.Below n) {later : List Call} {nested : Extent → Outline}
    (hnested : ∀ value, (nested value).All fun e _ => e.Refers n)
    (l : List (Option String × Extent × Extent)) :
    (argumentsOutline t s later nested l).All fun e _ => e.Refers n := by
  induction l with
  | nil => trivial
  | cons x l ih =>
    refine ⟨refers_plainEntry _ _ hs.routine, ?_, ih⟩
    split
    · exact hnested x.2.2
    · exact refers_operandOutline hs x.2.2

theorem refers_outlineCalls (hs : s.Below n) (calls : List Call) (within : Extent) :
    (outlineCalls t s calls within).All fun e _ => e.Refers n := by
  induction calls generalizing within with
  | nil => trivial
  | cons call later ih =>
    unfold outlineCalls
    split
    · exact ih within
    · refine ⟨refers_plainEntry .invocationExpression (t.span call.extent) hs.routine, ?_, ih _⟩
      exact (refers_receiverOutline hs call fun v => mem_visible_of_target).append
        (refers_argumentsOutline hs ih _)

theorem length_declare (kind : SymbolKind) (implicit : Bool) (first : SymbolId)
    (ds : List (String × TypeInfo)) : (declare kind implicit first ds).length = ds.length := by
  simp [declare]

/-- The symbols of variables that are declared one after the other are consecutive. -/
theorem symbol_of_mem_declare {kind kind' : SymbolKind} {implicit implicit' : Bool} {first : Nat}
    {ds ds' : List (String × TypeInfo)} :
    let before := declare kind implicit first ds
    let declared := before ++ declare kind' implicit' (first + before.length) ds'
    ∀ v ∈ declared, v.symbol < first + declared.length := by
  intro before declared v hv
  have hone : ∀ {kind implicit} {first : Nat} {ds}, v ∈ declare kind implicit first ds →
      v.symbol < first + ds.length := by
    intro kind implicit first ds hv
    obtain ⟨⟨d, i⟩, hd, rfl⟩ := List.mem_map.mp hv
    exact (List.mem_zipIdx hd).2.1
  have hlength : before.length = ds.length := length_declare kind implicit first ds
  have hlength' : declared.length = ds.length + ds'.length := by
    rw [List.length_append, length_declare, length_declare]
  rw [hlength']
  rcases List.mem_append.mp hv with hv | hv
  · exact Nat.lt_of_lt_of_le (hone hv) (Nat.add_le_add_left (Nat.le_add_right _ _) _)
  · rw [← Nat.add_assoc, ← hlength]
    exact hone hv

theorem Refers.mono {n n' : Nat} {o : Outline} (h : o.All fun e _ => e.Refers n) (hle : n ≤ n') :
    o.All fun e _ => e.Refers n' := by
  induction o with
  | empty => trivial
  | node e below next ihbelow ihnext =>
    exact ⟨fun k hk => lt_of_lt_of_le (h.1 k hk) hle, ihbelow h.2.1, ihnext h.2.2⟩

theorem refers_resolveRoutine (object : Nat) {first : Nat} {globals : List Variable}
    (hglobals : ∀ v ∈ globals, v.symbol < first) (procedures : List String) (r : Routine) :
    (resolveRoutine t object first globals procedures r).2.All fun e _ =>
      e.Refers (first + (resolveRoutine t object first globals procedures r).1.length) := by
  unfold resolveRoutine
  simp only [List.length_cons, List.length_map]
  generalize hdeclared : declare .parameter false (first + 1) (t.declarations r.parameters true) ++
    declare .localVariable false _ _ = declared
  have hsymbols : ∀ v ∈ declared, v.symbol < first + 1 + declared.length := by
    rw [← hdeclared]
    exact symbol_of_mem_declare
  rw [Nat.add_comm declared.length 1, ← Nat.add_assoc]
  have hfirst : first < first + 1 + declared.length := by omega
  have hscope : Scope.Below (first + 1 + declared.length) ⟨first, declared, globals, procedures⟩ := by
    refine ⟨hfirst, fun v hv => ?_⟩
    rcases List.mem_append.mp hv with hv | hv
    · exact hsymbols v hv
    · exact Nat.lt_trans (hglobals v hv) hfirst
  refine .single ?_ ?_
  · rintro k (hk | hk)
    · cases hk
      exact hfirst
    · cases hk
      exact hfirst
  · cases r.body with
    | none => trivial
    | some body =>
      exact .single (refers_plainEntry .block (t.span body) hscope.routine)
        (refers_outlineCalls hscope _ _)

theorem refers_resolveRoutines (object : Nat) {first : Nat} {globals : List Variable}
    (hglobals : ∀ v ∈ globals, v.symbol < first) (procedures : List String) (rs : List Routine) :
    (resolveRoutines t object globals procedures first rs).2.All fun e _ =>
      e.Refers (first + (resolveRoutines t object globals procedures first rs).1.length) := by
  induction rs generalizing first with
  | nil => trivial
  | cons r rs ih =>
    have hone := refers_resolveRoutine (t := t) object hglobals procedures r
    have hglobals' : ∀ v ∈ globals, v.symbol < first +
        (resolveRoutine t object first globals procedures r).1.length :=
      fun v hv => Nat.lt_of_lt_of_le (hglobals v hv) (Nat.le_add_right _ _)
    have hrest := ih hglobals'
    rw [resolveRoutines]
    simp only [List.length_append]
    rw [← Nat.add_assoc]
    exact (Refers.mono hone (Nat.le_add_right _ _)).append hrest

theorem refers_resolveObject {first : Nat} {o : ObjectSite} {symbols : List Symbol}
    {outline : Outline} (h : resolveObject t first o = .ok (symbols, outline)) :
    outline.All fun e _ => e.Refers (first + symbols.length) := by
  unfold resolveObject at h
  split at h
  · cases h
  · rename_i rs hrs
    cases h
    generalize hdeclared : declare .globalVariable true (first + 1)
      (implicitRecords (recordTable? t o)) ++ declare .globalVariable false _ _ = declared
    have hsymbols : ∀ v ∈ declared, v.symbol < first + 1 + declared.length := by
      rw [← hdeclared]
      exact symbol_of_mem_declare
    have hrefers := refers_resolveRoutines (t := t) first hsymbols
      ((rs.filter (·.kind == .procedure)).map fun r => t.name r.name) rs
    generalize resolveRoutines t first declared _ _ rs = routines at hrefers ⊢
    simp only [List.length_append, List.length_cons, List.length_map]
    rw [show first + (declared.length + 1 + routines.1.length) =
      first + 1 + declared.length + routines.1.length by omega]
    refine .single ?_ hrefers
    rintro k (hk | hk)
    · cases hk
      omega
    · cases hk
      omega

theorem refers_resolveObjects {resume first : Nat} {hs : List (Found ObjectHeader)}
    {symbols : List Symbol} {outline : Outline}
    (h : resolveObjects t resume first hs = .ok (symbols, outline)) :
    Ordered first symbols ∧ outline.All fun e _ => e.Refers (first + symbols.length) := by
  refine resolveObjects_rec (P := fun _ => True)
    (motive := fun _ (first : Nat) symbols outline =>
      Ordered first symbols ∧ outline.All fun e _ => e.Refers (first + symbols.length))
    (fun _ first => ⟨ordered_nil first, trivial⟩) ?_ (fun _ _ => trivial) h
  intro _ first _ site symbols outline symbols' outline' _ _ _ hobject hrest
  refine ⟨(ordered_resolveObject hobject).append hrest.1, ?_⟩
  rw [List.length_append, ← Nat.add_assoc]
  exact (Refers.mono (refers_resolveObject hobject) (Nat.le_add_right _ _)).append hrest.2

/-! ### Documents -/

theorem Ordered.acyclic {d : Document} (h : Ordered 0 d.symbols) (s : SymbolId) :
    ¬ Relation.TransGen d.ContainedIn s s := by
  -- a symbol is contained in one with a smaller number
  have hstep : ∀ {a b : Nat}, d.ContainedIn a b → b < a := by
    intro a b hab
    unfold Document.ContainedIn Document.containing? at hab
    cases hx : d.symbols[a]? with
    | none =>
      rw [hx] at hab
      cases hab
    | some x =>
      rw [hx] at hab
      have := h a x b hx hab
      omega
  have hlt : ∀ {a b : Nat}, Relation.TransGen d.ContainedIn a b → b < a := by
    intro a b hab
    induction hab with
    | single hab => exact hstep hab
    | tail _ hab ih => exact Nat.lt_trans (hstep hab) ih
  intro hcycle
  exact Nat.lt_irrefl s (hlt hcycle)

/-- Nodes that are numbered by the walk over an outline refer to each other as they should. -/
theorem wellFormed_of_outline {d : Document} {o : Outline} (hnodes : d.nodes = o.nodesFrom none 0)
    (hordered : Ordered 0 d.symbols) (hrefers : o.All fun e _ => e.Refers d.symbols.length) :
    d.WellFormed := by
  have hat : ∀ {i : Nat} {n : Node}, d.nodes[i]? = some n → ∃ p e b,
      o.At none 0 i p e b ∧ n = Outline.toNode e p i b := by
    intro i n hn
    rw [hnodes] at hn
    simpa using Outline.exists_at_of_getElem? hn
  have hlength : d.nodes.length = o.size := by rw [hnodes, Outline.length_nodesFrom]
  refine ⟨?_, hordered.acyclic, ?_, ?_, ?_⟩
  · intro k x c hx hc
    have hlt : k < d.symbols.length := (List.getElem?_eq_some_iff.mp hx).1
    exact Nat.lt_trans (Nat.zero_add k ▸ hordered k x c hx hc) hlt
  · intro i n p hn hp
    obtain ⟨q, e, b, hi, rfl⟩ := hat hn
    obtain rfl : q = some p := hp
    rcases hi.cases_parent with ⟨hnone, -⟩ | ⟨_, _, _, -, htop⟩
    · cases hnone
    · exact htop.bounds.1
  · intro i n s hn hs
    obtain ⟨q, e, b, hi, rfl⟩ := hat hn
    exact hrefers.of_at hi s hs
  · intro i n call a v hn hcall ha hv
    obtain ⟨q, e, b, hi, rfl⟩ := hat hn
    obtain ⟨target, -, rfl⟩ := Option.map_eq_some_iff.mp hcall
    rw [Outline.invocationOf, ← List.map_uncurry_zip_eq_zipWith] at ha
    obtain ⟨⟨parameter, id⟩, hpair, rfl⟩ := List.mem_map.mp ha
    obtain rfl : id = v := Option.some.inj hv
    obtain ⟨_, _, htop, -⟩ := Outline.mem_argumentIds.mp (List.of_mem_zip hpair).2
    have hlt : ∀ k m j l n : Nat, k + m < j + 1 + l → j + l < 0 + n → k < n := by omega
    rw [hlength]
    exact hlt id _ i _ _ htop.bounds.2 hi.bounds.2

/-- **The document of a source is well-formed.** -/
theorem wellFormed_resolveDocument {path source : String} {d : Document}
    (h : resolveDocument path source = .ok d) : d.WellFormed := by
  unfold resolveDocument at h
  simp only at h
  split at h
  · cases h
  · rename_i symbols objects hobjects
    cases h
    obtain ⟨hordered, hrefers⟩ := refers_resolveObjects hobjects
    rw [Nat.zero_add] at hrefers
    refine wellFormed_of_outline rfl hordered (.single ?_ hrefers)
    rintro k (hk | hk) <;> cases hk

end Source
end TreeLint
