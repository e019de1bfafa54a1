/-
# Which symbols are declared where

All symbols of a document are in one list: an object, its variables, and then for
each of its routines the routine, its parameters and its local variables. What is
declared in a symbol is found in this list by looking through all of it
(`Tree.declaredIn`), and it is exactly what the front end declared there, since the
symbols of an object, and those of a routine, are a part of the list that is
closed: no symbol outside the part is declared in one of the part
(`Source.ClosedPart`).

So the scope in which the calls of a body are resolved can be read off the symbols
of the document (`Source.Body`): the parameters and the local variables of the
routine, then the implicit records and the variables of its object. A name is
looked up among these, in this order (`Source.Body.lookup?_eq`).

Key definitions: `Tree.declaredIn`, `Tree.visibleIn`, `Tree.lookup?`,
`Source.ClosedPart`, `Source.Body`, `Source.Body.scope`.
Key theorems: `Source.ClosedPart.declaredAmong_eq`, `Source.Body.map_symbol_locals`,
`Source.Home.map_symbol_globals`, `Source.Body.lookup?_eq`.
-/
import Mathlib.Data.List.Find
import TreeLint.Proofs.References

namespace TreeLint

/-- The positions of the symbols of a kind that are declared in the symbol at `s`, in order; the
first symbol of the list has position `first`. -/
def declaredAmong (s : SymbolId) (k : SymbolKind) (first : SymbolId) (symbols : List Symbol) :
    List SymbolId :=
  (symbols.zipIdx first).filterMap fun (x, i) =>
    if x.containing = some s ∧ x.kind = k then some i else none

namespace Tree

/-- The symbols of a kind that are declared in the symbol at `s`, in order. -/
def declaredIn (t : Tree) (s : SymbolId) (k : SymbolKind) : List SymbolId :=
  declaredAmong s k 0 t.symbols

/-- The names and types of the symbols of a kind that are declared in the symbol at `s`. -/
def declarationsIn (t : Tree) (s : SymbolId) (k : SymbolKind) : List (String × TypeInfo) :=
  (t.declaredIn s k).filterMap fun i =>
    (t.symbol? i).bind fun x => x.declaredType.map fun type => (x.name, type)

/-- The symbols that can be named in the code of a routine of an object: the parameters and the
local variables of the routine, then the variables of the object. -/
def visibleIn (t : Tree) (routine object : SymbolId) : List SymbolId :=
  t.declaredIn routine .parameter ++ t.declaredIn routine .localVariable ++
    t.declaredIn object .globalVariable

/-- The first symbol that has a name in the code of a routine of an object. -/
def lookup? (t : Tree) (routine object : SymbolId) (name : String) : Option SymbolId :=
  (t.visibleIn routine object).find? fun s => (t.symbol? s).any fun x => Name.same x.name name

end Tree

theorem declaredAmong_append (s : SymbolId) (k : SymbolKind) (first : SymbolId)
    (a b : List Symbol) :
    declaredAmong s k first (a ++ b) =
      declaredAmong s k first a ++ declaredAmong s k (first + a.length) b := by
  simp [declaredAmong, List.zipIdx_append]

theorem declaredAmong_cons_of {s : SymbolId} {k : SymbolKind} {x : Symbol}
    (h : x.containing = some s ∧ x.kind = k) (first : SymbolId) (symbols : List Symbol) :
    declaredAmong s k first (x :: symbols) = first :: declaredAmong s k (first + 1) symbols := by
  simp [declaredAmong, List.zipIdx_cons, h]

theorem declaredAmong_cons_of_not {s : SymbolId} {k : SymbolKind} {x : Symbol}
    (h : ¬ (x.containing = some s ∧ x.kind = k)) (first : SymbolId) (symbols : List Symbol) :
    declaredAmong s k first (x :: symbols) = declaredAmong s k (first + 1) symbols := by
  simp [declaredAmong, List.zipIdx_cons, h]

theorem declaredAmong_eq_nil {s : SymbolId} {k : SymbolKind} (first : SymbolId)
    {symbols : List Symbol} (h : ∀ x ∈ symbols, x.kind = k → x.containing ≠ some s) :
    declaredAmong s k first symbols = [] := by
  unfold declaredAmong
  rw [List.filterMap_eq_nil_iff]
  rintro ⟨x, i⟩ hx
  have hmem : x ∈ symbols := (List.mem_zipIdx hx).2.2 ▸ List.getElem_mem _
  exact if_neg fun hboth => h x hmem hboth.2 hboth.1

namespace Source

variable {t : Text}

/-! ### Variables that are declared one after the other -/

section Declare

variable (kind : SymbolKind) (implicit : Bool)

theorem declare_cons (first : Nat) (d : String × TypeInfo) (ds : List (String × TypeInfo)) :
    declare kind implicit first (d :: ds) =
      ⟨d.1, first, kind, d.2, implicit⟩ :: declare kind implicit (first + 1) ds := rfl

theorem map_declaration_declare (first : Nat) (ds : List (String × TypeInfo)) :
    (declare kind implicit first ds).map (fun v => (v.name, v.type)) = ds := by
  induction ds generalizing first with
  | nil => rfl
  | cons d ds ih => rw [declare_cons, List.map_cons, ih]

theorem kind_of_mem_declare {first : Nat} {ds : List (String × TypeInfo)} {v : Variable}
    (hv : v ∈ declare kind implicit first ds) : v.kind = kind ∧ v.implicit = implicit := by
  obtain ⟨_, -, rfl⟩ := List.mem_map.mp hv
  exact ⟨rfl, rfl⟩

theorem filter_declare_self (first : Nat) (ds : List (String × TypeInfo)) :
    (declare kind implicit first ds).filter (·.kind = kind) = declare kind implicit first ds := by
  rw [List.filter_eq_self]
  intro v hv
  exact decide_eq_true (kind_of_mem_declare kind implicit hv).1

theorem filter_declare_of_ne {k : SymbolKind} (hk : kind ≠ k) (first : Nat)
    (ds : List (String × TypeInfo)) :
    (declare kind implicit first ds).filter (·.kind = k) = [] := by
  rw [List.filter_eq_nil_iff]
  intro v hv heq
  exact hk ((kind_of_mem_declare kind implicit hv).1.symm.trans (of_decide_eq_true heq))

end Declare

/-- The symbols of the variables are numbered from `first` on. -/
def Numbered (first : Nat) (vs : List Variable) : Prop :=
  ∀ (i : Nat) (v : Variable), vs[i]? = some v → v.symbol = first + i

theorem numbered_declare {kind : SymbolKind} {implicit : Bool} {first : Nat}
    {ds : List (String × TypeInfo)} : Numbered first (declare kind implicit first ds) := by
  intro i v hv
  simp only [declare, List.getElem?_map, List.getElem?_zipIdx, Option.map_map,
    Option.map_eq_some_iff] at hv
  obtain ⟨d, -, rfl⟩ := hv
  rfl

theorem Numbered.append {first : Nat} {vs ws : List Variable} (hvs : Numbered first vs)
    (hws : Numbered (first + vs.length) ws) : Numbered first (vs ++ ws) := by
  intro i v hv
  by_cases hi : i < vs.length
  · rw [List.getElem?_append_left hi] at hv
    exact hvs i v hv
  · rw [List.getElem?_append_right (by omega)] at hv
    rw [hws _ v hv, Nat.add_assoc, Nat.add_sub_of_le (by omega)]

theorem Numbered.tail {first : Nat} {v : Variable} {vs : List Variable}
    (h : Numbered first (v :: vs)) : Numbered (first + 1) vs := by
  intro i w hw
  rw [h (i + 1) w hw, Nat.add_assoc, Nat.add_comm 1 i]

/-- Variables that are declared in a symbol are found there under their kind. -/
theorem declaredAmong_toSymbol {first : Nat} {vs : List Variable} (h : Numbered first vs)
    (s : Nat) (k : SymbolKind) :
    declaredAmong s k first (vs.map (Variable.toSymbol s)) =
      (vs.filter (·.kind = k)).map (·.symbol) := by
  induction vs generalizing first with
  | nil => rfl
  | cons v vs ih =>
    rw [List.map_cons]
    by_cases hk : v.kind = k
    · rw [declaredAmong_cons_of ⟨rfl, hk⟩, List.filter_cons_of_pos (by simpa using hk),
        List.map_cons, ih h.tail, h 0 v rfl]
      rfl
    · have hnot : ¬ ((v.toSymbol s).containing = some s ∧ (v.toSymbol s).kind = k) :=
        fun hboth => hk hboth.2
      rw [declaredAmong_cons_of_not hnot, List.filter_cons_of_neg (by simpa using hk), ih h.tail]

/-! ### Closed parts -/

/-- A list of symbols stands among all symbols from position `first` on, and no symbol outside of
it is declared in one of it. -/
structure ClosedPart (symbols : List Symbol) (first : Nat) (part : List Symbol) : Prop where
  exists_append : ∃ before after, symbols = before ++ part ++ after ∧ before.length = first ∧
    ∀ x ∈ before ++ after, ∀ c : Nat, x.containing = some c → c < first ∨ first + part.length ≤ c

namespace ClosedPart

variable {symbols part a b : List Symbol} {first s : Nat}

theorem all (symbols : List Symbol) : ClosedPart symbols 0 symbols :=
  ⟨[], [], by simp, rfl, by simp⟩

theorem getElem? (h : ClosedPart symbols first part) {i : Nat} {x : Symbol}
    (hx : part[i]? = some x) : symbols[first + i]? = some x := by
  obtain ⟨before, after, rfl, rfl, -⟩ := h.exists_append
  have hlt : i < part.length := (List.getElem?_eq_some_iff.mp hx).1
  rw [List.append_assoc, List.getElem?_append_right (Nat.le_add_right _ _),
    Nat.add_sub_cancel_left, List.getElem?_append_left hlt, hx]

/-- The front of a closed part is closed if nothing behind it is declared in it. -/
theorem left (h : ClosedPart symbols first (a ++ b))
    (hb : ∀ x ∈ b, ∀ c : Nat, x.containing = some c → c < first ∨ first + a.length ≤ c) :
    ClosedPart symbols first a := by
  obtain ⟨before, after, heq, hfirst, hout⟩ := h.exists_append
  refine ⟨before, b ++ after, by simp [heq], hfirst, fun x hx c hc => ?_⟩
  rw [List.length_append] at hout
  simp only [List.mem_append] at hx hout
  rcases hx with hx | hx | hx
  · have := hout x (Or.inl hx) c hc
    omega
  · exact hb x hx c hc
  · have := hout x (Or.inr hx) c hc
    omega

/-- The back of a closed part is closed if nothing before it is declared in it. -/
theorem right (h : ClosedPart symbols first (a ++ b))
    (ha : ∀ x ∈ a, ∀ c : Nat, x.containing = some c → c < first + a.length) :
    ClosedPart symbols (first + a.length) b := by
  obtain ⟨before, after, heq, hfirst, hout⟩ := h.exists_append
  refine ⟨before ++ a, after, by simp [heq], by simp [hfirst], fun x hx c hc => ?_⟩
  rw [List.length_append] at hout
  simp only [List.mem_append] at hx hout
  rcases hx with (hx | hx) | hx
  · have := hout x (Or.inl hx) c hc
    omega
  · exact Or.inl (ha x hx c hc)
  · have := hout x (Or.inr hx) c hc
    omega

/-- **What is declared in a symbol of a closed part is in the part.** -/
theorem declaredAmong_eq (h : ClosedPart symbols first part) (hs : first ≤ s)
    (hs' : s < first + part.length) (k : SymbolKind) :
    declaredAmong s k 0 symbols = declaredAmong s k first part := by
  obtain ⟨before, after, rfl, rfl, hout⟩ := h.exists_append
  have hnone : ∀ x ∈ before ++ after, x.kind = k → x.containing ≠ some s := by
    intro x hx _ hc
    have := hout x hx s hc
    omega
  rw [declaredAmong_append, declaredAmong_append,
    declaredAmong_eq_nil 0 fun x hx => hnone x (List.mem_append_left _ hx),
    declaredAmong_eq_nil _ fun x hx => hnone x (List.mem_append_right _ hx),
    List.nil_append, List.append_nil, Nat.zero_add]

end ClosedPart

theorem ClosedPart.filter_eq {symbols part : List Symbol} {first s : Nat}
    (h : ClosedPart symbols first part) (hs : first ≤ s) (hs' : s < first + part.length) :
    symbols.filter (·.containing = some s) = part.filter (·.containing = some s) := by
  obtain ⟨before, after, rfl, rfl, hout⟩ := h.exists_append
  have hnone : ∀ x ∈ before ++ after, ¬ decide (x.containing = some s) = true := by
    intro x hx hc
    have := hout x hx s (of_decide_eq_true hc)
    omega
  rw [List.filter_append, List.filter_append,
    List.filter_eq_nil_iff.mpr fun x hx => hnone x (List.mem_append_left _ hx),
    List.filter_eq_nil_iff.mpr fun x hx => hnone x (List.mem_append_right _ hx),
    List.nil_append, List.append_nil]

/-! ### The scope of a routine -/

/-- The variables of an object: its implicit records, then those that it declares. -/
def objectVariables (t : Text) (o : ObjectSite) (rs : List Routine) (object : SymbolId) :
    List Variable :=
  let records := declare .globalVariable true (object + 1) (implicitRecords (recordTable? t o))
  records ++ declare .globalVariable false (object + 1 + records.length) (globalDeclarations t o rs)

/-- The declarations of the local section of a routine. -/
def localDeclarations (t : Text) (r : Routine) : List (String × TypeInfo) :=
  match r.locals with
  | some extent => t.declarations extent false
  | none => []

/-- The parameters and the local variables of a routine. -/
def routineVariables (t : Text) (r : Routine) (routine : SymbolId) : List Variable :=
  let parameters := declare .parameter false (routine + 1) (t.declarations r.parameters true)
  parameters ++ declare .localVariable false (routine + 1 + parameters.length)
    (localDeclarations t r)

/-- The symbol of a routine of an object. -/
def routineSymbol (t : Text) (object : SymbolId) (r : Routine) : Symbol where
  kind := r.kind.symbolKind
  name := t.name r.name
  obsolete := if r.obsolete then .pending else .current
  containing := some object

/-- The names of the procedures among some routines. -/
def procedureNames (t : Text) (rs : List Routine) : List String :=
  (rs.filter (·.kind == .procedure)).map fun r => t.name r.name

theorem fst_resolveRoutine (object first : SymbolId) (globals : List Variable)
    (procedures : List String) (r : Routine) :
    (resolveRoutine t object first globals procedures r).1 =
      routineSymbol t object r :: (routineVariables t r first).map (Variable.toSymbol first) := rfl

/-- The symbols of an object are its own, those of its variables and those of its routines. -/
theorem exists_of_resolveObject {first : SymbolId} {o : ObjectSite} {symbols : List Symbol}
    {outline : Outline} (h : resolveObject t first o = .ok (symbols, outline)) :
    ∃ rs x e, t.routines o.members = .ok rs ∧ x.kind = o.kind ∧ x.containing = none ∧
      e = { plainEntry .objectDeclaration (t.span ⟨o.start, o.closing + 1⟩) first with
        symbol := some first } ∧
      let globals := objectVariables t o rs first
      let routines := resolveRoutines t first globals (procedureNames t rs)
        (first + 1 + globals.length) rs
      symbols = x :: globals.map (Variable.toSymbol first) ++ routines.1 ∧
        outline = .single e routines.2 := by
  unfold resolveObject at h
  split at h
  · cases h
  · rename_i rs hrs
    cases h
    exact ⟨rs, _, _, hrs, rfl, rfl, rfl, rfl, rfl⟩

/-- An object of a source, with the routines in it and the position of its symbol among all
symbols. -/
structure Home (t : Text) (symbols : List Symbol) where
  site : ObjectSite
  routines : List Routine
  object : Nat
  site_of_header : ∃ h ∈ objectHeader.all ⟨none, 0, t.bare⟩, objectSite t h = .ok site
  routines_eq : t.routines site.members = .ok routines
  object_part : ∃ x others, x.kind = site.kind ∧ x.containing = none ∧
    ClosedPart symbols object
      (x :: (objectVariables t site routines object).map (Variable.toSymbol object) ++ others) ∧
    others.filter (·.containing = some object) = routines.map (routineSymbol t object)

/-- The symbols of a document carry the names and types that were declared. -/
theorem declarationsIn_eq {tree : Tree} {s : SymbolId} {k : SymbolKind} {vs : List Variable}
    (hvs : tree.declaredIn s k = vs.map (·.symbol))
    (hsymbol : ∀ v ∈ vs, tree.symbol? v.symbol = some (v.toSymbol s)) :
    tree.declarationsIn s k = vs.map fun v => (v.name, v.type) := by
  rw [Tree.declarationsIn, hvs, List.filterMap_map, ← List.filterMap_eq_map]
  refine List.filterMap_congr fun v hv => ?_
  simp only [Function.comp_apply, hsymbol v hv, Option.bind_some]
  rfl

namespace Home

variable {symbols : List Symbol} (b : Home t symbols)

/-- The variables of the object. -/
def globals : List Variable := objectVariables t b.site b.routines b.object

theorem object_symbol : ∃ x, symbols[b.object]? = some x ∧ x.kind = b.site.kind := by
  obtain ⟨x, others, hkind, -, hpart, -⟩ := b.object_part
  exact ⟨x, hpart.getElem? (i := 0) rfl, hkind⟩

theorem isObject_site : b.site.kind.isObject = true := by
  obtain ⟨h, -, hsite⟩ := b.site_of_header
  obtain ⟨opening, closing, kind, -, -, hkind, hsite⟩ := objectSite_eq_ok_iff.mp hsite
  rw [hsite]
  exact List.contains_iff_mem.mpr (List.mem_of_find?_eq_some hkind)

theorem numbered_globals : Numbered (b.object + 1) b.globals :=
  numbered_declare.append numbered_declare

theorem kind_of_mem_globals {v : Variable} (hv : v ∈ b.globals) :
    v.kind = .globalVariable := by
  rcases List.mem_append.mp hv with hv | hv
  · exact (kind_of_mem_declare _ _ hv).1
  · exact (kind_of_mem_declare _ _ hv).1

/-- The variables of the object are declared in its symbol. -/
theorem symbol_of_mem_globals {v : Variable} (hv : v ∈ b.globals) :
    symbols[v.symbol]? = some (v.toSymbol b.object) := by
  obtain ⟨x, others, -, -, hpart, -⟩ := b.object_part
  obtain ⟨i, hi⟩ := List.mem_iff_getElem?.mp hv
  have hlt : i < (b.globals.map (Variable.toSymbol b.object)).length := by
    rw [List.length_map]
    exact (List.getElem?_eq_some_iff.mp hi).1
  rw [b.numbered_globals i v hi, Nat.add_assoc]
  refine hpart.getElem? ?_
  rw [Nat.add_comm, List.cons_append, List.getElem?_cons_succ]
  refine (List.getElem?_append_left hlt).trans ?_
  rw [List.getElem?_map]
  exact congrArg (Option.map _) hi

theorem filter_globals : b.globals.filter (·.kind = .globalVariable) = b.globals := by
  rw [List.filter_eq_self]
  intro v hv
  exact decide_eq_true (b.kind_of_mem_globals hv)

/-- **What is declared in an object** are its implicit records and its variables. -/
theorem map_symbol_globals : declaredAmong b.object .globalVariable 0 symbols =
    b.globals.map (·.symbol) := by
  obtain ⟨x, others, -, hnone, hpart, hothers⟩ := b.object_part
  have hrest : ∀ y ∈ others, y.kind = .globalVariable → y.containing ≠ some b.object := by
    intro y hy hkind hcontaining
    have hmem : y ∈ others.filter (·.containing = some b.object) :=
      List.mem_filter.mpr ⟨hy, by simpa using hcontaining⟩
    rw [hothers] at hmem
    obtain ⟨r, -, rfl⟩ := List.mem_map.mp hmem
    revert hkind
    cases h : r.kind <;> simp [routineSymbol, RoutineKind.symbolKind, h]
  rw [hpart.declaredAmong_eq le_rfl (by simp) .globalVariable, List.cons_append,
    declaredAmong_cons_of_not (by simp [hnone]), declaredAmong_append,
    declaredAmong_eq_nil _ hrest, List.append_nil]
  refine (declaredAmong_toSymbol b.numbered_globals b.object .globalVariable).trans ?_
  rw [filter_globals]

/-- **The variables of an object** are its implicit records, then those of its sections. -/
theorem declarationsIn_globalVariable {tree : Tree} (htree : tree.symbols = symbols) :
    tree.declarationsIn b.object .globalVariable =
    implicitRecords (recordTable? t b.site) ++ globalDeclarations t b.site b.routines := by
  have hglobals : tree.declaredIn b.object .globalVariable = b.globals.map (·.symbol) := by
    rw [Tree.declaredIn, htree, map_symbol_globals]
  rw [declarationsIn_eq hglobals fun v hv => by
    rw [Tree.symbol?, htree, b.symbol_of_mem_globals hv]]
  rw [globals, objectVariables, List.map_append, map_declaration_declare, map_declaration_declare]

end Home

/-- The body of a routine of an object, with the position of the routine's symbol. -/
structure Body (t : Text) (symbols : List Symbol) extends Home t symbols where
  routine : Routine
  extent : Extent
  owner : Nat
  object_lt : object < owner
  routine_mem : routine ∈ routines
  extent_eq : routine.body = some extent
  owner_part : ClosedPart symbols owner (routineSymbol t object routine ::
    (routineVariables t routine owner).map (Variable.toSymbol owner))

namespace Body

variable {symbols : List Symbol} (b : Body t symbols)

/-- The names that can be used in a body. -/
def scope : Scope where
  routine := b.owner
  locals := routineVariables t b.routine b.owner
  globals := objectVariables t b.site b.routines b.object
  procedures := procedureNames t b.routines

theorem owner_symbol : symbols[b.owner]? = some (routineSymbol t b.object b.routine) :=
  b.owner_part.getElem? (i := 0) rfl

theorem numbered_locals : Numbered (b.owner + 1) b.scope.locals :=
  numbered_declare.append numbered_declare

theorem kind_of_mem_locals {v : Variable} (hv : v ∈ b.scope.locals) :
    v.kind = .parameter ∨ v.kind = .localVariable := by
  rcases List.mem_append.mp hv with hv | hv
  · exact Or.inl (kind_of_mem_declare _ _ hv).1
  · exact Or.inr (kind_of_mem_declare _ _ hv).1

/-- The parameters and local variables of the routine are declared in its symbol. -/
theorem symbol_of_mem_locals {v : Variable} (hv : v ∈ b.scope.locals) :
    symbols[v.symbol]? = some (v.toSymbol b.owner) := by
  obtain ⟨i, hi⟩ := List.mem_iff_getElem?.mp hv
  rw [b.numbered_locals i v hi, Nat.add_assoc]
  refine b.owner_part.getElem? ?_
  rw [Nat.add_comm, List.getElem?_cons_succ, List.getElem?_map]
  exact congrArg (Option.map _) hi

/-- **What is declared in a routine** are its parameters and its local variables. -/
theorem map_symbol_locals (k : SymbolKind) : declaredAmong b.owner k 0 symbols =
    (b.scope.locals.filter (·.kind = k)).map (·.symbol) := by
  have howner : ¬ ((routineSymbol t b.object b.routine).containing = some b.owner ∧
      (routineSymbol t b.object b.routine).kind = k) := by
    intro ⟨hcontaining, _⟩
    exact absurd (Option.some.inj hcontaining) (Nat.ne_of_lt b.object_lt)
  rw [b.owner_part.declaredAmong_eq le_rfl (by simp) k, declaredAmong_cons_of_not howner]
  exact declaredAmong_toSymbol b.numbered_locals b.owner k

theorem parameters_eq : b.scope.locals.filter (·.kind = .parameter) =
    declare .parameter false (b.owner + 1) (t.declarations b.routine.parameters true) := by
  rw [scope, routineVariables, List.filter_append, filter_declare_self,
    filter_declare_of_ne _ _ (by decide), List.append_nil]

theorem localVariables_eq : b.scope.locals.filter (·.kind = .localVariable) =
    declare .localVariable false
      (b.owner + 1 + (declare .parameter false (b.owner + 1)
        (t.declarations b.routine.parameters true)).length) (localDeclarations t b.routine) := by
  rw [scope, routineVariables, List.filter_append, filter_declare_self,
    filter_declare_of_ne _ _ (by decide), List.nil_append]

/-- The local names of a body: the parameters, then the local variables. -/
theorem locals_eq : b.scope.locals =
    b.scope.locals.filter (·.kind = .parameter) ++
      b.scope.locals.filter (·.kind = .localVariable) := by
  rw [parameters_eq, localVariables_eq]
  rfl

section Declarations

variable {tree : Tree} (htree : tree.symbols = symbols)
include htree

theorem declarationsIn_owner (k : SymbolKind) : tree.declarationsIn b.owner k =
    (b.scope.locals.filter (·.kind = k)).map fun v => (v.name, v.type) := by
  refine declarationsIn_eq ?_ fun v hv => ?_
  · rw [Tree.declaredIn, htree, map_symbol_locals]
  · rw [Tree.symbol?, htree, b.symbol_of_mem_locals (List.mem_filter.mp hv).1]

/-- **The parameters of a routine** are those of its parameter list. -/
theorem declarationsIn_parameter :
    tree.declarationsIn b.owner .parameter = t.declarations b.routine.parameters true := by
  rw [b.declarationsIn_owner htree, parameters_eq, map_declaration_declare]

/-- **The local variables of a routine** are those of its local section. -/
theorem declarationsIn_localVariable :
    tree.declarationsIn b.owner .localVariable = localDeclarations t b.routine := by
  rw [b.declarationsIn_owner htree, localVariables_eq, map_declaration_declare]

end Declarations

/-- The implicit record of an object is its first variable, if it stands for a table. -/
theorem implicitRecord?_eq : b.scope.implicitRecord? = (recordTable? t b.site).map fun table =>
    ⟨"Rec", b.object + 1, .globalVariable, { kind := .record, name := some table }, true⟩ := by
  have hdeclared : ∀ {first : Nat} {ds : List (String × TypeInfo)},
      (declare .globalVariable false first ds).find? (fun v => v.implicit && v.name == "Rec") =
        none := by
    intro first ds
    rw [List.find?_eq_none]
    intro v hv
    simp [(kind_of_mem_declare _ _ hv).2]
  rw [Scope.implicitRecord?, scope, objectVariables, List.find?_append, hdeclared]
  cases recordTable? t b.site <;> rfl

theorem head?_globals {table : String} (h : recordTable? t b.site = some table) :
    b.scope.globals.head?.map (·.symbol) = some (b.object + 1) := by
  rw [scope, objectVariables, h]
  rfl

/-- The names of the procedures of an object. -/
theorem map_name_procedures :
    ((symbols.filter (·.containing = some b.object)).filter (·.kind = .method)).map (·.name) =
      b.scope.procedures := by
  obtain ⟨x, others, -, hnone, hpart, hothers⟩ := b.object_part
  have hvariables : (((objectVariables t b.site b.routines b.object).map
      (Variable.toSymbol b.object)).filter (·.containing = some b.object)).filter
        (·.kind = .method) = [] := by
    simp only [List.filter_eq_nil_iff, List.mem_filter, List.mem_map]
    rintro y ⟨⟨v, hv, rfl⟩, -⟩
    simp [Variable.toSymbol, b.kind_of_mem_globals hv]
  rw [hpart.filter_eq le_rfl (by simp), List.cons_append, List.filter_cons_of_neg (by simp [hnone]),
    List.filter_append, hothers, List.filter_append, hvariables, List.nil_append]
  have hkind : ∀ r : Routine, decide ((routineSymbol t b.object r).kind = .method) =
      (r.kind == .procedure) := by
    intro r
    cases h : r.kind <;> simp [routineSymbol, RoutineKind.symbolKind, h]
  rw [List.filter_map, List.map_map]
  simp only [Function.comp_def, hkind]
  rfl

/-- What can be named in a body are the visible variables, in their order. -/
theorem visibleIn_eq {tree : Tree} (htree : tree.symbols = symbols) :
    tree.visibleIn b.owner b.object = b.scope.visible.map (·.symbol) := by
  rw [Tree.visibleIn, Tree.declaredIn, Tree.declaredIn, Tree.declaredIn, htree, Scope.visible,
    b.map_symbol_locals, b.map_symbol_locals, b.map_symbol_globals, ← List.map_append,
    ← b.locals_eq, ← List.map_append]
  rfl

/-- **A name is looked up among the symbols of the document.** -/
theorem lookup?_eq {tree : Tree} (htree : tree.symbols = symbols) (name : String) :
    tree.lookup? b.owner b.object name = (b.scope.lookup? name).map (·.symbol) := by
  have hsymbol : ∀ v ∈ b.scope.visible, (tree.symbol? v.symbol).any
      (fun x => Name.same x.name name) = Name.same v.name name := by
    intro v hv
    rw [Tree.symbol?, htree]
    rcases List.mem_append.mp hv with hv | hv
    · rw [b.symbol_of_mem_locals hv]
      rfl
    · rw [b.symbol_of_mem_globals hv]
      rfl
  rw [Tree.lookup?, b.visibleIn_eq htree, List.find?_map]
  exact congrArg (Option.map _) (List.find?_congr hsymbol)

end Body

end Source
end TreeLint
