/-
# Documents are read back from their exchange format

Every record of a document is written as an object whose fields are among those
the reader knows, each at most once (`Json.fields?_of_sublist`), and every field
that is left out is one whose default the reader puts there. So what is written
is read back, part by part, and the tree made from it is the tree that was
written: the document passes the same checks, and the child lists follow from
the parents.

Positions have 32 bits in the format and offsets, lines and columns 64. The
positions of a tree always have: a tree has fewer than `2 ^ 32` nodes and symbols
and no reference leads out of it.

Key definitions: `Span.Fits`, `Document.PositionsFit`.
Key theorems: `Document.ofJson?_toJson`, `Tree.load_compact_toJson`.
-/
import TreeLint.Proofs.Documents
import TreeLint.Proofs.JsonTexts
import TreeLint.Semantic.Format

namespace TreeLint

namespace Json

/-! ### Fields -/

theorem map_fst_optField {α : Type} (name : String) (f : α → Json) (o : Option α) :
    ((optField name f o).map Prod.fst).Sublist [name] := by
  cases o with
  | none => simp [optField]
  | some a => simp [optField]

/-- An object whose fields are among the given names, in their order, has each of them at most
once. -/
theorem fields?_of_sublist (names : List String) (fields : List (String × Json))
    (hnodup : names.Nodup) (h : (fields.map Prod.fst).Sublist names) :
    fields? names (.obj fields) = some fields := by
  have honce : ∀ n, (valuesOf n fields).length ≤ 1 := by
    intro n
    have hcount : (fields.map Prod.fst).count n ≤ 1 :=
      List.nodup_iff_count_le_one.mp (h.nodup hnodup) n
    have hlength : (valuesOf n fields).length = (fields.map Prod.fst).count n := by
      simp only [valuesOf, List.length_map, List.count_eq_countP, List.countP_map]
      rw [List.countP_eq_length_filter]
      rfl
    omega
  simp [fields?, honce]

/-- A field that is written when it has a value is found there, and only under its name. -/
theorem lookup_optField {α : Type} (name key : String) (f : α → Json) (o : Option α) :
    (optField key f o).lookup name = if name == key then o.map f else none := by
  cases o with
  | none => simp [optField]
  | some a =>
    by_cases h : name = key
    · simp [optField, h]
    · have hkey : (name == key) = false := beq_false_of_ne h
      simp [optField, List.lookup_cons, hkey]

/-! ### Single values -/

theorem natBelow?_nat {limit n : Nat} (h : n < limit) : natBelow? limit (nat n) = some n := by
  have hall : (Nat.toDigits 10 n).all CharClass.isAsciiDigit = true :=
    List.all_eq_true.mpr fun c hc => isAsciiDigit_of_mem_toDigits hc
  have hne : (Nat.toDigits 10 n).isEmpty = false := by
    have := isNumber_toDigits n
    cases hcs : Nat.toDigits 10 n with
    | nil =>
      rw [hcs] at this
      cases this
    | cons c cs => rfl
  simp [natBelow?, nat, Decimal.ofDigits?, Decimal.value_toDigits, hall, hne, h]

theorem optional?_orNull {α : Type} {r : Reader α} {f : α → Json} {o : Option α}
    (hnull : ∀ a, f a ≠ .null) (h : ∀ a ∈ o, r (f a) = some a) :
    optional? r (orNull f o) = some o := by
  cases o with
  | none => rfl
  | some a =>
    have ha : r (f a) = some a := h a rfl
    have hne := hnull a
    rw [orNull, optional?.eq_def]
    split
    · rename_i heq
      exact absurd heq hne
    · rw [ha]
      rfl

theorem list?_map {α : Type} {r : Reader α} {f : α → Json} {items : List α}
    (h : ∀ a ∈ items, r (f a) = some a) : list? r (.arr (items.map f)) = some items := by
  rw [list?]
  induction items with
  | nil => rfl
  | cons a items ih =>
    have ha := h a List.mem_cons_self
    have hrest := ih fun b hb => h b (List.mem_cons_of_mem a hb)
    simp [ha, hrest]

theorem field?_of_lookup {α : Type} {r : Reader α} {a : α} {v : Json}
    {fields : List (String × Json)} {name : String} (hlookup : fields.lookup name = some v)
    (h : r v = some a) : field? fields name r = some a := by
  simp [field?, hlookup, h]

theorem fieldOr_of_lookup {α : Type} {r : Reader α} {a default : α} {v : Json}
    {fields : List (String × Json)} {name : String} (hlookup : fields.lookup name = some v)
    (h : r v = some a) : fieldOr fields name default r = some a := by
  simp [fieldOr, hlookup, h]

/-- A field that is written only when it has a value is read as it was. -/
theorem fieldOr_optional? {α : Type} {r : Reader α} {f : α → Json} {o : Option α}
    {fields : List (String × Json)} {name : String} (hlookup : fields.lookup name = o.map f)
    (hnull : ∀ a, f a ≠ .null) (h : ∀ a ∈ o, r (f a) = some a) :
    fieldOr fields name none (optional? r) = some o := by
  cases o with
  | none => simp [fieldOr, hlookup]
  | some a =>
    have hread := optional?_orNull (r := r) (o := some a) hnull h
    rw [fieldOr, hlookup]
    exact hread

end Json

open Json

/-! ### Tags -/

theorem NodeKind.ofName?_name (k : NodeKind) : ofName? k.name = some k := by
  cases k <;> decide

theorem TypeKind.ofName?_name (k : TypeKind) : ofName? k.name = some k := by
  cases k <;> decide

theorem SymbolKind.ofName?_name (k : SymbolKind) : ofName? k.name = some k := by
  cases k <;> decide

theorem ObsoleteState.ofName?_name (s : ObsoleteState) : ofName? s.name = some s := by
  cases s <;> decide

theorem MethodKind.ofName?_name (k : MethodKind) : ofName? k.name = some k := by
  cases k <;> decide

/-! ### Records -/

/-- Offsets, lines and columns have 64 bits. -/
structure Span.Fits (s : Span) : Prop where
  startByte : s.startByte < Decimal.limit64
  endByte : s.endByte < Decimal.limit64
  startLine : s.startLine < Decimal.limit64
  startCol : s.startCol < Decimal.limit64
  endLine : s.endLine < Decimal.limit64
  endCol : s.endCol < Decimal.limit64

instance (s : Span) : Decidable s.Fits :=
  decidable_of_iff (s.startByte < Decimal.limit64 ∧ s.endByte < Decimal.limit64 ∧
    s.startLine < Decimal.limit64 ∧ s.startCol < Decimal.limit64 ∧ s.endLine < Decimal.limit64 ∧
    s.endCol < Decimal.limit64)
    ⟨fun ⟨a, b, c, d, e, f⟩ => ⟨a, b, c, d, e, f⟩, fun ⟨a, b, c, d, e, f⟩ => ⟨a, b, c, d, e, f⟩⟩

theorem Span.ofJson?_toJson {s : Span} (h : s.Fits) : ofJson? s.toJson = some s := by
  have hfields := fields?_of_sublist
    ["start_byte", "end_byte", "start_line", "start_col", "end_line", "end_col"]
    [("start_byte", nat s.startByte), ("end_byte", nat s.endByte),
      ("start_line", nat s.startLine), ("start_col", nat s.startCol),
      ("end_line", nat s.endLine), ("end_col", nat s.endCol)]
    (by decide) (List.Sublist.refl _)
  simp [ofJson?, toJson, hfields, field?, List.lookup_cons, count?, natBelow?_nat, h.startByte,
    h.endByte, h.startLine, h.startCol, h.endLine, h.endCol]

theorem TypeInfo.ofJson?_toJson (t : TypeInfo) : ofJson? t.toJson = some t := by
  obtain ⟨kind, name, temporary⟩ := t
  have hfields : fields? ["kind", "name", "temporary"] (toJson ⟨kind, name, temporary⟩) =
      some ([("kind", .str kind.name)] ++ optField "name" Json.str name ++
        (if temporary then [("temporary", .bool true)] else [])) := by
    apply fields?_of_sublist _ _ (by decide)
    simp only [List.map_append, List.map_cons, List.map_nil]
    refine List.Sublist.append (List.Sublist.append (.refl _) (map_fst_optField _ _ _)) ?_
    cases temporary <;> simp
  generalize hfs : [("kind", Json.str kind.name)] ++ optField "name" Json.str name ++
    (if temporary then [("temporary", .bool true)] else []) = fs at hfields
  have hkind : field? fs "kind" (tag? TypeKind.ofName?) = some kind := by
    apply field?_of_lookup (v := .str kind.name)
    · simp [← hfs]
    · exact TypeKind.ofName?_name kind
  have hname : fieldOr fs "name" none (optional? text?) = some name := by
    apply fieldOr_optional? (f := Json.str) _ (by simp) (by simp [text?])
    cases temporary <;> simp [← hfs, List.lookup_append, List.lookup_cons, lookup_optField]
  have htemporary : fieldOr fs "temporary" false flag? = some temporary := by
    cases temporary <;>
      simp [← hfs, fieldOr, flag?, List.lookup_append, List.lookup_cons, lookup_optField]
  simp [ofJson?, hfields, hkind, hname, htemporary]

theorem Symbol.ofJson?_toJson {s : Symbol} (h : ∀ c ∈ s.containing, c < Decimal.limit32) :
    ofJson? s.toJson = some s := by
  obtain ⟨kind, name, obsolete, containing, type⟩ := s
  have hfields : fields? ["kind", "name", "obsolete_state", "containing", "type"]
      (toJson ⟨kind, name, obsolete, containing, type⟩) =
        some ([("kind", .str kind.name), ("name", .str name), ("obsolete_state", .str obsolete.name),
          ("containing", orNull nat containing)] ++ optField "type" TypeInfo.toJson type) := by
    apply fields?_of_sublist _ _ (by decide)
    simp only [List.map_append, List.map_cons, List.map_nil]
    exact List.Sublist.append (.refl _) (map_fst_optField _ _ _)
  generalize hfs : [("kind", Json.str kind.name), ("name", .str name),
    ("obsolete_state", .str obsolete.name), ("containing", orNull nat containing)] ++
      optField "type" TypeInfo.toJson type = fs at hfields
  have hkind : field? fs "kind" (tag? SymbolKind.ofName?) = some kind := by
    apply field?_of_lookup (v := .str kind.name)
    · simp [← hfs]
    · exact SymbolKind.ofName?_name kind
  have hname : field? fs "name" text? = some name := by
    apply field?_of_lookup (v := .str name)
    · simp [← hfs, List.lookup_cons]
    · rfl
  have hobsolete : fieldOr fs "obsolete_state" .current (tag? ObsoleteState.ofName?) =
      some obsolete := by
    apply fieldOr_of_lookup (v := .str obsolete.name)
    · simp [← hfs, List.lookup_cons]
    · exact ObsoleteState.ofName?_name obsolete
  have hcontaining : fieldOr fs "containing" none (optional? id?) = some containing := by
    apply fieldOr_of_lookup (v := orNull nat containing)
    · simp [← hfs, List.lookup_cons]
    · exact optional?_orNull (by simp [nat]) fun c hc => natBelow?_nat (h c hc)
  have htype : fieldOr fs "type" none (optional? TypeInfo.ofJson?) = some type := by
    apply fieldOr_optional? (f := TypeInfo.toJson) _ (by simp [TypeInfo.toJson])
      fun t _ => TypeInfo.ofJson?_toJson t
    simp [← hfs, List.lookup_cons, lookup_optField]
  simp [ofJson?, hfields, hkind, hname, hobsolete, hcontaining, htype]

theorem BoundArgument.ofJson?_toJson {a : BoundArgument} (h : ∀ v ∈ a.value, v < Decimal.limit32) :
    ofJson? a.toJson = some a := by
  have hfields := fields?_of_sublist ["parameter", "value"]
    [("parameter", orNull Json.str a.parameter), ("value", orNull nat a.value)]
    (by decide) (List.Sublist.refl _)
  have hparameter : optional? text? (orNull Json.str a.parameter) = some a.parameter :=
    optional?_orNull (by simp) (by simp [text?])
  have hvalue : optional? id? (orNull nat a.value) = some a.value :=
    optional?_orNull (by simp [nat]) fun v hv => natBelow?_nat (h v hv)
  simp [ofJson?, toJson, hfields, fieldOr, List.lookup_cons, hparameter, hvalue]

theorem TargetMethod.ofJson?_toJson (m : TargetMethod) : ofJson? m.toJson = some m := by
  have hfields := fields?_of_sublist ["name", "kind"]
    [("name", .str m.name), ("kind", .str m.kind.name)] (by decide) (List.Sublist.refl _)
  simp [ofJson?, toJson, hfields, field?, List.lookup_cons, text?, tag?, MethodKind.ofName?_name]

theorem Invocation.ofJson?_toJson {call : Invocation}
    (h : ∀ a ∈ call.arguments, ∀ v ∈ a.value, v < Decimal.limit32) :
    ofJson? call.toJson = some call := by
  have hfields := fields?_of_sublist ["method", "arguments"]
    [("method", call.method.toJson),
      ("arguments", .arr (call.arguments.map BoundArgument.toJson))] (by decide)
    (List.Sublist.refl _)
  have harguments : list? BoundArgument.ofJson? (.arr (call.arguments.map BoundArgument.toJson)) =
      some call.arguments :=
    list?_map fun a ha => BoundArgument.ofJson?_toJson (h a ha)
  simp [ofJson?, toJson, hfields, field?, fieldOr, List.lookup_cons, TargetMethod.ofJson?_toJson,
    harguments]

/-- The positions that a node refers to have 32 bits, and its span has 64. -/
structure Node.Fits (n : Node) : Prop where
  span : n.span.Fits
  parent : ∀ p ∈ n.parent, p < Decimal.limit32
  symbol : ∀ s ∈ n.symbol, s < Decimal.limit32
  containingSymbol : ∀ s ∈ n.containingSymbol, s < Decimal.limit32
  value : ∀ call ∈ n.invocation, ∀ a ∈ call.arguments, ∀ v ∈ a.value, v < Decimal.limit32

theorem Node.ofJson?_toJson {n : Node} (h : n.Fits) : ofJson? n.toJson = some n := by
  obtain ⟨kind, span, parent, symbol, type, containing, call⟩ := n
  have hfields : fields?
      ["kind", "span", "parent", "symbol", "type", "containing_symbol", "invocation"]
      (toJson ⟨kind, span, parent, symbol, type, containing, call⟩) =
        some ([("kind", .str kind.name), ("span", span.toJson), ("parent", orNull nat parent)] ++
          optField "symbol" nat symbol ++ optField "type" TypeInfo.toJson type ++
          optField "containing_symbol" nat containing ++
          optField "invocation" Invocation.toJson call) := by
    apply fields?_of_sublist _ _ (by decide)
    simp only [List.map_append, List.map_cons, List.map_nil]
    exact ((((List.Sublist.refl _).append (map_fst_optField _ _ _)).append
      (map_fst_optField _ _ _)).append (map_fst_optField _ _ _)).append (map_fst_optField _ _ _)
  generalize hfs : [("kind", Json.str kind.name), ("span", span.toJson),
    ("parent", orNull nat parent)] ++ optField "symbol" nat symbol ++
    optField "type" TypeInfo.toJson type ++ optField "containing_symbol" nat containing ++
    optField "invocation" Invocation.toJson call = fs at hfields
  have hkind : field? fs "kind" (tag? NodeKind.ofName?) = some kind := by
    apply field?_of_lookup (v := .str kind.name)
    · simp [← hfs]
    · exact NodeKind.ofName?_name kind
  have hspan : field? fs "span" Span.ofJson? = some span := by
    apply field?_of_lookup (v := span.toJson)
    · simp [← hfs, List.lookup_cons]
    · exact Span.ofJson?_toJson h.span
  have hparent : fieldOr fs "parent" none (optional? id?) = some parent := by
    apply fieldOr_of_lookup (v := orNull nat parent)
    · simp [← hfs, List.lookup_cons]
    · exact optional?_orNull (by simp [nat]) fun p hp => natBelow?_nat (h.parent p hp)
  have hsymbol : fieldOr fs "symbol" none (optional? id?) = some symbol := by
    apply fieldOr_optional? (f := nat) _ (by simp [nat]) fun s hs => natBelow?_nat (h.symbol s hs)
    simp [← hfs, List.lookup_append, List.lookup_cons, lookup_optField]
  have htype : fieldOr fs "type" none (optional? TypeInfo.ofJson?) = some type := by
    apply fieldOr_optional? (f := TypeInfo.toJson) _ (by simp [TypeInfo.toJson])
      fun t _ => TypeInfo.ofJson?_toJson t
    simp [← hfs, List.lookup_append, List.lookup_cons, lookup_optField]
  have hcontaining : fieldOr fs "containing_symbol" none (optional? id?) = some containing := by
    apply fieldOr_optional? (f := nat) _ (by simp [nat])
      fun s hs => natBelow?_nat (h.containingSymbol s hs)
    simp [← hfs, List.lookup_append, List.lookup_cons, lookup_optField]
  have hcall : fieldOr fs "invocation" none (optional? Invocation.ofJson?) = some call := by
    apply fieldOr_optional? (f := Invocation.toJson) _ (by simp [Invocation.toJson])
      fun c hc => Invocation.ofJson?_toJson (h.value c hc)
    simp [← hfs, List.lookup_append, List.lookup_cons, lookup_optField]
  simp [ofJson?, hfields, hkind, hspan, hparent, hsymbol, htype, hcontaining, hcall]

namespace Document

/-- The positions of a document have 32 bits, and its spans 64. -/
structure PositionsFit (d : Document) : Prop where
  containing : ∀ s ∈ d.symbols, ∀ c ∈ s.containing, c < Decimal.limit32
  nodes : ∀ n ∈ d.nodes, n.Fits

/-- **A document is read back from its value.** -/
theorem ofJson?_toJson {d : Document} (h : d.PositionsFit) : ofJson? d.toJson = some d := by
  obtain ⟨path, source, symbols, nodes⟩ := d
  have hfields : fields? ["path", "source", "symbols", "nodes"]
      (toJson ⟨path, source, symbols, nodes⟩) =
        some ([("path", .str path)] ++ optField "source" Json.str source ++
          [("symbols", .arr (symbols.map Symbol.toJson)), ("nodes", .arr (nodes.map Node.toJson))]) := by
    apply fields?_of_sublist _ _ (by decide)
    simp only [List.map_append, List.map_cons, List.map_nil]
    exact ((List.Sublist.refl _).append (map_fst_optField _ _ _)).append (List.Sublist.refl _)
  generalize hfs : [("path", Json.str path)] ++ optField "source" Json.str source ++
    [("symbols", .arr (symbols.map Symbol.toJson)), ("nodes", .arr (nodes.map Node.toJson))] =
      fs at hfields
  have hpath : field? fs "path" text? = some path := by
    apply field?_of_lookup (v := .str path)
    · simp [← hfs]
    · rfl
  have hsource : fieldOr fs "source" none (optional? text?) = some source := by
    apply fieldOr_optional? (f := Json.str) _ (by simp) (by simp [text?])
    simp [← hfs, List.lookup_append, List.lookup_cons, lookup_optField]
  have hsymbols : fieldOr fs "symbols" [] (list? Symbol.ofJson?) = some symbols := by
    apply fieldOr_of_lookup (v := .arr (symbols.map Symbol.toJson))
    · simp [← hfs, List.lookup_append, List.lookup_cons, lookup_optField]
    · exact list?_map fun s hs => Symbol.ofJson?_toJson (h.containing s hs)
  have hnodes : fieldOr fs "nodes" [] (list? Node.ofJson?) = some nodes := by
    apply fieldOr_of_lookup (v := .arr (nodes.map Node.toJson))
    · simp [← hfs, List.lookup_append, List.lookup_cons, lookup_optField]
    · exact list?_map fun n hn => Node.ofJson?_toJson (h.nodes n hn)
  simp [ofJson?, hfields, hpath, hsource, hsymbols, hnodes]

end Document

/-! ### What is written is spelled out -/

namespace Json

theorem spelled_obj_iff {fields : List (String × Json)} :
    (Json.obj fields).Spelled ↔ ∀ f ∈ fields, f.2.Spelled := by
  rw [Spelled]
  exact spelledFields_iff

theorem spelled_arr_map {α : Type} {f : α → Json} {items : List α} (h : ∀ a, (f a).Spelled) :
    (Json.arr (items.map f)).Spelled := by
  rw [Spelled, spelledItems_iff]
  intro v hv
  obtain ⟨a, -, rfl⟩ := List.mem_map.mp hv
  exact h a

@[simp]
theorem spelled_nat (n : Nat) : (nat n).Spelled := ⟨n, rfl⟩

@[simp]
theorem spelled_str (s : String) : (Json.str s).Spelled := trivial

@[simp]
theorem spelled_bool (b : Bool) : (Json.bool b).Spelled := trivial

theorem spelled_orNull {α : Type} {f : α → Json} (h : ∀ a, (f a).Spelled) (o : Option α) :
    (orNull f o).Spelled := by
  cases o with
  | none => trivial
  | some a => exact h a

theorem spelled_of_mem_optField {α : Type} {name : String} {f : α → Json}
    (h : ∀ a, (f a).Spelled) {o : Option α} {x : String × Json} (hx : x ∈ optField name f o) :
    x.2.Spelled := by
  cases o with
  | none => cases hx
  | some a =>
    rw [optField, List.mem_singleton] at hx
    rw [hx]
    exact h a

end Json

theorem Span.spelled_toJson (s : Span) : s.toJson.Spelled := by
  simp [toJson, spelled_obj_iff]

theorem TypeInfo.spelled_toJson (t : TypeInfo) : t.toJson.Spelled := by
  rw [toJson, spelled_obj_iff]
  intro x hx
  simp only [List.mem_append, List.mem_singleton] at hx
  rcases hx with (rfl | hx) | hx
  · trivial
  · exact spelled_of_mem_optField spelled_str hx
  · split at hx
    · rw [List.mem_singleton] at hx
      rw [hx]
      trivial
    · cases hx

theorem Symbol.spelled_toJson (s : Symbol) : s.toJson.Spelled := by
  rw [toJson, spelled_obj_iff]
  intro x hx
  rcases List.mem_append.mp hx with hx | hx
  · have hcontaining := spelled_orNull spelled_nat s.containing
    simp only [List.mem_cons, List.not_mem_nil, or_false] at hx
    rcases hx with rfl | rfl | rfl | rfl
    · trivial
    · trivial
    · trivial
    · exact hcontaining
  · exact spelled_of_mem_optField TypeInfo.spelled_toJson hx

theorem Invocation.spelled_toJson (call : Invocation) : call.toJson.Spelled := by
  have hargument : ∀ a : BoundArgument, a.toJson.Spelled := by
    intro a
    have hparameter := spelled_orNull spelled_str a.parameter
    have hvalue := spelled_orNull spelled_nat a.value
    simp [BoundArgument.toJson, spelled_obj_iff, hparameter, hvalue]
  have harguments : (Json.arr (call.arguments.map BoundArgument.toJson)).Spelled :=
    spelled_arr_map hargument
  simp [toJson, TargetMethod.toJson, spelled_obj_iff, harguments]

theorem Node.spelled_toJson (n : Node) : n.toJson.Spelled := by
  rw [toJson, spelled_obj_iff]
  intro x hx
  simp only [List.mem_append, List.mem_cons, List.not_mem_nil, or_false] at hx
  rcases hx with ((((rfl | rfl | rfl) | hx) | hx) | hx) | hx
  · trivial
  · exact n.span.spelled_toJson
  · exact spelled_orNull spelled_nat n.parent
  · exact spelled_of_mem_optField spelled_nat hx
  · exact spelled_of_mem_optField TypeInfo.spelled_toJson hx
  · exact spelled_of_mem_optField spelled_nat hx
  · exact spelled_of_mem_optField Invocation.spelled_toJson hx

theorem Document.spelled_toJson (d : Document) : d.toJson.Spelled := by
  rw [toJson, spelled_obj_iff]
  intro x hx
  simp only [List.mem_append, List.mem_cons, List.not_mem_nil, or_false] at hx
  rcases hx with (rfl | hx) | rfl | rfl
  · trivial
  · exact spelled_of_mem_optField spelled_str hx
  · exact spelled_arr_map Symbol.spelled_toJson
  · exact spelled_arr_map Node.spelled_toJson

/-! ### Trees -/

/-- The references of a tree lead to some of its fewer than `2 ^ 32` symbols and nodes. -/
theorem Document.WellFormed.positionsFit {d : Document} (h : d.WellFormed) (hfits : d.fits = true)
    (hspans : ∀ n ∈ d.nodes, n.span.Fits) : d.PositionsFit := by
  have hsizes : d.nodes.length < Decimal.limit32 ∧ d.symbols.length < Decimal.limit32 := by
    simp only [Document.fits, Bool.and_eq_true, decide_eq_true_eq] at hfits
    exact hfits
  refine ⟨fun s hs c hc => ?_, fun n hn => ?_⟩
  · obtain ⟨i, hi⟩ := List.mem_iff_getElem?.mp hs
    exact (h.containing_lt i s c hi hc).trans hsizes.2
  · obtain ⟨i, hi⟩ := List.mem_iff_getElem?.mp hn
    have hlt : i < d.nodes.length := (List.getElem?_eq_some_iff.mp hi).1
    exact {
      span := hspans n hn
      parent := fun p hp => ((h.parent_lt i n p hi hp).trans hlt).trans hsizes.1
      symbol := fun s hs => (h.symbol_lt i n s hi (Or.inl hs)).trans hsizes.2
      containingSymbol := fun s hs => (h.symbol_lt i n s hi (Or.inr hs)).trans hsizes.2
      value := fun call hcall a ha v hv => (h.value_lt i n call a v hi hcall ha hv).trans hsizes.1 }

namespace Tree

/-- **A tree is read back from its text.** Whatever texts, symbols and nodes a document has, if it
becomes a tree and its spans have 64 bits, the text of the tree is read as the same tree: path,
source, symbols, nodes and child lists. -/
theorem load_compact_toJson {d : Document} {t : Tree} (h : ofDocument d = .ok t)
    (hspans : ∀ n ∈ d.nodes, n.span.Fits) : load (compact t.toDocument.toJson) = .ok t := by
  obtain ⟨⟨hfits, hwf⟩, hdoc, -⟩ := ofDocument_eq_ok_iff.mp h
  have hvalue : Document.ofJson? d.toJson = some d :=
    Document.ofJson?_toJson (hwf.positionsFit hfits hspans)
  rw [hdoc, load, readFront?_compact d.spelled_toJson]
  simp only [hvalue, h, if_true]

/-- A document with every kind of text: quotes, a control character, a character outside the basic
plane; the greatest offset; fields that are there and fields that are not. -/
def exportedDocument : Document where
  path := "a\"\\\x01\n.al"
  source := some "é𝄞\x7f\t"
  symbols := [{ kind := .table, name := "\"T\"", obsolete := .pending },
    { kind := .globalVariable, name := "", containing := some 0,
      declaredType := some ⟨.record, some "/", true⟩ },
    { kind := .field, name := "F", declaredType := some { kind := .integer } }]
  nodes := [
    { kind := .invocationExpression, span := ⟨0, 18446744073709551615, 1, 1, 1, 1⟩,
      invocation := some ⟨⟨"M", .method⟩, [⟨some "p", some 1⟩, ⟨none, none⟩]⟩ },
    { kind := .argument, span := ⟨0, 0, 0, 0, 0, 0⟩, parent := some 0, symbol := some 1,
      resolvedType := some { kind := .boolean }, containingSymbol := some 2 }]

/-- The sample is read back. -/
theorem load_exportedDocument : ∃ t, ofDocument exportedDocument = .ok t ∧
    (∀ n ∈ exportedDocument.nodes, n.span.Fits) ∧
    load (compact t.toDocument.toJson) = .ok t := by
  have hok : ofDocument exportedDocument = .ok ⟨exportedDocument, [[1], []]⟩ := rfl
  have hspans : ∀ n ∈ exportedDocument.nodes, n.span.Fits := by decide
  exact ⟨_, hok, hspans, load_compact_toJson hok hspans⟩

end Tree
end TreeLint
