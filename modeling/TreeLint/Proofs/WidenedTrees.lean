/-
# Trees of texts with lines put in

A text is resolved object by object and routine by routine, and at each step the
text with lines put in gives the same symbols, and the same nodes with their spans
moved, as long as the names that are declared stand on one line and nothing is read
off the attribute lines that a routine is parted from (`Source.KeptAt`).

Key definitions: `Symbol.OnOneLine`, `Source.ObjectSite.map`, `Source.KeptAt`.
Key theorems: `Source.resolveRoutine_of_widens`,
`Source.globalDeclarations_of_widens`, `Source.resolveObject_of_widens`,
`Source.resolveObjects_of_widens`.
-/
import TreeLint.Proofs.Bodies
import TreeLint.Proofs.GuardedResolve
import TreeLint.Proofs.WidenedOutlines
import TreeLint.Proofs.WidenedRoutines

namespace TreeLint

/-- The name of the symbol and the name in its type stand on one line. -/
def Symbol.OnOneLine (x : Symbol) : Prop :=
  '\n' ∉ x.name.toList ∧ ∀ type, x.declaredType = some type → type.OnOneLine

namespace Source

variable {push : Nat → Nat} {move : Span → Span} {t t' : Text} {S : Cells}

theorem onOneLine_of_declare {kind : SymbolKind} {implicit : Bool} {first within : SymbolId}
    {ds : List (String × TypeInfo)}
    (h : ∀ v ∈ declare kind implicit first ds, (v.toSymbol within).OnOneLine) :
    ∀ d ∈ ds, '\n' ∉ d.1.toList ∧ d.2.OnOneLine := by
  intro d hd
  rw [← List.zipIdx_map_fst first ds] at hd
  obtain ⟨⟨d', i⟩, hmem, rfl⟩ := List.mem_map.mp hd
  obtain ⟨hname, htype⟩ := h _ (List.mem_map_of_mem hmem)
  exact ⟨hname, htype _ rfl⟩

/-! ### Routines -/

section Routines

variable (h : t.Widens push move t') (ht : t.Copies S) {members : Extent} {r : Routine}
include h ht

theorem routineVariables_of_widens (hr : r.Placed S t.bare members) {first within : SymbolId}
    (hline : ∀ v ∈ routineVariables t r first, (v.toSymbol within).OnOneLine) :
    routineVariables t' (r.map push) first = routineVariables t r first := by
  have hparameters : t'.declarations (r.map push).parameters true = t.declarations r.parameters true :=
    h.declarations_eq ht hr.parameters true
      (onOneLine_of_declare fun v hv => hline v (List.mem_append_left _ hv))
  have hlocals : localDeclarations t' (r.map push) = localDeclarations t r := by
    have hlines := onOneLine_of_declare fun v hv => hline v (List.mem_append_right _ hv)
    unfold localDeclarations at hlines ⊢
    rw [show (r.map push).locals = r.locals.map (Extent.map push) from rfl]
    cases hcase : r.locals with
    | none => rfl
    | some extent =>
      rw [hcase] at hlines
      exact h.declarations_eq ht (hr.locals extent hcase) false hlines
  rw [routineVariables, routineVariables, hparameters, hlocals]

/-- The outline of the block of a routine, if it has one. -/
def blockOutline (t : Text) (scope : Scope) (first : SymbolId) : Option Extent → Outline
  | some body =>
    .single (plainEntry .block (t.span body) first) (outlineCalls t scope (t.calls body) body)
  | none => .empty

/-- **A routine gives the same symbols and nodes.** -/
theorem resolveRoutine_of_widens (hr : r.Placed S t.bare members) {object first : SymbolId}
    {globals : List Variable} {procedures : List String}
    (hglobals : ∀ v ∈ globals, '\n' ∉ v.name.toList) (hprocedures : ∀ p ∈ procedures, '\n' ∉ p.toList)
    (hline : ∀ x ∈ (resolveRoutine t object first globals procedures r).1, x.OnOneLine) :
    (resolveRoutine t' object first globals procedures (r.map push)).1 =
        (resolveRoutine t object first globals procedures r).1 ∧
      (resolveRoutine t object first globals procedures r).2.Spreads move
        (resolveRoutine t' object first globals procedures (r.map push)).2 := by
  rw [fst_resolveRoutine] at hline
  have hvariables : ∀ v ∈ routineVariables t r first, (v.toSymbol first).OnOneLine := fun v hv =>
    hline _ (List.mem_cons_of_mem _ (List.mem_map_of_mem hv))
  have hsame := routineVariables_of_widens h ht hr hvariables
  have hname : t'.name (r.map push).name = t.name r.name := h.name_eq (hline _ List.mem_cons_self).1
  constructor
  · rw [fst_resolveRoutine, fst_resolveRoutine, hsame, routineSymbol, routineSymbol, hname]
    rfl
  · have hscope : Scope.OnOneLine ⟨first, routineVariables t r first, globals, procedures⟩ := by
      refine ⟨fun v hv => ?_, hprocedures⟩
      rcases List.mem_append.mp hv with hv | hv
      · exact (hvariables v hv).1
      · exact hglobals v hv
    have hnode : ∀ (t : Text) (r : Routine),
        (resolveRoutine t object first globals procedures r).2 =
          .single { plainEntry r.kind.nodeKind (t.span ⟨r.header, r.extent.stop⟩) first with
              symbol := some first }
            (blockOutline t ⟨first, routineVariables t r first, globals, procedures⟩ first r.body) :=
      fun _ _ => rfl
    rw [hnode, hnode, hsame]
    refine .single (spreads_of_span ?_ rfl) ?_
    · show ({ plainEntry r.kind.nodeKind (t'.span (Extent.map push ⟨r.header, r.extent.stop⟩)) first with
          symbol := some first } : Entry) = _
      rw [h.span]
      rfl
    · rw [show (r.map push).body = r.body.map (Extent.map push) from rfl]
      cases hbody : r.body with
      | none => exact .empty
      | some body =>
        obtain ⟨hcuts, -⟩ := hr.body body hbody
        exact .single (spreads_plainEntry h .block body first)
          (outlineCalls_of_widens h hscope (h.calls ht hcuts) body)

theorem resolveRoutines_of_widens {rs : List Routine} (hrs : ∀ r ∈ rs, r.Placed S t.bare members)
    {object first : SymbolId} {globals : List Variable} {procedures : List String}
    (hglobals : ∀ v ∈ globals, '\n' ∉ v.name.toList) (hprocedures : ∀ p ∈ procedures, '\n' ∉ p.toList)
    (hline : ∀ x ∈ (resolveRoutines t object globals procedures first rs).1, x.OnOneLine) :
    (resolveRoutines t' object globals procedures first (rs.map (Routine.map push))).1 =
        (resolveRoutines t object globals procedures first rs).1 ∧
      (resolveRoutines t object globals procedures first rs).2.Spreads move
        (resolveRoutines t' object globals procedures first (rs.map (Routine.map push))).2 := by
  induction rs generalizing first with
  | nil => exact ⟨rfl, .empty⟩
  | cons r rs ih =>
    rw [resolveRoutines] at hline
    obtain ⟨hsymbols, hnode⟩ := resolveRoutine_of_widens h ht (hrs r List.mem_cons_self) hglobals
      hprocedures fun x hx => hline x (List.mem_append_left _ hx)
    have hlater : ∀ x ∈ (resolveRoutines t object globals procedures
        (first + (resolveRoutine t object first globals procedures r).1.length) rs).1, x.OnOneLine :=
      fun x hx => hline x (List.mem_append_right _ hx)
    obtain ⟨hrest, hnodes⟩ := ih (fun r' hr' => hrs r' (List.mem_cons_of_mem r hr')) hlater
    rw [List.map_cons, resolveRoutines, resolveRoutines]
    simp only
    rw [hsymbols, hrest]
    exact ⟨rfl, hnode.append hnodes⟩

end Routines

/-! ### Objects -/

/-- The object with its parts at other places. -/
def ObjectSite.map (f : Nat → Nat) (o : ObjectSite) : ObjectSite where
  kind := o.kind
  start := f o.start
  name := o.name.map f
  base := o.base.map (Extent.map f)
  opening := f o.opening
  closing := f o.closing

/-- The symbol of an object. -/
def objectSymbol (t : Text) (o : ObjectSite) : Symbol where
  kind := o.kind
  name := t.name o.name
  obsolete := ((t.property? obsoleteState o.members (t.depth o.opening + 1)).bind fun r =>
    ObsoleteState.ofProperty? (t.masked.slice r).text).getD .current

theorem resolveObject_of_routines {o : ObjectSite} {rs : List Routine}
    (hrs : t.routines o.members = .ok rs) (first : SymbolId) :
    let globals := objectVariables t o rs first
    let routines := resolveRoutines t first globals (procedureNames t rs)
      (first + 1 + globals.length) rs
    resolveObject t first o =
      .ok (objectSymbol t o :: globals.map (Variable.toSymbol first) ++ routines.1,
        .single { plainEntry .objectDeclaration (t.span ⟨o.start, o.closing + 1⟩) first with
          symbol := some first } routines.2) := by
  unfold resolveObject
  rw [hrs]
  rfl

theorem min?_map (hmono : Monotone push) (l : List Nat) : (l.map push).min? = l.min?.map push := by
  induction l with
  | nil => rfl
  | cons a l ih =>
    rw [List.map_cons, List.min?_cons, List.min?_cons, ih]
    cases l.min? with
    | none => rfl
    | some b => simp [hmono.map_min]

/-- The braces of an object take one place each. -/
structure ObjectSite.Braced (push : Nat → Nat) (o : ObjectSite) : Prop where
  opening : push (o.opening + 1) = push o.opening + 1
  closing : push (o.closing + 1) = push o.closing + 1

theorem ObjectSite.Braced.members {o : ObjectSite} (h : o.Braced push) :
    (o.map push).members = o.members.map push := by
  rw [ObjectSite.members, ObjectSite.members, Extent.map, h.opening]
  rfl

/-- **The object of a header** stands at the pushed places. -/
theorem objectSite_of_widens (h : t.Widens push move t') {header : Found ObjectHeader}
    {o : ObjectSite} (ho : objectSite t header = .ok o) :
    objectSite t' (header.map push (ObjectHeader.map push)) = .ok (o.map push) ∧ o.Braced push := by
  obtain ⟨opening, closing, kind, hopening, hclosing, hkind, rfl⟩ := objectSite_eq_ok_iff.mp ho
  obtain ⟨-, x, hx, hxchar⟩ := (Cells.hasAt_findChar? hopening).of_drop
  obtain ⟨-, y, hy, hychar⟩ := (hasAt_braceEnd hclosing).of_drop
  have hne := Cells.ne_feed hxchar rfl
  refine ⟨objectSite_eq_ok_iff.mpr ⟨push opening, push closing, kind, ?_, ?_, ?_, rfl⟩,
    h.push_succ hx hne, h.push_succ hy (Cells.ne_feed hychar rfl)⟩
  · rw [show (header.map push (ObjectHeader.map push)).extent.stop = push header.extent.stop from rfl,
      h.findChar? rfl, hopening]
    rfl
  · rw [h.closingBrace? hx hne, hclosing]
    rfl
  · rw [← hkind]
    exact SymbolKind.ofObjectKeyword?_of_spreads
      (h.slice_bare header.value.keyword).spreads.toList_text

section Objects

variable (h : t.Widens push move t') (ht : Guarded.Lined S t) {o : ObjectSite} (ho : o.Placed S)
  (hbraced : o.Braced push)
include h ht ho hbraced

omit hbraced in
theorem depth_opening_of_widens : t'.depth (o.map push).opening = t.depth o.opening := by
  have hlength := (ht.bare.cuts ho.cuts).stop_le
  have hlt := ho.lt
  exact h.depth (by simp only at hlength; omega)

theorem property_of_widens {p : Pattern Extent}
    (hp : p.Widens push t.bare o.members.stop (Extent.map push)) :
    t'.property? p (o.map push).members (t'.depth (o.map push).opening + 1) =
      (t.property? p o.members (t.depth o.opening + 1)).map (Extent.map push) := by
  rw [hbraced.members, depth_opening_of_widens h ht ho]
  exact h.property? ht.toCopies ho.members hp _

theorem objectSymbol_of_widens (hline : '\n' ∉ (t.name o.name).toList) :
    objectSymbol t' (o.map push) = objectSymbol t o := by
  have hname : t'.name (o.map push).name = t.name o.name := h.name_eq hline
  have hproperty := property_of_widens h ht ho hbraced
    (widens_obsoleteState ht.bare.whole (ht.bare.cuts ho.members).stop)
  have hstate : ∀ value : Option Extent, ((value.map (Extent.map push)).bind fun r =>
      ObsoleteState.ofProperty? (t'.masked.slice r).text) =
      value.bind fun r => ObsoleteState.ofProperty? (t.masked.slice r).text := by
    intro value
    cases value with
    | none => rw [Option.map_none, Option.bind_none, Option.bind_none]
    | some r =>
      rw [Option.map_some, Option.bind_some, Option.bind_some]
      exact ObsoleteState.ofProperty?_of_spreads (h.slice_masked r).spreads.toList_text
  rw [objectSymbol, objectSymbol, hname, hproperty, hstate]
  rfl

theorem recordTable?_of_widens :
    Option.Rel Name.SpreadsTo (recordTable? t o) (recordTable? t' (o.map push)) := by
  have hname : ∀ r : Option Extent,
      Option.Rel Name.SpreadsTo (r.map t.name) ((r.map (Extent.map push)).map t'.name) := by
    intro r
    cases r with
    | none => exact .none
    | some r => exact .some (h.name r)
  have hproperty := property_of_widens h ht ho hbraced
    (widens_sourceTable ht.bare.whole (ht.bare.cuts ho.members).stop)
  unfold recordTable?
  rw [hproperty, show (o.map push).kind = o.kind from rfl]
  generalize t.property? sourceTable o.members (t.depth o.opening + 1) = value
  split
  · exact .some (h.name o.name)
  · exact hname o.base
  · exact hname value
  · exact .none

/-- **The declarations of an object's variables** are the same. -/
theorem globalDeclarations_of_widens {rs : List Routine} (hspaced : Guarded.Spaced S t o.members rs)
    (hline : ∀ d ∈ globalDeclarations t o rs, '\n' ∉ d.1.toList ∧ d.2.OnOneLine) :
    globalDeclarations t' (o.map push) (rs.map (Routine.map push)) = globalDeclarations t o rs := by
  have hcuts := ht.bare.cuts ho.members
  have hin := Cursor.in_ofSlice hcuts.le hcuts.start
  have hvar : (keyword "var").Widens push t.bare o.members.stop id :=
    widens_keyword ht.bare.whole hcuts.stop (by decide) (by decide)
  have hfound : ∀ f ∈ (keyword "var").all (Cursor.ofSlice t.bare o.members),
      (keyword "var").FoundFrom t.bare o.members.start o.members.stop f :=
    fun f hf => Pattern.foundFrom_of_mem_all hcuts.stop_le hin hf
  -- the same sections are read
  have hglobal : ∀ f ∈ (keyword "var").all (Cursor.ofSlice t.bare o.members),
      (t'.depth (push f.extent.start) == t'.depth (o.map push).opening + 1 &&
        !(rs.map (Routine.map push)).any fun r => r.extent.has (push f.extent.start)) =
      (t.depth f.extent.start == t.depth o.opening + 1 &&
        !rs.any fun r => r.extent.has f.extent.start) := by
    intro f hf
    obtain ⟨-, hstop, hsnug⟩ := foundFrom_keyword ht.bare.whole hcuts.stop (by decide) (hfound f hf)
    have hhas : ∀ r : Routine, (r.map push).extent.has (push f.extent.start) =
        r.extent.has f.extent.start := fun r => by
      simp [Extent.has, Routine.map, Extent.map, h.mono.le_iff_le, h.mono.lt_iff_lt]
    have hlength := hcuts.stop_le
    have hlt := hsnug.lt
    rw [depth_opening_of_widens h ht ho, h.depth (by omega), List.any_map]
    simp only [Function.comp_def, hhas]
  -- and each ends at the pushed place
  have hstop : ∀ f : Found Unit, ((((rs.map (Routine.map push)).map (·.extent.start)).filter
        (push f.extent.start < ·)).min?).getD (push o.closing) =
      push ((((rs.map (·.extent.start)).filter (f.extent.start < ·)).min?).getD o.closing) := by
    intro f
    have hstarts : (rs.map (Routine.map push)).map (·.extent.start) =
        (rs.map (·.extent.start)).map push := by
      rw [List.map_map, List.map_map]
      rfl
    rw [hstarts, List.filter_map, min?_map h.mono.monotone]
    simp only [Function.comp_def, h.mono.lt_iff_lt, Option.getD_map]
  unfold globalDeclarations at hline ⊢
  simp only at hline ⊢
  rw [hbraced.members, hvar.all h.mono hcuts.stop_le hin (h.ofSlice o.members), List.filter_map,
    List.flatMap_map]
  refine (congrArg (List.flatMap _) (List.filter_congr hglobal)).trans
    (List.flatMap_congr fun f hf => ?_)
  obtain ⟨hmem, houtside⟩ := List.mem_filter.mp hf
  have hout : ∀ r ∈ rs, r.extent.has f.extent.start = false := by
    simpa using (Bool.and_eq_true_iff.mp houtside).2
  refine (congrArg (fun stop => t'.declarations ⟨push f.extent.stop, stop⟩ false) (hstop f)).trans ?_
  exact h.declarations_eq ht.toCopies (hspaced.cuts_section ht ho.members (hfound f hmem) hout) false
    fun d hd => hline d (List.mem_flatMap.mpr ⟨f, hf, hd⟩)

theorem objectVariables_of_widens {rs : List Routine} (hspaced : Guarded.Spaced S t o.members rs)
    {first within : SymbolId}
    (hline : ∀ v ∈ objectVariables t o rs first, (v.toSymbol within).OnOneLine) :
    objectVariables t' (o.map push) (rs.map (Routine.map push)) first =
      objectVariables t o rs first := by
  have hrecords := onOneLine_of_declare fun v hv => hline v (List.mem_append_left _ hv)
  have hdeclared := onOneLine_of_declare fun v hv => hline v (List.mem_append_right _ hv)
  have hsame : implicitRecords (recordTable? t' (o.map push)) =
      implicitRecords (recordTable? t o) := by
    have htable := recordTable?_of_widens h ht ho hbraced
    generalize recordTable? t o = a at htable hrecords ⊢
    generalize recordTable? t' (o.map push) = b at htable ⊢
    cases htable with
    | none => rfl
    | some htable => rw [htable.eq ((hrecords _ List.mem_cons_self).2 _ rfl)]
  rw [objectVariables, objectVariables, hsame, globalDeclarations_of_widens h ht ho hbraced hspaced hdeclared]

end Objects

theorem mem_resolveRoutines {object first : SymbolId} {globals : List Variable}
    {procedures : List String} {rs : List Routine} {r : Routine} (hr : r ∈ rs) :
    routineSymbol t object r ∈ (resolveRoutines t object globals procedures first rs).1 := by
  induction rs generalizing first with
  | nil => cases hr
  | cons r' rs ih =>
    rw [resolveRoutines]
    rcases List.mem_cons.mp hr with rfl | hr
    · exact List.mem_append_left _ List.mem_cons_self
    · exact List.mem_append_right _ (ih hr)

/-! ### Routines cut at a place -/

/-- What is read off the routines of an object is read without the attribute lines above the place
too: whether they are obsolete, and which variables are declared outside of them. -/
structure KeptAt (t : Text) (place : Nat) (o : ObjectSite) (rs : List Routine) : Prop where
  obsolete : ∀ r ∈ rs, (r.cutAt t place).obsolete = r.obsolete
  globals : globalDeclarations t o (rs.map (Routine.cutAt t place)) = globalDeclarations t o rs

instance (t : Text) (place : Nat) (o : ObjectSite) (rs : List Routine) :
    Decidable (KeptAt t place o rs) :=
  decidable_of_iff ((∀ r ∈ rs, (r.cutAt t place).obsolete = r.obsolete) ∧
    globalDeclarations t o (rs.map (Routine.cutAt t place)) = globalDeclarations t o rs)
    ⟨fun h => ⟨h.1, h.2⟩, fun h => ⟨h.obsolete, h.globals⟩⟩

section Cut

variable {place : Nat} {o : ObjectSite} {rs : List Routine}

theorem Routine.Placed.cutAt {members : Extent} {r : Routine} (h : r.Placed S t.bare members) :
    (r.cutAt t place).Placed S t.bare members := by
  rw [r.cutAt_eq t place]
  exact ⟨h.start_le, h.lt, h.stop_le, h.cuts, h.name, h.parameters, h.locals, h.body, h.begins⟩

/-- Cut at the start of a line, routines start with lines, among the members or behind others. -/
theorem Guarded.Spaced.cutAt (ht : Guarded.Lined S t) {members : Extent}
    (h : Guarded.Spaced S t members rs) (hplace : t.bare.StartsLine place) :
    Guarded.Spaced S t members (rs.map (Routine.cutAt t place)) := by
  refine ⟨fun r hr => ?_, fun r hr => ?_⟩
  · obtain ⟨r, hmem, rfl⟩ := List.mem_map.mp hr
    exact (h.placed r hmem).cutAt
  · obtain ⟨r, hmem, rfl⟩ := List.mem_map.mp hr
    obtain ⟨floor, hanchored, hfloor⟩ := h.anchored r hmem
    refine ⟨floor, ?_, hfloor.imp_right ?_⟩
    · by_cases hparted : r.Parted place
      · have hheader := (h.placed r hmem).cuts.start
        obtain ⟨-, hle, hstart⟩ := Guarded.attributes_eq ht hheader
          (Guarded.isBoundary_of_startsLine ht hplace (by have := hparted.1; omega)).2
        rw [Routine.cutAt_of_parted hparted]
        refine ⟨hle, Or.inr ?_⟩
        rcases hstart with heq | hstarts
        · simp only [heq]
          exact hplace
        · exact hstarts
      · rw [Routine.cutAt_of_not_parted hparted]
        exact hanchored
    · rintro ⟨r', hr', rfl⟩
      exact ⟨r'.cutAt t place, List.mem_map_of_mem hr', by rw [r'.cutAt_eq t place]⟩

/-- A routine gives its symbol and its node from its header on. -/
theorem resolveRoutines_cutAt (h : ∀ r ∈ rs, (r.cutAt t place).obsolete = r.obsolete)
    (object : SymbolId) (globals : List Variable) (procedures : List String) (first : SymbolId) :
    resolveRoutines t object globals procedures first (rs.map (Routine.cutAt t place)) =
      resolveRoutines t object globals procedures first rs := by
  induction rs generalizing first with
  | nil => rfl
  | cons r rs ih =>
    have hone : ∀ first, resolveRoutine t object first globals procedures (r.cutAt t place) =
        resolveRoutine t object first globals procedures r := fun first => by
      rw [r.cutAt_eq t place, h r List.mem_cons_self]
      rfl
    rw [List.map_cons, resolveRoutines, resolveRoutines, hone]
    simp only [ih fun r' hr' => h r' (List.mem_cons_of_mem r hr')]

theorem procedureNames_cutAt (t : Text) (place : Nat) (rs : List Routine) :
    procedureNames t (rs.map (Routine.cutAt t place)) = procedureNames t rs := by
  have hkind : ∀ r : Routine, (r.cutAt t place).kind = r.kind := fun r => by rw [r.cutAt_eq t place]
  have hname : ∀ r : Routine, (r.cutAt t place).name = r.name := fun r => by rw [r.cutAt_eq t place]
  simp only [procedureNames, List.filter_map, List.map_map, Function.comp_def, hkind, hname]

theorem KeptAt.objectVariables_eq (h : KeptAt t place o rs) (first : SymbolId) :
    objectVariables t o (rs.map (Routine.cutAt t place)) first = objectVariables t o rs first := by
  rw [objectVariables, objectVariables, h.globals]

end Cut

/-- **An object gives the same symbols and nodes.** -/
theorem resolveObject_of_widens (h : t.Widens push move t') (ht : Guarded.Lined S t)
    {o : ObjectSite} (ho : o.Placed S) (hbraced : o.Braced push) {place : Nat}
    (hplace : t.bare.StartsLine place) (hattributes : t.ReadsAttributes push place t')
    {rs : List Routine} (hrs : t.routines o.members = .ok rs) (hkept : KeptAt t place o rs)
    {first : SymbolId} {symbols : List Symbol} {outline : Outline}
    (hobject : resolveObject t first o = .ok (symbols, outline))
    (hline : ∀ x ∈ symbols, x.OnOneLine) :
    ∃ outline', resolveObject t' first (o.map push) = .ok (symbols, outline') ∧
      outline.Spreads move outline' := by
  have hrs' : t'.routines (o.map push).members =
      .ok ((rs.map (Routine.cutAt t place)).map (Routine.map push)) := by
    rw [hbraced.members]
    exact Text.Widens.routines h ht.toCopies hattributes ho.members hrs
  have hspaced := Guarded.Spaced.cutAt ht
    ⟨(placed_routines ht.toCopies ho.members hrs).1, (Guarded.routines_eq ht ho.members).2 rs hrs⟩ hplace
  rw [resolveObject_of_routines hrs] at hobject
  -- the routines may be taken to be cut
  simp only [← hkept.objectVariables_eq, ← procedureNames_cutAt t place rs,
    ← resolveRoutines_cutAt hkept.obsolete] at hobject
  generalize rs.map (Routine.cutAt t place) = rs at hrs' hspaced hobject
  cases hobject
  have hobject := hline _ List.mem_cons_self
  have hvariables : ∀ v ∈ objectVariables t o rs first, (v.toSymbol first).OnOneLine := fun v hv =>
    hline _ (List.mem_append_left _ (List.mem_cons_of_mem _ (List.mem_map_of_mem hv)))
  have hroutines := fun x hx => hline x (List.mem_append_right _ hx)
  have hnames : ∀ r ∈ rs, '\n' ∉ (t.name r.name).toList := fun r hr =>
    (hroutines _ (mem_resolveRoutines hr)).1
  have hglobals := objectVariables_of_widens h ht ho hbraced hspaced hvariables
  have hprocedures : procedureNames t' (rs.map (Routine.map push)) = procedureNames t rs := by
    rw [procedureNames, procedureNames, List.filter_map, List.map_map]
    exact List.map_congr_left fun r hr => h.name_eq (hnames r (List.mem_filter.mp hr).1)
  have hprocedures' : ∀ p ∈ procedureNames t rs, '\n' ∉ p.toList := by
    intro p hp
    obtain ⟨r, hr, rfl⟩ := List.mem_map.mp hp
    exact hnames r (List.mem_filter.mp hr).1
  obtain ⟨hsymbols, hnodes⟩ := resolveRoutines_of_widens h ht.toCopies hspaced.placed
    (fun v hv => (hvariables v hv).1) hprocedures' hroutines
  rw [resolveObject_of_routines hrs', objectSymbol_of_widens h ht ho hbraced hobject.1, hglobals,
    hprocedures, hsymbols]
  refine ⟨_, rfl, .single (spreads_of_span ?_ rfl) hnodes⟩
  show ({ plainEntry .objectDeclaration (t'.span ⟨push o.start, push o.closing + 1⟩) first with
    symbol := some first } : Entry) = _
  rw [← hbraced.closing, show (⟨push o.start, push (o.closing + 1)⟩ : Extent) =
    Extent.map push ⟨o.start, o.closing + 1⟩ from rfl, h.span]
  rfl

theorem headers_of_widens (h : t.Widens push move t') (ht : t.Copies S) :
    objectHeader.all ⟨none, 0, t'.bare⟩ =
      (objectHeader.all ⟨none, 0, t.bare⟩).map (Found.map push (ObjectHeader.map push)) := by
  have hwhole := ht.bare.whole
  have hwidens : objectHeader.Widens push t.bare t.bare.length (ObjectHeader.map push) :=
    widens_objectHeader hwhole (Cells.isBoundary_length t.bare)
  have hlead : ∀ x ∈ t'.bare.take (push 0), x.isWord = false ∧ x.char ≠ '"' := fun x hx =>
    ⟨Cell.not_isWord_of_isBlank (h.lead x hx), Cells.char_ne_of_blank h.lead rfl x hx⟩
  have hbefore : (Cells.lastOr none (t'.bare.take (push 0))).any Cell.isWord = false :=
    Cells.any_lastOr (fun _ => rfl) fun x hx => (hlead x hx).1
  have hgap := Pattern.allFrom_gap hwidens.onWords hlead none 0 (t'.bare.drop (push 0))
  rw [List.take_append_drop, List.length_take, Nat.min_eq_left h.push_le, Nat.zero_add] at hgap
  rw [Pattern.all, hgap]
  exact hwidens.allFrom h.mono le_rfl h.bare (in_start hwhole) hbefore rfl

theorem containing_resolveObjects {hs : List (Found ObjectHeader)} {resume first : Nat}
    {symbols : List Symbol} {outline : Outline}
    (h : resolveObjects t resume first hs = .ok (symbols, outline)) :
    ∀ x ∈ symbols, ∀ c : Nat, x.containing = some c → first ≤ c := by
  refine resolveObjects_rec (P := fun _ => True)
    (motive := fun _ (start : Nat) symbols _ =>
      ∀ x ∈ symbols, ∀ c : Nat, x.containing = some c → start ≤ c)
    (fun _ _ => List.forall_mem_nil _) ?_ (fun _ _ => trivial) h
  intro _ start _ _ _ _ _ _ _ _ _ hobject hrest x hx c hc
  rcases List.mem_append.mp hx with hx | hx
  · exact containing_resolveObject hobject hx hc
  · exact (Nat.le_add_right _ _).trans (hrest x hx c hc)

/-- A header is passed over exactly if the pushed one is. -/
theorem skipped_iff_of_widens (h : t.Widens push move t') {resume resume' : Nat}
    (hresume : ∀ i, push i < resume' ↔ i < resume) {header : Found ObjectHeader}
    (hfound : objectHeader.FoundFrom t.bare 0 t.length header) :
    ((header.map push (ObjectHeader.map push)).extent.start < resume' ∨
        t'.depth (header.map push (ObjectHeader.map push)).extent.start ≠ 0) ↔
      (header.extent.start < resume ∨ t.depth header.extent.start ≠ 0) := by
  obtain ⟨c, d, -, -, hlt, -, hextent⟩ := hfound
  have hle : header.extent.start ≤ t.bare.length := by
    rw [hextent]
    exact hlt.le
  rw [show (header.map push (ObjectHeader.map push)).extent.start = push header.extent.start from rfl,
    hresume, h.depth hle]

/-- **The objects of a text give the same symbols and nodes**, if nothing is read off the attribute
lines that routines in them are parted from and their names stand on one line. -/
theorem resolveObjects_of_widens (h : t.Widens push move t') (ht : Guarded.Lined S t) {place : Nat}
    (hplace : t.bare.StartsLine place) (hattributes : t.ReadsAttributes push place t')
    {all : List Symbol} (hkept : ∀ home : Home t all, KeptAt t place home.site home.routines)
    {hs : List (Found ObjectHeader)} (hheaders : ∀ x ∈ hs, x ∈ objectHeader.all ⟨none, 0, t.bare⟩)
    {resume resume' first : Nat} (hresume : ∀ i, push i < resume' ↔ i < resume)
    {symbols : List Symbol} {outline : Outline}
    (hobjects : resolveObjects t resume first hs = .ok (symbols, outline))
    (hpart : ClosedPart all first symbols) (hline : ∀ x ∈ symbols, x.OnOneLine) :
    ∃ outline', resolveObjects t' resume' first (hs.map (Found.map push (ObjectHeader.map push))) =
        .ok (symbols, outline') ∧ outline.Spreads move outline' := by
  induction hs generalizing resume resume' first symbols outline with
  | nil =>
    cases hobjects
    exact ⟨.empty, rfl, .empty⟩
  | cons header hs ih =>
    have hlater : ∀ x ∈ hs, x ∈ objectHeader.all ⟨none, 0, t.bare⟩ :=
      fun x hx => hheaders x (List.mem_cons_of_mem _ hx)
    have hfound := foundFrom_of_mem_headers ht.toCopies (hheaders header List.mem_cons_self)
    have hskip := skipped_iff_of_widens h hresume hfound
    rcases resolveObjects_cons_ok hobjects with ⟨hskipped, hobjects⟩ |
      ⟨hread, site, one, others, outline₁, outline₂, hsite, hobject, hrest, rfl, rfl⟩
    · obtain ⟨outline', hobjects', hspreads⟩ := ih hlater hresume hobjects hpart hline
      refine ⟨outline', ?_, hspreads⟩
      rw [List.map_cons, resolveObjects, if_pos (hskip.mpr hskipped), hobjects']
    · obtain ⟨hsite', hbraced⟩ := objectSite_of_widens h hsite
      obtain ⟨hplaced, -⟩ := placed_objectSite ht.toCopies hfound hsite
      have hone := hpart.left fun x hx c hc => Or.inr (containing_resolveObjects hrest x hx c hc)
      have hothers := hpart.right fun x hx c hc =>
        (ordered_resolveObject hobject).containing_lt hx hc
      -- the object is the home of its own symbol, which says what its routines keep
      obtain ⟨home, -, hhome, -, -⟩ := exists_home_of_resolveObject
        ⟨header, hheaders header List.mem_cons_self, hsite⟩ hobject hone
      have hkept' := hkept home
      rw [hhome] at hkept'
      obtain ⟨outline₁', hobject', hspreads⟩ := resolveObject_of_widens h ht hplaced hbraced
        hplace hattributes (hhome ▸ home.routines_eq) hkept' hobject
        fun x hx => hline x (List.mem_append_left _ hx)
      have hresume' : ∀ i, push i < push site.closing + 1 ↔ i < site.closing + 1 := fun i => by
        rw [← hbraced.closing, h.mono.lt_iff_lt]
      obtain ⟨outline₂', hrest', hspreads'⟩ := ih hlater hresume' hrest hothers
        fun x hx => hline x (List.mem_append_right _ hx)
      exact ⟨outline₁'.append outline₂',
        resolveObjects_of_object (mt hskip.mp hread) hsite' hobject' hrest',
        hspreads.append hspreads'⟩

end Source
end TreeLint
