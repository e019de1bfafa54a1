/-
# The front end with every access checked

Objects and documents, as guarded runs, put together from the guarded searches.
The variables of an object are read from behind each `var` to the start of the
next routine. That start is an offset found in another way than the `var`: it is
where a line starts, where the members start or where another routine ends, and
in none of these cases does it cut the word.

Key definitions: `Guarded.resolveRoutine`, `Guarded.globalDeclarations`,
`Guarded.resolveObject`, `Guarded.resolve`.
Key theorems: `Guarded.stop_le_of_lt_start`, `Guarded.resolveObject_eq`,
`Guarded.resolve_eq`.
-/
import Mathlib.Data.List.MinMax
import TreeLint.Proofs.GuardedRoutines

namespace TreeLint
namespace Guarded

open Source

variable {α β : Type} {S : Cells} {t : Text} {r : Extent}

/-! ### Routines and their calls -/

/-- The declarations of a local section, if there is one. -/
def localDeclarations (t : Text) : Option Extent → Guarded (List (String × TypeInfo))
  | some extent => declarations t extent false
  | none => .ok []

/-- The block of a routine with its calls, if there is one. -/
def blockNode (t : Text) (scope : Scope) : Option Extent → Guarded Outline
  | some body => do
    let place ← span t body
    let calls ← calls t body
    let below ← emitCalls t scope calls (body.stop - body.start + 1) body
    return .single (plainEntry .block place scope.routine) below
  | none => return .empty

/-- The symbols of a routine, the first of them at position `first`, and its node. -/
def resolveRoutine (t : Text) (object first : SymbolId) (globals : List Variable)
    (procedures : List String) (r : Routine) : Guarded (List Symbol × Outline) := do
  let symbol : Symbol :=
    { kind := r.kind.symbolKind
      name := ← name t r.name
      obsolete := if r.obsolete then .pending else .current
      containing := some object }
  let parameters := declare .parameter false (first + 1) (← declarations t r.parameters true)
  let locals := declare .localVariable false (first + 1 + parameters.length)
    (← localDeclarations t r.locals)
  let place ← span t ⟨r.header, r.extent.stop⟩
  let block ← blockNode t ⟨first, parameters ++ locals, globals, procedures⟩ r.body
  let entry : Entry := { plainEntry r.kind.nodeKind place first with symbol := some first }
  return (symbol :: (parameters ++ locals).map (Variable.toSymbol first), .single entry block)

/-- The symbols and nodes of the routines of an object. -/
def resolveRoutines (t : Text) (object : SymbolId) (globals : List Variable)
    (procedures : List String) : SymbolId → List Routine → Guarded (List Symbol × Outline)
  | _, [] => return ([], .empty)
  | first, r :: rs => do
    let one ← resolveRoutine t object first globals procedures r
    let rest ← resolveRoutines t object globals procedures (first + one.1.length) rs
    return (one.1 ++ rest.1, one.2.append rest.2)

theorem resolveRoutine_eq (ht : Prepared S t) {members : Extent} {r : Routine}
    (hr : r.Placed S t.bare members) (object first : SymbolId) (globals : List Variable)
    (procedures : List String) :
    resolveRoutine t object first globals procedures r =
      .ok (Source.resolveRoutine t object first globals procedures r) := by
  have hlocals : localDeclarations t r.locals =
      .ok (match r.locals with
        | some extent => t.declarations extent false
        | none => []) := by
    cases hcase : r.locals with
    | none => rfl
    | some extent => exact declarations_eq ht.toCopies (hr.locals extent hcase) false
  have hblock : ∀ scope : Scope, blockNode t scope r.body =
      .ok (match r.body with
        | some body => .single (plainEntry .block (t.span body) scope.routine)
            (outlineCalls t scope (t.calls body) body)
        | none => .empty) := by
    intro scope
    cases hcase : r.body with
    | none => rfl
    | some body =>
      obtain ⟨hbody, -⟩ := hr.body body hcase
      have hemit : emitCalls t scope (t.calls body) (body.stop - body.start + 1) body =
          .ok (outlineCalls t scope (t.calls body) body) :=
        emitCalls_eq ht.toCopies (fun c hc => placed_of_mem_calls ht.toCopies hbody hc)
          (pairwise_start_calls ht.toCopies hbody) _ (by omega) (List.nil_append _).symm nofun
      rw [blockNode, span_eq, ok_bind, calls_eq ht hbody, ok_bind, hemit]
      rfl
  simp only [resolveRoutine, name_eq ht.toCopies hr.name.cuts,
    declarations_eq ht.toCopies hr.parameters, hlocals, hblock, span_eq, ok_bind]
  rfl

theorem resolveRoutines_eq (ht : Prepared S t) {members : Extent} {rs : List Routine}
    (hrs : ∀ r ∈ rs, r.Placed S t.bare members) (object first : SymbolId)
    (globals : List Variable) (procedures : List String) :
    resolveRoutines t object globals procedures first rs =
      .ok (Source.resolveRoutines t object globals procedures first rs) := by
  induction rs generalizing first with
  | nil => rfl
  | cons r rs ih =>
    rw [resolveRoutines, resolveRoutine_eq ht (hrs r List.mem_cons_self), ok_bind,
      ih fun r' hr' => hrs r' (List.mem_cons_of_mem r hr')]
    rfl

/-! ### The variables of an object -/

/-- The declarations behind a `var`, unless it stands deeper or in a routine. -/
def sectionDeclarations (t : Text) (inner closing : Nat) (rs : List Routine) (f : Found Unit) :
    Guarded (List (String × TypeInfo)) := do
  if (← entry t.depths f.extent.start) ≠ inner ∨ rs.any (·.extent.has f.extent.start) then return []
  else
    let later := (rs.map (·.extent.start)).filter (f.extent.start < ·)
    declarations t ⟨f.extent.stop, later.min?.getD closing⟩ false

/-- The declarations of an object's variables. -/
def globalDeclarations (t : Text) (members : Extent) (inner : Nat) (rs : List Routine) :
    Guarded (List (String × TypeInfo)) := do
  let part ← piece t.bare members
  let sections := (keyword "var").all ⟨none, members.start, part⟩
  return (← sections.mapM (sectionDeclarations t inner members.stop rs)).flatten

/-- What is known of where the routines of an object start. -/
structure Spaced (S : Cells) (t : Text) (members : Extent) (rs : List Routine) : Prop where
  placed : ∀ r ∈ rs, r.Placed S t.bare members
  anchored : ∀ r ∈ rs, ∃ floor, Anchored t floor r ∧
    (floor = members.start ∨ ∃ r' ∈ rs, r'.extent.stop = floor)

variable {members : Extent} {rs : List Routine}

theorem Spaced.isBoundary_start (h : Spaced S t members rs) (ht : Lined S t)
    (hmembers : S.Cuts members) {r : Routine} (hr : r ∈ rs) (hpos : 0 < r.extent.start) :
    S.isBoundary r.extent.start = true := by
  obtain ⟨floor, hanchored, hfloor⟩ := h.anchored r hr
  rcases hanchored.start with heq | hline
  · rw [heq]
    rcases hfloor with rfl | ⟨r', hr', rfl⟩
    · exact hmembers.start
    · exact (h.placed r' hr').cuts.stop
  · exact (isBoundary_of_startsLine ht hline hpos).2

/-- **No routine starts within a word** that starts among the members and in no routine. -/
theorem Spaced.stop_le_of_lt_start (h : Spaced S t members rs) {word : Extent}
    (hword : t.bare.Each word.start word.stop (Cell.isWord · = true))
    (hle : members.start ≤ word.start) (hout : ∀ r ∈ rs, r.extent.has word.start = false)
    {r : Routine} (hr : r ∈ rs) (hlt : word.start < r.extent.start) :
    word.stop ≤ r.extent.start := by
  -- a routine that starts where another one ends is led back to that one
  induction hn : r.extent.stop using Nat.strong_induction_on generalizing r with
  | _ n ih =>
    obtain ⟨floor, hanchored, hfloor⟩ := h.anchored r hr
    have hstart_le := hanchored.le
    have hheader := (h.placed r hr).lt
    rcases hanchored.start with heq | hline
    · rcases hfloor with rfl | ⟨r', hr', rfl⟩
      · omega
      · obtain ⟨_, hanchored', -⟩ := h.anchored r' hr'
        have hstart_le' := hanchored'.le
        have hheader' := (h.placed r' hr').lt
        have hlt' : word.start < r'.extent.start := by
          by_contra hnot
          have hhas : r'.extent.has word.start = true := has_iff.mpr ⟨by omega, by omega⟩
          rw [hout r' hr'] at hhas
          cases hhas
        have := ih r'.extent.stop (by omega) hr' hlt' rfl
        omega
    · rcases hline with hzero | ⟨-, x, hx, hxchar⟩
      · omega
      · by_contra hnot
        obtain ⟨y, hy, hyword⟩ := hword (r.extent.start - 1) (by omega) (by omega)
        obtain rfl := Option.some.inj (hx.symm.trans hy)
        rw [Cell.isWord, hxchar] at hyword
        exact absurd hyword (by decide)

/-- From behind a `var` outside all routines to the start of the next routine there is a section. -/
theorem Spaced.cuts_section (h : Spaced S t members rs) (ht : Lined S t) (hmembers : S.Cuts members)
    {f : Found Unit} (hf : (keyword "var").FoundFrom t.bare members.start members.stop f)
    (hout : ∀ r ∈ rs, r.extent.has f.extent.start = false) :
    S.Cuts ⟨f.extent.stop,
      (((rs.map (·.extent.start)).filter (f.extent.start < ·)).min?).getD members.stop⟩ := by
  have hbare := ht.bare.whole
  have hcuts := ht.bare.cuts hmembers
  obtain ⟨hle, hstop, hsnug⟩ := foundFrom_keyword hbare hcuts.stop (by decide) hf
  obtain ⟨hword, -⟩ := isWord_keyword hbare hcuts.stop (by decide) (by decide) hf
  have hsource := ht.bare.snug hsnug
  cases hmin : ((rs.map (·.extent.start)).filter (f.extent.start < ·)).min? with
  | none => exact ⟨hstop, hsource.stop, hmembers.stop⟩
  | some m =>
    obtain ⟨hm, hlater⟩ := List.mem_filter.mp (List.min?_mem hmin)
    obtain ⟨r, hr, rfl⟩ := List.mem_map.mp hm
    have hlater : f.extent.start < r.extent.start := by simpa using hlater
    exact ⟨h.stop_le_of_lt_start hword hle hout hr hlater, hsource.stop,
      h.isBoundary_start ht hmembers hr (by omega)⟩

theorem sectionDeclarations_eq (ht : Prepared S t) (hmembers : S.Cuts members)
    (hrs : Spaced S t members rs) (inner : Nat) {f : Found Unit}
    (hf : (keyword "var").FoundFrom t.bare members.start members.stop f) :
    sectionDeclarations t inner members.stop rs f =
      .ok (if t.depth f.extent.start == inner && !rs.any fun r => r.extent.has f.extent.start then
          t.declarations ⟨f.extent.stop,
            (((rs.map (·.extent.start)).filter (f.extent.start < ·)).min?).getD members.stop⟩ false
        else []) := by
  have hcuts := ht.bare.cuts hmembers
  obtain ⟨-, hstop, hsnug⟩ := foundFrom_keyword ht.bare.whole hcuts.stop (by decide) hf
  have hlt := hsnug.lt
  have hstop_le := hcuts.stop_le
  rw [sectionDeclarations, entry_eq (getElem?_depths ht (by omega))]
  simp only [ok_bind]
  by_cases hdepth : t.depth f.extent.start = inner
  · by_cases hin : (rs.any fun r => r.extent.has f.extent.start) = true
    · rw [if_pos (Or.inr hin), hin, Bool.not_true, Bool.and_false]
      rfl
    · have hout : ∀ r ∈ rs, r.extent.has f.extent.start = false := by simpa using hin
      have hsection := hrs.cuts_section ht.lined hmembers hf hout
      rw [if_neg (by simp [hdepth, hin]), declarations_eq ht.toCopies hsection, hdepth]
      simp [hin]
  · rw [if_pos (Or.inl hdepth), beq_eq_false_iff_ne.mpr hdepth]
    rfl

/-- **The variables of an object** are read without a fault. -/
theorem globalDeclarations_eq (ht : Prepared S t) {o : ObjectSite} (ho : o.Placed S)
    (hrs : Spaced S t o.members rs) :
    globalDeclarations t o.members (t.depth o.opening + 1) rs =
      .ok (Source.globalDeclarations t o rs) := by
  have hcuts := ht.bare.cuts ho.members
  have hmap := mapM_eq (l := (keyword "var").all (Cursor.ofSlice t.bare o.members)) fun f hf =>
    sectionDeclarations_eq ht ho.members hrs (t.depth o.opening + 1)
      (Pattern.foundFrom_of_mem_all hcuts.stop_le (Cursor.in_ofSlice hcuts.le hcuts.start) hf)
  have hfilter : ∀ (l : List (Found Unit)) (p : Found Unit → Bool)
      (g : Found Unit → List (String × TypeInfo)),
      (l.map fun f => if p f then g f else []).flatten = (l.filter p).flatMap g := by
    intro l p g
    induction l with
    | nil => rfl
    | cons f l ih =>
      rw [List.map_cons, List.flatten_cons, ih, List.filter_cons]
      split <;> simp
  rw [globalDeclarations, piece_eq hcuts, ok_bind]
  show (List.mapM _ ((keyword "var").all (Cursor.ofSlice t.bare o.members)) >>= _) = _
  rw [hmap, ok_bind, hfilter]
  rfl

/-! ### Objects -/

/-- The names of the intervals that are there. -/
def name? (t : Text) : Option Extent → Guarded (Option String)
  | some r => return some (← name t r)
  | none => return none

/-- The object of a header. -/
def objectSite (t : Text) (h : Found ObjectHeader) :
    Guarded (Except ResolveError ObjectSite) := do
  let rest ← piece t.bare ⟨h.extent.stop, t.bare.length⟩
  match rest.findChar? '\x7b' h.extent.stop with
  | none => return .error (.noBody (← span t h.extent))
  | some opening =>
    match ← closingBrace t opening with
    | none => return .error (.notClosed (← span t h.extent))
    | some closing =>
      let word := (← piece t.bare h.value.keyword).text
      match SymbolKind.ofObjectKeyword? word with
      | none => return .error (.unknownObject word)
      | some kind =>
        return .ok ⟨kind, h.extent.start, h.value.name, h.value.base, opening, closing⟩

/-- The table whose rows `Rec` and `xRec` stand for, given the name of the object and the one it
extends. -/
def recordTable (t : Text) (o : ObjectSite) (inner : Nat) (own : String) (base : Option String) :
    Guarded (Option String) :=
  match o.kind with
  | .table => return some own
  | .tableExtension => return base
  | .page => do name? t (← property t sourceTable o.members inner)
  | _ => return none

/-- The value of the `ObsoleteState` property of an object. -/
def objectState (t : Text) (o : ObjectSite) (inner : Nat) : Guarded ObsoleteState := do
  match ← property t obsoleteState o.members inner with
  | some r => return (ObsoleteState.ofProperty? (← piece t.masked r).text).getD .current
  | none => return .current

/-- The names of the procedures among the routines. -/
def procedureNames (t : Text) (rs : List Routine) : Guarded (List String) :=
  (rs.filter (·.kind == .procedure)).mapM fun r => name t r.name

/-- The symbols of an object, the first of them at position `first`, and its node. -/
def resolveObject (t : Text) (first : SymbolId) (o : ObjectSite) :
    Guarded (Except ResolveError (List Symbol × Outline)) := do
  let base ← name? t o.base
  let own ← name t o.name
  let inner ← increment (← entry t.depths o.opening)
  let state ← objectState t o inner
  let place ← span t ⟨o.start, o.closing + 1⟩
  match ← routines t o.members with
  | .error e => return .error e
  | .ok rs =>
    let symbol : Symbol := { kind := o.kind, name := own, obsolete := state }
    let table ← recordTable t o inner own base
    let records := declare .globalVariable true (first + 1) (implicitRecords table)
    let declared := declare .globalVariable false (first + 1 + records.length)
      (← globalDeclarations t o.members inner rs)
    let globals := records ++ declared
    let procedures ← procedureNames t rs
    let routines ← resolveRoutines t first globals procedures (first + 1 + globals.length) rs
    let entry : Entry := { plainEntry .objectDeclaration place first with symbol := some first }
    return .ok (symbol :: globals.map (Variable.toSymbol first) ++ routines.1,
      .single entry routines.2)

/-- The symbols and nodes of the objects of a list of headers. -/
def resolveObjects (t : Text) : Nat → SymbolId → List (Found ObjectHeader) →
    Guarded (Except ResolveError (List Symbol × Outline))
  | _, _, [] => return .ok ([], .empty)
  | resume, first, h :: hs => do
    if h.extent.start < resume ∨ (← entry t.depths h.extent.start) ≠ 0 then
      resolveObjects t resume first hs
    else
      match ← objectSite t h with
      | .error e => return .error e
      | .ok site =>
        match ← resolveObject t first site with
        | .error e => return .error e
        | .ok (symbols, outline) =>
          match ← resolveObjects t (site.closing + 1) (first + symbols.length) hs with
          | .error e => return .error e
          | .ok (symbols', outline') => return .ok (symbols ++ symbols', outline.append outline')

/-- The document of a source text. -/
def resolveDocument (path source : String) : Guarded (Except ResolveError Document) := do
  let t ← text (Cells.ofString source)
  let place ← span t ⟨0, t.length⟩
  match ← resolveObjects t 0 0 (objectHeader.all ⟨none, 0, t.bare⟩) with
  | .error e => return .error e
  | .ok (symbols, objects) =>
    let unit : Entry := { kind := .compilationUnit, span := place }
    return .ok { path, source := some source, symbols
                 nodes := (Outline.single unit objects).nodesFrom none 0 }

/-- The tree of a source text. -/
def resolve (path source : String) : Guarded (Except ResolveError Tree) := do
  match ← resolveDocument path source with
  | .error e => return .error e
  | .ok d =>
    match Tree.ofDocument d with
    | .ok tree => return .ok tree
    | .error e => return .error (.tree e)

theorem name?_eq (ht : t.Copies S) {o : Option Extent} (h : ∀ r, o = some r → S.Cuts r) :
    name? t o = .ok (o.map t.name) := by
  cases o with
  | none => rfl
  | some r =>
    rw [name?, name_eq ht (h r rfl)]
    rfl

/-- The value of a property can be cut out. -/
theorem cuts_property (ht : t.Copies S) (hr : S.Cuts r) {p : Pattern Extent}
    (hp : ∀ {stop : Nat} {c d : Cursor} {v : Extent}, t.bare.isBoundary stop = true →
      c.In t.bare stop → p c = some (v, d) → t.bare.Snug v) {depth : Nat} {v : Extent}
    (h : t.property? p r depth = some v) : S.Cuts v := by
  have hcuts := ht.bare.cuts hr
  obtain ⟨f, hf, rfl⟩ := Option.map_eq_some_iff.mp h
  obtain ⟨c, d, hc, -, -, hmatch, -⟩ := Pattern.foundFrom_of_mem_all hcuts.stop_le
    (Cursor.in_ofSlice hcuts.le hcuts.start) (List.mem_of_find?_eq_some hf)
  exact (ht.bare.snug (hp hcuts.stop hc hmatch)).cuts

theorem objectState_eq (ht : Prepared S t) {o : ObjectSite} (ho : o.Placed S) (inner : Nat) :
    objectState t o inner = .ok (((t.property? obsoleteState o.members inner).bind fun r =>
      ObsoleteState.ofProperty? (t.masked.slice r).text).getD .current) := by
  rw [objectState, property_eq ht ho.members, ok_bind]
  cases hfound : t.property? obsoleteState o.members inner with
  | none => rfl
  | some v =>
    have hcuts := cuts_property ht.toCopies ho.members
      (fun hstop hc hd => (snug_obsoleteState ht.bare.whole hstop hc hd).2.2) hfound
    simp only
    rw [piece_eq (ht.masked.cuts hcuts), ok_bind, Option.bind_some]
    rfl

theorem recordTable_eq (ht : Prepared S t) {o : ObjectSite} (ho : o.Placed S) :
    recordTable t o (t.depth o.opening + 1) (t.name o.name) (o.base.map t.name) =
      .ok (recordTable? t o) := by
  rw [recordTable, recordTable?]
  cases o.kind with
  | page =>
    simp only
    rw [property_eq ht ho.members, ok_bind]
    exact name?_eq ht.toCopies fun v hv => cuts_property ht.toCopies ho.members
      (fun hstop hc hd => (snug_sourceTable ht.bare.whole hstop hc hd).2.2) hv
  | _ => rfl

theorem procedureNames_eq (ht : t.Copies S) (hrs : ∀ r ∈ rs, r.Placed S t.bare members) :
    procedureNames t rs =
      .ok ((rs.filter (·.kind == .procedure)).map fun r => t.name r.name) :=
  mapM_eq fun r hr => name_eq ht (hrs r (List.mem_filter.mp hr).1).name.cuts

theorem objectSite_eq (ht : Prepared S t) {h : Found ObjectHeader}
    (hfound : objectHeader.FoundFrom t.bare 0 t.length h) :
    objectSite t h = .ok (Source.objectSite t h) := by
  have hbare := ht.bare.whole
  have hend := Cells.isBoundary_length t.bare
  obtain ⟨-, -, hplaced⟩ := foundFrom_objectHeader hbare hend hfound
  have hcuts : t.bare.Cuts ⟨h.extent.stop, t.bare.length⟩ :=
    ⟨hplaced.whole.stop_le, hplaced.whole.stop, hend⟩
  rw [objectSite, piece_eq hcuts, ok_bind, slice_to_end, Source.objectSite]
  cases hopening : Cells.findChar? '\x7b' h.extent.stop (t.bare.drop h.extent.stop) with
  | none =>
    simp only [span_eq]
    rfl
  | some opening =>
    obtain ⟨-, x, hx, hxchar⟩ := (Cells.hasAt_findChar? hopening).of_drop
    simp only
    rw [closingBrace_eq ht hx hxchar, ok_bind]
    cases t.closingBrace? opening with
    | none =>
      simp only [span_eq]
      rfl
    | some closing =>
      simp only
      rw [piece_eq hplaced.keyword.cuts, ok_bind]
      cases SymbolKind.ofObjectKeyword? (t.bare.slice h.value.keyword).text with
      | none => rfl
      | some kind => rfl

/-- **An object is resolved without a fault.** -/
theorem resolveObject_eq (ht : Prepared S t) {o : ObjectSite} (ho : o.Placed S) (first : SymbolId) :
    resolveObject t first o = .ok (Source.resolveObject t first o) := by
  have hlength := ht.bare.length_eq
  have hsize := ht.size
  have hclosing := ho.cuts.stop_le
  have hlt := ho.lt
  simp only at hclosing
  have hdepth := depth_le ht (i := o.opening) (by omega)
  have hbase := name?_eq ht.toCopies fun b hb => (ho.base b hb).cuts
  obtain ⟨hroutines, hanchored⟩ := routines_eq ht.lined ho.members
  rw [resolveObject, hbase, ok_bind, name_eq ht.toCopies ho.name.cuts, ok_bind,
    entry_eq (getElem?_depths ht (by omega)), ok_bind, increment_eq (by omega), ok_bind,
    objectState_eq ht ho, ok_bind, span_eq, ok_bind, hroutines, ok_bind, Source.resolveObject]
  cases hrs : t.routines o.members with
  | error e => rfl
  | ok rs =>
    have hplaced := (placed_routines ht.toCopies ho.members hrs).1
    have hspaced : Spaced S t o.members rs := ⟨hplaced, hanchored rs hrs⟩
    simp only [recordTable_eq ht ho, globalDeclarations_eq ht ho hspaced,
      procedureNames_eq ht.toCopies hplaced, resolveRoutines_eq ht hplaced, ok_bind]
    rfl

theorem resolveObjects_eq (ht : Prepared S t) {hs : List (Found ObjectHeader)}
    (hfound : ∀ h ∈ hs, objectHeader.FoundFrom t.bare 0 t.length h) (resume : Nat)
    (first : SymbolId) :
    resolveObjects t resume first hs = .ok (Source.resolveObjects t resume first hs) := by
  induction hs generalizing resume first with
  | nil => rfl
  | cons h hs ih =>
    have hh := hfound h List.mem_cons_self
    have ih := ih fun h' hh' => hfound h' (List.mem_cons_of_mem h hh')
    obtain ⟨c, d, hc, -, hlt, -, hextent⟩ := id hh
    have hstart : h.extent.start ≤ t.bare.length := by
      rw [hextent]
      exact hlt.le
    rw [resolveObjects, Source.resolveObjects, entry_eq (getElem?_depths ht hstart)]
    simp only [ok_bind]
    by_cases hskip : h.extent.start < resume ∨ t.depth h.extent.start ≠ 0
    · rw [if_pos hskip, if_pos hskip, ih]
    · rw [if_neg hskip, if_neg hskip, objectSite_eq ht hh, ok_bind]
      cases hsite : Source.objectSite t h with
      | error e => rfl
      | ok site =>
        obtain ⟨hplaced, -⟩ := placed_objectSite ht.toCopies hh hsite
        simp only
        rw [resolveObject_eq ht hplaced, ok_bind]
        cases Source.resolveObject t first site with
        | error e => rfl
        | ok one =>
          simp only
          rw [ih, ok_bind]
          cases Source.resolveObjects t (site.closing + 1) (first + one.1.length) hs with
          | error e => rfl
          | ok rest => rfl

/-- **The front end does not fault** on a source with less than `2 ^ 32` bytes. -/
theorem resolve_eq (path : String) {source : String} (hsize : source.utf8ByteSize < UInt32.size) :
    resolve path source = .ok (Source.resolve path source) := by
  have hwhole := Cells.whole_ofString source
  have hsize' : (Cells.ofString source).length < UInt32.size := by
    rwa [Cells.length_ofString]
  have ht := prepared_ofCells hwhole hsize'
  have hobjects := resolveObjects_eq ht (fun h hh => foundFrom_of_mem_headers ht.toCopies hh) 0 0
  have hdocument : resolveDocument path source = .ok (Source.resolveDocument path source) := by
    rw [resolveDocument, text_eq hwhole hsize', ok_bind, span_eq, ok_bind, hobjects, ok_bind,
      Source.resolveDocument]
    cases Source.resolveObjects (Text.ofCells (Cells.ofString source)) 0 0
      (objectHeader.all ⟨none, 0, (Text.ofCells (Cells.ofString source)).bare⟩) with
    | error e => rfl
    | ok parts => rfl
  rw [resolve, hdocument, ok_bind, Source.resolve]
  cases Source.resolveDocument path source with
  | error e => rfl
  | ok d =>
    simp only
    cases Tree.ofDocument d with
    | error e => rfl
    | ok tree => rfl

end Guarded
end TreeLint
