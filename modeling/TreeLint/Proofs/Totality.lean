/-
# What the front end answers

The front end answers with a tree or with one of its own five errors. It does not
fault, and the document it makes has no defect but its size: the positions of
nodes and symbols have 32 bits.

The size is bounded by the source. An argument may be empty, but a comma or a
parenthesis stands beside it, so there are at most two nodes for each byte. Each
`var` among the members of an object declares all the variables up to the next
routine, also when other words `var` stand among them, so the number of symbols is
bounded by the square of the number of bytes only. A source of half a megabyte can
declare more than `2 ^ 32` variables; a source of less than 32 kilobytes cannot.

Key definitions: `Source.ResolveError.isOwn`, `Source.ResolveError.isOfRoutine`.
Key theorems: `Source.size_resolveObjects`, `Source.length_resolveObjects`,
`Source.resolve_without_fault`.
-/
import Mathlib.Algebra.GroupWithZero.Nat
import TreeLint.Proofs.GuardedResolve
import TreeLint.Proofs.References

namespace TreeLint

theorem Pattern.length_allFrom {α : Type} (p : Pattern α) (skip : Nat) (before : Option Cell)
    (pos : Nat) (cs : Cells) : (p.allFrom skip before pos cs).length ≤ cs.length := by
  induction cs generalizing skip before pos with
  | nil => cases skip <;> exact Nat.zero_le _
  | cons c cs ih =>
    rw [List.length_cons]
    cases skip with
    | succ skip =>
      have := ih skip (some c) (pos + 1)
      rw [Pattern.allFrom]
      omega
    | zero =>
      rw [Pattern.allFrom]
      split
      · rw [List.length_cons]
        exact Nat.succ_le_succ (ih _ _ _)
      · have := ih 0 (some c) (pos + 1)
        omega

namespace Cells

theorem length_slice_le (cs : Cells) (r : Extent) :
    (cs.slice r).length ≤ r.stop - r.start ∧ (cs.slice r).length ≤ cs.length := by
  rw [slice, List.length_take, List.length_drop]
  omega

theorem length_trim_le (cs : Cells) : cs.trim.length ≤ cs.length := by
  have hdrop := (List.dropWhile_suffix Cell.isBlank (l := cs)).length_le
  have hdrop' := (List.dropWhile_suffix Cell.isBlank (l := cs.trimStart.reverse)).length_le
  rw [trim, List.length_reverse]
  rw [List.length_reverse] at hdrop'
  exact hdrop'.trans hdrop

theorem length_splitOn_le (sep : Char) (cs : Cells) : (cs.splitOn sep).length ≤ cs.length + 1 := by
  induction cs with
  | nil => exact le_rfl
  | cons x xs ih =>
    rw [splitOn, List.length_cons]
    split
    · rw [List.length_cons]
      omega
    · split
      · exact Nat.succ_le_succ (Nat.zero_le _)
      · rename_i piece pieces hsplit
        rw [hsplit, List.length_cons] at ih
        rw [List.length_cons]
        omega

end Cells

namespace Source

variable {S : Cells} {t : Text} {s : Scope}

/-! ### How many nodes there are -/

theorem Outline.size_append (o o' : Outline) : (o.append o').size = o.size + o'.size := by
  induction o with
  | empty => exact (Nat.zero_add _).symm
  | node e below next _ ih =>
    rw [Outline.append, Outline.size, Outline.size, ih]
    omega

theorem size_receiverOutline (call : Call) (r : Receiver) :
    (receiverOutline t s call r).size ≤ 1 := by
  cases r <;> simp [receiverOutline, Outline.single, Outline.size]

theorem size_operandOutline (r : Extent) : (operandOutline t s r).size = 1 := by
  unfold operandOutline
  simp only
  split <;> rfl

/-- An argument has a byte beside it that is not in it, so it may have two nodes more. -/
theorem size_argumentsOutline {later : List Call} {nested : Extent → Outline}
    (hnested : ∀ r, (nested r).size ≤ 2 * (r.stop - r.start))
    {l : List (Option String × Extent × Extent)} {w : Extent} (hlt : w.start < w.stop)
    (heach : ∀ x ∈ l, x.2.1.start ≤ x.2.1.stop ∧ x.2.1.start ≤ x.2.2.start ∧
      x.2.2.stop = x.2.1.stop ∧ w.start < x.2.1.start ∧ x.2.1.stop < w.stop)
    (horder : (l.map (·.2.1)).Pairwise (·.stop < ·.start)) :
    (argumentsOutline t s later nested l).size ≤ 2 * (w.stop - w.start - 1) := by
  induction l generalizing w with
  | nil => exact Nat.zero_le _
  | cons x l ih =>
    obtain ⟨parameter, r, value⟩ := x
    obtain ⟨hle, hvalue, hstop, hstart, hlast⟩ := heach _ List.mem_cons_self
    simp only at hle hvalue hstop hstart hlast
    rw [List.map_cons, List.pairwise_cons] at horder
    have hnext := ih (w := ⟨r.stop, w.stop⟩) hlast (fun y hy => by
      obtain ⟨hle', hvalue', hstop', -, hlast'⟩ := heach y (List.mem_cons_of_mem _ hy)
      exact ⟨hle', hvalue', hstop', horder.1 _ (List.mem_map_of_mem hy), hlast'⟩) horder.2
    have hbelow : (if later.any fun c =>
        value.start ≤ c.extent.start && c.extent.stop ≤ value.stop then nested value
      else operandOutline t s value).size ≤ 2 * (r.stop - r.start) + 1 := by
      split
      · have := hnested value
        omega
      · rw [size_operandOutline]
        omega
    rw [argumentsOutline, Outline.size]
    simp only at hnext ⊢
    omega

theorem size_outlineCalls (ht : t.Copies S) {body : Extent} {calls : List Call}
    (hcalls : ∀ call ∈ calls, call.Placed S body) (w : Extent) :
    (outlineCalls t s calls w).size ≤ 2 * (w.stop - w.start) := by
  induction calls generalizing w with
  | nil => exact Nat.zero_le _
  | cons call later ih =>
    have hlater := fun c hc => hcalls c (List.mem_cons_of_mem call hc)
    have hcall := hcalls call List.mem_cons_self
    unfold outlineCalls
    split
    · exact ih hlater w
    · rename_i hskip
      have hlt := hcall.lt
      have hreceiver := size_receiverOutline (t := t) (s := s) call (s.target t call).receiver
      have harguments : (argumentsOutline t s later (fun value => outlineCalls t s later value)
          (boundArguments t (s.target t call).parameters call)).size ≤
            2 * (call.extent.stop - call.extent.start - 1) := by
        refine size_argumentsOutline (ih hlater) hlt (fun x hx => ?_) ?_
        · obtain ⟨hmem, hcuts, -, hstart, hstop⟩ := mem_boundArguments ht hcall hx
          obtain ⟨-, hfirst, hlast⟩ := hcall.argument _ hmem
          exact ⟨hcuts.le, hstart, hstop, hfirst, hlast⟩
        · rw [map_boundArguments]
          exact hcall.order
      have hnext := ih hlater ⟨call.extent.stop, w.stop⟩
      rw [Outline.size, Outline.size_append]
      simp only at hnext
      omega

theorem size_resolveRoutine (ht : t.Copies S) {members : Extent} {r : Routine}
    (hr : r.Placed S t.bare members) (object first : SymbolId) (globals : List Variable)
    (procedures : List String) :
    (resolveRoutine t object first globals procedures r).2.size ≤
      2 * (r.extent.stop - r.header) := by
  have hlt := hr.lt
  unfold resolveRoutine
  simp only [Outline.single, Outline.size]
  cases hbody : r.body with
  | none =>
    simp only [Outline.size]
    omega
  | some body =>
    obtain ⟨hcuts, hstart, hstop⟩ := hr.body body hbody
    have hbegins := (hr.begins body hbody).1
    simp only [Outline.size]
    generalize hbelow : outlineCalls t _ (t.calls body) body = below
    have hsize : below.size ≤ 2 * (body.stop - body.start) := by
      rw [← hbelow]
      exact size_outlineCalls ht (fun call hcall => placed_of_mem_calls ht hcuts hcall) body
    omega

theorem size_resolveRoutines (ht : t.Copies S) {members : Extent} {rs : List Routine}
    (hrs : ∀ r ∈ rs, r.Placed S t.bare members) (horder : rs.Pairwise (·.extent.stop ≤ ·.header))
    (object first : SymbolId) (globals : List Variable) (procedures : List String) {start : Nat}
    (hstart : ∀ r ∈ rs, start ≤ r.header) :
    (resolveRoutines t object globals procedures first rs).2.size ≤ 2 * (members.stop - start) := by
  induction rs generalizing first start with
  | nil => exact Nat.zero_le _
  | cons r rs ih =>
    have hplaced := hrs r List.mem_cons_self
    have hlt := hplaced.lt
    have hle := hplaced.stop_le
    have hle' := hstart r List.mem_cons_self
    obtain ⟨hlater, horder'⟩ := List.pairwise_cons.mp horder
    have hone := size_resolveRoutine ht hplaced object first globals procedures
    have hrest := ih (fun r' hr' => hrs r' (List.mem_cons_of_mem r hr')) horder'
      (first + (resolveRoutine t object first globals procedures r).1.length) hlater
    rw [resolveRoutines, Outline.size_append]
    omega

theorem size_resolveObject (ht : t.Copies S) {o : ObjectSite} (ho : o.Placed S) {first : SymbolId}
    {symbols : List Symbol} {outline : Outline}
    (h : resolveObject t first o = .ok (symbols, outline)) :
    outline.size ≤ 2 * (o.closing + 1 - o.start) := by
  unfold resolveObject at h
  split at h
  · cases h
  · rename_i rs hrs
    cases h
    have hstart := ho.start_lt
    have hlt := ho.lt
    obtain ⟨hplaced, horder⟩ := placed_routines ht ho.members hrs
    rw [Outline.single, Outline.size, Outline.size]
    generalize hroutines : resolveRoutines t first _ _ _ rs = routines
    have hsize : routines.2.size ≤ 2 * (o.closing - (o.opening + 1)) := by
      rw [← hroutines]
      exact size_resolveRoutines ht hplaced horder first _ _ _ fun r hr => (hplaced r hr).start_le
    omega

/-- **There are at most two nodes for each byte.** -/
theorem size_resolveObjects (ht : t.Copies S) {hs : List (Found ObjectHeader)}
    (hfound : ∀ h ∈ hs, objectHeader.FoundFrom t.bare 0 t.length h) {resume : Nat}
    {first : SymbolId} {symbols : List Symbol} {outline : Outline}
    (h : resolveObjects t resume first hs = .ok (symbols, outline)) :
    outline.size ≤ 2 * (t.length - resume) := by
  refine resolveObjects_induction ht
    (motive := fun resume _ _ outline => outline.size ≤ 2 * (t.length - resume))
    (fun _ _ => Nat.zero_le _) ?_ hfound h
  intro resume first site symbols outline symbols' outline' hplaced hstart hobject hrest
  have hlength : site.closing + 1 ≤ t.length := by
    have := hplaced.cuts.stop_le
    rwa [← ht.bare.length_eq] at this
  have hlt := hplaced.start_lt
  have hlt' := hplaced.lt
  have hone := size_resolveObject ht hplaced hobject
  rw [Outline.size_append]
  omega

/-! ### How many symbols there are -/

theorem length_stripVar?_le (text : Cells) : ((stripVar? text).getD text).length ≤ text.length := by
  unfold stripVar?
  simp only
  split
  · have hdrop := (List.dropWhile_suffix Cell.isBlank (l := text.drop 3)).length_le
    rw [List.length_drop] at hdrop
    exact hdrop.trans (Nat.sub_le _ _)
  · exact le_rfl

theorem length_declaredNames? {text : Cells} {parameters : Bool} {names : List String}
    (h : declaredNames? text parameters = some names) : names.length ≤ text.length + 1 := by
  have htrim := text.length_trim_le
  have hstrip := length_stripVar?_le text.trim
  have hlength : (if parameters then (stripVar? text.trim).getD text.trim
      else text.trim).length ≤ text.length := by
    split <;> omega
  unfold declaredNames? at h
  simp only at h
  generalize (if parameters then (stripVar? text.trim).getD text.trim else text.trim) = stripped
    at h hlength
  have hsplit := Cells.length_splitOn_le ',' stripped
  split at h
  · cases h
    rw [List.length_map, List.length_map]
    omega
  · cases h

/-- There is a byte for each name: the colon stands behind them. -/
theorem length_declaration? {parameters : Bool} {r : Extent} {ds : List (String × TypeInfo)}
    (h : t.declaration? parameters r = some ds) : ds.length ≤ r.stop - r.start := by
  unfold Text.declaration? at h
  split at h
  · cases h
  · rename_i colon hcolon
    obtain ⟨hle, hlt, -⟩ := (Cells.hasAt_findChar? hcolon).of_slice
    split at h
    · rename_i names type hnames htype
      cases h
      rw [List.length_map]
      have := length_declaredNames? hnames
      have := (t.masked.length_slice_le ⟨r.start, colon⟩).1
      simp only at this
      omega
    · cases h

theorem sum_segmentsFrom {start pos : Nat} {cs : Cells} (h : start ≤ pos) :
    ((segmentsFrom start pos cs).map fun r => r.stop - r.start).sum ≤ pos + cs.length - start := by
  induction cs generalizing start pos with
  | nil => simp [segmentsFrom]
  | cons c cs ih =>
    rw [segmentsFrom, List.length_cons]
    split
    · have := ih (le_refl (pos + 1))
      rw [List.map_cons, List.sum_cons]
      simp only
      omega
    · have := ih (show start ≤ pos + 1 by omega)
      omega

theorem length_declarationsIn (parameters : Bool) (rs : List Extent) :
    (t.declarationsIn parameters rs).length ≤ (rs.map fun r => r.stop - r.start).sum := by
  induction rs with
  | nil => exact le_rfl
  | cons r rs ih =>
    rw [Text.declarationsIn, List.map_cons, List.sum_cons]
    split
    · omega
    · split
      · rename_i ds hds
        have := length_declaration? hds
        rw [List.length_append]
        omega
      · exact Nat.zero_le _

/-- **An interval declares no more names than it has bytes.** -/
theorem length_declarations (r : Extent) (parameters : Bool) :
    (t.declarations r parameters).length ≤ t.bare.length := by
  have hin := length_declarationsIn (t := t) parameters
    (segmentsFrom r.start r.start (t.bare.slice r))
  have hsum := @sum_segmentsFrom _ _ (t.bare.slice r) (le_refl r.start)
  have hslice := (t.bare.length_slice_le r).2
  rw [Text.declarations]
  omega

theorem length_flatMap_le {α β : Type} {g : α → List β} {n : Nat} (hg : ∀ a, (g a).length ≤ n)
    (l : List α) : (l.flatMap g).length ≤ l.length * n := by
  induction l with
  | nil => simp
  | cons a l ih =>
    have := hg a
    rw [List.flatMap_cons, List.length_append, List.length_cons, Nat.succ_mul]
    omega

theorem length_globalDeclarations (o : ObjectSite) (rs : List Routine) :
    (globalDeclarations t o rs).length ≤ (o.closing - (o.opening + 1)) * t.bare.length := by
  unfold globalDeclarations
  refine (length_flatMap_le (fun f => length_declarations _ _) _).trans (Nat.mul_le_mul_right _ ?_)
  refine (List.length_filter_le _ _).trans ((Pattern.length_allFrom _ _ _ _ _).trans ?_)
  exact (t.bare.length_slice_le o.members).1

theorem length_routinesOf {members : Cursor} {last : Option Nat} {hs : List (Found RoutineHeader)}
    {rs : List Routine} (h : t.routinesOf members last hs = .ok rs) : rs.length ≤ hs.length := by
  induction hs generalizing last rs with
  | nil =>
    cases h
    exact le_rfl
  | cons header hs ih =>
    rw [List.length_cons]
    rcases Text.routinesOf_cons_ok h with ⟨-, h⟩ | ⟨-, r, rest, -, hrest, rfl⟩
    · exact (ih h).trans (Nat.le_succ _)
    · exact Nat.succ_le_succ (ih hrest)

theorem length_routines {members : Extent} {rs : List Routine} (h : t.routines members = .ok rs) :
    rs.length ≤ members.stop - members.start :=
  (length_routinesOf h).trans
    ((Pattern.length_allFrom _ _ _ _ _).trans (t.bare.length_slice_le members).1)

theorem length_resolveRoutine (object first : SymbolId) (globals : List Variable)
    (procedures : List String) (r : Routine) :
    (resolveRoutine t object first globals procedures r).1.length ≤ 2 * t.bare.length + 1 := by
  have hparameters := length_declarations (t := t) r.parameters true
  unfold resolveRoutine
  simp only [List.length_cons, List.length_map, List.length_append, length_declare]
  cases r.locals with
  | none =>
    simp only [List.length_nil]
    omega
  | some extent =>
    have := length_declarations (t := t) extent false
    simp only
    omega

theorem length_resolveRoutines (object first : SymbolId) (globals : List Variable)
    (procedures : List String) (rs : List Routine) :
    (resolveRoutines t object globals procedures first rs).1.length ≤
      rs.length * (2 * t.bare.length + 1) := by
  induction rs generalizing first with
  | nil => exact Nat.zero_le _
  | cons r rs ih =>
    have hone := length_resolveRoutine (t := t) object first globals procedures r
    have hrest := ih (first + (resolveRoutine t object first globals procedures r).1.length)
    rw [resolveRoutines, List.length_append, List.length_cons, Nat.succ_mul]
    omega

theorem length_resolveObject {o : ObjectSite} {first : SymbolId} {symbols : List Symbol}
    {outline : Outline} (h : resolveObject t first o = .ok (symbols, outline)) :
    symbols.length ≤ 3 + (o.closing - (o.opening + 1)) * (3 * t.bare.length + 1) := by
  unfold resolveObject at h
  split at h
  · cases h
  · rename_i rs hrs
    cases h
    have hglobals := length_globalDeclarations (t := t) o rs
    have hrs := length_routines hrs
    have hrecords : (implicitRecords (recordTable? t o)).length ≤ 2 := by
      unfold implicitRecords
      split <;> simp
    generalize hroutines : resolveRoutines t first _ _ _ rs = routines
    have hlength : routines.1.length ≤ (o.closing - (o.opening + 1)) * (2 * t.bare.length + 1) := by
      rw [← hroutines]
      exact (length_resolveRoutines _ _ _ _ _).trans (Nat.mul_le_mul_right _ hrs)
    simp only [List.length_cons, List.length_map, List.length_append, length_declare]
    have hsum : (o.closing - (o.opening + 1)) * (3 * t.bare.length + 1) =
        (o.closing - (o.opening + 1)) * t.bare.length +
          (o.closing - (o.opening + 1)) * (2 * t.bare.length + 1) := by
      rw [← Nat.mul_add]
      congr 1
      omega
    omega

/-- **The number of symbols is bounded by the square of the number of bytes.** -/
theorem length_resolveObjects (ht : t.Copies S) {hs : List (Found ObjectHeader)}
    (hfound : ∀ h ∈ hs, objectHeader.FoundFrom t.bare 0 t.length h) {resume : Nat}
    {first : SymbolId} {symbols : List Symbol} {outline : Outline}
    (h : resolveObjects t resume first hs = .ok (symbols, outline)) :
    symbols.length ≤ (t.length - resume) * (3 * t.length + 1) := by
  refine resolveObjects_induction ht
    (motive := fun resume _ symbols _ => symbols.length ≤ (t.length - resume) * (3 * t.length + 1))
    (fun _ _ => Nat.zero_le _) ?_ hfound h
  intro resume first site symbols outline symbols' outline' hplaced hstart hobject hrest
  have hlength : site.closing + 1 ≤ t.length := by
    have := hplaced.cuts.stop_le
    rwa [← ht.bare.length_eq] at this
  have hlt := hplaced.start_lt
  have hlt' := hplaced.lt
  have hone := length_resolveObject hobject
  rw [List.length_append]
  calc symbols.length + symbols'.length
      ≤ (3 + (site.closing - (site.opening + 1)) * (3 * t.length + 1)) +
          (t.length - (site.closing + 1)) * (3 * t.length + 1) := Nat.add_le_add hone hrest
    _ ≤ (site.closing - (site.opening + 1) + 1 + (t.length - (site.closing + 1))) *
          (3 * t.length + 1) := by
        rw [Nat.add_mul, Nat.add_mul]
        omega
    _ ≤ (t.length - resume) * (3 * t.length + 1) := Nat.mul_le_mul_right _ (by omega)

/-! ### What the front end answers -/

/-- The errors that the front end finds in a source itself. -/
def ResolveError.isOwn : ResolveError → Bool
  | .noBody _ => true
  | .notClosed _ => true
  | .unknownObject _ => true
  | .unclosedParameters _ => true
  | .unbalancedBlock _ => true
  | .tree _ => false

/-- The errors that scanning a routine can end with. -/
def ResolveError.isOfRoutine : ResolveError → Bool
  | .unclosedParameters _ => true
  | .unbalancedBlock _ => true
  | _ => false

theorem isOwn_of_isOfRoutine {e : ResolveError} (he : e.isOfRoutine = true) : e.isOwn = true := by
  cases e with
  | unclosedParameters | unbalancedBlock => rfl
  | noBody | notClosed | unknownObject | tree => cases he

theorem isOfRoutine_of_routineAt {members : Cursor} {last : Option Nat} {h : Found RoutineHeader}
    {e : ResolveError} (he : t.routineAt members last h = .error e) : e.isOfRoutine = true := by
  unfold Text.routineAt at he
  simp only at he
  split at he
  · cases he
    rfl
  · split at he
    · rename_i e' hbody
      cases he
      unfold Text.routineBody at hbody
      simp only at hbody
      split at hbody
      · split at hbody
        · cases hbody
          rfl
        · cases hbody
      · cases hbody
    · cases he

theorem isOfRoutine_of_routinesOf {members : Cursor} {last : Option Nat}
    {hs : List (Found RoutineHeader)} {e : ResolveError}
    (he : t.routinesOf members last hs = .error e) : e.isOfRoutine = true := by
  induction hs generalizing last with
  | nil => cases he
  | cons h hs ih =>
    rw [Text.routinesOf] at he
    split at he
    · exact ih he
    · split at he
      · rename_i e' hone
        cases he
        exact isOfRoutine_of_routineAt hone
      · split at he
        · rename_i e' hrest
          cases he
          exact ih hrest
        · cases he

/-- The errors at the header of an object. -/
theorem objectSite_eq_error {h : Found ObjectHeader} {e : ResolveError}
    (he : objectSite t h = .error e) :
    e = .noBody (t.span h.extent) ∨ e = .notClosed (t.span h.extent) ∨
      e = .unknownObject (t.bare.slice h.value.keyword).text ∧
        SymbolKind.ofObjectKeyword? (t.bare.slice h.value.keyword).text = none := by
  unfold objectSite at he
  split at he
  · cases he
    exact Or.inl rfl
  · split at he
    · cases he
      exact Or.inr (Or.inl rfl)
    · simp only at he
      split at he
      · rename_i hkind
        cases he
        exact Or.inr (Or.inr ⟨rfl, hkind⟩)
      · cases he

/-- An error comes from the header of an object or from one of its routines. -/
theorem resolveObjects_eq_error {resume : Nat} {first : SymbolId} {hs : List (Found ObjectHeader)}
    {e : ResolveError} (he : resolveObjects t resume first hs = .error e) :
    e.isOfRoutine = true ∨ ∃ h ∈ hs, objectSite t h = .error e := by
  induction hs generalizing resume first with
  | nil => cases he
  | cons h hs ih =>
    have hlater : ∀ {resume first}, resolveObjects t resume first hs = .error e →
        e.isOfRoutine = true ∨ ∃ h' ∈ h :: hs, objectSite t h' = .error e := fun he =>
      (ih he).imp_right fun ⟨h', hh', hsite⟩ => ⟨h', List.mem_cons_of_mem h hh', hsite⟩
    rw [resolveObjects] at he
    split at he
    · exact hlater he
    · split at he
      · rename_i e' hsite
        cases he
        exact Or.inr ⟨h, List.mem_cons_self, hsite⟩
      · split at he
        · rename_i e' hobject
          cases he
          unfold resolveObject at hobject
          split at hobject
          · rename_i e' hroutines
            cases hobject
            exact Or.inl (isOfRoutine_of_routinesOf hroutines)
          · cases hobject
        · split at he
          · rename_i e' hrest
            cases he
            exact hlater hrest
          · cases he

theorem isOwn_of_resolveObjects {resume : Nat} {first : SymbolId} {hs : List (Found ObjectHeader)}
    {e : ResolveError} (he : resolveObjects t resume first hs = .error e) : e.isOwn = true := by
  rcases resolveObjects_eq_error he with hroutine | ⟨h, -, hsite⟩
  · exact isOwn_of_isOfRoutine hroutine
  · rcases objectSite_eq_error hsite with rfl | rfl | ⟨rfl, -⟩
    · rfl
    · rfl
    · rfl

/-- The document has at most two nodes for each byte and one more, and its symbols are bounded by
the square of the number of bytes. -/
theorem size_resolveDocument {path source : String} {d : Document}
    (h : resolveDocument path source = .ok d) :
    d.nodes.length ≤ 2 * source.utf8ByteSize + 1 ∧
      d.symbols.length ≤ source.utf8ByteSize * (3 * source.utf8ByteSize + 1) := by
  have ht := Text.copies_ofCells (Cells.whole_ofString source)
  unfold resolveDocument at h
  simp only at h
  split at h
  · cases h
  · rename_i symbols objects hobjects
    cases h
    have hfound := fun h hh => foundFrom_of_mem_headers ht (h := h) hh
    have hnodes := size_resolveObjects ht hfound hobjects
    have hsymbols := length_resolveObjects ht hfound hobjects
    rw [Text.length_ofString, Nat.sub_zero] at hnodes hsymbols
    refine ⟨?_, hsymbols⟩
    rw [Outline.length_nodesFrom, Outline.single, Outline.size, Outline.size]
    omega

theorem fits_eq_false_iff (d : Document) :
    d.fits = false ↔ 2 ^ 32 ≤ d.nodes.length ∨ 2 ^ 32 ≤ d.symbols.length := by
  simp only [Document.fits, Bool.and_eq_false_iff, decide_eq_false_iff_not, not_lt]
  exact Iff.rfl

/-- Only its size keeps the document of a source from being a tree. -/
theorem ofDocument_eq_error_iff {path source : String} {d : Document}
    (h : resolveDocument path source = .ok d) {e : TreeError} :
    Tree.ofDocument d = .error e ↔ e = .tooLarge ∧ d.fits = false := by
  have hwf := wellFormed_resolveDocument h
  cases hfits : d.fits with
  | true =>
    have hdefect := Document.defect?_eq_none_iff.mpr ⟨hfits, hwf⟩
    simp [Tree.ofDocument, hdefect]
  | false =>
    have hdefect : d.defect? = some .tooLarge := by
      rw [Document.defect?, hfits]
      rfl
    simp [Tree.ofDocument, hdefect, eq_comm]

/-- An error is one of an object, or a defect of the document that keeps it from being a tree. -/
theorem resolve_eq_error {path source : String} {e : ResolveError}
    (he : resolve path source = .error e) :
    resolveObjects (Text.ofCells (Cells.ofString source)) 0 0
        (objectHeader.all ⟨none, 0, (Text.ofCells (Cells.ofString source)).bare⟩) = .error e ∨
      ∃ d defect, resolveDocument path source = .ok d ∧ Tree.ofDocument d = .error defect ∧
        e = .tree defect := by
  unfold resolve at he
  split at he
  · rename_i e' hdocument
    cases he
    unfold resolveDocument at hdocument
    simp only at hdocument
    split at hdocument
    · rename_i hobjects
      cases hdocument
      exact Or.inl hobjects
    · cases hdocument
  · rename_i d hdocument
    split at he
    · cases he
    · rename_i defect hdefect
      cases he
      exact Or.inr ⟨d, defect, hdocument, hdefect, rfl⟩

/-- **There is no tree exactly if the document is too large.** -/
theorem resolve_eq_tooLarge_iff {path source : String} :
    resolve path source = .error (.tree .tooLarge) ↔ ∃ d, resolveDocument path source = .ok d ∧
      (2 ^ 32 ≤ d.nodes.length ∨ 2 ^ 32 ≤ d.symbols.length) := by
  constructor
  · intro he
    rcases resolve_eq_error he with hobjects | ⟨d, defect, hdocument, hdefect, -⟩
    · cases isOwn_of_resolveObjects hobjects
    · exact ⟨d, hdocument, (fits_eq_false_iff d).mp ((ofDocument_eq_error_iff hdocument).mp hdefect).2⟩
  · rintro ⟨d, hdocument, hlarge⟩
    have hdefect := (ofDocument_eq_error_iff hdocument).mpr ⟨rfl, (fits_eq_false_iff d).mpr hlarge⟩
    rw [resolve, hdocument]
    simp only [hdefect]

/-- A document that is too large has a source of at least `2 ^ 15` bytes. -/
theorem le_utf8ByteSize_of_large {path source : String} {d : Document}
    (h : resolveDocument path source = .ok d)
    (hlarge : 2 ^ 32 ≤ d.nodes.length ∨ 2 ^ 32 ≤ d.symbols.length) :
    2 ^ 15 ≤ source.utf8ByteSize := by
  by_contra hnot
  obtain ⟨hnodes, hsymbols⟩ := size_resolveDocument h
  have hsquare : source.utf8ByteSize * (3 * source.utf8ByteSize + 1) ≤
      2 ^ 15 * (3 * 2 ^ 15 + 1) := Nat.mul_le_mul (by omega) (by omega)
  omega

/-- **The front end does not fault**: on a source with less than `2 ^ 32` bytes every cut, lookup and
difference is one that can be made, the blanked copies are texts and no loop or recursion runs out
of rounds. It answers with a tree or with an error of its own. There is one exception, which the
width of positions makes: a source has no tree exactly if its document has `2 ^ 32` nodes or symbols,
and such a source has at least `2 ^ 15` bytes. How much memory and stack an answer takes is left
out. -/
theorem resolve_without_fault (path : String) {source : String}
    (hsize : source.utf8ByteSize < 2 ^ 32) :
    Guarded.resolve path source = .ok (resolve path source) ∧
      (∀ e, resolve path source = .error e → e.isOwn = true ∨ e = .tree .tooLarge) ∧
      (resolve path source = .error (.tree .tooLarge) ↔
        ∃ d, resolveDocument path source = .ok d ∧
          (2 ^ 32 ≤ d.nodes.length ∨ 2 ^ 32 ≤ d.symbols.length)) ∧
      (resolve path source = .error (.tree .tooLarge) → 2 ^ 15 ≤ source.utf8ByteSize) := by
  refine ⟨Guarded.resolve_eq path hsize, fun e he => ?_, resolve_eq_tooLarge_iff, fun he => ?_⟩
  · rcases resolve_eq_error he with hobjects | ⟨d, defect, hdocument, hdefect, rfl⟩
    · exact Or.inl (isOwn_of_resolveObjects hobjects)
    · rw [((ofDocument_eq_error_iff hdocument).mp hdefect).1]
      exact Or.inr rfl
  · obtain ⟨d, hdocument, hlarge⟩ := resolve_eq_tooLarge_iff.mp he
    exact le_utf8ByteSize_of_large hdocument hlarge

/-- A source with characters of two bytes in a quoted name, a string and a comment, two `var` among
the members, an attribute line, and calls with an empty, a named and a nested argument. -/
def guardedSource : String :=
  "page 1 \"é\x7b\"\x7bvar A,B: Text;[Obsolete]\nprocedure P(var R: Record T)var C: Text;" ++
    "begin/*ü*/R.Insert(,N:=F(A,'ß)'),\"ñ\")end;var D: Text;\x7d"

theorem resolve_guardedSource : ∃ tree, Guarded.resolve "a.al" guardedSource = .ok (.ok tree) ∧
    tree.nodes.length = 16 ∧ tree.symbols.map (·.name) = ["é\x7b", "A", "B", "D", "P", "R", "C"] := by
  have h : (resolve "a.al" guardedSource).toOption.any (fun tree => decide (
      tree.nodes.length = 16 ∧
        tree.symbols.map (·.name) = ["é\x7b", "A", "B", "D", "P", "R", "C"])) = true := by
    decide +kernel
  have hsize : guardedSource.utf8ByteSize < 2 ^ 32 := by decide +kernel
  have hguarded := (resolve_without_fault "a.al" hsize).1
  obtain ⟨tree, htree, h⟩ := exists_ok_of_any h
  rw [htree] at hguarded
  exact ⟨tree, hguarded, of_decide_eq_true h⟩

end Source
end TreeLint
