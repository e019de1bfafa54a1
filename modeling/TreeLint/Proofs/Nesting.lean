/-
# Outlines that follow the text

The outline that the front end makes is nested: every node has an interval that
can be cut out of the source, behind the nodes before it, and what is below a
node lies in the node's interval. It also keeps to a grammar of kinds: objects
below the unit, routines below objects, a block below a routine, calls below a
block, operands and arguments below a call. Every call has as many parameters
as argument nodes.

Key definitions: `Source.Outline.Nested`, `NodeKind.holds`, `Source.Entry.Fits`.
Key theorems: `Source.nested_outlineCalls`, `Source.fits_outlineCalls`,
`Source.exists_nested_of_resolve`.
-/
import TreeLint.Proofs.Receivers

namespace TreeLint
namespace Source

namespace Outline

/-- The nodes at the top of the outline lie in the interval `w`, one behind the other, and what is
below each lies in its own interval. -/
def Nested (S : Cells) (t : Text) : Extent → Outline → Prop
  | _, .empty => True
  | w, .node e below next => ∃ r, e.span = t.span r ∧ S.Cuts r ∧ w.start ≤ r.start ∧
      r.stop ≤ w.stop ∧ Nested S t r below ∧ Nested S t ⟨r.stop, w.stop⟩ next

variable {S : Cells} {t : Text} {w w' : Extent} {o o' : Outline}

theorem Nested.mono (h : o.Nested S t w) (hstart : w'.start ≤ w.start) (hstop : w.stop ≤ w'.stop) :
    o.Nested S t w' := by
  induction o generalizing w w' with
  | empty => trivial
  | node e below next _ ih =>
    obtain ⟨r, hspan, hcuts, hle, hle', hbelow, hnext⟩ := h
    exact ⟨r, hspan, hcuts, by omega, by omega, hbelow, ih hnext le_rfl hstop⟩

/-- What is put together is nested when the second part comes behind the first. -/
theorem Nested.append {m : Nat} (h : o.Nested S t ⟨w.start, m⟩) (h' : o'.Nested S t ⟨m, w.stop⟩)
    (hle : w.start ≤ m) (hle' : m ≤ w.stop) : (o.append o').Nested S t w := by
  induction o generalizing w with
  | empty => exact h'.mono hle le_rfl
  | node e below next _ ih =>
    obtain ⟨r, hspan, hcuts, hstart, hstop, hbelow, hnext⟩ := h
    simp only at hstart hstop hnext
    exact ⟨r, hspan, hcuts, hstart, by omega, hbelow, ih hnext h' hstop hle'⟩

theorem Nested.single {e : Entry} {r : Extent} (hspan : e.span = t.span r) (hcuts : S.Cuts r)
    (hstart : w.start ≤ r.start) (hstop : r.stop ≤ w.stop) (h : o.Nested S t r) :
    (Outline.single e o).Nested S t w :=
  ⟨r, hspan, hcuts, hstart, hstop, h, trivial⟩

end Outline

/-! ### Calls -/

variable {S : Cells} {t : Text} {s : Scope}

/-- Where a receiver is written. -/
def Receiver.place? : Receiver → Option Extent
  | .declared _ r => some r
  | .static _ r => some r
  | .unknown r => some r
  | .absent => none
  | .implicit _ => none

/-- A receiver that is written stands where the call was found with one. -/
theorem receiver_of_target {call : Call} {place : Extent}
    (h : (s.target t call).receiver.place? = some place) : call.receiver = some place := by
  have hcases := resolves_target s t call
  generalize s.target t call = target at h hcases
  cases hcases with
  | onVariable hreceiver | onType hreceiver | onUnknown hreceiver =>
    cases h
    exact hreceiver
  | ownProcedure | globalMethod | recordMethod | unknownMethod => cases h

/-- Where the arguments of a call may start: behind its receiver. -/
def Call.receiverStop (call : Call) : Nat :=
  match call.receiver with
  | some r => r.stop
  | none => call.extent.start

theorem Call.Placed.receiverStop_bounds {call : Call} {w : Extent} (h : call.Placed S w) :
    call.extent.start ≤ call.receiverStop ∧ call.receiverStop ≤ call.extent.stop ∧
      ∀ a ∈ call.arguments, call.receiverStop ≤ a.start := by
  unfold receiverStop
  have hlt := h.lt
  cases hreceiver : call.receiver with
  | none => exact ⟨le_rfl, by simp only; omega, fun a ha => (h.argument a ha).2.1.le⟩
  | some r =>
    obtain ⟨hcuts, hstart, hstop, harguments⟩ := h.receiver r hreceiver
    have := hcuts.le
    exact ⟨by simp only; omega, by simp only; omega, harguments⟩

theorem nested_receiverOutline {call : Call} {w : Extent} (h : call.Placed S w) :
    (receiverOutline t s call (s.target t call).receiver).Nested S t
      ⟨call.extent.start, call.receiverStop⟩ := by
  have hplace : ∀ {r}, call.receiver = some r →
      S.Cuts r ∧ call.extent.start ≤ r.start ∧ r.stop ≤ call.receiverStop := by
    intro r hr
    obtain ⟨hcuts, hstart, -⟩ := h.receiver r hr
    rw [Call.receiverStop, hr]
    exact ⟨hcuts, hstart.le, le_rfl⟩
  obtain ⟨hstart, hstop, -⟩ := h.receiverStop_bounds
  cases hreceiver : (s.target t call).receiver with
  | absent => trivial
  | implicit v =>
    exact .single rfl ⟨le_rfl, h.cuts.start, h.cuts.start⟩ le_rfl hstart trivial
  | declared v r | static kind r | unknown r =>
    obtain ⟨hcuts, hle, hle'⟩ := hplace (receiver_of_target (by rw [hreceiver]; rfl))
    exact .single rfl hcuts hle hle' trivial

theorem nested_operandOutline {r : Extent} (hr : S.Cuts r) : (operandOutline t s r).Nested S t r := by
  unfold operandOutline
  simp only
  split
  · exact .single rfl hr le_rfl le_rfl trivial
  · exact .single rfl hr le_rfl le_rfl trivial

theorem map_boundArguments (parameters : List String) (call : Call) :
    (boundArguments t parameters call).map (·.2.1) = call.arguments := by
  simp only [boundArguments, List.map_map]
  exact List.zipIdx_map_fst 0 call.arguments

/-- The arguments of a call, each with its value at its end. -/
theorem mem_boundArguments (ht : t.Copies S) {parameters : List String} {call : Call} {w : Extent}
    (h : call.Placed S w) {x : Option String × Extent × Extent}
    (hx : x ∈ boundArguments t parameters call) :
    x.2.1 ∈ call.arguments ∧ S.Cuts x.2.1 ∧ S.Cuts x.2.2 ∧ x.2.1.start ≤ x.2.2.start ∧
      x.2.2.stop = x.2.1.stop := by
  obtain ⟨⟨r, i⟩, hr, rfl⟩ := List.mem_map.mp hx
  have hmem : r ∈ call.arguments := (List.mem_zipIdx' hr).2 ▸ List.getElem_mem _
  have hcuts := (h.argument r hmem).1
  exact ⟨hmem, hcuts, cuts_bindArgument ht hcuts parameters i⟩

theorem nested_argumentsOutline {later : List Call} {nested : Extent → Outline}
    (hnested : ∀ r, S.Cuts r → (nested r).Nested S t r)
    {l : List (Option String × Extent × Extent)} {w : Extent}
    (heach : ∀ x ∈ l, S.Cuts x.2.1 ∧ S.Cuts x.2.2 ∧ x.2.1.start ≤ x.2.2.start ∧
      x.2.2.stop = x.2.1.stop ∧ w.start ≤ x.2.1.start ∧ x.2.1.stop ≤ w.stop)
    (horder : (l.map (·.2.1)).Pairwise (·.stop < ·.start)) :
    (argumentsOutline t s later nested l).Nested S t w := by
  induction l generalizing w with
  | nil => trivial
  | cons x rest ih =>
    obtain ⟨p, r, value⟩ := x
    obtain ⟨hcuts, hvalue, hle, hstop, hstart, hstop'⟩ := heach _ List.mem_cons_self
    obtain ⟨hlater, horder'⟩ := List.pairwise_cons.mp horder
    refine ⟨r, rfl, hcuts, hstart, hstop', ?_, ih ?_ horder'⟩
    · -- the calls within the value, or else the operand
      simp only at hle hstop
      split
      · exact (hnested value hvalue).mono hle hstop.le
      · exact (nested_operandOutline hvalue).mono hle hstop.le
    · intro y hy
      obtain ⟨hcuts', hvalue', hle', hstop'', hstart', hend⟩ :=
        heach y (List.mem_cons_of_mem _ hy)
      have := hlater y.2.1 (List.mem_map_of_mem hy)
      exact ⟨hcuts', hvalue', hle', hstop'', this.le, hend⟩

/-- **The calls in an interval are nested in it**, whichever interval of the body it is. -/
theorem nested_outlineCalls (ht : t.Copies S) {body : Extent} {calls : List Call}
    (hcalls : ∀ call ∈ calls, call.Placed S body) (w : Extent) :
    (outlineCalls t s calls w).Nested S t w := by
  induction calls generalizing w with
  | nil => trivial
  | cons call later ih =>
    have hplaced := hcalls call List.mem_cons_self
    have hlater : ∀ w, (outlineCalls t s later w).Nested S t w :=
      ih fun c hc => hcalls c (List.mem_cons_of_mem _ hc)
    rw [outlineCalls]
    split
    · exact hlater w
    · rename_i hwithin
      obtain ⟨hstart, hstop, hafter⟩ := hplaced.receiverStop_bounds
      refine ⟨call.extent, rfl, hplaced.cuts, by omega, by omega, ?_, hlater _⟩
      refine (nested_receiverOutline hplaced).append ?_ hstart hstop
      refine nested_argumentsOutline (fun r _ => hlater r) ?_ ?_
      · intro x hx
        obtain ⟨hmem, hcuts, hvalue, hle, hle'⟩ := mem_boundArguments ht hplaced hx
        exact ⟨hcuts, hvalue, hle, hle', hafter _ hmem, (hplaced.argument _ hmem).2.2.le⟩
      · rw [map_boundArguments]
        exact hplaced.order

/-! ### Routines and objects -/

theorem nested_resolveRoutine (ht : t.Copies S) {members : Extent} {r : Routine}
    (hr : r.Placed S t.bare members) (object first : SymbolId) (globals : List Variable)
    (procedures : List String) {w : Extent} (hstart : w.start ≤ r.header)
    (hstop : r.extent.stop ≤ w.stop) :
    (resolveRoutine t object first globals procedures r).2.Nested S t w := by
  refine .single rfl hr.cuts hstart hstop ?_
  cases hbody : r.body with
  | none => trivial
  | some body =>
    obtain ⟨hcuts, hlt, hend⟩ := hr.body body hbody
    exact .single rfl hcuts hlt.le hend.le
      (nested_outlineCalls ht (fun call hcall => placed_of_mem_calls ht hcuts hcall) body)

theorem nested_resolveRoutines (ht : t.Copies S) {members : Extent} {rs : List Routine}
    (hrs : ∀ r ∈ rs, r.Placed S t.bare members) (horder : rs.Pairwise (·.extent.stop ≤ ·.header))
    (object first : SymbolId) (globals : List Variable) (procedures : List String) {w : Extent}
    (hstart : ∀ r ∈ rs, w.start ≤ r.header) (hstop : members.stop ≤ w.stop) :
    (resolveRoutines t object globals procedures first rs).2.Nested S t w := by
  induction rs generalizing first w with
  | nil => trivial
  | cons r rs ih =>
    have hplaced := hrs r List.mem_cons_self
    have hlt := hplaced.lt
    have hle := hplaced.stop_le
    have hle' := hstart r List.mem_cons_self
    obtain ⟨hlater, horder'⟩ := List.pairwise_cons.mp horder
    refine .append (m := r.extent.stop)
      (nested_resolveRoutine ht hplaced object first globals procedures hle' le_rfl)
      ?_ (by omega) (by omega)
    exact ih (fun r' hr' => hrs r' (List.mem_cons_of_mem _ hr')) horder' _ hlater hstop

theorem nested_resolveObject (ht : t.Copies S) {o : ObjectSite} (ho : o.Placed S) {first : SymbolId}
    {symbols : List Symbol} {outline : Outline} (h : resolveObject t first o = .ok (symbols, outline)) :
    outline.Nested S t ⟨o.start, o.closing + 1⟩ := by
  unfold resolveObject at h
  split at h
  · cases h
  · rename_i rs hrs
    cases h
    have hstart := ho.start_lt
    obtain ⟨hplaced, horder⟩ := placed_routines ht ho.members hrs
    refine .single rfl ho.cuts le_rfl le_rfl
      (nested_resolveRoutines ht hplaced horder _ _ _ _ ?_ (by simp [ObjectSite.members]))
    intro r hr
    have := (hplaced r hr).start_le
    simp only [ObjectSite.members] at this ⊢
    omega

/-- **The objects of a text are nested in what comes after `resume`.** -/
theorem nested_resolveObjects (ht : t.Copies S) {hs : List (Found ObjectHeader)}
    (hfound : ∀ h ∈ hs, objectHeader.FoundFrom t.bare 0 t.length h) {resume : Nat}
    {first : SymbolId} {symbols : List Symbol} {outline : Outline}
    (h : resolveObjects t resume first hs = .ok (symbols, outline)) :
    outline.Nested S t ⟨resume, t.length⟩ := by
  refine resolveObjects_induction ht
    (motive := fun resume _ _ outline => outline.Nested S t ⟨resume, t.length⟩)
    (fun _ _ => trivial) ?_ hfound h
  intro resume first site symbols outline symbols' outline' hplaced hstart hobject hrest
  have hlength : site.closing + 1 ≤ t.length := by
    have := hplaced.cuts.stop_le
    rwa [← ht.bare.length_eq] at this
  have hlt := hplaced.start_lt
  have hlt' := hplaced.lt
  refine .append (m := site.closing + 1) ?_ hrest (by simp only; omega) hlength
  exact (nested_resolveObject ht hplaced hobject).mono hstart le_rfl

/-! ### What stands below what -/

end Source

/-- A kind of node with nothing below it. -/
def NodeKind.isOperand (k : NodeKind) : Bool :=
  [localReference, globalReference, parameterReference, typeReference, identifier, literal].contains k

/-- Which kinds of nodes stand directly below a node. -/
def NodeKind.holds : NodeKind → NodeKind → Bool
  | .compilationUnit, k => k == .objectDeclaration
  | .objectDeclaration, k => k == .methodDeclaration || k == .triggerDeclaration
  | .methodDeclaration, k => k == .block
  | .triggerDeclaration, k => k == .block
  | .block, k => k == .invocationExpression
  | .invocationExpression, k => k == .argument || k.isOperand
  | .argument, k => k == .invocationExpression || k.isOperand
  | _, _ => false

namespace Source

namespace Outline

variable {o o' : Outline} {P Q : Entry → Prop}

theorem TopAll.mono (h : o.TopAll P) (hPQ : ∀ e, P e → Q e) : o.TopAll Q := by
  induction o with
  | empty => trivial
  | node e _ next _ ih => exact ⟨hPQ e h.1, ih h.2⟩

theorem TopAll.append (h : o.TopAll P) (h' : o'.TopAll P) : (o.append o').TopAll P := by
  induction o with
  | empty => exact h'
  | node e _ next _ ih => exact ⟨h.1, ih h.2⟩

/-- How many argument nodes an outline has at its top. -/
def argumentCount (o : Outline) : Nat := (o.argumentIds 0).length

theorem length_argumentIds (o : Outline) (first : Nat) :
    (o.argumentIds first).length = o.argumentCount := by
  suffices h : ∀ a b, (o.argumentIds a).length = (o.argumentIds b).length from h first 0
  induction o with
  | empty => exact fun _ _ => rfl
  | node e below next _ ih =>
    intro a b
    simp only [argumentIds]
    split
    · simp only [List.length_cons]
      rw [ih _ (b + 1 + below.size)]
    · exact ih _ _

theorem argumentCount_node (e : Entry) (below next : Outline) :
    (node e below next).argumentCount =
      (if e.kind = .argument then 1 else 0) + next.argumentCount := by
  rw [argumentCount, argumentIds]
  split
  · rw [List.length_cons, length_argumentIds]
    omega
  · rw [length_argumentIds]
    omega

theorem argumentCount_append : (o.append o').argumentCount = o.argumentCount + o'.argumentCount := by
  induction o with
  | empty => simp [append, argumentCount, argumentIds]
  | node e below next _ ih =>
    rw [append, argumentCount_node, argumentCount_node, ih]
    omega

end Outline

/-- What stands below an entry is of a kind that belongs there; a call has a method, as many
parameters as argument nodes, and its arguments behind its start; a block has the calls of its body
below it. -/
structure Entry.Fits (t : Text) (e : Entry) (below : Outline) : Prop where
  holds : below.TopAll fun x => e.kind.holds x.kind = true
  target : e.kind = .invocationExpression ↔ e.target.isSome = true
  bound : ∀ target, e.target = some target → target.2.length = below.argumentCount
  behind : e.kind = .invocationExpression → e.span.startByte < e.span.endByte ∧
    below.TopAll fun x => x.kind = .argument → e.span.startByte < x.span.startByte
  block : e.kind = .block → ∃ s body, e.span = t.span body ∧ (body.start < body.stop ∧
    ∃ x, t.bare[body.start]? = some x ∧ x.isWord = true) ∧
    below = outlineCalls t s (t.calls body) body

/-- An entry that is neither a call nor a block fits what belongs below it. -/
theorem Entry.Fits.plain {e : Entry} {below : Outline} (htarget : e.target = none)
    (hkind : e.kind ≠ .invocationExpression ∧ e.kind ≠ .block)
    (h : below.TopAll fun x => e.kind.holds x.kind = true) : e.Fits t below where
  holds := h
  target := by simp [htarget, hkind.1]
  bound := by simp [htarget]
  behind := fun hcall => absurd hcall hkind.1
  block := fun hblock => absurd hblock hkind.2

theorem Entry.Fits.operand {e : Entry} (htarget : e.target = none) (h : e.kind.isOperand = true) :
    e.Fits t .empty := by
  refine .plain htarget ⟨?_, ?_⟩ trivial
  · intro hkind
    rw [hkind] at h
    revert h
    decide
  · intro hkind
    rw [hkind] at h
    revert h
    decide

theorem Variable.isOperand_referenceKind (v : Variable) : v.referenceKind.isOperand = true := by
  unfold referenceKind
  split <;> decide

/-- A receiver or an operand: nothing, or one node with nothing below it. -/
structure Outline.OperandOnly (t : Text) (o : Outline) : Prop where
  all : o.All (Entry.Fits t)
  top : o.TopAll (·.kind.isOperand = true)
  count : o.argumentCount = 0

theorem Outline.OperandOnly.single {e : Entry} (htarget : e.target = none)
    (h : e.kind.isOperand = true) : (Outline.single e .empty).OperandOnly t := by
  refine ⟨.single (.operand htarget h) trivial, ⟨h, trivial⟩, ?_⟩
  have hne : e.kind ≠ .argument := by
    intro hkind
    rw [hkind] at h
    revert h
    decide
  rw [Outline.single, Outline.argumentCount_node, if_neg hne]
  rfl

theorem operandOnly_receiverOutline (call : Call) (r : Receiver) :
    (receiverOutline t s call r).OperandOnly t := by
  cases r with
  | absent => exact ⟨trivial, trivial, rfl⟩
  | declared v place => exact .single rfl v.isOperand_referenceKind
  | implicit v => exact .single rfl v.isOperand_referenceKind
  | static kind place => exact .single rfl rfl
  | unknown place => exact .single rfl rfl

theorem operandOnly_operandOutline (r : Extent) : (operandOutline t s r).OperandOnly t := by
  simp only [operandOutline]
  split
  · rename_i v _
    exact .single rfl v.isOperand_referenceKind
  · exact .single rfl rfl

theorem topAll_outlineCalls (calls : List Call) (w : Extent) :
    (outlineCalls t s calls w).TopAll (·.kind = .invocationExpression) := by
  induction calls generalizing w with
  | nil => trivial
  | cons call later ih =>
    rw [outlineCalls]
    split
    · exact ih w
    · exact ⟨rfl, ih _⟩

theorem argumentCount_argumentsOutline (later : List Call) (nested : Extent → Outline)
    (l : List (Option String × Extent × Extent)) :
    (argumentsOutline t s later nested l).argumentCount = l.length := by
  induction l with
  | nil => rfl
  | cons x rest ih =>
    have hkind : (plainEntry .argument (t.span x.2.1) s.routine).kind = .argument := rfl
    rw [argumentsOutline, Outline.argumentCount_node, ih, if_pos hkind, List.length_cons]
    omega

theorem fits_argumentsOutline {later : List Call} {nested : Extent → Outline}
    (h : ∀ value, (nested value).All (Entry.Fits t))
    (htop : ∀ value, (nested value).TopAll (·.kind = .invocationExpression))
    (l : List (Option String × Extent × Extent)) :
    (argumentsOutline t s later nested l).All (Entry.Fits t) := by
  induction l with
  | nil => trivial
  | cons x rest ih =>
    obtain ⟨p, r, value⟩ := x
    rw [argumentsOutline]
    split
    · refine ⟨.plain rfl ⟨nofun, nofun⟩ ((htop value).mono ?_), h value, ih⟩
      intro e he
      rw [he]
      rfl
    · have hoperand := operandOnly_operandOutline (t := t) (s := s) value
      refine ⟨.plain rfl ⟨nofun, nofun⟩ (hoperand.top.mono ?_), hoperand.all, ih⟩
      intro e he
      simp [plainEntry, NodeKind.holds, he]

theorem topAll_arguments_behind {later : List Call} {nested : Extent → Outline} {pos : Nat}
    {l : List (Option String × Extent × Extent)} (h : ∀ x ∈ l, pos < x.2.1.start) :
    (argumentsOutline t s later nested l).TopAll (pos < ·.span.startByte) := by
  induction l with
  | nil => trivial
  | cons x rest ih =>
    exact ⟨h x List.mem_cons_self, ih fun y hy => h y (List.mem_cons_of_mem _ hy)⟩

theorem fits_outlineCalls (ht : t.Copies S) {body : Extent} {calls : List Call}
    (hcalls : ∀ call ∈ calls, call.Placed S body) (w : Extent) :
    (outlineCalls t s calls w).All (Entry.Fits t) := by
  induction calls generalizing w with
  | nil => trivial
  | cons call later ih =>
    have hplaced := hcalls call List.mem_cons_self
    have hlater : ∀ w, (outlineCalls t s later w).All (Entry.Fits t) :=
      ih fun c hc => hcalls c (List.mem_cons_of_mem _ hc)
    rw [outlineCalls]
    split
    · exact hlater w
    · have hreceiver := operandOnly_receiverOutline (t := t) (s := s) call (s.target t call).receiver
      refine ⟨⟨?_, by simp [plainEntry], ?_, fun _ => ⟨hplaced.lt, ?_⟩, nofun⟩, hreceiver.all.append
        (fits_argumentsOutline hlater (topAll_outlineCalls later) _), hlater _⟩
      · refine (hreceiver.top.mono ?_).append ((topAll_argumentsOutline _ _ _).mono ?_)
        · intro e he
          simp [plainEntry, NodeKind.holds, he]
        · intro e he
          simp [plainEntry, NodeKind.holds, he]
      · rintro target htarget
        cases htarget
        rw [Outline.argumentCount_append, hreceiver.count, argumentCount_argumentsOutline,
          List.length_map]
        omega
      · refine (hreceiver.top.mono ?_).append ((topAll_arguments_behind ?_).mono fun _ hlt _ => hlt)
        · intro e he hkind
          rw [hkind] at he
          exact absurd he (by decide)
        · intro x hx
          exact (hplaced.argument _ (mem_boundArguments ht hplaced hx).1).2.1

theorem RoutineKind.nodeKind_cases (k : RoutineKind) :
    (k.nodeKind ≠ .invocationExpression ∧ k.nodeKind ≠ .block) ∧
      k.nodeKind.holds .block = true ∧ NodeKind.objectDeclaration.holds k.nodeKind = true := by
  cases k <;> decide

theorem fits_resolveRoutine (ht : t.Copies S) {members : Extent} {r : Routine} (hr : r.Placed S t.bare members)
    (object first : SymbolId) (globals : List Variable) (procedures : List String) :
    (resolveRoutine t object first globals procedures r).2.All (Entry.Fits t) := by
  obtain ⟨hkind, hholds, -⟩ := r.kind.nodeKind_cases
  cases hbody : r.body with
  | none =>
    simp only [resolveRoutine, hbody]
    exact .single (.plain rfl hkind trivial) trivial
  | some body =>
    simp only [resolveRoutine, hbody]
    have hcalls : ∀ call ∈ t.calls body, call.Placed S body := fun call hcall =>
      placed_of_mem_calls ht (hr.body body hbody).1 hcall
    refine .single (.plain rfl hkind ⟨hholds, trivial⟩) (.single ?_ (fits_outlineCalls ht hcalls _))
    refine ⟨(topAll_outlineCalls _ _).mono ?_, by simp [plainEntry], nofun, nofun, fun _ =>
      ⟨_, body, rfl, hr.begins body hbody, rfl⟩⟩
    intro e he
    rw [he]
    rfl

theorem fits_resolveRoutines (ht : t.Copies S) {members : Extent} {rs : List Routine}
    (hrs : ∀ r ∈ rs, r.Placed S t.bare members) (object first : SymbolId) (globals : List Variable)
    (procedures : List String) :
    (resolveRoutines t object globals procedures first rs).2.All (Entry.Fits t) ∧
      (resolveRoutines t object globals procedures first rs).2.TopAll fun e =>
        NodeKind.objectDeclaration.holds e.kind = true := by
  induction rs generalizing first with
  | nil => exact ⟨trivial, trivial⟩
  | cons r rs ih =>
    obtain ⟨hall, htop⟩ := ih (fun r' hr' => hrs r' (List.mem_cons_of_mem _ hr')) _
    refine ⟨(fits_resolveRoutine ht (hrs r List.mem_cons_self) object first globals procedures).append
      hall, ?_⟩
    have hone : (resolveRoutine t object first globals procedures r).2.TopAll fun e =>
        NodeKind.objectDeclaration.holds e.kind = true :=
      ⟨r.kind.nodeKind_cases.2.2, trivial⟩
    exact hone.append htop

theorem fits_resolveObject (ht : t.Copies S) {o : ObjectSite} (ho : o.Placed S) {first : SymbolId}
    {symbols : List Symbol} {outline : Outline} (h : resolveObject t first o = .ok (symbols, outline)) :
    outline.All (Entry.Fits t) ∧ outline.TopAll (·.kind = .objectDeclaration) := by
  unfold resolveObject at h
  split at h
  · cases h
  · rename_i rs hrs
    cases h
    obtain ⟨hplaced, -⟩ := placed_routines ht ho.members hrs
    obtain ⟨hall, htop⟩ := fits_resolveRoutines ht hplaced _ _ _ _
    exact ⟨.single (.plain rfl ⟨nofun, nofun⟩ htop) hall, rfl, trivial⟩

theorem fits_resolveObjects (ht : t.Copies S) {hs : List (Found ObjectHeader)}
    (hfound : ∀ h ∈ hs, objectHeader.FoundFrom t.bare 0 t.length h) {resume : Nat}
    {first : SymbolId} {symbols : List Symbol} {outline : Outline}
    (h : resolveObjects t resume first hs = .ok (symbols, outline)) :
    outline.All (Entry.Fits t) ∧ outline.TopAll (·.kind = .objectDeclaration) := by
  refine resolveObjects_induction ht
    (motive := fun _ _ _ outline =>
      outline.All (Entry.Fits t) ∧ outline.TopAll (·.kind = .objectDeclaration))
    (fun _ _ => ⟨trivial, trivial⟩) ?_ hfound h
  intro resume first site symbols outline symbols' outline' hplaced _ hobject hrest
  obtain ⟨hall, htop⟩ := fits_resolveObject ht hplaced hobject
  exact ⟨hall.append hrest.1, htop.append hrest.2⟩

section Unit

variable {source : String} {symbols : List Symbol} {objects : Outline}
  (hobjects : resolveObjects (Text.ofCells (Cells.ofString source)) 0 0
    (objectHeader.all ⟨none, 0, (Text.ofCells (Cells.ofString source)).bare⟩) =
      .ok (symbols, objects))
include hobjects

theorem nested_unitOutline : (unitOutline source objects).Nested (Cells.ofString source)
    (Text.ofCells (Cells.ofString source)) ⟨0, source.utf8ByteSize⟩ := by
  have hwhole := Cells.whole_ofString source
  have hcopies := Text.copies_ofCells hwhole
  have hnested := nested_resolveObjects hcopies
    (fun _ hmem => foundFrom_of_mem_headers hcopies hmem) hobjects
  rw [Text.length_ofString] at hnested
  refine .single rfl ⟨Nat.zero_le _, hwhole.isBoundary_zero, ?_⟩ le_rfl le_rfl hnested
  rw [← Cells.length_ofString]
  exact Cells.isBoundary_length _

theorem fits_unitOutline : (unitOutline source objects).All
    (Entry.Fits (Text.ofCells (Cells.ofString source))) := by
  have hcopies := Text.copies_ofCells (Cells.whole_ofString source)
  obtain ⟨hall, htop⟩ := fits_resolveObjects hcopies
    (fun _ hmem => foundFrom_of_mem_headers hcopies hmem) hobjects
  refine .single (.plain rfl ⟨by rintro ⟨⟩, by rintro ⟨⟩⟩ (htop.mono ?_)) hall
  intro e he
  rw [he]
  rfl

end Unit

/-- **The tree of a source text is made from a nested outline** whose nodes fit what is below
them. -/
theorem exists_nested_of_resolve {path source : String} {tree : Tree}
    (h : resolve path source = .ok tree) : ∃ doc objects, Tree.ofDocument doc = .ok tree ∧
      doc.source = some source ∧ tree.nodes = (unitOutline source objects).nodesFrom none 0 ∧
      (unitOutline source objects).Nested (Cells.ofString source)
        (Text.ofCells (Cells.ofString source)) ⟨0, source.utf8ByteSize⟩ ∧
      (unitOutline source objects).All (Entry.Fits (Text.ofCells (Cells.ofString source))) := by
  obtain ⟨doc, objects, hdoc, hsource, hobjects, hnodes⟩ := exists_objects_of_resolve h
  exact ⟨doc, objects, hdoc, hsource, hnodes, nested_unitOutline hobjects, fits_unitOutline hobjects⟩

end Source
end TreeLint
