/-
# Nodes in a text with lines put in

The nodes of a text with lines put in are the nodes of the text, with their spans
moved; the name of a call may be spread over further lines. Outlines are compared
node by node, and the comparison is carried over to the numbered nodes, where the
names of calls are the same if they stand on one line.

Key definitions: `Entry.Spreads`, `Outline.Spreads`, `Node.moved`.
Key theorems: `Source.outlineCalls_of_widens`, `Outline.Spreads.nodesFrom`.
-/
import TreeLint.Proofs.WidenedCalls

namespace TreeLint

/-- The node with its span moved. -/
def Node.moved (move : Span → Span) (n : Node) : Node := { n with span := move n.span }

/-- The name of the method that the node calls, if it is a call, stands on one line. -/
def Node.OnOneLine (n : Node) : Prop :=
  ∀ call, n.invocation = some call → '\n' ∉ call.method.name.toList

namespace Source

/-- The node is the same up to its span and the lines of the name it calls. -/
structure Entry.Spreads (move : Span → Span) (a b : Entry) : Prop where
  kind : b.kind = a.kind
  span : b.span = move a.span
  symbol : b.symbol = a.symbol
  resolvedType : b.resolvedType = a.resolvedType
  containingSymbol : b.containingSymbol = a.containingSymbol
  target : Option.Rel (fun x y => Name.SpreadsTo x.1.name y.1.name ∧ y.1.kind = x.1.kind ∧ y.2 = x.2)
    a.target b.target

namespace Outline

/-- The nodes are the same, one by one, up to their spans and the lines of the names they call. -/
inductive Spreads (move : Span → Span) : Outline → Outline → Prop
  | empty : Spreads move .empty .empty
  | node {e e' : Entry} {below below' next next' : Outline} (entry : e.Spreads move e')
      (hbelow : Spreads move below below') (hnext : Spreads move next next') :
      Spreads move (.node e below next) (.node e' below' next')

namespace Spreads

variable {move : Span → Span} {o o' p p' : Outline}

theorem single {e e' : Entry} (h : e.Spreads move e') (ho : o.Spreads move o') :
    (Outline.single e o).Spreads move (Outline.single e' o') :=
  .node h ho .empty

theorem append (h : o.Spreads move o') (hp : p.Spreads move p') :
    (o.append p).Spreads move (o'.append p') := by
  induction h with
  | empty => exact hp
  | node entry hbelow hnext _ ih => exact .node entry hbelow ih

theorem size (h : o.Spreads move o') : o'.size = o.size := by
  induction h with
  | empty => rfl
  | node _ _ _ ihbelow ihnext => rw [Outline.size, Outline.size, ihbelow, ihnext]

theorem argumentIds (h : o.Spreads move o') (first : NodeId) :
    o'.argumentIds first = o.argumentIds first := by
  induction h generalizing first with
  | empty => rfl
  | node entry hbelow _ _ ihnext =>
    rw [Outline.argumentIds, Outline.argumentIds, entry.kind, hbelow.size, ihnext]

/-- **The numbered nodes are the same with their spans moved**, if the names they call stand on one
line. -/
theorem nodesFrom (h : o.Spreads move o') (parent : Option NodeId) (first : NodeId)
    (hline : ∀ n ∈ o.nodesFrom parent first, n.OnOneLine) :
    o'.nodesFrom parent first = (o.nodesFrom parent first).map (Node.moved move) := by
  induction h generalizing parent first with
  | empty => rfl
  | @node e e' below below' next next' entry hbelow _ ihbelow ihnext =>
    rw [Outline.nodesFrom] at hline
    have hone := hline _ List.mem_cons_self
    rw [Outline.nodesFrom, Outline.nodesFrom, List.map_cons, List.map_append, hbelow.size,
      ihbelow _ _ fun n hn => hline n (List.mem_cons_of_mem _ (List.mem_append_left _ hn)),
      ihnext _ _ fun n hn => hline n (List.mem_cons_of_mem _ (List.mem_append_right _ hn))]
    refine congrArg (· :: _) ?_
    have hinvocation : e'.target.map (fun a => invocationOf a (below'.argumentIds (first + 1))) =
        e.target.map fun a => invocationOf a (below.argumentIds (first + 1)) := by
      rw [hbelow.argumentIds]
      have htarget := entry.target
      rw [Node.OnOneLine, toNode] at hone
      generalize e.target = a at htarget hone ⊢
      generalize e'.target = b at htarget ⊢
      cases htarget with
      | none => rfl
      | @some a b htarget =>
        obtain ⟨⟨name, kind⟩, parameters⟩ := a
        obtain ⟨⟨name', kind'⟩, parameters'⟩ := b
        obtain ⟨hname, rfl, rfl⟩ := htarget
        rw [show name' = name from hname.eq (hone _ rfl)]
    simp only [toNode, Node.moved]
    rw [hinvocation, entry.kind, entry.span, entry.symbol, entry.resolvedType, entry.containingSymbol]

end Spreads
end Outline

/-! ### The nodes of calls -/

section Calls

variable {push : Nat → Nat} {move : Span → Span} {t t' : Text} (h : t.Widens push move t') (s : Scope)
include h

omit h in
/-- A node that is no call is the same with its span moved. -/
theorem spreads_of_span {e e' : Entry} (he : e' = { e with span := move e.span })
    (htarget : e.target = none) : e.Spreads move e' := by
  subst he
  exact ⟨rfl, rfl, rfl, rfl, rfl, by rw [htarget]; exact .none⟩

theorem spreads_plainEntry (kind : NodeKind) (r : Extent) (routine : SymbolId) :
    (plainEntry kind (t.span r) routine).Spreads move
      (plainEntry kind (t'.span (r.map push)) routine) :=
  spreads_of_span (by rw [h.span]; rfl) rfl

theorem spreads_reference (v : Variable) (r : Extent) :
    (v.reference (t.span r) s.routine).Spreads move (v.reference (t'.span (r.map push)) s.routine) :=
  spreads_of_span (by rw [h.span]; rfl) rfl

theorem receiverOutline_of_widens {a b : Call} (hab : a.Widens push b) (receiver : Receiver) :
    (receiverOutline t s a receiver).Spreads move (receiverOutline t' s b (receiver.map push)) := by
  cases receiver with
  | absent => exact .empty
  | declared v place => exact .single (spreads_reference h s v place) .empty
  | implicit v =>
    rw [receiverOutline, Receiver.map, receiverOutline, hab.extent]
    exact .single (spreads_reference h s v ⟨a.extent.start, a.extent.start⟩) .empty
  | static kind place => exact .single (spreads_of_span (by rw [h.span]; rfl) rfl) .empty
  | unknown place => exact .single (spreads_plainEntry h .identifier place s.routine) .empty

variable {s} (hs : s.OnOneLine)
include hs

theorem operandOutline_of_widens (r : Extent) :
    (operandOutline t s r).Spreads move (operandOutline t' s (r.map push)) := by
  have htrim := (h.slice_masked r).spreads.trim
  have hreferent : (if isIdentifier (t'.masked.slice (r.map push)).trim then
        s.lookup? (t'.masked.slice (r.map push)).trim.text else none) =
      if isIdentifier (t.masked.slice r).trim then s.lookup? (t.masked.slice r).trim.text else none := by
    rw [isIdentifier_of_spreads htrim, lookup?_of_spreads htrim.toList_text hs]
  rw [operandOutline, operandOutline, hreferent]
  split
  · exact .single (spreads_reference h s _ r) .empty
  · exact .single (spreads_plainEntry h .literal r s.routine) .empty

omit hs in
theorem boundArguments_of_widens (parameters : List String) {a b : Call} (hab : a.Widens push b) :
    boundArguments t' parameters b = (boundArguments t parameters a).map
      fun (p, r, value) => (p, r.map push, value.map push) := by
  rw [boundArguments, boundArguments, hab.arguments, List.zipIdx_map, List.map_map, List.map_map]
  refine List.map_congr_left fun (r, i) _ => ?_
  show ((bindArgument t' parameters i (r.map push)).1, r.map push,
    (bindArgument t' parameters i (r.map push)).2) = _
  rw [bindArgument_of_widens h]
  rfl

omit hs in
theorem any_within_of_widens {calls calls' : List Call}
    (hcalls : List.Forall₂ (Call.Widens push) calls calls') (value : Extent) :
    (calls'.any fun c => (value.map push).start ≤ c.extent.start &&
        c.extent.stop ≤ (value.map push).stop) =
      calls.any fun c => value.start ≤ c.extent.start && c.extent.stop ≤ value.stop := by
  induction hcalls with
  | nil => rfl
  | cons hab _ ih =>
    rw [List.any_cons, List.any_cons, ih, hab.extent]
    simp only [Extent.map, h.mono.le_iff_le]

theorem argumentsOutline_of_widens {later later' : List Call} {nested nested' : Extent → Outline}
    (hlater : List.Forall₂ (Call.Widens push) later later')
    (hnested : ∀ value, (nested value).Spreads move (nested' (value.map push)))
    (arguments : List (Option String × Extent × Extent)) :
    (argumentsOutline t s later nested arguments).Spreads move
      (argumentsOutline t' s later' nested'
        (arguments.map fun (p, r, value) => (p, r.map push, value.map push))) := by
  induction arguments with
  | nil => exact .empty
  | cons argument arguments ih =>
    obtain ⟨p, r, value⟩ := argument
    rw [List.map_cons, argumentsOutline, argumentsOutline, any_within_of_widens h hlater]
    refine .node (spreads_plainEntry h .argument r s.routine) ?_ ih
    split
    · exact hnested value
    · exact operandOutline_of_widens h hs value

/-- **The nodes of calls** are the same, with their spans moved. -/
theorem outlineCalls_of_widens {calls calls' : List Call}
    (hcalls : List.Forall₂ (Call.Widens push) calls calls') (within : Extent) :
    (outlineCalls t s calls within).Spreads move (outlineCalls t' s calls' (within.map push)) := by
  induction hcalls generalizing within with
  | nil => exact .empty
  | @cons a b later later' hab hlater ih =>
    have houtside : (b.extent.start < (within.map push).start ∨
        (within.map push).stop < b.extent.stop) ↔
        (a.extent.start < within.start ∨ within.stop < a.extent.stop) := by
      rw [hab.extent]
      exact or_congr h.mono.lt_iff_lt h.mono.lt_iff_lt
    rw [outlineCalls, outlineCalls]
    simp only [houtside]
    split
    · exact ih within
    · have htarget := target_of_widens h hs hab
      have harguments := boundArguments_of_widens h (s.target t a).parameters hab
      rw [htarget]
      simp only [Target.map]
      rw [harguments]
      refine .node ?_ (.append (receiverOutline_of_widens h s hab _) ?_) ?_
      · refine ⟨rfl, ?_, rfl, rfl, rfl, .some ⟨hab.method, rfl, ?_⟩⟩
        · rw [hab.extent]
          exact h.span a.extent
        · rw [List.map_map]
          rfl
      · exact argumentsOutline_of_widens h hs hlater (fun value => ih value) _
      · rw [hab.extent]
        exact ih ⟨a.extent.stop, within.stop⟩

end Calls
end Source
end TreeLint
