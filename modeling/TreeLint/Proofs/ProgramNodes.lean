/-
# The nodes of a codeunit written one construct per line

No call of such a codeunit lies in another one, so the nodes of a body are its
calls one behind the other, each with the record it is called on and one operand
for each argument below it (`Source.callList`). A call leaves open whether
triggers run exactly if its statement does and its procedure is not obsolete.

Key definitions: `Source.callEntry`, `Source.callBelow`, `Source.callList`,
`Program.Procedure.scope`, `Program.Statement.ReadAt`.
Key theorems: `Source.outlineCalls_eq_callList`, `Program.target_callAt`,
`Program.Statement.leavesOpen_iff`, `Program.leavesTriggerOpen_callAt_iff`.
-/
import TreeLint.Proofs.BuiltinRules
import TreeLint.Proofs.CallTrees
import TreeLint.Proofs.ProgramCalls

namespace TreeLint
namespace Source

variable {t : Text} {s : Scope} {S : Cells} {body : Extent} {calls : List Call}

/-! ### Calls one behind the other -/

/-- The node of a call. -/
def callEntry (t : Text) (s : Scope) (call : Call) : Entry :=
  let target := s.target t call
  { plainEntry .invocationExpression (t.span call.extent) s.routine with
    target := some (⟨call.method, target.kind⟩,
      (boundArguments t target.parameters call).map (·.1)) }

/-- What is below a call when no other call lies in it. -/
def callBelow (t : Text) (s : Scope) (call : Call) : Outline :=
  let target := s.target t call
  (receiverOutline t s call target.receiver).append
    (argumentsOutline t s [] (fun _ => .empty) (boundArguments t target.parameters call))

/-- The nodes of calls none of which lies in another one. -/
def callList (t : Text) (s : Scope) : List Call → Outline
  | [] => .empty
  | call :: later => .node (callEntry t s call) (callBelow t s call) (callList t s later)

theorem argumentsOutline_of_apart {later : List Call} (nested : Extent → Outline)
    {l : List (Option String × Extent × Extent)}
    (h : ∀ x ∈ l, ∀ c ∈ later, x.2.2.stop < c.extent.stop) :
    argumentsOutline t s later nested l = argumentsOutline t s [] (fun _ => .empty) l := by
  induction l with
  | nil => rfl
  | cons x rest ih =>
    have hany : later.any (fun c => decide (x.2.2.start ≤ c.extent.start) &&
        decide (c.extent.stop ≤ x.2.2.stop)) = false := by
      rw [List.any_eq_false]
      intro c hc
      have hlt := h x List.mem_cons_self c hc
      simp only [Bool.and_eq_true, decide_eq_true_eq, not_and]
      omega
    rw [argumentsOutline, argumentsOutline, hany, ih fun y hy => h y (List.mem_cons_of_mem x hy)]
    rfl

/-- **Calls one behind the other have their nodes one behind the other.** -/
theorem outlineCalls_eq_callList (ht : t.Copies S) (hplaced : ∀ c ∈ calls, c.Placed S body)
    (hapart : calls.Pairwise (·.extent.stop ≤ ·.extent.start)) {w : Extent}
    (hw : ∀ c ∈ calls, w.Covers c.extent) : outlineCalls t s calls w = callList t s calls := by
  induction calls generalizing w with
  | nil => rfl
  | cons call later ih =>
    obtain ⟨hbehind, hlater⟩ := List.pairwise_cons.mp hapart
    have hcall := hplaced call List.mem_cons_self
    have hplaced' : ∀ c ∈ later, c.Placed S body := fun c hc => hplaced c (List.mem_cons_of_mem _ hc)
    have hcovers := hw call List.mem_cons_self
    have harguments : ∀ parameters, ∀ x ∈ boundArguments t parameters call, ∀ c ∈ later,
        x.2.2.stop < c.extent.stop := by
      intro parameters x hx c hc
      obtain ⟨hmem, -, -, -, hstop⟩ := mem_boundArguments ht hcall hx
      have hinside := (hcall.argument _ hmem).2.2
      have hlt := (hplaced' c hc).lt
      have hle := hbehind c hc
      omega
    have hrest : ∀ c ∈ later, Extent.Covers ⟨call.extent.stop, w.stop⟩ c.extent :=
      fun c hc => ⟨hbehind c hc, (hw c (List.mem_cons_of_mem _ hc)).2⟩
    rw [outlineCalls, if_neg (by have := hcovers.1; have := hcovers.2; omega),
      ih hplaced' hlater hrest]
    simp only [argumentsOutline_of_apart _ (harguments _)]
    rfl

/-! ### What is below a call -/

theorem size_argumentsOutline_of_apart (l : List (Option String × Extent × Extent)) :
    (argumentsOutline t s [] (fun _ => .empty) l).size = 2 * l.length := by
  induction l with
  | nil => rfl
  | cons x rest ih =>
    have hoperand : (operandOutline t s x.2.2).size = 1 := by
      simp only [operandOutline]
      split <;> rfl
    rw [argumentsOutline, Outline.size, ih, List.any_nil, if_neg Bool.false_ne_true, hoperand,
      List.length_cons]
    omega

/-- No node of the outline is a call. -/
def Outline.Callless (o : Outline) : Prop := o.All fun e _ => e.kind ≠ .invocationExpression

theorem callless_receiverOutline (call : Call) (r : Receiver) :
    (receiverOutline t s call r).Callless := by
  cases r with
  | absent => trivial
  | declared v place => exact .single v.referenceKind_cases.1 trivial
  | implicit v => exact .single v.referenceKind_cases.1 trivial
  | static kind place => exact .single (by nofun) trivial
  | unknown place => exact .single (by nofun) trivial

theorem callless_argumentsOutline (l : List (Option String × Extent × Extent)) :
    (argumentsOutline t s [] (fun _ => .empty) l).Callless := by
  induction l with
  | nil => trivial
  | cons x rest ih =>
    refine ⟨by rintro ⟨⟩, ?_, ih⟩
    simp only [List.any_nil, Bool.false_eq_true, if_false, operandOutline]
    split
    · rename_i v _
      exact .single v.referenceKind_cases.1 trivial
    · exact .single (by rintro ⟨⟩) trivial

theorem callless_callBelow (call : Call) : (callBelow t s call).Callless :=
  (callless_receiverOutline call _).append (callless_argumentsOutline _)

theorem length_boundArguments (parameters : List String) (call : Call) :
    (boundArguments t parameters call).length = call.arguments.length := by
  rw [boundArguments, List.length_map, List.length_zipIdx]

theorem argumentCount_callBelow (call : Call) :
    (callBelow t s call).argumentCount = call.arguments.length := by
  simp only [callBelow]
  rw [Outline.argumentCount_append, (operandOnly_receiverOutline call _).count,
    argumentCount_argumentsOutline, length_boundArguments, Nat.zero_add]

end Source

namespace Program

open Source
open Cells (ofAscii)

/-! ### What a statement calls -/

theorem lower_ofList (cs : List Char) : Name.lower (String.ofList cs) = lowered cs := by
  rw [Name.lower, String.toList_ofList, lowered]

theorem same_of_lowered {i j : Identifier} (h : lowered j.chars = lowered i.chars) :
    Name.same (String.ofList i.chars) (String.ofList j.chars) = true := by
  have hlists : i.chars.map CharClass.lower = j.chars.map CharClass.lower := by
    have hlists := congrArg String.toList h
    rwa [lowered, lowered, String.toList_ofList, String.toList_ofList, eq_comm] at hlists
  rw [Name.same, i.unquote_chars, j.unquote_chars, Name.eqIgnoreCase, String.toList_ofList,
    String.toList_ofList, hlists, beq_self_eq_true]

/-- The parameter of a procedure, whose symbol comes behind the one of the procedure. -/
def Procedure.parameter (p : Procedure) (first : SymbolId) (type : TypeInfo) : Variable :=
  ⟨String.ofList p.record.chars, first + 1, .parameter, type, false⟩

/-- The names visible in a procedure of a codeunit. -/
def Procedure.scope (p : Procedure) (first : SymbolId) (type : TypeInfo) (names : List String) :
    Scope :=
  ⟨first, [p.parameter first type], [], names⟩

section Target

variable {t : Text} {p : Procedure} {first : SymbolId} {type : TypeInfo} {names : List String}
  (s : Statement p.record) {pos : Nat}

/-- **A statement calls the method on the parameter**: a built-in one, if records have it. -/
theorem target_callAt (hkind : type.kind = .record)
    (hname : t.name ⟨pos, pos + s.receiver.chars.length⟩ = String.ofList s.receiver.chars) :
    (p.scope first type names).target t (s.callAt t pos) =
      match recordMethods.lookup (lowered s.method.chars) with
      | some ps => .builtIn ps
          (.declared (p.parameter first type) ⟨pos, pos + s.receiver.chars.length⟩)
      | none => .user (.declared (p.parameter first type) ⟨pos, pos + s.receiver.chars.length⟩) := by
  have hlookup : (p.scope first type names).lookup? (String.ofList s.receiver.chars) =
      some (p.parameter first type) :=
    List.find?_cons_of_pos (same_of_lowered s.same)
  rw [Scope.target]
  cases hmethod : recordMethods.lookup (lowered s.method.chars) with
  | none =>
    simp only [Statement.callAt, hname, hlookup, Scope.variableTarget, Procedure.parameter, hkind,
      lower_ofList, hmethod]
  | some ps =>
    simp only [Statement.callAt, hname, hlookup, Scope.variableTarget, Procedure.parameter, hkind,
      lower_ofList, hmethod]

theorem receiver_callAt (hkind : type.kind = .record)
    (hname : t.name ⟨pos, pos + s.receiver.chars.length⟩ = String.ofList s.receiver.chars) :
    ((p.scope first type names).target t (s.callAt t pos)).receiver =
      .declared (p.parameter first type) ⟨pos, pos + s.receiver.chars.length⟩ := by
  rw [target_callAt s hkind hname]
  split <;> rfl

theorem map_boundArguments_callAt (hplain : ∀ x ∈ t.bare, x.char ≠ '=') (ps : List String) :
    (boundArguments t ps (s.callAt t pos)).map (·.1) =
      (List.range (s.callAt t pos).arguments.length).map (ps[·]?) := by
  have hbind : ∀ r i, (bindArgument t ps i r).1 = ps[i]? := by
    intro r i
    have hnone : namedArgument? (t.bare.slice r) = none :=
      namedArgument?_eq_none fun x hx => hplain x (List.mem_of_mem_drop (List.mem_of_mem_take hx))
    rw [bindArgument, hnone]
  simp only [boundArguments, List.map_map, Function.comp_def, hbind]
  rw [List.range_eq_range', ← List.zipIdx_map_snd 0, List.map_map]
  rfl

end Target

/-! ### Calls that leave it open whether triggers run -/

/-- An argument is bound to the parameter for the triggers exactly if there are enough of them. -/
theorem unbound_iff {front rest : List String}
    (hfront : ∀ q ∈ front, Name.same q "RunTrigger" = false) (k : Nat) :
    (∀ i < k, ∀ q, (front ++ "RunTrigger" :: rest)[i]? = some q → ¬ Name.Spells q "RunTrigger") ↔
      k ≤ front.length := by
  have hplain : Name.IsPlain "RunTrigger" := Rule.isPlain_of_mem List.mem_cons_self
  simp only [← Name.same_iff_spells hplain, Bool.not_eq_true]
  constructor
  · intro h
    by_contra hlt
    have hself := h front.length (by omega) "RunTrigger" (by simp)
    revert hself
    decide
  · intro hle i hi q hq
    rw [List.getElem?_append_left (by omega)] at hq
    exact hfront q (List.mem_of_getElem? hq)

/-- With `modifyall` two arguments leave it open whether triggers run, with the other methods that
change records none does. -/
theorem Statement.leavesOpen_iff_length {v : Identifier} (s : Statement v) :
    s.leavesOpen = true ↔
      lowered s.method.chars ∈ ["insert", "modify", "modifyall", "delete", "deleteall"] ∧
      s.arguments.length ≤ if lowered s.method.chars = "modifyall" then 2 else 0 := by
  rw [leavesOpen]
  generalize lowered s.method.chars = w
  by_cases hw : w = "modifyall"
  · subst hw
    simp
  · have hne : (w == "modifyall") = false := beq_false_of_ne hw
    simp [hne, hw]

/-- **A statement is to be reported** exactly if it calls a built-in method that changes records,
and no argument is bound to the parameter for the triggers. -/
theorem Statement.leavesOpen_iff {v : Identifier} (s : Statement v) :
    s.leavesOpen = true ↔
      lowered s.method.chars ∈ ["insert", "modify", "modifyall", "delete", "deleteall"] ∧
      ∃ ps, recordMethods.lookup (lowered s.method.chars) = some ps ∧
        ∀ i < s.arguments.length, ∀ q, ps[i]? = some q → ¬ Name.Spells q "RunTrigger" := by
  have hmethods : ∀ w ∈ ["insert", "modify", "modifyall", "delete", "deleteall"], ∃ front rest,
      recordMethods.lookup w = some (front ++ "RunTrigger" :: rest) ∧
        (∀ q ∈ front, Name.same q "RunTrigger" = false) ∧
        front.length = if w = "modifyall" then 2 else 0 := by
    simp only [List.forall_mem_cons]
    exact ⟨⟨[], _, rfl, by decide, rfl⟩, ⟨[], _, rfl, by decide, rfl⟩,
      ⟨["Field", "NewValue"], [], rfl, by decide, rfl⟩, ⟨[], _, rfl, by decide, rfl⟩,
      ⟨[], _, rfl, by decide, rfl⟩, List.forall_mem_nil _⟩
  rw [s.leavesOpen_iff_length]
  refine and_congr_right fun hmem => ?_
  obtain ⟨front, rest, hlookup, hfront, hlength⟩ := hmethods _ hmem
  rw [hlookup, ← hlength, ← @unbound_iff front rest hfront]
  simp only [Option.some.injEq, exists_eq_left']

/-- A statement is read at a place: the name before the dot, and as many arguments as there are. -/
structure Statement.ReadAt {v : Identifier} (s : Statement v) (t : Text) (pos : Nat) : Prop where
  receiver_eq : t.name ⟨pos, pos + s.receiver.chars.length⟩ = String.ofList s.receiver.chars
  length_eq : (s.callAt t pos).arguments.length = s.arguments.length

theorem Statement.readAt {v : Identifier} (s : Statement v) {t : Text} {pre post : List Char}
    (ht : t.Reads (pre ++ (s.call ++ post))) {pos : Nat} (hpos : pos = pre.length) :
    s.ReadAt t pos where
  receiver_eq := by
    have ht' : t.Reads (pre ++ (s.receiver.chars ++ (['.'] ++ (s.method.chars ++ (['('] ++
        (spelled s.arguments ++ ([')'] ++ post))))))) := by
      simpa [Statement.call, Statement.front] using ht
    exact name_text ht' hpos (by rw [hpos])
  length_eq := by
    have ht' : t.Reads ((pre ++ s.front) ++ (spelled s.arguments ++ ([')'] ++ post))) := by
      simpa [Statement.call] using ht
    exact length_arguments ht' (by rw [hpos, List.length_append]) (by rw [hpos, List.length_append])

theorem map_parameter_invocationOf (target : TargetMethod × List (Option String))
    {ids : List NodeId} (h : target.2.length = ids.length) :
    (Outline.invocationOf target ids).arguments.map (·.parameter) = target.2 := by
  obtain ⟨method, parameters⟩ := target
  simp only [Outline.invocationOf, List.map_zipWith]
  induction parameters generalizing ids with
  | nil => rfl
  | cons parameter parameters ih =>
    cases ids with
    | nil => cases h
    | cons id ids => simpa using ih (by simpa using h)

theorem exists_invocation_callAt {t : Text} {p : Procedure} {s : Statement p.record} {pos : Nat}
    (hs : s.ReadAt t pos) (hplain : ∀ x ∈ t.bare, x.char ≠ '=') {scope : Scope} {target : Target}
    (htarget : scope.target t (s.callAt t pos) = target) (parent : Option NodeId) (i : NodeId) :
    ∃ call : Invocation, (Outline.toNode (callEntry t scope (s.callAt t pos)) parent i
        (callBelow t scope (s.callAt t pos))).invocation = some call ∧
      call.method = ⟨String.ofList s.method.chars, target.kind⟩ ∧
      call.arguments.map (·.parameter) =
        (List.range s.arguments.length).map (target.parameters[·]?) := by
  have hmap := @map_boundArguments_callAt t p s pos hplain target.parameters
  refine ⟨_, rfl, ?_, ?_⟩
  · simp only [Outline.invocationOf, htarget]
    rfl
  · rw [map_parameter_invocationOf]
    · simp only [htarget]
      rw [hmap, hs.length_eq]
    · simp only [htarget]
      rw [hmap, List.length_map, List.length_range, Outline.length_argumentIds,
        argumentCount_callBelow]

theorem unbound_arguments_iff {call : Invocation} {parameters : List String} {k : Nat}
    (h : call.arguments.map (·.parameter) = (List.range k).map (parameters[·]?)) :
    (∀ a ∈ call.arguments, ∀ q, a.parameter = some q → ¬ Name.Spells q "RunTrigger") ↔
      ∀ i < k, ∀ q, parameters[i]? = some q → ¬ Name.Spells q "RunTrigger" := by
  have hall : (∀ x ∈ call.arguments.map (·.parameter), ∀ q, x = some q →
      ¬ Name.Spells q "RunTrigger") ↔
        ∀ i < k, ∀ q, parameters[i]? = some q → ¬ Name.Spells q "RunTrigger" := by
    rw [h]
    simp only [List.forall_mem_map, List.mem_range]
  rwa [List.forall_mem_map] at hall

section Node

variable {tree : Tree} {doc : Document} {w : Outline} (hdoc : Tree.ofDocument doc = .ok tree)
  (hnodes : tree.nodes = w.nodesFrom none 0) {t : Text} {p : Procedure} {first : SymbolId}
  {type : TypeInfo} {names : List String} (hkind : type.kind = .record) {s : Statement p.record}
  {pos i : Nat} (hs : s.ReadAt t pos) {parent : Option NodeId}
  (hat : w.At none 0 i parent (callEntry t (p.scope first type names) (s.callAt t pos))
    (callBelow t (p.scope first type names) (s.callAt t pos)))
include hdoc hnodes hkind hs hat

/-- The record that a call is made on is a node right behind the node of the call. -/
theorem refersToRecord_callAt :
    ∃ m, Relation.ReflTransGen tree.ChildOf i m ∧ tree.RecordReference m := by
  obtain ⟨arguments, hbelow⟩ : ∃ arguments,
      callBelow t (p.scope first type names) (s.callAt t pos) =
        .node ((p.parameter first type).reference
          (t.span ⟨pos, pos + s.receiver.chars.length⟩) first) .empty arguments := by
    simp only [callBelow, receiver_callAt s hkind hs.receiver_eq, receiverOutline]
    exact ⟨_, rfl⟩
  rw [hbelow] at hat
  have hchild : tree.ChildOf i (i + 1) := (mem_childIds_iff hdoc hnodes hat).mpr ⟨_, _, .here⟩
  have hnode := (hat.trans .here).node?_eq hnodes
  exact ⟨i + 1, .single hchild, _, _, hnode, rfl, Or.inl ⟨type, rfl, hkind⟩⟩

/-- **The call of a statement leaves open whether triggers run** exactly if the statement does and
its procedure is not obsolete. -/
theorem leavesTriggerOpen_callAt_iff (hplain : ∀ x ∈ t.bare, x.char ≠ '=')
    (hforce : ∀ n : Node, n.containingSymbol = some first →
      (tree.InForce n ↔ p.obsolete = false)) :
    tree.LeavesTriggerOpen i (Outline.toNode (callEntry t (p.scope first type names) (s.callAt t pos))
        parent i (callBelow t (p.scope first type names) (s.callAt t pos))) ↔
      (!p.obsolete && s.leavesOpen) = true := by
  have hrecord := refersToRecord_callAt hdoc hnodes hkind hs hat
  generalize htarget : (p.scope first type names).target t (s.callAt t pos) = target
  obtain ⟨call, hcall, hmethod, hparameters⟩ := exists_invocation_callAt hs hplain htarget parent i
  have hunbound := unbound_arguments_iff hparameters
  have hlower : Name.lower call.method.name = lowered s.method.chars := by
    rw [hmethod]
    exact lower_ofList _
  rw [target_callAt s hkind hs.receiver_eq] at htarget
  rw [Bool.and_eq_true, Bool.not_eq_true', s.leavesOpen_iff]
  constructor
  · rintro ⟨call', hbuiltIn, hmutates, -, hfree⟩
    obtain rfl := Option.some.inj (hcall.symm.trans hbuiltIn.invocation_eq)
    have hkind' := hbuiltIn.method_kind
    rw [hlower] at hmutates
    rw [hmethod] at hkind'
    refine ⟨(hforce _ rfl).mp hbuiltIn.inForce, hmutates, ?_⟩
    cases hlookup : recordMethods.lookup (lowered s.method.chars) with
    | none =>
      rw [hlookup] at htarget
      subst htarget
      cases hkind'
    | some ps =>
      rw [hlookup] at htarget
      subst htarget
      exact ⟨ps, rfl, hunbound.mp hfree⟩
  · rintro ⟨hobsolete, hmutates, ps, hlookup, hfree⟩
    rw [hlookup] at htarget
    subst htarget
    exact ⟨call, ⟨rfl, (hforce _ rfl).mpr hobsolete, hcall, by rw [hmethod]; rfl⟩,
      hlower ▸ hmutates, hrecord, hunbound.mpr hfree⟩

end Node

end Program
end TreeLint
