/-
# Calls in a text with lines put in

The calls of a body stand at the pushed places, and each resolves to the same
target: what is compared with the name of a call, a variable, a procedure or a
method of the platform, stands on one line, so it makes no difference if the name
of the call is spread over further lines. The nodes of the calls are the same up
to their spans and these names.

Key definitions: `Source.Call.Widens`, `Source.Target.map`,
`Source.Scope.OnOneLine`, `Outline.Spreads`.
Key theorems: `Text.Widens.calls`, `Source.target_of_widens`,
`Source.outlineCalls_of_widens`.
-/
import TreeLint.Proofs.WidenedDeclarations
import TreeLint.Source.Resolve

namespace TreeLint

namespace Name

variable {n n' : String} (h : SpreadsTo n n')
include h

/-- In a table of words that stand on one line the same is found. -/
theorem SpreadsTo.lookup_lower {α : Type} (table : List (String × α))
    (htable : ∀ e ∈ table, '\n' ∉ e.1.toList) :
    table.lookup (lower n') = table.lookup (lower n) := by
  rcases h.eq_or_mem with heq | ⟨hn, hn'⟩
  · rw [String.toList_inj.mp heq]
  · rw [lookup_lower_eq_none htable hn, lookup_lower_eq_none htable hn']

theorem SpreadsTo.contains_lower {words : List String} (hwords : ∀ w ∈ words, '\n' ∉ w.toList) :
    words.contains (lower n') = words.contains (lower n) := by
  rcases h.eq_or_mem with heq | ⟨hn, hn'⟩
  · rw [String.toList_inj.mp heq]
  · have hnone : ∀ {m : String}, '\n' ∈ m.toList → words.contains (lower m) = false := by
      intro m hm
      rw [← Bool.not_eq_true, List.contains_iff_mem]
      intro hmem
      refine hwords _ hmem ?_
      rw [lower, String.toList_ofList, feed_mem_lower_iff]
      exact hm
    rw [hnone hn, hnone hn']

theorem SpreadsTo.any_same {names : List String} (hnames : ∀ m ∈ names, '\n' ∉ m.toList) :
    (names.any fun m => same m n') = names.any fun m => same m n := by
  rw [Bool.eq_iff_iff, List.any_eq_true, List.any_eq_true]
  refine exists_congr fun m => and_congr_right fun hm => ?_
  rw [same_of_spreads (hnames m hm) h]

end Name

namespace Source

variable {push : Nat → Nat} {move : Span → Span} {t t' : Text} {S : Cells}

/-! ### Calls -/

/-- The call stands at the pushed places; its name may be spread over further lines. -/
structure Call.Widens (push : Nat → Nat) (a b : Call) : Prop where
  extent : b.extent = a.extent.map push
  receiver : b.receiver = a.receiver.map (Extent.map push)
  method : Name.SpreadsTo a.method b.method
  arguments : b.arguments = a.arguments.map (Extent.map push)

/-- A call whose parenthesis is closed stands at the pushed places, whatever its receiver and its
method are. -/
theorem Text.Widens.closedCall (h : t.Widens push move t') (ht : t.Copies S) {body : Extent}
    (hbody : S.Cuts body) {opening : Nat} (hle : body.start ≤ opening) (hlt : opening < body.stop)
    {x : Cell} (hx : t.bare[opening]? = some x) (hxchar : x.char = '(') (start : Nat)
    (receiver : Option Extent) {method method' : String} (hmethod : Name.SpreadsTo method method') :
    Option.Rel (Call.Widens push)
      ((closingParen? ((Cursor.ofSlice t.bare body).moveTo opening)).map fun close =>
        (⟨⟨start, close + 1⟩, receiver, method, t.arguments ⟨opening + 1, close⟩⟩ : Call))
      ((closingParen? ((Cursor.ofSlice t'.bare (body.map push)).moveTo (push opening))).map
        fun close => (⟨⟨push start, close + 1⟩, receiver.map (Extent.map push), method',
          t'.arguments ⟨push opening + 1, close⟩⟩ : Call)) := by
  have hbare := ht.bare.cuts hbody
  rw [h.closingParen?_moveTo hbare.stop_le hle hlt.le]
  cases hclose : closingParen? ((Cursor.ofSlice t.bare body).moveTo opening) with
  | none => exact .none
  | some close =>
    obtain ⟨hopen, hcloses, y, hy, hychar⟩ := lt_closingParen?
      (Cursor.in_ofSlice hbare.le hbare.start) opening hle hlt hx hxchar hclose
    have hend := h.push_succ hy (Cells.ne_feed hychar rfl)
    have hparen := ht.bare.snug_single hx (by rw [hxchar]; decide) (by rw [hxchar]; decide)
    have hparen' := ht.bare.snug_single hy (by rw [hychar]; decide) (by rw [hychar]; decide)
    have harguments := h.arguments ht (r := ⟨opening + 1, close⟩) ⟨hopen, hparen.stop, hparen'.start⟩
    simp only [Extent.map] at harguments
    rw [h.push_succ hx (Cells.ne_feed hxchar rfl)] at harguments
    exact .some ⟨congrArg (Extent.mk _) hend.symm, rfl, hmethod, harguments⟩

theorem Text.Widens.callOf? (h : t.Widens push move t') (ht : t.Copies S) {body : Extent}
    (hbody : S.Cuts body) {f : Found CallHead}
    (hf : callHead.FoundFrom t.bare body.start body.stop f) :
    Option.Rel (Call.Widens push) (t.callOf? (Cursor.ofSlice t.bare body) f)
      (t'.callOf? (Cursor.ofSlice t'.bare (body.map push)) (f.map push (CallHead.map push))) := by
  have hbare := ht.bare.cuts hbody
  obtain ⟨hle, hstop, hplaced⟩ := foundFrom_callHead ht.bare.whole hbare.stop hf
  obtain ⟨x, hx, hxchar⟩ := hplaced.opening
  have hlt := hplaced.whole.lt
  have hopening : push f.extent.stop - 1 = push (f.extent.stop - 1) := by
    have hsucc := h.push_succ hx (Cells.ne_feed hxchar rfl)
    rw [show f.extent.stop - 1 + 1 = f.extent.stop by omega] at hsucc
    omega
  have hcall := fun receiver {method method' : String} (hmethod : Name.SpreadsTo method method') =>
    h.closedCall ht hbody (by omega) (by omega) hx hxchar f.extent.start receiver hmethod
  cases hmember : f.value.member with
  | some m =>
    simp only [Text.callOf?, Found.map, CallHead.map, hmember, Option.map_some, Option.isNone_some,
      Bool.false_and, Bool.false_eq_true, if_false]
    rw [show (f.extent.map push).stop - 1 = push (f.extent.stop - 1) from hopening]
    exact hcall (some f.value.first) (h.name m)
  | none =>
    have hname := h.name f.value.first
    simp only [Text.callOf?, Found.map, CallHead.map, hmember, Option.map_none, Option.isNone_none,
      Bool.true_and]
    rw [show (f.extent.map push).stop - 1 = push (f.extent.stop - 1) from hopening,
      hname.contains_lower (by decide)]
    split
    · exact .none
    · exact hcall none hname

/-- **The calls of a body** stand at the pushed places. -/
theorem Text.Widens.calls (h : t.Widens push move t') (ht : t.Copies S) {body : Extent}
    (hbody : S.Cuts body) :
    List.Forall₂ (Call.Widens push) (t.calls body) (t'.calls (body.map push)) := by
  have hbare := ht.bare.cuts hbody
  have hin := Cursor.in_ofSlice hbare.le hbare.start
  have hfound : ∀ f ∈ callHead.all (Cursor.ofSlice t.bare body),
      callHead.FoundFrom t.bare body.start body.stop f :=
    fun f hf => Pattern.foundFrom_of_mem_all hbare.stop_le hin hf
  rw [Text.calls, Text.calls, (widens_callHead ht.bare.whole hbare.stop).all h.mono hbare.stop_le hin (h.ofSlice body)]
  generalize callHead.all (Cursor.ofSlice t.bare body) = fs at hfound ⊢
  induction fs with
  | nil => exact .nil
  | cons f fs ih =>
    have ih := ih fun f' hf' => hfound f' (List.mem_cons_of_mem f hf')
    have hone := h.callOf? ht hbody (hfound f List.mem_cons_self)
    rw [List.map_cons]
    cases hcall : t.callOf? (Cursor.ofSlice t.bare body) f with
    | none =>
      rw [hcall] at hone
      cases hcall' : t'.callOf? (Cursor.ofSlice t'.bare (body.map push))
          (f.map push (CallHead.map push)) with
      | none => rwa [List.filterMap_cons_none hcall, List.filterMap_cons_none hcall']
      | some call => rw [hcall'] at hone; cases hone
    | some call =>
      rw [hcall] at hone
      cases hcall' : t'.callOf? (Cursor.ofSlice t'.bare (body.map push))
          (f.map push (CallHead.map push)) with
      | none => rw [hcall'] at hone; cases hone
      | some call' =>
        rw [hcall'] at hone
        cases hone with
        | some hone =>
          rw [List.filterMap_cons_some hcall, List.filterMap_cons_some hcall']
          exact .cons hone ih

/-! ### Targets -/

/-- The receiver at another place. -/
def Receiver.map (f : Nat → Nat) : Receiver → Receiver
  | .absent => .absent
  | .declared v place => .declared v (place.map f)
  | .implicit v => .implicit v
  | .static kind place => .static kind (place.map f)
  | .unknown place => .unknown (place.map f)

/-- The target with its receiver at another place. -/
def Target.map (f : Nat → Nat) (a : Target) : Target := { a with receiver := a.receiver.map f }

/-- The names that are visible in a routine stand on one line. -/
structure Scope.OnOneLine (s : Scope) : Prop where
  visible : ∀ v ∈ s.visible, '\n' ∉ v.name.toList
  procedures : ∀ p ∈ s.procedures, '\n' ∉ p.toList

theorem feed_not_mem_methods : ∀ table ∈ [recordMethods, storageMethods, globalMethods],
    ∀ e ∈ table, '\n' ∉ e.1.toList := by
  decide +kernel

section Targets

variable {s : Scope} {n n' : String} (h : Name.SpreadsTo n n')
include h

theorem lookup?_of_spreads (hs : s.OnOneLine) : s.lookup? n' = s.lookup? n :=
  List.find?_congr fun v hv => Name.same_of_spreads (hs.visible v hv) h

theorem lookup_methods_of_spreads (table : MethodTable)
    (htable : table ∈ [recordMethods, storageMethods, globalMethods]) :
    table.lookup (Name.lower n') = table.lookup (Name.lower n) :=
  h.lookup_lower table (feed_not_mem_methods table htable)

theorem plainTarget_of_spreads (hs : s.OnOneLine) : s.plainTarget n' = s.plainTarget n := by
  unfold Scope.plainTarget
  rw [h.any_same hs.procedures, lookup_methods_of_spreads h globalMethods (by simp),
    lookup_methods_of_spreads h recordMethods (by simp)]

theorem variableTarget_of_spreads (v : Variable) (place : Extent) :
    Scope.variableTarget v (place.map push) n' = (Scope.variableTarget v place n).map push := by
  unfold Scope.variableTarget
  rw [lookup_methods_of_spreads h recordMethods (by simp)]
  split
  · split <;> rfl
  · rfl
  · rfl

theorem staticTarget_of_spreads {m m' : String} (hm : Name.SpreadsTo m m') (place : Extent) :
    Scope.staticTarget m' (place.map push) n' = (Scope.staticTarget m place n).map push := by
  have hreceiver : staticReceiver? m' = staticReceiver? m := by
    rw [staticReceiver?, staticReceiver?, TypeKind.ofKeyword_of_spreads hm]
  unfold Scope.staticTarget
  rw [hreceiver, lookup_methods_of_spreads h storageMethods (by simp)]
  split <;> rfl

end Targets

/-- **What a call resolves to** is the same, with its receiver at the pushed place. -/
theorem target_of_widens (h : t.Widens push move t') {s : Scope} (hs : s.OnOneLine) {a b : Call}
    (hab : a.Widens push b) : s.target t' b = (s.target t a).map push := by
  rw [Scope.target, Scope.target, hab.receiver]
  cases a.receiver with
  | none =>
    simp only [Option.map_none]
    rw [plainTarget_of_spreads hab.method hs, Scope.plainTarget]
    split
    · rfl
    · split
      · rfl
      · split <;> rfl
  | some r =>
    simp only [Option.map_some]
    rw [lookup?_of_spreads (h.name r) hs]
    split
    · exact variableTarget_of_spreads hab.method _ r
    · exact staticTarget_of_spreads hab.method (h.name r) r

/-! ### Arguments -/

/-- The offsets in a piece that starts at a place, when the places are pushed. -/
def pushedFrom (push : Nat → Nat) (start : Nat) (i : Nat) : Nat := push (start + i) - push start

theorem widens_from (hmono : Monotone push) {start : Nat} {cs ds : Cells}
    (h : Cells.Widens push start cs ds) : Cells.Widens (pushedFrom push start) 0 cs ds := by
  refine h.rebase fun i => ?_
  have hle := hmono (Nat.le_add_right start i)
  simp only [pushedFrom, Nat.zero_add, Nat.add_zero]
  omega

theorem slice_plain {cs ds : Cells} (h : Cells.Widens push 0 cs ds) (hzero : push 0 = 0)
    (hmono : Monotone push) {d : Cursor} {letter : Char → Bool}
    (hd : (Cursor.mk none 0 cs).plain? letter = some d) :
    ds.slice (Extent.map push ⟨0, d.pos⟩) = cs.slice ⟨0, d.pos⟩ := by
  have hslice : Cells.Widens push 0 (cs.slice ⟨0, d.pos⟩) (ds.slice (Extent.map push ⟨0, d.pos⟩)) :=
    Text.Widens.slice_of_widens hmono (by rwa [hzero]) ⟨0, d.pos⟩
  refine hslice.spreads.eq_of_not_mem fun hmem => ?_
  unfold Cursor.plain? at hd
  split at hd
  · cases hd
    have hprefix := List.takeWhile_prefix Cell.isWord (l := cs)
    rw [Cursor.skipWhile, Cursor.advance_eq _ _ hprefix.length_le, Cells.slice] at hmem
    simp only [Nat.zero_add, Nat.sub_zero, List.drop_zero] at hmem
    rw [← List.prefix_iff_eq_take.mp hprefix] at hmem
    exact absurd (List.mem_takeWhile_imp hmem) (by decide)
  · cases hd

/-- **The name of a named argument** and where its value starts. -/
theorem namedArgument?_of_widens {cs ds : Cells} (h : Cells.Widens push 0 cs ds) (hzero : push 0 = 0)
    (hmono : Monotone push) :
    Option.Rel (fun a b => ds.slice b.1 = cs.slice a.1 ∧ b.2 = push a.2) (namedArgument? cs)
      (namedArgument? ds) := by
  have hstart := widens_start hzero h
  simp only [namedArgument?, Option.bind_eq_bind]
  refine rel_bind (rel_and hstart.plain? fun c₁ hc₁ => slice_plain h hzero hmono hc₁)
    fun c₁ d₁ h₁ => ?_
  refine rel_bind (h₁.2.blanks.mark? rfl) fun c₂ d₂ h₂ => ?_
  refine rel_bind (h₂.mark? rfl) fun c₃ d₃ h₃ => .some ⟨?_, h₃.blanks.pos_eq⟩
  simp only [Cursor.upTo]
  rw [← h₁.1, h₁.2.pos_eq, Extent.map, hzero]

/-- **The parameter of an argument**, and its value at the pushed place. -/
theorem bindArgument_of_widens (h : t.Widens push move t') (parameters : List String) (position : Nat)
    (r : Extent) : bindArgument t' parameters position (r.map push) =
      ((bindArgument t parameters position r).1, (bindArgument t parameters position r).2.map push) := by
  have hmono := h.mono.monotone
  have hpushed : Monotone (pushedFrom push r.start) := fun i j hij =>
    Nat.sub_le_sub_right (hmono (Nat.add_le_add_left hij r.start)) _
  have hnamed := namedArgument?_of_widens (widens_from hmono (h.slice_bare r))
    (by simp [pushedFrom]) hpushed
  unfold bindArgument
  generalize namedArgument? (t.bare.slice r) = a at hnamed ⊢
  generalize namedArgument? (t'.bare.slice (r.map push)) = b at hnamed ⊢
  cases hnamed with
  | none => rfl
  | @some a b hnamed =>
    obtain ⟨name, value⟩ := a
    obtain ⟨name', value'⟩ := b
    obtain ⟨hname, rfl⟩ := hnamed
    have hle := hmono (Nat.le_add_right r.start value)
    simp only [Extent.map, pushedFrom] at hname ⊢
    rw [hname, show push r.start + (push (r.start + value) - push r.start) = push (r.start + value)
      by omega]

end Source
end TreeLint
