/-
# Every call of a body has its node

The calls of a body are found as a flat list, and their nodes are made by a
recursion that goes through the list with a moving interval. In a regular body no
call is lost: each has a node, directly below the block if no call is around it,
and otherwise below the argument of the smallest call around it that it lies in.
None is duplicated either: along the walk the nodes of calls start one behind the
other, so no two of them have the same interval.

Key definitions: `Source.Emitted`, `Source.Call.Innermost`, `Tree.Housed`.
Key theorems: `Source.emitted_outlineCalls`, `Source.start_lt_of_calls`,
`Source.housed_of_resolve`.
-/
import TreeLint.Proofs.Candidates
import TreeLint.Proofs.Shape

namespace TreeLint

namespace Extent

/-- The other interval lies in this one and is another one. -/
def Encloses (r r' : Extent) : Prop := r.Covers r' ∧ r ≠ r'

variable {r r' r'' : Extent}

theorem Covers.refl (r : Extent) : r.Covers r := ⟨le_rfl, le_rfl⟩

theorem Covers.trans (h : r.Covers r') (h' : r'.Covers r'') : r.Covers r'' :=
  ⟨h.1.trans h'.1, h'.2.trans h.2⟩

theorem Covers.encloses (h : r.Covers r') (hlt : r.start < r'.start) : r.Encloses r' :=
  ⟨h, fun heq => absurd (heq ▸ hlt) (Nat.lt_irrefl _)⟩

end Extent

namespace Source

/-! ### Positions in outlines that are put together -/

namespace Outline

variable {o o' b b' : Outline} {parent p p' : Option Nat} {first i j : Nat} {e e' : Entry}
  {w : Extent} {S : Cells} {t : Text}

theorem At.append_right (h : o'.At parent (first + o.size) i p e b) :
    (o.append o').At parent first i p e b := by
  induction o generalizing first with
  | empty => exact h
  | node e' below next _ ih =>
    refine .later (ih ?_)
    rwa [show first + 1 + below.size + next.size = first + (node e' below next).size by
      simp only [size]; omega]

theorem At.cases_top (h : o.At parent first i p e b) :
    o.TopAt first i e b ∨
      ∃ j e' b', o.TopAt first j e' b' ∧ b'.At (some j) (j + 1) i p e b := by
  induction h with
  | here => exact Or.inl .here
  | inside h _ => exact Or.inr ⟨_, _, _, .here, h⟩
  | later _ ih =>
    rcases ih with htop | ⟨j, e', b', htop, hat⟩
    · exact Or.inl (.later htop)
    · exact Or.inr ⟨j, e', b', .later htop, hat⟩

theorem Nested.covers_of_at (h : o.Nested S t w) (hat : o.At parent first i p e b) :
    w.Covers e.span.extent := by
  induction hat generalizing w with
  | here =>
    obtain ⟨r, hspan, -, hstart, hstop, -, -⟩ := h
    rw [hspan]
    exact ⟨hstart, hstop⟩
  | inside _ ih =>
    obtain ⟨r, -, -, hstart, hstop, hbelow, -⟩ := h
    obtain ⟨hstart', hstop'⟩ := ih hbelow
    exact ⟨hstart.trans hstart', hstop'.trans hstop⟩
  | later _ ih =>
    obtain ⟨r, -, hcuts, hstart, -, -, hnext⟩ := h
    obtain ⟨hstart', hstop'⟩ := ih hnext
    exact ⟨(hstart.trans hcuts.le).trans hstart', hstop'⟩

/-- **Of two nodes of a nested outline the later one is below the earlier one or behind it.** -/
theorem Nested.below_or_behind (h : o.Nested S t w) (hi : o.At parent first i p e b)
    (hj : o.At parent first j p' e' b') (hlt : i < j) :
    b.At (some i) (i + 1) j p' e' b' ∨ e.span.endByte ≤ e'.span.startByte := by
  induction hi generalizing w with
  | here =>
    obtain ⟨r, hspan, -, -, -, -, hnext⟩ := h
    cases hj with
    | here => omega
    | inside hj => exact Or.inl hj
    | later hj =>
      right
      rw [hspan]
      exact (hnext.covers_of_at hj).1
  | inside hi ih =>
    obtain ⟨r, -, -, -, -, hbelow, hnext⟩ := h
    have hbounds := hi.bounds
    cases hj with
    | here => omega
    | inside hj => exact ih hbelow hj hlt
    | later hj => exact Or.inr ((hbelow.covers_of_at hi).2.trans (hnext.covers_of_at hj).1)
  | later hi ih =>
    obtain ⟨r, -, -, -, -, -, hnext⟩ := h
    have hbounds := hi.bounds
    cases hj with
    | here => omega
    | inside hj =>
      have := hj.bounds
      omega
    | later hj => exact ih hnext hj hlt

theorem not_at_of_topAll_false {P : Entry → Prop} (hP : ∀ e, ¬ P e) (h : o.TopAll P)
    (hat : o.At parent first i p e b) : False := by
  rcases hat.cases_top with htop | ⟨j, e', b', htop, -⟩
  · exact hP _ (h.of_topAt htop)
  · exact hP _ (h.of_topAt htop)

end Outline

open Outline

variable {S : Cells} {t : Text} {s : Scope} {body w : Extent} {calls : List Call} {c : Call}

/-! ### No call twice -/

theorem holds_of_isOperand {k k' : NodeKind} (h : k.isOperand = true) : k.holds k' = false := by
  simp only [NodeKind.isOperand, List.contains_iff_mem, List.mem_cons, List.not_mem_nil, or_false] at h
  rcases h with rfl | rfl | rfl | rfl | rfl | rfl <;> rfl

/-- **Along the walk calls start one behind the other.** -/
theorem start_lt_of_calls {o b b' : Outline} {parent p p' : Option Nat} {first i j : Nat}
    {e e' : Entry} (hnested : o.Nested S t w) (hfits : o.All (Entry.Fits t))
    (hi : o.At parent first i p e b) (hj : o.At parent first j p' e' b')
    (hkind : e.kind = .invocationExpression) (hkind' : e'.kind = .invocationExpression)
    (hlt : i < j) : e.span.startByte < e'.span.startByte := by
  have hfit := hfits.of_at hi
  obtain ⟨hspan, hbehind⟩ := hfit.behind hkind
  rcases hnested.below_or_behind hi hj hlt with hbelow | hbehind'
  · obtain ⟨r, -, -, hb⟩ := hnested.of_at hi
    rcases hbelow.cases_top with htop | ⟨k, ek, bk, htop, hat⟩
    · -- a call does not hold a call directly
      have := hfit.holds.of_topAt htop
      rw [hkind, hkind'] at this
      exact absurd this (by decide)
    · have hk := hi.trans (htop.at (some i))
      have hholds := hfit.holds.of_topAt htop
      rw [hkind] at hholds
      by_cases hargument : ek.kind = .argument
      · have hstart := hbehind.of_topAt htop hargument
        obtain ⟨rk, hrk, -, hbk⟩ := hnested.of_at hk
        have hcovers := hbk.covers_of_at hat
        rw [hrk] at hstart
        exact Nat.lt_of_lt_of_le hstart hcovers.1
      · -- below an operand there is nothing
        have hoperand : ek.kind.isOperand = true := by
          simpa [NodeKind.holds, hargument] using hholds
        refine (not_at_of_topAll_false ?_ (hfits.of_at hk).holds hat).elim
        intro x hx
        rw [holds_of_isOperand hoperand] at hx
        cases hx
  · exact Nat.lt_of_lt_of_le hspan hbehind'

/-! ### No call lost -/

/-- The node at position `i`, with the parent `p`, is that of the call. -/
def CallAt (t : Text) (o : Outline) (parent : Option Nat) (first i : Nat) (p : Option Nat)
    (c : Call) : Prop :=
  ∃ e b, o.At parent first i p e b ∧ e.kind = .invocationExpression ∧ e.span = t.span c.extent

/-- The node at position `i`, with the parent `p`, is that of an argument around the call. -/
def ArgumentAt (o : Outline) (parent : Option Nat) (first i : Nat) (p : Option Nat)
    (c : Call) : Prop :=
  ∃ e b, o.At parent first i p e b ∧ e.kind = .argument ∧ e.span.extent.Covers c.extent

/-- The call has a node in the outline of the calls within an interval: at the top, or below an
argument of the smallest call around it. -/
inductive Emitted (t : Text) (calls : List Call) (w : Extent) (c : Call) (o : Outline)
    (parent : Option Nat) (first : Nat) : Prop
  | top {i : Nat} : (∀ k ∈ calls, w.Covers k.extent → ¬ k.extent.Encloses c.extent) →
      CallAt t o parent first i parent c → Emitted t calls w c o parent first
  | inside {i a g : Nat} {p : Option Nat} {k : Call} : k ∈ calls → w.Covers k.extent →
      k.extent.Encloses c.extent →
      (∀ k' ∈ calls, w.Covers k'.extent → k'.extent.Encloses c.extent →
        k'.extent.Covers k.extent) →
      CallAt t o parent first i (some a) c → ArgumentAt o parent first a (some g) c →
      CallAt t o parent first g p k → Emitted t calls w c o parent first

theorem Emitted.lift {calls' : List Call} {w' : Extent} {o o' : Outline} {parent : Option Nat}
    {first first' : Nat} (h : Emitted t calls w c o parent first)
    (hat : ∀ {i p e b}, o.At parent first i p e b → o'.At parent first' i p e b)
    (hmore : ∀ k ∈ calls, w.Covers k.extent → k ∈ calls' ∧ w'.Covers k.extent)
    (hless : ∀ k ∈ calls', w'.Covers k.extent → k.extent.Encloses c.extent →
      k ∈ calls ∧ w.Covers k.extent) : Emitted t calls' w' c o' parent first' := by
  cases h with
  | top hnone hc =>
    obtain ⟨e, b, hc, hfacts⟩ := hc
    refine .top (fun k hk hw hencloses => ?_) ⟨e, b, hat hc, hfacts⟩
    obtain ⟨hk', hw'⟩ := hless k hk hw hencloses
    exact hnone k hk' hw' hencloses
  | inside hk hw hencloses hsmallest hc ha hg =>
    obtain ⟨e, b, hc, hfacts⟩ := hc
    obtain ⟨ea, ba, ha, hargument⟩ := ha
    obtain ⟨eg, bg, hg, houter⟩ := hg
    obtain ⟨hk', hw'⟩ := hmore _ hk hw
    refine .inside hk' hw' hencloses (fun k' hk' hw' hencloses' => ?_) ⟨e, b, hat hc, hfacts⟩
      ⟨ea, ba, hat ha, hargument⟩ ⟨eg, bg, hat hg, houter⟩
    obtain ⟨hk', hw'⟩ := hless k' hk' hw' hencloses'
    exact hsmallest k' hk' hw' hencloses'

/-- Every argument has a node, with the calls within its value below it if there are any. -/
theorem topAt_argumentsOutline {later : List Call} (nested : Extent → Outline)
    {l : List (Option String × Extent × Extent)} {x : Option String × Extent × Extent} (hx : x ∈ l)
    (hc : c ∈ later) (hcovers : x.2.2.Covers c.extent) (first : Nat) :
    ∃ a, (argumentsOutline t s later nested l).TopAt first a
      (plainEntry .argument (t.span x.2.1) s.routine) (nested x.2.2) := by
  induction l generalizing first with
  | nil => cases hx
  | cons y rest ih =>
    rcases List.mem_cons.mp hx with rfl | hx
    · have hany : (later.any fun c => decide (x.2.2.start ≤ c.extent.start) &&
          decide (c.extent.stop ≤ x.2.2.stop)) = true :=
        List.any_eq_true.mpr ⟨c, hc, by simpa [Extent.Covers] using hcovers⟩
      refine ⟨first, ?_⟩
      rw [argumentsOutline, if_pos hany]
      exact .here
    · obtain ⟨a, htop⟩ := ih hx (first + 1 + _)
      exact ⟨a, .later htop⟩

theorem eq_of_covers (ht : t.Copies S) {parameters : List String} {call : Call}
    (hplaced : call.Placed S body) {x y : Option String × Extent × Extent}
    (hx : x ∈ boundArguments t parameters call) (hy : y ∈ boundArguments t parameters call)
    (hlt : c.extent.start < c.extent.stop) (hxc : x.2.2.Covers c.extent)
    (hyc : y.2.2.Covers c.extent) : x = y := by
  have horder := hplaced.order
  rw [← map_boundArguments (t := t) parameters call, List.pairwise_map] at horder
  have hapart : (boundArguments t parameters call).Pairwise fun x y =>
      x.2.1.stop < y.2.1.start ∨ y.2.1.stop < x.2.1.start := horder.imp Or.inl
  have : Std.Symm fun x y : Option String × Extent × Extent =>
      x.2.1.stop < y.2.1.start ∨ y.2.1.stop < x.2.1.start := ⟨fun _ _ h => h.symm⟩
  obtain ⟨-, -, -, hle, hstop⟩ := mem_boundArguments ht hplaced hx
  obtain ⟨-, -, -, hle', hstop'⟩ := mem_boundArguments ht hplaced hy
  obtain ⟨hx₁, hx₂⟩ := hxc
  obtain ⟨hy₁, hy₂⟩ := hyc
  by_contra hne
  rcases hapart.forall hx hy hne with h | h
  · omega
  · omega

/-- The later of two calls lies behind the earlier one or within it. -/
theorem Call.Precedes.behind_or_covers (ht : t.Copies S) {call k : Call} (h : call.Precedes t k)
    (hcall : call.Placed S body) : call.extent.start < k.extent.start ∧
      (call.extent.stop ≤ k.extent.start ∨ call.extent.Covers k.extent) := by
  obtain ⟨hstart, hbehind | hwithin⟩ := h
  · exact ⟨hstart, Or.inl hbehind⟩
  · obtain ⟨x, hx, hxk⟩ := hwithin []
    obtain ⟨hmem, -, -, -, hstop⟩ := mem_boundArguments ht hcall hx
    have := (hcall.argument _ hmem).2.2
    have := hxk.2
    exact ⟨hstart, Or.inr ⟨hstart.le, by omega⟩⟩

theorem Call.Precedes.behind (ht : t.Copies S) {call k : Call} (h : call.Precedes t k)
    (hcall : call.Placed S body) (hlt : c.extent.start < c.extent.stop)
    (hbehind : call.extent.stop ≤ c.extent.start) (hkc : k.extent.Covers c.extent) :
    call.extent.stop ≤ k.extent.start := by
  rcases (h.behind_or_covers ht hcall).2 with hbehind' | hcovers
  · exact hbehind'
  · have := hcovers.2
    have := hkc.2
    omega

theorem Call.Precedes.value_covers (ht : t.Copies S) {call k : Call} (h : call.Precedes t k)
    (hcall : call.Placed S body) (hlt : c.extent.start < c.extent.stop) {parameters : List String}
    {x : Option String × Extent × Extent} (hx : x ∈ boundArguments t parameters call)
    (hxc : x.2.2.Covers c.extent) (hkc : k.extent.Covers c.extent) : x.2.2.Covers k.extent := by
  obtain ⟨-, hbehind | hwithin⟩ := h
  · obtain ⟨hmem, -, -, -, hstop⟩ := mem_boundArguments ht hcall hx
    have := (hcall.argument _ hmem).2.2
    have := hkc.1
    have := hxc.2
    omega
  · obtain ⟨y, hy, hyk⟩ := hwithin parameters
    obtain rfl := eq_of_covers ht hcall hx hy hlt hxc (hyk.trans hkc)
    exact hyk

/-- A call that comes behind the first one has its node in the outline of what is left there. -/
theorem Emitted.of_behind (ht : t.Copies S) {call : Call} {later : List Call}
    (hcall : call.Placed S body) (hprecedes : ∀ k ∈ later, call.Precedes t k)
    (hwcall : w.Covers call.extent) (hlt : c.extent.start < c.extent.stop)
    (hbehind : call.extent.stop ≤ c.extent.start) {o o' : Outline}
    (hat : ∀ {i p e b}, o.At parent first i p e b → o'.At parent first' i p e b)
    (h : Emitted t later ⟨call.extent.stop, w.stop⟩ c o parent first) :
    Emitted t (call :: later) w c o' parent first' := by
  refine h.lift hat ?_ ?_
  · intro k hk hwk
    exact ⟨List.mem_cons_of_mem _ hk, hwcall.1.trans (hcall.lt.le.trans hwk.1), hwk.2⟩
  · intro k hk hwk hencloses
    rcases List.mem_cons.mp hk with rfl | hk
    · have := hencloses.1.2
      omega
    · exact ⟨hk, (hprecedes k hk).behind ht hcall hlt hbehind hencloses.1, hwk.2⟩

/-- A call in the value of an argument of the first one has its node below that argument. -/
theorem Emitted.of_argument (ht : t.Copies S) {call : Call} {later : List Call}
    (hcall : call.Placed S body) (hprecedes : ∀ k ∈ later, call.Precedes t k)
    (hwcall : w.Covers call.extent) (hlt : c.extent.start < c.extent.stop)
    (hstart : call.extent.start < c.extent.start) {parameters : List String}
    {x : Option String × Extent × Extent} (hx : x ∈ boundArguments t parameters call)
    (hxc : x.2.2.Covers c.extent) {e : Entry} (hinvocation : e.kind = .invocationExpression)
    (hspan : e.span = t.span call.extent) {below values next : Outline} {a : Nat}
    (hat : below.At (some first) (first + 1) a (some first)
      (plainEntry .argument (t.span x.2.1) s.routine) values)
    (h : Emitted t later x.2.2 c values (some a) (a + 1)) :
    Emitted t (call :: later) w c (.node e below next) parent first := by
  obtain ⟨hmem, -, -, hle, hstop⟩ := mem_boundArguments ht hcall hx
  obtain ⟨-, hargument, hargument'⟩ := hcall.argument _ hmem
  have hcallx : call.extent.Covers x.2.2 := ⟨by omega, by omega⟩
  have hcovers : x.2.1.Covers c.extent := ⟨hle.trans hxc.1, hxc.2.trans hstop.le⟩
  have hvalue : ∀ k ∈ later, k.extent.Encloses c.extent → x.2.2.Covers k.extent :=
    fun k hk hkc => (hprecedes k hk).value_covers ht hcall hlt hx hxc hkc.1
  cases h with
  | top hnone hcAt =>
    -- no later call is around this one, so the first one is the smallest that is
    obtain ⟨e, b, hcAt, hfacts⟩ := hcAt
    refine .inside List.mem_cons_self hwcall ((hcallx.trans hxc).encloses hstart) ?_
      ⟨e, b, .inside (hat.trans hcAt), hfacts⟩ ⟨_, _, .inside hat, rfl, hcovers⟩
      ⟨_, _, .here, hinvocation, hspan⟩
    intro k hk _ hkc
    rcases List.mem_cons.mp hk with rfl | hk
    · exact .refl _
    · exact absurd hkc (hnone k hk (hvalue k hk hkc))
  | inside hk hxk hkc hsmallest hcAt haAt hgAt =>
    obtain ⟨e, b, hcAt, hfacts⟩ := hcAt
    obtain ⟨ea, ba, haAt, hargument⟩ := haAt
    obtain ⟨eg, bg, hgAt, houter⟩ := hgAt
    refine .inside (List.mem_cons_of_mem _ hk) (hwcall.trans (hcallx.trans hxk)) hkc ?_
      ⟨e, b, .inside (hat.trans hcAt), hfacts⟩ ⟨ea, ba, .inside (hat.trans haAt), hargument⟩
      ⟨eg, bg, .inside (hat.trans hgAt), houter⟩
    intro k' hk' _ hkc'
    rcases List.mem_cons.mp hk' with rfl | hk'
    · exact hcallx.trans hxk
    · exact hsmallest k' hk' (hvalue k' hk' hkc') hkc'

/-- **Every call within the interval has a node in the outline.** -/
theorem emitted_outlineCalls (ht : t.Copies S) (hplaced : ∀ c ∈ calls, c.Placed S body)
    (hcalls : calls.Pairwise (Call.Precedes t)) (hc : c ∈ calls) (hw : w.Covers c.extent)
    (parent : Option Nat) (first : Nat) :
    Emitted t calls w c (outlineCalls t s calls w) parent first := by
  induction calls generalizing w parent first with
  | nil => cases hc
  | cons call later ih =>
    obtain ⟨hprecedes, hlater⟩ := List.pairwise_cons.mp hcalls
    have hcall := hplaced call List.mem_cons_self
    have hplaced' : ∀ c ∈ later, c.Placed S body := fun c hc => hplaced c (List.mem_cons_of_mem _ hc)
    rw [outlineCalls]
    split
    · -- the first call is not within the interval
      rename_i houtside
      have hnot : ¬ w.Covers call.extent := fun hcovers => by
        have := hcovers.1
        have := hcovers.2
        omega
      have hne : ∀ k ∈ call :: later, w.Covers k.extent → k ∈ later := by
        intro k hk hwk
        rcases List.mem_cons.mp hk with rfl | hk
        · exact absurd hwk hnot
        · exact hk
      refine (ih hplaced' hlater (hne c hc hw) hw parent first).lift (fun hat => hat) ?_ ?_
      · exact fun k hk hwk => ⟨List.mem_cons_of_mem _ hk, hwk⟩
      · exact fun k hk hwk _ => ⟨hne k hk hwk, hwk⟩
    · rename_i hinside
      have hwcall : w.Covers call.extent := ⟨by omega, by omega⟩
      rcases List.mem_cons.mp hc with rfl | hc'
      · -- what comes later in the list starts later
        refine .top (fun k hk _ hencloses => ?_) ⟨_, _, .here, rfl, rfl⟩
        rcases List.mem_cons.mp hk with rfl | hk
        · exact hencloses.2 rfl
        · have := (hprecedes k hk).1
          have := hencloses.1.1
          omega
      · have hlt := (hplaced' c hc').lt
        obtain ⟨hstart, hbehind | hwithin⟩ := hprecedes c hc'
        · have hw' : Extent.Covers ⟨call.extent.stop, w.stop⟩ c.extent := ⟨hbehind, hw.2⟩
          exact (ih hplaced' hlater hc' hw' parent _).of_behind ht hcall hprecedes hwcall hlt hbehind
            fun hat => .later hat
        · obtain ⟨x, hx, hxc⟩ := hwithin (s.target t call).parameters
          obtain ⟨a, htop⟩ := topAt_argumentsOutline (t := t) (s := s)
            (fun value => outlineCalls t s later value) hx hc' hxc
            (first + 1 + (receiverOutline t s call (s.target t call).receiver).size)
          exact (ih hplaced' hlater hc' hxc (some a) (a + 1)).of_argument ht hcall hprecedes hwcall
            hlt hstart hx hxc rfl rfl (.append_right (htop.at (some first)))

/-! ### Nothing but the calls -/

theorem all_receiverOutline_operand {P : Entry → Outline → Prop}
    (hP : ∀ e, e.kind.isOperand = true → e.containingSymbol = some s.routine → P e .empty)
    (call : Call) (r : Receiver) : (receiverOutline t s call r).All P := by
  cases r with
  | absent => trivial
  | declared v place => exact .single (hP _ v.isOperand_referenceKind rfl) trivial
  | implicit v => exact .single (hP _ v.isOperand_referenceKind rfl) trivial
  | static kind place => exact .single (hP _ rfl rfl) trivial
  | unknown place => exact .single (hP _ rfl rfl) trivial

theorem all_operandOutline_operand {P : Entry → Outline → Prop}
    (hP : ∀ e, e.kind.isOperand = true → e.containingSymbol = some s.routine → P e .empty)
    (r : Extent) : (operandOutline t s r).All P := by
  simp only [operandOutline]
  split
  · rename_i v _
    exact .single (hP _ v.isOperand_referenceKind rfl) trivial
  · exact .single (hP _ rfl rfl) trivial

/-- The entry is no call, or that of a call of the list. -/
def FromCalls (t : Text) (calls : List Call) (e : Entry) (_ : Outline) : Prop :=
  e.kind = .invocationExpression → ∃ c ∈ calls, e.span = t.span c.extent

theorem fromCalls_operand (e : Entry) (h : e.kind.isOperand = true)
    (_ : e.containingSymbol = some s.routine) : FromCalls t calls e .empty := by
  intro hkind
  rw [hkind] at h
  exact absurd h (by decide)

theorem fromCalls_argumentsOutline {later : List Call} {nested : Extent → Outline}
    (h : ∀ value, (nested value).All (FromCalls t calls))
    (l : List (Option String × Extent × Extent)) :
    (argumentsOutline t s later nested l).All (FromCalls t calls) := by
  induction l with
  | nil => trivial
  | cons x rest ih =>
    obtain ⟨p, r, value⟩ := x
    rw [argumentsOutline]
    split
    · exact ⟨by rintro ⟨⟩, h value, ih⟩
    · exact ⟨by rintro ⟨⟩, all_operandOutline_operand fromCalls_operand value, ih⟩

/-- **The outline of calls has no other calls in it.** -/
theorem fromCalls_outlineCalls {all : List Call} (hsub : ∀ c ∈ calls, c ∈ all) (w : Extent) :
    (outlineCalls t s calls w).All (FromCalls t all) := by
  induction calls generalizing w with
  | nil => trivial
  | cons call later ih =>
    have hlater : ∀ w, (outlineCalls t s later w).All (FromCalls t all) :=
      ih fun c hc => hsub c (List.mem_cons_of_mem _ hc)
    rw [outlineCalls]
    split
    · exact hlater w
    · refine ⟨fun _ => ⟨call, hsub call List.mem_cons_self, rfl⟩, ?_, hlater _⟩
      exact (all_receiverOutline_operand fromCalls_operand _ _).append
        (fromCalls_argumentsOutline hlater _)

/-- Among the calls, this one is the smallest that strictly encloses the other. -/
structure Call.Innermost (calls : List Call) (k c : Call) : Prop where
  mem : k ∈ calls
  encloses : k.extent.Encloses c.extent
  smallest : ∀ k' ∈ calls, k'.extent.Encloses c.extent → k'.extent.Covers k.extent

end Source

/-! ### The calls of a tree -/

namespace Tree

/-- Whether the node at a position is a call. -/
def isCall (t : Tree) (i : NodeId) : Bool := (t.node? i).any (·.kind == .invocationExpression)

/-- The node at the position is a call with the span. -/
def CallAt (t : Tree) (span : Span) (i : NodeId) : Prop :=
  ∃ n, t.node? i = some n ∧ n.kind = .invocationExpression ∧ n.span = span

/-- The node at position `j` stands where the call `c` of the block belongs: directly below the
block if no call encloses it, and otherwise below an argument that it lies in, of the smallest call
that encloses it, which is the nearest call above it. -/
inductive Housed (tree : Tree) (t : Source.Text) (calls : List Source.Call) (block : NodeId)
    (c : Source.Call) (j : NodeId) : Prop
  | outermost : (∀ k ∈ calls, ¬ k.extent.Encloses c.extent) → tree.parent? j = some block →
      Housed tree t calls block c j
  | nested {k : Source.Call} {a g : NodeId} {m : Node} : Source.Call.Innermost calls k c →
      tree.parent? j = some a → tree.node? a = some m → m.kind = .argument →
      m.span.extent.Covers c.extent → tree.parent? a = some g → tree.CallAt (t.span k.extent) g →
      (tree.ancestors j).find? tree.isCall = some g → Housed tree t calls block c j

end Tree

namespace Source

open Outline

section Tree

variable {tree : Tree} {doc : Document} {o b : Outline} {p : Option Nat} {e : Entry} {i j : NodeId}
  (hdoc : Tree.ofDocument doc = .ok tree) (hnodes : tree.nodes = o.nodesFrom none 0)
include hnodes

theorem callAt_of_at (h : o.At none 0 j p e b) (hkind : e.kind = .invocationExpression) :
    tree.CallAt e.span j := ⟨_, h.node?_eq hnodes, hkind, rfl⟩

theorem parent?_of_at (h : o.At none 0 j p e b) : tree.parent? j = p := by
  rw [Tree.parent?, h.node?_eq hnodes]
  rfl

include hdoc

theorem at_of_mem_ancestors (h : o.At none 0 i p e b) (hj : i ∈ tree.ancestors j) :
    ∃ p' e' b', b.At (some i) (i + 1) j p' e' b' := by
  have hordered := Tree.ordered_of_ofDocument hdoc
  induction j using Nat.strong_induction_on with
  | _ j ih =>
    cases hparent : tree.parent? j with
    | none =>
      rw [hordered.ancestors_of_root hparent] at hj
      cases hj
    | some q =>
      rw [hordered.ancestors_of_parent hparent] at hj
      rcases List.mem_cons.mp hj with rfl | hj
      · obtain ⟨e', b', htop, -⟩ := h.of_parent? hnodes hparent
        exact ⟨_, e', b', htop.at _⟩
      · obtain ⟨p', e', b', hat⟩ := ih q (hordered.parent_lt hparent) hj
        obtain ⟨e'', b'', htop, -⟩ := (h.trans hat).of_parent? hnodes hparent
        exact ⟨_, e'', b'', hat.trans (htop.at _)⟩

end Tree

/-- **No two nodes are calls with the same span.** -/
theorem callAt_unique {tree : Tree} {o : Outline} (hnodes : tree.nodes = o.nodesFrom none 0)
    (hnested : o.Nested S t w) (hfits : o.All (Entry.Fits t)) {span : Span} {i j : NodeId}
    (hi : tree.CallAt span i) (hj : tree.CallAt span j) : i = j := by
  obtain ⟨m, hm, hkind, hspan⟩ := hi
  obtain ⟨n, hn, hkind', hspan'⟩ := hj
  obtain ⟨p, e, b, hat, rfl⟩ := exists_at_of_node? hnodes hm
  obtain ⟨p', e', b', hat', rfl⟩ := exists_at_of_node? hnodes hn
  have hsame : e.span = e'.span := hspan.trans hspan'.symm
  rcases Nat.lt_trichotomy i j with hlt | heq | hlt
  · have := start_lt_of_calls hnested hfits hat hat' hkind hkind' hlt
    rw [hsame] at this
    exact absurd this (Nat.lt_irrefl _)
  · exact heq
  · have := start_lt_of_calls hnested hfits hat' hat hkind' hkind hlt
    rw [hsame] at this
    exact absurd this (Nat.lt_irrefl _)

/-- **The call of an outline below a block has its place in the tree.** -/
theorem housed_of_emitted {tree : Tree} {doc : Document} {o b : Outline} {p : Option Nat}
    {e : Entry} {i : NodeId} (hdoc : Tree.ofDocument doc = .ok tree)
    (hnodes : tree.nodes = o.nodesFrom none 0) (hblock : o.At none 0 i p e b)
    (hcalls : ∀ k ∈ calls, body.Covers k.extent) (h : Emitted t calls body c b (some i) (i + 1)) :
    ∃ j, tree.CallAt (t.span c.extent) j ∧ tree.Housed t calls i c j := by
  have hordered := Tree.ordered_of_ofDocument hdoc
  cases h with
  | @top j hnone hc =>
    obtain ⟨ec, bc, hc, hkind, hspan⟩ := hc
    have hcat := hblock.trans hc
    refine ⟨j, hspan ▸ callAt_of_at hnodes hcat hkind, .outermost ?_ (parent?_of_at hnodes hcat)⟩
    exact fun k hk => hnone k hk (hcalls k hk)
  | @inside j a g p' k hk _ hencloses hsmallest hc ha hg =>
    obtain ⟨ec, bc, hc, hkind, hspan⟩ := hc
    obtain ⟨ea, ba, ha, hargument, hcovers⟩ := ha
    obtain ⟨eg, bg, hg, hkind', hspan'⟩ := hg
    have hcat := hblock.trans hc
    have haat := hblock.trans ha
    have hgat := hblock.trans hg
    have hparent := parent?_of_at hnodes hcat
    have hparent' := parent?_of_at hnodes haat
    -- the argument is no call, and the call above it is
    have hnot : tree.isCall a = false := by
      rw [Tree.isCall, haat.node?_eq hnodes]
      simp [toNode, hargument]
    have hyes : tree.isCall g = true := by
      rw [Tree.isCall, hgat.node?_eq hnodes]
      simp [toNode, hkind']
    refine ⟨j, hspan ▸ callAt_of_at hnodes hcat hkind, .nested ⟨hk, hencloses, ?_⟩ hparent
      (haat.node?_eq hnodes) hargument hcovers hparent' (hspan' ▸ callAt_of_at hnodes hgat hkind') ?_⟩
    · exact fun k' hk' => hsmallest k' hk' (hcalls k' hk')
    · rw [hordered.ancestors_of_parent hparent, hordered.ancestors_of_parent hparent',
        List.find?_cons_of_neg (by simp [hnot]), List.find?_cons_of_pos hyes]

/-- **In a body with nested brackets and closed quotes no call is lost or duplicated.** The calls
found in it lie one behind the other or one within the other; each is the call of exactly one node,
which stands where it belongs; and the nodes below the block that are calls are those. -/
theorem housed_of_resolve {path source : String} {tree : Tree}
    (h : resolve path source = .ok tree) {i : NodeId} {n : Node} (hn : tree.node? i = some n)
    (hkind : n.kind = .block)
    (hquotes : ((bare (Cells.ofString source)).slice n.span.extent).quotesClosed false = true)
    (hnests : ((bare (Cells.ofString source)).slice n.span.extent).nests [] = true) :
    let t := Text.ofCells (Cells.ofString source)
    let calls := t.calls n.span.extent
    (calls.Pairwise fun a b => a.extent.start < b.extent.start ∧
      (a.extent.stop ≤ b.extent.start ∨ a.extent.Covers b.extent)) ∧
    (∀ c ∈ calls, ∃ j, tree.CallAt (t.span c.extent) j ∧
      (∀ j', tree.CallAt (t.span c.extent) j' → j' = j) ∧ tree.Housed t calls i c j) ∧
    ∀ j, i ∈ tree.ancestors j → tree.isCall j = true →
      ∃ c ∈ calls, tree.CallAt (t.span c.extent) j := by
  intro t calls
  have hcopies : t.Copies (Cells.ofString source) := Text.copies_ofCells (Cells.whole_ofString source)
  obtain ⟨doc, objects, hdoc, -, hnodes, hnested, hfits⟩ := exists_nested_of_resolve h
  obtain ⟨p, e, b, hat, rfl⟩ := exists_at_of_node? hnodes hn
  obtain ⟨s, body, hspan, ⟨hlt, x, hx, hword⟩, hbelow⟩ := (hfits.of_at hat).block hkind
  have hextent : (toNode e p i b).span.extent = body := by
    rw [show (toNode e p i b).span = e.span from rfl, hspan]
    rfl
  have hcuts : (Cells.ofString source).Cuts body := by
    obtain ⟨r, hr, hcuts, -⟩ := hnested.of_at hat
    have hsame : r = body := congrArg Span.extent (hr.symm.trans hspan)
    exact hsame ▸ hcuts
  rw [hextent] at hquotes hnests
  have hcalls_eq : calls = t.calls body := by rw [← hextent]
  rw [hcalls_eq]
  -- the body starts with a word, so it starts outside quotes
  have hregular : t.Regular body := ⟨(tidy_bare hlt hx hword hquotes).between, hnests⟩
  have hprecedes := pairwise_precedes_calls hcopies hcuts hregular
  have hplaced : ∀ c ∈ t.calls body, c.Placed (Cells.ofString source) body :=
    fun c hc => placed_of_mem_calls hcopies hcuts hc
  have hcovers : ∀ c ∈ t.calls body, body.Covers c.extent :=
    fun c hc => ⟨(hplaced c hc).start_le, (hplaced c hc).stop_le⟩
  refine ⟨hprecedes.imp_of_mem ?_, ?_, ?_⟩
  · exact fun ha _ hab => hab.behind_or_covers hcopies (hplaced _ ha)
  · intro c hc
    have hemitted := emitted_outlineCalls (s := s) hcopies hplaced hprecedes hc (hcovers c hc)
      (some i) (i + 1)
    rw [← hbelow] at hemitted
    obtain ⟨j, hj, hhoused⟩ := housed_of_emitted hdoc hnodes hat hcovers hemitted
    exact ⟨j, hj, fun j' hj' => callAt_unique hnodes hnested hfits hj' hj, hhoused⟩
  · intro j hj hcall
    obtain ⟨p', e', b', hat'⟩ := at_of_mem_ancestors hdoc hnodes hat hj
    have hnode := (hat.trans hat').node?_eq hnodes
    have hkind' : e'.kind = .invocationExpression := by
      rw [Tree.isCall, hnode] at hcall
      simpa [toNode] using hcall
    have hfrom := (fromCalls_outlineCalls (t := t) (s := s) (fun c hc => hc) body).of_at
      (hbelow ▸ hat')
    obtain ⟨c, hc, hspan'⟩ := hfrom hkind'
    exact ⟨c, hc, hspan' ▸ callAt_of_at hnodes (hat.trans hat') hkind'⟩

/-- A procedure with calls in the arguments of a call: one in a call on a quoted name, one as the
value of a named argument, one in square brackets. -/
def callSource : String :=
  "codeunit 1 C\x7bprocedure P()begin A(B(\"q r\".D(1)),N := E[F(2,'(\"')])end;\x7d"

/-- The calls of the sample's body have their places; the call of `F`, which is the last of the
four, lies in the call of `A` and in no other. -/
theorem housed_callSource : ∃ tree n, resolve "a.al" callSource = .ok tree ∧
    tree.node? 3 = some n ∧ n.kind = .block ∧
    ((Text.ofCells (Cells.ofString callSource)).calls n.span.extent).map (·.extent) =
      [⟨32, 66⟩, ⟨34, 47⟩, ⟨36, 46⟩, ⟨55, 64⟩] ∧
    ∀ c ∈ (Text.ofCells (Cells.ofString callSource)).calls n.span.extent, ∃ j,
      tree.CallAt ((Text.ofCells (Cells.ofString callSource)).span c.extent) j ∧
        tree.Housed (Text.ofCells (Cells.ofString callSource))
          ((Text.ofCells (Cells.ofString callSource)).calls n.span.extent) 3 c j := by
  have h : (resolve "a.al" callSource).toOption.any (fun tree => (tree.node? 3).any fun n =>
      decide (n.kind = .block ∧
        ((bare (Cells.ofString callSource)).slice n.span.extent).quotesClosed false = true ∧
        ((bare (Cells.ofString callSource)).slice n.span.extent).nests [] = true ∧
        ((Text.ofCells (Cells.ofString callSource)).calls n.span.extent).map (·.extent) =
          [⟨32, 66⟩, ⟨34, 47⟩, ⟨36, 46⟩, ⟨55, 64⟩])) = true := by decide +kernel
  obtain ⟨tree, htree, h⟩ := exists_ok_of_any h
  obtain ⟨n, hn, h⟩ := (Option.any_eq_true _ _).mp h
  obtain ⟨hkind, hquotes, hnests, hextents⟩ := of_decide_eq_true h
  refine ⟨tree, n, htree, hn, hkind, hextents, fun c hc => ?_⟩
  obtain ⟨j, hj, -, hhoused⟩ := (housed_of_resolve htree hn hkind hquotes hnests).2.1 c hc
  exact ⟨j, hj, hhoused⟩

end Source
end TreeLint
