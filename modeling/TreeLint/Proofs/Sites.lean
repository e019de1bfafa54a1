/-
# Where calls, routines and objects stand

Everything that the front end turns into a node is an interval that can be cut
out of the source. Here the intervals are compared: a call lies in the body it
was found in, its receiver before its parenthesis and its arguments, in order,
behind it; a routine lies among the members of its object, behind the routine
before it, and its body at its end; an object ends with the brace that closes it.

Key definitions: `Source.Call.Placed`, `Source.Routine.Placed`,
`Source.ObjectSite.Placed`.
Key theorems: `Source.placed_of_mem_calls`, `Source.placed_routines`,
`Source.placed_objectSite`, `Source.resolveObjects_induction`.
-/
import TreeLint.Proofs.Pieces
import TreeLint.Source.Resolve

namespace TreeLint
namespace Source

variable {S : Cells} {t : Text} {r : Extent}

namespace Text

theorem Copies.cuts_of_separated (ht : t.Copies S) (hr : S.Cuts r) {sep : Char}
    (hsize : sep.utf8Size = 1) (hne : sep ≠ ' ') {ps : List Extent}
    (hps : (t.bare.slice r).Separated sep r.start r.start r.stop ps) {p : Extent} (hp : p ∈ ps) :
    S.Cuts p ∧ r.start ≤ p.start ∧ p.stop ≤ r.stop := by
  have hmark : ∀ {k}, (t.bare.slice r).HasAt r.start k sep → S.Snug ⟨k, k + 1⟩ := by
    intro k hk
    obtain ⟨-, -, x, hx, rfl⟩ := hk.of_slice
    exact ht.bare.snug_single hx hsize hne
  obtain ⟨hstart, hle, hstop, hbefore, hafter⟩ := hps.each p hp
  refine ⟨⟨hle, ?_, ?_⟩, hstart, hstop⟩
  · rcases hbefore with heq | ⟨hpos, hat⟩
    · rw [heq]
      exact hr.start
    · have := (hmark hat).stop
      rwa [show p.start - 1 + 1 = p.start by omega] at this
  · rcases hafter with heq | hat
    · rw [heq]
      exact hr.stop
    · exact (hmark hat).start

theorem Copies.cuts_segment (ht : t.Copies S) (hr : S.Cuts r) {p : Extent}
    (hp : p ∈ segmentsFrom r.start r.start (t.bare.slice r)) : S.Cuts p := by
  have hsegments : (t.bare.slice r).Separated ';' r.start r.start
      (r.start + (t.bare.slice r).length) (segmentsFrom r.start r.start (t.bare.slice r)) :=
    separated_segmentsFrom le_rfl
  rw [Cells.length_slice (ht.bare.cuts hr).stop_le, show r.start + (r.stop - r.start) = r.stop by
    have := hr.le
    omega] at hsegments
  exact (ht.cuts_of_separated hr (by decide) (by decide) hsegments hp).1

/-- **The arguments between two parentheses** stand in order and can be cut out. -/
theorem Copies.placed_arguments (ht : t.Copies S) (hr : S.Cuts r) :
    (∀ a ∈ t.arguments r, S.Cuts a ∧ r.start ≤ a.start ∧ a.stop ≤ r.stop) ∧
      (t.arguments r).Pairwise (·.stop < ·.start) := by
  unfold Text.arguments
  split
  · exact ⟨nofun, .nil⟩
  · have hpieces := separated_pieces (ht.bare.cuts hr)
    have hpiece : ∀ p ∈ piecesFrom 0 r.start r.start (t.bare.slice r),
        S.Cuts (t.trim p) ∧ p.start ≤ (t.trim p).start ∧ (t.trim p).stop ≤ p.stop ∧
          r.start ≤ p.start ∧ p.stop ≤ r.stop := by
      intro p hp
      obtain ⟨hcuts, hstart, hstop⟩ :=
        ht.cuts_of_separated hr (by decide) (by decide) hpieces hp
      obtain ⟨htrim, hstart', hstop', -⟩ := ht.cuts_trim (ht.bare.cuts hcuts) hcuts.stop
      exact ⟨htrim, hstart', hstop', hstart, hstop⟩
    constructor
    · intro a ha
      obtain ⟨p, hp, rfl⟩ := List.mem_map.mp ha
      obtain ⟨htrim, hstart, hstop, hle, hle'⟩ := hpiece p hp
      exact ⟨htrim, by omega, by omega⟩
    · rw [List.pairwise_map]
      refine hpieces.order.imp_of_mem ?_
      intro p q hp hq hlt
      have := (hpiece p hp).2.2.1
      have := (hpiece q hq).2.1
      omega

end Text

theorem cuts_bindArgument (ht : t.Copies S) (hr : S.Cuts r) (parameters : List String)
    (position : Nat) :
    S.Cuts (bindArgument t parameters position r).2 ∧
      r.start ≤ (bindArgument t parameters position r).2.start ∧
      (bindArgument t parameters position r).2.stop = r.stop := by
  unfold bindArgument
  split
  · rename_i name value hnamed
    have hbare := ht.bare.cuts hr
    have hlength : (t.bare.slice r).length = r.stop - r.start := Cells.length_slice hbare.stop_le
    obtain ⟨-, -, hvalue, hnext⟩ :=
      placed_namedArgument? (ht.bare.whole.slice hbare.start hbare.stop) hnamed
    have hle := Cells.le_length_of_isBoundary hvalue
    have hsum : r.start + value ≤ r.stop := by
      have := hr.le
      omega
    refine ⟨⟨hsum, ?_, hr.stop⟩, by simp, rfl⟩
    simp only
    by_cases hend : r.start + value = r.stop
    · rw [hend]
      exact hr.stop
    · -- behind the blanks stands something that is none
      obtain ⟨x, hx⟩ : ∃ x, (t.bare.slice r)[value]? = some x :=
        ⟨_, List.getElem?_eq_getElem (by omega)⟩
      have hblank := hnext x hx
      have hlead := Cells.lead_of_isBoundary hvalue hx
      rw [Cells.getElem?_slice, if_pos (by omega)] at hx
      have hboundary : t.bare.isBoundary (r.start + value) = true := by
        rw [Cells.isBoundary_iff]
        refine ⟨by have := hbare.stop_le; omega, fun y hy => ?_⟩
        obtain rfl := Option.some.inj (hx.symm.trans hy)
        exact hlead
      exact ht.bare.isBoundary_of_ne_space hboundary (Or.inl hx) (Cell.ne_space_of_isBlank hblank)
  · exact ⟨hr, le_rfl, rfl⟩

/-! ### Calls -/

/-- A call lies in the interval, its receiver at its start and its arguments behind that. -/
structure Call.Placed (S : Cells) (within : Extent) (call : Call) : Prop where
  cuts : S.Cuts call.extent
  lt : call.extent.start < call.extent.stop
  start_le : within.start ≤ call.extent.start
  stop_le : call.extent.stop ≤ within.stop
  receiver : ∀ r, call.receiver = some r → S.Cuts r ∧ call.extent.start = r.start ∧
    r.stop < call.extent.stop ∧ ∀ a ∈ call.arguments, r.stop ≤ a.start
  receiver_lt : ∀ r, call.receiver = some r → r.start < r.stop
  argument : ∀ a ∈ call.arguments,
    S.Cuts a ∧ call.extent.start < a.start ∧ a.stop < call.extent.stop
  order : call.arguments.Pairwise (·.stop < ·.start)

/-- **What a call of a body is:** the head of a call that is found in the body, with the closing
parenthesis that belongs to the one it ends with. -/
theorem exists_of_callOf? {start : Cursor} {f : Found CallHead} {call : Call}
    (h : t.callOf? start f = some call) :
    ∃ close, closingParen? (start.moveTo (f.extent.stop - 1)) = some close ∧
      call.extent = ⟨f.extent.start, close + 1⟩ ∧
      call.arguments = t.arguments ⟨f.extent.stop - 1 + 1, close⟩ ∧
      ∀ r, call.receiver = some r → r = f.value.first := by
  have hmap : ∀ {receiver : Option Extent} {method : String},
      (closingParen? (start.moveTo (f.extent.stop - 1))).map (fun close =>
        (⟨⟨f.extent.start, close + 1⟩, receiver, method,
          t.arguments ⟨f.extent.stop - 1 + 1, close⟩⟩ : Call)) = some call →
      (∀ r, receiver = some r → r = f.value.first) →
      ∃ close, closingParen? (start.moveTo (f.extent.stop - 1)) = some close ∧
        call.extent = ⟨f.extent.start, close + 1⟩ ∧
        call.arguments = t.arguments ⟨f.extent.stop - 1 + 1, close⟩ ∧
        ∀ r, call.receiver = some r → r = f.value.first := by
    intro receiver method h hreceiver
    obtain ⟨close, hclose, rfl⟩ := Option.map_eq_some_iff.mp h
    exact ⟨close, hclose, rfl, rfl, hreceiver⟩
  unfold Text.callOf? at h
  cases hmember : f.value.member with
  | some m =>
    simp only [hmember, Option.isNone_some, Bool.false_and, Bool.false_eq_true, if_false] at h
    exact hmap h fun r hr => (Option.some.inj hr).symm
  | none =>
    simp only [hmember] at h
    split at h
    · cases h
    · exact hmap h nofun

theorem lt_closingParen? {cs : Cells} {stop close : Nat} {c : Cursor} (h : c.In cs stop)
    (pos : Nat) (hle : c.pos ≤ pos) (hlt : pos < stop) {x : Cell} (hx : cs[pos]? = some x)
    (hopening : x.char = '(') (hclose : closingParen? (c.moveTo pos) = some close) :
    pos < close ∧ close < stop ∧ ∃ y, cs[close]? = some y ∧ y.char = ')' := by
  obtain ⟨hin, hpos⟩ := h.moveTo pos hle hlt.le
  have hat := hasAt_parenEnd hclose
  rw [hin.rest_eq, hpos] at hat
  obtain ⟨hle', hlt', y, hy, hychar⟩ := hat.of_slice
  simp only at hle' hlt'
  refine ⟨?_, hlt', y, hy, hychar⟩
  -- an opening parenthesis is no closing one
  have hne : close ≠ pos := by
    rintro rfl
    obtain rfl := Option.some.inj (hx.symm.trans hy)
    rw [hopening] at hychar
    revert hychar
    decide
  omega

theorem placed_of_mem_calls (ht : t.Copies S) {body : Extent} (hbody : S.Cuts body) {call : Call}
    (h : call ∈ t.calls body) : call.Placed S body := by
  have hbare := ht.bare.cuts hbody
  have hstart := Cursor.in_ofSlice hbare.le hbare.start
  obtain ⟨f, hf, hcall⟩ := List.mem_filterMap.mp h
  obtain ⟨hle, hstop, hplaced⟩ := foundFrom_callHead ht.bare.whole hbare.stop
    (Pattern.foundFrom_of_mem_all hbare.stop_le hstart hf)
  simp only [Cursor.ofSlice] at hle
  obtain ⟨close, hclose, hextent', harguments, hreceiver⟩ := exists_of_callOf? hcall
  obtain ⟨x, hx, hxchar⟩ := hplaced.opening
  have hlt := hplaced.whole.lt
  obtain ⟨hopen, hcloses, y, hy, hychar⟩ := lt_closingParen? hstart
    (f.extent.stop - 1) (by simp only [Cursor.ofSlice]; omega) (by omega) hx hxchar hclose
  have hsource := ht.bare.snug hplaced.whole
  have hmark : S.Snug ⟨close, close + 1⟩ :=
    ht.bare.snug_single hy (by rw [hychar]; decide) (by rw [hychar]; decide)
  have hinner : S.Cuts ⟨f.extent.stop - 1 + 1, close⟩ := by
    refine ⟨by simp only; omega, ?_, hmark.start⟩
    rw [show f.extent.stop - 1 + 1 = f.extent.stop by omega]
    exact hsource.stop
  obtain ⟨hargument, horder⟩ := ht.placed_arguments hinner
  rw [← harguments] at hargument horder
  have hfirst := hplaced.first_stop
  refine ⟨?_, ?_, ?_, ?_, ?_, ?_, ?_, horder⟩
  · rw [hextent']
    exact ⟨by simp only; omega, hsource.start, hmark.stop⟩
  · rw [hextent']
    simp only
    omega
  · rw [hextent']
    exact hle
  · rw [hextent']
    simp only
    omega
  · intro r hr
    obtain rfl := hreceiver r hr
    rw [hextent']
    refine ⟨(ht.bare.snug hplaced.first).cuts, hplaced.first_start.symm, by simp only; omega, ?_⟩
    intro a ha
    have := (hargument a ha).2.1
    simp only at this
    omega
  · intro r hr
    obtain rfl := hreceiver r hr
    exact hplaced.first.lt
  · intro a ha
    obtain ⟨hcuts, hstart', hstop'⟩ := hargument a ha
    rw [hextent']
    simp only at hstart' hstop' ⊢
    exact ⟨hcuts, by omega, by omega⟩

/-! ### Routines -/

/-- A routine lies among the members, from its header on; its body ends where it ends. -/
structure Routine.Placed (S bare : Cells) (members : Extent) (r : Routine) : Prop where
  start_le : members.start ≤ r.header
  lt : r.header < r.extent.stop
  stop_le : r.extent.stop ≤ members.stop
  cuts : S.Cuts ⟨r.header, r.extent.stop⟩
  name : S.Snug r.name
  parameters : S.Cuts r.parameters
  locals : ∀ l, r.locals = some l → S.Cuts l
  body : ∀ b, r.body = some b → S.Cuts b ∧ r.header < b.start ∧ b.stop = r.extent.stop
  begins : ∀ b, r.body = some b → b.start < b.stop ∧ ∃ x, bare[b.start]? = some x ∧ x.isWord = true

theorem isWord_keyword {cs : Cells} {start stop : Nat} {w : String} {f : Found Unit}
    (hcs : cs.Whole) (hstop : cs.isBoundary stop = true) (hw : w.toList ≠ [])
    (hletters : ∀ k ∈ w.toList, 'a' ≤ k ∧ k ≤ 'z') (h : (keyword w).FoundFrom cs start stop f) :
    cs.Each f.extent.start f.extent.stop (Cell.isWord · = true) ∧ f.extent.start < f.extent.stop := by
  obtain ⟨c, d, hc, -, -, hmatch, hextent⟩ := h
  obtain ⟨e, he, heq⟩ := Option.map_eq_some_iff.mp hmatch
  cases heq
  obtain ⟨-, -, hle, hall⟩ := hc.wholeWord? hcs hstop he
  have hpos : 0 < w.toList.length := List.length_pos_iff.mpr hw
  rw [hextent]
  refine ⟨hall.mono ?_, by simp only; omega⟩
  rintro x ⟨k, hk, hfolds⟩
  exact CharClass.isWord_of_folds (hletters k hk) hfolds

theorem exists_in_of_nextHeader (hbare : t.bare.Whole) {stop : Nat}
    (hstop : t.bare.isBoundary stop = true) {close : Cursor} (hclose : close.In t.bare stop) :
    ∃ limit, t.bare.isBoundary limit = true ∧ limit ≤ stop ∧
      (match routineHeader.first? close with
        | some f => close.stopAt f.extent.start
        | none => close).In t.bare limit ∧
      (match routineHeader.first? close with
        | some f => close.stopAt f.extent.start
        | none => close).pos = close.pos := by
  cases hfirst : routineHeader.first? close with
  | none => exact ⟨stop, hstop, le_rfl, hclose, rfl⟩
  | some f =>
    obtain ⟨hle, hle', hplaced⟩ := foundFrom_routineHeader hbare hstop
      (Pattern.foundFrom_of_first? (Cells.le_length_of_isBoundary hstop) hclose hfirst)
    have hlimit := hplaced.whole.lt.le.trans hle'
    exact ⟨f.extent.start, hplaced.whole.start, hlimit, hclose.stopAt hle hlimit, rfl⟩

/-- **The parts of a routine behind its parameters.** -/
theorem placed_routineBody (ht : t.Copies S) {stop : Nat} (hstop : t.bare.isBoundary stop = true)
    {close : Cursor} (hclose : close.In t.bare stop) (hlt : close.pos < stop) {x : Cell}
    (hx : t.bare[close.pos]? = some x) (hxchar : x.char = ')') {locals body : Option Extent}
    {last : Nat} (h : t.routineBody close = .ok (locals, body, last)) :
    close.pos < last ∧ last ≤ stop ∧ S.isBoundary last = true ∧
      (∀ l, locals = some l → S.Cuts l) ∧
      ∀ b, body = some b → S.Cuts b ∧ close.pos ≤ b.start ∧ b.stop = last ∧ b.start < b.stop ∧
        ∃ y, t.bare[b.start]? = some y ∧ y.isWord = true := by
  have hlength := Cells.le_length_of_isBoundary hstop
  have hbare := ht.bare.whole
  obtain ⟨limit, hlimit, hlimit_le, hheader, hsame⟩ := exists_in_of_nextHeader hbare hstop hclose
  unfold Text.routineBody at h
  simp only at h
  split at h
  · rename_i opening hopening
    have hfound := Pattern.foundFrom_of_first? (Cells.le_length_of_isBoundary hlimit) hheader hopening
    rw [hsame] at hfound
    obtain ⟨hle, hle', hsnug⟩ := foundFrom_keyword hbare hlimit (by decide) hfound
    obtain ⟨hword, -⟩ := isWord_keyword hbare hlimit (by decide) (by decide) hfound
    have hlt' := hsnug.lt
    obtain ⟨hmove, hpos⟩ := hclose.moveTo opening.extent.start hle (by omega)
    split at h
    · cases h
    · rename_i last' hend
      cases h
      obtain ⟨start, hstart, hsnug', hlast⟩ := snug_of_closingEnd? hbare hstop
        ⟨hmove, by rw [hpos]; exact hsnug.start⟩ hend
      rw [hpos] at hstart
      have hsource := ht.bare.snug hsnug
      have hsource' := ht.bare.snug hsnug'
      have hlt'' := hsnug'.lt
      simp only at hlt''
      refine ⟨by omega, hlast, hsource'.stop, ?_, ?_⟩
      · intro l hl
        obtain ⟨f, hf, rfl⟩ := Option.map_eq_some_iff.mp hl
        have hvar := Pattern.foundFrom_of_first? (Cells.le_length_of_isBoundary hsnug.start)
          (hclose.stopAt hle (by omega)) hf
        obtain ⟨-, hstop', hsnug₁⟩ := foundFrom_keyword hbare hsnug.start (by decide) hvar
        exact ⟨hstop', (ht.bare.snug hsnug₁).stop, hsource.start⟩
      · rintro b hb
        cases hb
        exact ⟨⟨by simp only; omega, hsource.start, hsource'.stop⟩, hle, rfl, by simp only; omega,
          hword _ le_rfl hlt'⟩
  · cases h
    -- a semicolon, or else the parenthesis
    obtain ⟨hle, hlt', hboundary⟩ : close.pos ≤ (close.rest.findChar? ';' close.pos).getD close.pos ∧
        (close.rest.findChar? ';' close.pos).getD close.pos < stop ∧
        S.isBoundary ((close.rest.findChar? ';' close.pos).getD close.pos + 1) = true := by
      cases hsemicolon : close.rest.findChar? ';' close.pos with
      | none =>
        have hparen := ht.bare.snug_single hx (by rw [hxchar]; decide) (by rw [hxchar]; decide)
        exact ⟨le_rfl, hlt, hparen.stop⟩
      | some k =>
        have hat := Cells.hasAt_findChar? hsemicolon
        rw [hclose.rest_eq] at hat
        obtain ⟨hle, hlt', y, hy, hychar⟩ := hat.of_slice
        have hmark := ht.bare.snug_single hy (by rw [hychar]; decide) (by rw [hychar]; decide)
        exact ⟨hle, hlt', hmark.stop⟩
    refine ⟨by omega, by omega, hboundary, ?_, ?_⟩
    · rintro l hl
      cases hl
    · rintro b hb
      cases hb

theorem Text.routineAt_eq_ok_iff {members : Cursor} {last : Option Nat} {h : Found RoutineHeader}
    {r : Routine} : t.routineAt members last h = .ok r ↔ ∃ close locals body stop,
      closingParen? (members.moveTo (h.extent.stop - 1)) = some close ∧
      t.routineBody (members.moveTo close) = .ok (locals, body, stop) ∧
      r = {
        kind := h.value.kind
        name := h.value.name
        obsolete := (t.attributes h.extent.start (last.getD members.pos)).2
        extent := ⟨(t.attributes h.extent.start (last.getD members.pos)).1, stop⟩
        header := h.extent.start
        parameters := ⟨h.extent.stop - 1 + 1, close⟩
        locals
        body } := by
  unfold Text.routineAt
  constructor
  · intro hr
    simp only at hr
    split at hr
    · cases hr
    · rename_i close hclose
      split at hr
      · cases hr
      · rename_i locals body stop hbody
        cases hr
        exact ⟨close, locals, body, stop, hclose, hbody, rfl⟩
  · rintro ⟨close, locals, body, stop, hclose, hbody, rfl⟩
    simp only [hclose, hbody]

theorem Text.routinesOf_cons_ok {members : Cursor} {last : Option Nat} {h : Found RoutineHeader}
    {hs : List (Found RoutineHeader)} {rs : List Routine}
    (hrs : t.routinesOf members last (h :: hs) = .ok rs) :
    last.any (h.extent.start < ·) = true ∧ t.routinesOf members last hs = .ok rs ∨
      (∀ e, last = some e → e ≤ h.extent.start) ∧ ∃ r rs', t.routineAt members last h = .ok r ∧
        t.routinesOf members (some r.extent.stop) hs = .ok rs' ∧ rs = r :: rs' := by
  rw [Text.routinesOf] at hrs
  split at hrs
  · rename_i hskip
    exact Or.inl ⟨hskip, hrs⟩
  · rename_i hread
    split at hrs
    · cases hrs
    · rename_i r hr
      split at hrs
      · cases hrs
      · rename_i rs' hrs'
        cases hrs
        refine Or.inr ⟨?_, r, rs', hr, hrs', rfl⟩
        rintro e rfl
        simpa using hread

/-- **A routine stands among the members, from its header on.** -/
theorem placed_routineAt (ht : t.Copies S) {members : Extent} (hmembers : S.Cuts members)
    {last : Option Nat} {h : Found RoutineHeader} {r : Routine}
    (hfound : routineHeader.FoundFrom t.bare members.start members.stop h)
    (hr : t.routineAt (Cursor.ofSlice t.bare members) last h = .ok r) :
    r.Placed S t.bare members ∧ r.header = h.extent.start := by
  have hbare := ht.bare.cuts hmembers
  have hstart := Cursor.in_ofSlice hbare.le hbare.start
  obtain ⟨hle, hstop, hplaced⟩ := foundFrom_routineHeader ht.bare.whole hbare.stop hfound
  obtain ⟨x, hx, hxchar⟩ := hplaced.opening
  have hlt := hplaced.start_lt
  obtain ⟨close, locals, body, stop, hclose, hbody, rfl⟩ := Text.routineAt_eq_ok_iff.mp hr
  obtain ⟨hopen, hcloses, y, hy, hychar⟩ := lt_closingParen? hstart
    (h.extent.stop - 1) (by simp only [Cursor.ofSlice]; omega) (by omega) hx hxchar hclose
  obtain ⟨hmove, hpos⟩ := hstart.moveTo close
    (by simp only [Cursor.ofSlice]; omega) hcloses.le
  obtain ⟨hlast, hlast', hboundary, hlocals, hbody'⟩ := placed_routineBody ht hbare.stop hmove
    (by rw [hpos]; exact hcloses) (by rw [hpos]; exact hy) hychar hbody
  rw [hpos] at hlast hbody'
  have hsource := ht.bare.snug hplaced.whole
  have hparen := ht.bare.snug_single hx (by rw [hxchar]; decide) (by rw [hxchar]; decide)
  have hparen' := ht.bare.snug_single hy (by rw [hychar]; decide) (by rw [hychar]; decide)
  refine ⟨⟨hle, by simp only; omega, hlast', ⟨by simp only; omega, hsource.start, hboundary⟩,
    ht.bare.snug hplaced.name, ⟨by simp only; omega, hparen.stop, hparen'.start⟩, hlocals, ?_, ?_⟩,
    rfl⟩
  · intro b hb
    obtain ⟨hcuts, hstart', hstop', -⟩ := hbody' b hb
    exact ⟨hcuts, by simp only; omega, hstop'⟩
  · intro b hb
    obtain ⟨-, -, -, hbegins⟩ := hbody' b hb
    exact hbegins

theorem placed_routinesOf (ht : t.Copies S) {members : Extent} (hmembers : S.Cuts members)
    {last : Option Nat} {hs : List (Found RoutineHeader)} {rs : List Routine}
    (hfound : ∀ h ∈ hs, routineHeader.FoundFrom t.bare members.start members.stop h)
    (hrs : t.routinesOf (Cursor.ofSlice t.bare members) last hs = .ok rs) :
    (∀ r ∈ rs, r.Placed S t.bare members ∧ ∀ e, last = some e → e ≤ r.header) ∧
      rs.Pairwise (·.extent.stop ≤ ·.header) := by
  induction hs generalizing last rs with
  | nil =>
    cases hrs
    exact ⟨nofun, .nil⟩
  | cons h hs ih =>
    have hlater : ∀ h' ∈ hs, routineHeader.FoundFrom t.bare members.start members.stop h' :=
      fun h' hmem => hfound h' (List.mem_cons_of_mem _ hmem)
    rcases Text.routinesOf_cons_ok hrs with ⟨-, hrs⟩ | ⟨hlast, r, rs', hr, hrs', rfl⟩
    · exact ih hlater hrs
    · obtain ⟨hplaced, hheader⟩ :=
        placed_routineAt ht hmembers (hfound h List.mem_cons_self) hr
      rw [← hheader] at hlast
      obtain ⟨hrest, horder⟩ := ih hlater hrs'
      have hnext : ∀ r' ∈ rs', r.extent.stop ≤ r'.header :=
        fun r' hr' => (hrest r' hr').2 _ rfl
      refine ⟨fun r' hr' => ?_, List.pairwise_cons.mpr ⟨hnext, horder⟩⟩
      rcases List.mem_cons.mp hr' with rfl | hr'
      · exact ⟨hplaced, hlast⟩
      · refine ⟨(hrest r' hr').1, fun e he => ?_⟩
        have h₁ := hlast e he
        have h₂ := hnext r' hr'
        have h₃ := hplaced.lt
        omega

/-- **The routines of an object stand among its members, one behind the other.** -/
theorem placed_routines (ht : t.Copies S) {members : Extent} (hmembers : S.Cuts members)
    {rs : List Routine} (hrs : t.routines members = .ok rs) :
    (∀ r ∈ rs, r.Placed S t.bare members) ∧ rs.Pairwise (·.extent.stop ≤ ·.header) := by
  have hbare := ht.bare.cuts hmembers
  have hstart := Cursor.in_ofSlice hbare.le hbare.start
  obtain ⟨hplaced, horder⟩ := placed_routinesOf ht hmembers
    (fun h hmem => Pattern.foundFrom_of_mem_all hbare.stop_le hstart hmem) hrs
  exact ⟨fun r hr => (hplaced r hr).1, horder⟩

/-! ### Objects -/

/-- An object goes from its header to the brace that closes it. -/
structure ObjectSite.Placed (S : Cells) (o : ObjectSite) : Prop where
  start_lt : o.start < o.opening
  lt : o.opening < o.closing
  cuts : S.Cuts ⟨o.start, o.closing + 1⟩
  members : S.Cuts o.members
  name : S.Snug o.name
  base : ∀ b, o.base = some b → S.Snug b

theorem objectSite_eq_ok_iff {h : Found ObjectHeader} {o : ObjectSite} :
    objectSite t h = .ok o ↔ ∃ opening closing kind,
      Cells.findChar? '\x7b' h.extent.stop (t.bare.drop h.extent.stop) = some opening ∧
      t.closingBrace? opening = some closing ∧
      SymbolKind.ofObjectKeyword? (t.bare.slice h.value.keyword).text = some kind ∧
      o = ⟨kind, h.extent.start, h.value.name, h.value.base, opening, closing⟩ := by
  unfold objectSite
  constructor
  · intro ho
    split at ho
    · cases ho
    · rename_i opening hopening
      split at ho
      · cases ho
      · rename_i closing hclosing
        simp only at ho
        split at ho
        · cases ho
        · rename_i kind hkind
          cases ho
          exact ⟨opening, closing, kind, hopening, hclosing, hkind, rfl⟩
  · rintro ⟨opening, closing, kind, hopening, hclosing, hkind, rfl⟩
    simp only [hopening, hclosing, hkind]

/-- **The object of a header stands where its header starts.** -/
theorem placed_objectSite (ht : t.Copies S) {h : Found ObjectHeader}
    (hfound : objectHeader.FoundFrom t.bare 0 t.length h) {o : ObjectSite}
    (ho : objectSite t h = .ok o) : o.Placed S ∧ o.start = h.extent.start := by
  have hstop := Cells.isBoundary_length t.bare
  obtain ⟨-, -, hplaced⟩ := foundFrom_objectHeader ht.bare.whole hstop hfound
  obtain ⟨opening, closing, kind, hopening, hclosing, -, rfl⟩ := objectSite_eq_ok_iff.mp ho
  obtain ⟨hle, x, hx, hxchar⟩ := (Cells.hasAt_findChar? hopening).of_drop
  obtain ⟨hlt, y, hy, hychar⟩ := (hasAt_braceEnd hclosing).of_drop
  have hsource := ht.bare.snug hplaced.whole
  have hbrace := ht.bare.snug_single hx (by rw [hxchar]; decide) (by rw [hxchar]; decide)
  have hbrace' := ht.bare.snug_single hy (by rw [hychar]; decide) (by rw [hychar]; decide)
  have hlt' := hplaced.whole.lt
  exact ⟨⟨by simp only; omega, hlt, ⟨by simp only; omega, hsource.start, hbrace'.stop⟩,
    ⟨hlt, hbrace.stop, hbrace'.start⟩, ht.bare.snug hplaced.name,
    fun b hb => ht.bare.snug (hplaced.base b hb)⟩, rfl⟩

theorem resolveObjects_cons_ok {resume : Nat} {first : SymbolId} {header : Found ObjectHeader}
    {hs : List (Found ObjectHeader)} {symbols : List Symbol} {outline : Outline}
    (h : resolveObjects t resume first (header :: hs) = .ok (symbols, outline)) :
    (header.extent.start < resume ∨ t.depth header.extent.start ≠ 0) ∧
        resolveObjects t resume first hs = .ok (symbols, outline) ∨
      ¬(header.extent.start < resume ∨ t.depth header.extent.start ≠ 0) ∧
        ∃ site one others outline₁ outline₂, objectSite t header = .ok site ∧
          resolveObject t first site = .ok (one, outline₁) ∧
          resolveObjects t (site.closing + 1) (first + one.length) hs = .ok (others, outline₂) ∧
          symbols = one ++ others ∧ outline = outline₁.append outline₂ := by
  rw [resolveObjects] at h
  split at h
  · rename_i hskip
    exact Or.inl ⟨hskip, h⟩
  · rename_i hread
    split at h
    · cases h
    · rename_i site hsite
      split at h
      · cases h
      · rename_i one outline₁ hobject
        split at h
        · cases h
        · rename_i others outline₂ hrest
          cases h
          exact Or.inr ⟨hread, site, one, others, outline₁, outline₂, hsite, hobject, hrest, rfl, rfl⟩

theorem resolveObjects_of_object {resume : Nat} {first : SymbolId} {header : Found ObjectHeader}
    (hread : ¬(header.extent.start < resume ∨ t.depth header.extent.start ≠ 0)) {site : ObjectSite}
    (hsite : objectSite t header = .ok site) {one others : List Symbol} {outline₁ outline₂ : Outline}
    (hobject : resolveObject t first site = .ok (one, outline₁)) {hs : List (Found ObjectHeader)}
    (hrest : resolveObjects t (site.closing + 1) (first + one.length) hs = .ok (others, outline₂)) :
    resolveObjects t resume first (header :: hs) =
      .ok (one ++ others, outline₁.append outline₂) := by
  rw [resolveObjects, if_neg hread, hsite]
  simp only
  rw [hobject]
  simp only
  rw [hrest]

/-- The objects of a list of headers come one after the other, each from one of the headers. -/
theorem resolveObjects_rec {P : Found ObjectHeader → Prop}
    {motive : Nat → SymbolId → List Symbol → Outline → Prop}
    (none : ∀ resume first, motive resume first [] .empty)
    (object : ∀ {resume first h site symbols outline symbols' outline'}, P h →
      resume ≤ h.extent.start → objectSite t h = .ok site →
      resolveObject t first site = .ok (symbols, outline) →
      motive (site.closing + 1) (first + symbols.length) symbols' outline' →
      motive resume first (symbols ++ symbols') (outline.append outline'))
    {hs : List (Found ObjectHeader)} (hheaders : ∀ h ∈ hs, P h) {resume : Nat}
    {first : SymbolId} {symbols : List Symbol} {outline : Outline}
    (h : resolveObjects t resume first hs = .ok (symbols, outline)) :
    motive resume first symbols outline := by
  induction hs generalizing resume first symbols outline with
  | nil =>
    cases h
    exact none resume first
  | cons header hs ih =>
    have hlater : ∀ h ∈ hs, P h := fun h hmem => hheaders h (List.mem_cons_of_mem _ hmem)
    rcases resolveObjects_cons_ok h with
      ⟨-, h⟩ | ⟨hread, site, one, others, outline₁, outline₂, hsite, hobject, hrest, rfl, rfl⟩
    · exact ih hlater h
    · exact object (hheaders header List.mem_cons_self) (by omega) hsite hobject (ih hlater hrest)

/-- **Objects come one behind the other.** What holds of no objects, and of an object before
others if it holds of those, holds of the objects of a text. -/
theorem resolveObjects_induction (ht : t.Copies S)
    {motive : Nat → SymbolId → List Symbol → Outline → Prop}
    (none : ∀ resume first, motive resume first [] .empty)
    (object : ∀ {resume first site symbols outline symbols' outline'}, site.Placed S →
      resume ≤ site.start → resolveObject t first site = .ok (symbols, outline) →
      motive (site.closing + 1) (first + symbols.length) symbols' outline' →
      motive resume first (symbols ++ symbols') (outline.append outline'))
    {hs : List (Found ObjectHeader)}
    (hfound : ∀ h ∈ hs, objectHeader.FoundFrom t.bare 0 t.length h) {resume : Nat}
    {first : SymbolId} {symbols : List Symbol} {outline : Outline}
    (h : resolveObjects t resume first hs = .ok (symbols, outline)) :
    motive resume first symbols outline := by
  refine resolveObjects_rec none ?_ hfound h
  intro resume first h site symbols outline symbols' outline' hheader hresume hsite hobject hrest
  obtain ⟨hplaced, hstart⟩ := placed_objectSite ht hheader hsite
  exact object hplaced (by omega) hobject hrest

theorem foundFrom_of_mem_headers (ht : t.Copies S) {h : Found ObjectHeader}
    (hmem : h ∈ objectHeader.all ⟨none, 0, t.bare⟩) : objectHeader.FoundFrom t.bare 0 t.length h := by
  refine Pattern.foundFrom_of_mem_all (Nat.le_refl _) ?_ hmem
  exact ⟨by simp [Cells.slice], Nat.zero_le _, Or.inl ⟨rfl, ht.bare.whole.isBoundary_zero⟩⟩

end Source
end TreeLint
