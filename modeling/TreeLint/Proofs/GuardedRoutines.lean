/-
# Routines and calls with every access checked

The routines of an object and the calls of a body, as guarded runs. A routine is
searched for by offsets of the whole text, in copies of it that end earlier: with
the members of the object, before the next header, before the `begin` of the
body. A search that starts behind the end of its text would fault, so each end
must not come before the closing parenthesis of the parameters.

The calls of a body are emitted by a recursion that is given the list of all
calls and an interval; below an argument it goes on with the interval of the
argument's value. That interval is shorter, so the recursion ends, and the calls
that start before it are passed over, so it emits what the walk over the later
calls emits.

Key definitions: `Guarded.routines`, `Guarded.calls`, `Guarded.emitCalls`.
Key theorems: `Guarded.routines_eq`, `Guarded.calls_eq`, `Guarded.emitCalls_eq`.
-/
import TreeLint.Proofs.GuardedScan
import TreeLint.Proofs.Nesting

namespace TreeLint

namespace Cells

variable {cs : Cells} {i n : Nat}

theorem isBoundary_take (hi : i ≤ n) (h : cs.isBoundary i = true) :
    isBoundary (cs.take n) i = true := by
  rw [isBoundary_iff] at h ⊢
  refine ⟨by rw [List.length_take]; omega, fun x hx => h.2 x ?_⟩
  rw [List.getElem?_take] at hx
  split at hx
  · exact hx
  · cases hx

end Cells

theorem Cursor.moveTo_ofSlice (cs : Cells) (r : Extent) {pos : Nat} (hlt : r.start < pos)
    (hle : pos ≤ r.stop) :
    (Cursor.ofSlice cs r).moveTo pos = ⟨cs[pos - 1]?, pos, cs.slice ⟨pos, r.stop⟩⟩ := by
  obtain ⟨n, hn⟩ : ∃ n, pos - r.start = n + 1 := ⟨pos - r.start - 1, by omega⟩
  have hpos : pos = r.start + (n + 1) := by omega
  have hbefore : (cs.slice r)[n]? = cs[pos - 1]? := by
    rw [Cells.getElem?_slice, if_pos (by omega), hpos]
    rfl
  unfold Cursor.moveTo
  simp only [Cursor.ofSlice, hn]
  rw [hbefore, Cells.drop_slice, ← hpos]

namespace Guarded

open Source

variable {α β : Type} {S : Cells} {t : Text} {r : Extent}

/-! ### Routines -/

/-- The first match in a text at or behind an offset, which must not be past its end. -/
def firstAt (p : Pattern α) (cs : Cells) (start : Nat) : Guarded (Option (Found α)) :=
  if cs.length < start then .error .outOfRange
  else .ok (p.first? ⟨if start = 0 then none else cs[start - 1]?, start, cs.drop start⟩)

/-- The local section, the body and the end of a routine whose parameter list closes at an offset;
the members of its object end with the scope. -/
def routineBody (t : Text) (scope : Cells) (close : Nat) :
    Guarded (Except ResolveError (Option Extent × Option Extent × Nat)) := do
  let next ← firstAt routineHeader scope close
  let limit := (next.map (·.extent.start)).getD scope.length
  match ← firstAt (keyword "begin") (← piece scope ⟨0, limit⟩) close with
  | some opening =>
    match ← closingEnd t opening.extent.start scope.length with
    | none => return .error (.unbalancedBlock (← span t opening.extent))
    | some stop =>
      let var ← firstAt (keyword "var") (← piece scope ⟨0, opening.extent.start⟩) close
      let locals := var.map fun f => (⟨f.extent.stop, opening.extent.start⟩ : Extent)
      return .ok (locals, some ⟨opening.extent.start, stop⟩, stop)
  | none =>
    let semicolon := (← findByte scope close ';').getD close
    return .ok (none, none, semicolon + 1)

/-- The routine of a header among the members of an object. -/
def routineAt (t : Text) (scope : Cells) (members : Extent) (last : Option Nat)
    (h : Found RoutineHeader) : Guarded (Except ResolveError Routine) := do
  let opening ← minus h.extent.stop 1
  match ← closingParen t opening members.stop with
  | none => return .error (.unclosedParameters (← span t ⟨opening, opening + 1⟩))
  | some close =>
    let (start, obsolete) ← attributes t h.extent.start (last.getD members.start)
    match ← routineBody t scope close with
    | .error e => return .error e
    | .ok (locals, body, stop) =>
      return .ok {
        kind := h.value.kind
        name := h.value.name
        obsolete
        extent := ⟨start, stop⟩
        header := h.extent.start
        parameters := ⟨opening + 1, close⟩
        locals
        body }

/-- The routines of a list of headers. -/
def routinesOf (t : Text) (scope : Cells) (members : Extent) (last : Option Nat) :
    List (Found RoutineHeader) → Guarded (Except ResolveError (List Routine))
  | [] => return .ok []
  | h :: hs =>
    if last.any (h.extent.start < ·) then routinesOf t scope members last hs
    else do
      match ← routineAt t scope members last h with
      | .error e => return .error e
      | .ok r =>
        match ← routinesOf t scope members (some r.extent.stop) hs with
        | .error e => return .error e
        | .ok rs => return .ok (r :: rs)

/-- The routines among the members of an object. -/
def routines (t : Text) (members : Extent) : Guarded (Except ResolveError (List Routine)) := do
  let scope ← piece t.bare ⟨0, members.stop⟩
  let part ← piece t.bare members
  routinesOf t scope members none (routineHeader.all ⟨none, members.start, part⟩)

theorem firstAt_eq (p : Pattern α) {cs : Cells} {limit start : Nat} (hpos : 0 < start)
    (hle : start ≤ limit) (hlimit : limit ≤ cs.length) :
    firstAt p (cs.slice ⟨0, limit⟩) start =
      .ok (p.first? ⟨cs[start - 1]?, start, cs.slice ⟨start, limit⟩⟩) := by
  have hlength : (cs.slice ⟨0, limit⟩).length = limit := Cells.length_slice hlimit
  have hbefore : (cs.slice ⟨0, limit⟩)[start - 1]? = cs[start - 1]? := by
    rw [Cells.getElem?_slice, if_pos (by simp only; omega)]
    simp
  rw [firstAt, if_neg (by omega), if_neg (by omega), hbefore, Cells.drop_slice]
  simp

theorem closingEnd_eq {c : Cursor} {opening limit : Nat} (hc : c.In t.bare limit)
    (hopening : c.pos = opening) (hcuts : t.bare.Cuts ⟨opening, limit⟩) :
    closingEnd t opening limit = .ok (closingEnd? c) := by
  rw [closingEnd, piece_eq hcuts, closingEnd?, hc.rest_eq, hopening]
  rfl

theorem piece_scope {stop limit : Nat} (hbare : t.bare.Whole) (hlimit : limit ≤ stop)
    (hboundary : t.bare.isBoundary limit = true) :
    piece (t.bare.slice ⟨0, stop⟩) ⟨0, limit⟩ = .ok (t.bare.slice ⟨0, limit⟩) := by
  have hcuts : Cells.Cuts (t.bare.slice ⟨0, stop⟩) ⟨0, limit⟩ :=
    ⟨Nat.zero_le _, Cells.isBoundary_take (Nat.zero_le _) hbare.isBoundary_zero,
      Cells.isBoundary_take hlimit hboundary⟩
  rw [piece_eq hcuts]
  simp only [Cells.slice, List.drop_zero, Nat.sub_zero, List.take_take, Nat.min_eq_left hlimit]

/-- The parts of a routine behind its parameters, given the text up to the next header. -/
def bodyBefore (t : Text) (close header : Cursor) :
    Except ResolveError (Option Extent × Option Extent × Nat) :=
  match (keyword "begin").first? header with
  | some opening =>
    match closingEnd? (close.moveTo opening.extent.start) with
    | none => .error (.unbalancedBlock (t.span opening.extent))
    | some stop =>
      .ok (((keyword "var").first? (close.stopAt opening.extent.start)).map fun f =>
        (⟨f.extent.stop, opening.extent.start⟩ : Extent), some ⟨opening.extent.start, stop⟩, stop)
  | none => .ok (none, none, (close.rest.findChar? ';' close.pos).getD close.pos + 1)

/-- A search in the text up to a limit is one from the cursor. -/
theorem firstAt_stopAt (p : Pattern α) {cs : Cells} {members : Extent} {close limit : Nat}
    (hstop : members.stop ≤ cs.length) (hlt : members.start < close) (hle : close ≤ limit)
    (hlimit : limit ≤ members.stop) :
    firstAt p (cs.slice ⟨0, limit⟩) close =
      .ok (p.first? (((Cursor.ofSlice cs members).moveTo close).stopAt limit)) := by
  rw [firstAt_eq p (by omega) hle (by omega), Cursor.moveTo_ofSlice cs members hlt (hle.trans hlimit),
    Cursor.stopAt]
  simp only
  rw [Cells.take_slice cs ⟨close, members.stop⟩ hlimit]

theorem stopAt_moveTo_ofSlice (cs : Cells) (members : Extent) {close : Nat}
    (hlt : members.start < close) (hle : close ≤ members.stop) :
    ((Cursor.ofSlice cs members).moveTo close).stopAt members.stop =
      (Cursor.ofSlice cs members).moveTo close := by
  rw [Cursor.moveTo_ofSlice cs members hlt hle, Cursor.stopAt]
  simp only
  rw [Cells.take_slice cs ⟨close, members.stop⟩ le_rfl]

/-- The parts behind the parameters are looked for up to the next header, or else up to the end of
the members. -/
theorem exists_limit (hbare : t.bare.Whole) {stop : Nat} (hstop : t.bare.isBoundary stop = true)
    {c : Cursor} (hin : c.In t.bare stop) (hself : c.stopAt stop = c) :
    ∃ limit, ((routineHeader.first? c).map (·.extent.start)).getD stop = limit ∧ c.pos ≤ limit ∧
      limit ≤ stop ∧ t.bare.isBoundary limit = true ∧
      t.routineBody c = bodyBefore t c (c.stopAt limit) := by
  cases hnext : routineHeader.first? c with
  | none =>
    refine ⟨stop, rfl, hin.pos_le, le_rfl, hstop, ?_⟩
    rw [Text.routineBody, hnext, hself]
    rfl
  | some f =>
    obtain ⟨hle, hle', hplaced⟩ := foundFrom_routineHeader hbare hstop
      (Pattern.foundFrom_of_first? (Cells.le_length_of_isBoundary hstop) hin hnext)
    refine ⟨f.extent.start, rfl, hle, hplaced.whole.lt.le.trans hle', hplaced.whole.start, ?_⟩
    rw [Text.routineBody, hnext]
    rfl

/-- **The parts of a routine behind its parameters** are found without a fault. -/
theorem routineBody_eq (ht : Lined S t) {members : Extent} (hmembers : S.Cuts members)
    {close : Nat} (hlt : members.start < close) (hlt' : close < members.stop) :
    routineBody t (t.bare.slice ⟨0, members.stop⟩) close =
      .ok (t.routineBody ((Cursor.ofSlice t.bare members).moveTo close)) := by
  have hbare := ht.bare.whole
  have hcuts := ht.bare.cuts hmembers
  have hlength := hcuts.stop_le
  have hscope : (t.bare.slice ⟨0, members.stop⟩).length = members.stop := Cells.length_slice hlength
  obtain ⟨hin, hpos⟩ := (Cursor.in_ofSlice hcuts.le hcuts.start).moveTo close hlt.le hlt'.le
  have hcursor := Cursor.moveTo_ofSlice t.bare members hlt hlt'.le
  have hself := stopAt_moveTo_ofSlice t.bare members hlt hlt'.le
  have hfirst : ∀ {α : Type} (p : Pattern α) {limit : Nat}, close ≤ limit → limit ≤ members.stop →
      firstAt p (t.bare.slice ⟨0, limit⟩) close =
        .ok (p.first? (((Cursor.ofSlice t.bare members).moveTo close).stopAt limit)) :=
    fun p _ hle hle' => firstAt_stopAt p hlength hlt hle hle'
  generalize (Cursor.ofSlice t.bare members).moveTo close = c at hin hpos hcursor hself hfirst ⊢
  obtain ⟨limit, hlimit, hle, hle', hboundary, hmodel⟩ := exists_limit hbare hcuts.stop hin hself
  rw [hpos] at hle
  have hnext := hfirst routineHeader hlt'.le le_rfl
  rw [hself] at hnext
  rw [routineBody, hnext, hmodel, bodyBefore]
  simp only [ok_bind, hscope, hlimit]
  rw [piece_scope hbare hle' hboundary, ok_bind, hfirst (keyword "begin") hle hle', ok_bind]
  have hlimit_in := hin.stopAt (by omega) hle'
  cases hbegin : (keyword "begin").first? (c.stopAt limit) with
  | none =>
    have hrest : t.bare.slice ⟨0 + close, members.stop⟩ = c.rest := by
      rw [hcursor, Nat.zero_add]
    rw [findByte, bytes_eq (r := ⟨close, (t.bare.slice ⟨0, members.stop⟩).length⟩) (by simp only; omega)
      le_rfl, ok_bind, slice_to_end, Cells.drop_slice, hrest, hpos]
    rfl
  | some opening =>
    have hfound := Pattern.foundFrom_of_first? (Cells.le_length_of_isBoundary hboundary) hlimit_in
      hbegin
    obtain ⟨hstart, hstop, hsnug⟩ := foundFrom_keyword hbare hboundary (by decide) hfound
    have hlt'' := hsnug.lt
    have hstart' : close ≤ opening.extent.start := by
      have : (c.stopAt limit).pos = c.pos := rfl
      omega
    obtain ⟨hmove, hmove_pos⟩ := hin.moveTo opening.extent.start (by omega) (by omega)
    have hblock : t.bare.Cuts ⟨opening.extent.start, members.stop⟩ :=
      ⟨by simp only; omega, hsnug.start, hcuts.stop⟩
    simp only
    rw [closingEnd_eq hmove hmove_pos hblock, ok_bind]
    cases closingEnd? (c.moveTo opening.extent.start) with
    | none =>
      simp only [span_eq]
      rfl
    | some stop =>
      simp only
      rw [piece_scope hbare (by omega) hsnug.start, ok_bind,
        hfirst (keyword "var") hstart' (by omega)]
      rfl

/-- A routine starts with a line or at the floor, and not behind its header. -/
structure Anchored (t : Text) (floor : Nat) (r : Routine) : Prop where
  le : r.extent.start ≤ r.header
  start : r.extent.start = floor ∨ t.bare.StartsLine r.extent.start

theorem closingParen_moveTo (hbare : t.bare.Whole) {members : Extent}
    (hcuts : t.bare.Cuts members) {opening : Nat} (hle : members.start ≤ opening)
    (hlt : opening < members.stop) {x : Cell}
    (hx : t.bare[opening]? = some x) (hxchar : x.char = '(') :
    closingParen t opening members.stop =
      .ok (closingParen? ((Cursor.ofSlice t.bare members).moveTo opening)) := by
  obtain ⟨hin, hpos⟩ := (Cursor.in_ofSlice hcuts.le hcuts.start).moveTo opening hle hlt.le
  have hboundary := (hbare.isBoundary_of_ascii hx (by rw [hxchar]; rfl)).1
  rw [closingParen_eq ⟨hlt.le, hboundary, hcuts.stop⟩ hlt hx hxchar, closingParen?, hin.rest_eq, hpos]

theorem routineAt_eq (ht : Lined S t) {members : Extent} (hmembers : S.Cuts members)
    {last : Option Nat} (hlast : ∀ e, last = some e → S.isBoundary e = true)
    {h : Found RoutineHeader}
    (hfound : routineHeader.FoundFrom t.bare members.start members.stop h) :
    routineAt t (t.bare.slice ⟨0, members.stop⟩) members last h =
        .ok (t.routineAt (Cursor.ofSlice t.bare members) last h) ∧
      ∀ r, t.routineAt (Cursor.ofSlice t.bare members) last h = .ok r →
        Anchored t (last.getD members.start) r := by
  have hbare := ht.bare.whole
  have hcuts := ht.bare.cuts hmembers
  obtain ⟨hle, hstop, hplaced⟩ := foundFrom_routineHeader hbare hcuts.stop hfound
  have hstart_lt := hplaced.start_lt
  obtain ⟨x, hx, hxchar⟩ := hplaced.opening
  have hfloor : S.isBoundary (last.getD members.start) = true := by
    cases hcase : last with
    | none => exact hmembers.start
    | some e => exact hlast e hcase
  obtain ⟨hattributes, hheader, hanchor⟩ :=
    attributes_eq ht (ht.bare.snug hplaced.whole).start hfloor
  have hparen := closingParen_moveTo hbare hcuts (show members.start ≤ h.extent.stop - 1 by omega)
    (by omega) hx hxchar
  rw [routineAt, minus_eq (by omega), ok_bind, hparen, ok_bind, Text.routineAt]
  simp only
  cases hclose : closingParen? ((Cursor.ofSlice t.bare members).moveTo (h.extent.stop - 1)) with
  | none =>
    simp only [span_eq]
    exact ⟨rfl, by rintro _ ⟨⟩⟩
  | some close =>
    obtain ⟨hlt, hlt', -⟩ := lt_closingParen? (Cursor.in_ofSlice hcuts.le hcuts.start)
      (h.extent.stop - 1) (by simp only [Cursor.ofSlice]; omega) (by omega) hx hxchar hclose
    simp only
    rw [hattributes, ok_bind, routineBody_eq ht hmembers (by omega) hlt', ok_bind]
    cases t.routineBody ((Cursor.ofSlice t.bare members).moveTo close) with
    | error e => exact ⟨rfl, by rintro _ ⟨⟩⟩
    | ok parts =>
      refine ⟨rfl, ?_⟩
      rintro r hr
      cases hr
      exact ⟨hheader, hanchor⟩

/-- A routine starts with a line, where the members start, or where another routine ends. -/
theorem routinesOf_eq (ht : Lined S t) {members : Extent} (hmembers : S.Cuts members)
    {last : Option Nat} (hlast : ∀ e, last = some e → S.isBoundary e = true)
    {hs : List (Found RoutineHeader)}
    (hfound : ∀ h ∈ hs, routineHeader.FoundFrom t.bare members.start members.stop h) :
    routinesOf t (t.bare.slice ⟨0, members.stop⟩) members last hs =
        .ok (t.routinesOf (Cursor.ofSlice t.bare members) last hs) ∧
      ∀ rs, t.routinesOf (Cursor.ofSlice t.bare members) last hs = .ok rs → ∀ r ∈ rs,
        ∃ floor, Anchored t floor r ∧
          (floor = last.getD members.start ∨ ∃ r' ∈ rs, r'.extent.stop = floor) := by
  induction hs generalizing last with
  | nil =>
    refine ⟨rfl, ?_⟩
    rintro rs hrs r hr
    cases hrs
    cases hr
  | cons h hs ih =>
    have hfound' := fun h' hh' => hfound h' (List.mem_cons_of_mem h hh')
    rw [routinesOf, Text.routinesOf]
    by_cases hskip : last.any (h.extent.start < ·) = true
    · rw [if_pos hskip, if_pos hskip]
      exact ih hlast hfound'
    · rw [if_neg hskip, if_neg hskip]
      obtain ⟨heq, hanchored⟩ := routineAt_eq ht hmembers hlast (hfound h List.mem_cons_self)
      rw [heq, ok_bind]
      cases hr : t.routineAt (Cursor.ofSlice t.bare members) last h with
      | error e => exact ⟨rfl, by rintro _ ⟨⟩⟩
      | ok r =>
        have hplaced :=
          (placed_routineAt ht.toCopies hmembers (hfound h List.mem_cons_self) hr).1
        have hlast' : ∀ e, some r.extent.stop = some e → S.isBoundary e = true := by
          rintro e he
          cases he
          exact hplaced.cuts.stop
        obtain ⟨hrest, hanchored'⟩ := ih hlast' hfound'
        simp only
        rw [hrest, ok_bind]
        cases hrs : t.routinesOf (Cursor.ofSlice t.bare members) (some r.extent.stop) hs with
        | error e => exact ⟨rfl, by rintro _ ⟨⟩⟩
        | ok rs =>
          refine ⟨rfl, ?_⟩
          rintro rs' hrs' q hq
          cases hrs'
          rcases List.mem_cons.mp hq with rfl | hq
          · exact ⟨_, hanchored q hr, Or.inl rfl⟩
          · obtain ⟨floor, hfloor, hwhere⟩ := hanchored' rs hrs q hq
            refine ⟨floor, hfloor, Or.inr ?_⟩
            rcases hwhere with rfl | ⟨r', hr', hend⟩
            · exact ⟨r, List.mem_cons_self, rfl⟩
            · exact ⟨r', List.mem_cons_of_mem r hr', hend⟩

/-- **The routines of an object** are found without a fault. -/
theorem routines_eq (ht : Lined S t) {members : Extent} (hmembers : S.Cuts members) :
    routines t members = .ok (t.routines members) ∧
      ∀ rs, t.routines members = .ok rs → ∀ r ∈ rs, ∃ floor, Anchored t floor r ∧
        (floor = members.start ∨ ∃ r' ∈ rs, r'.extent.stop = floor) := by
  have hcuts := ht.bare.cuts hmembers
  have hscope : t.bare.Cuts ⟨0, members.stop⟩ :=
    ⟨Nat.zero_le _, ht.bare.whole.isBoundary_zero, hcuts.stop⟩
  have hfound : ∀ h ∈ routineHeader.all (Cursor.ofSlice t.bare members),
      routineHeader.FoundFrom t.bare members.start members.stop h := fun h hh =>
    Pattern.foundFrom_of_mem_all hcuts.stop_le (Cursor.in_ofSlice hcuts.le hcuts.start) hh
  rw [routines, piece_eq hscope, ok_bind, piece_eq hcuts, ok_bind]
  exact routinesOf_eq ht hmembers (fun _ he => by cases he) hfound

/-! ### Calls -/

/-- The call of a call head in a body. -/
def callOf (t : Text) (body : Extent) (f : Found CallHead) : Guarded (Option Call) := do
  let method ← name t (f.value.member.getD f.value.first)
  let receiver := f.value.member.map fun _ => f.value.first
  if receiver.isNone && callKeywords.contains (Name.lower method) then return none
  else
    let opening ← minus f.extent.stop 1
    match ← closingParen t opening body.stop with
    | none => return none
    | some close =>
      let arguments ← arguments t ⟨opening + 1, close⟩
      return some { extent := ⟨f.extent.start, close + 1⟩, receiver, method, arguments }

/-- The calls in a body. -/
def calls (t : Text) (body : Extent) : Guarded (List Call) := do
  let part ← piece t.bare body
  return (← (callHead.all ⟨none, body.start, part⟩).mapM (callOf t body)).filterMap id

theorem callOf_eq (ht : Prepared S t) {body : Extent} (hbody : S.Cuts body) {f : Found CallHead}
    (hf : callHead.FoundFrom t.bare body.start body.stop f) :
    callOf t body f = .ok (t.callOf? (Cursor.ofSlice t.bare body) f) := by
  have hbare := ht.bare.whole
  have hcuts := ht.bare.cuts hbody
  obtain ⟨hle, hstop, hplaced⟩ := foundFrom_callHead hbare hcuts.stop hf
  have hlt := hplaced.whole.lt
  obtain ⟨x, hx, hxchar⟩ := hplaced.opening
  have hsource := ht.bare.snug hplaced.whole
  have hname : S.Cuts (f.value.member.getD f.value.first) := by
    cases hmember : f.value.member with
    | none => exact (ht.bare.snug hplaced.first).cuts
    | some m => exact (ht.bare.snug (hplaced.member m hmember)).cuts
  have hparen := closingParen_moveTo hbare hcuts (show body.start ≤ f.extent.stop - 1 by omega)
    (by omega) hx hxchar
  have harguments : ∀ close,
      closingParen? ((Cursor.ofSlice t.bare body).moveTo (f.extent.stop - 1)) = some close →
      arguments t ⟨f.extent.stop - 1 + 1, close⟩ =
        .ok (t.arguments ⟨f.extent.stop - 1 + 1, close⟩) := by
    intro close hclose
    obtain ⟨hopen, hcloses, y, hy, hychar⟩ := lt_closingParen?
      (Cursor.in_ofSlice hcuts.le hcuts.start) (f.extent.stop - 1)
      (by simp only [Cursor.ofSlice]; omega) (by omega) hx hxchar hclose
    have hmark : S.Snug ⟨close, close + 1⟩ :=
      ht.bare.snug_single hy (by rw [hychar]; rfl) (by rw [hychar]; decide)
    refine arguments_eq ht.toCopies ⟨by simp only; omega, ?_, hmark.start⟩
    rw [show f.extent.stop - 1 + 1 = f.extent.stop by omega]
    exact hsource.stop
  rw [callOf, name_eq ht.toCopies hname, Text.callOf?]
  simp only [ok_bind, minus_eq (show 1 ≤ f.extent.stop by omega), hparen]
  cases hclose : closingParen? ((Cursor.ofSlice t.bare body).moveTo (f.extent.stop - 1)) with
  | none =>
    cases f.value.member with
    | none =>
      simp only [Option.getD_none, Option.map_none, Option.isNone_none, Bool.true_and, ite_self]
      rfl
    | some m => rfl
  | some close =>
    simp only [harguments close hclose, ok_bind]
    cases f.value.member with
    | none =>
      simp only [Option.getD_none, Option.map_none, Option.isNone_none, Bool.true_and]
      by_cases hkeyword : callKeywords.contains (Name.lower (t.name f.value.first)) = true
      · rw [if_pos hkeyword, if_pos hkeyword]
        rfl
      · rw [if_neg hkeyword, if_neg hkeyword]
        rfl
    | some m => rfl

/-- **The calls of a body** are found without a fault. -/
theorem calls_eq (ht : Prepared S t) {body : Extent} (hbody : S.Cuts body) :
    calls t body = .ok (t.calls body) := by
  have hcuts := ht.bare.cuts hbody
  have hmap := mapM_eq (l := callHead.all (Cursor.ofSlice t.bare body)) fun f hf =>
    callOf_eq ht hbody (Pattern.foundFrom_of_mem_all hcuts.stop_le
      (Cursor.in_ofSlice hcuts.le hcuts.start) hf)
  have hcalls : t.calls body = ((callHead.all (Cursor.ofSlice t.bare body)).map
      (t.callOf? (Cursor.ofSlice t.bare body))).filterMap id := by
    rw [List.filterMap_map]
    rfl
  rw [calls, piece_eq hcuts, ok_bind, hcalls]
  show (List.mapM _ (callHead.all (Cursor.ofSlice t.bare body)) >>= _) = _
  rw [hmap]
  rfl

theorem pairwise_start_calls (ht : t.Copies S) {body : Extent} (hbody : S.Cuts body) :
    (t.calls body).Pairwise (·.extent.start < ·.extent.start) := by
  have hcuts := ht.bare.cuts hbody
  have hin := Cursor.in_ofSlice hcuts.le hcuts.start
  have hhead : ∀ c v d, Cursor.In t.bare body.stop c → callHead c = some (v, d) → c.pos < d.pos :=
    fun c v d hc hd => (placed_callHead ht.bare.whole hcuts.stop hc hd).2.whole.lt
  rw [Text.calls, List.pairwise_filterMap]
  refine (Pattern.pairwise_all hcuts.stop_le hhead hin).imp_of_mem ?_
  intro f g hf hg hle a ha b hb
  obtain ⟨close, -, hextent, -⟩ := exists_of_callOf? ha
  obtain ⟨close', -, hextent', -⟩ := exists_of_callOf? hb
  obtain ⟨c, d, hc, -, -, hmatch, hfound⟩ := Pattern.foundFrom_of_mem_all hcuts.stop_le hin hf
  have hlt := hhead c _ d hc hmatch
  rw [hfound] at hle hextent
  rw [hextent, hextent']
  simp only at hle ⊢
  omega

/-! ### Emitting calls -/

/-- What a call resolves to. -/
def target (t : Text) (s : Scope) (call : Call) : Guarded Target :=
  match call.receiver with
  | none => return s.plainTarget call.method
  | some r => do
    let receiver ← name t r
    match s.lookup? receiver with
    | some v => return Scope.variableTarget v r call.method
    | none => return Scope.staticTarget receiver r call.method

/-- The node of a call's receiver, if it has one. -/
def receiverNode (t : Text) (s : Scope) (call : Call) : Receiver → Guarded Outline
  | .absent => return .empty
  | .declared v r => return .single (v.reference (← span t r) s.routine) .empty
  | .implicit v =>
    return .single
      (v.reference (← span t ⟨call.extent.start, call.extent.start⟩) s.routine) .empty
  | .static kind r =>
    return .single { plainEntry .typeReference (← span t r) s.routine with
      resolvedType := some { kind } } .empty
  | .unknown r => return .single (plainEntry .identifier (← span t r) s.routine) .empty

/-- The node of an operand. -/
def operand (t : Text) (s : Scope) (r : Extent) : Guarded Outline := do
  let operand := (← piece t.masked r).trim
  let place ← span t r
  match if isIdentifier operand then s.lookup? operand.text else none with
  | some v => return .single (v.reference place s.routine) .empty
  | none => return .single (plainEntry .literal place s.routine) .empty

/-- The parameter that an argument is bound to and the interval of its value. -/
def bindArgument (t : Text) (parameters : List String) (position : Nat) (r : Extent) :
    Guarded (Option String × Extent) := do
  let part ← piece t.bare r
  match namedArgument? part with
  | some (name, value) => return (some (part.slice name).text, ⟨r.start + value, r.stop⟩)
  | none => return (parameters[position]?, r)

/-- The arguments of a call from a position on: the parameters they are bound to, and their nodes.
Calls within a value are looked for among all calls of the body. -/
def emitArguments (t : Text) (s : Scope) (calls : List Call) (nested : Extent → Guarded Outline)
    (parameters : List String) : Nat → List Extent → Guarded (List (Option String) × Outline)
  | _, [] => return ([], .empty)
  | position, r :: rs => do
    let place ← span t r
    let (parameter, value) ← bindArgument t parameters position r
    let below ←
      if calls.any fun c => value.start ≤ c.extent.start && c.extent.stop ≤ value.stop then
        nested value
      else operand t s value
    let (bound, next) ← emitArguments t s calls nested parameters (position + 1) rs
    return (parameter :: bound, .node (plainEntry .argument place s.routine) below next)

/-- The entry of a call and the nodes below it. -/
def emitCall (t : Text) (s : Scope) (calls : List Call) (nested : Extent → Guarded Outline)
    (call : Call) : Guarded (Entry × Outline) := do
  let target ← target t s call
  let place ← span t call.extent
  let receiver ← receiverNode t s call target.receiver
  let (bound, arguments) ← emitArguments t s calls nested target.parameters 0 call.arguments
  let entry : Entry :=
    { plainEntry .invocationExpression place s.routine with
      target := some (⟨call.method, target.kind⟩, bound) }
  return (entry, receiver.append arguments)

/-- Goes through a list of calls and emits those that start at the cursor or behind it and end
before the stop; the cursor then moves to their end. -/
def emitAmong (emit : Call → Guarded (Entry × Outline)) (stop : Nat) :
    Nat → List Call → Guarded Outline
  | _, [] => return .empty
  | cursor, call :: rest =>
    if call.extent.start < cursor ∨ stop < call.extent.stop then emitAmong emit stop cursor rest
    else do
      let (entry, below) ← emit call
      return .node entry below (← emitAmong emit stop call.extent.stop rest)

/-- Emits the outermost of the calls that lie within an interval; each level of the recursion takes
one round. -/
def emitCalls (t : Text) (s : Scope) (calls : List Call) : Nat → Extent → Guarded Outline
  | 0, _ => .error .endless
  | rounds + 1, within =>
    emitAmong (emitCall t s calls (emitCalls t s calls rounds)) within.stop within.start calls

variable {s : Scope}

theorem target_eq (ht : t.Copies S) {call : Call} {w : Extent} (h : call.Placed S w) :
    target t s call = .ok (s.target t call) := by
  rw [target, Scope.target]
  cases hreceiver : call.receiver with
  | none => rfl
  | some r =>
    simp only
    rw [name_eq ht (h.receiver r hreceiver).1, ok_bind]
    cases s.lookup? (t.name r) with
    | none => rfl
    | some v => rfl

theorem receiverNode_eq (call : Call) (r : Receiver) :
    receiverNode t s call r = .ok (receiverOutline t s call r) := by
  cases r <;> simp only [receiverNode, span_eq] <;> rfl

theorem operand_eq (ht : t.Copies S) (hr : S.Cuts r) :
    operand t s r = .ok (operandOutline t s r) := by
  rw [operand, piece_eq (ht.masked.cuts hr), operandOutline]
  simp only [ok_bind, span_eq]
  cases (if isIdentifier (t.masked.slice r).trim then s.lookup? (t.masked.slice r).trim.text
    else none) with
  | none => rfl
  | some v => rfl

theorem bindArgument_eq (ht : t.Copies S) (hr : S.Cuts r) (parameters : List String)
    (position : Nat) :
    bindArgument t parameters position r = .ok (Source.bindArgument t parameters position r) := by
  rw [bindArgument, piece_eq (ht.bare.cuts hr), ok_bind, Source.bindArgument]
  cases namedArgument? (t.bare.slice r) with
  | none => rfl
  | some found => rfl

/-- The arguments are those of the walk, if the values are. -/
theorem emitArguments_eq (ht : t.Copies S) {calls later : List Call}
    {nested : Extent → Guarded Outline} {outline : Extent → Outline} (parameters : List String)
    {rs : List Extent} (hrs : ∀ r ∈ rs, S.Cuts r)
    (hvalue : ∀ r ∈ rs, ∀ value : Extent, r.start ≤ value.start → value.stop = r.stop →
      nested value = .ok (outline value) ∧
      (calls.any fun c => value.start ≤ c.extent.start && c.extent.stop ≤ value.stop) =
        later.any fun c => value.start ≤ c.extent.start && c.extent.stop ≤ value.stop)
    (position : Nat) :
    let bound := (rs.zipIdx position).map fun (r, i) =>
      ((Source.bindArgument t parameters i r).1, r, (Source.bindArgument t parameters i r).2)
    emitArguments t s calls nested parameters position rs =
      .ok (bound.map (·.1), argumentsOutline t s later outline bound) := by
  induction rs generalizing position with
  | nil => rfl
  | cons r rs ih =>
    have hr := hrs r List.mem_cons_self
    obtain ⟨hcuts, hstart, hstop⟩ := cuts_bindArgument ht hr parameters position
    obtain ⟨hnested, hany⟩ := hvalue r List.mem_cons_self _ hstart hstop
    have ih := ih (fun r' hr' => hrs r' (List.mem_cons_of_mem r hr'))
      (fun r' hr' => hvalue r' (List.mem_cons_of_mem r hr')) (position + 1)
    simp only [emitArguments, span_eq, ok_bind, bindArgument_eq ht hr, hany, hnested,
      operand_eq ht hcuts, ih, List.zipIdx_cons, List.map_cons, argumentsOutline]
    split <;> rfl

/-- The call is that of the walk, if the values of its arguments are. -/
theorem emitCall_eq (ht : t.Copies S) {calls later : List Call}
    {nested : Extent → Guarded Outline} {outline : Extent → Outline} {call : Call} {w : Extent}
    (hcall : call.Placed S w)
    (hvalue : ∀ r ∈ call.arguments, ∀ value : Extent, r.start ≤ value.start → value.stop = r.stop →
      nested value = .ok (outline value) ∧
      (calls.any fun c => value.start ≤ c.extent.start && c.extent.stop ≤ value.stop) =
        later.any fun c => value.start ≤ c.extent.start && c.extent.stop ≤ value.stop) :
    emitCall t s calls nested call =
      .ok ({ plainEntry .invocationExpression (t.span call.extent) s.routine with
          target := some (⟨call.method, (s.target t call).kind⟩,
            (boundArguments t (s.target t call).parameters call).map (·.1)) },
        (receiverOutline t s call (s.target t call).receiver).append
          (argumentsOutline t s later outline
            (boundArguments t (s.target t call).parameters call))) := by
  have harguments := emitArguments_eq (s := s) ht (s.target t call).parameters
    (fun r hr => (hcall.argument r hr).1) hvalue 0
  simp only [emitCall, target_eq ht hcall, span_eq, receiverNode_eq, ok_bind, harguments]
  rfl

theorem emitAmong_append {emit : Call → Guarded (Entry × Outline)} {stop cursor : Nat}
    {earlier : List Call} (h : ∀ c ∈ earlier, c.extent.start < cursor) (later : List Call) :
    emitAmong emit stop cursor (earlier ++ later) = emitAmong emit stop cursor later := by
  induction earlier with
  | nil => rfl
  | cons c earlier ih =>
    rw [List.cons_append, emitAmong, if_pos (Or.inl (h c List.mem_cons_self)),
      ih fun c' hc' => h c' (List.mem_cons_of_mem c hc')]

theorem any_within_append {earlier : List Call} {value : Extent}
    (h : ∀ c ∈ earlier, c.extent.start < value.start) (later : List Call) :
    ((earlier ++ later).any fun c => value.start ≤ c.extent.start && c.extent.stop ≤ value.stop) =
      later.any fun c => value.start ≤ c.extent.start && c.extent.stop ≤ value.stop := by
  have hnone : (earlier.any fun c =>
      value.start ≤ c.extent.start && c.extent.stop ≤ value.stop) = false := by
    rw [List.any_eq_false]
    intro c hc hin
    have := h c hc
    simp only [Bool.and_eq_true, decide_eq_true_eq] at hin
    omega
  rw [List.any_append, hnone, Bool.false_or]

/-- The calls that are left are emitted as the walk emits them, if this is so within every interval
shorter than what is left and behind the calls up to one that lies there. -/
theorem emitAmong_eq (ht : t.Copies S) {body : Extent} {calls : List Call}
    (hcalls : ∀ c ∈ calls, c.Placed S body)
    (horder : calls.Pairwise (·.extent.start < ·.extent.start)) {rounds stop : Nat}
    (hnested : ∀ {within : Extent} {earlier later : List Call},
      within.stop - within.start < rounds → calls = earlier ++ later →
      (∀ c ∈ earlier, c.extent.start < within.start) →
      emitCalls t s calls rounds within = .ok (outlineCalls t s later within))
    (later earlier : List Call) (cursor : Nat) (hsplit : calls = earlier ++ later)
    (hcursor : stop - cursor < rounds + 1) :
    emitAmong (emitCall t s calls (emitCalls t s calls rounds)) stop cursor later =
      .ok (outlineCalls t s later ⟨cursor, stop⟩) := by
  induction later generalizing earlier cursor with
  | nil => rfl
  | cons call later ih =>
    have hsplit' : calls = (earlier ++ [call]) ++ later := by simp [hsplit]
    rw [emitAmong, outlineCalls]
    by_cases hskip : call.extent.start < cursor ∨ stop < call.extent.stop
    · rw [if_pos hskip, if_pos hskip]
      exact ih _ cursor hsplit' hcursor
    · rw [if_neg hskip, if_neg hskip]
      have hcall := hcalls call (by simp [hsplit])
      have hlt := hcall.lt
      have hvalue : ∀ r ∈ call.arguments, ∀ value : Extent, r.start ≤ value.start →
          value.stop = r.stop →
          emitCalls t s calls rounds value = .ok (outlineCalls t s later value) ∧
          (calls.any fun c => value.start ≤ c.extent.start && c.extent.stop ≤ value.stop) =
            later.any fun c => value.start ≤ c.extent.start && c.extent.stop ≤ value.stop := by
        intro r hr value hstart hstop
        obtain ⟨-, hafter, hbehind⟩ := hcall.argument r hr
        have hearlier : ∀ c ∈ earlier ++ [call], c.extent.start < value.start := by
          intro c hc
          rcases List.mem_append.mp hc with hc | hc
          · rw [hsplit, List.pairwise_append] at horder
            have := horder.2.2 c hc call List.mem_cons_self
            omega
          · obtain rfl := List.mem_singleton.mp hc
            omega
        refine ⟨hnested (by omega) hsplit' hearlier, ?_⟩
        rw [hsplit', any_within_append hearlier]
      rw [emitCall_eq ht hcall hvalue, ok_bind]
      simp only
      rw [ih _ call.extent.stop hsplit' (by omega)]
      rfl

/-- **The recursion ends and emits what the walk over the later calls emits.** The interval of an
argument's value is shorter than the interval that its call lies in, and every call up to that call
starts before the value. -/
theorem emitCalls_eq (ht : t.Copies S) {body : Extent} {calls : List Call}
    (hcalls : ∀ c ∈ calls, c.Placed S body)
    (horder : calls.Pairwise (·.extent.start < ·.extent.start)) (rounds : Nat) {within : Extent}
    (hrounds : within.stop - within.start < rounds) {earlier later : List Call}
    (hsplit : calls = earlier ++ later) (hbefore : ∀ c ∈ earlier, c.extent.start < within.start) :
    emitCalls t s calls rounds within = .ok (outlineCalls t s later within) := by
  induction rounds generalizing within earlier later with
  | zero => omega
  | succ rounds ih =>
    rw [emitCalls, hsplit, emitAmong_append hbefore, ← hsplit]
    exact emitAmong_eq ht hcalls horder (fun hshorter => ih hshorter) later earlier within.start hsplit
      hrounds

end Guarded
end TreeLint
