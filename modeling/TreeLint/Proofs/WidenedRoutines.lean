/-
# Routines in a text with a line put in

The parts of a routine behind its header are found by patterns and brackets, and
so they stand at the pushed places. Only the attribute lines above the header are
read line by line: here it is assumed that they are read alike, except that those
above the line put in are left out (`Text.ReadsAttributes`). A routine that is parted
from attribute lines in this way is found without them (`Source.Routine.cutAt`).

Key definitions: `Source.Routine.map`, `Source.Routine.Parted`,
`Source.Routine.cutAt`, `Text.ReadsAttributes`.
Key theorems: `Text.Widens.routineBody`, `Text.Widens.routineAt`,
`Text.Widens.routines`.
-/
import TreeLint.Proofs.WidenedTexts
import TreeLint.Source.Routine

namespace TreeLint
namespace Source

/-- The routine with its parts at other places. -/
def Routine.map (f : Nat → Nat) (r : Routine) : Routine where
  kind := r.kind
  name := r.name.map f
  obsolete := r.obsolete
  extent := r.extent.map f
  header := f r.header
  parameters := r.parameters.map f
  locals := r.locals.map (Extent.map f)
  body := r.body.map (Extent.map f)

/-- The place is behind the start of the first attribute line and not behind that of the header:
a line put in there parts the two. -/
def Routine.Parted (place : Nat) (r : Routine) : Prop := r.extent.start < place ∧ place ≤ r.header

instance (place : Nat) (r : Routine) : Decidable (r.Parted place) :=
  inferInstanceAs (Decidable (_ ∧ _))

/-- The routine without its attribute lines above the place, if the place parts it from them. -/
def Routine.cutAt (t : Text) (place : Nat) (r : Routine) : Routine :=
  if r.Parted place then
    { r with
      obsolete := (t.attributes r.header place).2
      extent := ⟨(t.attributes r.header place).1, r.extent.stop⟩ }
  else r

/-- The attribute lines above a header are read alike, but if the place is between them and the
header, only those below the place. -/
def Text.ReadsAttributes (push : Nat → Nat) (place : Nat) (t t' : Text) : Prop :=
  ∀ header floor, floor ≤ header → header ≤ t.bare.length →
    t'.attributes (push header) (push floor) = Prod.map push id (t.attributes header
      (if (t.attributes header floor).1 < place ∧ place ≤ header then place else floor))

theorem Routine.cutAt_of_parted {t : Text} {place : Nat} {r : Routine} (h : r.Parted place) :
    r.cutAt t place = { r with
      obsolete := (t.attributes r.header place).2
      extent := ⟨(t.attributes r.header place).1, r.extent.stop⟩ } := if_pos h

theorem Routine.cutAt_of_not_parted {t : Text} {place : Nat} {r : Routine} (h : ¬ r.Parted place) :
    r.cutAt t place = r := if_neg h

/-- Cutting moves the start of a routine only, and tells anew whether it is obsolete. -/
theorem Routine.cutAt_eq (t : Text) (place : Nat) (r : Routine) :
    r.cutAt t place = { r with
      obsolete := (r.cutAt t place).obsolete
      extent := ⟨(r.cutAt t place).extent.start, r.extent.stop⟩ } := by
  unfold cutAt
  split <;> rfl

namespace Text

variable {push : Nat → Nat} {move : Span → Span} {t t' : Text} {S : Cells}

/-- The place in the text up to the next header. -/
def upToHeader (c : Cursor) : Cursor :=
  match routineHeader.first? c with
  | some f => c.stopAt f.extent.start
  | none => c

theorem routineBody_eq (t : Text) (c : Cursor) : t.routineBody c =
    match (keyword "begin").first? (upToHeader c) with
    | some opening =>
      match closingEnd? (c.moveTo opening.extent.start) with
      | none => .error (.unbalancedBlock (t.span opening.extent))
      | some stop =>
        .ok (((keyword "var").first? (c.stopAt opening.extent.start)).map fun f =>
          ⟨f.extent.stop, opening.extent.start⟩, some ⟨opening.extent.start, stop⟩, stop)
    | none => .ok (none, none, (c.rest.findChar? ';' c.pos).getD c.pos + 1) := rfl

section Body

variable (h : t.Widens push move t') (ht : t.Copies S) {stop : Nat}
  (hstop : t.bare.isBoundary stop = true) {c d : Cursor} (hc : c.In t.bare stop)
  (hw : c.Widens push d)
include h ht hstop hc hw

theorem widens_upToHeader : (upToHeader c).Widens push (upToHeader d) := by
  have hlength := Cells.le_length_of_isBoundary hstop
  unfold upToHeader
  rw [(widens_routineHeader ht.bare.whole hstop).first? h.mono hlength hc hw]
  cases hfirst : routineHeader.first? c with
  | none => exact hw
  | some f =>
    obtain ⟨_, _, _, hle, _, _, hextent⟩ := Pattern.foundFrom_of_first? hlength hc hfirst
    refine hw.stopAt h.mono.monotone ?_
    rw [hextent]
    exact hle

omit ht hstop in
/-- A declaration without a body ends at the pushed place. -/
theorem push_semicolon {x : Cell} (hx : t.bare[c.pos]? = some x) (hxchar : x.char = ')') :
    (d.rest.findChar? ';' d.pos).getD d.pos + 1 =
      push ((c.rest.findChar? ';' c.pos).getD c.pos + 1) := by
  have hfind := hw.rest.findChar? (c := ';') rfl
  rw [hw.pos_eq, hfind]
  cases hsemicolon : c.rest.findChar? ';' c.pos with
  | none => exact (h.push_succ hx (Cells.ne_feed hxchar rfl)).symm
  | some k =>
    have hat := Cells.hasAt_findChar? hsemicolon
    rw [hc.rest_eq] at hat
    obtain ⟨-, -, y, hy, hychar⟩ := hat.of_slice
    exact (h.push_succ hy (Cells.ne_feed hychar rfl)).symm

/-- **The parts of a routine behind its parameters** stand at the pushed places. -/
theorem Widens.routineBody {x : Cell} (hx : t.bare[c.pos]? = some x) (hxchar : x.char = ')')
    {locals body : Option Extent} {last : Nat} (hbody : t.routineBody c = .ok (locals, body, last)) :
    t'.routineBody d = .ok (locals.map (Extent.map push), body.map (Extent.map push), push last) := by
  have hwhole := ht.bare.whole
  have hlength := Cells.le_length_of_isBoundary hstop
  obtain ⟨limit, hlimit, hlimit_le, hheader, hsame⟩ :
      ∃ limit, t.bare.isBoundary limit = true ∧ limit ≤ stop ∧ (upToHeader c).In t.bare limit ∧
        (upToHeader c).pos = c.pos := exists_in_of_nextHeader hwhole hstop hc
  have hbegin : (keyword "begin").Widens push t.bare limit id :=
    widens_keyword hwhole hlimit (by decide) (by decide)
  have hfirst := hbegin.first? h.mono (Cells.le_length_of_isBoundary hlimit) hheader
    (widens_upToHeader h ht hstop hc hw)
  rw [routineBody_eq] at hbody ⊢
  rw [hfirst]
  cases hopening : (keyword "begin").first? (upToHeader c) with
  | some opening =>
    rw [hopening] at hbody
    have hfound := Pattern.foundFrom_of_first? (Cells.le_length_of_isBoundary hlimit) hheader hopening
    rw [hsame] at hfound
    obtain ⟨hle, hle', hsnug⟩ := foundFrom_keyword hwhole hlimit (by decide) hfound
    have hlt := hsnug.lt
    obtain ⟨hmove, hpos⟩ := hc.moveTo opening.extent.start hle (by omega)
    have hmoved := hw.moveTo h.mono.monotone _ hle (by rw [hc.length_rest hlength]; omega)
    have hend := closingEnd?_of_widens h.mono hwhole hstop ⟨hmove, by rw [hpos]; exact hsnug.start⟩
      hmoved
    have hvar : (keyword "var").Widens push t.bare opening.extent.start id :=
      widens_keyword hwhole hsnug.start (by decide) (by decide)
    have hlocals := hvar.first? h.mono (Cells.le_length_of_isBoundary hsnug.start)
      (hc.stopAt hle (by omega)) (hw.stopAt h.mono.monotone hle)
    cases hlast : closingEnd? (c.moveTo opening.extent.start) with
    | none =>
      simp only [hlast] at hbody
      cases hbody
    | some last' =>
      simp only [hlast] at hbody
      cases hbody
      rw [hlast] at hend
      simp only [Option.map_some, Found.map, Extent.map] at hend hlocals ⊢
      rw [hend, hlocals]
      simp only [Option.map_map]
      rfl
  | none =>
    rw [hopening] at hbody
    cases hbody
    simp only [Option.map_none]
    rw [push_semicolon h hc hw hx hxchar]

end Body

section Routines

variable (h : t.Widens push move t') (ht : t.Copies S) {place : Nat}
  (hattributes : t.ReadsAttributes push place t') {members : Extent} (hmembers : S.Cuts members)
include h ht hattributes hmembers

/-- **A routine stands at the pushed places**, cut where it is parted from attribute lines. -/
theorem Widens.routineAt {last : Option Nat} {header : Found RoutineHeader} {r : Routine}
    (hfound : routineHeader.FoundFrom t.bare members.start members.stop header)
    (hlast : ∀ e, last = some e → e ≤ header.extent.start)
    (hr : t.routineAt (Cursor.ofSlice t.bare members) last header = .ok r) :
    t'.routineAt (Cursor.ofSlice t'.bare (members.map push)) (last.map push)
      (header.map push (RoutineHeader.map push)) = .ok ((r.cutAt t place).map push) := by
  have hbare := ht.bare.cuts hmembers
  have hlength := hbare.stop_le
  have hstart := Cursor.in_ofSlice hbare.le hbare.start
  obtain ⟨hle, hstop, hplaced⟩ := foundFrom_routineHeader ht.bare.whole hbare.stop hfound
  obtain ⟨x, hx, hxchar⟩ := hplaced.opening
  have hlt := hplaced.start_lt
  -- the parenthesis takes one place
  have hopening : push header.extent.stop - 1 = push (header.extent.stop - 1) := by
    have hsucc := h.push_succ hx (Cells.ne_feed hxchar rfl)
    rw [show header.extent.stop - 1 + 1 = header.extent.stop by omega] at hsucc
    omega
  obtain ⟨close, locals, body, stop, hclose, hbody, rfl⟩ := routineAt_eq_ok_iff.mp hr
  obtain ⟨hopen, hcloses, y, hy, hychar⟩ := lt_closingParen? hstart
    (header.extent.stop - 1) (by simp only [Cursor.ofSlice]; omega) (by omega) hx hxchar hclose
  obtain ⟨hmove, hpos⟩ := hstart.moveTo close
    (by simp only [Cursor.ofSlice]; omega) hcloses.le
  have hmoved' := (h.ofSlice members).moveTo h.mono.monotone close
    (by simp only [Cursor.ofSlice]; omega)
    (by rw [hstart.length_rest hlength]; simp only [Cursor.ofSlice]; omega)
  have hclose' : closingParen? ((Cursor.ofSlice t'.bare (members.map push)).moveTo
      (push header.extent.stop - 1)) = some (push close) := by
    rw [hopening, h.closingParen?_moveTo hlength (by omega) (by omega), hclose]
    rfl
  have hbody' := Widens.routineBody h ht hbare.stop hmove hmoved' (by rw [hpos]; exact hy) hychar hbody
  refine routineAt_eq_ok_iff.mpr ⟨_, _, _, _, hclose', hbody', ?_⟩
  -- what is left is the part read off the attribute lines
  have hfloor : last.getD members.start ≤ header.extent.start := by
    cases last with
    | none => exact hle
    | some e => exact hlast e rfl
  have hfloor' : (last.map push).getD (push members.start) = push (last.getD members.start) := by
    cases last <;> rfl
  have hattribute := hattributes header.extent.start (last.getD members.start) hfloor (by omega)
  have hparameters : push (header.extent.stop - 1 + 1) = push header.extent.stop - 1 + 1 := by
    rw [hopening]
    exact h.push_succ hx (Cells.ne_feed hxchar rfl)
  simp only [Cursor.ofSlice, Extent.map, Found.map, RoutineHeader.map, hfloor', hattribute]
  by_cases hparted : (t.attributes header.extent.start (last.getD members.start)).1 < place ∧
      place ≤ header.extent.start
  · rw [if_pos hparted, Routine.cutAt_of_parted]
    · simp only [Routine.map, Extent.map, hparameters, Prod.map, id]
    · exact hparted
  · rw [if_neg hparted, Routine.cutAt_of_not_parted]
    · simp only [Routine.map, Extent.map, hparameters, Prod.map, id]
    · exact hparted

theorem Widens.routinesOf {last : Option Nat} {hs : List (Found RoutineHeader)} {rs : List Routine}
    (hfound : ∀ h ∈ hs, routineHeader.FoundFrom t.bare members.start members.stop h)
    (hrs : t.routinesOf (Cursor.ofSlice t.bare members) last hs = .ok rs) :
    t'.routinesOf (Cursor.ofSlice t'.bare (members.map push)) (last.map push)
      (hs.map (Found.map push (RoutineHeader.map push))) =
        .ok ((rs.map (Routine.cutAt t place)).map (Routine.map push)) := by
  induction hs generalizing last rs with
  | nil =>
    cases hrs
    rfl
  | cons header hs ih =>
    have hlater : ∀ h ∈ hs, routineHeader.FoundFrom t.bare members.start members.stop h :=
      fun h hmem => hfound h (List.mem_cons_of_mem _ hmem)
    have hskip : (last.map push).any ((header.map push (RoutineHeader.map push)).extent.start < ·) =
        last.any (header.extent.start < ·) := by
      cases last with
      | none => rfl
      | some e => simp [Found.map, Extent.map, h.mono.lt_iff_lt]
    rw [List.map_cons, Text.routinesOf, hskip]
    rcases routinesOf_cons_ok hrs with ⟨hany, hrs⟩ | ⟨hlast, r, rs', hone, hrest, rfl⟩
    · rw [if_pos hany]
      exact ih hlater hrs
    · have hany : ¬last.any (header.extent.start < ·) = true := by
        cases last with
        | none => exact Bool.false_ne_true
        | some e => simpa using hlast e rfl
      have hstop : some ((r.cutAt t place).map push).extent.stop = (some r.extent.stop).map push := by
        rw [r.cutAt_eq t place]
        rfl
      rw [if_neg hany, Widens.routineAt h ht hattributes hmembers (hfound header List.mem_cons_self)
        hlast hone]
      simp only
      rw [hstop, ih hlater hrest]
      rfl

/-- **The routines of an object stand at the pushed places**, cut where they are parted from
attribute lines. -/
theorem Widens.routines {rs : List Routine} (hrs : t.routines members = .ok rs) :
    t'.routines (members.map push) =
      .ok ((rs.map (Routine.cutAt t place)).map (Routine.map push)) := by
  have hbare := ht.bare.cuts hmembers
  have hin := Cursor.in_ofSlice hbare.le hbare.start
  rw [Text.routines] at hrs ⊢
  rw [(widens_routineHeader ht.bare.whole hbare.stop).all h.mono hbare.stop_le hin (h.ofSlice members)]
  show t'.routinesOf _ (Option.map push none) _ = _
  exact Widens.routinesOf h ht hattributes hmembers
    (fun header hmem => Pattern.foundFrom_of_mem_all hbare.stop_le hin hmem) hrs

end Routines
end Text
end Source
end TreeLint
