/-
# Marking a text and reading it back

A source is cut into stretches: an unmarked one at the front, and then marked
places, each with the unmarked stretch behind it (`Marker.Cut`). No mark stands in
a stretch, and a marked place does not end in `[`, which the closing mark would
turn into an opening one. Stretches may be empty: so an empty place can be marked,
and two places may meet.

Written with its marks, a cut source is read as that source with those places
(`MarkedSource.ofString_text`), and every text that can be read is written so
(`MarkedSource.ofString_eq_ok_iff`). What holds of the places of cuts therefore holds of
all that is read: they are in order and apart, they lie on character boundaries of
the source, and putting the marks back gives the text again.

Key definitions: `Marker.Stretch`, `Marker.Place`, `Marker.Cut`, `Marker.Cut.text`,
`MarkedSource.marked`.
Key theorems: `Marker.readFrom_cut`, `Marker.exists_cut_of_tokensFrom`,
`MarkedSource.ofString_eq_ok_iff`, `MarkedSource.marked_round_trip`.
-/
import Mathlib.Data.List.Infix
import TreeLint.Proofs.Marks
import TreeLint.Proofs.Places

namespace TreeLint

open Cells (ofChars)

namespace Marker

/-! ### Cut sources -/

/-- No mark stands in the characters. -/
def Markless (cs : List Char) : Prop := ∀ m : Mark, ¬ m.chars <:+: cs

/-- A stretch of a source in which no mark stands. -/
structure Stretch where
  chars : List Char
  markless : Markless chars

/-- A stretch that can be marked. -/
structure Place extends Stretch where
  flush : chars.getLast? ≠ some '['

/-- A source cut into an unmarked stretch and marked places, each with the unmarked stretch behind
it. -/
structure Cut where
  first : Stretch
  later : List (Place × Stretch)

/-- A marked place as it is written, with the stretch behind it. -/
def writtenPlace (x : Place × Stretch) : List Char :=
  Mark.opening.chars ++ (x.1.chars ++ (Mark.closing.chars ++ x.2.chars))

/-- The intervals of places that come one after the other from an offset on. -/
def extentsFrom (pos : Nat) : List (Place × Stretch) → List Extent
  | [] => []
  | (place, behind) :: later =>
    ⟨pos, pos + width place.chars⟩ ::
      extentsFrom (pos + width place.chars + width behind.chars) later

namespace Cut

/-- The characters of the source with its marks. -/
def written (c : Cut) : List Char := c.first.chars ++ c.later.flatMap writtenPlace

/-- The characters of the source. -/
def plain (c : Cut) : List Char :=
  c.first.chars ++ c.later.flatMap fun x => x.1.chars ++ x.2.chars

/-- The source with its marks. -/
def text (c : Cut) : String := String.ofList c.written

/-- The source. -/
def source (c : Cut) : String := String.ofList c.plain

/-- The intervals of the marked places in the source. -/
def markers (c : Cut) : List Extent := extentsFrom (width c.first.chars) c.later

end Cut

/-! ### Reading what is written -/

section Read

variable {pos out : Nat} {opened : Option Opened}

theorem Markless.of_cons {c : Char} {cs : List Char} (h : Markless (c :: cs)) : Markless cs :=
  fun m hm => h m (hm.trans (List.suffix_cons c cs).isInfix)

theorem Markless.cons {c : Char} {cs : List Char} (h : Markless cs) (hc : NoMarkAhead (c :: cs)) :
    Markless (c :: cs) := by
  intro m hm
  rcases List.infix_cons_iff.mp hm with hfront | hrest
  · exact hc m hfront
  · exact h m hrest

theorem markless_nil : Markless [] := by
  intro m hm
  cases m <;> simp [Mark.chars] at hm

/-- No mark is made of the end of one stretch and the start of the next. -/
def Apart (cs rest : List Char) : Prop :=
  ∀ c ∈ cs.getLast?, ∀ d ∈ rest.head?, ∀ m : Mark, m.chars ≠ [c, d]

theorem Apart.of_cons_cons {c d : Char} {cs rest : List Char} (h : Apart (c :: d :: cs) rest) :
    Apart (d :: cs) rest := by
  rwa [Apart, List.getLast?_cons_cons] at h

theorem Mark.chars_of_prefix {m : Mark} {c d : Char} {cs : List Char}
    (h : m.chars <+: c :: d :: cs) : m.chars = [c, d] := by
  have hlength : m.chars.length = 2 := by cases m <;> rfl
  rw [List.prefix_iff_eq_take, hlength] at h
  exact h

theorem noMarkAhead_append {c : Char} {cs rest : List Char} (h : Markless (c :: cs))
    (hapart : Apart (c :: cs) rest) : NoMarkAhead (c :: cs ++ rest) := by
  intro m hm
  cases cs with
  | nil =>
    cases rest with
    | nil => exact h m hm.isInfix
    | cons d rest => exact hapart c rfl d rfl m (Mark.chars_of_prefix hm)
  | cons d cs =>
    refine h m ?_
    rw [Mark.chars_of_prefix hm]
    exact ⟨[], cs, rfl⟩

/-- **A stretch without marks is kept.** -/
theorem readFrom_markless : ∀ {cs : List Char}, Markless cs → ∀ {rest : List Char}, Apart cs rest →
    ∀ {pos out : Nat}, readFrom pos out opened (ofChars (cs ++ rest)) =
      keepAll (ofChars cs) (readFrom (pos + width cs) (out + width cs) opened (ofChars rest))
  | [], _, _, _, _, _ => rfl
  | c :: cs, h, rest, hapart, pos, out => by
    have hlater : Apart cs rest := by
      cases cs with
      | nil => exact fun _ hc => nomatch hc
      | cons d cs => exact hapart.of_cons_cons
    have hfront := noMarkAhead_append h hapart
    rw [List.cons_append] at hfront ⊢
    rw [readFrom_ofChars_cons hfront, readFrom_markless h.of_cons hlater, ← keepAll_append,
      ← Cells.ofChars_cons, width_cons, Nat.add_assoc, Nat.add_assoc]

theorem apart_of_head {cs rest : List Char} (h : rest.head? = none ∨ rest.head? = some '[') :
    Apart cs rest := by
  intro c _ d hd m hm
  rcases h with h | h
  · rw [h] at hd
    cases hd
  · rw [h] at hd
    cases hd
    cases m <;> simp [Mark.chars] at hm

theorem Place.apart (p : Place) (rest : List Char) : Apart p.chars (Mark.closing.chars ++ rest) := by
  rintro c hc _ ⟨⟩ m hm
  cases m with
  | opening =>
    rw [Mark.chars, List.cons.injEq] at hm
    exact p.flush (hm.1 ▸ hc)
  | closing => simp [Mark.chars] at hm

theorem head?_flatMap_writtenPlace (later : List (Place × Stretch)) :
    (later.flatMap writtenPlace).head? = none ∨ (later.flatMap writtenPlace).head? = some '[' := by
  cases later with
  | nil => exact Or.inl rfl
  | cons x later => exact Or.inr rfl

/-- Marked places and the stretches behind them are read as they were written. -/
theorem readFrom_places : ∀ (later : List (Place × Stretch)) (pos out : Nat),
    readFrom pos out none (ofChars (later.flatMap writtenPlace)) =
      .ok (ofChars (later.flatMap fun x => x.1.chars ++ x.2.chars), extentsFrom out later)
  | [], _, _ => rfl
  | (place, behind) :: later, pos, out => by
    have hbehind : Apart behind.chars (later.flatMap writtenPlace) :=
      apart_of_head (head?_flatMap_writtenPlace later)
    rw [List.flatMap_cons, List.flatMap_cons, writtenPlace, List.append_assoc, List.append_assoc,
      List.append_assoc, readFrom_opening, readFrom_markless place.markless (place.apart _),
      readFrom_closing, readFrom_markless behind.markless hbehind, readFrom_places later,
      keepAll_ok, mark, keepAll_ok, extentsFrom]
    simp only [Cells.ofChars_append, List.append_assoc]

/-- **A cut source is read as it was written.** -/
theorem readFrom_cut (c : Cut) (pos out : Nat) :
    readFrom pos out none (ofChars c.written) =
      .ok (ofChars c.plain, extentsFrom (out + width c.first.chars) c.later) := by
  rw [Cut.written, readFrom_markless c.first.markless
    (apart_of_head (head?_flatMap_writtenPlace c.later)), readFrom_places, keepAll_ok, Cut.plain,
    Cells.ofChars_append]

end Read

/-! ### What can be read is written so -/

theorem NoMarkAhead.of_append {a b : List Char} (h : NoMarkAhead (a ++ b)) : NoMarkAhead a :=
  fun m hm => h m (hm.trans (List.prefix_append a b))

/-- A character in front of a place does not make it end in `[`. -/
theorem Place.flush_cons {c : Char} (place : Place) {rest : List Char}
    (h : NoMarkAhead (c :: (place.chars ++ (Mark.closing.chars ++ rest)))) :
    (c :: place.chars).getLast? ≠ some '[' := by
  have hplace := place.flush
  cases hchars : place.chars with
  | nil =>
    rintro ⟨⟩
    rw [hchars] at h
    exact h .opening ⟨']' :: rest, rfl⟩
  | cons d ds =>
    rwa [hchars] at hplace

/-- **Text whose marks are in order is a cut source as it is written**, or the rest of one from a
marked place on if an opening mark stands before the text. -/
theorem exists_cut_of_tokensFrom (pos : Nat) (cs : List Char) :
    (violation? none (tokensFrom pos cs) = none → ∃ c : Cut, c.written = cs) ∧
      ∀ p, violation? (some p) (tokensFrom pos cs) = none → ∃ (place : Place) (c : Cut),
        place.chars ++ (Mark.closing.chars ++ c.written) = cs := by
  induction pos, cs using tokensFrom.induct with
  | case1 pos cs ih =>
    rw [tokensFrom]
    constructor
    · intro h
      obtain ⟨place, c, hplace⟩ := ih.2 pos h
      refine ⟨⟨⟨[], markless_nil⟩, (place, c.first) :: c.later⟩, ?_⟩
      rw [← hplace]
      simp [Cut.written, writtenPlace, Mark.chars]
    · intro p h
      cases h
  | case2 pos cs ih =>
    rw [tokensFrom]
    constructor
    · intro h
      cases h
    · intro p h
      obtain ⟨c, rfl⟩ := ih.1 h
      exact ⟨⟨⟨[], markless_nil⟩, by simp⟩, c, rfl⟩
  | case3 pos d cs hopening hclosing ih =>
    have hfront := noMarkAhead_of_no_match hopening hclosing
    rw [tokensFrom_cons hfront]
    constructor
    · intro h
      obtain ⟨c, rfl⟩ := ih.1 h
      have hfirst : NoMarkAhead (d :: c.first.chars) := .of_append hfront
      exact ⟨⟨⟨d :: c.first.chars, c.first.markless.cons hfirst⟩, c.later⟩, rfl⟩
    · intro p h
      obtain ⟨place, c, rfl⟩ := ih.2 p h
      have hplace : NoMarkAhead (d :: place.chars) := .of_append hfront
      exact ⟨⟨⟨d :: place.chars, place.markless.cons hplace⟩, place.flush_cons hfront⟩, c, rfl⟩
  | case4 pos =>
    rw [tokensFrom]
    constructor
    · intro _
      exact ⟨⟨⟨[], markless_nil⟩, []⟩, rfl⟩
    · intro p h
      cases h

/-! ### Where the places are -/

theorem isBoundary_width (a b : List Char) : (ofChars (a ++ b)).isBoundary (width a) = true := by
  induction a with
  | nil => exact Cells.Whole.isBoundary_zero ⟨b, rfl⟩
  | cons c a ih =>
    rw [List.cons_append, Cells.ofChars_cons, Cells.isBoundary_ofChar_append, width_cons,
      Nat.add_sub_cancel_left]
    exact Or.inr ⟨by omega, ih⟩

/-- **A marked interval is that of a stretch of the source.** -/
theorem exists_of_mem_extentsFrom {r : Extent} : ∀ {later : List (Place × Stretch)}
    {front : List Char}, r ∈ extentsFrom (width front) later → ∃ before place after,
      front ++ later.flatMap (fun x => x.1.chars ++ x.2.chars) = before ++ (place ++ after) ∧
        r.start = width before ∧ r.stop = width before + width place
  | (place, behind) :: later, front, h => by
    rw [extentsFrom, List.mem_cons] at h
    rcases h with rfl | h
    · exact ⟨front, place.chars, behind.chars ++ later.flatMap fun x => x.1.chars ++ x.2.chars,
        by simp, rfl, rfl⟩
    · have hwidth : width front + width place.chars + width behind.chars =
          width (front ++ (place.chars ++ behind.chars)) := by
        rw [width_append, width_append, Nat.add_assoc]
      rw [hwidth] at h
      obtain ⟨before, stretch, after, htext, hr⟩ := exists_of_mem_extentsFrom h
      exact ⟨before, stretch, after, by rw [← htext]; simp, hr⟩

theorem le_start_of_mem_extentsFrom {r : Extent} : ∀ {later : List (Place × Stretch)} {pos : Nat},
    r ∈ extentsFrom pos later → pos ≤ r.start
  | (place, behind) :: later, pos, h => by
    rw [extentsFrom, List.mem_cons] at h
    rcases h with rfl | h
    · exact Nat.le_refl _
    · have := le_start_of_mem_extentsFrom h
      omega

/-- **The places are in order and apart.** -/
theorem pairwise_extentsFrom : ∀ (later : List (Place × Stretch)) (pos : Nat),
    (extentsFrom pos later).Pairwise fun a b => a.stop ≤ b.start
  | [], _ => .nil
  | (place, behind) :: later, pos => by
    refine .cons (fun r hr => ?_) (pairwise_extentsFrom later _)
    have := le_start_of_mem_extentsFrom hr
    simp only
    omega

/-! ### Putting the marks back -/

/-- The text from offset `pos` on with marks around the intervals. -/
def insertFrom (cs : Cells) (pos : Nat) : List Extent → Cells
  | [] => cs.drop pos
  | r :: rs => cs.slice ⟨pos, r.start⟩ ++ (ofChars Mark.opening.chars ++ (cs.slice r ++
      (ofChars Mark.closing.chars ++ insertFrom cs r.stop rs)))

theorem slice_width (a b c : List Char) :
    (ofChars (a ++ (b ++ c))).slice ⟨width a, width a + width b⟩ = ofChars b := by
  have hcells : ofChars (a ++ (b ++ c)) = ofChars a ++ (ofChars b ++ ofChars c) := by
    rw [Cells.ofChars_append, Cells.ofChars_append]
  refine Cells.slice_of_append hcells ?_ ?_
  · rw [length_ofChars]
  · rw [length_ofChars, length_ofChars]

theorem insertFrom_places : ∀ (later : List (Place × Stretch)) (front stretch : List Char),
    insertFrom
        (ofChars (front ++ (stretch ++ later.flatMap fun x => x.1.chars ++ x.2.chars)))
        (width front) (extentsFrom (width front + width stretch) later) =
      ofChars (stretch ++ later.flatMap writtenPlace)
  | [], front, stretch => by
    rw [extentsFrom, insertFrom, Cells.ofChars_append, ← length_ofChars, List.drop_left]
    simp
  | (place, behind) :: later, front, stretch => by
    let rest := later.flatMap fun x => x.1.chars ++ x.2.chars
    have hlater := insertFrom_places later (front ++ (stretch ++ place.chars)) behind.chars
    have hstretch := slice_width front stretch (place.chars ++ (behind.chars ++ rest))
    have hplace := slice_width (front ++ stretch) place.chars (behind.chars ++ rest)
    simp only [width_append, List.append_assoc, ← Nat.add_assoc] at hlater hplace
    rw [extentsFrom, insertFrom, List.flatMap_cons, List.flatMap_cons, List.append_assoc]
    simp only
    rw [hstretch, hplace, hlater, writtenPlace]
    simp only [Cells.ofChars_append, List.append_assoc]

theorem insertFrom_cut (c : Cut) : insertFrom (ofChars c.plain) 0 c.markers = ofChars c.written := by
  have h := insertFrom_places c.later [] c.first.chars
  rwa [width_nil, Nat.zero_add] at h

end Marker

namespace MarkedSource

open Marker (Cut)

/-- The text with its marks: one before and one behind each of the intervals. -/
def marked (m : MarkedSource) : String :=
  (Marker.insertFrom (Cells.ofString m.source) 0 m.markers).text

/-- **A cut source is read as it was written.** -/
theorem ofString_text (c : Cut) : ofString c.text = .ok ⟨c.source, c.markers⟩ := by
  rw [ofString, Cells.ofString, Cut.text, String.toList_ofList, Marker.readFrom_cut, Nat.zero_add]
  simp [Cells.text, Cells.chars_ofChars, Cut.source, Cut.markers]

/-- **What can be read is a cut source as it is written.** -/
theorem ofString_eq_ok_iff {s : String} {m : MarkedSource} :
    ofString s = .ok m ↔ ∃ c : Cut, c.text = s ∧ m = ⟨c.source, c.markers⟩ := by
  constructor
  · intro h
    have hmarks := Marker.violation?_eq_none_iff.mpr (exists_ofString_eq_ok_iff.mp ⟨m, h⟩)
    obtain ⟨c, hc⟩ := (Marker.exists_cut_of_tokensFrom 0 s.toList).1 hmarks
    have htext : c.text = s := by rw [Cut.text, hc, String.ofList_toList]
    refine ⟨c, htext, ?_⟩
    rw [← htext, ofString_text] at h
    exact (Except.ok.inj h).symm
  · rintro ⟨c, rfl, rfl⟩
    exact ofString_text c

section Read

variable {s : String} {m : MarkedSource} (h : ofString s = .ok m)
include h

theorem pairwise_markers : m.markers.Pairwise fun a b => a.stop ≤ b.start := by
  obtain ⟨c, -, rfl⟩ := ofString_eq_ok_iff.mp h
  exact Marker.pairwise_extentsFrom c.later _

theorem cuts_of_mem_markers {r : Extent} (hr : r ∈ m.markers) :
    r.start ≤ r.stop ∧ r.stop ≤ m.source.utf8ByteSize ∧
      (Cells.ofString m.source).isBoundary r.start = true ∧
      (Cells.ofString m.source).isBoundary r.stop = true := by
  obtain ⟨c, -, rfl⟩ := ofString_eq_ok_iff.mp h
  obtain ⟨before, place, after, hplain, hstart, hstop⟩ := Marker.exists_of_mem_extentsFrom hr
  have hsource : c.source = String.ofList (before ++ (place ++ after)) := congrArg _ hplain
  have hstopBoundary := Marker.isBoundary_width (before ++ place) after
  rw [List.append_assoc, Marker.width_append] at hstopBoundary
  simp only [hsource, Cells.ofString, String.toList_ofList, hstart, hstop]
  refine ⟨by omega, ?_, Marker.isBoundary_width before _, hstopBoundary⟩
  change _ ≤ Marker.width (before ++ (place ++ after))
  rw [Marker.width_append, Marker.width_append]
  omega

theorem marked_eq : m.marked = s := by
  obtain ⟨c, rfl, rfl⟩ := ofString_eq_ok_iff.mp h
  rw [marked, Cells.ofString, Cut.source, String.toList_ofList, Marker.insertFrom_cut]
  simp [Cells.text, Cells.chars_ofChars, Cut.text]

end Read

/-- **Reading and marking are inverse to each other.** In a text that can be read the marked
intervals are in order and apart, each lies within the source and between character boundaries, and
the source with marks around them is the text again. And every cut of a source, written with its
marks, is read as that source with the intervals of its marked places. -/
theorem marked_round_trip :
    (∀ s m, ofString s = .ok m →
      m.markers.Pairwise (fun a b => a.stop ≤ b.start) ∧
      (∀ r ∈ m.markers, r.start ≤ r.stop ∧ r.stop ≤ m.source.utf8ByteSize ∧
        (Cells.ofString m.source).isBoundary r.start = true ∧
        (Cells.ofString m.source).isBoundary r.stop = true) ∧
      m.marked = s) ∧
    ∀ c : Cut, ofString c.text = .ok ⟨c.source, c.markers⟩ :=
  ⟨fun _ _ h => ⟨pairwise_markers h, fun _ hr => cuts_of_mem_markers h hr, marked_eq h⟩,
    ofString_text⟩

/-- The first place is a bracket between brackets; then an empty place and one of two bytes meet. -/
theorem marked_bracketed :
    ofString "[[|]|]|[||][|é|]" = .ok ⟨"[]|é", [⟨1, 2⟩, ⟨3, 3⟩, ⟨3, 5⟩]⟩ ∧
      (⟨"[]|é", [⟨1, 2⟩, ⟨3, 3⟩, ⟨3, 5⟩]⟩ : MarkedSource).marked = "[[|]|]|[||][|é|]" := by
  have h : ofString "[[|]|]|[||][|é|]" = .ok ⟨"[]|é", [⟨1, 2⟩, ⟨3, 3⟩, ⟨3, 5⟩]⟩ := by decide
  exact ⟨h, (marked_round_trip.1 _ _ h).2.2⟩

end MarkedSource
end TreeLint
