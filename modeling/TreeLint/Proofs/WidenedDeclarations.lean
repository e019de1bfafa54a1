/-
# Declarations in a text with lines put in

A type specification, a name and a list of declared names are read from a piece of
the text, and such a piece may itself be spread over further lines. What is read
is then the same up to that: the same types, and names that are the same where
they stand on one line. So a section whose names stand on one line declares the
same in both texts.

Key definitions: `TypeInfo.Spreads`, `TypeInfo.OnOneLine`.
Key theorems: `Source.typeOf?_of_spreads`, `Source.isIdentifier_of_spreads`,
`Text.Widens.declarations`, `Text.Widens.declarations_eq`.
-/
import TreeLint.Proofs.GuardedScan
import TreeLint.Proofs.WidenedTexts

namespace TreeLint

namespace TypeInfo

/-- The types are the same, up to the lines over which the name is spread. -/
structure Spreads (a b : TypeInfo) : Prop where
  kind : b.kind = a.kind
  name : Option.Rel Name.SpreadsTo a.name b.name
  temporary : b.temporary = a.temporary

/-- The name in the type stands on one line. -/
def OnOneLine (a : TypeInfo) : Prop := ∀ n, a.name = some n → '\n' ∉ n.toList

theorem Spreads.eq {a b : TypeInfo} (h : a.Spreads b) (ha : a.OnOneLine) : b = a := by
  obtain ⟨kind, name, temporary⟩ := a
  obtain ⟨kind', name', temporary'⟩ := b
  obtain ⟨rfl, hname, rfl⟩ := h
  simp only at hname
  cases hname with
  | none => rfl
  | some hname => rw [hname.eq (ha _ rfl)]

end TypeInfo

namespace Source

open Cursor (WidensWith)

variable {push : Nat → Nat} {cs ds : Cells}

/-! ### Pieces that are spread -/

theorem widens_start (hzero : push 0 = 0) (h : Cells.Widens push 0 cs ds) :
    Cursor.Widens push ⟨none, 0, cs⟩ ⟨none, 0, ds⟩ :=
  ⟨hzero.symm, h, rfl⟩

theorem in_start (hcs : cs.Whole) : Cursor.In cs cs.length ⟨none, 0, cs⟩ :=
  ⟨by simp [Cells.slice], Nat.zero_le _, Or.inl ⟨rfl, hcs.isBoundary_zero⟩⟩

theorem isIdentifier_of_spreads (h : cs.Spreads ds) : isIdentifier ds = isIdentifier cs := by
  obtain ⟨push, -, hzero, h⟩ := h.exists_widens
  have hname := (widens_start hzero h).name? CharClass.isAsciiLetter
  unfold isIdentifier
  generalize Cursor.name? _ (Cursor.mk none 0 cs) = a, Cursor.name? _ (Cursor.mk none 0 ds) = b at hname
  cases hname with
  | none => rfl
  | @some a b hname =>
    have hempty := hname.2.rest.spreads.eq_nil_iff
    simp only
    rw [Bool.eq_iff_iff, List.isEmpty_iff, List.isEmpty_iff, hempty]

theorem widens_skipBrackets {c d : Cursor} (h : c.Widens push d) :
    (skipBrackets c).Widens push (skipBrackets d) := by
  have hskip : ∀ c : Cursor, skipBrackets c = ((c.blanks.mark? '[').bind fun d =>
      (d.skipWhile fun x => x.char != ']').mark? ']').getD c := by
    intro c
    rw [skipBrackets]
    split <;> rename_i h <;> rw [h] <;> rfl
  rw [hskip, hskip]
  refine rel_getD (rel_bind (h.blanks.mark? rfl) fun c d h => (h.skipWhile fun _ x hx => ?_).mark? rfl) h
  rw [bne_iff_ne]
  intro hbracket
  rw [Cell.isBlank, hbracket] at hx
  cases hx

theorem typeSpec?_of_widens (hzero : push 0 = 0) (h : Cells.Widens push 0 cs ds) :
    Option.Rel (fun s s' => s'.keyword = s.keyword.map push ∧ s'.name = s.name.map (Extent.map push))
      (typeSpec? cs) (typeSpec? ds) := by
  have hstart := (widens_start hzero h).blanks
  simp only [typeSpec?, Option.bind_eq_bind]
  refine rel_bind (hstart.some? (absurd · (by decide))) fun c d h => .some ⟨?_, ?_⟩
  · simp only [Cursor.upTo]
    rw [hstart.pos_eq, h.pos_eq]
    rfl
  · refine eq_map_of_rel (rel_map (rel_bind (widens_skipBrackets h).blanks? fun c d h => h.name? _) ?_)
    exact fun _ _ h => h.1

/-- **The type that a piece of text names** is the same, up to the lines of its name. -/
theorem typeOf?_of_spreads (hcs : cs.Whole) (h : cs.Spreads ds) :
    Option.Rel TypeInfo.Spreads (typeOf? cs) (typeOf? ds) := by
  obtain ⟨push, hmono, hzero, h⟩ := h.exists_widens
  have hkeyword : (keyword "temporary").Widens push cs cs.length id :=
    widens_keyword hcs (Cells.isBoundary_length cs) (by decide) (by decide)
  have htemporary := hkeyword.first? hmono le_rfl (in_start hcs) (widens_start hzero h)
  have hslice : ∀ r, Cells.Widens push (Extent.start r) (cs.slice r) (ds.slice (r.map push)) :=
    Text.Widens.slice_of_widens hmono.monotone (by rwa [hzero])
  have hspec := typeSpec?_of_widens hzero h
  unfold typeOf?
  rw [htemporary]
  generalize typeSpec? cs = spec, typeSpec? ds = spec' at hspec
  cases hspec with
  | none => exact .none
  | @some spec spec' hspec =>
    obtain ⟨hkeyword, hname⟩ := hspec
    have hkind : TypeKind.ofKeyword (ds.slice (spec.keyword.map push)).text =
        TypeKind.ofKeyword (cs.slice spec.keyword).text :=
      TypeKind.ofKeyword_of_spreads (hslice spec.keyword).spreads.toList_text
    simp only
    rw [hkeyword, hname, hkind]
    refine .some ⟨rfl, ?_, Option.isSome_map ..⟩
    simp only
    split
    · cases spec.name with
      | none => exact .none
      | some r => exact .some (hslice r).spreads.toList_unquote
    · exact .none

/-- **The names before a colon.** -/
theorem declaredNames?_of_spreads (h : cs.Spreads ds) (parameters : Bool) :
    Option.Rel (List.Forall₂ Name.SpreadsTo) (declaredNames? cs parameters)
      (declaredNames? ds parameters) := by
  have htext : (if parameters then (stripVar? cs.trim).getD cs.trim else cs.trim).Spreads
      (if parameters then (stripVar? ds.trim).getD ds.trim else ds.trim) := by
    split
    · exact rel_getD (stripVar?_of_spreads h.trim) h.trim
    · exact h.trim
  simp only [declaredNames?]
  generalize (if parameters then (stripVar? cs.trim).getD cs.trim else cs.trim) = text at htext ⊢
  generalize (if parameters then (stripVar? ds.trim).getD ds.trim else ds.trim) = text' at htext ⊢
  have hpieces : List.Forall₂ Cells.Spreads ((text.splitOn ',').map Cells.trim)
      ((text'.splitOn ',').map Cells.trim) :=
    List.rel_map (fun _ _ h => h.trim) (htext.splitOn rfl)
  generalize (text.splitOn ',').map Cells.trim = pieces at hpieces ⊢
  generalize (text'.splitOn ',').map Cells.trim = pieces' at hpieces ⊢
  have hall : pieces'.all isIdentifier = pieces.all isIdentifier := by
    induction hpieces with
    | nil => rfl
    | cons h _ ih => rw [List.all_cons, List.all_cons, isIdentifier_of_spreads h, ih]
  rw [hall]
  split
  · exact .some (List.rel_map (fun _ _ h => h.toList_unquote) hpieces)
  · exact .none

/-! ### Sections -/

/-- What is declared is the same, up to the lines over which its names are spread. -/
def DeclaredSpreads (a b : String × TypeInfo) : Prop := Name.SpreadsTo a.1 b.1 ∧ a.2.Spreads b.2

namespace Text

variable {move : Span → Span} {t t' : Text} {S : Cells} {r : Extent} (h : t.Widens push move t')
  (ht : t.Copies S)
include h ht

theorem Widens.declaration? (hr : S.Cuts r) (parameters : Bool) :
    Option.Rel (List.Forall₂ DeclaredSpreads) (t.declaration? parameters r)
      (t'.declaration? parameters (r.map push)) := by
  have hcolon : (t'.bare.slice (r.map push)).findChar? ':' (r.map push).start =
      ((t.bare.slice r).findChar? ':' r.start).map push := (h.slice_bare r).findChar? rfl
  rw [Text.declaration?, Text.declaration?, hcolon]
  cases hfind : (t.bare.slice r).findChar? ':' r.start with
  | none => exact .none
  | some colon =>
    obtain ⟨-, -, x, hx, hxchar⟩ := (Cells.hasAt_findChar? hfind).of_slice
    have hsucc := h.push_succ hx (Cells.ne_feed hxchar rfl)
    obtain ⟨-, hbehind⟩ := Guarded.cuts_colon ht hr hfind
    have hmasked := ht.masked.cuts hbehind
    have hnames := declaredNames?_of_spreads (h.slice_masked ⟨r.start, colon⟩).spreads parameters
    have htype := typeOf?_of_spreads (ht.masked.whole.slice hmasked.start hmasked.stop)
      (h.slice_masked ⟨colon + 1, r.stop⟩).spreads
    simp only [Extent.map, Option.map_some] at hnames htype ⊢
    rw [hsucc] at htype
    generalize declaredNames? (t.masked.slice _) _ = names at hnames ⊢
    generalize declaredNames? (t'.masked.slice _) _ = names' at hnames ⊢
    generalize typeOf? (t.masked.slice _) = type at htype ⊢
    generalize typeOf? (t'.masked.slice _) = type' at htype ⊢
    cases hnames with
    | none => exact .none
    | some hnames =>
      cases htype with
      | none => exact .none
      | some htype => exact .some (List.rel_map (fun _ _ h => ⟨h, htype⟩) hnames)

theorem Widens.declarationsIn (parameters : Bool) {rs : List Extent} (hrs : ∀ r ∈ rs, S.Cuts r) :
    List.Forall₂ DeclaredSpreads (t.declarationsIn parameters rs)
      (t'.declarationsIn parameters (rs.map (Extent.map push))) := by
  induction rs with
  | nil => exact .nil
  | cons r rs ih =>
    have ih := ih fun r' hr' => hrs r' (List.mem_cons_of_mem r hr')
    have hone := h.declaration? ht (hrs r List.mem_cons_self) parameters
    rw [List.map_cons, Text.declarationsIn, Text.declarationsIn, (h.slice_bare r).spreads.isBlank]
    split
    · exact ih
    · generalize Text.declaration? t _ _ = a, Text.declaration? t' _ _ = b at hone
      cases hone with
      | none => exact .nil
      | some hone => exact List.rel_append hone ih

/-- **The declarations of an interval** are the same, up to the lines of their names. -/
theorem Widens.declarations (hr : S.Cuts r) (parameters : Bool) :
    List.Forall₂ DeclaredSpreads (t.declarations r parameters)
      (t'.declarations (r.map push) parameters) := by
  have hsegments : segmentsFrom (r.map push).start (r.map push).start (t'.bare.slice (r.map push)) =
      (segmentsFrom r.start r.start (t.bare.slice r)).map (Extent.map push) :=
    (h.slice_bare r).segmentsFrom r.start
  rw [Text.declarations, Text.declarations, hsegments]
  exact h.declarationsIn ht parameters fun p hp => ht.cuts_segment hr hp

/-- Where all names stand on one line, the same is declared. -/
theorem Widens.declarations_eq (hr : S.Cuts r) (parameters : Bool)
    (hline : ∀ d ∈ t.declarations r parameters, '\n' ∉ d.1.toList ∧ d.2.OnOneLine) :
    t'.declarations (r.map push) parameters = t.declarations r parameters := by
  have hrel := h.declarations ht hr parameters
  generalize t.declarations r parameters = ds, t'.declarations _ _ = ds' at hrel hline
  induction hrel with
  | nil => rfl
  | @cons d d' ds ds' hd _ ih =>
    obtain ⟨hname, htype⟩ := hline d List.mem_cons_self
    rw [ih fun d hd => hline d (List.mem_cons_of_mem _ hd),
      show d' = d from Prod.ext (hd.1.eq hname) (hd.2.eq htype)]

end Text
end Source
end TreeLint
