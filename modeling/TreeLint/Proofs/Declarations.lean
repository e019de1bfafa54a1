/-
# Reading declarations back

The ends of the segments and the colon in each are looked for in the copy without
quoted names, and so it makes no difference which colons, semicolons, apostrophes
or comments stand between quotes. Only the comma does: a declaration with a comma
between quotes is not read (`Text.Shows.declaration?`), and a declaration that is
not read ends the section.

What is read of a section is therefore what was written, in its order and each
name with its type, up to the first declaration that has a comma between quotes
(`WrittenSection.read_until_comma`).

Key definitions: `Source.WrittenSection.read`, `Source.WrittenSection.entries`.
Key theorems: `Source.Text.Shows.declaration?`,
`Source.Text.Shows.declarationsIn_segments`, `Source.WrittenSection.read_until_comma`.
-/
import TreeLint.Proofs.DeclarationParts
import TreeLint.Proofs.ProgramCalls

namespace TreeLint

open Cells (ofChars)
open CharClass (lower isBlank isWord)

namespace Source

variable {parameters : Bool}

/-! ### One declaration -/

/-- What is left of the names of a declaration when its quoted names are blanked: white space, word
characters, commas and quotes. -/
def isNameMark (c : Char) : Bool := isBlank c || isWord c || c == ',' || c == '"'

theorem isNameMark_of_isBlank {c : Char} (h : isBlank c = true) : isNameMark c = true := by
  simp [isNameMark, h]

theorem isNameMark_of_isWord {c : Char} (h : isWord c = true) : isNameMark c = true := by
  simp [isNameMark, h]

theorem WrittenName.isNameMark_of_mem {n : WrittenName} {c : Char} (hc : c ∈ n.blanked) :
    isNameMark c = true := by
  cases n with
  | plain cs first all_word _ => exact isNameMark_of_isWord (all_word c hc)
  | quoted content _ =>
    simp only [blanked, List.mem_cons, List.mem_append, List.mem_flatMap, List.not_mem_nil,
      or_false] at hc
    rcases hc with rfl | ⟨d, -, hc⟩ | rfl
    · rfl
    · refine isNameMark_of_isBlank ?_
      rw [blankedChar] at hc
      split at hc
      · rename_i hd
        rw [List.mem_singleton.mp hc]
        rcases hd with rfl | rfl <;> rfl
      · rw [List.eq_of_mem_replicate hc]
        rfl
    · rfl

theorem isNameMark_of_mem_names : ∀ {n : WrittenName} {ms : List FurtherName} {c : Char},
    c ∈ namesWith WrittenName.blanked n ms → isNameMark c = true
  | n, [], c, hc => n.isNameMark_of_mem hc
  | n, m :: ms, c, hc => by
    simp only [namesWith, List.mem_append, List.mem_cons] at hc
    rcases hc with (hc | hc) | rfl | hc | hc
    · exact n.isNameMark_of_mem hc
    · exact isNameMark_of_isBlank (m.before.all_blank c hc)
    · rfl
    · exact isNameMark_of_isBlank (m.behind.all_blank c hc)
    · exact isNameMark_of_mem_names hc

namespace WrittenDeclaration

variable {d : WrittenDeclaration parameters} {c : Char}

theorem isNameMark_of_mem_front (hc : c ∈ d.frontWith WrittenName.blanked) :
    isNameMark c = true := by
  simp only [frontWith, List.mem_append] at hc
  rcases hc with (hc | hc | hc) | hc
  · exact isNameMark_of_isBlank (d.lead.all_blank c hc)
  · cases hvar : d.byReference with
    | none =>
      rw [hvar] at hc
      cases hc
    | some v =>
      rw [hvar] at hc
      rcases List.mem_append.mp hc with hc | hc
      · have hlower : lower c ∈ "var".toList := v.word_lower ▸ List.mem_map_of_mem hc
        have hsmall : ∀ k ∈ "var".toList, 'a' ≤ k ∧ k ≤ 'z' := by decide
        exact isNameMark_of_isWord
          (CharClass.isWord_of_folds (hsmall _ hlower) (by simp [CharClass.folds]))
      · exact isNameMark_of_isBlank (v.gap.all_blank c hc)
  · exact isNameMark_of_mem_names hc
  · exact isNameMark_of_isBlank (d.trail.all_blank c hc)

/-- The one mark behind the names of a declaration is its colon. -/
theorem eq_colon_or_of_mem (hc : c ∈ d.charsWith WrittenName.blanked) :
    c = ':' ∨ isNameMark c = true := by
  rcases List.mem_append.mp hc with hc | hc
  · exact Or.inr (isNameMark_of_mem_front hc)
  · rcases List.mem_cons.mp hc with hc | hc
    · exact Or.inl hc
    · simp only [WrittenType.chars, List.mem_append] at hc
      rcases hc with (hc | hc) | hc
      · exact Or.inr (isNameMark_of_isBlank (d.type.before.all_blank c hc))
      · exact Or.inr (isNameMark_of_isWord
          (CharClass.isWord_of_isAsciiLetter c (d.type.all_letter c hc)))
      · exact Or.inr (isNameMark_of_isBlank (d.type.after.all_blank c hc))

theorem semicolon_not_mem (d : WrittenDeclaration parameters) :
    ';' ∉ d.charsWith WrittenName.blanked := by
  intro hmem
  rcases eq_colon_or_of_mem hmem with h | h
  · exact absurd h (by decide)
  · exact absurd h (by decide)

theorem not_isBlank (d : WrittenDeclaration parameters) :
    (ofChars (d.charsWith WrittenName.blanked)).isBlank = false := by
  have hcolon : (⟨':', true⟩ : Cell) ∈ ofChars (d.charsWith WrittenName.blanked) :=
    List.mem_flatMap.mpr ⟨':', List.mem_append_right _ List.mem_cons_self, List.mem_cons_self⟩
  rw [Cells.isBlank, List.all_eq_false]
  exact ⟨_, hcolon, by decide⟩

end WrittenDeclaration

namespace Text.Shows

variable {t : Text} {r : Extent} {cs cs' bs bs' : List Char}

theorem split (h : t.Shows r (cs ++ cs') (bs ++ bs'))
    (hlength : (ofChars bs).length = (ofChars cs).length) :
    t.Shows ⟨r.start, r.start + (ofChars cs).length⟩ cs bs ∧
      t.Shows ⟨r.start + (ofChars cs).length, r.stop⟩ cs' bs' := by
  obtain ⟨hmasked, hbare, hstop, hboth⟩ := h
  simp only [Cells.ofChars_append, List.length_append] at hmasked hbare hstop hboth
  have hfirst : ∀ {copy front back : Cells}, copy.slice r = front ++ back →
      front.length = (ofChars cs).length →
        copy.slice ⟨r.start, r.start + (ofChars cs).length⟩ = front ∧
          copy.slice ⟨r.start + (ofChars cs).length, r.stop⟩ = back := by
    intro copy front back hcopy hfront
    rw [← Cells.take_slice copy r (by omega), ← Cells.drop_slice, hcopy, Nat.add_sub_cancel_left,
      ← hfront, List.take_left, List.drop_left]
    exact ⟨rfl, rfl⟩
  obtain ⟨hmasked, hmasked'⟩ := hfirst hmasked rfl
  obtain ⟨hbare, hbare'⟩ := hfirst hbare hlength
  exact ⟨⟨hmasked, hbare, rfl, hlength⟩, hmasked', hbare', by simp only; omega, by omega⟩

/-- **A declaration is read as it was written, or not at all.** -/
theorem declaration? {d : WrittenDeclaration parameters}
    (h : t.Shows r (d.charsWith WrittenName.chars) (d.charsWith WrittenName.blanked)) :
    t.declaration? parameters r = if d.commaFree = true then some d.entries else none := by
  obtain ⟨hfront, hback⟩ := h.split (ReadsAs.front d).length_eq
  obtain ⟨-, htype⟩ := @split t _ [':'] d.type.chars [':'] d.type.chars hback rfl
  have hcolon : (t.bare.slice r).findChar? ':' r.start =
      some (r.start + (ofChars (d.frontWith WrittenName.chars)).length) := by
    have hfree : ':' ∉ d.frontWith WrittenName.blanked := fun hmem =>
      absurd (WrittenDeclaration.isNameMark_of_mem_front hmem) (by decide)
    rw [h.bare, WrittenDeclaration.charsWith, Cells.ofChars_append,
      Cells.findChar?_append (Cells.char_ne_of_not_mem hfree), Cells.ofChars_cons,
      (ReadsAs.front d).length_eq]
    rfl
  rw [Text.declaration?, hcolon]
  simp only
  rw [hfront.masked, d.declaredNames?_front]
  have hspec : typeOf? (t.masked.slice
      ⟨r.start + (ofChars (d.frontWith WrittenName.chars)).length + 1, r.stop⟩) =
        some d.type.info := (congrArg typeOf? htype.masked).trans d.type.typeOf?_chars
  rw [hspec]
  split_ifs
  · exact congrArg some (List.map_map ..)
  · rfl

/-- A segment that was written as a declaration adds its names, or ends the section. -/
theorem declarationsIn_cons {d : WrittenDeclaration parameters}
    (h : t.Shows r (d.charsWith WrittenName.chars) (d.charsWith WrittenName.blanked))
    (rs : List Extent) :
    t.declarationsIn parameters (r :: rs) =
      if d.commaFree = true then d.entries ++ t.declarationsIn parameters rs else [] := by
  rw [Text.declarationsIn, h.bare, d.not_isBlank, if_neg Bool.false_ne_true, h.declaration?]
  split_ifs <;> rfl

theorem declarationsIn_blank (h : t.Shows r cs cs) (hcs : ∀ c ∈ cs, isBlank c = true) :
    t.declarationsIn parameters [r] = [] := by
  have hblank : (ofChars cs).isBlank = true :=
    List.all_eq_true.mpr fun x hx => hcs _ (Cells.char_mem_of_mem_ofChars hx)
  rw [Text.declarationsIn, h.bare, hblank, if_pos rfl]
  rfl

theorem segmentsFrom_last (h : t.Shows r cs bs) (hbs : ';' ∉ bs) :
    segmentsFrom r.start r.start (ofChars bs) = [r] := by
  rw [Program.segmentsFrom_of_not_mem (Cells.char_ne_of_not_mem hbs), h.length_eq, ← h.stop]

end Text.Shows

/-! ### A section of declarations -/

theorem segmentsFrom_append {front : Cells} (h : ∀ x ∈ front, x.char ≠ ';') (start pos : Nat)
    (rest : Cells) :
    segmentsFrom start pos (front ++ ⟨';', true⟩ :: rest) =
      ⟨start, pos + front.length⟩ ::
        segmentsFrom (pos + front.length + 1) (pos + front.length + 1) rest := by
  rw [segmentsFrom_skip h, segmentsFrom, if_pos rfl]

/-- A semicolon stands behind every declaration but the last one of a section without an ending. -/
theorem sectionWith_cons (f : WrittenName → List Char) (d : WrittenDeclaration parameters)
    {ds : List (WrittenDeclaration parameters)} {ending : Option Space}
    (h : ds ≠ [] ∨ ending.isSome = true) :
    sectionWith f (d :: ds) ending = d.charsWith f ++ ';' :: sectionWith f ds ending := by
  cases ds with
  | cons => rfl
  | nil =>
    cases ending with
    | some => rfl
    | none => simp at h

/-- **What is read of a section is what was written**, up to the first declaration with a comma
between quotes. -/
theorem Text.Shows.declarationsIn_segments {t : Text} {ds : List (WrittenDeclaration parameters)}
    {ending : Option Space} {r : Extent}
    (h : t.Shows r (sectionWith WrittenName.chars ds ending)
      (sectionWith WrittenName.blanked ds ending)) :
    t.declarationsIn parameters
        (segmentsFrom r.start r.start (ofChars (sectionWith WrittenName.blanked ds ending))) =
      (ds.takeWhile (·.commaFree)).flatMap (·.entries) := by
  have hblank : ∀ {cs : List Char} {r : Extent}, (∀ c ∈ cs, isBlank c = true) → t.Shows r cs cs →
      t.declarationsIn parameters (segmentsFrom r.start r.start (ofChars cs)) = [] := by
    intro cs r hcs h
    rw [h.segmentsFrom_last fun hmem => absurd (hcs ';' hmem) (by decide)]
    exact h.declarationsIn_blank hcs
  induction ds generalizing r with
  | nil =>
    cases ending with
    | none => exact hblank nofun h
    | some gap => exact hblank gap.all_blank h
  | cons d ds ih =>
    by_cases hlast : ds = [] ∧ ending = none
    · obtain ⟨rfl, rfl⟩ := hlast
      have h : t.Shows r (d.charsWith WrittenName.chars) (d.charsWith WrittenName.blanked) := h
      rw [sectionWith, h.segmentsFrom_last d.semicolon_not_mem, h.declarationsIn_cons,
        List.takeWhile_cons]
      cases d.commaFree with
      | false => rfl
      | true => rfl
    · have hmore : ds ≠ [] ∨ ending.isSome = true := by
        rwa [Option.isSome_iff_ne_none, ← not_and_or]
      rw [sectionWith_cons _ d hmore, sectionWith_cons _ d hmore] at h
      obtain ⟨hfirst, hback⟩ := h.split (ReadsAs.declaration d).length_eq
      obtain ⟨-, hlater⟩ := @Text.Shows.split t _ [';'] (sectionWith WrittenName.chars ds ending) [';']
        (sectionWith WrittenName.blanked ds ending) hback rfl
      have hsemicolon : ofChars (';' :: sectionWith WrittenName.blanked ds ending) =
          ⟨';', true⟩ :: ofChars (sectionWith WrittenName.blanked ds ending) :=
        Cells.ofChars_cons ';' _
      rw [sectionWith_cons _ d hmore, Cells.ofChars_append, hsemicolon,
        segmentsFrom_append (Cells.char_ne_of_not_mem d.semicolon_not_mem),
        (ReadsAs.declaration d).length_eq, hfirst.declarationsIn_cons, List.takeWhile_cons]
      cases hfree : d.commaFree with
      | false => rfl
      | true => exact congrArg (d.entries ++ ·) (ih hlater)

namespace WrittenSection

variable (s : WrittenSection parameters)

/-- What the front end reads between the ends of the section. -/
def read : List (String × TypeInfo) := s.prepared.declarations s.extent parameters

/-- What the section declares. -/
def entries : List (String × TypeInfo) := s.declarations.flatMap (·.entries)

/-- **The declarations of a section are read back up to the first one that has a comma between
quotes.** They are all read back exactly if there is none. -/
theorem read_until_comma : s.read = (s.declarations.takeWhile (·.commaFree)).flatMap (·.entries) ∧
    (s.read = s.entries ↔ ∀ d ∈ s.declarations, ∀ n ∈ d.names, n.hasComma = false) := by
  have hread : s.read = (s.declarations.takeWhile (·.commaFree)).flatMap (·.entries) := by
    rw [read, Text.declarations, s.shows.bare]
    exact s.shows.declarationsIn_segments
  have hfree : ∀ d : WrittenDeclaration parameters,
      d.commaFree = true ↔ ∀ n ∈ d.names, n.hasComma = false := by
    intro d
    simp [WrittenDeclaration.commaFree]
  have hentries : s.entries = s.read ++ (s.declarations.dropWhile (·.commaFree)).flatMap
      (·.entries) := by
    rw [hread, ← List.flatMap_append, List.takeWhile_append_dropWhile, entries]
  refine ⟨hread, ?_⟩
  simp only [← hfree]
  rw [hentries, List.self_eq_append_right, List.flatMap_eq_nil_iff, ← List.dropWhile_eq_nil_iff]
  constructor
  · -- every declaration declares something
    intro h
    refine List.eq_nil_iff_forall_not_mem.mpr fun d hd => ?_
    exact absurd (h d hd) (List.cons_ne_nil _ _)
  · intro h d hd
    rw [h] at hd
    cases hd

/-- Parameters of which one has marks of every kind but a comma between its quotes. -/
def quotedSection : WrittenSection true where
  before := "procedure P(".toList
  declarations := [
    { lead := ⟨[], nofun⟩
      byReference := some ⟨"var".toList, ⟨[' '], by decide⟩, by decide, by decide⟩
      first := .quoted "a: b; // 'c".toList (by decide)
      further := [⟨⟨[], nofun⟩, ⟨[' '], by decide⟩, .plain ['D'] (by decide) (by decide) (by decide)⟩]
      trail := ⟨[], nofun⟩
      type := ⟨⟨[' '], by decide⟩, "Record".toList, ⟨[], nofun⟩, by decide, by decide, by decide⟩
      of_byReference := fun _ => rfl },
    { lead := ⟨[' '], by decide⟩
      byReference := none
      first := .plain "Vary".toList (by decide) (by decide) (by decide)
      further := []
      trail := ⟨[], nofun⟩
      type := ⟨⟨[' '], by decide⟩, "Code".toList, ⟨[], nofun⟩, by decide, by decide, by decide⟩
      of_byReference := nofun }]
  ending := none
  behind := [')']
  in_code := by decide

example : quotedSection.source = "procedure P(var \"a: b; // 'c\", D: Record; Vary: Code)" ∧
    quotedSection.read = [("a: b; // 'c", { kind := .record }), ("D", { kind := .record }),
      ("Vary", { kind := .code })] := by
  refine ⟨by decide, ?_⟩
  decide +kernel

/-- Two declarations, of which the first has a comma between quotes. -/
def commaSection : WrittenSection false where
  before := "codeunit 1 C\x7b var".toList
  declarations := [
    { lead := ⟨[' '], by decide⟩
      byReference := none
      first := .quoted "A, B".toList (by decide)
      further := []
      trail := ⟨[], nofun⟩
      type := ⟨⟨[' '], by decide⟩, "Integer".toList, ⟨[], nofun⟩, by decide, by decide, by decide⟩
      of_byReference := nofun },
    { lead := ⟨[' '], by decide⟩
      byReference := none
      first := .plain ['X'] (by decide) (by decide) (by decide)
      further := []
      trail := ⟨[], nofun⟩
      type := ⟨⟨[' '], by decide⟩, "Code".toList, ⟨[], nofun⟩, by decide, by decide, by decide⟩
      of_byReference := nofun }]
  ending := some ⟨[' '], by decide⟩
  behind := ['\x7d']
  in_code := by decide

/-- A comma between quotes hides its declaration and those behind it. -/
theorem read_commaSection :
    commaSection.source = "codeunit 1 C\x7b var \"A, B\": Integer; X: Code; \x7d" ∧
      commaSection.read = [] ∧
      commaSection.entries = [("A, B", { kind := .integer }), ("X", { kind := .code })] := by
  refine ⟨by decide, ?_, by decide⟩
  decide +kernel

end WrittenSection

end Source
end TreeLint
