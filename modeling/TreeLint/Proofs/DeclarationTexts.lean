/-
# Declarations as they are written

A name is written plainly or between quotes; between quotes it may contain
anything but quotes and line feeds. A declaration is names with commas between
them, a colon and a type, and a parameter may have `var` before its names. A
section is declarations with semicolons between them and perhaps one behind the
last. White space may stand around every part. The structures carry these
conditions, so every section that can be built is one that can be written.

A section stands somewhere in a source, at a place where the scanner reads code.
There one of the scanned copies has the section as it is written, and the other
has it with the contents of its quoted names blanked (`WrittenSection.shows`).

Key definitions: `Source.WrittenName`, `Source.WrittenDeclaration`,
`Source.WrittenSection`, `Source.ReadsAs`, `Source.Text.Shows`.
Key theorems: `Source.readsAs_sectionWith`, `Source.WrittenSection.shows`.
-/
import TreeLint.Proofs.DirectiveLines
import TreeLint.Source.Declaration

namespace TreeLint
namespace Source

open Cells (ofChars)
open CharClass (lower)

/-! ### What is written -/

/-- A run of white space, which may be empty. -/
structure Space where
  chars : List Char
  all_blank : ∀ c ∈ chars, CharClass.isBlank c = true

/-- A number of spaces. -/
def Space.spaces (n : Nat) : Space :=
  ⟨List.replicate n ' ', fun _ hc => List.eq_of_mem_replicate hc ▸ rfl⟩

theorem Space.chars_one_ne_nil : (spaces 1).chars ≠ [] := List.cons_ne_nil ' ' []

/-- A name as it is written: plainly, when it is an identifier and not the word `var`, or between
quotes. -/
inductive WrittenName where
  | plain (chars : List Char)
      (first : (chars.head?.any fun c => CharClass.isAsciiLetter c || c == '_') = true)
      (all_word : ∀ c ∈ chars, CharClass.isWord c = true)
      (not_var : chars.map lower ≠ "var".toList)
  | quoted (content : List Char) (enclosed : ∀ c ∈ content, c ≠ '"' ∧ c ≠ '\n')

/-- What stands in place of a character that is blanked. -/
def blankedChar (c : Char) : List Char :=
  if c = '\n' ∨ c = '\r' then [c] else List.replicate c.utf8Size ' '

namespace WrittenName

/-- The name itself, without quotes. -/
def value : WrittenName → String
  | plain chars .. => String.ofList chars
  | quoted content _ => String.ofList content

/-- The name as it is written. -/
def chars : WrittenName → List Char
  | plain chars .. => chars
  | quoted content _ => '"' :: (content ++ ['"'])

/-- The name as it is written, with what is between the quotes blanked. -/
def blanked : WrittenName → List Char
  | plain chars .. => chars
  | quoted content _ => '"' :: (content.flatMap blankedChar ++ ['"'])

/-- Whether a comma stands between the quotes. -/
def hasComma : WrittenName → Bool
  | plain .. => false
  | quoted content _ => content.contains ','

end WrittenName

/-- A name in a list that is not its first one: the comma before it has white space on both
sides. -/
structure FurtherName where
  before : Space
  behind : Space
  name : WrittenName

/-- The word `var` in some ASCII case, and the white space behind it. -/
structure VarWord where
  word : List Char
  gap : Space
  word_lower : word.map lower = "var".toList
  gap_ne : gap.chars ≠ []

/-- The characters of a `var` that may be missing. -/
def varChars : Option VarWord → List Char
  | none => []
  | some v => v.word ++ v.gap.chars

/-- A type keyword in any case, with white space around it. -/
structure WrittenType where
  before : Space
  word : List Char
  after : Space
  word_ne : word ≠ []
  all_letter : ∀ c ∈ word, CharClass.isAsciiLetter c = true
  not_temporary : word.map lower ≠ "temporary".toList

namespace WrittenType

/-- The type as it is written. -/
def chars (w : WrittenType) : List Char := w.before.chars ++ w.word ++ w.after.chars

/-- The type that the keyword names. -/
def info (w : WrittenType) : TypeInfo := { kind := TypeKind.ofKeyword (String.ofList w.word) }

end WrittenType

/-- A declaration as it is written; only parameters have a `var`. -/
structure WrittenDeclaration (parameters : Bool) where
  lead : Space
  byReference : Option VarWord
  first : WrittenName
  further : List FurtherName
  trail : Space
  type : WrittenType
  of_byReference : byReference.isSome = true → parameters = true

variable {parameters : Bool}

/-- Names with commas between them, each name written by `f`. -/
def namesWith (f : WrittenName → List Char) : WrittenName → List FurtherName → List Char
  | n, [] => f n
  | n, m :: ms => f n ++ m.before.chars ++ ',' :: (m.behind.chars ++ namesWith f m.name ms)

namespace WrittenDeclaration

variable (d : WrittenDeclaration parameters)

/-- The names of a declaration in their order. -/
def names : List WrittenName := d.first :: d.further.map (·.name)

/-- What a declaration declares: each of its names with its type. -/
def entries : List (String × TypeInfo) := d.names.map fun n => (n.value, d.type.info)

/-- Whether no name of the declaration has a comma between its quotes. -/
def commaFree : Bool := d.names.all (!·.hasComma)

/-- What stands before the colon, each name written by `f`. -/
def frontWith (f : WrittenName → List Char) : List Char :=
  d.lead.chars ++ (varChars d.byReference ++ namesWith f d.first d.further) ++ d.trail.chars

/-- The declaration, each name written by `f`. -/
def charsWith (f : WrittenName → List Char) : List Char := d.frontWith f ++ ':' :: d.type.chars

end WrittenDeclaration

/-- Declarations with semicolons between them, each name written by `f`. If there is an ending, a
semicolon stands behind the last declaration and then the ending. -/
def sectionWith (f : WrittenName → List Char) :
    List (WrittenDeclaration parameters) → Option Space → List Char
  | [], none => []
  | [], some ending => ending.chars
  | [d], none => d.charsWith f
  | d :: ds, ending => d.charsWith f ++ ';' :: sectionWith f ds ending

/-- Where the scanner stands behind a text, given the character that comes next. -/
def standsBehind (next : Option Char) : MaskState → Cells → MaskState
  | s, [] => s
  | s, c :: cs => standsBehind next (maskStep s c.char ((cs.head?.map (·.char)).or next)).2 cs

/-- A source with a section of declarations in it, which stands where the scanner reads code. -/
structure WrittenSection (parameters : Bool) where
  before : List Char
  declarations : List (WrittenDeclaration parameters)
  ending : Option Space
  behind : List Char
  in_code : standsBehind (sectionWith WrittenName.chars declarations ending ++ behind).head? .code
    (ofChars before) = .code

namespace WrittenSection

variable (s : WrittenSection parameters)

/-- The characters of the section, each name written by `f`. -/
def charsWith (f : WrittenName → List Char) : List Char := sectionWith f s.declarations s.ending

/-- The source. -/
def source : String := String.ofList (s.before ++ (s.charsWith WrittenName.chars ++ s.behind))

/-- The source, prepared for reading. -/
def prepared : Text := Text.ofCells (Cells.ofString s.source)

/-- Where the section stands. -/
def extent : Extent :=
  ⟨(ofChars s.before).length,
    (ofChars s.before).length + (ofChars (s.charsWith WrittenName.chars)).length⟩

end WrittenSection

/-! ### Their two copies -/

/-- What is behind a text is read from where the scanner stands there. -/
theorem exists_coveredFrom_append (hide : Layer → Bool) (s : MaskState) (front rest : Cells) :
    ∃ covered : Cells, covered.length = front.length ∧ coveredFrom hide s (front ++ rest) =
      covered ++ coveredFrom hide (standsBehind (rest.head?.map (·.char)) s front) rest := by
  induction front generalizing s with
  | nil => exact ⟨[], rfl, rfl⟩
  | cons x front ih =>
    have hnext : (front ++ rest).head?.map (·.char) =
        (front.head?.map (·.char)).or (rest.head?.map (·.char)) := by
      cases front <;> rfl
    obtain ⟨covered, hlength, hcovered⟩ := ih
      (maskStep s x.char ((front.head?.map (·.char)).or (rest.head?.map (·.char)))).2
    refine ⟨cover hide (maskStep s x.char
      ((front.head?.map (·.char)).or (rest.head?.map (·.char)))).1 x :: covered,
      congrArg (· + 1) hlength, ?_⟩
    rw [List.cons_append, coveredFrom_cons, hnext, hcovered]
    rfl

/-- Read from where code is read, the text stays as it is in the copy that keeps quoted names and
becomes the second text in the copy that blanks them; behind it the scanner reads code again. -/
structure ReadsAs (cs bs : List Char) : Prop where
  masked : ∀ rest, coveredFrom (· == .hidden) .code (ofChars cs ++ rest) =
    ofChars cs ++ coveredFrom (· == .hidden) .code rest
  bare : ∀ rest, coveredFrom (· != .code) .code (ofChars cs ++ rest) =
    ofChars bs ++ coveredFrom (· != .code) .code rest

namespace ReadsAs

variable {cs cs' bs bs' : List Char}

theorem append (h : ReadsAs cs bs) (h' : ReadsAs cs' bs') : ReadsAs (cs ++ cs') (bs ++ bs') where
  masked rest := by
    rw [Cells.ofChars_append, List.append_assoc, h.masked, h'.masked, List.append_assoc]
  bare rest := by
    rw [Cells.ofChars_append, List.append_assoc, h.bare, h'.bare, Cells.ofChars_append,
      List.append_assoc]

theorem length_eq (h : ReadsAs cs bs) : (ofChars bs).length = (ofChars cs).length := by
  have hbare := congrArg List.length (h.bare [])
  rw [length_coveredFrom, List.append_nil, List.length_append, length_coveredFrom] at hbare
  exact hbare.symm

/-- Text without slashes, apostrophes and quotes is code. -/
theorem code (h : ∀ c ∈ cs, c ∉ ['/', '\'', '"']) : ReadsAs cs cs := by
  have hcells : ∀ x ∈ ofChars cs, x.char ∉ ['/', '\'', '"'] :=
    fun x hx => h _ (Cells.char_mem_of_mem_ofChars hx)
  exact ⟨coveredFrom_code_append rfl hcells, coveredFrom_code_append rfl hcells⟩

end ReadsAs

theorem map_cover_name (content : List Char) :
    (ofChars content).map (cover (· != .code) .name) = ofChars (content.flatMap blankedChar) := by
  induction content with
  | nil => rfl
  | cons c content ih =>
    rw [Cells.ofChars_cons, List.map_append, ih, List.flatMap_cons, Cells.ofChars_append]
    congr 1
    by_cases hc : c = '\n' ∨ c = '\r'
    · rw [blankedChar, if_pos hc]
      rcases hc with rfl | rfl <;> rfl
    · have hcover : ∀ x ∈ Cell.ofChar c, cover (· != .code) .name x = Cell.space := by
        intro x hx
        have hchar : x.char = c := by
          rcases List.mem_cons.mp hx with rfl | hx
          · rfl
          · rw [List.eq_of_mem_replicate hx]
        rw [cover, if_pos ⟨rfl, by rw [hchar]; exact not_or.mp hc⟩]
      rw [blankedChar, if_neg hc, Cells.ofChars_replicate_space, List.eq_replicate_iff]
      refine ⟨by rw [List.length_map, Cells.length_ofChar], fun y hy => ?_⟩
      obtain ⟨x, hx, rfl⟩ := List.mem_map.mp hy
      exact hcover x hx

theorem ofChars_quoted (content : List Char) : ofChars ('"' :: (content ++ ['"'])) =
    ⟨'"', true⟩ :: (ofChars content ++ [⟨'"', true⟩]) := by
  rw [Cells.ofChars_cons, Cells.ofChars_append]
  rfl

namespace ReadsAs

/-- A class of characters without the marks of comments, strings and quoted names is code. -/
theorem of_class {q : Char → Bool} (hmarks : ∀ c ∈ ['/', '\'', '"'], q c = false) {cs : List Char}
    (h : ∀ c ∈ cs, q c = true) : ReadsAs cs cs :=
  .code fun c hc hmem => by
    have hmark := hmarks c hmem
    rw [h c hc] at hmark
    cases hmark

theorem space (s : Space) : ReadsAs s.chars s.chars := of_class (by decide) s.all_blank

/-- A quoted name is blanked between its quotes. -/
theorem quoted {content : List Char} (h : ∀ c ∈ content, c ≠ '"' ∧ c ≠ '\n') :
    ReadsAs ('"' :: (content ++ ['"'])) ('"' :: (content.flatMap blankedChar ++ ['"'])) := by
  have hstays : ∀ x ∈ ofChars content, ∀ next, maskStep .name x.char next = (.name, .name) := by
    intro x hx next
    exact if_neg (not_or.mpr (h _ (Cells.char_mem_of_mem_ofChars hx)))
  have hname : ∀ {hide : Layer → Bool}, hide .code = false → ∀ rest,
      coveredFrom hide .code (ofChars ('"' :: (content ++ ['"'])) ++ rest) =
        ⟨'"', true⟩ :: ((ofChars content).map (cover hide .name) ++ [⟨'"', true⟩]) ++
          coveredFrom hide .code rest := by
    intro hide hcode rest
    have hquote : cover hide .code ⟨'"', true⟩ = ⟨'"', true⟩ := by simp [cover, hcode]
    have hopen : ∀ cs : Cells, coveredFrom hide .code (⟨'"', true⟩ :: cs) =
        ⟨'"', true⟩ :: coveredFrom hide .name cs := by
      intro cs
      rw [coveredFrom_cons]
      exact congrArg (· :: _) hquote
    have hclose : coveredFrom hide .name (⟨'"', true⟩ :: rest) =
        ⟨'"', true⟩ :: coveredFrom hide .code rest := by
      rw [coveredFrom_cons]
      exact congrArg (· :: _) hquote
    rw [ofChars_quoted, List.cons_append, List.append_assoc, List.singleton_append, hopen,
      coveredFrom_append_of_stays hstays, hclose, List.cons_append, List.append_assoc]
    rfl
  have hkept : (ofChars content).map (cover (· == .hidden) .name) = ofChars content :=
    (List.map_congr_left fun x _ => by simp [cover]).trans (List.map_id _)
  constructor
  · intro rest
    rw [hname rfl, hkept, ofChars_quoted]
  · intro rest
    rw [hname rfl, map_cover_name, ofChars_quoted]

theorem name : ∀ n : WrittenName, ReadsAs n.chars n.blanked
  | .plain _ _ all_word _ => of_class (by decide) all_word
  | .quoted _ enclosed => quoted enclosed

theorem mark {c : Char} (h : c ∉ ['/', '\'', '"']) : ReadsAs [c] [c] :=
  .code fun d hd => by rwa [List.mem_singleton.mp hd]

theorem names : ∀ (n : WrittenName) (ms : List FurtherName),
    ReadsAs (namesWith WrittenName.chars n ms) (namesWith WrittenName.blanked n ms)
  | n, [] => name n
  | n, m :: ms => ((name n).append (space m.before)).append
      ((mark (by decide)).append ((space m.behind).append (names m.name ms)))

theorem var (v : Option VarWord) : ReadsAs (varChars v) (varChars v) := by
  cases v with
  | none => exact .code nofun
  | some v =>
    refine .append (of_class (q := fun c => "var".toList.contains (lower c)) (by decide) ?_)
      (space v.gap)
    intro c hc
    rw [← v.word_lower]
    exact List.contains_iff_mem.mpr (List.mem_map_of_mem hc)

theorem type (w : WrittenType) : ReadsAs w.chars w.chars :=
  ((space w.before).append (of_class (by decide) w.all_letter)).append (space w.after)

theorem front (d : WrittenDeclaration parameters) :
    ReadsAs (d.frontWith WrittenName.chars) (d.frontWith WrittenName.blanked) :=
  ((space d.lead).append ((var d.byReference).append (names d.first d.further))).append
    (space d.trail)

theorem declaration (d : WrittenDeclaration parameters) :
    ReadsAs (d.charsWith WrittenName.chars) (d.charsWith WrittenName.blanked) :=
  (front d).append ((mark (c := ':') (by decide)).append (type d.type))

end ReadsAs

/-- **A section of declarations is code, apart from what is between the quotes of its names.** -/
theorem readsAs_sectionWith : ∀ (ds : List (WrittenDeclaration parameters)) (ending : Option Space),
    ReadsAs (sectionWith WrittenName.chars ds ending) (sectionWith WrittenName.blanked ds ending)
  | [], none => .code nofun
  | [], some ending => .space ending
  | [d], none => .declaration d
  | [d], some ending =>
    (ReadsAs.declaration d).append ((ReadsAs.mark (c := ';') (by decide)).append (.space ending))
  | d :: d' :: ds, ending =>
    (ReadsAs.declaration d).append
      ((ReadsAs.mark (c := ';') (by decide)).append (readsAs_sectionWith (d' :: ds) ending))

/-- An interval of the prepared text has the first text in the copy that keeps quoted names and the
second one in the copy that blanks them. -/
structure Text.Shows (t : Text) (r : Extent) (cs bs : List Char) : Prop where
  masked : t.masked.slice r = ofChars cs
  bare : t.bare.slice r = ofChars bs
  stop : r.stop = r.start + (ofChars cs).length
  length_eq : (ofChars bs).length = (ofChars cs).length

/-- A part of a source that stands where the scanner reads code is covered by itself. -/
theorem slice_coveredFrom {hide : Layer → Bool} {before cs behind : List Char} {copy : Cells}
    (hin : standsBehind (cs ++ behind).head? .code (ofChars before) = .code)
    (hlength : copy.length = (ofChars cs).length)
    (hcopy : ∀ rest, coveredFrom hide .code (ofChars cs ++ rest) =
      copy ++ coveredFrom hide .code rest) :
    Cells.slice (coveredFrom hide .code
        (Cells.ofString (String.ofList (before ++ (cs ++ behind)))))
      ⟨(ofChars before).length, (ofChars before).length + (ofChars cs).length⟩ = copy := by
  have hsource : Cells.ofString (String.ofList (before ++ (cs ++ behind))) =
      ofChars before ++ (ofChars cs ++ ofChars behind) := by
    rw [Cells.ofString, String.toList_ofList, Cells.ofChars_append, Cells.ofChars_append]
  have hstands : standsBehind ((ofChars cs ++ ofChars behind).head?.map (·.char)) .code
      (ofChars before) = .code := by
    rw [← Cells.ofChars_append, Cells.head?_ofChars, Option.map_map]
    exact (congrArg (standsBehind · .code (ofChars before)) Option.map_id').trans hin
  obtain ⟨covered, hcovered, heq⟩ := exists_coveredFrom_append hide .code (ofChars before)
    (ofChars cs ++ ofChars behind)
  rw [hsource, heq, hstands, hcopy]
  exact Cells.slice_of_append rfl hcovered.symm (by rw [hcovered, hlength])

/-- **A written section stands in both copies of its source.** -/
theorem WrittenSection.shows (s : WrittenSection parameters) :
    s.prepared.Shows s.extent (s.charsWith WrittenName.chars) (s.charsWith WrittenName.blanked) := by
  have hreads : ReadsAs (s.charsWith WrittenName.chars) (s.charsWith WrittenName.blanked) :=
    readsAs_sectionWith s.declarations s.ending
  exact ⟨slice_coveredFrom s.in_code rfl hreads.masked,
    slice_coveredFrom s.in_code hreads.length_eq hreads.bare, rfl, hreads.length_eq⟩

end Source
end TreeLint
