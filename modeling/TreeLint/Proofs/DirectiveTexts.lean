/-
# Reading back the directives that were written

A document is lines with line ends between them, and a line is some text or a
directive. A line of text may be anything that does not start with a number sign
behind its blanks. A directive is written with any blanks, its words in any ASCII
case, and then a list of ids, blanks and a comment, each of which may be missing.
The structures carry these conditions, so every document that can be built is one
that can be read.

What is read is what was written: the directives in their order, each with its
action, its ids and its place (`Pragma.parse_text`).

Key definitions: `Pragma.ListedId`, `Pragma.WrittenDirective`, `Pragma.TextLine`,
`Pragma.WrittenDocument`.
Key theorems: `Pragma.idsOf_rest`, `Pragma.ofLine?_directive`, `Pragma.parse_text`.
-/
import TreeLint.Proofs.DirectiveLines
import TreeLint.Proofs.Names

namespace TreeLint

open Cells (ofChars)
open CharClass (lower)

namespace CharClass

theorem isBlank_of_all_isGap {gap : List Char} (h : gap.all isGap = true) :
    ∀ c ∈ gap, isBlank c = true := by
  intro c hc
  rcases Bool.or_eq_true_iff.mp (List.all_eq_true.mp h c hc) with h | h
  · rw [beq_iff_eq.mp h]
    rfl
  · rw [beq_iff_eq.mp h]
    rfl

theorem head?_gap_append {gap back : List Char} (hgap : gap.all isGap = true)
    (hback : back.head?.any isWord = false) : (gap ++ back).head?.any isWord = false := by
  cases gap with
  | nil => exact hback
  | cons c gap =>
    have hc : isGap c = true := List.all_eq_true.mp hgap c List.mem_cons_self
    rw [Bool.eq_false_iff]
    intro hword
    rw [isGap_of_isWord (by simpa using hword)] at hc
    cases hc

theorem not_mem_of_map_lower {word cs : List Char} (h : cs.map lower = word)
    (hword : '\n' ∉ word) : '\n' ∉ cs := by
  intro hmem
  exact hword (h ▸ List.mem_map.mpr ⟨'\n', hmem, by decide⟩)

theorem not_mem_of_all_isGap {gap : List Char} (h : gap.all isGap = true) {c : Char}
    (hc : isGap c = false) : c ∉ gap := by
  intro hmem
  rw [List.all_eq_true.mp h c hmem] at hc
  cases hc

end CharClass

namespace Cells

/-- Characters of a class at the end of a text are bytes at its end. -/
theorem dropWhile_reverse_ofChars (q : Char → Bool) (l : List Char) :
    (ofChars l).reverse.dropWhile (fun x => q x.char) =
      (ofChars (l.reverse.dropWhile q).reverse).reverse := by
  induction l using List.reverseRecOn with
  | nil => rfl
  | append_singleton l c ih =>
    have hchar : ∀ x ∈ (ofChars [c]).reverse, x.char = c := fun x hx =>
      List.mem_singleton.mp (char_mem_of_mem_ofChars (List.mem_reverse.mp hx))
    rw [ofChars_append, List.reverse_append, List.reverse_concat]
    by_cases hc : q c = true
    · rw [List.dropWhile_append_of_pos fun x hx => by rw [hchar x hx, hc], ih,
        List.dropWhile_cons_of_pos hc]
    · obtain ⟨x, back, hback⟩ := List.exists_cons_of_ne_nil
        (mt List.reverse_eq_nil_iff.mp (mt ofChars_eq_nil_iff.mp (List.cons_ne_nil c [])))
      have hx : ¬ q x.char = true := by
        rw [hchar x (by rw [hback]; exact List.mem_cons_self)]
        exact hc
      rw [List.dropWhile_cons_of_neg hc, hback, List.cons_append,
        List.dropWhile_cons_of_neg (p := fun x : Cell => q x.char) hx, ← List.cons_append, ← hback,
        ← List.reverse_append, ← ofChars_append]
      simp

theorem dropWhile_ofChars (q : Char → Bool) (l : List Char) :
    (ofChars l).dropWhile (fun x => q x.char) = ofChars (l.dropWhile q) := by
  have hcells : (ofChars l).takeWhile (fun x => q x.char) ++
      (ofChars l).dropWhile (fun x => q x.char) =
        ofChars (l.takeWhile q) ++ ofChars (l.dropWhile q) := by
    rw [List.takeWhile_append_dropWhile, ← ofChars_append, List.takeWhile_append_dropWhile]
  rw [takeWhile_ofChars] at hcells
  exact List.append_cancel_left hcells

/-- **Trimming bytes is trimming characters.** -/
theorem trim_ofChars (l : List Char) : (ofChars l).trim = ofChars (Name.trim l) := by
  have hstart : (ofChars l).trimStart = ofChars (Name.trimStart l) :=
    dropWhile_ofChars CharClass.isBlank l
  have hstop := dropWhile_reverse_ofChars CharClass.isBlank (Name.trimStart l)
  rw [trim, hstart]
  exact (congrArg List.reverse hstop).trans (List.reverse_reverse _)

end Cells

namespace Pragma

/-! ### What is written -/

/-- An id in a list, with the blanks around it. -/
structure ListedId where
  before : List Char
  id : String
  after : List Char
  before_all : before.all CharClass.isGap = true
  after_all : after.all CharClass.isGap = true
  id_ne : id.toList ≠ []
  id_flush : Name.Flush id.toList
  id_marks : ∀ c ∈ id.toList, c ≠ ',' ∧ c ≠ '/' ∧ c ≠ '\r' ∧ c ≠ '\n'

/-- An id as it is written. -/
def ListedId.chars (i : ListedId) : List Char := i.before ++ i.id.toList ++ i.after

/-- A list of ids as it is written, with commas between them. -/
def listChars : List ListedId → List Char
  | [] => []
  | [i] => i.chars
  | i :: j :: is => i.chars ++ ',' :: listChars (j :: is)

/-- A comment up to the end of its line. -/
def commentChars : Option (List Char) → List Char
  | some c => '/' :: '/' :: c
  | none => []

/-- A directive as it is written: blanks, a number sign, three words with blanks between them in any
ASCII case, a list of ids with a blank before it, blanks, and a comment. The list and the comment
may be missing. -/
structure WrittenDirective where
  indent : List Char
  pragma : List Char
  gap : List Char
  warning : List Char
  gap' : List Char
  keyword : List Char
  action : PragmaAction
  listed : List ListedId
  trail : List Char
  comment : Option (List Char)
  indent_all : indent.all CharClass.isGap = true
  pragma_lower : pragma.map lower = "pragma".toList
  gap_ne : gap ≠ []
  gap_all : gap.all CharClass.isGap = true
  warning_lower : warning.map lower = "warning".toList
  gap'_ne : gap' ≠ []
  gap'_all : gap'.all CharClass.isGap = true
  keyword_lower : keyword.map lower = action.name.toList
  listed_apart : ∀ i ∈ listed.head?, i.before ≠ []
  trail_all : trail.all CharClass.isGap = true
  comment_single : ∀ c ∈ comment, '\n' ∉ c

namespace WrittenDirective

variable (d : WrittenDirective)

/-- What stands behind the keyword. -/
def rest : List Char := listChars d.listed ++ d.trail ++ commentChars d.comment

/-- The directive as it is written. -/
def chars : List Char :=
  d.indent ++ '#' :: (d.pragma ++ (d.gap ++ (d.warning ++ (d.gap' ++ (d.keyword ++ d.rest)))))

/-- The ids of the directive, as they are written. -/
def ids : List String := d.listed.map (·.id)

end WrittenDirective

/-- A line of text: behind its blanks it does not start with a number sign. -/
structure TextLine where
  chars : List Char
  single : '\n' ∉ chars
  plain : (chars.dropWhile CharClass.isGap).head? ≠ some '#'

/-- A line of a document. -/
inductive WrittenLine where
  | text (line : TextLine)
  | directive (d : WrittenDirective)

namespace WrittenLine

/-- The line as it is written. -/
def chars : WrittenLine → List Char
  | .text line => line.chars
  | .directive d => d.chars

/-- The directive on a line of the given number and offset. -/
def pragmas (number offset : Nat) : WrittenLine → List Pragma
  | .text _ => []
  | .directive d => [⟨d.action, d.ids, number, offset⟩]

end WrittenLine

/-- The end of a line: a line feed, or a carriage return and a line feed. -/
inductive LineEnd where
  | feed
  | returnFeed

/-- What stands before the line feed. -/
def LineEnd.front : LineEnd → List Char
  | .feed => []
  | .returnFeed => ['\r']

/-- Lines as they are written, with line ends between them. -/
def linesChars : List (WrittenLine × LineEnd) → WrittenLine → List Char
  | [], last => last.chars
  | (line, stop) :: later, last => line.chars ++ stop.front ++ '\n' :: linesChars later last

/-- The directives on lines, the first of which has the given number and offset. -/
def linesPragmas (number offset : Nat) : List (WrittenLine × LineEnd) → WrittenLine → List Pragma
  | [], last => last.pragmas number offset
  | (line, stop) :: later, last =>
    line.pragmas number offset ++ linesPragmas (number + 1)
      (offset + (String.ofList (line.chars ++ stop.front ++ ['\n'])).utf8ByteSize) later last

/-- A document: lines with line ends between them. -/
structure WrittenDocument where
  ended : List (WrittenLine × LineEnd)
  last : WrittenLine

namespace WrittenDocument

/-- The document as it is written. -/
def text (doc : WrittenDocument) : String := String.ofList (linesChars doc.ended doc.last)

/-- The directives of the document, each with the number and the offset of its line. -/
def pragmas (doc : WrittenDocument) : List Pragma := linesPragmas 1 0 doc.ended doc.last

end WrittenDocument

/-! ### A list of ids -/

theorem mem_listChars {c : Char} : ∀ {is : List ListedId}, c ∈ listChars is →
    CharClass.isGap c = true ∨ c = ',' ∨ ∃ i ∈ is, c ∈ i.id.toList
  | [], h => by cases h
  | i :: is, h => by
    have hone : c ∈ i.chars →
        CharClass.isGap c = true ∨ c = ',' ∨ ∃ j ∈ i :: is, c ∈ j.id.toList := by
      intro h
      rcases List.mem_append.mp h with h | h
      · rcases List.mem_append.mp h with h | h
        · exact Or.inl (List.all_eq_true.mp i.before_all c h)
        · exact Or.inr (Or.inr ⟨i, List.mem_cons_self, h⟩)
      · exact Or.inl (List.all_eq_true.mp i.after_all c h)
    cases is with
    | nil => exact hone h
    | cons j is =>
      rcases List.mem_append.mp h with h | h
      · exact hone h
      · rcases List.mem_cons.mp h with h | h
        · exact Or.inr (Or.inl h)
        · rcases mem_listChars h with h | h | ⟨k, hk, h⟩
          · exact Or.inl h
          · exact Or.inr (Or.inl h)
          · exact Or.inr (Or.inr ⟨k, List.mem_cons_of_mem i hk, h⟩)

/-- Ids contain no mark that has a meaning behind them. -/
theorem ne_of_mem_listed {d : WrittenDirective} {c : Char}
    (h : c ∈ listChars d.listed ++ d.trail) : c ≠ '/' ∧ c ≠ '\r' ∧ c ≠ '\n' := by
  have hgap : CharClass.isGap c = true → c ≠ '/' ∧ c ≠ '\r' ∧ c ≠ '\n' := by
    intro hc
    refine ⟨?_, ?_, ?_⟩ <;> rintro rfl <;> cases hc
  rcases List.mem_append.mp h with h | h
  · rcases mem_listChars h with h | rfl | ⟨i, -, h⟩
    · exact hgap h
    · decide
    · exact (i.id_marks c h).2
  · exact hgap (List.all_eq_true.mp d.trail_all c h)

theorem ListedId.trim_chars (i : ListedId) {trail : List Char}
    (htrail : trail.all CharClass.isGap = true) :
    (ofChars (i.chars ++ trail)).trim = ofChars i.id.toList := by
  have hafter : (i.after ++ trail).all CharClass.isGap = true := by
    rw [List.all_append, i.after_all, htrail]
    rfl
  rw [Cells.trim_ofChars, ListedId.chars, List.append_assoc,
    Name.trim_append (CharClass.isBlank_of_all_isGap i.before_all)
      (CharClass.isBlank_of_all_isGap hafter) i.id_flush]

theorem ListedId.not_mem_chars (i : ListedId) : ',' ∉ i.chars := by
  intro h
  rcases List.mem_append.mp h with h | h
  · rcases List.mem_append.mp h with h | h
    · exact CharClass.not_mem_of_all_isGap i.before_all rfl h
    · exact (i.id_marks ',' h).1 rfl
  · exact CharClass.not_mem_of_all_isGap i.after_all rfl h

/-- The pieces of a list are its ids, with blanks around them. -/
theorem pieces_listChars {trail : List Char} (htrail : trail.all CharClass.isGap = true) :
    ∀ {is : List ListedId}, is ≠ [] →
      ((ofChars (listChars is ++ trail)).splitOn ',').map Cells.trim =
        is.map fun i => ofChars i.id.toList
  | [], h => absurd rfl h
  | [i], _ => by
    have hnot : ',' ∉ i.chars ++ trail := by
      rw [List.mem_append, not_or]
      exact ⟨i.not_mem_chars, CharClass.not_mem_of_all_isGap htrail rfl⟩
    rw [listChars, Cells.splitOn_of_not_mem (Cells.char_ne_of_not_mem hnot), List.map_singleton,
      i.trim_chars htrail, List.map_singleton]
  | i :: j :: is, _ => by
    have hcomma : ofChars (',' :: (listChars (j :: is) ++ trail)) =
        ⟨',', true⟩ :: ofChars (listChars (j :: is) ++ trail) := by
      rw [Cells.ofChars_cons]
      rfl
    have hone : (ofChars (i.chars ++ [])).trim = ofChars i.id.toList := i.trim_chars rfl
    rw [List.append_nil] at hone
    rw [listChars, List.append_assoc, List.cons_append, Cells.ofChars_append, hcomma,
      Cells.splitOn_append (Cells.char_ne_of_not_mem i.not_mem_chars) rfl, List.map_cons, hone,
      pieces_listChars htrail (List.cons_ne_nil j is), List.map_cons]
    rfl

theorem beforeComment_append {front : Cells} (h : ∀ x ∈ front, x.char ≠ '/') (back : Cells) :
    beforeComment (front ++ back) = front ++ beforeComment back := by
  induction front with
  | nil => rfl
  | cons x front ih =>
    rw [List.cons_append, beforeComment, if_neg fun hx => h x List.mem_cons_self hx.1,
      ih fun y hy => h y (List.mem_cons_of_mem x hy), List.cons_append]

/-- **The ids behind a keyword are those that were written**, whatever the comment and the end of
the line are. -/
theorem idsOf_rest (d : WrittenDirective) (stop : LineEnd) :
    idsOf (ofChars ((d.rest ++ stop.front).takeWhile (· != '\r'))) = d.ids := by
  have hcomment : beforeComment (ofChars
      ((commentChars d.comment ++ stop.front).takeWhile (· != '\r'))) = [] := by
    cases d.comment with
    | none => cases stop <;> rfl
    | some c =>
      rw [commentChars, List.cons_append, List.cons_append, List.takeWhile_cons_of_pos rfl,
        List.takeWhile_cons_of_pos rfl]
      rfl
  have hfront : beforeComment (ofChars ((d.rest ++ stop.front).takeWhile (· != '\r'))) =
      ofChars (listChars d.listed ++ d.trail) := by
    rw [WrittenDirective.rest, List.append_assoc, List.takeWhile_append_of_pos fun c hc => by
        simpa using (ne_of_mem_listed hc).2.1, Cells.ofChars_append,
      beforeComment_append (Cells.char_ne_of_not_mem fun h => (ne_of_mem_listed h).1 rfl), hcomment,
      List.append_nil]
  rw [idsOf, hfront, WrittenDirective.ids]
  by_cases hlisted : d.listed = []
  · -- blanks make one piece, and nothing is left of it
    have htrim : (ofChars d.trail).trim = [] := by
      have hnil : Name.trim (d.trail ++ [] ++ []) = [] :=
        Name.trim_append (CharClass.isBlank_of_all_isGap d.trail_all) (by simp) (by decide)
      rw [List.append_nil, List.append_nil] at hnil
      rw [Cells.trim_ofChars, hnil]
      rfl
    rw [hlisted, listChars, List.nil_append, Cells.splitOn_of_not_mem
      (Cells.char_ne_of_not_mem (CharClass.not_mem_of_all_isGap d.trail_all rfl)), List.map_singleton,
      htrim]
    rfl
  · have hread : (fun id : Cells => if id.isEmpty then none else some id.text) ∘
        (fun i : ListedId => ofChars i.id.toList) = some ∘ fun i => i.id := by
      funext i
      have hne : (ofChars i.id.toList).isEmpty = false :=
        List.isEmpty_eq_false_iff.mpr fun h => i.id_ne (Cells.ofChars_eq_nil_iff.mp h)
      simp only [Function.comp_apply, hne, Cells.text_ofChars, String.ofList_toList]
      rfl
    rw [pieces_listChars d.trail_all hlisted, List.filterMap_map, hread, List.filterMap_eq_map]

/-! ### A line -/

/-- A list starts with the blanks before its first id. -/
theorem exists_listChars_cons (i : ListedId) (is : List ListedId) :
    ∃ more, listChars (i :: is) = i.before ++ more := by
  cases is with
  | nil => exact ⟨i.id.toList ++ i.after, List.append_assoc ..⟩
  | cons j is =>
    refine ⟨i.id.toList ++ (i.after ++ ',' :: listChars (j :: is)), ?_⟩
    simp only [listChars, ListedId.chars, List.append_assoc]

namespace WrittenDirective

variable (d : WrittenDirective) (stop : LineEnd)

/-- What stands behind the keyword does not go on its word. -/
theorem rest_ends : (d.rest ++ stop.front).head?.any CharClass.isWord = false := by
  have hcomment : (commentChars d.comment ++ stop.front).head?.any CharClass.isWord = false := by
    cases d.comment with
    | none => cases stop <;> decide
    | some c => rfl
  rw [rest]
  cases hlisted : d.listed with
  | nil =>
    rw [listChars, List.nil_append, List.append_assoc]
    exact CharClass.head?_gap_append d.trail_all hcomment
  | cons i is =>
    obtain ⟨more, hmore⟩ := exists_listChars_cons i is
    have hne : i.before ≠ [] := d.listed_apart i (by rw [hlisted]; rfl)
    have hgap : (i.before ++ []).head?.any CharClass.isWord = false :=
      CharClass.head?_gap_append i.before_all rfl
    rw [List.append_nil] at hgap
    rw [hmore, List.append_assoc, List.append_assoc, List.append_assoc]
    rwa [List.head?_append_of_ne_nil _ hne]

/-- The parts of the line, as a reader takes them. -/
def toLine : DirectiveLine where
  indent := d.indent
  pragma := d.pragma
  gap := d.gap
  warning := d.warning
  gap' := d.gap'
  keyword := d.keyword
  rest := d.rest ++ stop.front
  indent_all := d.indent_all
  pragma_folds := CharClass.folds_of_map_lower d.pragma_lower
  gap_ne := d.gap_ne
  gap_all := d.gap_all
  warning_folds := CharClass.folds_of_map_lower d.warning_lower
  gap'_ne := d.gap'_ne
  gap'_all := d.gap'_all
  keyword_folds := by
    cases haction : d.action with
    | disable =>
      refine Or.inl (CharClass.folds_of_map_lower ?_)
      rw [d.keyword_lower, haction]
      rfl
    | restore =>
      refine Or.inr (CharClass.folds_of_map_lower ?_)
      rw [d.keyword_lower, haction]
      rfl
  rest_ends := d.rest_ends stop

theorem chars_toLine : (d.toLine stop).chars = d.chars ++ stop.front := by
  simp [DirectiveLine.chars, DirectiveLine.front, toLine, chars]

theorem action_toLine : (d.toLine stop).action = d.action := by
  have hkeyword : (d.toLine stop).keyword.map lower = d.action.name.toList := d.keyword_lower
  rw [DirectiveLine.action, hkeyword]
  cases d.action <;> rfl

theorem not_mem_chars : '\n' ∉ d.chars := by
  have hrest : '\n' ∉ d.rest := by
    rw [rest, List.mem_append, not_or]
    refine ⟨fun h => (ne_of_mem_listed h).2.2 rfl, ?_⟩
    cases hcomment : d.comment with
    | none => exact List.not_mem_nil
    | some c =>
      have := d.comment_single c (by rw [hcomment]; rfl)
      simpa [commentChars] using this
  have hgap : ∀ {gap : List Char}, gap.all CharClass.isGap = true → '\n' ∉ gap := fun h =>
    CharClass.not_mem_of_all_isGap h rfl
  have hkeyword : '\n' ∉ d.keyword := by
    refine CharClass.not_mem_of_map_lower d.keyword_lower ?_
    cases d.action <;> decide
  simp only [chars, List.mem_append, List.mem_cons, not_or]
  exact ⟨hgap d.indent_all, by decide, CharClass.not_mem_of_map_lower d.pragma_lower (by decide),
    hgap d.gap_all, CharClass.not_mem_of_map_lower d.warning_lower (by decide), hgap d.gap'_all,
    hkeyword, hrest⟩

end WrittenDirective

/-- **A directive is read as it was written.** -/
theorem ofLine?_directive (d : WrittenDirective) (stop : LineEnd) :
    ofLine? (ofChars (d.chars ++ stop.front)) = some (d.action, d.ids) := by
  have hids : (d.toLine stop).ids = d.ids := idsOf_rest d stop
  rw [← d.chars_toLine, ofLine?_chars, d.action_toLine, hids]

/-- **A line of text is not read as a directive.** -/
theorem ofLine?_text (line : TextLine) (stop : LineEnd) :
    ofLine? (ofChars (line.chars ++ stop.front)) = none := by
  rw [Option.eq_none_iff_forall_ne_some]
  intro r hr
  obtain ⟨d, hd, -⟩ := ofLine?_eq_some_iff.mp hr
  -- behind its blanks a directive has its number sign
  have hsharp : ((line.chars ++ stop.front).dropWhile CharClass.isGap).head? = some '#' := by
    rw [← hd, DirectiveLine.chars, DirectiveLine.front, List.append_assoc,
      List.dropWhile_append_of_pos (List.all_eq_true.mp d.indent_all)]
    rfl
  rw [List.dropWhile_append] at hsharp
  split at hsharp
  · cases stop <;> cases hsharp
  · rename_i hne
    rw [List.head?_append_of_ne_nil _ (mt List.isEmpty_iff.mpr hne)] at hsharp
    exact line.plain hsharp

theorem WrittenLine.not_mem_chars (line : WrittenLine) (stop : LineEnd) :
    '\n' ∉ line.chars ++ stop.front := by
  rw [List.mem_append, not_or]
  constructor
  · cases line with
    | text line => exact line.single
    | directive d => exact d.not_mem_chars
  · cases stop <;> decide

theorem ofLines_cons (line : WrittenLine) (stop : LineEnd) (number offset : Nat)
    (later : List (Nat × Cells)) :
    ofLines number ((offset, ofChars (line.chars ++ stop.front)) :: later) =
      line.pragmas number offset ++ ofLines (number + 1) later := by
  rw [ofLines]
  cases line with
  | text line =>
    rw [WrittenLine.chars, ofLine?_text]
    rfl
  | directive d =>
    rw [WrittenLine.chars, ofLine?_directive]
    rfl

/-! ### A document -/

theorem ofLines_linesChars (last : WrittenLine) : ∀ (ls : List (WrittenLine × LineEnd))
    (number offset : Nat),
    ofLines number ((ofChars (linesChars ls last)).lines offset) =
      linesPragmas number offset ls last
  | [], number, offset => by
    have hlast := ofLines_cons last .feed number offset []
    have hfeed := last.not_mem_chars .feed
    rw [LineEnd.front, List.append_nil] at hlast hfeed
    rw [linesChars, lines_ofChars_of_not_mem hfeed, hlast, ofLines, List.append_nil, linesPragmas]
  | (line, stop) :: later, number, offset => by
    have hsize : offset + (ofChars (line.chars ++ stop.front)).length + 1 =
        offset + (String.ofList (line.chars ++ stop.front ++ ['\n'])).utf8ByteSize := by
      rw [← Cells.length_ofChars, Cells.ofChars_append _ ['\n'], List.length_append, Nat.add_assoc]
      rfl
    rw [linesChars, lines_ofChars_append (line.not_mem_chars stop), ofLines_cons, hsize,
      ofLines_linesChars last later, linesPragmas]

/-- **Reading inverts writing.** For every document of lines, each some text that does not start
with a number sign behind its blanks, or a directive, with line feeds or carriage returns and line
feeds between them: its directives are read in their order, each with its action, with its ids as
they are written, with the number of its line and with the offset where that line starts. The line
index finds the same line number for that offset, and the offsets grow. -/
theorem parse_text (doc : WrittenDocument) :
    parse doc.text = doc.pragmas ∧
    (∀ p ∈ doc.pragmas,
      (LineIndex.ofCells (Cells.ofString doc.text)).position p.offset = (p.line, 1)) ∧
    doc.pragmas.Pairwise fun p q => p.offset < q.offset := by
  have hparse : parse doc.text = doc.pragmas := by
    rw [parse, WrittenDocument.text, Cells.ofString, String.toList_ofList,
      ofLines_linesChars doc.last doc.ended 1 0, WrittenDocument.pragmas]
  refine ⟨hparse, fun p hp => ?_, ?_⟩
  · rw [← hparse] at hp
    exact position_of_mem_parse hp
  · rw [← hparse]
    exact pairwise_parse doc.text

/-- A line of text, a directive with two ids and a comment, and a bare directive. -/
def sampleDocument : WrittenDocument where
  ended := [
    (.text { chars := "x #".toList, single := by decide, plain := by decide }, .returnFeed),
    (.directive {
      indent := ['\t'], pragma := "Pragma".toList, gap := ['\t'], warning := "WARNING".toList
      gap' := [' ', '\t'], keyword := "disable".toList, action := .disable
      listed := [
        { before := [' '], id := "LC0040", after := [' '], before_all := by decide
          after_all := by decide, id_ne := by decide, id_flush := by decide
          id_marks := by decide },
        { before := [], id := "my id", after := [], before_all := by decide
          after_all := by decide, id_ne := by decide, id_flush := by decide
          id_marks := by decide }]
      trail := [' '], comment := some "old".toList
      indent_all := by decide, pragma_lower := by decide, gap_ne := by decide
      gap_all := by decide, warning_lower := by decide, gap'_ne := by decide
      gap'_all := by decide, keyword_lower := by decide, listed_apart := by decide
      trail_all := by decide, comment_single := by decide }, .returnFeed)]
  last := .directive {
    indent := [], pragma := "pragma".toList, gap := ['\t'], warning := "warning".toList
    gap' := ['\t'], keyword := "Restore".toList, action := .restore, listed := [], trail := []
    comment := none
    indent_all := by decide, pragma_lower := by decide, gap_ne := by decide, gap_all := by decide
    warning_lower := by decide, gap'_ne := by decide, gap'_all := by decide
    keyword_lower := by decide, listed_apart := by decide, trail_all := by decide
    comment_single := by decide }

theorem parse_sampleDocument :
    parse "x #\r\n\t#Pragma\tWARNING \tdisable LC0040 ,my id //old\r\n#pragma\twarning\tRestore" =
      [⟨.disable, ["LC0040", "my id"], 2, 5⟩, ⟨.restore, [], 3, 52⟩] := by
  have htext : sampleDocument.text =
      "x #\r\n\t#Pragma\tWARNING \tdisable LC0040 ,my id //old\r\n#pragma\twarning\tRestore" := by
    decide
  have hpragmas : sampleDocument.pragmas =
      [⟨.disable, ["LC0040", "my id"], 2, 5⟩, ⟨.restore, [], 3, 52⟩] := by decide
  rw [← htext, ← hpragmas]
  exact (parse_text sampleDocument).1

end Pragma
end TreeLint
