/-
# Reading an object type as it is written

An object type is a keyword, the name of an object and perhaps the word
`temporary`, with white space between them and around them. Its kind and its name
are read from its front, as they were written. The word `temporary` is looked for
in the whole text, and so it is also found in the name: between the quotes, or as
a plain name (`Source.WrittenObjectType.typeOf?_chars_iff`).

Key definitions: `Source.ObjectName`, `Source.WrittenObjectType`.
Key theorems: `Source.WrittenObjectType.typeSpec?_chars`,
`Source.WrittenObjectType.hasWord_chars`, `Source.WrittenObjectType.typeOf?_chars_iff`.
-/
import TreeLint.Proofs.DeclarationParts
import TreeLint.Proofs.WordSearch

namespace TreeLint
namespace Source

open Cells (ofChars lastOr)
open CharClass (Folds HasWord isBlank isWord isAsciiLetter lower)
open Cursor (between between_append)

/-! ### What is written -/

/-- The name of an object as it is written: plainly, when it is an identifier, or between
quotes. -/
inductive ObjectName where
  | plain (chars : List Char)
      (first : (chars.head?.any fun c => isAsciiLetter c || c == '_') = true)
      (all_word : ∀ c ∈ chars, isWord c = true)
  | quoted (content : List Char) (enclosed : ∀ c ∈ content, c ≠ '"')

namespace ObjectName

/-- The name itself, without quotes. -/
def value : ObjectName → String
  | plain chars .. => String.ofList chars
  | quoted content _ => String.ofList content

/-- The name as it is written. -/
def chars : ObjectName → List Char
  | plain chars .. => chars
  | quoted content _ => '"' :: (content ++ ['"'])

/-- Whether the name is written between quotes. -/
def isQuoted : ObjectName → Bool
  | plain .. => false
  | quoted .. => true

end ObjectName

/-- The word `temporary` in some case, and the white space before it. -/
structure TemporaryWord where
  gap : Space
  word : List Char
  word_folds : Folds "temporary".toList word

/-- The characters of a `temporary` that may be missing. -/
def temporaryChars : Option TemporaryWord → List Char
  | none => []
  | some t => t.gap.chars ++ t.word

/-- The type of an object as it is written. -/
structure WrittenObjectType where
  before : Space
  keyword : List Char
  gap : Space
  name : ObjectName
  temporary : Option TemporaryWord
  after : Space
  takes_name : takesObjectName (TypeKind.ofKeyword (String.ofList keyword)) = true
  gap_ne : gap.chars ≠ []
  /-- Only behind a quote may the word follow at once. -/
  apart : ∀ t, temporary = some t → t.gap.chars = [] → name.isQuoted = true

namespace WrittenObjectType

variable (w : WrittenObjectType)

/-- What stands behind the name. -/
def tail : List Char := temporaryChars w.temporary ++ w.after.chars

/-- The type as it is written. -/
def chars : List Char :=
  w.before.chars ++ (w.keyword ++ (w.gap.chars ++ (w.name.chars ++ w.tail)))

/-- The type that is meant: temporary exactly if the word follows the name. -/
def info : TypeInfo where
  kind := TypeKind.ofKeyword (String.ofList w.keyword)
  name := some w.name.value
  temporary := w.temporary.isSome

end WrittenObjectType

/-! ### The keyword -/

theorem lower_of_takesObjectName {word : String}
    (h : takesObjectName (TypeKind.ofKeyword word) = true) :
    Name.lower word ∈ ["record", "codeunit", "page", "report", "query", "xmlport", "enum"] := by
  have hnames : ∀ k : TypeKind, takesObjectName k = true → Name.lower k.name ∈
      ["record", "codeunit", "page", "report", "query", "xmlport", "enum"] := by
    intro k hk
    cases k <;> first | (exact absurd hk (by decide)) | decide
  unfold TypeKind.ofKeyword at h
  simp only at h
  split at h
  · rename_i k hk
    have hlower : Name.lower k.name = Name.lower word := by simpa using List.find?_some hk
    rw [← hlower]
    exact hnames k h
  · -- no synonym names a kind of object
    exfalso
    simp only [TypeKind.synonyms, List.lookup_cons, List.lookup_nil] at h
    repeat' split at h
    all_goals exact absurd h (by decide)

namespace WrittenObjectType

variable (w : WrittenObjectType)

theorem lower_keyword : w.keyword.map lower ∈
    ["record", "codeunit", "page", "report", "query", "xmlport", "enum"].map String.toList := by
  have h := List.mem_map_of_mem (f := String.toList) (lower_of_takesObjectName w.takes_name)
  rwa [Name.lower, String.toList_ofList, String.toList_ofList] at h

theorem isAsciiLetter_of_mem_keyword {c : Char} (hc : c ∈ w.keyword) :
    isAsciiLetter c = true := by
  have hletters : ∀ k ∈ ["record", "codeunit", "page", "report", "query", "xmlport", "enum"].map
      String.toList, ∀ d ∈ k, isAsciiLetter d = true := by decide
  exact Program.isAsciiLetter_of_lower
    (hletters _ w.lower_keyword (lower c) (List.mem_map_of_mem hc))

theorem keyword_ne : w.keyword ≠ [] := by
  intro hnil
  have h := w.lower_keyword
  rw [hnil] at h
  exact absurd h (by decide)

end WrittenObjectType

/-! ### The name -/

/-- Behind a plain name no word goes on. -/
theorem WrittenObjectType.isQuoted_or_tail (w : WrittenObjectType) :
    w.name.isQuoted = true ∨ w.tail.head?.any isWord = false := by
  rw [tail]
  cases htemp : w.temporary with
  | some t =>
    by_cases hgap : t.gap.chars = []
    · exact Or.inl (w.apart t htemp hgap)
    · rw [temporaryChars, List.append_assoc]
      exact Or.inr (t.gap.not_isWord_head?_append hgap _)
  | none => exact Or.inr w.after.not_isWord_head?

namespace ObjectName

variable (n : ObjectName)

theorem head?_chars : n.chars.head?.any (fun c => isAsciiLetter c || c == '_' || c == '"') = true := by
  cases n with
  | plain cs first _ =>
    rw [chars]
    cases cs with
    | nil => cases first
    | cons c cs =>
      rw [List.head?_cons, Option.any_some] at first ⊢
      rw [first, Bool.true_or]
  | quoted => rfl

/-- Where a name comes next, no character does that names do not start with. -/
theorem head?_append_any (tail : List Char) {q : Char → Bool}
    (hq : ∀ d, q d = true → (isAsciiLetter d || d == '_' || d == '"') = false) :
    (n.chars ++ tail).head?.any q = false := by
  have hfirst := n.head?_chars
  cases hchars : n.chars with
  | nil =>
    rw [hchars] at hfirst
    cases hfirst
  | cons d cs =>
    rw [hchars, List.head?_cons, Option.any_some] at hfirst
    rw [List.cons_append, List.head?_cons, Option.any_some, Bool.eq_false_iff]
    intro hd
    rw [hq d hd] at hfirst
    cases hfirst

theorem not_isBlank_head?_append (tail : List Char) :
    (n.chars ++ tail).head?.any isBlank = false := by
  refine n.head?_append_any tail fun d hd => ?_
  have hword := CharClass.not_isWord_of_isBlank hd
  have hletter : isAsciiLetter d = false := by
    rw [Bool.eq_false_iff]
    intro hletter
    rw [CharClass.isWord_of_isAsciiLetter d hletter] at hword
    cases hword
  have hmarks : d ≠ '_' ∧ d ≠ '"' := by
    constructor
    · rintro rfl
      exact absurd hword (by decide)
    · rintro rfl
      exact absurd hd (by decide)
  simp [hletter, hmarks]

/-- A name ends at its closing quote, or where no word character comes next. -/
theorem name?_between {front tail : List Char}
    (h : n.isQuoted = true ∨ tail.head?.any isWord = false) :
    (between front (n.chars ++ tail)).name? isAsciiLetter =
      some ((between front (n.chars ++ tail)).upTo (between (front ++ n.chars) tail),
        between (front ++ n.chars) tail) := by
  simp only [← Cursor.behind_none]
  cases n with
  | plain cs first all_word => exact Cursor.name?_plain first all_word (h.resolve_left nofun)
  | quoted content enclosed => exact Cursor.name?_quoted fun hmem => enclosed _ hmem rfl

theorem unquote_chars : Name.unquote (String.ofList n.chars) = n.value := by
  cases n with
  | plain cs first all_word =>
    have hflush : Name.Flush cs :=
      Name.flush_of_forall fun c hc => CharClass.isBlank_of_isWord (all_word c hc)
    have htrim : Name.trim cs = cs := by
      simpa using Name.trim_append (List.forall_mem_nil _) (List.forall_mem_nil _) hflush
    have hquote : cs.head? ≠ some '"' := by
      intro hquote
      exact absurd (all_word '"' (List.mem_of_mem_head? hquote)) (by decide)
    rw [chars, Name.unquote, String.toList_ofList, Name.unquoteChars, htrim,
      Name.between?_eq_none_of_head? hquote]
    rfl
  | quoted content enclosed =>
    have hmark : Name.Flush ['"'] := by decide
    have hflush : Name.Flush ('"' :: (content ++ ['"'])) :=
      hmark.append (List.cons_ne_nil _ _) hmark (List.cons_ne_nil _ _) content
    have htrim : Name.trim ('"' :: (content ++ ['"'])) = '"' :: (content ++ ['"']) := by
      simpa using Name.trim_append (List.forall_mem_nil _) (List.forall_mem_nil _) hflush
    rw [chars, Name.unquote, String.toList_ofList, Name.unquoteChars, htrim,
      Name.between?_eq_some_iff.mpr rfl]
    rfl

end ObjectName

namespace WrittenObjectType

variable (w : WrittenObjectType)

/-! ### The specification -/

/-- The place where the keyword starts, as a number of bytes. -/
def keywordAt : Nat := (ofChars w.before.chars).length

/-- The place where the name starts. -/
def nameAt : Nat :=
  w.keywordAt + (ofChars w.keyword).length + (ofChars w.gap.chars).length

theorem all_isBlank (s : Space) : s.chars.all isBlank = true := List.all_eq_true.mpr s.all_blank

theorem blanks_chars : (Cursor.mk none 0 (ofChars w.chars)).blanks =
    between w.before.chars (w.keyword ++ (w.gap.chars ++ (w.name.chars ++ w.tail))) := by
  obtain ⟨k, ks, hkeyword⟩ := List.exists_cons_of_ne_nil w.keyword_ne
  have hk := w.isAsciiLetter_of_mem_keyword (hkeyword ▸ List.mem_cons_self)
  refine @Cursor.skipWhile_between [] isBlank _ _ (all_isBlank w.before) ?_
  rw [hkeyword]
  exact CharClass.isBlank_of_isWord (CharClass.isWord_of_isAsciiLetter k hk)

theorem some?_keyword : (between w.before.chars (w.keyword ++
    (w.gap.chars ++ (w.name.chars ++ w.tail)))).some? (fun x => isAsciiLetter x.char) =
      some (between (w.before.chars ++ w.keyword) (w.gap.chars ++ (w.name.chars ++ w.tail))) := by
  obtain ⟨c, gap, hgap⟩ := List.exists_cons_of_ne_nil w.gap_ne
  have hc := w.gap.all_blank c (hgap ▸ List.mem_cons_self)
  refine Cursor.some?_between_iff.mpr ⟨_, _, rfl, w.keyword_ne, ?_, ?_, rfl⟩
  · exact List.all_eq_true.mpr fun _ => w.isAsciiLetter_of_mem_keyword
  · rw [hgap, List.cons_append, List.head?_cons, Option.any_some, Bool.eq_false_iff]
    intro hletter
    rw [CharClass.isBlank_of_isWord (CharClass.isWord_of_isAsciiLetter c hletter)] at hc
    cases hc

theorem blanks?_gap : (between (w.before.chars ++ w.keyword)
    (w.gap.chars ++ (w.name.chars ++ w.tail))).blanks? =
      some (between (w.before.chars ++ w.keyword ++ w.gap.chars) (w.name.chars ++ w.tail)) :=
  Cursor.some?_between_iff.mpr ⟨_, _, rfl, w.gap_ne, all_isBlank w.gap,
    w.name.not_isBlank_head?_append w.tail, rfl⟩

theorem skipBrackets_gap : skipBrackets (between (w.before.chars ++ w.keyword)
    (w.gap.chars ++ (w.name.chars ++ w.tail))) =
      between (w.before.chars ++ w.keyword) (w.gap.chars ++ (w.name.chars ++ w.tail)) := by
  have hskip : (between (w.before.chars ++ w.keyword)
      (w.gap.chars ++ (w.name.chars ++ w.tail))).blanks =
        between (w.before.chars ++ w.keyword ++ w.gap.chars) (w.name.chars ++ w.tail) :=
    Cursor.skipWhile_between (all_isBlank w.gap) (w.name.not_isBlank_head?_append w.tail)
  have hopening : (w.name.chars ++ w.tail).head?.any (· == '[') = false :=
    w.name.head?_append_any w.tail fun d hd => by
      rw [beq_iff_eq.mp hd]
      decide
  have hnone : (between (w.before.chars ++ w.keyword ++ w.gap.chars)
      (w.name.chars ++ w.tail)).mark? '[' = none :=
    Cursor.mark?_eq_none ((Cells.head?_ofChars_any (· == '[') _).trans hopening)
  rw [skipBrackets, hskip, hnone]
  rfl

/-- **The specification of a written type is its keyword and its name.** -/
theorem typeSpec?_chars : typeSpec? (ofChars w.chars) = some
    ⟨⟨w.keywordAt, w.keywordAt + (ofChars w.keyword).length⟩,
      some ⟨w.nameAt, w.nameAt + (ofChars w.name.chars).length⟩⟩ := by
  have hname := fun front => @ObjectName.name?_between w.name front _ w.isQuoted_or_tail
  rw [typeSpec?, w.blanks_chars]
  simp only [w.some?_keyword, w.skipBrackets_gap, w.blanks?_gap, hname, Option.bind_eq_bind,
    Option.bind_some, Option.map_some]
  simp only [Cursor.upTo, between, nameAt, keywordAt, Cells.ofChars_append, List.length_append]
  rfl

theorem slice_keyword : (ofChars w.chars).slice
    ⟨w.keywordAt, w.keywordAt + (ofChars w.keyword).length⟩ = ofChars w.keyword := by
  rw [chars, Cells.ofChars_append, Cells.ofChars_append]
  exact Cells.slice_of_append rfl rfl rfl

theorem slice_name : (ofChars w.chars).slice
    ⟨w.nameAt, w.nameAt + (ofChars w.name.chars).length⟩ = ofChars w.name.chars := by
  have hsplit : ofChars w.chars = ofChars (w.before.chars ++ (w.keyword ++ w.gap.chars)) ++
      (ofChars w.name.chars ++ ofChars w.tail) := by
    rw [← Cells.ofChars_append, ← Cells.ofChars_append, chars]
    simp only [List.append_assoc]
  have hplace : w.nameAt = (ofChars (w.before.chars ++ (w.keyword ++ w.gap.chars))).length := by
    rw [nameAt, keywordAt, Cells.ofChars_append, Cells.ofChars_append, List.length_append,
      List.length_append, Nat.add_assoc]
  exact Cells.slice_of_append hsplit hplace (by rw [hplace])

/-! ### The word `temporary` -/

theorem lettered_temporary : Lettered "temporary".toList := by decide

theorem not_hasWord_space (s : Space) : ¬ HasWord "temporary".toList s.chars :=
  CharClass.not_hasWord_of_forall lettered_temporary fun c hc =>
    CharClass.not_isWord_of_isBlank (s.all_blank c hc)

theorem not_hasWord_keyword : ¬ HasWord "temporary".toList w.keyword := by
  intro h
  have hfolds := h.folds fun c hc =>
    CharClass.isWord_of_isAsciiLetter c (w.isAsciiLetter_of_mem_keyword hc)
  have hlength : ∀ k ∈ ["record", "codeunit", "page", "report", "query", "xmlport", "enum"].map
      String.toList, k.length ≠ "temporary".toList.length := by decide
  refine hlength _ w.lower_keyword ?_
  rw [List.length_map, hfolds.length_eq]

theorem hasWord_tail : HasWord "temporary".toList w.tail ↔ w.temporary.isSome = true := by
  rw [tail]
  cases w.temporary with
  | none => simpa [temporaryChars] using not_hasWord_space w.after
  | some t =>
    have hword : HasWord "temporary".toList (temporaryChars (some t) ++ w.after.chars) :=
      ⟨t.gap.chars, t.word, w.after.chars, List.append_assoc .., t.word_folds,
        t.gap.not_isWord_getLast?, w.after.not_isWord_head?⟩
    exact iff_of_true hword rfl

/-- **The word stands in a written type if it follows the name or stands in the name.** -/
theorem hasWord_chars : HasWord "temporary".toList w.chars ↔
    w.temporary.isSome = true ∨ HasWord "temporary".toList w.name.chars := by
  have hname : w.name.chars.getLast?.any isWord = false ∨ w.tail.head?.any isWord = false := by
    refine w.isQuoted_or_tail.imp_left fun hquoted => ?_
    cases hchars : w.name with
    | plain =>
      rw [hchars] at hquoted
      cases hquoted
    | quoted content =>
      rw [ObjectName.chars, ← List.cons_append, List.getLast?_concat]
      decide
  rw [chars, CharClass.hasWord_append_iff lettered_temporary (Or.inl w.before.not_isWord_getLast?),
    CharClass.hasWord_append_iff lettered_temporary
      (Or.inr (w.gap.not_isWord_head?_append w.gap_ne _)),
    CharClass.hasWord_append_iff lettered_temporary (Or.inl w.gap.not_isWord_getLast?),
    CharClass.hasWord_append_iff lettered_temporary hname, w.hasWord_tail]
  simp only [not_hasWord_space, not_hasWord_keyword, false_or]
  exact or_comm

/-- The type that is read: kind and name as they were written, and temporary if the word stands
anywhere. -/
theorem typeOf?_chars : ∃ info, typeOf? (ofChars w.chars) = some info ∧
    info.kind = w.info.kind ∧ info.name = w.info.name ∧
    (info.temporary = true ↔
      w.temporary.isSome = true ∨ HasWord "temporary".toList w.name.chars) := by
  have hfound := (@first?_keyword_isSome_iff none 0 _ "temporary" lettered_temporary rfl).trans
    w.hasWord_chars
  rw [typeOf?, w.typeSpec?_chars]
  simp only [w.slice_keyword, w.slice_name, Cells.text_ofChars, if_pos w.takes_name,
    Option.map_some, w.name.unquote_chars]
  exact ⟨_, rfl, rfl, rfl, hfound⟩

/-- **An object type is read with its kind and its name. It is read as temporary if the word
follows the name or stands in it**, and so it is read as it was meant exactly if the word follows
or the name is free of it. -/
theorem typeOf?_chars_iff :
    (∃ info, typeOf? (ofChars w.chars) = some info ∧ info.kind = w.info.kind ∧
      info.name = w.info.name ∧ (info.temporary = true ↔
        w.temporary.isSome = true ∨ HasWord "temporary".toList w.name.chars)) ∧
    (typeOf? (ofChars w.chars) = some w.info ↔
      w.temporary.isSome = true ∨ ¬ HasWord "temporary".toList w.name.chars) := by
  refine ⟨w.typeOf?_chars, ?_⟩
  obtain ⟨info, hinfo, hkind, hname, htemporary⟩ := w.typeOf?_chars
  rw [hinfo]
  have heq : info = w.info ↔ info.temporary = w.temporary.isSome := by
    obtain ⟨kind, name, temporary⟩ := info
    simp only at hkind hname
    subst hkind hname
    simp [WrittenObjectType.info]
  calc some info = some w.info
      ↔ (w.temporary.isSome = true ∨ HasWord "temporary".toList w.name.chars ↔
          w.temporary.isSome = true) := by
        rw [Option.some.injEq, heq, Bool.eq_iff_iff, htemporary]
    _ ↔ (HasWord "temporary".toList w.name.chars → w.temporary.isSome = true) :=
        or_iff_left_iff_imp
    _ ↔ w.temporary.isSome = true ∨ ¬ HasWord "temporary".toList w.name.chars := imp_iff_or_not

/-- An object whose name starts with the word. -/
def temporaryItem : WrittenObjectType where
  before := .spaces 1
  keyword := "Record".toList
  gap := .spaces 1
  name := .quoted "Temporary Item".toList (by decide)
  temporary := none
  after := .spaces 0
  takes_name := by decide
  gap_ne := Space.chars_one_ne_nil
  apart := nofun

/-- The word in a name is taken for the word behind it. -/
theorem typeOf?_temporaryItem : temporaryItem.chars = " Record \"Temporary Item\"".toList ∧
    typeOf? (ofChars temporaryItem.chars) =
      some { kind := .record, name := some "Temporary Item", temporary := true } ∧
    temporaryItem.info = { kind := .record, name := some "Temporary Item" } := by
  refine ⟨by decide, ?_, by decide⟩
  decide +kernel

end WrittenObjectType
end Source
end TreeLint
