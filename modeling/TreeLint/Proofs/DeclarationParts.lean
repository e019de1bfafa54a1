/-
# Reading the names and the type of a declaration

The names before a colon are cut at commas wherever those stand, also between
quotes. So they are read as they were written exactly when none of them has a
comma between its quotes; otherwise one of the pieces is no name, and nothing is
read. A `var` before the names is taken off, and no name is taken for it. Behind
the colon the type is read from its keyword.

Key theorems: `Source.pieces_names`, `Source.not_all_isIdentifier`,
`Source.WrittenDeclaration.declaredNames?_front`,
`Source.WrittenType.typeOf?_chars`.
-/
import TreeLint.Proofs.DeclarationTexts
import TreeLint.Proofs.DirectiveTexts
import TreeLint.Proofs.Programs

namespace TreeLint

open Cells (ofChars ofAscii lastOr)
open CharClass (lower isBlank isWord isAsciiLetter)

namespace Name

/-- A text between two others that have no white space at their ends has none at its own. -/
theorem Flush.append {front back : List Char} (hfront : Flush front) (hne : front ≠ [])
    (hback : Flush back) (hne' : back ≠ []) (mid : List Char) : Flush (front ++ (mid ++ back)) := by
  constructor
  · intro c hc
    rw [List.head?_append_of_ne_nil front hne] at hc
    exact hfront.1 c hc
  · intro c hc
    rw [← List.append_assoc, List.getLast?_append_of_ne_nil _ hne'] at hc
    exact hback.2 c hc

theorem flush_of_forall {cs : List Char} (h : ∀ c ∈ cs, isBlank c = false) : Flush cs :=
  ⟨fun c hc => h c (List.mem_of_mem_head? hc), fun c hc => h c (List.mem_of_mem_getLast? hc)⟩

/-- Behind a quote, trimming takes off white space at the end only. -/
theorem trim_append_quote {before : List Char} (hbefore : ∀ c ∈ before, isBlank c = true)
    (cs : List Char) :
    trim (before ++ '"' :: cs) = '"' :: (trimStart cs.reverse).reverse := by
  have hback : trimStart ('"' :: cs).reverse = trimStart cs.reverse ++ ['"'] := by
    rw [List.reverse_cons, trimStart, List.dropWhile_append]
    split
    · rename_i hempty
      rw [trimStart, List.isEmpty_iff.mp hempty]
      rfl
    · rfl
  rw [trim, trimStart_append hbefore (by rintro c ⟨⟩; rfl), hback]
  simp

end Name

theorem CharClass.not_isWord_of_isBlank {c : Char} (h : isBlank c = true) : isWord c = false := by
  rw [Bool.eq_false_iff]
  intro hword
  rw [isBlank_of_isWord hword] at h
  cases h

theorem CharClass.toNat_lt_of_lower {c : Char} (h : (lower c).toNat < 0x80) : c.toNat < 0x80 := by
  rcases lower_cases c with heq | ⟨hle, -⟩
  · rwa [heq] at h
  · omega

/-- A text whose characters are ASCII in lower case is ASCII. -/
theorem Cells.map_lower_ofChars {cs : List Char} (h : ∀ c ∈ cs, (lower c).toNat < 0x80) :
    (ofChars cs).map (fun x => lower x.char) = cs.map lower := by
  rw [ofChars_eq_ofAscii fun c hc => CharClass.toNat_lt_of_lower (h c hc), ofAscii, List.map_map]
  rfl

namespace Source

variable {parameters : Bool}

/-! ### White space -/

namespace Space

variable (s : Space) {x : Cell}

theorem isBlank_of_mem (hx : x ∈ ofChars s.chars) : x.isBlank = true :=
  s.all_blank _ (Cells.char_mem_of_mem_ofChars hx)

theorem not_isWord_of_mem (hx : x ∈ ofChars s.chars) : x.isWord = false ∧ x.char ≠ '"' := by
  have hblank := s.isBlank_of_mem hx
  refine ⟨CharClass.not_isWord_of_isBlank hblank, fun hquote => ?_⟩
  rw [Cell.isBlank, hquote] at hblank
  exact absurd hblank (by decide)

theorem endsWord : (ofChars s.chars).EndsWord := by
  rw [Cells.EndsWord]
  cases hcells : ofChars s.chars with
  | nil => rfl
  | cons x cs => exact (s.not_isWord_of_mem (hcells ▸ List.mem_cons_self : x ∈ _)).1

theorem not_isWord_head? : s.chars.head?.any isWord = false := by
  cases hchars : s.chars.head? with
  | none => rfl
  | some c => exact CharClass.not_isWord_of_isBlank (s.all_blank c (List.mem_of_head? hchars))

theorem not_isWord_getLast? : s.chars.getLast?.any isWord = false := by
  cases hchars : s.chars.getLast? with
  | none => rfl
  | some c => exact CharClass.not_isWord_of_isBlank (s.all_blank c (List.mem_of_getLast? hchars))

theorem not_isWord_head?_append (hne : s.chars ≠ []) (back : List Char) :
    (s.chars ++ back).head?.any isWord = false := by
  rw [List.head?_append_of_ne_nil _ hne]
  exact s.not_isWord_head?

end Space

/-! ### One name -/

namespace WrittenName

variable (n : WrittenName)

theorem flush_chars : Name.Flush n.chars ∧ n.chars ≠ [] := by
  cases n with
  | plain cs first all_word _ =>
    refine ⟨Name.flush_of_forall fun c hc => CharClass.isBlank_of_isWord (all_word c hc), ?_⟩
    rintro rfl
    cases first
  | quoted content _ =>
    have hquote : Name.Flush ['"'] := by decide
    exact ⟨hquote.append (List.cons_ne_nil _ _) hquote (List.cons_ne_nil _ _) content,
      List.cons_ne_nil _ _⟩

theorem unquote_chars : Name.unquote (Cells.text (ofChars n.chars)) = n.value := by
  have htrim : Name.trim n.chars = n.chars := Name.trim_eq_self n.flush_chars.1
  rw [Cells.text, Cells.chars_ofChars, Name.unquote, String.toList_ofList, Name.unquoteChars, htrim]
  cases n with
  | plain cs first all_word _ =>
    have hquote : cs.head? ≠ some '"' := by
      intro hquote
      exact absurd (all_word '"' (List.mem_of_mem_head? hquote)) (by decide)
    rw [chars, Name.between?_eq_none_of_head? hquote]
    rfl
  | quoted content _ =>
    rw [chars, Name.between?_eq_some_iff.mpr rfl]
    rfl

theorem isIdentifier_chars : isIdentifier (ofChars n.chars) = true := by
  cases n with
  | plain cs first all_word _ =>
    have hword : ∀ x ∈ ofChars cs, x.isWord = true :=
      fun x hx => all_word _ (Cells.char_mem_of_mem_ofChars hx)
    have hquote : (ofChars cs).head?.any (·.char == '"') = false := by
      rw [Cells.head?_ofChars_any (· == '"')]
      cases hcs : cs.head? with
      | none => rfl
      | some c =>
        have hc := all_word c (List.mem_of_mem_head? hcs)
        rw [Option.any_some, beq_eq_false_iff_ne]
        rintro rfl
        exact absurd hc (by decide)
    have hskip := @Cursor.skipWhile_append none 0 (ofChars cs) [] Cell.isWord hword rfl
    rw [List.append_nil] at hskip
    have hplain : (Cursor.mk none 0 (ofChars cs)).plain? isAsciiLetter =
        some ⟨lastOr none (ofChars cs), 0 + (ofChars cs).length, []⟩ := by
      rw [Cursor.plain?, Cells.head?_ofChars_any (fun c => isAsciiLetter c || c == '_'), if_pos first,
        hskip]
    rw [isIdentifier, Cursor.name?, chars, Cursor.quoted?_eq_none hquote, Option.none_or, hplain]
    rfl
  | quoted content enclosed =>
    have hinner : ∀ x ∈ ofChars content, (x.char != '"') = true := fun x hx =>
      bne_iff_ne.mpr (enclosed _ (Cells.char_mem_of_mem_ofChars hx)).1
    rw [isIdentifier, Cursor.name?, chars, ofChars_quoted, Cursor.quoted?, Cursor.mark?_cons]
    simp only
    rw [Cursor.skipWhile_append hinner rfl, Cursor.mark?_cons]
    rfl

theorem comma_not_mem_chars (h : n.hasComma = false) : ',' ∉ n.chars := by
  cases n with
  | plain cs first all_word _ =>
    intro hmem
    exact absurd (all_word ',' hmem) (by decide)
  | quoted content _ =>
    have hcontent : ',' ∉ content := by simpa [hasComma] using h
    simpa [chars] using hcontent

/-- A name with a comma between its quotes is cut behind its opening quote. -/
theorem exists_cut (h : n.hasComma = true) :
    ∃ left right, n.chars = '"' :: (left ++ ',' :: right) ∧ ',' ∉ left ∧ '"' ∉ left := by
  cases n with
  | plain => cases h
  | quoted content enclosed =>
    obtain ⟨left, right, rfl, hleft⟩ := List.eq_append_cons_of_mem (List.contains_iff_mem.mp h)
    refine ⟨left, right ++ ['"'], by simp [chars], hleft, fun hmem => ?_⟩
    exact (enclosed '"' (List.mem_append_left _ hmem)).1 rfl

end WrittenName

theorem isIdentifier_unclosed {cs : List Char} (h : '"' ∉ cs) :
    isIdentifier (ofChars ('"' :: cs)) = false := by
  have hinner : ∀ x ∈ ofChars cs, (x.char != '"') = true := fun x hx =>
    bne_iff_ne.mpr (Cells.char_ne_of_not_mem h x hx)
  have hskip := @Cursor.skipWhile_append (some ⟨'"', true⟩) 1 (ofChars cs) []
    (fun x => x.char != '"') hinner rfl
  rw [List.append_nil] at hskip
  have hquoted : (Cursor.mk none 0 (⟨'"', true⟩ :: ofChars cs)).quoted? = none := by
    rw [Cursor.quoted?, Cursor.mark?_cons]
    simp only
    rw [hskip]
    rfl
  have hplain : (Cursor.mk none 0 (⟨'"', true⟩ :: ofChars cs)).plain? isAsciiLetter = none := rfl
  have hcells : ofChars ('"' :: cs) = ⟨'"', true⟩ :: ofChars cs := Cells.ofChars_cons '"' cs
  rw [isIdentifier, hcells, Cursor.name?, hquoted, hplain]
  rfl

/-! ### The names before a colon -/

theorem ofChars_comma (cs : List Char) : ofChars (',' :: cs) = ⟨',', true⟩ :: ofChars cs :=
  Cells.ofChars_cons ',' cs

theorem comma_not_mem_of_blank {gap : List Char} (h : ∀ c ∈ gap, isBlank c = true) : ',' ∉ gap :=
  fun hmem => absurd (h ',' hmem) (by decide)

section Names

variable {gap : List Char} (hgap : ∀ c ∈ gap, isBlank c = true)

theorem flush_namesWith : ∀ (n : WrittenName) (ms : List FurtherName),
    Name.Flush (namesWith WrittenName.chars n ms) ∧ namesWith WrittenName.chars n ms ≠ []
  | n, [] => n.flush_chars
  | n, m :: ms => by
    obtain ⟨hflush, hne⟩ := flush_namesWith m.name ms
    have hsplit : namesWith WrittenName.chars n (m :: ms) = n.chars ++
        ((m.before.chars ++ ',' :: m.behind.chars) ++ namesWith WrittenName.chars m.name ms) := by
      simp [namesWith]
    rw [hsplit]
    exact ⟨n.flush_chars.1.append n.flush_chars.2 hflush hne _,
      List.append_ne_nil_of_left_ne_nil n.flush_chars.2 _⟩

include hgap

theorem trim_piece {n : WrittenName} {back : List Char} (hback : ∀ c ∈ back, isBlank c = true) :
    (ofChars (gap ++ n.chars ++ back)).trim = ofChars n.chars := by
  rw [Cells.trim_ofChars, Name.trim_append hgap hback n.flush_chars.1]

/-- The first name and what stands behind it up to the next one. -/
theorem splitOn_names_cons {n : WrittenName} (hn : n.hasComma = false) (m : FurtherName)
    (ms : List FurtherName) :
    (ofChars (gap ++ namesWith WrittenName.chars n (m :: ms))).splitOn ',' =
      ofChars (gap ++ n.chars ++ m.before.chars) ::
        (ofChars (m.behind.chars ++ namesWith WrittenName.chars m.name ms)).splitOn ',' := by
  have hsplit : gap ++ namesWith WrittenName.chars n (m :: ms) =
      (gap ++ n.chars ++ m.before.chars) ++
        ',' :: (m.behind.chars ++ namesWith WrittenName.chars m.name ms) := by
    simp [namesWith]
  have hcomma : ',' ∉ gap ++ n.chars ++ m.before.chars := by
    simp only [List.mem_append, not_or]
    exact ⟨⟨comma_not_mem_of_blank hgap, n.comma_not_mem_chars hn⟩,
      comma_not_mem_of_blank m.before.all_blank⟩
  rw [hsplit, Cells.ofChars_append, ofChars_comma,
    Cells.splitOn_append (Cells.char_ne_of_not_mem hcomma) rfl]

/-- **Names without commas are the pieces between the commas.** -/
theorem pieces_names {n : WrittenName} {ms : List FurtherName}
    (h : ∀ k ∈ n :: ms.map (·.name), k.hasComma = false) :
    ((ofChars (gap ++ namesWith WrittenName.chars n ms)).splitOn ',').map Cells.trim =
      (n :: ms.map (·.name)).map fun k => ofChars k.chars := by
  induction ms generalizing n gap with
  | nil =>
    have hcomma : ',' ∉ gap ++ n.chars := by
      rw [List.mem_append, not_or]
      exact ⟨comma_not_mem_of_blank hgap, n.comma_not_mem_chars (h n List.mem_cons_self)⟩
    have hpiece := trim_piece hgap (n := n) (List.forall_mem_nil _)
    rw [List.append_nil] at hpiece
    rw [namesWith, Cells.splitOn_of_not_mem (Cells.char_ne_of_not_mem hcomma), List.map_singleton,
      hpiece]
    rfl
  | cons m ms ih =>
    rw [splitOn_names_cons hgap (h n List.mem_cons_self), List.map_cons,
      trim_piece hgap m.before.all_blank,
      ih m.behind.all_blank fun k hk => h k (List.mem_cons_of_mem n hk)]
    rfl

/-- A name with a comma between its quotes leaves a piece that is no name. -/
theorem exists_splitOn_names {n : WrittenName} (hn : n.hasComma = true) (ms : List FurtherName) :
    ∃ piece pieces, (ofChars (gap ++ namesWith WrittenName.chars n ms)).splitOn ',' =
      piece :: pieces ∧ isIdentifier piece.trim = false := by
  obtain ⟨left, right, hchars, hcomma, hquote⟩ := n.exists_cut hn
  obtain ⟨back, hback⟩ : ∃ back, gap ++ namesWith WrittenName.chars n ms =
      (gap ++ '"' :: left) ++ ',' :: back := by
    cases ms with
    | nil => exact ⟨right, by simp [namesWith, hchars]⟩
    | cons m ms => exact ⟨_, by simp [namesWith, hchars]; rfl⟩
  have hfront : ',' ∉ gap ++ '"' :: left := by
    rw [List.mem_append, List.mem_cons, not_or, not_or]
    exact ⟨comma_not_mem_of_blank hgap, by decide, hcomma⟩
  have htrim : '"' ∉ (Name.trimStart left.reverse).reverse := fun hmem =>
    hquote (List.mem_reverse.mp ((List.dropWhile_sublist _).subset (List.mem_reverse.mp hmem)))
  refine ⟨ofChars (gap ++ '"' :: left), (ofChars back).splitOn ',', ?_, ?_⟩
  · rw [hback, Cells.ofChars_append, ofChars_comma,
      Cells.splitOn_append (Cells.char_ne_of_not_mem hfront) rfl]
  · rw [Cells.trim_ofChars, Name.trim_append_quote hgap, isIdentifier_unclosed htrim]

/-- **If there is a comma between quotes, not all pieces are names.** -/
theorem not_all_isIdentifier {n : WrittenName} {ms : List FurtherName}
    (h : ∃ k ∈ n :: ms.map (·.name), k.hasComma = true) :
    (((ofChars (gap ++ namesWith WrittenName.chars n ms)).splitOn ',').map Cells.trim).all
      isIdentifier = false := by
  induction ms generalizing n gap with
  | nil =>
    obtain ⟨k, hk, hcomma⟩ := h
    obtain rfl := List.mem_singleton.mp hk
    obtain ⟨piece, pieces, hsplit, hpiece⟩ := exists_splitOn_names hgap hcomma []
    rw [hsplit, List.map_cons, List.all_cons, hpiece, Bool.false_and]
  | cons m ms ih =>
    cases hn : n.hasComma with
    | true =>
      obtain ⟨piece, pieces, hsplit, hpiece⟩ := exists_splitOn_names hgap hn (m :: ms)
      rw [hsplit, List.map_cons, List.all_cons, hpiece, Bool.false_and]
    | false =>
      have hlater : ∃ k ∈ m.name :: ms.map (·.name), k.hasComma = true := by
        obtain ⟨k, hk, hcomma⟩ := h
        rcases List.mem_cons.mp hk with rfl | hk
        · rw [hn] at hcomma
          cases hcomma
        · exact ⟨k, hk, hcomma⟩
      rw [splitOn_names_cons hgap hn, List.map_cons, List.all_cons,
        ih m.behind.all_blank hlater, Bool.and_false]

end Names

/-! ### `var` -/

theorem toNat_lt_of_mem_var : ∀ c ∈ "var".toList, c.toNat < 0x80 := by decide

theorem stripVar?_var (v : VarWord) {cs : List Char} (hcs : ∀ c ∈ cs.head?, isBlank c = false) :
    stripVar? (ofChars (v.word ++ v.gap.chars ++ cs)) = some (ofChars cs) := by
  have hcells : (ofChars v.word).map (fun x => lower x.char) = ['v', 'a', 'r'] :=
    (Cells.map_lower_ofChars fun c hc =>
      toNat_lt_of_mem_var _ (v.word_lower ▸ List.mem_map_of_mem hc)).trans v.word_lower
  have hlength : (ofChars v.word).length = 3 := by
    simpa using congrArg List.length hcells
  have hgap : (ofChars (v.gap.chars ++ cs)).head?.any Cell.isBlank = true := by
    cases hchars : v.gap.chars with
    | nil => exact absurd hchars v.gap_ne
    | cons c gap =>
      exact (Cells.head?_ofChars_any isBlank _).trans
        (v.gap.all_blank c (hchars ▸ List.mem_cons_self))
  have htrim : (ofChars (v.gap.chars ++ cs)).trimStart = ofChars cs :=
    (Cells.dropWhile_ofChars isBlank _).trans
      (congrArg ofChars (Name.trimStart_append v.gap.all_blank hcs))
  rw [List.append_assoc, Cells.ofChars_append, stripVar?]
  simp only [← hlength, List.take_left, List.drop_left, hcells, hgap, htrim]
  rfl

theorem stripVar?_eq_none {word rest : Cells} (hword : ∀ x ∈ word, x.isWord = true)
    (hrest : rest.EndsWord) (hvar : word.map (fun x => lower x.char) ≠ ['v', 'a', 'r']) :
    stripVar? (word ++ rest) = none := by
  rw [stripVar?]
  refine if_neg fun h => ?_
  obtain ⟨hhead, hblank⟩ := (Bool.and_eq_true _ _).mp h
  have hhead := beq_iff_eq.mp hhead
  have hletters : ∀ x ∈ (word ++ rest).take 3, x.isWord = true := by
    intro x hx
    have hlower : lower x.char ∈ ['v', 'a', 'r'] := hhead ▸ List.mem_map_of_mem hx
    have hsmall : ∀ k ∈ ['v', 'a', 'r'], 'a' ≤ k ∧ k ≤ 'z' := by decide
    exact CharClass.isWord_of_folds (hsmall _ hlower) (by simp [CharClass.folds])
  rcases Nat.lt_trichotomy word.length 3 with hlt | heq | hlt
  · -- the word is too short, and what is behind it goes on no word
    cases rest with
    | nil =>
      rw [List.append_nil, List.take_of_length_le hlt.le] at hhead
      exact hvar hhead
    | cons y rest =>
      have hy : y ∈ (word ++ y :: rest).take 3 := by
        rw [List.take_append, show 3 - word.length = 2 - word.length + 1 by omega,
          List.take_succ_cons]
        exact List.mem_append_right _ List.mem_cons_self
      have hend : y.isWord = false := hrest
      rw [hletters y hy] at hend
      cases hend
  · rw [← heq, List.take_left] at hhead
    exact hvar hhead
  · -- the word goes on behind its third byte
    obtain ⟨y, later, hlater⟩ := List.exists_cons_of_ne_nil
      (show word.drop 3 ≠ [] from mt List.drop_eq_nil_iff.mp (by omega))
    have hy : y ∈ word := List.mem_of_mem_drop (hlater ▸ List.mem_cons_self)
    rw [List.drop_append_of_le_length hlt.le, hlater] at hblank
    have hnot := CharClass.isBlank_of_isWord (hword y hy)
    exact absurd hblank (by simpa [Cell.isBlank] using hnot)

namespace WrittenDeclaration

variable (d : WrittenDeclaration parameters)

/-- What stands before the colon, trimmed. -/
theorem trim_front : (ofChars (d.frontWith WrittenName.chars)).trim =
    ofChars (varChars d.byReference ++ namesWith WrittenName.chars d.first d.further) := by
  obtain ⟨hflush, hne⟩ := flush_namesWith d.first d.further
  have hcore : Name.Flush
      (varChars d.byReference ++ namesWith WrittenName.chars d.first d.further) := by
    cases d.byReference with
    | none => exact hflush
    | some v =>
      have hvar : ∀ c ∈ v.word, isBlank c = false := by
        have hblank : ∀ k ∈ "var".toList, isBlank k = false := by decide
        intro c hc
        rw [← CharClass.isBlank_lower]
        exact hblank _ (v.word_lower ▸ List.mem_map_of_mem hc)
      have hword : v.word ≠ [] := by
        intro hnil
        have hlower := v.word_lower
        rw [hnil] at hlower
        cases hlower
      rw [varChars, List.append_assoc]
      exact (Name.flush_of_forall hvar).append hword hflush hne _
  rw [frontWith, Cells.trim_ofChars, Name.trim_append d.lead.all_blank d.trail.all_blank hcore]

theorem exists_names_eq (n : WrittenName) (ms : List FurtherName) :
    ∃ rest, namesWith WrittenName.chars n ms = n.chars ++ rest ∧
      rest.head?.any isWord = false := by
  cases ms with
  | nil => exact ⟨[], (List.append_nil _).symm, rfl⟩
  | cons m ms =>
    refine ⟨m.before.chars ++ ',' :: (m.behind.chars ++ namesWith WrittenName.chars m.name ms),
      by rw [namesWith, List.append_assoc], ?_⟩
    cases hchars : m.before.chars with
    | nil => rfl
    | cons c gap =>
      have hblank := m.before.all_blank c (hchars ▸ List.mem_cons_self)
      exact CharClass.not_isWord_of_isBlank hblank

/-- A name is not taken for `var`. -/
theorem stripVar?_names (n : WrittenName) (ms : List FurtherName) :
    stripVar? (ofChars (namesWith WrittenName.chars n ms)) = none := by
  obtain ⟨rest, hnames, hrest⟩ := exists_names_eq n ms
  have hends : (ofChars rest).EndsWord := (Cells.head?_ofChars_any isWord rest).trans hrest
  rw [hnames, Cells.ofChars_append]
  cases n with
  | plain cs first all_word not_var =>
    refine stripVar?_eq_none (fun x hx => all_word _ (Cells.char_mem_of_mem_ofChars hx)) hends ?_
    intro (hvar : (ofChars cs).map (fun x => lower x.char) = ['v', 'a', 'r'])
    have hascii : ∀ c ∈ cs, (lower c).toNat < 0x80 := by
      intro c hc
      have hcell : ⟨c, true⟩ ∈ ofChars cs := List.mem_flatMap.mpr ⟨c, hc, List.mem_cons_self⟩
      have hlower := List.mem_map_of_mem (f := fun x : Cell => lower x.char) hcell
      rw [hvar] at hlower
      exact toNat_lt_of_mem_var _ hlower
    exact not_var ((Cells.map_lower_ofChars hascii).symm.trans hvar)
  | quoted content _ =>
    rw [WrittenName.chars, ofChars_quoted, List.cons_append, stripVar?, List.take_succ_cons]
    rfl

/-- The names and their `var`, without the `var`. -/
theorem getD_stripVar? : (if parameters = true then
      (stripVar? (ofChars
        (varChars d.byReference ++ namesWith WrittenName.chars d.first d.further))).getD
          (ofChars (varChars d.byReference ++ namesWith WrittenName.chars d.first d.further))
      else ofChars (varChars d.byReference ++ namesWith WrittenName.chars d.first d.further)) =
    ofChars (namesWith WrittenName.chars d.first d.further) := by
  cases hvar : d.byReference with
  | none =>
    rw [varChars, List.nil_append, stripVar?_names, Option.getD_none, ite_self]
  | some v =>
    rw [if_pos (d.of_byReference (by rw [hvar]; rfl)), varChars,
      stripVar?_var v (flush_namesWith d.first d.further).1.1, Option.getD_some]

/-- **The names before a colon are read as they were written, unless one has a comma between its
quotes.** -/
theorem declaredNames?_front :
    declaredNames? (ofChars (d.frontWith WrittenName.chars)) parameters =
      if d.commaFree = true then some (d.names.map WrittenName.value) else none := by
  rw [declaredNames?]
  simp only [d.trim_front, d.getD_stripVar?]
  have hpieces : (∀ n ∈ d.names, n.hasComma = false) →
      ((ofChars (namesWith WrittenName.chars d.first d.further)).splitOn ',').map Cells.trim =
        d.names.map fun n => ofChars n.chars := pieces_names (List.forall_mem_nil _)
  have hcut : (∃ n ∈ d.names, n.hasComma = true) →
      (((ofChars (namesWith WrittenName.chars d.first d.further)).splitOn ',').map Cells.trim).all
        isIdentifier = false := not_all_isIdentifier (List.forall_mem_nil _)
  by_cases hfree : d.commaFree = true
  · have hnames : ∀ n ∈ d.names, n.hasComma = false := by
      simpa [commaFree] using hfree
    have hall : (d.names.map fun n => ofChars n.chars).all isIdentifier = true := by
      rw [List.all_map, List.all_eq_true]
      exact fun n _ => n.isIdentifier_chars
    rw [hpieces hnames, if_pos hfree, if_pos hall, List.map_map]
    exact congrArg some (List.map_congr_left fun n _ => n.unquote_chars)
  · have hcomma : ∃ n ∈ d.names, n.hasComma = true := by
      simpa [commaFree] using hfree
    rw [hcut hcomma, if_neg hfree]
    rfl

end WrittenDeclaration

/-! ### The type behind a colon -/

namespace WrittenType

variable (w : WrittenType)

theorem all_isAsciiWord : w.word.all CharClass.isAsciiWord = true :=
  List.all_eq_true.mpr fun c hc => Program.isAsciiWord_of_isAsciiLetter (w.all_letter c hc)

theorem ofChars_chars :
    ofChars w.chars = ofChars w.before.chars ++ (ofAscii w.word ++ ofChars w.after.chars) := by
  have hascii : ofChars w.word = ofAscii w.word := Cells.ofChars_eq_ofAscii fun c hc =>
    CharClass.toNat_lt_of_isAsciiWord (List.all_eq_true.mp w.all_isAsciiWord c hc)
  rw [chars, Cells.ofChars_append, Cells.ofChars_append, hascii, List.append_assoc]

theorem typeSpec?_chars : typeSpec? (ofChars w.chars) = some
    ⟨⟨(ofChars w.before.chars).length, (ofChars w.before.chars).length + w.word.length⟩, none⟩ := by
  have hletter : ∀ x ∈ ofAscii w.word, isAsciiLetter x.char = true := by
    intro x hx
    obtain ⟨c, hc, rfl⟩ := List.mem_map.mp hx
    exact w.all_letter c hc
  have hne : ofAscii w.word ≠ [] := mt List.map_eq_nil_iff.mp w.word_ne
  have hhead : (ofAscii w.word ++ ofChars w.after.chars).head?.any Cell.isBlank = false := by
    obtain ⟨x, cs, hx⟩ := List.exists_cons_of_ne_nil hne
    rw [hx]
    exact CharClass.isBlank_of_isWord (CharClass.isWord_of_isAsciiLetter _
      (hletter x (hx ▸ List.mem_cons_self)))
  have hafter : (ofChars w.after.chars).head?.any (fun x => isAsciiLetter x.char) = false := by
    have hends := not_letter_of_endsWord w.after.endsWord
    cases hhead : (ofChars w.after.chars).head? with
    | none => rfl
    | some x =>
      rw [hhead, Option.any_some, Bool.or_eq_false_iff] at hends
      exact hends.1
  have hend : ∀ before pos, (Cursor.mk before pos (ofChars w.after.chars)).blanks =
      ⟨lastOr before (ofChars w.after.chars), pos + (ofChars w.after.chars).length, []⟩ := by
    intro before pos
    have h := @Cursor.skipWhile_append before pos (ofChars w.after.chars) [] Cell.isBlank
      (fun x hx => w.after.isBlank_of_mem hx) rfl
    rwa [List.append_nil] at h
  have hbrackets : ∀ before pos, skipBrackets ⟨before, pos, ofChars w.after.chars⟩ =
      ⟨before, pos, ofChars w.after.chars⟩ := by
    intro before pos
    rw [skipBrackets, hend]
    rfl
  -- there are only blanks behind the keyword, and so no name
  have hname : ∀ before pos, ((Cursor.mk before pos (ofChars w.after.chars)).blanks?).bind
      (·.name? isAsciiLetter) = none := by
    intro before pos
    rw [Cursor.blanks?, Cursor.some?]
    split
    · exact congrArg (Cursor.name? isAsciiLetter) (hend before pos)
    · rfl
  have hblanks : (Cursor.mk none 0 (ofChars w.before.chars ++
      (ofAscii w.word ++ ofChars w.after.chars))).blanks = _ :=
    Cursor.skipWhile_append (fun x hx => w.before.isBlank_of_mem hx) hhead
  rw [w.ofChars_chars, typeSpec?, hblanks]
  simp only [Cursor.some?_append hletter hne hafter, Option.bind_eq_bind, Option.bind_some,
    hbrackets, hname, Nat.zero_add, Cells.length_ofAscii]
  rfl

theorem first?_temporary :
    (keyword "temporary").first? ⟨none, 0, ofChars w.chars⟩ = none := by
  have hlettered : Lettered "temporary".toList := by decide
  have honWords := onWords_keyword hlettered
  have hne : w.word ≠ [] := w.word_ne
  have hbefore : (lastOr none (ofChars w.before.chars)).any Cell.isWord = false :=
    Cells.any_lastOr (fun _ => rfl) fun x hx => (w.before.not_isWord_of_mem hx).1
  have hnone : ∀ pos, keyword "temporary" ⟨lastOr none (ofChars w.before.chars), pos,
      ofAscii w.word ++ ofChars w.after.chars⟩ = none := by
    intro pos
    rw [keyword, Cursor.wholeWord?_word hbefore w.all_isAsciiWord hne w.after.endsWord hlettered.2 hlettered.1,
      if_neg w.not_temporary]
    rfl
  have hrest := Pattern.allFrom_gap honWords (fun x hx => w.after.not_isWord_of_mem hx)
  rw [Pattern.first?, Pattern.firstFrom_eq_head?, w.ofChars_chars,
    Pattern.allFrom_gap honWords fun x hx => w.before.not_isWord_of_mem hx,
    Pattern.allFrom_word honWords w.all_isAsciiWord hne (hnone _)]
  have hlast := hrest (lastOr (lastOr none (ofChars w.before.chars)) (ofAscii w.word))
    (0 + (ofChars w.before.chars).length + w.word.length) []
  rw [List.append_nil] at hlast
  rw [hlast]
  rfl

/-- **The type behind a colon is the one that the keyword names.** -/
theorem typeOf?_chars : typeOf? (ofChars w.chars) = some w.info := by
  have hkeyword : ((ofChars w.chars).slice ⟨(ofChars w.before.chars).length,
      (ofChars w.before.chars).length + w.word.length⟩).text = String.ofList w.word := by
    rw [w.ofChars_chars, Cells.slice_of_append rfl rfl (by rw [Cells.length_ofAscii]), Cells.text,
      Cells.chars_ofAscii]
  rw [typeOf?, w.typeSpec?_chars]
  simp only [hkeyword, w.first?_temporary, ite_self]
  rfl

end WrittenType

end Source
end TreeLint
