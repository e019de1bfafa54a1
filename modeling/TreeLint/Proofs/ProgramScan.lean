/-
# The object of a codeunit written one construct per line

What each pattern of the front end finds where it matches in such a codeunit, and
the searches that are about the codeunit as a whole: there is one object, its
braces are the first and the last, and it starts with the text. A search passes
over the words it is not about, so the procedures play no part in that.

Key definitions: `Program.Codeunit.around`.
Key theorems: `Program.routineHeader_header`, `Program.callHead_statement`,
`Program.Codeunit.objectHeaders_around`, `Program.Codeunit.objectSite_around`.
-/
import TreeLint.Proofs.Candidates
import TreeLint.Proofs.Programs
import TreeLint.Proofs.Sites

namespace TreeLint

open Cells (ofAscii lastOr)

namespace Program

open Source

/-! ### Patterns at the words of a program -/

theorem Identifier.ne_nil (i : Identifier) : i.chars ≠ [] := by
  intro h
  have hfirst := i.first_letter
  rw [h] at hfirst
  cases hfirst

/-- A name starts with a word character, so with no blank and no mark. -/
theorem Identifier.head?_append (i : Identifier) (rest : Cells) {p : Cell → Bool}
    (hp : ∀ x : Cell, x.isWord = true → p x = false) :
    (ofAscii i.chars ++ rest).head?.any p = false := by
  cases h : i.chars with
  | nil => exact absurd h i.ne_nil
  | cons c cs =>
    have hall := i.all_word
    rw [h] at hall
    simpa using hp _ (isWord_of_mem_ofAscii hall List.mem_cons_self)

theorem not_isBlank_of_isWord (x : Cell) (h : x.isWord = true) : x.isBlank = false :=
  CharClass.isBlank_of_isWord h

theorem Procedure.length_header (p : Procedure) :
    p.header.length = 10 + p.name.chars.length + 1 := by
  simp [header, spell]
  omega

/-- The header of a procedure is found with its name. -/
theorem routineHeader_header (p : Procedure) {before : Option Cell}
    (hbefore : before.any Cell.isWord = false) (pos : Nat) (rest : Cells) :
    routineHeader ⟨before, pos, ofAscii p.header ++ rest⟩ =
      some (⟨.procedure, ⟨pos + 10, pos + 10 + p.name.chars.length⟩⟩,
        ⟨some ⟨'(', true⟩, pos + p.header.length, rest⟩) := by
  have hword : (spell "procedure").all CharClass.isAsciiWord = true := by decide
  have hsplit : ofAscii p.header ++ rest = ofAscii (spell "procedure") ++
      (ofAscii [' '] ++ (ofAscii p.name.chars ++ (⟨'(', true⟩ :: rest))) := by
    have h : spell "procedure " = spell "procedure" ++ [' '] := by decide
    simp only [Procedure.header, h, Cells.ofAscii_append, List.append_assoc]
    rfl
  have hends : (ofAscii [' '] ++ (ofAscii p.name.chars ++ (⟨'(', true⟩ :: rest))).EndsWord := rfl
  have hparen : Cells.EndsWord (⟨'(', true⟩ :: rest) := rfl
  have haccess : skipAccess ⟨before, pos, ofAscii p.header ++ rest⟩ =
      ⟨before, pos, ofAscii p.header ++ rest⟩ := by
    refine skipAccess_eq_self fun w hw => ?_
    rw [Option.bind_eq_none_iff, hsplit]
    intro d hd
    have hletters : ∀ w ∈ ["local", "internal", "protected"],
        Lettered w.toList ∧ (spell "procedure").map CharClass.lower ≠ w.toList := by decide
    exact Cursor.blanks?_of_word?_word hword hends (hletters w hw).1.2
      (fun heq => absurd heq (hletters w hw).2) hd
  have hprocedure : (Cursor.mk before pos (ofAscii p.header ++ rest)).word? "procedure".toList =
      some ⟨lastOr before (ofAscii (spell "procedure")), pos + 9,
        ofAscii [' '] ++ (ofAscii p.name.chars ++ (⟨'(', true⟩ :: rest))⟩ := by
    rw [hsplit]
    rcases @Cursor.word?_word before pos (spell "procedure") "procedure".toList _ hword hends
      (by decide) with ⟨-, h⟩ | ⟨hne, -⟩
    · exact h
    · exact absurd (by decide) hne
  have hedge : (Cursor.mk before pos (ofAscii p.header ++ rest)).atWordEdge = true := by
    rw [hsplit]
    exact Cursor.atWordEdge_word hbefore hword (by decide)
  have hblanks := @Cursor.some?_append (lastOr before (ofAscii (spell "procedure"))) (pos + 9)
    (ofAscii [' ']) (ofAscii p.name.chars ++ (⟨'(', true⟩ :: rest)) Cell.isBlank (by decide)
    (by decide) (p.name.head?_append _ not_isBlank_of_isWord)
  have hname := fun before pos => @Cursor.name?_word before pos p.name.chars _ _ p.name.all_word
    (first_isFoldedLetter p.name.first_letter) hparen
  have hstay := fun before pos => @Cursor.blanks_eq_self before pos (⟨'(', true⟩ :: rest) rfl
  rw [routineHeader, if_pos hedge]
  simp only [haccess, hprocedure, Cursor.blanks?, Option.bind_eq_bind, Option.bind_some, hblanks,
    hname, hstay, Cursor.mark?_cons, p.length_header]
  simp [Nat.add_assoc]

theorem skipNumber_number (before : Option Cell) (pos : Nat) {rest : Cells}
    (hrest : rest.head?.any Cell.isBlank = false) :
    skipNumber ⟨before, pos, ofAscii (spell "50100") ++ (ofAscii [' '] ++ rest)⟩ =
      ⟨some ⟨' ', true⟩, pos + 6, rest⟩ := by
  have hdigits := @Cursor.some?_append before pos (ofAscii (spell "50100")) (ofAscii [' '] ++ rest)
    (fun x => CharClass.isDigit x.char) (by decide) (by decide) rfl
  have hblanks := fun before pos => @Cursor.some?_append before pos (ofAscii [' ']) rest Cell.isBlank
    (by decide) (by decide) hrest
  rw [skipNumber, hdigits, Option.bind_some, Cursor.blanks?, hblanks]
  rfl

theorem baseName?_brace (before : Option Cell) (pos : Nat) (rest : Cells) :
    baseName? ⟨before, pos, ofAscii ['\n', '\x7b'] ++ rest⟩ = none := by
  have hblanks := @Cursor.some?_append before pos (ofAscii ['\n']) (ofAscii ['\x7b'] ++ rest)
    Cell.isBlank (by decide) (by decide) rfl
  have hword := fun before pos => @Cursor.word?_eq_none before pos "extends".toList
    (ofAscii ['\x7b'] ++ rest) rfl (by decide) (by decide)
  rw [baseName?, Cursor.blanks?, show ofAscii ['\n', '\x7b'] ++ rest =
    ofAscii ['\n'] ++ (ofAscii ['\x7b'] ++ rest) from rfl, hblanks]
  simp only [Option.bind_eq_bind, Option.bind_some, hword, Option.bind_none]

/-- The header of a codeunit is found with its keyword and its name. -/
theorem objectHeader_header (c : Codeunit) (rest : Cells) :
    objectHeader ⟨none, 0, ofAscii c.header ++ (ofAscii ['\n', '\x7b'] ++ rest)⟩ =
      some (⟨⟨0, 8⟩, ⟨15, 15 + c.name.chars.length⟩, none⟩,
        ⟨lastOr (some ⟨' ', true⟩) (ofAscii c.name.chars), 15 + c.name.chars.length,
          ofAscii ['\n', '\x7b'] ++ rest⟩) := by
  have hword : (spell "codeunit").all CharClass.isAsciiWord = true := by decide
  have hsplit : ofAscii c.header ++ (ofAscii ['\n', '\x7b'] ++ rest) =
      ofAscii (spell "codeunit") ++ (ofAscii [' '] ++ (ofAscii (spell "50100") ++
        (ofAscii [' '] ++ (ofAscii c.name.chars ++ (ofAscii ['\n', '\x7b'] ++ rest))))) := by
    have h : spell "codeunit 50100 " =
      spell "codeunit" ++ ([' '] ++ (spell "50100" ++ [' '])) := by decide
    simp only [Codeunit.header, h, Cells.ofAscii_append, List.append_assoc]
  rw [hsplit, objectHeader, if_pos (Cursor.atWordEdge_word rfl hword (by decide)),
    List.findSome?_eq_some_iff]
  refine ⟨["tableextension", "pageextension", "enumextension", "permissionset", "table", "page"],
    "codeunit", ["report", "query", "xmlport", "enum", "interface"], rfl, ?_, ?_⟩
  · have hkeyword : ∀ tail : Cells, (Cursor.mk none 0 (ofAscii (spell "codeunit") ++
        (ofAscii [' '] ++ tail))).word? "codeunit".toList =
          some ⟨some ⟨'t', true⟩, 8, ofAscii [' '] ++ tail⟩ := by
      intro tail
      rcases @Cursor.word?_word none 0 (spell "codeunit") "codeunit".toList (ofAscii [' '] ++ tail)
        hword rfl (by decide) with ⟨-, h⟩ | ⟨hne, -⟩
      · exact h
      · exact absurd (by decide) hne
    have hblanks := fun tail => @Cursor.some?_append (some ⟨'t', true⟩) 8 (ofAscii [' '])
      (ofAscii (spell "50100") ++ tail) Cell.isBlank (by decide) (by decide) rfl
    have hname := fun before pos => @Cursor.name?_word before pos c.name.chars
      (ofAscii ['\n', '\x7b'] ++ rest) _ c.name.all_word
      (first_isFoldedLetter c.name.first_letter) rfl
    simp only [hkeyword, Cursor.blanks?, hblanks, Option.bind_eq_bind, Option.bind_some,
      skipNumber_number _ _ (c.name.head?_append _ not_isBlank_of_isWord), hname, baseName?_brace]
    rfl
  · intro w hw
    have hother : ∀ w ∈ ["tableextension", "pageextension", "enumextension", "permissionset",
        "table", "page"], Lettered w.toList ∧
          (spell "codeunit").map CharClass.lower ≠ w.toList := by decide
    have hends : ∀ tail : Cells, (ofAscii [' '] ++ tail).EndsWord := fun _ => rfl
    rw [Option.bind_eq_bind, Option.bind_eq_none_iff]
    intro d hd
    rw [Cursor.blanks?_of_word?_word hword (hends _) (hother w hw).1.2
      (fun heq => absurd heq (hother w hw).2) hd]
    rfl

/-- A keyword stands where a word that spells it ends. -/
theorem keyword_word {w : List Char} {k : String} (hw : w.all CharClass.isAsciiWord = true)
    (hk : Lettered k.toList) (heq : w.map CharClass.lower = k.toList) {before : Option Cell}
    (hbefore : before.any Cell.isWord = false) (pos : Nat) {rest : Cells} (hrest : rest.EndsWord) :
    keyword k ⟨before, pos, ofAscii w ++ rest⟩ =
      some ((), ⟨lastOr before (ofAscii w), pos + w.length, rest⟩) := by
  have hne : w ≠ [] := by
    rintro rfl
    exact hk.1 heq.symm
  rw [keyword, Cursor.wholeWord?_word hbefore hw hne hrest hk.2 hk.1, if_pos heq]
  rfl

theorem passes_keyword {k : String} (hk : Lettered k.toList) {r : WordRun}
    (h : r.word.map CharClass.lower ≠ k.toList) : (keyword k).Passes r := by
  intro hne before pos rest hbefore
  rw [keyword, Cursor.wholeWord?_word hbefore r.word_all hne (r.endsWord_gap rest) hk.2 hk.1,
    if_neg h]
  rfl

theorem blockToken_begin {before : Option Cell} (hbefore : before.any Cell.isWord = false)
    (pos : Nat) {rest : Cells} (hrest : rest.EndsWord) :
    blockToken ⟨before, pos, ofAscii (spell "begin") ++ rest⟩ =
      some (.opener, ⟨lastOr before (ofAscii (spell "begin")), pos + 5, rest⟩) := by
  have hbegin := @Cursor.wholeWord?_word before pos (spell "begin") "begin".toList rest hbefore
    (by decide) (by decide) hrest (by decide) (by decide)
  rw [if_pos (by decide)] at hbegin
  simp only [blockToken, hbegin]
  rfl

theorem blockToken_end {before : Option Cell} (hbefore : before.any Cell.isWord = false)
    (pos : Nat) {rest : Cells} (hrest : rest.EndsWord) :
    blockToken ⟨before, pos, ofAscii (spell "end") ++ rest⟩ =
      some (.closer, ⟨lastOr before (ofAscii (spell "end")), pos + 3, rest⟩) := by
  have hword := fun k : List Char => @Cursor.wholeWord?_word before pos (spell "end") k rest hbefore
    (by decide) (by decide) hrest
  have hbegin := hword "begin".toList (by decide) (by decide)
  have hcase := hword "case".toList (by decide) (by decide)
  have hend := hword "end".toList (by decide) (by decide)
  rw [if_neg (by decide)] at hbegin hcase
  rw [if_pos (by decide)] at hend
  simp only [blockToken, hbegin, hcase, hend]
  rfl

/-- The head of a statement's call is found with both of its names. -/
theorem callHead_statement {v : Identifier} (s : Statement v) {before : Option Cell}
    (hbefore : before.any Cell.isWord = false) (pos : Nat) (rest : Cells) :
    callHead ⟨before, pos, ofAscii s.front ++ rest⟩ =
      some (⟨⟨pos, pos + s.receiver.chars.length⟩,
          some ⟨pos + s.receiver.chars.length + 1,
            pos + s.receiver.chars.length + 1 + s.method.chars.length⟩⟩,
        ⟨some ⟨'(', true⟩, pos + s.receiver.chars.length + 1 + s.method.chars.length + 1, rest⟩) := by
  have hsplit : ofAscii s.front ++ rest =
      ofAscii s.receiver.chars ++ (⟨'.', true⟩ :: (ofAscii s.method.chars ++
        (⟨'(', true⟩ :: rest))) := by
    simp [Statement.front]
  have hquote := @Cursor.not_quote_word s.receiver.chars (⟨'.', true⟩ :: (ofAscii s.method.chars ++
    (⟨'(', true⟩ :: rest))) s.receiver.all_word s.receiver.ne_nil
  have hreceiver := @Cursor.plain?_word before pos s.receiver.chars (⟨'.', true⟩ ::
    (ofAscii s.method.chars ++ (⟨'(', true⟩ :: rest))) _ s.receiver.all_word
    s.receiver.first_letter rfl
  have hmethod := fun before pos => @Cursor.name?_word before pos s.method.chars
    (⟨'(', true⟩ :: rest) _ s.method.all_word s.method.first_letter rfl
  have hdot := fun before pos => @Cursor.blanks_eq_self before pos (⟨'.', true⟩ ::
    (ofAscii s.method.chars ++ (⟨'(', true⟩ :: rest))) rfl
  have hstay := fun before pos => @Cursor.blanks_eq_self before pos
    (ofAscii s.method.chars ++ (⟨'(', true⟩ :: rest)) (s.method.head?_append _ not_isBlank_of_isWord)
  have hparen := fun before pos => @Cursor.blanks_eq_self before pos (⟨'(', true⟩ :: rest) rfl
  rw [hsplit, callHead, Cursor.quoted?_eq_none hquote, Option.none_or,
    if_pos (Cursor.atWordEdge_word hbefore s.receiver.all_word s.receiver.ne_nil), hreceiver]
  simp only [Option.bind_eq_bind, Option.bind_some, memberName?, hdot, Cursor.mark?_cons, hstay,
    hmethod, hparen]
  rfl

/-! ### One pair of braces -/

/-- The characters are no braces. -/
def Braceless (cs : List Char) : Prop := ∀ ch ∈ cs, ch ≠ '\x7b' ∧ ch ≠ '\x7d'

section Braces

variable {t : Text} {front members ending : List Char}
  (ht : t.Reads (front ++ ('\x7b' :: (members ++ ('\x7d' :: ending)))))
  (hfront : Braceless front) (hmembers : Braceless members)
include ht hfront hmembers

theorem depths_of_reads : t.depths = List.replicate front.length 0 ++
    (0 :: (List.replicate members.length 1 ++ (1 :: depthsFrom 0 (ofAscii ending)))) := by
  have hbraceless : ∀ {cs : List Char}, Braceless cs →
      ∀ x ∈ ofAscii cs, x.char ≠ '\x7b' ∧ x.char ≠ '\x7d' := fun h =>
    (Cells.forall_mem_ofAscii (p := fun ch => ch ≠ '\x7b' ∧ ch ≠ '\x7d')).mpr h
  rw [ht.depths_eq, Cells.ofAscii_append, depthsFrom_append (hbraceless hfront),
    Cells.length_ofAscii, Cells.ofAscii_cons, depthsFrom, if_pos rfl, Cells.ofAscii_append,
    depthsFrom_append (hbraceless hmembers), Cells.length_ofAscii, Cells.ofAscii_cons, depthsFrom,
    if_neg (by decide), if_pos rfl]

theorem depth_opening_of_reads : t.depth front.length = 0 := by
  rw [Text.depth, depths_of_reads ht hfront hmembers]
  simp

/-- Between the braces the depth is one. -/
theorem depth_member_of_reads {k : Nat} (hk : k < members.length) :
    t.depth (front.length + 1 + k) = 1 := by
  rw [Text.depth, depths_of_reads ht hfront hmembers, List.getD_eq_getElem?_getD,
    List.getElem?_append_right (by simp; omega), List.length_replicate,
    show front.length + 1 + k - front.length = k + 1 by omega, List.getElem?_cons_succ,
    List.getElem?_append_left (by simpa using hk)]
  simp [hk]

theorem closingBrace?_of_reads :
    t.closingBrace? front.length = some (front.length + 1 + members.length) := by
  have hbare : t.bare.drop (front.length + 1) =
      ofAscii members ++ (⟨'\x7d', true⟩ :: ofAscii ending) := by
    rw [ht.bare_eq, Cells.ofAscii_append, List.drop_append, List.drop_of_length_le (by simp)]
    simp
  have hdepths : t.depths.drop (front.length + 1) =
      List.replicate (ofAscii members).length 1 ++ (1 :: depthsFrom 0 (ofAscii ending)) := by
    rw [depths_of_reads ht hfront hmembers, List.drop_append, List.drop_of_length_le (by simp)]
    simp
  have hclose : ∀ x ∈ ofAscii members, x.char ≠ '\x7d' :=
    (Cells.forall_mem_ofAscii (p := fun ch => ch ≠ '\x7d')).mpr fun ch hch => (hmembers ch hch).2
  rw [Text.closingBrace?, depth_opening_of_reads ht hfront hmembers, hbare, hdepths,
    braceEnd_append hclose, braceEnd, if_pos ⟨rfl, rfl⟩, Cells.length_ofAscii]

end Braces

/-! ### The object -/

namespace Codeunit

variable (c : Codeunit)

theorem length_header : c.header.length = 15 + c.name.chars.length := by
  simp [header, spell]
  omega

/-- The header of the codeunit, with other members between the braces. -/
def around (members ending : List Char) : List Char :=
  c.header ++ ('\n' :: '\x7b' :: (members ++ ('\x7d' :: ending)))

/-- **The only object header is the one at the start**, if none starts at a word of the members. -/
theorem objectHeaders_around {rs : List WordRun} (hrs : ∀ r ∈ rs, objectHeader.Passes r)
    {ending : List Char} (hending : ∀ x ∈ ofAscii ('\x7d' :: ending), x.isWord = false ∧ x.char ≠ '"') :
    objectHeader.allFrom 0 none 0 (ofAscii (c.around (rs.flatMap WordRun.chars) ending)) =
      [⟨⟨0, c.header.length⟩, ⟨⟨0, 8⟩, ⟨15, 15 + c.name.chars.length⟩, none⟩⟩] := by
  have hsplit : ofAscii (c.around (rs.flatMap WordRun.chars) ending) = ofAscii c.header ++
      (ofAscii ['\n', '\x7b'] ++ (ofAscii (rs.flatMap WordRun.chars) ++
        (ofAscii ('\x7d' :: ending) ++ []))) := by
    rw [around, List.append_nil]
    simp only [Cells.ofAscii_append, Cells.ofAscii_cons, Cells.ofAscii_nil, List.cons_append,
      List.nil_append]
  have hne : ofAscii c.header ≠ [] := by
    intro h
    have hlength := congrArg List.length h
    rw [Cells.length_ofAscii, c.length_header] at hlength
    simp at hlength
  have hopen : ∀ x ∈ ofAscii ['\n', '\x7b'], x.isWord = false ∧ x.char ≠ '"' := by decide
  have hlength : 15 + c.name.chars.length = 0 + (ofAscii c.header).length := by
    rw [Cells.length_ofAscii, c.length_header, Nat.zero_add]
  rw [hsplit, Pattern.allFrom_match (objectHeader_header c _) hlength hne,
    Pattern.allFrom_gap onWords_objectHeader hopen,
    Pattern.allFrom_runs onWords_objectHeader hrs rfl,
    Pattern.allFrom_gap onWords_objectHeader hending, Pattern.allFrom, Cells.length_ofAscii,
    Nat.zero_add]

theorem braceless_front : Braceless (c.header ++ ['\n']) := by
  intro ch hch
  have htame : isTame ch = true := by
    rcases List.mem_append.mp hch with hch | hch
    · exact List.all_eq_true.mp c.all_isTame_header ch hch
    · rw [List.mem_singleton.mp hch]
      decide
  exact ⟨ne_of_isTame htame (by decide), ne_of_isTame htame (by decide)⟩

section Around

variable {t : Text} {members ending : List Char} (ht : t.Reads (c.around members ending))
  (hmembers : Braceless members)
include ht

theorem reads_around :
    t.Reads ((c.header ++ ['\n']) ++ ('\x7b' :: (members ++ ('\x7d' :: ending)))) := by
  rw [around, List.append_cons] at ht
  exact ht

include hmembers

/-- **The object is the whole text**, up to its closing brace. -/
theorem objectSite_around :
    objectSite t ⟨⟨0, c.header.length⟩, ⟨⟨0, 8⟩, ⟨15, 15 + c.name.chars.length⟩, none⟩⟩ =
      .ok ⟨.codeunit, 0, ⟨15, 15 + c.name.chars.length⟩, none, c.header.length + 1,
        c.header.length + 2 + members.length⟩ := by
  have hdrop : t.bare.drop c.header.length = ⟨'\n', true⟩ :: ⟨'\x7b', true⟩ ::
      (ofAscii members ++ (⟨'\x7d', true⟩ :: ofAscii ending)) := by
    rw [ht.bare_eq, around]
    simp
  have hopening : Cells.findChar? '\x7b' c.header.length (t.bare.drop c.header.length) =
      some (c.header.length + 1) := by
    rw [hdrop, Cells.findChar?, if_neg (by decide), Cells.findChar?, if_pos rfl]
  have hclosing : t.closingBrace? (c.header.length + 1) =
      some (c.header.length + 2 + members.length) := by
    have h := closingBrace?_of_reads (c.reads_around ht) c.braceless_front hmembers
    rwa [List.length_append] at h
  have hkeyword : (t.bare.slice ⟨0, 8⟩).text = "codeunit" := by
    have hsplit : t.bare = [] ++ (ofAscii (spell "codeunit") ++ (ofAscii (spell " 50100 ") ++
        (ofAscii c.name.chars ++ (⟨'\n', true⟩ :: ⟨'\x7b', true⟩ ::
          (ofAscii members ++ (⟨'\x7d', true⟩ :: ofAscii ending)))))) := by
      have h : spell "codeunit 50100 " = spell "codeunit" ++ spell " 50100 " := by decide
      rw [ht.bare_eq, around, header, h]
      simp
    rw [Cells.slice_of_append hsplit rfl rfl, Cells.text, Cells.chars_ofAscii]
    rfl
  have hkind : SymbolKind.ofObjectKeyword? "codeunit" = some .codeunit := by decide
  simp only [objectSite, hopening, hclosing, hkeyword, hkind]

/-- The codeunit stands outside all braces. -/
theorem depth_zero_around : t.depth 0 = 0 := by
  rw [Text.depth, depths_of_reads (c.reads_around ht) c.braceless_front hmembers, List.length_append]
  rfl

end Around

theorem braceless_members : Braceless (c.members ' ') := by
  intro ch hch
  have hother : ∀ ch : Char, isTame ch = true ∨ ch = '\'' → ch ≠ '\x7b' ∧ ch ≠ '\x7d' := by
    rintro ch (h | rfl)
    · exact ⟨ne_of_isTame h (by decide), ne_of_isTame h (by decide)⟩
    · decide
  rcases List.mem_cons.mp hch with rfl | hch
  · decide
  · obtain ⟨p, -, hch⟩ := List.mem_flatMap.mp hch
    exact hother ch (p.isTame_of_mem (by decide) hch)

theorem text_eq_around : text (c.pieces ' ') = c.around (c.members ' ') c.ending := c.text_pieces ' '

theorem objectHeaders_text : objectHeader.allFrom 0 none 0 (ofAscii (text (c.pieces ' '))) =
    [⟨⟨0, c.header.length⟩, ⟨⟨0, 8⟩, ⟨15, 15 + c.name.chars.length⟩, none⟩⟩] := by
  have hpasses : ∀ r ∈ c.runs, objectHeader.Passes r := by
    intro r hr
    rcases List.mem_cons.mp hr with rfl | hr
    · exact fun hne => absurd rfl hne
    · obtain ⟨p, -, hr⟩ := List.mem_flatMap.mp hr
      exact p.passes_objectHeader hr
  have hending : ∀ x ∈ ofAscii ('\x7d' :: c.ending), x.isWord = false ∧ x.char ≠ '"' := by
    rw [ending]
    split <;> decide
  rw [c.text_eq_around, ← c.chars_runs]
  exact c.objectHeaders_around hpasses hending

theorem bare_eq {t : Text} (ht : t.Reads (text (c.pieces ' '))) :
    t.bare = ofAscii (c.header ++ ['\n']) ++ (⟨'\x7b', true⟩ ::
      (ofAscii (c.members ' ') ++ (⟨'\x7d', true⟩ :: ofAscii c.ending))) := by
  rw [ht.bare_eq, c.text_pieces]
  simp

end Codeunit

end Program
end TreeLint
