/-
# The declarations and calls of a codeunit written one construct per line

What the front end reads between the parentheses of a header and in a body: one
record for each procedure, and for each statement a call with its method and as
many arguments as there are literals. A part of the text is read where it stands,
so each of these is stated for a text in which the part is known to stand at a
place (`Source.Text.Reads`).

Key definitions: `Program.Statement.callAt`, `Program.callsFrom`.
Key theorems: `Program.declarations_parameters`, `Program.length_arguments`,
`Program.allFrom_lines`, `Program.calls_body`.
-/
import TreeLint.Proofs.ProgramRoutines

namespace TreeLint

open Cells (ofAscii lastOr)

theorem Cell.ne_of_isWord {x : Cell} (hx : x.isWord = true) {ch : Char}
    (hch : CharClass.isWord ch = false) : x.char ≠ ch := by
  intro heq
  rw [isWord, heq, hch] at hx
  cases hx

namespace Program

open Source

/-! ### Names -/

namespace Identifier

variable (i : Identifier)

theorem isWord_of_mem {x : Cell} (hx : x ∈ ofAscii i.chars) : x.isWord = true :=
  isWord_of_mem_ofAscii i.all_word hx

theorem ne_of_mem {x : Cell} (hx : x ∈ ofAscii i.chars) {ch : Char}
    (hch : CharClass.isWord ch = false) : x.char ≠ ch :=
  Cell.ne_of_isWord (i.isWord_of_mem hx) hch

/-- A name has no blanks around it and no quotes. -/
theorem isPlain_chars : Name.IsPlain (String.ofList i.chars) := by
  have hword : ∀ c ∈ i.chars, CharClass.isWord c = true := fun c hc =>
    CharClass.isWord_of_isAsciiWord (List.all_eq_true.mp i.all_word c hc)
  rw [Name.IsPlain, String.toList_ofList]
  refine ⟨⟨fun c hc => CharClass.isBlank_of_isWord (hword c (List.mem_of_mem_head? hc)),
    fun c hc => CharClass.isBlank_of_isWord (hword c (List.mem_of_mem_getLast? hc))⟩, fun hquote => ?_⟩
  exact absurd (hword '"' (List.mem_of_mem_head? hquote)) (by decide)

theorem unquote_chars : Name.unquote (String.ofList i.chars) = String.ofList i.chars := by
  rw [Name.unquote, i.isPlain_chars.unquoteChars_eq, String.toList_ofList]

theorem isIdentifier_chars : isIdentifier (ofAscii i.chars) = true := by
  have h := @Cursor.name?_word none 0 i.chars [] _ i.all_word i.first_letter rfl
  rw [List.append_nil] at h
  rw [isIdentifier, h]
  rfl

theorem trim_chars : Cells.trim (ofAscii i.chars) = ofAscii i.chars := by
  have hblank : ∀ x ∈ ofAscii i.chars, x.isBlank = false :=
    fun x hx => CharClass.isBlank_of_isWord (i.isWord_of_mem hx)
  refine Cells.trim_eq_self ?_ ?_
  · simpa using i.head?_append [] not_isBlank_of_isWord
  · cases h : (ofAscii i.chars).getLast? with
    | none => rfl
    | some x => exact hblank x (List.mem_of_getLast? h)

end Identifier

variable {t : Text} {pre post : List Char}

section Slices

variable {cs : List Char} {start stop : Nat} (ht : t.Reads (pre ++ (cs ++ post)))
  (hstart : start = pre.length) (hstop : stop = pre.length + cs.length)
include ht hstart hstop

theorem slice_bare : t.bare.slice ⟨start, stop⟩ = ofAscii cs := by
  refine @Cells.slice_of_append _ (ofAscii pre) _ (ofAscii post) _ ?_ ?_ ?_
  · rw [ht.bare_eq, Cells.ofAscii_append, Cells.ofAscii_append]
  · rwa [Cells.length_ofAscii]
  · rwa [Cells.length_ofAscii, Cells.length_ofAscii]

theorem slice_masked : t.masked.slice ⟨start, stop⟩ = ofAscii cs := by
  rw [← slice_bare ht hstart hstop, ht.masked_eq, ht.bare_eq]

end Slices

theorem name_text {i : Identifier} {start stop : Nat} (ht : t.Reads (pre ++ (i.chars ++ post)))
    (hstart : start = pre.length) (hstop : stop = pre.length + i.chars.length) :
    t.name ⟨start, stop⟩ = String.ofList i.chars := by
  rw [Text.name, slice_masked ht hstart hstop, Cells.text, Cells.chars_ofAscii, i.unquote_chars]

/-! ### Declarations -/

theorem declaredNames?_var (i : Identifier) :
    declaredNames? (ofAscii (spell "var " ++ i.chars)) true = some [String.ofList i.chars] := by
  have hsplit : ofAscii (spell "var " ++ i.chars) = ofAscii ['v', 'a', 'r', ' '] ++ ofAscii i.chars := by
    rw [Cells.ofAscii_append]
    rfl
  have hlast : (ofAscii ['v', 'a', 'r', ' '] ++ ofAscii i.chars).getLast?.any Cell.isBlank = false := by
    cases h : (ofAscii i.chars).getLast? with
    | none => exact absurd (List.getLast?_eq_none_iff.mp h) (by simpa [ofAscii] using i.ne_nil)
    | some x =>
      rw [List.getLast?_append, h]
      exact CharClass.isBlank_of_isWord (i.isWord_of_mem (List.mem_of_getLast? h))
  have htrim : Cells.trim (ofAscii ['v', 'a', 'r', ' '] ++ ofAscii i.chars) =
      ofAscii ['v', 'a', 'r', ' '] ++ ofAscii i.chars := Cells.trim_eq_self rfl hlast
  have hstart : Cells.trimStart (⟨' ', true⟩ :: ofAscii i.chars) = ofAscii i.chars := by
    rw [Cells.trimStart, List.dropWhile_cons_of_pos rfl]
    cases h : ofAscii i.chars with
    | nil => rfl
    | cons x cs =>
      have hblank := i.head?_append [] not_isBlank_of_isWord
      rw [List.append_nil, h] at hblank
      exact List.dropWhile_cons_of_neg (by simpa using hblank)
  have hstrip : stripVar? (ofAscii ['v', 'a', 'r', ' '] ++ ofAscii i.chars) =
      some (ofAscii i.chars) := by
    rw [stripVar?]
    simp only [Cells.ofAscii_cons, Cells.ofAscii_nil, List.cons_append, List.nil_append,
      List.take_succ_cons, List.take_zero, List.drop_succ_cons, List.drop_zero, hstart]
    rfl
  have hcomma : Cells.splitOn ',' (ofAscii i.chars) = [ofAscii i.chars] :=
    Cells.splitOn_of_not_mem fun x hx => i.ne_of_mem hx (by decide)
  rw [hsplit, declaredNames?]
  simp only [htrim, hstrip, if_true, Option.getD_some, hcomma, List.map_cons, List.map_nil,
    i.trim_chars, List.all_cons, List.all_nil, i.isIdentifier_chars, Bool.and_self, Cells.text,
    Cells.chars_ofAscii, i.unquote_chars]

theorem typeOf?_record (i : Identifier) :
    ∃ type : TypeInfo, typeOf? (ofAscii (spell " Record " ++ i.chars)) = some type ∧
      type.kind = .record := by
  have hsplit : ofAscii (spell " Record " ++ i.chars) = ofAscii [' '] ++ (ofAscii (spell "Record") ++
      (ofAscii [' '] ++ ofAscii i.chars)) := by
    simp only [Cells.ofAscii_append]
    rfl
  have hblanks : (Cursor.mk none 0 (ofAscii [' '] ++ (ofAscii (spell "Record") ++
      (ofAscii [' '] ++ ofAscii i.chars)))).blanks =
        ⟨some ⟨' ', true⟩, 1, ofAscii (spell "Record") ++ (ofAscii [' '] ++ ofAscii i.chars)⟩ :=
    @Cursor.skipWhile_append none 0 (ofAscii [' ']) _ Cell.isBlank (by decide) rfl
  have hletters := @Cursor.some?_append (some ⟨' ', true⟩) 1 (ofAscii (spell "Record"))
    (ofAscii [' '] ++ ofAscii i.chars) (fun x => CharClass.isAsciiLetter x.char) (by decide)
    (by decide) rfl
  obtain ⟨name, hspec⟩ : ∃ name, typeSpec? (ofAscii (spell " Record " ++ i.chars)) =
      some ⟨⟨1, 7⟩, name⟩ := by
    rw [hsplit, typeSpec?]
    simp only [hblanks, hletters, Option.bind_eq_bind, Option.bind_some]
    exact ⟨_, rfl⟩
  have hkeyword : (Cells.slice (ofAscii (spell " Record " ++ i.chars)) ⟨1, 7⟩).text = "Record" := by
    rw [hsplit, Cells.slice_of_append rfl rfl rfl, Cells.text, Cells.chars_ofAscii]
    rfl
  refine ⟨_, by rw [typeOf?, hspec], ?_⟩
  simp only [hkeyword]
  decide

theorem segmentsFrom_of_not_mem {cs : Cells} (h : ∀ x ∈ cs, x.char ≠ ';') (start pos : Nat) :
    segmentsFrom start pos cs = [⟨start, pos + cs.length⟩] := by
  have hskip := segmentsFrom_skip h start pos []
  rwa [List.append_nil] at hskip

section Parameters

variable (p : Procedure) (ht : t.Reads (pre ++ (p.parameters ++ post))) {start stop : Nat}
  (hstart : start = pre.length) (hstop : stop = pre.length + p.parameters.length)
include ht hstart hstop

/-- The parameters declare one record. -/
theorem declaration?_parameters :
    ∃ type : TypeInfo, type.kind = .record ∧
      t.declaration? true ⟨start, stop⟩ = some [(String.ofList p.record.chars, type)] := by
  obtain ⟨type, htype, hkind⟩ := typeOf?_record p.table
  refine ⟨type, hkind, ?_⟩
  have hsplit : p.parameters = (spell "var " ++ p.record.chars) ++ (':' :: (spell " Record " ++
      p.table.chars)) := by
    have hcolon : spell ": Record " = ':' :: spell " Record " := by decide
    simp only [Procedure.parameters, hcolon, List.append_assoc, List.cons_append]
  have hcolon : Cells.findChar? ':' start (ofAscii p.parameters) =
      some (start + (spell "var " ++ p.record.chars).length) := by
    have hfront : ∀ x ∈ ofAscii (spell "var " ++ p.record.chars), x.char ≠ ':' := by
      intro x hx
      have hvar : ∀ x ∈ ofAscii (spell "var "), x.char ≠ ':' := by decide
      rw [Cells.ofAscii_append, List.mem_append] at hx
      exact hx.elim (hvar x) fun hx => p.record.ne_of_mem hx (by decide)
    rw [hsplit, Cells.ofAscii_append, Cells.findChar?_append hfront, Cells.ofAscii_cons,
      Cells.findChar?, if_pos rfl, Cells.length_ofAscii]
  have hnames : t.masked.slice ⟨start, start + (spell "var " ++ p.record.chars).length⟩ =
      ofAscii (spell "var " ++ p.record.chars) := by
    rw [hsplit, List.append_assoc] at ht
    exact slice_masked ht hstart (by rw [hstart])
  have htypes : t.masked.slice ⟨start + (spell "var " ++ p.record.chars).length + 1, stop⟩ =
      ofAscii (spell " Record " ++ p.table.chars) := by
    have ht' : t.Reads ((pre ++ (spell "var " ++ p.record.chars ++ [':'])) ++
        ((spell " Record " ++ p.table.chars) ++ post)) := by
      rw [hsplit] at ht
      simpa using ht
    have hlength : (pre ++ (spell "var " ++ p.record.chars ++ [':'])).length =
        start + (spell "var " ++ p.record.chars).length + 1 := by
      simp only [List.length_append, List.length_cons, List.length_nil, hstart]
      omega
    refine slice_masked ht' hlength.symm ?_
    simp only [hlength, hstop, hsplit, hstart, List.length_append, List.length_cons]
    omega
  rw [Text.declaration?, slice_bare ht hstart hstop, hcolon]
  simp only [hnames, htypes, declaredNames?_var, htype]
  rfl

/-- **The parameters of a procedure are one record.** -/
theorem declarations_parameters :
    ∃ type : TypeInfo, type.kind = .record ∧
      t.declarations ⟨start, stop⟩ true = [(String.ofList p.record.chars, type)] := by
  obtain ⟨type, hkind, hdeclaration⟩ := declaration?_parameters p ht hstart hstop
  refine ⟨type, hkind, ?_⟩
  have hslice := slice_bare ht hstart hstop
  have hsegments : segmentsFrom start start (ofAscii p.parameters) = [⟨start, stop⟩] := by
    have hsemicolon : ∀ x ∈ ofAscii p.parameters, x.char ≠ ';' :=
      p.forall_mem_parameters (fun x hx => Cell.ne_of_isWord hx (by decide)) (by decide)
    rw [segmentsFrom_of_not_mem hsemicolon, Cells.length_ofAscii, hstart, hstop]
  have hblank : Cells.isBlank (ofAscii p.parameters) = false := by
    rw [Procedure.parameters, List.append_assoc, List.append_assoc, Cells.ofAscii_append]
    rfl
  rw [Text.declarations, hslice, hsegments, Text.declarationsIn, hslice, hblank,
    if_neg Bool.false_ne_true, hdeclaration]
  rfl

end Parameters

/-! ### Calls -/

/-- A literal has no blanks and no marks but a sign. -/
theorem Literal.isAsciiWord_or_of_mem {a : Literal} {ch : Char} (h : ch ∈ a.chars) :
    CharClass.isAsciiWord ch = true ∨ ch = '-' := by
  cases a with
  | integer negative digits _ hdigits =>
    rcases List.mem_append.mp h with h | h
    · cases negative with
      | false => cases h
      | true => exact Or.inr (List.mem_singleton.mp h)
    · exact Or.inl (isAsciiWord_of_isAsciiDigit (List.all_eq_true.mp hdigits ch h))
  | boolean cs htruth =>
    exact Or.inl (List.all_eq_true.mp (all_isAsciiWord_of_truth htruth) ch h)

theorem Literal.chars_ne_nil (a : Literal) : a.chars ≠ [] := by
  cases a with
  | integer negative digits hne _ =>
    intro h
    exact hne (List.append_eq_nil_iff.mp h).2
  | boolean cs htruth =>
    rintro rfl
    exact absurd htruth (by decide)

/-- What holds of word characters, signs, commas and blanks holds between the parentheses. -/
theorem forall_mem_spelled {P : Cell → Prop} (hword : ∀ x : Cell, x.isWord = true → P x)
    (hfixed : ∀ x ∈ ofAscii ['-', ',', ' '], P x) (as : List Literal) :
    ∀ x ∈ ofAscii (spelled as), P x := by
  have hliteral : ∀ a : Literal, ∀ x ∈ ofAscii a.chars, P x := by
    intro a x hx
    obtain ⟨ch, hch, rfl⟩ := List.mem_map.mp hx
    rcases a.isAsciiWord_or_of_mem hch with h | rfl
    · exact hword _ (CharClass.isWord_of_isAsciiWord h)
    · exact hfixed _ List.mem_cons_self
  induction as with
  | nil => exact List.forall_mem_nil _
  | cons a as ih =>
    cases as with
    | nil =>
      rw [spelled_singleton]
      exact hliteral a
    | cons b as =>
      intro x hx
      simp only [spelled_cons, Cells.ofAscii_append, List.mem_append] at hx
      rcases hx with hx | hx | hx
      · exact hliteral a x hx
      · exact hfixed x (List.mem_cons_of_mem _ hx)
      · exact ih x hx

/-- The pieces between the commas are as many as the literals. -/
theorem length_piecesFrom (a : Literal) (as : List Literal) (start pos : Nat) :
    (piecesFrom 0 start pos (ofAscii (spelled (a :: as)))).length = as.length + 1 := by
  have hliteral : ∀ a : Literal, ∀ x ∈ ofAscii a.chars, Neutral x := by
    intro a x hx
    obtain ⟨ch, hch, rfl⟩ := List.mem_map.mp hx
    rcases a.isAsciiWord_or_of_mem hch with h | rfl
    · exact neutral_of_isWord (CharClass.isWord_of_isAsciiWord h)
    · unfold Neutral Cells.NoBracket
      decide
  induction as generalizing a start pos with
  | nil =>
    have h := piecesFrom_neutral (hliteral a) 0 start pos []
    rw [List.append_nil] at h
    rw [spelled_singleton, h]
    rfl
  | cons b as ih =>
    have hblank : ∀ x ∈ ofAscii [' '], Neutral x := by
      unfold Neutral Cells.NoBracket
      decide
    rw [spelled_cons, Cells.ofAscii_append, piecesFrom_neutral (hliteral a), Cells.ofAscii_append,
      Cells.ofAscii_cons, List.cons_append, piecesFrom, if_neg (by decide), if_neg (by decide),
      if_pos ⟨rfl, rfl⟩, piecesFrom_neutral hblank, List.length_cons, ih, List.length_cons]

/-- **A call has as many arguments as literals are written.** -/
theorem length_arguments {as : List Literal} (ht : t.Reads (pre ++ (spelled as ++ post)))
    {start stop : Nat} (hstart : start = pre.length)
    (hstop : stop = pre.length + (spelled as).length) :
    (t.arguments ⟨start, stop⟩).length = as.length := by
  rw [Text.arguments, slice_bare ht hstart hstop]
  cases as with
  | nil => rfl
  | cons a as =>
    have hblank : Cells.isBlank (ofAscii (spelled (a :: as))) = false := by
      obtain ⟨ch, cs, hcs⟩ := List.exists_cons_of_ne_nil a.chars_ne_nil
      have hhead : CharClass.isBlank ch = false := by
        rcases a.isAsciiWord_or_of_mem (hcs ▸ List.mem_cons_self) with h | rfl
        · exact CharClass.isBlank_of_isWord (CharClass.isWord_of_isAsciiWord h)
        · decide
      have hsplit : ∃ rest, spelled (a :: as) = ch :: rest := by
        cases as with
        | nil => exact ⟨cs, by rw [spelled_singleton, hcs]⟩
        | cons b as => exact ⟨_, by rw [spelled_cons, hcs]; rfl⟩
      obtain ⟨rest, hrest⟩ := hsplit
      rw [hrest, Cells.ofAscii_cons, Cells.isBlank, List.all_cons, Cell.isBlank, hhead,
        Bool.false_and]
    rw [hblank, if_neg Bool.false_ne_true, List.length_map, length_piecesFrom, List.length_cons]

namespace Statement

variable {v : Identifier} (s : Statement v)

theorem length_front : s.front.length = s.receiver.chars.length + 1 + s.method.chars.length + 1 := by
  simp only [front, List.length_append, List.length_cons, List.length_nil]

/-- The head of the call that is found in a statement at `pos`. -/
def headAt (pos : Nat) : Found CallHead :=
  ⟨⟨pos, pos + s.front.length⟩, ⟨⟨pos, pos + s.receiver.chars.length⟩,
    some ⟨pos + s.receiver.chars.length + 1,
      pos + s.receiver.chars.length + 1 + s.method.chars.length⟩⟩⟩

/-- The call that is found in a statement at `pos`. -/
def callAt (t : Text) (pos : Nat) : Call where
  extent := ⟨pos, pos + s.call.length⟩
  receiver := some ⟨pos, pos + s.receiver.chars.length⟩
  method := String.ofList s.method.chars
  arguments := t.arguments ⟨pos + s.front.length, pos + s.front.length + (spelled s.arguments).length⟩

theorem callOf?_headAt {front rest post : List Char} (before : Option Cell)
    (ht : t.Reads (pre ++ (front ++ (s.call ++ rest) ++ post))) {pos : Nat}
    (hpos : pos = pre.length + front.length) :
    t.callOf? ⟨before, pre.length, ofAscii (front ++ (s.call ++ rest))⟩ (s.headAt pos) =
      some (s.callAt t pos) := by
  have hsplit : ofAscii (front ++ (s.call ++ rest)) =
      ofAscii (front ++ (s.receiver.chars ++ ['.'] ++ s.method.chars)) ++ (⟨'(', true⟩ ::
        (ofAscii (spelled s.arguments) ++ (⟨')', true⟩ :: ofAscii rest))) := by
    rw [Statement.call, Statement.front]
    simp
  have hname : t.name ⟨pos + s.receiver.chars.length + 1,
      pos + s.receiver.chars.length + 1 + s.method.chars.length⟩ = String.ofList s.method.chars := by
    have ht' : t.Reads ((pre ++ front ++ s.receiver.chars ++ ['.']) ++ (s.method.chars ++
        (['('] ++ (spelled s.arguments ++ ([')'] ++ (rest ++ post)))))) := by
      rw [Statement.call, Statement.front] at ht
      simpa using ht
    refine name_text ht' ?_ ?_
    · simp only [hpos, List.length_append, List.length_cons, List.length_nil]
    · simp only [hpos, List.length_append, List.length_cons, List.length_nil]
  have hbracket : ∀ x ∈ ofAscii (spelled s.arguments), Cells.NoBracket x := by
    refine forall_mem_spelled (fun x hx => (neutral_of_isWord hx).1) ?_ _
    unfold Cells.NoBracket
    decide
  have hopening : pos + s.front.length - 1 = pre.length +
      (ofAscii (front ++ (s.receiver.chars ++ ['.'] ++ s.method.chars))).length := by
    simp only [hpos, length_front, Cells.length_ofAscii, List.length_append, List.length_cons,
      List.length_nil]
    omega
  have hclose := @closingParen?_append (Cells.lastOr before (ofAscii (front ++ (s.receiver.chars ++
    ['.'] ++ s.method.chars)))) (pos + s.front.length - 1) _
    (Cells.balanced_of_noBracket hbracket) (ofAscii rest)
  have hlength : pos + s.front.length - 1 + 1 = pos + s.front.length := by
    rw [length_front]
    omega
  have hstop : pos + s.front.length + (spelled s.arguments).length + 1 = pos + s.call.length := by
    rw [Statement.call]
    simp only [List.length_append, List.length_cons, List.length_nil]
    omega
  rw [Text.callOf?]
  simp only [headAt, hname, Option.isNone_some, Bool.false_and, Bool.false_eq_true, if_false]
  rw [hsplit, Cursor.moveTo_append before pre.length _ _ hopening, hclose, Option.map_some, hlength,
    Cells.length_ofAscii, hstop]
  rfl

end Statement

section Block

variable {v : Identifier}

theorem lines_cons (s : Statement v) (ss : List (Statement v)) :
    lines (s :: ss) = s.call ++ ([';', '\n'] ++ lines ss) := by
  rw [lines, List.flatMap_cons, List.append_assoc]
  rfl

/-- The heads of calls that are found in statements of which the first is at `pos`. -/
def headsFrom : Nat → List (Statement v) → List (Found CallHead)
  | _, [] => []
  | pos, s :: ss => s.headAt pos :: headsFrom (pos + s.call.length + 2) ss

/-- The calls of statements of which the first is at `pos`. -/
def callsFrom (t : Text) : Nat → List (Statement v) → List Call
  | _, [] => []
  | pos, s :: ss => s.callAt t pos :: callsFrom t (pos + s.call.length + 2) ss

theorem allFrom_end {before : Option Cell} (hbefore : before.any Cell.isWord = false) (pos : Nat) :
    callHead.allFrom 0 before pos (ofAscii (spell "end")) = [] := by
  have hnone := @callHead_eq_none (spell "end") (by decide) (by decide) before hbefore pos [] []
    nofun rfl rfl
  have h := Pattern.allFrom_word onWords_callHead (by decide) (by decide) hnone
  rw [List.append_nil, List.append_nil] at h
  rw [h, Pattern.allFrom]

/-- **Each statement has one head of a call.** -/
theorem allFrom_lines (ss : List (Statement v)) {before : Option Cell}
    (hbefore : before.any Cell.isWord = false) (pos : Nat) :
    callHead.allFrom 0 before pos (ofAscii (lines ss ++ spell "end")) = headsFrom pos ss := by
  induction ss generalizing before pos with
  | nil => exact allFrom_end hbefore pos
  | cons s ss ih =>
    have hsplit : ofAscii (lines (s :: ss) ++ spell "end") = ofAscii s.front ++
        (ofAscii ((argumentRuns s.arguments).flatMap WordRun.chars) ++
          ofAscii (lines ss ++ spell "end")) := by
      rw [lines_cons, Statement.call, chars_argumentRuns]
      simp only [Cells.ofAscii_append, List.append_assoc, Cells.ofAscii_cons, Cells.ofAscii_nil,
        List.cons_append, List.nil_append]
    have hmatch := callHead_statement s hbefore pos
      (ofAscii ((argumentRuns s.arguments).flatMap WordRun.chars) ++ ofAscii (lines ss ++ spell "end"))
    have hne : ofAscii s.front ≠ [] := by
      simp [Statement.front, ofAscii]
    have hpasses : ∀ r ∈ argumentRuns s.arguments, callHead.Passes r :=
      fun r hr => (mem_argumentRuns hr).2
    have hparen : (lastOr before (ofAscii s.front)).any Cell.isWord = false := by
      rw [Statement.front, Cells.ofAscii_append, Cells.lastOr_append]
      rfl
    have hnext : pos + (ofAscii s.front).length +
        ((argumentRuns s.arguments).flatMap WordRun.chars).length = pos + s.call.length + 2 := by
      rw [chars_argumentRuns, Statement.call, Cells.length_ofAscii]
      simp only [List.length_append, List.length_cons, List.length_nil]
      omega
    have hlength : pos + s.receiver.chars.length + 1 + s.method.chars.length + 1 =
        pos + (ofAscii s.front).length := by
      rw [Cells.length_ofAscii, s.length_front]
      omega
    rw [hsplit, Pattern.allFrom_match hmatch hlength hne,
      Pattern.allFrom_runs onWords_callHead hpasses hparen, hnext,
      ih (not_isWord_lastOr_runs hparen _), Cells.length_ofAscii]
    rfl

theorem filterMap_headsFrom {front post : List Char} (ss : List (Statement v))
    (before : Option Cell)
    (ht : t.Reads (pre ++ (front ++ (lines ss ++ spell "end") ++ post))) {pos : Nat}
    (hpos : pos = pre.length + front.length) :
    (headsFrom pos ss).filterMap
        (t.callOf? ⟨before, pre.length, ofAscii (front ++ (lines ss ++ spell "end"))⟩) =
      callsFrom t pos ss := by
  induction ss generalizing front pos with
  | nil => rfl
  | cons s ss ih =>
    have hcall : front ++ (lines (s :: ss) ++ spell "end") =
        front ++ (s.call ++ ([';', '\n'] ++ lines ss ++ spell "end")) := by
      rw [lines_cons]
      simp only [List.append_assoc]
    have hrest : front ++ (lines (s :: ss) ++ spell "end") =
        (front ++ (s.call ++ [';', '\n'])) ++ (lines ss ++ spell "end") := by
      rw [lines_cons]
      simp only [List.append_assoc]
    have hnext : pos + s.call.length + 2 = pre.length + (front ++ (s.call ++ [';', '\n'])).length := by
      simp only [hpos, List.length_append, List.length_cons, List.length_nil]
      omega
    have hfirst := s.callOf?_headAt before (hcall ▸ ht) hpos
    have hlater := ih (hrest ▸ ht) hnext
    rw [← hcall] at hfirst
    rw [← hrest] at hlater
    rw [headsFrom, List.filterMap_cons, hfirst, hlater]
    rfl

theorem body_eq (p : Procedure) :
    p.body = (spell "begin" ++ ['\n']) ++ (lines p.statements ++ spell "end") := by
  rw [Procedure.body]
  simp only [List.append_assoc, List.cons_append, List.nil_append]

/-- Behind `begin` comes a name, and past the line feed neither a dot nor a parenthesis. -/
theorem head?_lines (ss : List (Statement v)) :
    (ofAscii (lines ss ++ spell "end")).head?.any
      (fun x => x.isBlank || x.char == '.' || x.char == '(') = false := by
  have hword : ∀ x : Cell, x.isWord = true →
      (x.isBlank || x.char == '.' || x.char == '(') = false := by
    intro x hx
    have hmark : ∀ ch ∈ ['.', '('], x.char ≠ ch := by
      have hmarks : ∀ ch ∈ ['.', '('], CharClass.isWord ch = false := by decide
      exact fun ch hch => Cell.ne_of_isWord hx (hmarks ch hch)
    simpa [not_isBlank_of_isWord x hx] using hmark
  cases ss with
  | nil => rfl
  | cons s ss =>
    simp only [lines_cons, Statement.call, Statement.front, Cells.ofAscii_append, List.append_assoc]
    exact s.receiver.head?_append _ hword

theorem all_body (p : Procedure) (start : Nat) :
    callHead.all ⟨none, start, ofAscii p.body⟩ = headsFrom (start + 6) p.statements := by
  have hnone := @callHead_eq_none (spell "begin") (by decide) (by decide) none rfl start
    (ofAscii ['\n']) (ofAscii (lines p.statements ++ spell "end")) (by decide)
    (head?_lines p.statements) rfl
  have hfeed : ∀ x ∈ ofAscii ['\n'], x.isWord = false ∧ x.char ≠ '"' := by decide
  rw [Pattern.all, body_eq, Cells.ofAscii_append, Cells.ofAscii_append, List.append_assoc,
    Pattern.allFrom_word onWords_callHead (by decide) (by decide) hnone,
    Pattern.allFrom_gap onWords_callHead hfeed]
  exact allFrom_lines p.statements rfl _

end Block

/-- **The calls of a body are its statements.** -/
theorem calls_body (p : Procedure) (ht : t.Reads (pre ++ (p.body ++ post))) {start stop : Nat}
    (hstart : start = pre.length) (hstop : stop = pre.length + p.body.length) :
    t.calls ⟨start, stop⟩ = callsFrom t (start + 6) p.statements := by
  have hslice : Cursor.ofSlice t.bare ⟨start, stop⟩ = ⟨none, start, ofAscii p.body⟩ := by
    rw [Cursor.ofSlice, slice_bare ht hstart hstop]
  have hnext : start + 6 = pre.length + (spell "begin" ++ ['\n']).length := by
    rw [hstart]
    rfl
  have hread : t.Reads (pre ++ ((spell "begin" ++ ['\n']) ++ (lines p.statements ++ spell "end") ++
      post)) := body_eq p ▸ ht
  have hcalls := filterMap_headsFrom p.statements none hread hnext
  rw [← body_eq, ← hstart] at hcalls
  rw [Text.calls, hslice, all_body]
  exact hcalls

end Program
end TreeLint
