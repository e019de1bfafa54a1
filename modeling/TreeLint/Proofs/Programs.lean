/-
# Codeunits written one construct per line

A small family of programs of any length: a codeunit with procedures that each
take one record and call methods on it with literals. Names are any ASCII
identifiers that are no reserved words; what a name must satisfy is part of its
type. A program is written out as a list of pieces, some of which are marked, so
that the places of the marked pieces are those of the text (`Program.marksFrom`).

Its blanked copies differ from the text in the reason of the obsolete attributes
only, and both are the same program with a blank for a reason (`reads_source`).

Key definitions: `Program.Identifier`, `Program.Literal`, `Program.Statement`,
`Program.Procedure`, `Program.Codeunit`, `Program.Codeunit.pieces`,
`Program.marksFrom`, `Source.Text.Reads`.
Key theorems: `Program.Codeunit.reads_source`, `Program.Statement.chars_runs`.
-/
import Mathlib.Data.List.Basic
import TreeLint.Proofs.GuardedScan
import TreeLint.Proofs.Names
import TreeLint.Proofs.Words

namespace TreeLint
namespace Program

open Cells (ofAscii)

/-! ### Programs -/

/-- The words that no name is, in any case. -/
def reserved : List String :=
  ["begin", "case", "end", "var", "procedure", "trigger", "local", "internal", "protected"]

/-- The characters of a fixed text. -/
def spell (s : String) : List Char := s.toList

/-- Characters in lower case. -/
def lowered (cs : List Char) : String := String.ofList (cs.map CharClass.lower)

/-- An ASCII identifier that is no reserved word. -/
structure Identifier where
  chars : List Char
  all_word : chars.all CharClass.isAsciiWord = true
  first_letter : (chars.head?.any fun c => CharClass.isAsciiLetter c || c == '_') = true
  not_reserved : lowered chars ∉ reserved

/-- An integer, with or without a sign, or a truth value in any case. -/
inductive Literal where
  | integer (negative : Bool) (digits : List Char) (digits_ne : digits ≠ [])
      (all_digits : digits.all CharClass.isAsciiDigit = true)
  | boolean (chars : List Char) (truth : lowered chars ∈ ["true", "false"])

/-- The characters of a literal. -/
def Literal.chars : Literal → List Char
  | .integer negative digits _ _ => (if negative then ['-'] else []) ++ digits
  | .boolean chars _ => chars

/-- A call of a method on a record, whose name may be written in another case. -/
structure Statement (record : Identifier) where
  receiver : Identifier
  same : lowered receiver.chars = lowered record.chars
  method : Identifier
  arguments : List Literal

/-- A procedure with one record as its parameter. -/
structure Procedure where
  obsolete : Bool
  name : Identifier
  record : Identifier
  table : Identifier
  statements : List (Statement record)

/-- A codeunit; the last line may be ended or not. -/
structure Codeunit where
  name : Identifier
  procedures : List Procedure
  ended : Bool

/-! ### Writing them out -/

/-- A piece of text, marked or not. -/
structure Piece where
  chars : List Char
  marked : Bool

/-- A line that is not marked. -/
def Piece.line (chars : List Char) : Piece := ⟨chars ++ ['\n'], false⟩

/-- The text of a list of pieces. -/
def text (ps : List Piece) : List Char := ps.flatMap (·.chars)

/-- Where the marked pieces stand, when the first piece stands at `pos`. -/
def marksFrom (pos : Nat) : List Piece → List Extent
  | [] => []
  | p :: ps =>
    (if p.marked then [⟨pos, pos + p.chars.length⟩] else []) ++ marksFrom (pos + p.chars.length) ps

/-- Literals with commas between them. -/
def spelled (as : List Literal) : List Char := [',', ' '].intercalate (as.map Literal.chars)

namespace Statement

variable {v : Identifier} (s : Statement v)

/-- The call up to its arguments. -/
def front : List Char := s.receiver.chars ++ ['.'] ++ s.method.chars ++ ['(']

/-- The call: `X.M(a1, ..., ak)`. -/
def call : List Char := s.front ++ (spelled s.arguments ++ [')'])

/-- Whether the call changes records and leaves open whether triggers run: the method, up to case,
and the number of its arguments. -/
def leavesOpen : Bool :=
  ["insert", "modify", "delete", "deleteall"].contains (lowered s.method.chars) &&
      s.arguments.length == 0 ||
    lowered s.method.chars == "modifyall" && s.arguments.length ≤ 2

/-- The statement on a line of its own; the call is marked where it is to be reported. -/
def pieces (obsolete : Bool) : List Piece :=
  [⟨s.call, !obsolete && s.leavesOpen⟩, .line [';']]

end Statement

namespace Procedure

variable (p : Procedure)

/-- The attribute of an obsolete procedure, on a line of its own and with a reason of one
character. -/
def attributePieces (reason : Char) : List Piece :=
  if p.obsolete then [.line (spell "[Obsolete(" ++ ['\'', reason, '\'', ')', ']'])] else []

/-- The header up to the parameters. -/
def header : List Char := spell "procedure " ++ p.name.chars ++ ['(']

/-- The parameters: `var V: Record T`. -/
def parameters : List Char :=
  spell "var " ++ p.record.chars ++ spell ": Record " ++ p.table.chars

/-- The lines of a procedure. -/
def pieces (reason : Char) : List Piece :=
  p.attributePieces reason ++
    [.line (p.header ++ p.parameters ++ [')']), .line (spell "begin")] ++
    p.statements.flatMap (fun s => s.pieces p.obsolete) ++ [.line (spell "end" ++ [';'])]

end Procedure

/-- The header of a codeunit. -/
def Codeunit.header (c : Codeunit) : List Char := spell "codeunit 50100 " ++ c.name.chars

/-- The lines of a codeunit. -/
def Codeunit.pieces (reason : Char) (c : Codeunit) : List Piece :=
  [.line c.header, .line ['\x7b']] ++
    c.procedures.flatMap (fun p => p.pieces reason) ++
    [⟨'\x7d' :: (if c.ended then ['\n'] else []), false⟩]

/-- The source text of a codeunit, whose obsolete procedures are so for the reason `x`. -/
def Codeunit.source (c : Codeunit) : String := String.ofList (text (c.pieces 'x'))

/-! ### Their parts -/

@[simp] theorem text_nil : text [] = [] := rfl

@[simp] theorem text_cons (p : Piece) (ps : List Piece) : text (p :: ps) = p.chars ++ text ps := rfl

@[simp] theorem text_append (ps qs : List Piece) : text (ps ++ qs) = text ps ++ text qs :=
  List.flatMap_append

theorem text_flatMap {α : Type} (f : α → List Piece) (as : List α) :
    text (as.flatMap f) = as.flatMap fun a => text (f a) :=
  List.flatMap_assoc

theorem marksFrom_append (pos : Nat) (ps qs : List Piece) :
    marksFrom pos (ps ++ qs) = marksFrom pos ps ++ marksFrom (pos + (text ps).length) qs := by
  induction ps generalizing pos with
  | nil => rfl
  | cons p ps ih =>
    rw [List.cons_append, marksFrom, marksFrom, ih, List.append_assoc, text_cons, List.length_append,
      Nat.add_assoc]

/-- The text of statements, each on its line. -/
def lines {v : Identifier} (ss : List (Statement v)) : List Char :=
  ss.flatMap fun s => s.call ++ [';', '\n']

@[simp] theorem marksFrom_line (pos : Nat) (cs : List Char) (ps : List Piece) :
    marksFrom pos (.line cs :: ps) = marksFrom (pos + (cs.length + 1)) ps := by
  rw [Piece.line, marksFrom, List.length_append]
  rfl

namespace Procedure

variable (p : Procedure)

/-- The body, from `begin` to `end`. -/
def body : List Char := spell "begin" ++ ('\n' :: (lines p.statements ++ spell "end"))

theorem text_attributePieces (h : p.obsolete = true) (reason : Char) :
    text (p.attributePieces reason) =
      spell "[Obsolete(" ++ ['\'', reason, '\'', ')', ']', '\n'] := by
  rw [attributePieces, if_pos h]
  simp [Piece.line]

theorem text_attributePieces_of_not (h : p.obsolete = false) (reason : Char) :
    text (p.attributePieces reason) = [] := by
  rw [attributePieces, h]
  rfl

theorem text_pieces (reason : Char) :
    text (p.pieces reason) = text (p.attributePieces reason) ++ (p.header ++ (p.parameters ++
      ([')', '\n'] ++ (p.body ++ [';', '\n'])))) := by
  simp only [pieces, Piece.line, text_append, text_cons, text_nil, text_flatMap, Statement.pieces,
    body, lines, List.append_assoc, List.cons_append, List.nil_append, List.append_nil]

end Procedure

namespace Codeunit

variable (c : Codeunit)

/-- What is between the braces. -/
def members (reason : Char) : List Char :=
  '\n' :: c.procedures.flatMap fun p => text (p.pieces reason)

/-- What comes behind the closing brace. -/
def ending : List Char := if c.ended then ['\n'] else []

theorem text_pieces (reason : Char) :
    text (c.pieces reason) =
      c.header ++ ('\n' :: '\x7b' :: (c.members reason ++ ('\x7d' :: c.ending))) := by
  simp only [pieces, members, ending, Piece.line, text_append, text_cons, text_nil,
    text_flatMap, List.append_assoc, List.cons_append, List.nil_append, List.append_nil]

end Codeunit

/-! ### Their words -/

theorem isAsciiLetter_of_lower {c : Char} (h : CharClass.isAsciiLetter (CharClass.lower c) = true) :
    CharClass.isAsciiLetter c = true := by
  rcases CharClass.lower_cases c with heq | ⟨hle, -⟩
  · rwa [heq] at h
  · have hupper : 'A' ≤ c ∧ c ≤ 'Z' := hle
    simp [CharClass.isAsciiLetter, hupper]

theorem isAsciiWord_of_isAsciiLetter {c : Char} (h : CharClass.isAsciiLetter c = true) :
    CharClass.isAsciiWord c = true := by
  rw [CharClass.isAsciiWord, h, Bool.true_or, Bool.true_or]

theorem isAsciiWord_of_isAsciiDigit {c : Char} (h : CharClass.isAsciiDigit c = true) :
    CharClass.isAsciiWord c = true := by
  rw [CharClass.isAsciiWord, h, Bool.or_true, Bool.true_or]

theorem lower_of_isAsciiDigit {c : Char} (h : CharClass.isAsciiDigit c = true) :
    CharClass.lower c = c := by
  rcases CharClass.lower_cases c with heq | ⟨hle, -⟩
  · exact heq
  · simp only [CharClass.isAsciiDigit, Bool.and_eq_true, decide_eq_true_eq, Char.le_def,
      UInt32.le_iff_toNat_le] at h
    have h9 : ('9' : Char).val.toNat = 57 := rfl
    simp only [Char.toNat] at hle
    omega

theorem all_isAsciiWord_of_truth {cs : List Char} (h : lowered cs ∈ ["true", "false"]) :
    cs.all CharClass.isAsciiWord = true := by
  have hletters : ∀ w ∈ ["true", "false"], w.toList.all CharClass.isAsciiLetter = true := by decide
  have hlower := hletters _ h
  rw [lowered, String.toList_ofList, List.all_map] at hlower
  exact List.all_eq_true.mpr fun c hc =>
    isAsciiWord_of_isAsciiLetter (isAsciiLetter_of_lower (List.all_eq_true.mp hlower c hc))

/-- A run that no search stops at: its word is not reserved, and it is no object keyword with
blanks behind it. -/
def Silent (r : WordRun) : Prop :=
  lowered r.word ∉ reserved ∧
    (lowered r.word ∈ Source.objectKeywords → r.gap.head?.any CharClass.isBlank = false)

theorem Silent.passes_objectHeader {r : WordRun} (h : Silent r) : Source.objectHeader.Passes r :=
  Source.passes_objectHeader h.2

theorem Silent.passes_routineHeader {r : WordRun} (h : Silent r) : Source.routineHeader.Passes r := by
  have hsub : ∀ w ∈ Source.routineWords, w ∈ reserved := by decide
  exact Source.passes_routineHeader fun hw => h.1 (hsub _ hw)

theorem Silent.passes_blockToken {r : WordRun} (h : Silent r) : Source.blockToken.Passes r := by
  have hsub : ∀ w ∈ ["begin", "case", "end"], w ∈ reserved := by decide
  exact Source.passes_blockToken fun hw => h.1 (hsub _ hw)

/-- A name and what stands behind it. -/
def Identifier.run (i : Identifier) (gap : List Char) (hne : gap ≠ [])
    (hall : gap.all (fun c => !CharClass.isWord c && c != '"') = true) : WordRun :=
  ⟨i.chars, gap, i.all_word, hne, hall⟩

theorem Identifier.silent_run (i : Identifier) {gap : List Char} {hne : gap ≠ []}
    {hall : gap.all (fun c => !CharClass.isWord c && c != '"') = true}
    (h : gap.head?.any CharClass.isBlank = false) : Silent (i.run gap hne hall) :=
  ⟨i.not_reserved, fun _ => h⟩

namespace Literal

/-- A literal and what stands behind it; the sign is apart. -/
def runs (gap : List Char) (hne : gap ≠ [])
    (hall : gap.all (fun c => !CharClass.isWord c && c != '"') = true) : Literal → List WordRun
  | .integer negative digits _ h =>
    (if negative then [⟨[], ['-'], rfl, by decide, by decide⟩] else []) ++
      [⟨digits, gap, List.all_eq_true.mpr fun c hc =>
        isAsciiWord_of_isAsciiDigit (List.all_eq_true.mp h c hc), hne, hall⟩]
  | .boolean chars h => [⟨chars, gap, all_isAsciiWord_of_truth h, hne, hall⟩]

variable {gap : List Char} {hne : gap ≠ []}
  {hall : gap.all (fun c => !CharClass.isWord c && c != '"') = true}

theorem chars_runs (a : Literal) : (a.runs gap hne hall).flatMap WordRun.chars = a.chars ++ gap := by
  cases a with
  | integer negative digits _ _ => cases negative <;> simp [runs, chars, WordRun.chars]
  | boolean cs _ => simp [runs, chars, WordRun.chars]

/-- The words of a literal are digits or truth values. -/
theorem lowered_of_mem_runs {a : Literal} {r : WordRun} (hr : r ∈ a.runs gap hne hall) :
    (r.word.all CharClass.isAsciiDigit = true ∨ lowered r.word ∈ ["true", "false"]) ∧
      (r.gap = gap ∨ r.gap = ['-'] ∧ r.word = []) := by
  cases a with
  | integer negative digits _ h =>
    rcases List.mem_append.mp hr with hr | hr
    · cases negative with
      | false => cases hr
      | true =>
        rw [List.mem_singleton.mp hr]
        exact ⟨Or.inl rfl, Or.inr ⟨rfl, rfl⟩⟩
    · rw [List.mem_singleton.mp hr]
      exact ⟨Or.inl h, Or.inl rfl⟩
  | boolean cs h =>
    rw [List.mem_singleton.mp hr]
    exact ⟨Or.inr h, Or.inl rfl⟩

end Literal

/-- Digits are no reserved word, and neither are truth values. -/
theorem not_reserved_of_literal {w : List Char}
    (h : w.all CharClass.isAsciiDigit = true ∨ lowered w ∈ ["true", "false"]) :
    lowered w ∉ reserved := by
  rcases h with h | h
  · have hreserved : ∀ k ∈ reserved, (k.toList.any fun c => !CharClass.isAsciiDigit c) = true := by
      decide
    intro hw
    obtain ⟨c, hc, hdigit⟩ := List.any_eq_true.mp (hreserved _ hw)
    rw [lowered, String.toList_ofList] at hc
    obtain ⟨d, hd, rfl⟩ := List.mem_map.mp hc
    rw [lower_of_isAsciiDigit (List.all_eq_true.mp h d hd), List.all_eq_true.mp h d hd] at hdigit
    cases hdigit
  · revert h
    generalize lowered w = k
    revert k
    decide

theorem silent_of_mem_runs {a : Literal} {gap : List Char} {hne : gap ≠ []}
    {hall : gap.all (fun c => !CharClass.isWord c && c != '"') = true}
    (hgap : gap.head?.any CharClass.isBlank = false) {r : WordRun} (hr : r ∈ a.runs gap hne hall) :
    Silent r := by
  obtain ⟨hword, hgaps⟩ := Literal.lowered_of_mem_runs hr
  refine ⟨not_reserved_of_literal hword, fun _ => ?_⟩
  rcases hgaps with hgaps | ⟨hgaps, -⟩
  · rw [hgaps, hgap]
  · rw [hgaps]
    decide

/-- The arguments of a call and the end of its line. -/
def argumentRuns : List Literal → List WordRun
  | [] => [⟨[], [')', ';', '\n'], rfl, by decide, by decide⟩]
  | [a] => a.runs [')', ';', '\n'] (by decide) (by decide)
  | a :: b :: as => a.runs [',', ' '] (by decide) (by decide) ++ argumentRuns (b :: as)

theorem spelled_singleton (a : Literal) : spelled [a] = a.chars := by
  simp [spelled, List.intercalate]

theorem spelled_cons (a b : Literal) (as : List Literal) :
    spelled (a :: b :: as) = a.chars ++ ([',', ' '] ++ spelled (b :: as)) := by
  simp [spelled, List.intercalate]

theorem chars_argumentRuns (as : List Literal) :
    (argumentRuns as).flatMap WordRun.chars = spelled as ++ [')', ';', '\n'] := by
  induction as with
  | nil => rfl
  | cons a as ih =>
    cases as with
    | nil =>
      rw [spelled_singleton]
      exact a.chars_runs
    | cons b as =>
      rw [argumentRuns, List.flatMap_append, a.chars_runs, ih, spelled_cons]
      simp only [List.append_assoc]

/-- A literal is no name that a dot or a parenthesis follows. -/
theorem mem_argumentRuns {as : List Literal} {r : WordRun} (hr : r ∈ argumentRuns as) :
    Silent r ∧ Source.callHead.Passes r := by
  have hpasses : ∀ {gap : List Char} {hne : gap ≠ []}
      {hall : gap.all (fun c => !CharClass.isWord c && c != '"') = true} {a : Literal},
      gap.head?.any (fun c => CharClass.isBlank c || c == '.' || c == '(') = false →
        r ∈ a.runs gap hne hall → Source.callHead.Passes r := by
    intro gap hne hall a hgap hr
    refine Source.passes_callHead fun hne => ?_
    rcases (Literal.lowered_of_mem_runs hr).2 with hgaps | ⟨-, hnil⟩
    · rw [hgaps, hgap]
    · exact absurd hnil hne
  induction as with
  | nil =>
    rw [List.mem_singleton.mp hr]
    exact ⟨⟨by decide, by decide⟩, Source.passes_callHead (by decide)⟩
  | cons a as ih =>
    cases as with
    | nil => exact ⟨silent_of_mem_runs (by decide) hr, hpasses (by decide) hr⟩
    | cons b as =>
      rcases List.mem_append.mp hr with hr | hr
      · exact ⟨silent_of_mem_runs (by decide) hr, hpasses (by decide) hr⟩
      · exact ih hr

/-- The words of a statement. -/
def Statement.runs {v : Identifier} (s : Statement v) : List WordRun :=
  s.receiver.run ['.'] (by decide) (by decide) :: s.method.run ['('] (by decide) (by decide) ::
    argumentRuns s.arguments

theorem Statement.chars_runs {v : Identifier} (s : Statement v) :
    s.runs.flatMap WordRun.chars = s.call ++ [';', '\n'] := by
  rw [runs, List.flatMap_cons, List.flatMap_cons, chars_argumentRuns, call, front]
  simp only [WordRun.chars, Identifier.run, List.append_assoc, List.cons_append, List.nil_append]

theorem Statement.silent_of_mem_runs {v : Identifier} {s : Statement v} {r : WordRun}
    (hr : r ∈ s.runs) : Silent r := by
  rcases List.mem_cons.mp hr with rfl | hr
  · exact s.receiver.silent_run (by decide)
  · rcases List.mem_cons.mp hr with rfl | hr
    · exact s.method.silent_run (by decide)
    · exact (mem_argumentRuns hr).1

namespace Procedure

variable (p : Procedure)

/-- The words of the attribute line, whose reason is blank. -/
def attributeRuns : List WordRun :=
  if p.obsolete then
    [⟨[], ['['], rfl, by decide, by decide⟩,
     ⟨spell "Obsolete", ['(', '\'', ' ', '\'', ')', ']', '\n'], by decide, by decide, by decide⟩]
  else []

/-- The words of the header. -/
def headerRuns : List WordRun :=
  [⟨spell "procedure", [' '], by decide, by decide, by decide⟩,
    p.name.run ['('] (by decide) (by decide)]

/-- The words of the parameters and the end of their line. -/
def parameterRuns : List WordRun :=
  [⟨spell "var", [' '], by decide, by decide, by decide⟩,
    p.record.run [':', ' '] (by decide) (by decide),
    ⟨spell "Record", [' '], by decide, by decide, by decide⟩,
    p.table.run [')', '\n'] (by decide) (by decide)]

/-- The words of the body and the end of its last line. -/
def bodyRuns : List WordRun :=
  ⟨spell "begin", ['\n'], by decide, by decide, by decide⟩ ::
    (p.statements.flatMap Statement.runs ++
      [⟨spell "end", [';', '\n'], by decide, by decide, by decide⟩])

theorem chars_attributeRuns :
    p.attributeRuns.flatMap WordRun.chars = text (p.attributePieces ' ') := by
  rw [attributeRuns, attributePieces]
  cases p.obsolete <;> decide

theorem chars_headerRuns : p.headerRuns.flatMap WordRun.chars = p.header := by
  have hword : spell "procedure " = spell "procedure" ++ [' '] := by decide
  simp only [headerRuns, header, hword, List.flatMap_cons, List.flatMap_nil, WordRun.chars,
    Identifier.run, List.append_assoc, List.append_nil, List.cons_append, List.nil_append]

theorem chars_parameterRuns :
    p.parameterRuns.flatMap WordRun.chars = p.parameters ++ [')', '\n'] := by
  have hvar : spell "var " = spell "var" ++ [' '] := by decide
  have hrecord : spell ": Record " = [':', ' '] ++ (spell "Record" ++ [' ']) := by decide
  simp only [parameterRuns, parameters, hvar, hrecord, List.flatMap_cons, List.flatMap_nil,
    WordRun.chars, Identifier.run, List.append_assoc, List.append_nil, List.cons_append,
    List.nil_append]

theorem chars_blockRuns :
    (p.statements.flatMap Statement.runs).flatMap WordRun.chars = lines p.statements := by
  rw [List.flatMap_assoc, lines]
  exact List.flatMap_congr fun s _ => s.chars_runs

theorem chars_bodyRuns : p.bodyRuns.flatMap WordRun.chars = p.body ++ [';', '\n'] := by
  rw [bodyRuns, List.flatMap_cons, List.flatMap_append, chars_blockRuns]
  simp only [body, List.flatMap_cons, List.flatMap_nil, WordRun.chars, List.append_assoc,
    List.append_nil, List.cons_append, List.nil_append]

/-- The words of a procedure, one after the other. -/
theorem chars_runs : (p.attributeRuns ++ p.headerRuns ++ p.parameterRuns ++ p.bodyRuns).flatMap
    WordRun.chars = text (p.pieces ' ') := by
  simp only [List.flatMap_append, chars_attributeRuns, chars_headerRuns, chars_parameterRuns,
    chars_bodyRuns, text_pieces, List.append_assoc]

theorem silent_of_mem_attributeRuns {r : WordRun} (hr : r ∈ p.attributeRuns) : Silent r := by
  rw [attributeRuns] at hr
  split at hr
  · rcases List.mem_pair.mp hr with rfl | rfl
    · exact ⟨by decide, by decide⟩
    · exact ⟨by decide, by decide⟩
  · cases hr

theorem silent_of_mem_blockRuns {r : WordRun} (hr : r ∈ p.statements.flatMap Statement.runs) :
    Silent r := by
  obtain ⟨s, -, hr⟩ := List.mem_flatMap.mp hr
  exact s.silent_of_mem_runs hr

/-- No header of an object starts in a procedure. -/
theorem passes_objectHeader {r : WordRun}
    (hr : r ∈ p.attributeRuns ++ p.headerRuns ++ p.parameterRuns ++ p.bodyRuns) :
    Source.objectHeader.Passes r := by
  have hfixed : ∀ {word gap : List Char} {hword hne hall}, lowered word ∉ Source.objectKeywords →
      Source.objectHeader.Passes ⟨word, gap, hword, hne, hall⟩ :=
    fun h => Source.passes_objectHeader fun hw => absurd hw h
  simp only [List.mem_append, headerRuns, parameterRuns, bodyRuns, List.mem_cons, List.not_mem_nil,
    or_false] at hr
  rcases hr with ((hr | rfl | rfl) | rfl | rfl | rfl | rfl) | rfl | hr | rfl
  · exact (p.silent_of_mem_attributeRuns hr).passes_objectHeader
  · exact hfixed (by decide)
  · exact (p.name.silent_run (by decide)).passes_objectHeader
  · exact hfixed (by decide)
  · exact (p.record.silent_run (by decide)).passes_objectHeader
  · exact hfixed (by decide)
  · exact (p.table.silent_run (by decide)).passes_objectHeader
  · exact hfixed (by decide)
  · exact (p.silent_of_mem_blockRuns hr).passes_objectHeader
  · exact hfixed (by decide)

/-- Behind the header of a routine no other one starts in it. -/
theorem passes_routineHeader {r : WordRun} (hr : r ∈ p.parameterRuns ++ p.bodyRuns) :
    Source.routineHeader.Passes r := by
  simp only [List.mem_append, parameterRuns, bodyRuns, List.mem_cons, List.not_mem_nil,
    or_false] at hr
  rcases hr with (rfl | rfl | rfl | rfl) | rfl | hr | rfl
  · exact Source.passes_routineHeader (by decide)
  · exact (p.record.silent_run (by decide)).passes_routineHeader
  · exact Source.passes_routineHeader (by decide)
  · exact (p.table.silent_run (by decide)).passes_routineHeader
  · exact Source.passes_routineHeader (by decide)
  · exact (p.silent_of_mem_blockRuns hr).passes_routineHeader
  · exact Source.passes_routineHeader (by decide)

end Procedure

namespace Codeunit

variable (c : Codeunit)

/-- The words of the procedures, behind the line feed after the opening brace. -/
def runs : List WordRun :=
  ⟨[], ['\n'], rfl, by decide, by decide⟩ ::
    c.procedures.flatMap fun p => p.attributeRuns ++ p.headerRuns ++ p.parameterRuns ++ p.bodyRuns

theorem chars_runs : c.runs.flatMap WordRun.chars = c.members ' ' := by
  rw [runs, List.flatMap_cons, List.flatMap_assoc, members]
  exact congrArg _ (List.flatMap_congr fun p _ => p.chars_runs)

end Codeunit

/-! ### Their blanked copies -/

/-- A character that neither opens a comment, a string, a quoted name or braces, nor assigns, nor
starts a directive. -/
def isTame (c : Char) : Bool :=
  CharClass.isAsciiWord c || [' ', '\n', '.', ',', '(', ')', '[', ']', ':', ';', '-'].contains c

theorem isTame_of_isAsciiWord {c : Char} (h : CharClass.isAsciiWord c = true) : isTame c = true := by
  rw [isTame, h, Bool.true_or]

theorem ne_of_isTame {c wild : Char} (h : isTame c = true) (hwild : isTame wild = false) :
    c ≠ wild := by
  rintro rfl
  rw [h] at hwild
  cases hwild

theorem toNat_lt_of_isTame {c : Char} (h : isTame c = true) : c.toNat < 0x80 := by
  rcases Bool.or_eq_true_iff.mp h with h | h
  · exact CharClass.toNat_lt_of_isAsciiWord h
  · have hother : ∀ c ∈ [' ', '\n', '.', ',', '(', ')', '[', ']', ':', ';', '-'], c.toNat < 0x80 := by
      decide
    exact hother c (List.contains_iff_mem.mp h)

theorem all_isTame_runs {rs : List WordRun} (h : ∀ r ∈ rs, r.gap.all isTame = true) :
    (rs.flatMap WordRun.chars).all isTame = true := by
  rw [List.all_flatMap, List.all_eq_true]
  intro r hr
  rw [WordRun.chars, List.all_append, h r hr, Bool.and_true, List.all_eq_true]
  exact fun c hc => isTame_of_isAsciiWord (List.all_eq_true.mp r.word_all c hc)

theorem isTame_gap_of_mem_argumentRuns {as : List Literal} {r : WordRun} (hr : r ∈ argumentRuns as) :
    r.gap.all isTame = true := by
  have hgap : ∀ {gap : List Char} {hne hall} {a : Literal}, gap.all isTame = true →
      r ∈ a.runs gap hne hall → r.gap.all isTame = true := by
    intro gap hne hall a hgap hr
    rcases (Literal.lowered_of_mem_runs hr).2 with h | ⟨h, -⟩
    · rwa [h]
    · rw [h]
      decide
  induction as with
  | nil =>
    rw [List.mem_singleton.mp hr]
    decide
  | cons a as ih =>
    cases as with
    | nil => exact hgap (by decide) hr
    | cons b as =>
      rcases List.mem_append.mp hr with hr | hr
      · exact hgap (by decide) hr
      · exact ih hr

namespace Procedure

variable (p : Procedure)

/-- Behind its attribute a procedure has tame characters only. -/
theorem all_isTame_rest :
    (p.header ++ (p.parameters ++ ([')', '\n'] ++ (p.body ++ [';', '\n'])))).all isTame = true := by
  have hruns : p.header ++ (p.parameters ++ ([')', '\n'] ++ (p.body ++ [';', '\n']))) =
      (p.headerRuns ++ p.parameterRuns ++ p.bodyRuns).flatMap WordRun.chars := by
    simp only [List.flatMap_append, chars_headerRuns, chars_parameterRuns, chars_bodyRuns,
      List.append_assoc]
  rw [hruns]
  refine all_isTame_runs fun r hr => ?_
  simp only [List.mem_append, headerRuns, parameterRuns, bodyRuns, List.mem_cons, List.not_mem_nil,
    or_false, List.mem_flatMap] at hr
  rcases hr with ((rfl | rfl) | rfl | rfl | rfl | rfl) | rfl | ⟨s, -, hr⟩ | rfl
  case inr.inr.inl =>
    rcases List.mem_cons.mp hr with rfl | hr
    · rfl
    · rcases List.mem_cons.mp hr with rfl | hr
      · rfl
      · exact isTame_gap_of_mem_argumentRuns hr
  all_goals rfl

/-- The characters of a procedure are tame, apart from the apostrophes around the reason. -/
theorem isTame_of_mem {reason c : Char} (hreason : isTame reason = true)
    (hc : c ∈ text (p.pieces reason)) : isTame c = true ∨ c = '\'' := by
  rw [text_pieces, List.mem_append] at hc
  rcases hc with hc | hc
  · have hfixed : ∀ c ∈ spell "[Obsolete(" ++ ['\'', '\'', ')', ']', '\n'],
        isTame c = true ∨ c = '\'' := by decide
    cases hobsolete : p.obsolete with
    | false =>
      rw [p.text_attributePieces_of_not hobsolete] at hc
      cases hc
    | true =>
      rw [p.text_attributePieces hobsolete] at hc
      by_cases heq : c = reason
      · rw [heq]
        exact Or.inl hreason
      · exact hfixed c (by simpa [heq] using hc)
  · exact Or.inl (List.all_eq_true.mp p.all_isTame_rest c hc)

end Procedure

namespace Codeunit

variable (c : Codeunit)

theorem all_isTame_header : c.header.all isTame = true := by
  have hfixed : (spell "codeunit 50100 ").all isTame = true := by decide
  rw [header, List.all_append, hfixed, Bool.true_and, List.all_eq_true]
  exact fun ch hch => isTame_of_isAsciiWord (List.all_eq_true.mp c.name.all_word ch hch)

theorem isTame_of_mem {reason ch : Char} (hreason : isTame reason = true)
    (hch : ch ∈ text (c.pieces reason)) : isTame ch = true ∨ ch ∈ ['\'', '\x7b', '\x7d'] := by
  simp only [c.text_pieces, members, List.mem_append, List.mem_cons, List.mem_flatMap] at hch
  rcases hch with hch | rfl | rfl | (rfl | ⟨p, -, hch⟩) | rfl | hch
  · exact Or.inl (List.all_eq_true.mp c.all_isTame_header ch hch)
  · exact Or.inl (by decide)
  · exact Or.inr (by decide)
  · exact Or.inl (by decide)
  · rcases p.isTame_of_mem hreason hch with h | rfl
    · exact Or.inl h
    · exact Or.inr (by decide)
  · exact Or.inr (by decide)
  · rw [ending] at hch
    split at hch
    · rw [List.mem_singleton.mp hch]
      exact Or.inl (by decide)
    · cases hch

end Codeunit

open Source (coveredFrom coveredFrom_cons)

section Covered

variable {hide : Source.Layer → Bool} (hcode : hide .code = false)
include hcode

/-- Text without slashes, apostrophes and quotes is code and stays as it is. -/
theorem coveredFrom_code {cs : List Char} (h : ∀ c ∈ cs, c ∉ ['/', '\'', '"']) (rest : Cells) :
    coveredFrom hide .code (ofAscii cs ++ rest) = ofAscii cs ++ coveredFrom hide .code rest := by
  have hchars : ∀ x ∈ ofAscii cs, x.char ∉ ['/', '\'', '"'] := by
    intro x hx
    obtain ⟨c, hc, rfl⟩ := List.mem_map.mp hx
    exact h c hc
  exact Source.coveredFrom_code_append hcode hchars rest

theorem coveredFrom_tame {cs : List Char} (h : cs.all isTame = true) (rest : Cells) :
    coveredFrom hide .code (ofAscii cs ++ rest) = ofAscii cs ++ coveredFrom hide .code rest := by
  have hwild : ∀ c ∈ ['/', '\'', '"'], isTame c = false := by decide
  exact coveredFrom_code hcode (fun c hc hmem =>
    ne_of_isTame (List.all_eq_true.mp h c hc) (hwild c hmem) rfl) rest

/-- The reason of an attribute is blanked. -/
theorem Procedure.coveredFrom_attribute (hhidden : hide .hidden = true) (p : Procedure)
    (rest : Cells) :
    coveredFrom hide .code (ofAscii (text (p.attributePieces 'x')) ++ rest) =
      ofAscii (text (p.attributePieces ' ')) ++ coveredFrom hide .code rest := by
  cases hobsolete : p.obsolete with
  | false => simp [p.text_attributePieces_of_not hobsolete]
  | true =>
    have hopen : (spell "[Obsolete(").all isTame = true := by decide
    have hclose : [')', ']', '\n'].all isTame = true := by decide
    have hreason : coveredFrom hide .code (ofAscii ['\'', 'x', '\'', ')', ']', '\n'] ++ rest) =
        ofAscii ['\'', ' ', '\''] ++ coveredFrom hide .code (ofAscii [')', ']', '\n'] ++ rest) := by
      simp [coveredFrom_cons, Source.maskStep, Source.cover, hcode, hhidden, Cell.space]
    simp only [p.text_attributePieces hobsolete, Cells.ofAscii_append, List.append_assoc]
    rw [coveredFrom_tame hcode hopen, hreason, coveredFrom_tame hcode hclose]
    rfl

/-- A procedure is blanked in the reason of its attribute. -/
theorem Procedure.coveredFrom_text (hhidden : hide .hidden = true) (p : Procedure) (rest : Cells) :
    coveredFrom hide .code (ofAscii (text (p.pieces 'x')) ++ rest) =
      ofAscii (text (p.pieces ' ')) ++ coveredFrom hide .code rest := by
  rw [p.text_pieces, p.text_pieces, Cells.ofAscii_append, List.append_assoc,
    coveredFrom_attribute hcode hhidden, coveredFrom_tame hcode p.all_isTame_rest, ← List.append_assoc,
    ← Cells.ofAscii_append]

theorem coveredFrom_procedures (hhidden : hide .hidden = true) (ps : List Procedure)
    (rest : Cells) :
    coveredFrom hide .code (ofAscii (ps.flatMap fun p => text (p.pieces 'x')) ++ rest) =
      ofAscii (ps.flatMap fun p => text (p.pieces ' ')) ++ coveredFrom hide .code rest := by
  induction ps with
  | nil => rfl
  | cons p ps ih =>
    simp only [List.flatMap_cons, Cells.ofAscii_append, List.append_assoc]
    rw [p.coveredFrom_text hcode hhidden, ih]

/-- A codeunit is blanked in the reasons of its attributes. -/
theorem Codeunit.coveredFrom_text (hhidden : hide .hidden = true) (c : Codeunit) :
    coveredFrom hide .code (ofAscii (text (c.pieces 'x'))) = ofAscii (text (c.pieces ' ')) := by
  have hending : ∀ ch ∈ '\x7d' :: c.ending, ch ∉ ['/', '\'', '"'] := by
    rw [ending]
    split <;> decide
  have hlast := coveredFrom_code hcode hending []
  rw [List.append_nil] at hlast
  have hopen : ∀ ch ∈ ['\n', '\x7b', '\n'], ch ∉ ['/', '\'', '"'] := by decide
  have hsplit : ∀ reason, text (c.pieces reason) = c.header ++ (['\n', '\x7b', '\n'] ++
      (c.procedures.flatMap (fun p => text (p.pieces reason)) ++ ('\x7d' :: c.ending))) := by
    intro reason
    rw [c.text_pieces, members]
    rfl
  simp only [hsplit, Cells.ofAscii_append]
  rw [coveredFrom_tame hcode c.all_isTame_header, coveredFrom_code hcode hopen,
    coveredFrom_procedures hcode hhidden, hlast]
  rw [show coveredFrom hide .code [] = [] from rfl, List.append_nil]

end Covered

end Program

/-- A text was prepared from a source that is, apart from what is blanked, a list of ASCII
characters without quoted names. -/
structure Source.Text.Reads (t : Source.Text) (cs : List Char) : Prop where
  bare_eq : t.bare = Cells.ofAscii cs
  masked_eq : t.masked = Cells.ofAscii cs
  depths_eq : t.depths = Source.depthsFrom 0 (Cells.ofAscii cs)
  starts_eq : t.lines.starts = LineIndex.startsFrom 0 (Cells.ofAscii cs)

namespace Program

open Cells (ofAscii)

theorem Codeunit.toNat_lt (c : Codeunit) {ch : Char} (h : ch ∈ text (c.pieces 'x')) :
    ch.toNat < 0x80 := by
  have hother : ∀ ch ∈ ['\'', '\x7b', '\x7d'], ch.toNat < 0x80 := by decide
  rcases c.isTame_of_mem (by decide) h with h | h
  · exact toNat_lt_of_isTame h
  · exact hother ch h

theorem Codeunit.ofString_source (c : Codeunit) :
    Cells.ofString c.source = ofAscii (text (c.pieces 'x')) := by
  rw [Cells.ofString, source, String.toList_ofList]
  exact Cells.ofChars_eq_ofAscii fun ch hch => c.toNat_lt hch

/-- **Both blanked copies of a codeunit are the codeunit with blank reasons.** -/
theorem Codeunit.reads_source (c : Codeunit) :
    (Source.Text.ofCells (Cells.ofString c.source)).Reads (text (c.pieces ' ')) := by
  have hbare : Source.bare (ofAscii (text (c.pieces 'x'))) = ofAscii (text (c.pieces ' ')) :=
    c.coveredFrom_text rfl rfl
  have hmasked : Source.masked (ofAscii (text (c.pieces 'x'))) = ofAscii (text (c.pieces ' ')) :=
    c.coveredFrom_text rfl rfl
  have hstarts := Guarded.startsFrom_coveredFrom (· != .code) .code
    (ofAscii (text (c.pieces 'x'))) 0
  rw [c.ofString_source, Source.Text.ofCells]
  exact ⟨hbare, hmasked, by rw [hbare], by rw [← hbare]; exact hstarts.symm⟩

end Program
end TreeLint
