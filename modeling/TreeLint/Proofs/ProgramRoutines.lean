/-
# The routines of a codeunit written one construct per line

The members of such a codeunit are its procedures, and the searches of the front
end find them one by one: a header for each, the parameters and the body behind it,
the attribute line above it. Between two procedures stand the semicolon and the line
feed at the end of the first, and that is what the induction over the procedures
carries along (`Program.routinesOf_listing`). Nothing else is found: the codeunit
has no properties, and each `var` in it belongs to a procedure.

Key definitions: `Program.Procedure.routine`, `Program.listing`,
`Program.routinesFrom`.
Key theorems: `Program.allFrom_listing`, `Program.routineAt_procedure`,
`Program.routinesOf_listing`, `Program.Codeunit.routines_members`,
`Program.Codeunit.globalDeclarations_eq_nil`.
-/
import TreeLint.Proofs.ProgramScan

namespace TreeLint

open Cells (ofAscii lastOr)

namespace Source

theorem property_eq_none {key : String} {value : Cursor → Option (Extent × Cursor)} {c : Cursor}
    (h : ∀ x ∈ c.rest, x.char ≠ '=') : property key value c = none := by
  rw [property]
  split
  · rw [Option.bind_eq_bind, Option.bind_eq_none_iff]
    intro d hd
    have hmark : d.blanks.mark? '=' = none := by
      rw [Option.eq_none_iff_forall_ne_some]
      intro e he
      obtain ⟨-, x, hx, hchar⟩ := Cursor.exists_of_mark? he
      exact h x ((Cursor.rest_word?_suffix hd).subset ((Cursor.rest_blanks_suffix d).subset hx)) hchar
    rw [hmark]
    rfl
  · rfl

theorem namedArgument?_eq_none {text : Cells} (h : ∀ x ∈ text, x.char ≠ '=') :
    namedArgument? text = none := by
  rw [Option.eq_none_iff_forall_ne_some]
  intro r hr
  simp only [namedArgument?, Option.bind_eq_bind, Option.bind_eq_some_iff] at hr
  obtain ⟨d, hd, e, he, e', he', -⟩ := hr
  have hplain : d.rest <:+ text := by
    rw [Cursor.plain?] at hd
    split at hd
    · cases hd
      exact Cursor.rest_advance_suffix _ _
    · cases hd
  obtain ⟨hcolon, -⟩ := Cursor.exists_of_mark? he
  obtain ⟨-, x, hx, hchar⟩ := Cursor.exists_of_mark? he'
  exact h x (hplain.subset ((Cursor.rest_blanks_suffix d).subset (hcolon.subset hx))) hchar

end Source

namespace Program

open Source

/-! ### The routines -/

namespace Procedure

variable (p : Procedure)

/-- Where the header starts in a procedure at `q`. -/
def headerAt (q : Nat) : Nat := q + (text (p.attributePieces ' ')).length

/-- Where the body starts in a procedure at `q`. -/
def bodyAt (q : Nat) : Nat := p.headerAt q + p.header.length + p.parameters.length + 2

/-- Where the body ends in a procedure at `q`. -/
def stopAt (q : Nat) : Nat := p.bodyAt q + p.body.length

/-- The header that is found in a procedure at `q`. -/
def found (q : Nat) : Found RoutineHeader :=
  ⟨⟨p.headerAt q, p.headerAt q + p.header.length⟩,
    ⟨.procedure, ⟨p.headerAt q + 10, p.headerAt q + 10 + p.name.chars.length⟩⟩⟩

/-- The routine of a procedure at `q`. -/
def routine (q : Nat) : Routine where
  kind := .procedure
  name := ⟨p.headerAt q + 10, p.headerAt q + 10 + p.name.chars.length⟩
  obsolete := p.obsolete
  extent := ⟨q, p.stopAt q⟩
  header := p.headerAt q
  parameters := ⟨p.headerAt q + p.header.length, p.headerAt q + p.header.length + p.parameters.length⟩
  locals := none
  body := some ⟨p.bodyAt q, p.stopAt q⟩

theorem length_text (q : Nat) : q + (text (p.pieces ' ')).length = p.stopAt q + 2 := by
  rw [text_pieces, stopAt, bodyAt, headerAt]
  simp only [List.length_append, List.length_cons, List.length_nil]
  omega

end Procedure

/-- The text of procedures. -/
def listing (ps : List Procedure) : List Char := ps.flatMap fun p => text (p.pieces ' ')

theorem listing_cons (p : Procedure) (ps : List Procedure) : listing (p :: ps) =
    text (p.attributePieces ' ') ++ (p.header ++ (p.parameters ++ ([')', '\n'] ++
      (p.body ++ ([';', '\n'] ++ listing ps))))) := by
  rw [listing, List.flatMap_cons, p.text_pieces]
  simp only [List.append_assoc]
  rfl

/-- The headers that are found in procedures of which the first is at `q`. -/
def foundFrom : Nat → List Procedure → List (Found RoutineHeader)
  | _, [] => []
  | q, p :: ps => p.found q :: foundFrom (p.stopAt q + 2) ps

/-- The routines of procedures of which the first is at `q`. -/
def routinesFrom : Nat → List Procedure → List Routine
  | _, [] => []
  | q, p :: ps => p.routine q :: routinesFrom (p.stopAt q + 2) ps

theorem allFrom_body (p : Procedure) {before : Option Cell}
    (hbefore : before.any Cell.isWord = false) (pos : Nat) (rest : Cells) :
    ∃ before' : Option Cell, before'.any Cell.isWord = false ∧
      routineHeader.allFrom 0 before pos (ofAscii (p.body ++ [';', '\n']) ++ rest) =
        routineHeader.allFrom 0 before' (pos + p.body.length + 2) rest := by
  have hpasses : ∀ r ∈ p.bodyRuns, routineHeader.Passes r :=
    fun r hr => p.passes_routineHeader (List.mem_append_right _ hr)
  refine ⟨_, not_isWord_lastOr_runs hbefore p.bodyRuns, ?_⟩
  rw [← p.chars_bodyRuns, Pattern.allFrom_runs onWords_routineHeader hpasses hbefore, p.chars_bodyRuns,
    List.length_append]
  rfl

/-- **Each procedure has one header.** -/
theorem allFrom_listing (ps : List Procedure) {before : Option Cell}
    (hbefore : before.any Cell.isWord = false) (q : Nat) :
    routineHeader.allFrom 0 before q (ofAscii (listing ps)) = foundFrom q ps := by
  induction ps generalizing before q with
  | nil => rfl
  | cons p ps ih =>
    have hattribute : ∀ r ∈ p.attributeRuns, routineHeader.Passes r :=
      fun r hr => (p.silent_of_mem_attributeRuns hr).passes_routineHeader
    have hparameters : ∀ r ∈ p.parameterRuns, routineHeader.Passes r :=
      fun r hr => p.passes_routineHeader (List.mem_append_left _ hr)
    have hne : ofAscii p.header ≠ [] := by
      simp [Procedure.header, ofAscii]
    have hsplit : ofAscii (listing (p :: ps)) = ofAscii (p.attributeRuns.flatMap WordRun.chars) ++
        (ofAscii p.header ++ (ofAscii (p.parameterRuns.flatMap WordRun.chars) ++
          (ofAscii (p.body ++ [';', '\n']) ++ ofAscii (listing ps)))) := by
      rw [listing_cons, p.chars_attributeRuns, p.chars_parameterRuns]
      simp only [Cells.ofAscii_append, List.append_assoc]
    have hmatch := routineHeader_header p (not_isWord_lastOr_runs hbefore p.attributeRuns)
      (q + (p.attributeRuns.flatMap WordRun.chars).length)
      (ofAscii (p.parameterRuns.flatMap WordRun.chars) ++
        (ofAscii (p.body ++ [';', '\n']) ++ ofAscii (listing ps)))
    have hparen : ∀ before, (lastOr before (ofAscii p.header)).any Cell.isWord = false := by
      intro before
      rw [Procedure.header, Cells.ofAscii_append, Cells.lastOr_append]
      rfl
    have hstop : q + (p.attributeRuns.flatMap WordRun.chars).length + (ofAscii p.header).length +
        (p.parameterRuns.flatMap WordRun.chars).length + p.body.length + 2 = p.stopAt q + 2 := by
      rw [p.chars_attributeRuns, p.chars_parameterRuns, Cells.length_ofAscii, List.length_append]
      rfl
    obtain ⟨before', hbefore', hbody⟩ := allFrom_body p
      (not_isWord_lastOr_runs (hparen (lastOr before (ofAscii (p.attributeRuns.flatMap WordRun.chars))))
        p.parameterRuns)
      (q + (p.attributeRuns.flatMap WordRun.chars).length + (ofAscii p.header).length +
        (p.parameterRuns.flatMap WordRun.chars).length) (ofAscii (listing ps))
    rw [hsplit, Pattern.allFrom_runs onWords_routineHeader hattribute hbefore,
      Pattern.allFrom_match hmatch (by rw [Cells.length_ofAscii]) hne,
      Pattern.allFrom_runs onWords_routineHeader hparameters (hparen _), hbody, ih hbefore', hstop,
      foundFrom, p.chars_attributeRuns, Cells.length_ofAscii]
    rfl

theorem gap_close : ∀ x ∈ ofAscii [')', '\n'], x.isWord = false ∧ x.char ≠ '"' := by decide

theorem next_header (p : Procedure) (ps : List Procedure) (before : Option Cell) (pos : Nat)
    {close : Cursor} (hclose : close = ⟨before, pos, ofAscii [')', '\n'] ++
      (ofAscii (p.body ++ [';', '\n']) ++ ofAscii (listing ps))⟩) :
    routineHeader.first? close = none ∨ ∃ f tail, routineHeader.first? close = some f ∧
      close.stopAt f.extent.start = ⟨before, pos, ofAscii [')', '\n'] ++
        (ofAscii (p.body ++ [';', '\n']) ++ tail)⟩ := by
  obtain ⟨before', hbefore', hbody⟩ := @allFrom_body p (some ⟨'\n', true⟩) rfl (pos + 2)
    (ofAscii (listing ps))
  have hfirst : routineHeader.first? close = (foundFrom (pos + 2 + p.body.length + 2) ps).head? := by
    rw [hclose, Pattern.first?, Pattern.firstFrom_eq_head?,
      Pattern.allFrom_gap onWords_routineHeader gap_close]
    exact congrArg List.head? (hbody.trans (allFrom_listing ps hbefore' _))
  cases ps with
  | nil => exact Or.inl hfirst
  | cons p' ps =>
    refine Or.inr ⟨_, ofAscii (text (p'.attributePieces ' ')), hfirst, ?_⟩
    have hsplit : ofAscii [')', '\n'] ++ (ofAscii (p.body ++ [';', '\n']) ++
        ofAscii (listing (p' :: ps))) = (ofAscii [')', '\n'] ++ (ofAscii (p.body ++ [';', '\n']) ++
          ofAscii (text (p'.attributePieces ' ')))) ++ ofAscii (p'.header ++ (p'.parameters ++
            ([')', '\n'] ++ (p'.body ++ ([';', '\n'] ++ listing ps))))) := by
      rw [listing_cons]
      simp only [Cells.ofAscii_append, List.append_assoc]
    rw [hclose, hsplit]
    refine Cursor.stopAt_append before pos _ _ ?_
    simp only [Procedure.found, Procedure.headerAt, List.length_append, Cells.length_ofAscii,
      List.length_cons, List.length_nil]
    omega

theorem closingEnd?_body (p : Procedure) (before : Option Cell) (pos : Nat) (rest : Cells) :
    closingEnd? ⟨before, pos, ofAscii (p.body ++ [';', '\n']) ++ rest⟩ =
      some (pos + p.body.length) := by
  have hsplit : ofAscii (p.body ++ [';', '\n']) ++ rest = ofAscii (spell "begin") ++
      (ofAscii ['\n'] ++ (ofAscii ((p.statements.flatMap Statement.runs).flatMap WordRun.chars) ++
        (ofAscii (spell "end") ++ (ofAscii [';', '\n'] ++ rest)))) := by
    rw [p.chars_blockRuns, Procedure.body]
    simp only [Cells.ofAscii_append, Cells.ofAscii_cons, Cells.ofAscii_nil, List.append_assoc,
      List.cons_append, List.nil_append]
  have hpasses : ∀ r ∈ p.statements.flatMap Statement.runs, blockToken.Passes r :=
    fun r hr => (p.silent_of_mem_blockRuns hr).passes_blockToken
  have hfeed : ∀ x ∈ ofAscii ['\n'], x.isWord = false ∧ x.char ≠ '"' := by decide
  have hbegin := @blockToken_begin none rfl pos (ofAscii ['\n'] ++
    (ofAscii ((p.statements.flatMap Statement.runs).flatMap WordRun.chars) ++
      (ofAscii (spell "end") ++ (ofAscii [';', '\n'] ++ rest)))) rfl
  have hend := fun before hbefore pos =>
    @blockToken_end before hbefore pos (ofAscii [';', '\n'] ++ rest) rfl
  have hlength : p.body.length = 5 + 1 + (lines p.statements).length + 3 := by
    simp [Procedure.body, spell]
    omega
  rw [closingEnd?, blockEndFrom_eq_blockEnd, hsplit, Pattern.allFrom_match hbegin rfl (by decide),
    Pattern.allFrom_gap onWords_blockToken hfeed, Pattern.allFrom_runs onWords_blockToken hpasses rfl,
    Pattern.allFrom_match (hend _ (not_isWord_lastOr_runs rfl _) _) rfl (by decide),
    p.chars_blockRuns, hlength]
  simp only [blockEnd, Nat.add_assoc]
  rfl

/-- **The body of a procedure is found, and no local variables.** -/
theorem routineBody_procedure (t : Text) (p : Procedure) (ps : List Procedure)
    (before : Option Cell) (pos : Nat) :
    t.routineBody ⟨before, pos, ofAscii [')', '\n'] ++
        (ofAscii (p.body ++ [';', '\n']) ++ ofAscii (listing ps))⟩ =
      .ok (none, some ⟨pos + 2, pos + 2 + p.body.length⟩, pos + 2 + p.body.length) := by
  have hbegin : ∀ tail, (keyword "begin").first? ⟨before, pos, ofAscii [')', '\n'] ++
      (ofAscii (p.body ++ [';', '\n']) ++ tail)⟩ = some ⟨⟨pos + 2, pos + 7⟩, ()⟩ := by
    intro tail
    have hsplit : ofAscii (p.body ++ [';', '\n']) ++ tail = ofAscii (spell "begin") ++
        (ofAscii ('\n' :: (lines p.statements ++ spell "end" ++ [';', '\n'])) ++ tail) := by
      rw [Procedure.body]
      simp only [Cells.ofAscii_append, Cells.ofAscii_cons, List.append_assoc, List.cons_append]
    have hmatch := @keyword_word (spell "begin") "begin" (by decide) (by decide) (by decide)
      (some ⟨'\n', true⟩) rfl (pos + 2)
      (ofAscii ('\n' :: (lines p.statements ++ spell "end" ++ [';', '\n'])) ++ tail) rfl
    rw [Pattern.first?, Pattern.firstFrom_eq_head?,
      Pattern.allFrom_gap (onWords_keyword (by decide)) gap_close, hsplit]
    exact congrArg List.head? (Pattern.allFrom_match hmatch rfl (by decide))
  have hvar : (keyword "var").first? ((Cursor.mk before pos (ofAscii [')', '\n'] ++
      (ofAscii (p.body ++ [';', '\n']) ++ ofAscii (listing ps)))).stopAt (pos + 2)) = none := by
    have hgap := Pattern.allFrom_gap (onWords_keyword (w := "var") (by decide)) gap_close before pos []
    rw [List.append_nil] at hgap
    rw [@Cursor.stopAt_append before pos (ofAscii [')', '\n']) _ (pos + 2) rfl, Pattern.first?,
      Pattern.firstFrom_eq_head?, hgap]
    rfl
  have hend : closingEnd? ((Cursor.mk before pos (ofAscii [')', '\n'] ++
      (ofAscii (p.body ++ [';', '\n']) ++ ofAscii (listing ps)))).moveTo (pos + 2)) =
        some (pos + 2 + p.body.length) := by
    rw [@Cursor.moveTo_append before pos (ofAscii [')', '\n']) _ (pos + 2) rfl, closingEnd?_body]
  rw [Text.routineBody]
  rcases next_header p ps before pos rfl with hnone | ⟨f, tail, hsome, hstop⟩
  · simp only [hnone, hbegin, hvar, hend]
    rfl
  · simp only [hsome, hstop, hbegin, hvar, hend]
    rfl

theorem lineStart_of_feed {t : Text} {above below : List Char}
    (ht : t.Reads (above ++ ('\n' :: below))) : t.lineStart (above.length + 1) = above.length + 1 := by
  have htake : (ofAscii (above ++ ('\n' :: below))).take (above.length + 1) =
      ofAscii above ++ [⟨'\n', true⟩] := by
    rw [Cells.ofAscii_append, List.take_append, List.take_of_length_le (by simp)]
    simp
  rw [Text.lineStart, LineIndex.position, ht.starts_eq,
    Guarded.lineStartFrom_eq 1 0 _ (Nat.zero_le _), Nat.sub_zero, htake,
    Guarded.lineStartFrom_append, Guarded.lineStartFrom, if_pos rfl, Guarded.lineStartFrom,
    Cells.length_ofAscii, Nat.zero_add]

/-- The attribute line with a blank reason. -/
def obsoleteLine : List Char := spell "[Obsolete(" ++ ['\'', ' ', '\'', ')', ']']

section Attributes

variable {t : Text} {above rest tail : List Char} (hrest : rest = [] ∨ rest = [';'])
include hrest

/-- What stands above the attributes, on the line of the floor, is one line and no attribute. -/
theorem linesFrom_rest (start : Nat) : Cells.linesFrom start start [] (ofAscii rest) =
    [(start, ofAscii rest)] ∧ isAttributeLine (ofAscii rest) = false := by
  have hfeed : ∀ y ∈ ofAscii rest, y.char ≠ '\n' := by
    rcases hrest with rfl | rfl <;> decide
  refine ⟨Cells.linesFrom_of_no_feed hfeed start start [], ?_⟩
  rcases hrest with rfl | rfl <;> decide

theorem attributes_of_not_obsolete (ht : t.Reads (above ++ (rest ++ ('\n' :: tail)))) :
    t.attributes (above.length + rest.length + 1) above.length =
      (above.length + rest.length + 1, false) := by
  obtain ⟨hlines, hplain⟩ := linesFrom_rest hrest above.length
  have hstart : t.lineStart (above.length + rest.length + 1) = above.length + rest.length + 1 := by
    rw [← List.append_assoc] at ht
    have h := lineStart_of_feed ht
    rwa [List.length_append] at h
  have hslice : t.bare.slice ⟨above.length, above.length + rest.length⟩ = ofAscii rest := by
    refine @Cells.slice_of_append _ (ofAscii above) _ (ofAscii ('\n' :: tail)) _ ?_
      (by simp) (by simp)
    rw [ht.bare_eq]
    simp
  simp only [Text.attributes, hstart]
  rw [if_neg (by omega), Nat.add_sub_cancel, hslice, Cells.lines, hlines]
  simp [attributeRun, hplain]

theorem attributes_of_obsolete
    (ht : t.Reads (above ++ (rest ++ ('\n' :: (obsoleteLine ++ ('\n' :: tail)))))) :
    t.attributes ((above ++ rest ++ '\n' :: obsoleteLine).length + 1) above.length =
      (above.length + rest.length + 1, true) := by
  obtain ⟨hlines, hplain⟩ := linesFrom_rest hrest above.length
  have hstart : t.lineStart ((above ++ rest ++ '\n' :: obsoleteLine).length + 1) =
      (above ++ rest ++ '\n' :: obsoleteLine).length + 1 := by
    refine @lineStart_of_feed t _ tail ?_
    simpa using ht
  have hslice : t.bare.slice ⟨above.length, (above ++ rest ++ '\n' :: obsoleteLine).length⟩ =
      ofAscii rest ++ ⟨'\n', true⟩ :: ofAscii obsoleteLine := by
    refine @Cells.slice_of_append _ (ofAscii above) _ (ofAscii ('\n' :: tail)) _ ?_
      (by simp) (by simp)
    rw [ht.bare_eq]
    simp
  have hlast := @Cells.linesFrom_of_no_feed (ofAscii obsoleteLine) (by decide)
    (above.length + rest.length + 1) (above.length + rest.length + 1) []
  have hmarked : isAttributeLine (ofAscii obsoleteLine) = true ∧
      isObsoleteAttribute (ofAscii obsoleteLine) = true := by decide
  simp only [Text.attributes, hstart]
  rw [if_neg (by simp only [List.length_append]; omega), Nat.add_sub_cancel, hslice, Cells.lines,
    Cells.linesFrom_append_feed rfl, hlines, Cells.lines, Cells.length_ofAscii, hlast]
  simp [attributeRun, hplain, hmarked]

/-- **The attribute line above a header is found**, when what stands above it on the line of the
floor is nothing or the end of a routine. -/
theorem attributes_procedure (p : Procedure)
    (ht : t.Reads (above ++ (rest ++ ('\n' :: (text (p.attributePieces ' ') ++ tail))))) :
    t.attributes (p.headerAt (above.length + rest.length + 1)) above.length =
      (above.length + rest.length + 1, p.obsolete) := by
  cases hobsolete : p.obsolete with
  | false =>
    have hheader : p.headerAt (above.length + rest.length + 1) = above.length + rest.length + 1 := by
      rw [Procedure.headerAt, p.text_attributePieces_of_not hobsolete]
      rfl
    rw [hheader]
    exact attributes_of_not_obsolete hrest ht
  | true =>
    have hattribute : text (p.attributePieces ' ') = obsoleteLine ++ ['\n'] := by
      rw [p.text_attributePieces hobsolete, obsoleteLine, List.append_assoc]
      rfl
    have hheader : p.headerAt (above.length + rest.length + 1) =
        (above ++ rest ++ '\n' :: obsoleteLine).length + 1 := by
      rw [Procedure.headerAt, hattribute]
      simp only [List.length_append, List.length_cons, List.length_nil]
      omega
    rw [hattribute, List.append_assoc] at ht
    rw [hheader]
    exact attributes_of_obsolete hrest ht

end Attributes

theorem Procedure.forall_mem_parameters (p : Procedure) {P : Cell → Prop}
    (hword : ∀ x : Cell, x.isWord = true → P x)
    (hfixed : ∀ x ∈ ofAscii (spell "var " ++ spell ": Record "), P x) :
    ∀ x ∈ ofAscii p.parameters, P x := by
  intro x hx
  have hname : ∀ i : Identifier, x ∈ ofAscii i.chars → P x :=
    fun i hi => hword x (isWord_of_mem_ofAscii i.all_word hi)
  simp only [parameters, Cells.ofAscii_append, List.mem_append] at hx hfixed
  rcases hx with ((hx | hx) | hx) | hx
  · exact hfixed x (Or.inl hx)
  · exact hname _ hx
  · exact hfixed x (Or.inr hx)
  · exact hname _ hx

theorem Procedure.noBracket_parameters (p : Procedure) :
    ∀ x ∈ ofAscii p.parameters, Cells.NoBracket x := by
  refine p.forall_mem_parameters (fun x hx => (neutral_of_isWord hx).1) ?_
  unfold Cells.NoBracket
  decide

section Place

variable (p : Procedure) (ps : List Procedure) {above : List Char} {start q : Nat}
  (hq : q = start + above.length)
include hq

theorem closingParen?_listing :
    closingParen? ((Cursor.mk none start (ofAscii (above ++ listing (p :: ps)))).moveTo
        (p.headerAt q + p.header.length - 1)) =
      some (p.headerAt q + p.header.length + p.parameters.length) := by
  have hsplit : ofAscii (above ++ listing (p :: ps)) =
      ofAscii (above ++ (text (p.attributePieces ' ') ++ (spell "procedure " ++ p.name.chars))) ++
        (⟨'(', true⟩ :: (ofAscii p.parameters ++ (⟨')', true⟩ ::
          ofAscii ('\n' :: (p.body ++ ([';', '\n'] ++ listing ps)))))) := by
    rw [listing_cons, Procedure.header]
    simp
  have hheader := p.length_header
  have hword : (spell "procedure ").length = 10 := rfl
  have hopening : p.headerAt q + p.header.length - 1 = start + (ofAscii (above ++
      (text (p.attributePieces ' ') ++ (spell "procedure " ++ p.name.chars)))).length := by
    simp only [hq, hheader, hword, Procedure.headerAt, Cells.length_ofAscii, List.length_append]
    omega
  rw [hsplit, Cursor.moveTo_append none start _ _ hopening,
    closingParen?_append _ _ (Cells.balanced_of_noBracket p.noBracket_parameters), Cells.length_ofAscii,
    Nat.sub_add_cancel (by omega)]

theorem routineBody_listing (t : Text) :
    t.routineBody ((Cursor.mk none start (ofAscii (above ++ listing (p :: ps)))).moveTo
        (p.headerAt q + p.header.length + p.parameters.length)) =
      .ok (none, some ⟨p.bodyAt q, p.stopAt q⟩, p.stopAt q) := by
  have hsplit : ofAscii (above ++ listing (p :: ps)) =
      ofAscii (above ++ (text (p.attributePieces ' ') ++ (p.header ++ p.parameters))) ++
        (ofAscii [')', '\n'] ++ (ofAscii (p.body ++ [';', '\n']) ++ ofAscii (listing ps))) := by
    rw [listing_cons]
    simp
  have hclosing : p.headerAt q + p.header.length + p.parameters.length = start + (ofAscii (above ++
      (text (p.attributePieces ' ') ++ (p.header ++ p.parameters)))).length := by
    simp only [hq, Procedure.headerAt, Cells.length_ofAscii, List.length_append]
    omega
  rw [hsplit, Cursor.moveTo_append none start _ _ hclosing, routineBody_procedure]
  rfl

end Place

/-- **The routine of a procedure**, when the floor of its attributes is behind the routine before
it, or at the start of the members. -/
theorem routineAt_procedure {t : Text} {pre front rest post : List Char} (p : Procedure)
    (ps : List Procedure) (hrest : rest = [] ∨ rest = [';'])
    (ht : t.Reads (pre ++ (front ++ (rest ++ ('\n' :: listing (p :: ps))) ++ post)))
    {last : Option Nat} (hlast : last.getD pre.length = pre.length + front.length) {q : Nat}
    (hq : q = pre.length + front.length + rest.length + 1) :
    t.routineAt ⟨none, pre.length, ofAscii (front ++ (rest ++ ('\n' :: listing (p :: ps))))⟩ last
      (p.found q) = .ok (p.routine q) := by
  have hsplit : front ++ (rest ++ ('\n' :: listing (p :: ps))) =
      (front ++ (rest ++ ['\n'])) ++ listing (p :: ps) := by simp
  have hread : pre ++ (front ++ (rest ++ ('\n' :: listing (p :: ps))) ++ post) =
      (pre ++ front) ++ (rest ++ ('\n' :: (text (p.attributePieces ' ') ++ (p.header ++ (p.parameters ++
        ([')', '\n'] ++ (p.body ++ ([';', '\n'] ++ listing ps)))) ++ post)))) := by
    rw [listing_cons]
    simp only [List.append_assoc, List.cons_append]
  have hattributes : t.attributes (p.headerAt q) (pre.length + front.length) = (q, p.obsolete) := by
    rw [hread] at ht
    have h := attributes_procedure hrest p ht
    rwa [List.length_append, ← hq] at h
  have hat : q = pre.length + (front ++ (rest ++ ['\n'])).length := by
    simp only [hq, List.length_append, List.length_cons, List.length_nil]
    omega
  have hheader := p.length_header
  rw [Text.routineAt, hsplit]
  simp only [Procedure.found, closingParen?_listing p ps hat, routineBody_listing p ps hat, hlast,
    hattributes]
  rw [Nat.sub_add_cancel (by omega)]
  rfl

/-- **The routines of procedures**, one after the other. -/
theorem routinesOf_listing {t : Text} {pre front rest post : List Char} (ps : List Procedure)
    (hrest : rest = [] ∨ rest = [';'])
    (ht : t.Reads (pre ++ (front ++ (rest ++ ('\n' :: listing ps)) ++ post)))
    {last : Option Nat} (hlast : last.getD pre.length = pre.length + front.length) {q : Nat}
    (hq : q = pre.length + front.length + rest.length + 1) :
    t.routinesOf ⟨none, pre.length, ofAscii (front ++ (rest ++ ('\n' :: listing ps)))⟩ last
      (foundFrom q ps) = .ok (routinesFrom q ps) := by
  induction ps generalizing front rest last q with
  | nil => rfl
  | cons p ps ih =>
    have hbehind : last.any ((p.found q).extent.start < ·) = false := by
      cases last with
      | none => rfl
      | some stop =>
        have hstop : stop = pre.length + front.length := hlast
        simp [Procedure.found, Procedure.headerAt, hstop, hq]
        omega
    have hsplit : front ++ (rest ++ ('\n' :: listing (p :: ps))) =
        (front ++ (rest ++ ('\n' :: (text (p.attributePieces ' ') ++ (p.header ++ (p.parameters ++
          ([')', '\n'] ++ p.body))))))) ++ ([';'] ++ ('\n' :: listing ps)) := by
      rw [listing_cons]
      simp only [List.append_assoc, List.cons_append, List.nil_append]
    have hstop : (some (p.stopAt q)).getD pre.length = pre.length + (front ++ (rest ++ ('\n' ::
        (text (p.attributePieces ' ') ++ (p.header ++ (p.parameters ++ ([')', '\n'] ++
          p.body))))))).length := by
      simp only [Option.getD_some, Procedure.stopAt, Procedure.bodyAt, Procedure.headerAt, hq,
        List.length_append, List.length_cons, List.length_nil]
      omega
    have hnext : p.stopAt q + 2 = pre.length + (front ++ (rest ++ ('\n' ::
        (text (p.attributePieces ' ') ++ (p.header ++ (p.parameters ++ ([')', '\n'] ++
          p.body))))))).length + [';'].length + 1 := by
      rw [← hstop]
      rfl
    have hroutine := routineAt_procedure p ps hrest ht hlast hq
    rw [hsplit] at ht hroutine ⊢
    rw [foundFrom, Text.routinesOf, hbehind, if_neg Bool.false_ne_true, hroutine]
    simp only [routinesFrom]
    rw [show (p.routine q).extent.stop = p.stopAt q from rfl, ih (Or.inr rfl) ht hstop hnext]

/-! ### What there is none of -/

theorem exists_routine_of_word {ps : List Procedure} {q k : Nat} {x : Cell}
    (hx : (ofAscii (listing ps))[k]? = some x) (hword : x.isWord = true) :
    ∃ r ∈ routinesFrom q ps, r.extent.has (q + k) = true := by
  induction ps generalizing q k with
  | nil => simp [listing] at hx
  | cons p ps ih =>
    obtain ⟨front, hsplit, hlength⟩ : ∃ front : Cells, ofAscii (listing (p :: ps)) =
        front ++ (ofAscii [';', '\n'] ++ ofAscii (listing ps)) ∧ q + front.length = p.stopAt q := by
      refine ⟨ofAscii (text (p.attributePieces ' ') ++ (p.header ++ (p.parameters ++
        ([')', '\n'] ++ p.body)))), ?_, ?_⟩
      · rw [listing_cons]
        simp only [Cells.ofAscii_append, List.append_assoc]
      · simp only [Cells.length_ofAscii, Procedure.stopAt, Procedure.bodyAt, Procedure.headerAt,
          List.length_append, List.length_cons, List.length_nil]
        omega
    rw [hsplit] at hx
    by_cases hin : k < front.length
    · have hstop : q + k < p.stopAt q := by omega
      exact ⟨p.routine q, List.mem_cons_self,
        Bool.and_eq_true_iff.mpr ⟨decide_eq_true (Nat.le_add_right q k), decide_eq_true hstop⟩⟩
    · rw [List.getElem?_append_right (by omega)] at hx
      by_cases hsep : k - front.length < 2
      · -- the semicolon and the line feed between two routines are no words
        have hgap : ∀ x ∈ ofAscii [';', '\n'], x.isWord = false := by decide
        rw [List.getElem?_append_left hsep] at hx
        rw [hgap x (List.mem_of_getElem? hx)] at hword
        cases hword
      · rw [List.getElem?_append_right (Nat.not_lt.mp hsep)] at hx
        obtain ⟨r, hr, hhas⟩ := @ih (p.stopAt q + 2) _ hx
        have hplace : p.stopAt q + 2 + (k - front.length - (ofAscii [';', '\n']).length) = q + k := by
          rw [Cells.length_ofAscii, List.length_cons, List.length_cons, List.length_nil]
          omega
        exact ⟨r, List.mem_cons_of_mem _ hr, hplace ▸ hhas⟩

namespace Codeunit

variable (c : Codeunit) {t : Text} (ht : t.Reads (text (c.pieces ' ')))
include ht

theorem slice_members :
    t.bare.slice ⟨c.header.length + 2, c.header.length + 2 + (c.members ' ').length⟩ =
      ofAscii (c.members ' ') := by
  refine @Cells.slice_of_append _ (ofAscii (c.header ++ ['\n', '\x7b'])) _
    (ofAscii ('\x7d' :: c.ending)) _ ?_ (by simp) (by simp)
  rw [ht.bare_eq, c.text_pieces]
  simp

/-- **The routines of the codeunit are its procedures.** -/
theorem routines_members :
    t.routines ⟨c.header.length + 2, c.header.length + 2 + (c.members ' ').length⟩ =
      .ok (routinesFrom (c.header.length + 3) c.procedures) := by
  have hread : t.Reads (c.header ++ ['\n', '\x7b'] ++ ([] ++ ([] ++ ('\n' :: listing c.procedures)) ++
      ('\x7d' :: c.ending))) := by
    rw [c.text_pieces] at ht
    simpa [members, listing] using ht
  have hheaders : routineHeader.all (Cursor.ofSlice t.bare
      ⟨c.header.length + 2, c.header.length + 2 + (c.members ' ').length⟩) =
        foundFrom (c.header.length + 3) c.procedures := by
    have hfeed : ∀ x ∈ ofAscii ['\n'], x.isWord = false ∧ x.char ≠ '"' := by decide
    have hmembers : ofAscii (c.members ' ') = ofAscii ['\n'] ++ ofAscii (listing c.procedures) := rfl
    rw [Cursor.ofSlice, c.slice_members ht, Pattern.all, hmembers,
      Pattern.allFrom_gap onWords_routineHeader hfeed]
    exact allFrom_listing c.procedures rfl _
  have hroutines := @routinesOf_listing t (c.header ++ ['\n', '\x7b']) [] [] ('\x7d' :: c.ending)
    c.procedures (Or.inl rfl) hread none rfl (c.header.length + 3) (by simp)
  rw [Text.routines, hheaders, Cursor.ofSlice, c.slice_members ht]
  simpa [members, listing] using hroutines

theorem ne_of_mem_bare {x : Cell} (hx : x ∈ t.bare) : x.char ≠ '=' ∧ x.char ≠ '"' := by
  rw [ht.bare_eq] at hx
  obtain ⟨ch, hch, rfl⟩ := List.mem_map.mp hx
  have hother : ∀ ch ∈ ['\'', '\x7b', '\x7d'], ch ≠ '=' ∧ ch ≠ '"' := by decide
  rcases c.isTame_of_mem (by decide) hch with htame | hch
  · exact ⟨ne_of_isTame htame (by decide), ne_of_isTame htame (by decide)⟩
  · exact hother ch hch

theorem property?_eq_none {key : String} {value : Cursor → Option (Extent × Cursor)} (r : Extent)
    (depth : Nat) : t.property? (property key value) r depth = none := by
  have hall : (property key value).all (Cursor.ofSlice t.bare r) = [] := by
    refine Pattern.allFrom_eq_nil fun before pos front rest hsplit => ?_
    refine property_eq_none fun x hx => (c.ne_of_mem_bare ht ?_).1
    have hslice : x ∈ (Cursor.ofSlice t.bare r).rest := hsplit ▸ List.mem_append_right front hx
    exact List.mem_of_mem_drop (List.mem_of_mem_take hslice)
  rw [Text.property?, hall]
  rfl

/-- **The codeunit has no variables of its own**: each `var` is in a procedure. -/
theorem globalDeclarations_eq_nil {o : ObjectSite} (ho : o.members =
      ⟨c.header.length + 2, c.header.length + 2 + (c.members ' ').length⟩) :
    globalDeclarations t o (routinesFrom (c.header.length + 3) c.procedures) = [] := by
  have hinside : ∀ f ∈ (keyword "var").all (Cursor.ofSlice t.bare o.members),
      (routinesFrom (c.header.length + 3) c.procedures).any (·.extent.has f.extent.start) = true := by
    intro f hf
    rw [ho, Cursor.ofSlice, c.slice_members ht] at hf
    have hquote : ∀ x ∈ ofAscii (c.members ' '), x.char ≠ '"' := by
      intro x hx
      refine (c.ne_of_mem_bare ht ?_).2
      rw [c.bare_eq ht]
      simp [hx]
    obtain ⟨k, x, hstart, hx, hword⟩ :=
      Pattern.isWord_of_mem_allFrom (onWords_keyword (by decide)) hquote hf
    rw [List.any_eq_true]
    cases k with
    | zero =>
      -- the line feed behind the opening brace
      cases hx
      cases hword
    | succ k =>
      obtain ⟨r, hr, hhas⟩ := @exists_routine_of_word c.procedures (c.header.length + 3) k x hx hword
      refine ⟨r, hr, ?_⟩
      rw [hstart, ← hhas]
      congr 1
      simp only
      omega
  have hnone : ((keyword "var").all (Cursor.ofSlice t.bare o.members)).filter (fun f =>
      t.depth f.extent.start == t.depth o.opening + 1 &&
        !(routinesFrom (c.header.length + 3) c.procedures).any fun r =>
          r.extent.has f.extent.start) = [] := by
    rw [List.filter_eq_nil_iff]
    intro f hf
    simp [hinside f hf]
  rw [globalDeclarations]
  simp only [hnone, List.flatMap_nil]

end Codeunit

end Program
end TreeLint
