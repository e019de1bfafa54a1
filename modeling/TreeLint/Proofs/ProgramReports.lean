/-
# What is reported in a codeunit written one construct per line

The front end, the rule on changes and the directives put together. The document
of such a codeunit has one node for each construct, so it becomes a tree unless
there are too many of them to count. The nodes of the tree that leave open whether
triggers run are at the marks, the rule reports one diagnostic at each of them, and
since a codeunit has no directives all of these are reported in the end.

Key theorems: `Pragma.parse_eq_nil`, `Dispatcher.filter_visitAll_runTrigger`,
`Program.Codeunit.map_slice_marks`, `Program.Codeunit.resolve_source`,
`Dispatcher.builtin_reports_marked`.
-/
import Mathlib.Algebra.Order.BigOperators.Group.List
import Mathlib.Algebra.Order.Ring.Nat
import TreeLint.Proofs.Directives
import TreeLint.Proofs.ProgramTrees
import TreeLint.Proofs.Totality

namespace TreeLint

/-! ### A source without directives -/

theorem Cells.mem_of_mem_linesFrom {start pos o : Nat} {line cs l : Cells}
    (h : (o, l) ∈ linesFrom start pos line cs) {x : Cell} (hx : x ∈ l) : x ∈ line ∨ x ∈ cs := by
  induction cs generalizing start pos line with
  | nil =>
    cases List.mem_singleton.mp h
    exact Or.inl (List.mem_reverse.mp hx)
  | cons c cs ih =>
    unfold linesFrom at h
    split at h
    · rcases List.mem_cons.mp h with heq | h
      · cases heq
        exact Or.inl (List.mem_reverse.mp hx)
      · exact Or.inr (List.mem_cons_of_mem c ((ih h).resolve_left List.not_mem_nil))
    · rcases ih h with hx | hx
      · rcases List.mem_cons.mp hx with rfl | hx
        · exact Or.inr List.mem_cons_self
        · exact Or.inl hx
      · exact Or.inr (List.mem_cons_of_mem c hx)

namespace Pragma

theorem ofLine?_eq_none {line : Cells} (h : ∀ x ∈ line, x.char ≠ '#') : ofLine? line = none := by
  rw [Option.eq_none_iff_forall_ne_some]
  intro r hr
  simp only [ofLine?, Option.bind_eq_bind, Option.bind_eq_some_iff] at hr
  obtain ⟨c, hc, -⟩ := hr
  obtain ⟨-, x, hx, hchar⟩ := Cursor.exists_of_mark? hc
  exact h x ((Cursor.rest_advance_suffix _ _).subset hx) hchar

theorem ofLines_eq_nil {number : Nat} {lines : List (Nat × Cells)}
    (h : ∀ l ∈ lines, ofLine? l.2 = none) : ofLines number lines = [] := by
  induction lines generalizing number with
  | nil => rfl
  | cons l lines ih =>
    have hrest := @ih (number + 1) fun l hl => h l (List.mem_cons_of_mem _ hl)
    have hl := h l List.mem_cons_self
    rw [ofLines, hl]
    exact hrest

theorem parse_eq_nil {source : String} (h : ∀ x ∈ Cells.ofString source, x.char ≠ '#') :
    parse source = [] := by
  refine ofLines_eq_nil fun l hl => ofLine?_eq_none fun x hx => h x ?_
  exact (Cells.mem_of_mem_linesFrom hl hx).resolve_left List.not_mem_nil

end Pragma

theorem Tree.disabling?_eq_none {t : Tree} (h : t.directives = []) (x : Diagnostic) :
    t.disabling? x = none := by
  rw [disabling?, h]
  rfl

/-! ### The diagnostics of one rule -/

namespace Setup

variable {t : Tree} {n : Node}

theorem filter_id_reportAt (s : Setup) (id text k : String) :
    (s.reportAt t n id text).filter (·.id == k) = if id = k then s.reportAt t n id text else [] := by
  split
  · rename_i heq
    exact List.filter_eq_self.mpr fun x hx => beq_iff_eq.mpr ((id_of_mem_reportAt hx).trans heq)
  · rename_i hne
    rw [List.filter_eq_nil_iff]
    intro x hx heq
    exact hne ((id_of_mem_reportAt hx).symm.trans (beq_iff_eq.mp heq))

open Classical in
/-- What is said at a node about changes is said if the node leaves the triggers open. -/
theorem filter_violationsAt (s : Setup) (x : Node × NodeId) :
    (s.violationsAt t x).filter (·.id == "LC0040") =
      if t.LeavesTriggerOpen x.2 x.1 then s.reportAt t x.1 "LC0040" Catalog.runTriggerText
      else [] := by
  have hother : ∀ {p : Prop} {id text : String}, id ≠ "LC0040" →
      (if p then s.reportAt t x.1 id text else []).filter (·.id == "LC0040") = [] := by
    intro p id text hne
    split
    · rw [filter_id_reportAt, if_neg hne]
    · rfl
  rw [violationsAt, List.filter_append, List.filter_append, hother (show "LC0021" ≠ _ by decide),
    hother (show "LC0022" ≠ _ by decide), List.append_nil, List.append_nil]
  split
  · exact s.filter_id_reportAt _ _ _
  · rfl

end Setup

namespace Dispatcher

variable {d d' : Dispatcher}

/-- Registering a rule keeps a dispatcher without settings as it would be configured. -/
theorem withConfig_register {rule : Rule} (h : d.register rule = .ok d')
    (hd : d.withConfig {} = .ok d) : d'.withConfig {} = .ok d' := by
  have hexclusions : ({} : Config).exclusions = .ok [] := rfl
  rw [withConfig, hexclusions] at hd ⊢
  obtain ⟨-, rfl⟩ := register_eq_ok h
  have hsame := Except.ok.inj hd
  have hnone := congrArg exclusions hsame
  have hseverities := congrArg severities hsame
  dsimp only [written] at hnone hseverities ⊢
  rw [hseverities, hnone]

theorem withConfig_registerAll {rules : List Rule} (h : d.registerAll rules = .ok d')
    (hd : d.withConfig {} = .ok d) : d'.withConfig {} = .ok d' := by
  induction rules generalizing d with
  | nil =>
    cases h
    exact hd
  | cons rule rules ih =>
    unfold registerAll at h
    split at h
    · rename_i hregister
      exact ih h (withConfig_register hregister hd)
    · cases h

theorem withConfig_new (c : Catalog) : (Dispatcher.new c).withConfig {} = .ok (Dispatcher.new c) :=
  rfl

theorem builtinUnder_default (hd : builtin = .ok d) : builtinUnder {} = .ok d := by
  rw [builtinUnder_eq hd]
  exact withConfig_registerAll hd (withConfig_new _)

variable {config : Config} {doc : Document} {t : Tree}

/-- **What the rule on changes reports** is, node after node, at the spans of the calls that leave
the triggers open. -/
theorem filter_visitAll_runTrigger (hd : builtinUnder config = .ok d)
    (ht : Tree.ofDocument doc = .ok t) {severity : Severity}
    (hseverity : d.severityFor? "LC0040" = some severity) :
    (d.visitAll t .empty).withId "LC0040" = (t.openSpans 0 t.nodes).map fun span =>
      ⟨"LC0040", severity, t.path, span, Catalog.runTriggerText⟩ := by
  have hkept : (d.visitAll t .empty).withId "LC0040" =
      ((d.visitAll t .empty).diagnostics.filter (·.id != "LC0000")).filter (·.id == "LC0040") := by
    rw [List.filter_filter]
    refine List.filter_congr fun x _ => ?_
    by_cases hid : x.id = "LC0040" <;> simp [hid]
  rw [(represents_builtinUnder hd).severityFor?_eq] at hseverity
  rw [hkept, filter_visitAll_builtin hd ht, List.filter_flatMap, Tree.openSpans, List.map_flatMap]
  refine List.flatMap_congr fun x _ => ?_
  rw [Setup.filter_violationsAt, Setup.reportAt, hseverity]
  split <;> rfl

theorem withId_analyze_of_no_directives (ht : d.isExcluded t.path = false) (h : t.directives = [])
    (id : String) : (d.analyze t).withId id = (d.visitAll t .empty).withId id := by
  rw [analyze_eq_merge ht, Findings.underDirectives_eq_self fun x _ => Tree.disabling?_eq_none h x]
  exact congrArg (List.filter _) (List.append_nil _)

end Dispatcher

namespace Program

open Source
open Cells (ofAscii)

/-! ### What stands at the marks -/

/-- Where the marks are depends on the lengths of the pieces only. -/
theorem marksFrom_congr {ps qs : List Piece}
    (h : ps.map (fun p => (p.chars.length, p.marked)) = qs.map fun p => (p.chars.length, p.marked))
    (pos : Nat) : marksFrom pos ps = marksFrom pos qs := by
  induction ps generalizing qs pos with
  | nil =>
    cases qs with
    | nil => rfl
    | cons q qs => cases h
  | cons p ps ih =>
    cases qs with
    | nil => cases h
    | cons q qs =>
      simp only [List.map_cons, List.cons.injEq, Prod.mk.injEq] at h
      rw [marksFrom, marksFrom, h.1.1, h.1.2, ih h.2]

theorem map_slice_marksFrom (pre : List Char) (ps : List Piece) :
    (marksFrom pre.length ps).map (Cells.slice (ofAscii (pre ++ text ps))) =
      (ps.filter (·.marked)).map (ofAscii ·.chars) := by
  induction ps generalizing pre with
  | nil => rfl
  | cons p ps ih =>
    have hrest := ih (pre ++ p.chars)
    rw [List.length_append, List.append_assoc] at hrest
    have hslice : (ofAscii (pre ++ (p.chars ++ text ps))).slice
        ⟨pre.length, pre.length + p.chars.length⟩ = ofAscii p.chars := by
      refine @Cells.slice_of_append _ (ofAscii pre) _ (ofAscii (text ps)) _ ?_ ?_ ?_
      · rw [Cells.ofAscii_append, Cells.ofAscii_append]
      · rw [Cells.length_ofAscii]
      · rw [Cells.length_ofAscii, Cells.length_ofAscii]
    rw [marksFrom, text_cons, List.map_append, hrest, List.filter_cons]
    split
    · rw [List.map_singleton, hslice]
      rfl
    · rfl

theorem Statement.filter_marked_pieces {v : Identifier} (ss : List (Statement v)) (obsolete : Bool) :
    (ss.flatMap (·.pieces obsolete)).filter (·.marked) =
      if obsolete then [] else (ss.filter (·.leavesOpen)).map fun s => ⟨s.call, true⟩ := by
  induction ss with
  | nil => cases obsolete <;> rfl
  | cons s ss ih =>
    rw [List.flatMap_cons, List.filter_append, ih, pieces]
    cases obsolete <;> cases hopen : s.leavesOpen <;> simp [hopen, Piece.line]

theorem Procedure.filter_marked_pieces (p : Procedure) (reason : Char) :
    (p.pieces reason).filter (·.marked) =
      if p.obsolete then [] else (p.statements.filter (·.leavesOpen)).map fun s => ⟨s.call, true⟩ := by
  have hattribute : (p.attributePieces reason).filter (·.marked) = [] := by
    rw [attributePieces]
    split <;> rfl
  rw [pieces, List.filter_append, List.filter_append, List.filter_append, hattribute,
    Statement.filter_marked_pieces]
  exact List.append_nil _

namespace Codeunit

variable (c : Codeunit)

/-- The reason of the attributes does not move anything. -/
theorem marksFrom_pieces (reason : Char) :
    marksFrom 0 (c.pieces reason) =
      marksFrom (c.header.length + 3) (c.procedures.flatMap (·.pieces ' ')) := by
  have hsame : marksFrom 0 (c.pieces reason) = marksFrom 0 (c.pieces ' ') := by
    refine marksFrom_congr ?_ 0
    have hprocedure : ∀ p : Procedure,
        (p.pieces reason).map (fun p => (p.chars.length, p.marked)) =
          (p.pieces ' ').map fun p => (p.chars.length, p.marked) := by
      intro p
      simp only [Procedure.pieces, Procedure.attributePieces, List.map_append]
      split <;> rfl
    simp only [pieces, List.map_append, List.map_flatMap, hprocedure]
  rw [hsame, pieces, List.append_assoc, List.cons_append, List.cons_append, marksFrom_line,
    marksFrom_line, List.nil_append, marksFrom_append]
  simp [marksFrom, Nat.add_assoc]

/-- The marked pieces are the calls that are to be reported. -/
theorem filter_marked_pieces (reason : Char) :
    (c.pieces reason).filter (·.marked) = (c.procedures.filter (!·.obsolete)).flatMap fun p =>
      (p.statements.filter (·.leavesOpen)).map fun s => ⟨s.call, true⟩ := by
  have hprocedures : (c.procedures.flatMap (·.pieces reason)).filter (·.marked) =
      (c.procedures.filter (!·.obsolete)).flatMap fun p =>
        (p.statements.filter (·.leavesOpen)).map fun s => ⟨s.call, true⟩ := by
    induction c.procedures with
    | nil => rfl
    | cons p ps ih =>
      rw [List.flatMap_cons, List.filter_append, ih, p.filter_marked_pieces, List.filter_cons]
      cases p.obsolete <;> rfl
  rw [pieces, List.filter_append, List.filter_append, hprocedures]
  exact List.append_nil _

/-- **At the marks stand the calls that are to be reported**: those in force that leave open whether
triggers run. -/
theorem map_slice_marks :
    (marksFrom 0 (c.pieces 'x')).map (Cells.slice (Cells.ofString c.source)) =
      (c.procedures.filter (!·.obsolete)).flatMap fun p =>
        (p.statements.filter (·.leavesOpen)).map (ofAscii ·.call) := by
  have hmarks := map_slice_marksFrom [] (c.pieces 'x')
  rw [List.length_nil, List.nil_append] at hmarks
  rw [c.ofString_source, hmarks, c.filter_marked_pieces, List.map_flatMap]
  refine List.flatMap_congr fun p _ => ?_
  rw [List.map_map]
  rfl

end Codeunit

/-! ### How many nodes there are -/

theorem two_mul_length_le (as : List Literal) : 2 * as.length ≤ (spelled as).length + 1 := by
  induction as with
  | nil => exact Nat.zero_le _
  | cons a as ih =>
    have ha := List.length_pos_iff.mpr a.chars_ne_nil
    cases as with
    | nil =>
      rw [spelled_singleton]
      simp only [List.length_cons, List.length_nil]
      omega
    | cons b as =>
      rw [spelled_cons]
      simp only [List.length_cons, List.length_append, List.length_nil] at ih ⊢
      omega

theorem Statement.nodeCount_le {v : Identifier} (s : Statement v) (obsolete : Bool) :
    s.nodeCount ≤ (text (s.pieces obsolete)).length := by
  have h := two_mul_length_le s.arguments
  simp only [nodeCount, pieces, call, front, Piece.line, text_cons, text_nil, List.length_append,
    List.length_cons, List.length_nil]
  omega

theorem Procedure.nodeCount_le (p : Procedure) (reason : Char) :
    p.nodeCount ≤ (text (p.pieces reason)).length := by
  have hstatements : (p.statements.map Statement.nodeCount).sum ≤
      (text (p.statements.flatMap (·.pieces p.obsolete))).length := by
    rw [text_flatMap, List.length_flatMap]
    exact List.sum_le_sum fun s _ => s.nodeCount_le p.obsolete
  simp only [nodeCount, pieces, Piece.line, text_append, text_cons, text_nil, List.length_append,
    List.length_cons, List.length_nil]
  omega

namespace Codeunit

variable (c : Codeunit)

theorem nodeCount_le : c.nodeCount ≤ c.source.utf8ByteSize := by
  have hprocedures : (c.procedures.map Procedure.nodeCount).sum ≤
      (text (c.procedures.flatMap (·.pieces 'x'))).length := by
    rw [text_flatMap, List.length_flatMap]
    exact List.sum_le_sum fun p _ => p.nodeCount_le 'x'
  rw [← Cells.length_ofString, c.ofString_source, Cells.length_ofAscii]
  simp only [nodeCount, pieces, Piece.line, text_append, text_cons, text_nil, List.length_append,
    List.length_cons, List.length_nil]
  omega

theorem length_procedures_le : 1 + 2 * c.procedures.length ≤ c.nodeCount := by
  have hprocedures : 2 * c.procedures.length ≤ (c.procedures.map Procedure.nodeCount).sum := by
    generalize c.procedures = ps
    induction ps with
    | nil => exact Nat.zero_le _
    | cons p ps ih =>
      simp only [List.length_cons, List.map_cons, List.sum_cons, Procedure.nodeCount]
      omega
  rw [nodeCount]
  omega

/-! ### The tree and its reports -/

theorem parse_source : Pragma.parse c.source = [] := by
  refine Pragma.parse_eq_nil fun x hx hchar => ?_
  rw [c.ofString_source] at hx
  obtain ⟨ch, hch, rfl⟩ := List.mem_map.mp hx
  obtain rfl : ch = '#' := hchar
  rcases c.isTame_of_mem (by decide) hch with h | h
  · exact absurd h (by decide)
  · exact absurd h (by decide)

theorem exists_resolveDocument (path : String) {t : Text}
    (ht : t = Text.ofCells (Cells.ofString c.source)) :
    ∃ (names : List String) (object : Symbol) (e : Entry) (symbols : List Symbol) (o : Outline),
      object.obsolete = .current ∧ e.kind ≠ .invocationExpression ∧
      Listed t names 1 (c.header.length + 3) c.procedures symbols o ∧
      resolveDocument path c.source = .ok {
        path, source := some c.source, symbols := object :: symbols
        nodes := (Outline.single { kind := .compilationUnit, span := t.span ⟨0, t.length⟩ }
          (.single e o)).nodesFrom none 0 } := by
  subst ht
  obtain ⟨names, object, e, symbols, o, -, hcurrent, he, hlisted, hobjects⟩ :=
    c.exists_resolveObjects c.reads_source (Text.copies_ofCells (Cells.whole_ofString c.source))
  refine ⟨names, object, e, symbols, o, hcurrent, he, hlisted, ?_⟩
  rw [resolveDocument]
  simp only [hobjects]

/-- **The document of a codeunit**: how many nodes and symbols it has, and which nodes of its tree
leave open whether triggers run. -/
theorem exists_document (path : String) :
    ∃ doc, resolveDocument path c.source = .ok doc ∧ doc.path = path ∧
      doc.source = some c.source ∧ doc.nodes.length = c.nodeCount ∧
      doc.symbols.length = 1 + 2 * c.procedures.length ∧
      ∀ tree, Tree.ofDocument doc = .ok tree →
        tree.openSpans 0 tree.nodes = (marksFrom 0 (c.pieces 'x')).map
          (LineIndex.ofCells (Cells.ofString c.source)).span := by
  generalize hprepared : Text.ofCells (Cells.ofString c.source) = t
  have hreads : t.Reads (text (c.pieces ' ')) := hprepared ▸ c.reads_source
  have hlisting : t.Reads ((c.header ++ ['\n', '\x7b', '\n']) ++ (listing c.procedures ++
      ('\x7d' :: c.ending))) := by
    rw [c.text_pieces, members] at hreads
    simpa [listing] using hreads
  have hstart : c.header.length + 3 = (c.header ++ ['\n', '\x7b', '\n']).length := by simp
  obtain ⟨names, object, e, symbols, o, hcurrent, he, hlisted, hdocument⟩ :=
    c.exists_resolveDocument path hprepared.symm
  refine ⟨_, hdocument, rfl, rfl, ?_, ?_, fun tree htree => ?_⟩
  · rw [Outline.length_nodesFrom]
    simp only [Outline.single, Outline.size, hlisted.size_eq hlisting hstart, nodeCount]
    omega
  · rw [List.length_cons, hlisted.length_symbols, Nat.add_comm]
  · obtain ⟨-, hsame, -⟩ := Tree.ofDocument_eq_ok_iff.mp htree
    have hobjects : ∀ s x, tree.symbol? s = some x → x.kind.isObject = true →
        x.obsolete = .current := by
      intro s x hx hobject
      rw [Tree.symbol?, hsame] at hx
      rcases List.mem_cons.mp (List.mem_of_getElem? hx) with rfl | hmem
      · exact hcurrent
      · rw [hlisted.not_isObject hmem] at hobject
        cases hobject
    have hspan : t.span = (LineIndex.ofCells (Cells.ofString c.source)).span := by
      rw [← hprepared]
      rfl
    have hopen := hlisted.openSpans_eq htree (congrArg Document.nodes hsame)
      (congrArg (fun d => d.symbols.drop 1) hsame) hobjects
      (fun x hx => (c.ne_of_mem_bare hreads hx).1) hlisting hstart
      (Outline.Sits.below (Outline.Sits.below fun _ _ _ _ hat => hat))
    rw [hsame, Outline.openSpans_single (by rintro ⟨⟩), Outline.openSpans_single he, hopen, hspan,
      c.marksFrom_pieces]

/-- **The tree of a codeunit**: there is one if its nodes can be counted, and else the document is
refused for its size. -/
theorem resolve_source (path : String) :
    (c.nodeCount < 2 ^ 32 → ∃ doc tree, resolve path c.source = .ok tree ∧
      Tree.ofDocument doc = .ok tree ∧ tree.path = path ∧ tree.directives = [] ∧
      tree.openSpans 0 tree.nodes = (marksFrom 0 (c.pieces 'x')).map
        (LineIndex.ofCells (Cells.ofString c.source)).span) ∧
    (2 ^ 32 ≤ c.nodeCount → resolve path c.source = .error (.tree .tooLarge)) := by
  obtain ⟨doc, hdocument, hpath, hsource, hnodes, hsymbols, hopen⟩ := c.exists_document path
  have hfits : doc.fits = true ↔ c.nodeCount < 2 ^ 32 := by
    have hle := c.length_procedures_le
    have hsize : UInt32.size = 2 ^ 32 := rfl
    rw [Document.fits, hnodes, hsymbols, Bool.and_eq_true, decide_eq_true_eq, decide_eq_true_eq]
    omega
  have haccepts := (Tree.ofDocument_accepts_exactly doc).1
  rw [resolve, hdocument]
  constructor
  · intro hsmall
    obtain ⟨tree, htree⟩ := haccepts.mpr ⟨hfits.mpr hsmall, wellFormed_resolveDocument hdocument⟩
    obtain ⟨-, hsame, -⟩ := Tree.ofDocument_eq_ok_iff.mp htree
    refine ⟨doc, tree, ?_, htree, ?_, ?_, hopen tree htree⟩
    · simp only [htree]
    · rw [hsame, hpath]
    · rw [Tree.directives, hsame, hsource]
      exact c.parse_source
  · intro hlarge
    cases htree : Tree.ofDocument doc with
    | ok tree =>
      have hsmall := hfits.mp (haccepts.mp ⟨tree, htree⟩).1
      omega
    | error defect =>
      obtain ⟨rfl, -⟩ := (ofDocument_eq_error_iff hdocument).mp htree
      simp only [htree]

end Codeunit
end Program

namespace Dispatcher

/-- **The linter reports exactly the calls of a codeunit that leave open whether triggers run.** At
the marks stand, in order, the calls of procedures that are not obsolete that change records and
say nothing of triggers. Take any such codeunit whose source is shorter than `2 ^ 32` bytes: it has
at least as many bytes as nodes, so it has less than `2 ^ 32` nodes. Then it resolves, and in its
tree the rule on changes reports the extents of the marks, in order and nothing else. The bound is
the one the front end itself sets, a codeunit of `2 ^ 32` nodes or more is refused for its size. -/
theorem builtin_reports_marked {d : Dispatcher} (hd : builtin = .ok d) (path : String)
    (c : Program.Codeunit) :
    (Program.marksFrom 0 (c.pieces 'x')).map (Cells.slice (Cells.ofString c.source)) =
      ((c.procedures.filter (!·.obsolete)).flatMap fun p =>
        (p.statements.filter (·.leavesOpen)).map (Cells.ofAscii ·.call)) ∧
    c.nodeCount ≤ c.source.utf8ByteSize ∧
    (c.nodeCount < 2 ^ 32 → ∃ t, Source.resolve path c.source = .ok t ∧
      (d.analyze t).withId "LC0040" = (Program.marksFrom 0 (c.pieces 'x')).map fun r =>
        ⟨"LC0040", .info, path, (LineIndex.ofCells (Cells.ofString c.source)).span r,
          Catalog.runTriggerText⟩) ∧
    (2 ^ 32 ≤ c.nodeCount → Source.resolve path c.source = .error (.tree .tooLarge)) := by
  have hplain := builtinUnder_default hd
  obtain ⟨hsmall, hlarge⟩ := c.resolve_source path
  refine ⟨c.map_slice_marks, c.nodeCount_le, fun hcount => ?_, hlarge⟩
  obtain ⟨doc, t, hresolve, ht, hpath, hdirectives, hspans⟩ := hsmall hcount
  have hseverity : d.severityFor? "LC0040" = some .info :=
    ((represents_builtinUnder hplain).severityFor?_eq _).trans
      (Setup.severity?_builtin_default List.mem_cons_self)
  refine ⟨t, hresolve, ?_⟩
  rw [withId_analyze_of_no_directives (isExcluded_builtinUnder_default hplain t.path) hdirectives,
    filter_visitAll_runTrigger hplain ht hseverity, hspans, hpath, List.map_map]
  rfl

/-- An obsolete procedure with a change, and a procedure with three changes, the second of which says
that triggers run. -/
def sampleCodeunit : Program.Codeunit where
  name := ⟨['C'], by decide, by decide, by decide⟩
  procedures :=
    let r : Program.Identifier := ⟨['R'], by decide, by decide, by decide⟩
    let cust : Program.Identifier := ⟨['C', 'u', 's', 't'], by decide, by decide, by decide⟩
    [{ obsolete := true
       name := ⟨['P'], by decide, by decide, by decide⟩
       record := r
       table := ⟨['T'], by decide, by decide, by decide⟩
       statements := [⟨r, rfl, ⟨['I', 'n', 's', 'e', 'r', 't'], by decide, by decide, by decide⟩, []⟩] },
     { obsolete := false
       name := ⟨['Q'], by decide, by decide, by decide⟩
       record := cust
       table := ⟨['T'], by decide, by decide, by decide⟩
       statements := [
        ⟨⟨['C', 'U', 'S', 'T'], by decide, by decide, by decide⟩, by decide,
          ⟨['M', 'o', 'd', 'i', 'f', 'y', 'A', 'l', 'l'], by decide, by decide, by decide⟩,
          [.integer false ['1'] (by decide) (by decide), .integer true ['2'] (by decide) (by decide)]⟩,
        ⟨cust, rfl, ⟨['D', 'e', 'l', 'e', 't', 'e'], by decide, by decide, by decide⟩,
          [.boolean ['T', 'r', 'u', 'e'] (by decide)]⟩,
        ⟨cust, rfl, ⟨['D', 'E', 'L', 'E', 'T', 'E'], by decide, by decide, by decide⟩, []⟩] }]
  ended := true

example : sampleCodeunit.source = "codeunit 50100 C\n\x7b\n[Obsolete('x')]\n" ++
    "procedure P(var R: Record T)\nbegin\nR.Insert();\nend;\n" ++
    "procedure Q(var Cust: Record T)\nbegin\nCUST.ModifyAll(1, -2);\nCust.Delete(True);\n" ++
    "Cust.DELETE();\nend;\n\x7d\n" := by
  decide +kernel

/-- The first and the last change of the second procedure are reported. -/
theorem reports_sampleCodeunit : ∃ d t, builtin = .ok d ∧ sampleCodeunit.nodeCount < 2 ^ 32 ∧
    Source.resolve "a.al" sampleCodeunit.source = .ok t ∧
    (d.analyze t).withId "LC0040" =
      [⟨"LC0040", .info, "a.al", ⟨125, 146, 10, 1, 10, 22⟩, Catalog.runTriggerText⟩,
        ⟨"LC0040", .info, "a.al", ⟨167, 180, 12, 1, 12, 14⟩, Catalog.runTriggerText⟩] := by
  obtain ⟨d, hd⟩ := exists_builtin
  have hcount : sampleCodeunit.nodeCount < 2 ^ 32 := by decide
  obtain ⟨-, -, hsmall, -⟩ := builtin_reports_marked hd "a.al" sampleCodeunit
  obtain ⟨t, ht, hreports⟩ := hsmall hcount
  refine ⟨d, t, hd, hcount, ht, hreports.trans ?_⟩
  rw [sampleCodeunit.ofString_source]
  decide +kernel

end Dispatcher
end TreeLint
