/-
# A comment on a line of its own

A comment on a line of its own, put in where code is read, becomes a line of blanks
in both copies and leaves the rest as it is (`Source.addsLine_comment`). What follows
is the theory of a blank line: the tree is the same but for places and lines, if
names stand on one line and nothing is read off the attribute lines that a routine
is parted from (`Source.comment_line_keeps_tree`).

The condition is needed. The comment is blank, and a blank line ends the search for
attribute lines, so a comment between `[Obsolete]` and its procedure makes the
procedure current (`Source.comment_below_attribute`).

Key definitions: `Source.CommentLine`, `Source.CodeLineBelow`, `Tree.unplaced`,
`Tree.OnOneLine`, `Source.KeepsAttributes`.
Key theorems: `Source.addsLine_comment`, `Source.comment_line_keeps_tree`,
`Source.comment_below_attribute`.
-/
import TreeLint.Proofs.AddedLines
import TreeLint.Proofs.Documents
import TreeLint.Proofs.LineScans
import TreeLint.Proofs.WidenedTrees

namespace TreeLint

open Pragma (WholeLines)

/-! ### Trees without places -/

/-- The node without the offsets and the lines of its span. -/
def Node.unplaced (n : Node) : Node :=
  { n with span := { n.span with startByte := 0, endByte := 0, startLine := 0, endLine := 0 } }

/-- The document without its source and without the offsets and lines of its nodes. -/
def Document.unplaced (d : Document) : Document :=
  { d with source := none, nodes := d.nodes.map Node.unplaced }

/-- The tree without its source and without the offsets and lines of its nodes. -/
def Tree.unplaced (t : Tree) : Tree := { t with toDocument := t.toDocument.unplaced }

/-- The names of the symbols and of the methods called stand on one line each. -/
structure Tree.OnOneLine (t : Tree) : Prop where
  symbols : ∀ x ∈ t.symbols, x.OnOneLine
  nodes : ∀ n ∈ t.nodes, n.OnOneLine

namespace Document

variable {d d' : Document}

theorem parents_unplaced (d : Document) : d.unplaced.parents = d.parents := by
  rw [parents, parents, unplaced, List.zipIdx_map, List.filterMap_map]
  rfl

/-- Whether a document is well formed does not depend on places. -/
theorem wellFormed_unplaced_iff : d.unplaced.WellFormed ↔ d.WellFormed := by
  have hnodes : ∀ (i : NodeId) (n : Node), d.nodes[i]? = some n →
      d.unplaced.nodes[i]? = some n.unplaced := fun i n hn => by
    rw [unplaced, List.getElem?_map, hn, Option.map_some]
  have hnodes' : ∀ (i : NodeId) (n : Node), d.unplaced.nodes[i]? = some n →
      ∃ m, d.nodes[i]? = some m ∧ n = m.unplaced := fun i n hn => by
    obtain ⟨m, hm, rfl⟩ := Option.map_eq_some_iff.mp ((List.getElem?_map ..).symm.trans hn)
    exact ⟨m, hm, rfl⟩
  have hlength : d.unplaced.nodes.length = d.nodes.length := List.length_map ..
  constructor
  · rintro ⟨hcontaining, hacyclic, hparent, hsymbol, hvalue⟩
    refine ⟨hcontaining, hacyclic, fun i n p hn => hparent i n.unplaced p (hnodes i n hn),
      fun i n s hn => hsymbol i n.unplaced s (hnodes i n hn), fun i n call a v hn => ?_⟩
    rw [← hlength]
    exact hvalue i n.unplaced call a v (hnodes i n hn)
  · rintro ⟨hcontaining, hacyclic, hparent, hsymbol, hvalue⟩
    refine ⟨hcontaining, hacyclic, fun i n p hn => ?_, fun i n s hn => ?_, fun i n call a v hn => ?_⟩
    · obtain ⟨m, hm, rfl⟩ := hnodes' i n hn
      exact hparent i m p hm
    · obtain ⟨m, hm, rfl⟩ := hnodes' i n hn
      exact hsymbol i m s hm
    · obtain ⟨m, hm, rfl⟩ := hnodes' i n hn
      rw [hlength]
      exact hvalue i m call a v hm

end Document

/-- **Two documents that differ in places only give trees that differ in places only.** -/
theorem Tree.exists_ofDocument_of_unplaced {d d' : Document} {t : Tree} (h : ofDocument d = .ok t)
    (heq : d'.unplaced = d.unplaced) :
    ∃ t', ofDocument d' = .ok t' ∧ t'.toDocument = d' ∧ t'.unplaced = t.unplaced := by
  obtain ⟨⟨hfits, hwell⟩, rfl, hchildren⟩ := ofDocument_eq_ok_iff.mp h
  have hsymbols : d'.symbols = t.symbols := by
    have := congrArg Document.symbols heq
    exact this
  have hlength : d'.nodes.length = t.nodes.length := by
    have := congrArg (fun d => d.nodes.length) heq
    simpa [Document.unplaced] using this
  have hwell' : d'.WellFormed := by
    rwa [← Document.wellFormed_unplaced_iff, heq, Document.wellFormed_unplaced_iff]
  have hfits' : d'.fits = true := by rwa [Document.fits, hlength, hsymbols]
  have hchildren' : (List.range d'.nodes.length).map d'.childrenOf = t.children := by
    have hparents : d'.parents = t.parents := by
      rw [← d'.parents_unplaced, heq, Document.parents_unplaced]
    have hsame : d'.childrenOf = t.childrenOf := by
      funext p
      rw [Document.childrenOf, Document.childrenOf, hparents]
    rw [hchildren, hlength, hsame]
  refine ⟨⟨d', t.children⟩, ofDocument_eq_ok_iff.mpr ⟨⟨hfits', hwell'⟩, rfl, hchildren'.symm⟩, rfl, ?_⟩
  simp only [Tree.unplaced, heq]

namespace Source

variable {hide : Layer → Bool}

/-! ### Comments -/

/-- The line has a comment and nothing else on it. -/
def CommentLine (line : List Char) : Prop :=
  ∃ indent comment, line = indent ++ ('/' :: '/' :: comment) ++ ['\n'] ∧
    (∀ c ∈ indent, CharClass.isBlank c = true) ∧ '\n' ∉ indent ∧ '\n' ∉ comment

/-- The text is made of whole lines, and the next line starts outside block comments and string
literals. -/
structure CodeLineBelow (above : String) : Prop where
  whole : WholeLines above.toList
  not_block : ¬ LeavesBlock above
  not_literal : ¬ LeavesLiteral above

/-- A line with its comment blanked, without the line feed. -/
def blankedLine (indent comment : List Char) : Cells :=
  Cells.ofChars indent ++ (Cells.ofChars ('/' :: '/' :: comment)).map (cover (· == .hidden) .hidden)

section Comment

variable {indent comment : List Char} (hindent : ∀ c ∈ indent, CharClass.isBlank c = true)
  (hfeed : '\n' ∉ indent) (hfeed' : '\n' ∉ comment)

include hindent in
theorem blank_of_mem_blankedLine {x : Cell} (hx : x ∈ blankedLine indent comment) :
    x.isBlank = true := by
  rcases List.mem_append.mp hx with hx | hx
  · exact hindent _ (Cells.char_mem_of_mem_ofChars hx)
  · obtain ⟨y, -, rfl⟩ := List.mem_map.mp hx
    unfold cover
    split
    · rfl
    · rename_i hkept
      have hbreak : y.char = '\n' ∨ y.char = '\r' := by simpa [or_iff_not_imp_left] using hkept
      rcases hbreak with hbreak | hbreak <;> rw [Cell.isBlank, hbreak] <;> rfl

include hfeed hfeed' in
theorem single_blankedLine : ∀ x ∈ blankedLine indent comment, x.char ≠ '\n' := by
  intro x hx
  rcases List.mem_append.mp hx with hx | hx
  · exact fun hchar => hfeed (hchar ▸ Cells.char_mem_of_mem_ofChars hx)
  · obtain ⟨y, hy, rfl⟩ := List.mem_map.mp hx
    have hchar : y.char ≠ '\n' := by
      have hmem := Cells.char_mem_of_mem_ofChars hy
      rintro heq
      rw [heq] at hmem
      simp [hfeed'] at hmem
    unfold cover
    split
    · decide
    · exact hchar

include hindent hfeed' in
/-- **A comment is a line of blanks in both copies**, and behind it code is read. -/
theorem coveredFrom_comment (hhidden : hide .hidden = true) (hcode : hide .code = false)
    (rest : Cells) :
    coveredFrom hide .code
        (Cells.ofChars (indent ++ ('/' :: '/' :: comment) ++ ['\n']) ++ rest) =
      blankedLine indent comment ++ Cell.feed :: coveredFrom hide .code rest := by
  have hgap : ∀ x ∈ Cells.ofChars indent, x.char ∉ ['/', '\'', '"'] := by
    intro x hx hmem
    have hblank := hindent _ (Cells.char_mem_of_mem_ofChars hx)
    simp only [List.mem_cons, List.not_mem_nil, or_false] at hmem
    rcases hmem with h | h | h <;> rw [h] at hblank <;> cases hblank
  have hstays : ∀ x ∈ Cells.ofChars comment, ∀ next,
      maskStep .lineComment x.char next = (.hidden, .lineComment) := by
    intro x hx next
    have hmem := Cells.char_mem_of_mem_ofChars hx
    have hchar : x.char ≠ '\n' := fun heq => hfeed' (heq ▸ hmem)
    exact if_neg hchar
  have hcover : cover hide .hidden = cover (· == .hidden) .hidden := by
    funext x
    simp [cover, hhidden]
  have hslashes : Cells.ofChars ('/' :: '/' :: comment) =
      ⟨'/', true⟩ :: ⟨'/', true⟩ :: Cells.ofChars comment := rfl
  have hlast : Cells.ofChars ['\n'] = [Cell.feed] := rfl
  rw [Cells.ofChars_append, Cells.ofChars_append, hslashes, hlast, List.append_assoc, List.append_assoc,
    coveredFrom_code_append hcode hgap, blankedLine, hslashes, List.append_assoc]
  have hopen : maskStep .code '/' (some '/') = (.hidden, .lineComment) := rfl
  have hsecond : ∀ next, maskStep .lineComment '/' next = (.hidden, .lineComment) := fun _ => rfl
  have hend : ∀ next, maskStep .lineComment Cell.feed.char next = (.code, .code) := fun _ => rfl
  simp only [List.cons_append, List.nil_append, coveredFrom_cons, List.head?_cons, Option.map_some,
    hopen, hsecond, List.map_cons]
  rw [coveredFrom_append_of_stays hstays, coveredFrom_cons, hend, cover_feed, hcover]

end Comment

theorem length_blankedLine (indent comment : List Char) :
    (blankedLine indent comment).length + 1 =
      (Cells.ofChars (indent ++ ('/' :: '/' :: comment) ++ ['\n'])).length := by
  rw [blankedLine, Cells.ofChars_append, Cells.ofChars_append, List.length_append, List.length_append,
    List.length_append, List.length_map]
  rfl

/-! ### A comment below whole lines -/

section Below

variable {above : String} (h : CodeLineBelow above)
include h

theorem CodeLineBelow.ofString_eq :
    Cells.ofString above = [] ∨ ∃ front, Cells.ofString above = front ++ [Cell.feed] := by
  rcases h.whole with hnil | ⟨init, hinit⟩
  · exact Or.inl (by rw [Cells.ofString, hnil]; rfl)
  · exact Or.inr ⟨Cells.ofChars init, by rw [Cells.ofString, hinit, Cells.ofChars_append]; rfl⟩

theorem CodeLineBelow.standsBehind_eq : standsBehind none .code (Cells.ofString above) = .code := by
  rcases h.ofString_eq with hnil | ⟨front, hfront⟩
  · rw [hnil]
    rfl
  · have hfeed := standsBehind_append_feed front
    rw [← hfront] at hfeed
    have hblock : standsBehind none .code (Cells.ofString above) ≠ .block := h.not_block
    have hliteral : standsBehind none .code (Cells.ofString above) ≠ .literal := h.not_literal
    rw [hfeed] at hblock hliteral ⊢
    split at hblock <;> grind

theorem coveredFrom_below (rest : Cells) :
    coveredFrom hide .code (Cells.ofString above ++ rest) =
      coveredFrom hide .code (Cells.ofString above) ++ coveredFrom hide .code rest := by
  rw [coveredFrom_whole_append h.ofString_eq, h.standsBehind_eq]

theorem startsLine_below (below : String) :
    (coveredFrom hide .code (Cells.ofString (above ++ below))).StartsLine above.utf8ByteSize := by
  rw [ofString_append, coveredFrom_below h, ← Cells.length_ofString]
  rcases h.ofString_eq with hnil | ⟨front, hfront⟩
  · exact Or.inl (by rw [hnil]; rfl)
  · obtain ⟨covered, hlength, hcovered⟩ := exists_coveredFrom_append hide .code front [Cell.feed]
    rw [hfront, hcovered, List.length_append, ← hlength, coveredFrom_cons, cover_feed]
    refine Or.inr ⟨Nat.succ_pos _, Cell.feed, ?_, rfl⟩
    simp

/-- **A comment put in is a blank line put into both copies.** -/
theorem addsLine_comment (below : String) {line : String} (hline : CommentLine line.toList) :
    ∃ blanks : Cells, blanks.length + 1 = line.utf8ByteSize ∧
      (Text.ofCells (Cells.ofString (above ++ below))).AddsLine above.utf8ByteSize blanks
        (Text.ofCells (Cells.ofString (above ++ (line ++ below)))) := by
  obtain ⟨indent, comment, hchars, hindent, hfeed, hfeed'⟩ := hline
  have hcells : Cells.ofString line =
      Cells.ofChars (indent ++ ('/' :: '/' :: comment) ++ ['\n']) := congrArg Cells.ofChars hchars
  have hput : ∀ {hide : Layer → Bool}, hide .hidden = true → hide .code = false →
      coveredFrom hide .code (Cells.ofString (above ++ (line ++ below))) =
        (coveredFrom hide .code (Cells.ofString (above ++ below))).putLine above.utf8ByteSize
          (blankedLine indent comment) := by
    intro hide hhidden hcode
    have hlength : (coveredFrom hide .code (Cells.ofString above)).length = above.utf8ByteSize := by
      rw [length_coveredFrom, Cells.length_ofString]
    rw [ofString_append, ofString_append, ofString_append, coveredFrom_below h,
      coveredFrom_below h, hcells, coveredFrom_comment hindent hfeed' hhidden hcode, Cells.putLine,
      List.take_left' hlength, List.drop_left' hlength]
    simp
  have hplace : above.utf8ByteSize ≤ (Cells.ofString (above ++ below)).length := by
    rw [ofString_append, List.length_append, Cells.length_ofString]
    exact Nat.le_add_right ..
  refine ⟨blankedLine indent comment, ?_, ?_⟩
  · rw [length_blankedLine, ← hcells, Cells.length_ofString]
  · exact {
      blank := fun _ hx => blank_of_mem_blankedLine hindent hx
      single := single_blankedLine hfeed hfeed'
      starts := startsLine_below h below
      starts_masked := startsLine_below h below
      le := hplace.trans (length_bare _).ge
      bare := hput rfl rfl
      masked := hput rfl rfl
      depths_eq := rfl
      depths_eq' := rfl }

end Below

/-! ### Trees of texts with a comment put in -/

/-- In the objects of the source nothing is read off the attribute lines that a line put in at the
place parts from their routines. -/
def KeepsAttributes (source : String) (symbols : List Symbol) (place : Nat) : Prop :=
  ∀ home : Home (Text.ofCells (Cells.ofString source)) symbols,
    KeptAt (Text.ofCells (Cells.ofString source)) place home.site home.routines

/-- The node of the whole source. -/
def unitNode (source : String) : Node where
  kind := .compilationUnit
  span := (Text.ofCells (Cells.ofString source)).span ⟨0, source.utf8ByteSize⟩

theorem nodesFrom_unitOutline (source : String) (objects : Outline) :
    (unitOutline source objects).nodesFrom none 0 =
      unitNode source :: objects.nodesFrom (some 0) 1 := by
  rw [unitOutline, Outline.single, Outline.nodesFrom, Outline.nodesFrom, List.append_nil]
  rfl

theorem resolve_of_objects {source : String} {symbols : List Symbol} {objects : Outline}
    (h : resolveObjects (Text.ofCells (Cells.ofString source)) 0 0
      (objectHeader.all ⟨none, 0, (Text.ofCells (Cells.ofString source)).bare⟩) =
        .ok (symbols, objects)) (path : String) (tree : Tree) :
    resolve path source = .ok tree ↔ Tree.ofDocument
      ⟨path, some source, symbols, unitNode source :: objects.nodesFrom (some 0) 1⟩ = .ok tree := by
  have hdoc : resolveDocument path source =
      .ok ⟨path, some source, symbols, unitNode source :: objects.nodesFrom (some 0) 1⟩ := by
    unfold resolveDocument
    simp only [h, Text.length_ofString]
    rw [← nodesFrom_unitOutline]
    rfl
  rw [resolve, hdoc]
  simp only
  split
  · rename_i htree
    rw [htree, Except.ok.injEq, Except.ok.injEq]
  · rename_i htree
    rw [htree]
    refine ⟨fun hok => ?_, fun hok => ?_⟩ <;> cases hok

theorem unplaced_unitNode {source source' : String} {place : Nat} {blanks : Cells}
    (h : (Text.ofCells (Cells.ofString source)).AddsLine place blanks
      (Text.ofCells (Cells.ofString source')))
    (hsize : source'.utf8ByteSize = source.utf8ByteSize + (blanks.length + 1)) :
    (unitNode source').unplaced = (unitNode source).unplaced := by
  have ht := Guarded.lined_ofCells (Cells.whole_ofString source)
  have ht' := Guarded.lined_ofCells (Cells.whole_ofString source')
  have hle := h.le
  have hlength := Text.length_ofString source
  have hstop := h.position ht ht' source.utf8ByteSize
  rw [Text.length] at hlength
  rw [hlength] at hle
  rw [Pragma.pushed, if_neg (by omega), ← hsize] at hstop
  have hfirst : ∀ {S : Cells} {t : Text}, Guarded.Lined S t → (t.lines.position 0).2 = 1 := by
    intro S t ht
    have hzero := (Guarded.startsLine_lineStart ht (Nat.zero_le _)).2
    rw [Text.position_eq ht]
    simp only
    omega
  simp only [Node.unplaced, unitNode, Text.span, LineIndex.span, hfirst ht, hfirst ht', hstop]

/-- **A comment on a line of its own keeps the tree.** -/
theorem comment_line_keeps_tree {path above below line : String} {tree : Tree}
    (h : resolve path (above ++ below) = .ok tree) (habove : CodeLineBelow above)
    (hline : CommentLine line.toList) (hnames : tree.OnOneLine)
    (hkept : KeepsAttributes (above ++ below) tree.symbols above.utf8ByteSize) :
    ∃ tree', resolve path (above ++ (line ++ below)) = .ok tree' ∧
      tree'.unplaced = tree.unplaced ∧
      tree'.nodes.tail = tree.nodes.tail.map
        (Node.moved (Span.makeRoom above.utf8ByteSize line.utf8ByteSize)) := by
  obtain ⟨-, objects, -, -, hobjects, hnodes⟩ := exists_objects_of_resolve h
  obtain ⟨blanks, hlength, hadds⟩ := addsLine_comment habove below hline
  have ht := Guarded.lined_ofCells (Cells.whole_ofString (above ++ below))
  have ht' := Guarded.lined_ofCells (Cells.whole_ofString (above ++ (line ++ below)))
  have hwidens := hadds.widens ht ht'
  have hresume : ∀ i, Pragma.pushed above.utf8ByteSize (blanks.length + 1) i < 0 ↔ i < 0 := fun i => by simp
  obtain ⟨objects', hobjects', hspreads⟩ := resolveObjects_of_widens hwidens ht
    hadds.starts (hadds.readsAttributes ht ht') hkept (fun _ hx => hx) hresume hobjects (.all tree.symbols) hnames.symbols
  rw [← headers_of_widens hwidens ht.toCopies] at hobjects'
  rw [nodesFrom_unitOutline] at hnodes
  have hmoved := hspreads.nodesFrom (some 0) 1 fun n hn =>
    hnames.nodes n (by rw [hnodes]; exact List.mem_cons_of_mem _ hn)
  have hunit := unplaced_unitNode hadds (by
    rw [hlength]
    simp only [String.utf8ByteSize_append]
    omega)
  have hunplaced : ∀ ns : List Node, (ns.map (Node.moved
      (Span.makeRoom above.utf8ByteSize (blanks.length + 1)))).map Node.unplaced =
        ns.map Node.unplaced := fun ns => List.map_map.trans rfl
  have hunplaced' : Document.unplaced ⟨path, some (above ++ (line ++ below)), tree.symbols,
      unitNode (above ++ (line ++ below)) :: objects'.nodesFrom (some 0) 1⟩ =
        Document.unplaced ⟨path, some (above ++ below), tree.symbols,
          unitNode (above ++ below) :: objects.nodesFrom (some 0) 1⟩ := by
    rw [Document.unplaced, Document.unplaced, List.map_cons, List.map_cons, hunit, hmoved, hunplaced]
  obtain ⟨tree', htree', hdoc', hsame⟩ := Tree.exists_ofDocument_of_unplaced
    ((resolve_of_objects hobjects path tree).mp h) hunplaced'
  refine ⟨tree', (resolve_of_objects hobjects' path tree').mpr htree', hsame, ?_⟩
  rw [hdoc', hnodes, List.tail_cons, List.tail_cons, hmoved, hlength]

/-- The objects of a source are those of its headers, so it can be computed whether anything is read
off the attribute lines that routines are parted from. -/
theorem keepsAttributes {source : String} {symbols : List Symbol} {place : Nat}
    (h : ((objectHeader.all ⟨none, 0, (Text.ofCells (Cells.ofString source)).bare⟩).all fun header =>
      (objectSite (Text.ofCells (Cells.ofString source)) header).toOption.all fun site =>
        ((Text.ofCells (Cells.ofString source)).routines site.members).toOption.all fun rs =>
          decide (KeptAt (Text.ofCells (Cells.ofString source)) place site rs)) = true) :
    KeepsAttributes source symbols place := by
  intro home
  obtain ⟨header, hheader, hsite⟩ := home.site_of_header
  have hkept := List.all_eq_true.mp h header hheader
  rw [hsite] at hkept
  simp only [Except.toOption, Option.all_some, home.routines_eq] at hkept
  exact of_decide_eq_true hkept

/-- A codeunit up to the line below the first attribute of its procedure. -/
def sampleAbove : String := "codeunit 1 C\n\x7b\n[Test]\n"

/-- The rest of the codeunit. -/
def sampleBelow : String := "[Obsolete('')]\nprocedure P() begin end;\n\x7d\n"

/-- Below an attribute that nothing is read off a comment keeps the tree. -/
theorem comment_between_attributes : ∃ tree tree',
    resolve "a.al" (sampleAbove ++ sampleBelow) = .ok tree ∧
    CodeLineBelow sampleAbove ∧ CommentLine "  // kept\n".toList ∧ tree.OnOneLine ∧
    KeepsAttributes (sampleAbove ++ sampleBelow) tree.symbols sampleAbove.utf8ByteSize ∧
    tree.symbols.map (·.obsolete) = [.current, .pending] ∧
    resolve "a.al" (sampleAbove ++ ("  // kept\n" ++ sampleBelow)) = .ok tree' ∧
    tree'.unplaced = tree.unplaced := by
  have h : (resolve "a.al" (sampleAbove ++ sampleBelow)).toOption.any (fun tree =>
      tree.symbols.all (fun x => !x.name.toList.contains '\n' && x.declaredType.isNone) &&
      tree.nodes.all (·.invocation.isNone) &&
      decide (tree.symbols.map (·.obsolete) = [.current, .pending])) = true := by
    decide +kernel
  obtain ⟨tree, htree, h⟩ := exists_ok_of_any h
  simp only [Bool.and_eq_true, List.all_eq_true, Bool.not_eq_true', Option.isNone_iff_eq_none,
    decide_eq_true_eq] at h
  obtain ⟨⟨hsymbols, hnodes⟩, hobsolete⟩ := h
  have habove : CodeLineBelow sampleAbove :=
    ⟨Or.inr ⟨"codeunit 1 C\n\x7b\n[Test]".toList, by decide⟩, by decide +kernel, by decide +kernel⟩
  have hline : CommentLine "  // kept\n".toList :=
    ⟨"  ".toList, " kept".toList, by decide, by decide, by decide, by decide⟩
  have hnames : tree.OnOneLine := by
    refine ⟨fun x hx => ⟨?_, fun type htype => ?_⟩, fun n hn call hcall => ?_⟩
    · simpa using (hsymbols x hx).1
    · rw [(hsymbols x hx).2] at htype
      cases htype
    · rw [hnodes n hn] at hcall
      cases hcall
  have hkept : KeepsAttributes (sampleAbove ++ sampleBelow) tree.symbols sampleAbove.utf8ByteSize :=
    keepsAttributes (by decide +kernel)
  obtain ⟨tree', htree', hsame, -⟩ := comment_line_keeps_tree htree habove hline hnames hkept
  exact ⟨tree, tree', htree, habove, hline, hnames, hkept, hobsolete, htree', hsame⟩

/-- A codeunit up to the line below an attribute. -/
def attributeAbove : String := "codeunit 50100 C\n\x7b\n    [Obsolete('Use Q')]\n"

/-- The rest of the codeunit, from the procedure that the attribute is about. -/
def attributeBelow : String := "    procedure P()\n    begin\n    end;\n\x7d\n"

/-- **Between the attribute and its procedure a comment makes the procedure current.** -/
theorem comment_below_attribute : ∃ tree tree',
    resolve "a.al" (attributeAbove ++ attributeBelow) = .ok tree ∧
    CodeLineBelow attributeAbove ∧ CommentLine "    // kept for old callers\n".toList ∧
    tree.symbols.map (fun x => (x.name, x.obsolete)) = [("C", .current), ("P", .pending)] ∧
    resolve "a.al" (attributeAbove ++ ("    // kept for old callers\n" ++ attributeBelow)) = .ok tree' ∧
    tree'.symbols.map (fun x => (x.name, x.obsolete)) = [("C", .current), ("P", .current)] ∧
    tree'.unplaced ≠ tree.unplaced := by
  have h : (resolve "a.al" (attributeAbove ++ attributeBelow)).toOption.any (fun tree =>
      tree.symbols.map (fun x => (x.name, x.obsolete)) = [("C", .current), ("P", .pending)]) = true := by
    decide +kernel
  have h' : (resolve "a.al" (attributeAbove ++ ("    // kept for old callers\n" ++ attributeBelow))
      ).toOption.any (fun tree =>
        tree.symbols.map (fun x => (x.name, x.obsolete)) = [("C", .current), ("P", .current)]) = true := by
    decide +kernel
  obtain ⟨tree, htree, h⟩ := exists_ok_of_any h
  obtain ⟨tree', htree', h'⟩ := exists_ok_of_any h'
  rw [decide_eq_true_eq] at h h'
  have habove : CodeLineBelow attributeAbove :=
    ⟨Or.inr ⟨"codeunit 50100 C\n\x7b\n    [Obsolete('Use Q')]".toList, by decide +kernel⟩,
      by decide +kernel, by decide +kernel⟩
  refine ⟨tree, tree', htree, habove,
    ⟨"    ".toList, " kept for old callers".toList, by decide, by decide, by decide, by decide⟩,
    h, htree', h', fun hsame => ?_⟩
  have hsymbols : tree'.symbols = tree.symbols := congrArg (·.symbols) hsame
  rw [hsymbols, h] at h'
  exact absurd h' (by decide)

end Source
end TreeLint
