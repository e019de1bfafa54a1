/-
# A small source with a large document

Each `var` among the members of an object declares the variables behind it, up to
the next routine. In a list of declarations `A:var;` the type of each is the word
`var` once more, so what is behind it is declared again: behind a `var;`, `n` of
them declare `n + (n - 1) + ... + 1` variables. The source has `6 n` bytes and a
few more, and its document `n (n + 1) / 2 + 1` symbols.

A position has 32 bits, so from some `n` on there is no tree of such a source,
though nothing is wrong with it; half a megabyte is enough.

Key definitions: `LargeDocuments.members`, `LargeDocuments.source`.
Key theorems: `LargeDocuments.length_sections`,
`LargeDocuments.exists_resolveDocument_source`,
`LargeDocuments.resolve_source_eq_tooLarge_iff`.
-/
import Mathlib.Data.Nat.Choose.Basic
import TreeLint.Proofs.Declarations
import TreeLint.Proofs.ProgramTrees
import TreeLint.Proofs.Totality

namespace TreeLint

open Cells (ofAscii lastOr)

namespace LargeDocuments

open Source Program

/-! ### The source -/

/-- A list of declarations of a variable whose type is called `var`. -/
def repeated : Nat → List Char
  | 0 => []
  | n + 1 => spell "A:var" ++ (';' :: repeated n)

/-- The members: the declarations behind a `var`. -/
def members (n : Nat) : List Char := spell "var" ++ (';' :: repeated n)

/-- The codeunit whose header the source has. -/
def frame : Codeunit := ⟨⟨['L'], by decide, by decide, by decide⟩, [], false⟩

/-- A codeunit with the declarations as its members. -/
def source (n : Nat) : String := String.ofList (frame.around (members n) [])

theorem members_succ (n : Nat) :
    members (n + 1) = spell "var" ++ ([';'] ++ (spell "A:" ++ members n)) := by
  simp [members, repeated, spell]

theorem length_members (n : Nat) : (members n).length = 6 * n + 4 := by
  induction n with
  | zero => rfl
  | succ n ih =>
    rw [members_succ]
    simp only [List.length_append, ih]
    simp [spell]
    omega

theorem mem_members {n : Nat} {c : Char} (h : c ∈ members n) : c ∈ spell "A:var;" := by
  induction n with
  | zero =>
    revert c
    decide
  | succ n ih =>
    have hword : ∀ c ∈ spell "var" ++ ([';'] ++ spell "A:"), c ∈ spell "A:var;" := by decide
    rw [members_succ, ← List.append_assoc, ← List.append_assoc] at h
    rcases List.mem_append.mp h with h | h
    · exact hword c (by simpa using h)
    · exact ih h

theorem braceless_members (n : Nat) : Braceless (members n) := by
  have hall : ∀ c ∈ spell "A:var;", c ≠ '\x7b' ∧ c ≠ '\x7d' := by decide
  exact fun c hc => hall c (mem_members hc)

/-- The members are made of the words `var` and `A`, with a mark behind each. -/
theorem exists_runs (n : Nat) : ∃ rs : List WordRun, rs.flatMap WordRun.chars = members n ∧
    ∀ r ∈ rs, r.word = spell "var" ∨ r.word = spell "A" := by
  let var : WordRun := ⟨spell "var", [';'], by decide, by decide, by decide⟩
  let name : WordRun := ⟨spell "A", [':'], by decide, by decide, by decide⟩
  induction n with
  | zero => exact ⟨[var], rfl, fun r hr => Or.inl (congrArg WordRun.word (List.mem_singleton.mp hr))⟩
  | succ n ih =>
    obtain ⟨rs, hchars, hwords⟩ := ih
    refine ⟨var :: name :: rs, ?_, ?_⟩
    · rw [List.flatMap_cons, List.flatMap_cons, hchars, members_succ]
      rfl
    · rw [List.forall_mem_cons, List.forall_mem_cons]
      exact ⟨Or.inl rfl, Or.inr rfl, hwords⟩

/-- The source is read as it is written: there is nothing in it to be blanked. -/
theorem reads_source (n : Nat) :
    (Text.ofCells (Cells.ofString (source n))).Reads (frame.around (members n) []) := by
  have hfront : ∀ c ∈ frame.header ++ spell "\n\x7b", c ∉ ['/', '\'', '"'] ∧ c.toNat < 0x80 := by
    decide
  have hmembers : ∀ c ∈ spell "A:var;", c ∉ ['/', '\'', '"'] ∧ c.toNat < 0x80 := by decide
  have hall : ∀ c ∈ frame.around (members n) [], c ∉ ['/', '\'', '"'] ∧ c.toNat < 0x80 := by
    intro c hc
    have hsplit : frame.around (members n) [] =
        (frame.header ++ spell "\n\x7b") ++ (members n ++ ['\x7d']) := by
      simp [Codeunit.around, spell]
    rw [hsplit] at hc
    rcases List.mem_append.mp hc with hc | hc
    · exact hfront c hc
    · rcases List.mem_append.mp hc with hc | hc
      · exact hmembers c (mem_members hc)
      · rw [List.mem_singleton.mp hc]
        decide
  have hcells : Cells.ofString (source n) = ofAscii (frame.around (members n) []) := by
    rw [Cells.ofString, source, String.toList_ofList]
    exact Cells.ofChars_eq_ofAscii fun c hc => (hall c hc).2
  have hkept : ∀ hide : Layer → Bool, hide .code = false →
      coveredFrom hide .code (ofAscii (frame.around (members n) [])) =
        ofAscii (frame.around (members n) []) := by
    intro hide hcode
    have h := coveredFrom_code hcode (fun c hc => (hall c hc).1) []
    rwa [List.append_nil, show coveredFrom hide .code [] = [] from rfl, List.append_nil] at h
  have hbare : Source.bare (ofAscii (frame.around (members n) [])) = _ := hkept _ rfl
  have hmasked : Source.masked (ofAscii (frame.around (members n) [])) = _ := hkept _ rfl
  rw [hcells, Text.ofCells]
  exact ⟨hbare, hmasked, by rw [hbare], rfl⟩

/-! ### What is declared -/

variable {t : Text} {pre post : List Char}

theorem declaration?_repeated (ht : t.Reads (pre ++ (spell "A:var" ++ post))) :
    t.declaration? false ⟨pre.length, pre.length + 5⟩ =
      some [("A", { kind := TypeKind.ofKeyword "var" })] := by
  have hcolon : (t.bare.slice ⟨pre.length, pre.length + 5⟩).findChar? ':' pre.length =
      some (pre.length + 1) := by
    rw [show t.bare.slice ⟨pre.length, pre.length + 5⟩ = ofAscii (spell "A:var") from
      slice_bare ht rfl rfl]
    rfl
  have hname : t.masked.slice ⟨pre.length, pre.length + 1⟩ = ofAscii ['A'] :=
    @slice_masked t pre (spell ":var" ++ post) ['A'] _ _ ht rfl rfl
  have htype : t.masked.slice ⟨pre.length + 1 + 1, pre.length + 5⟩ = ofAscii (spell "var") := by
    refine @slice_masked t (pre ++ spell "A:") post (spell "var") _ _ ?_ (by simp [spell])
      (by simp [spell])
    rw [List.append_assoc]
    exact ht
  have hnames : declaredNames? (ofAscii ['A']) false = some ["A"] := by decide
  have htypeOf : typeOf? (ofAscii (spell "var")) = some { kind := TypeKind.ofKeyword "var" } := by
    decide
  rw [Text.declaration?, hcolon]
  simp only [hname, htype, hnames, htypeOf]
  rfl

/-- Each of the declarations declares one variable. -/
theorem length_declarationsIn_repeated (n : Nat) (ht : t.Reads (pre ++ (repeated n ++ post))) :
    (t.declarationsIn false (segmentsFrom pre.length pre.length (ofAscii (repeated n)))).length =
      n := by
  induction n generalizing pre with
  | zero =>
    have hempty : t.bare.slice ⟨pre.length, pre.length⟩ = [] :=
      @slice_bare t pre post [] pre.length pre.length ht rfl rfl
    rw [repeated, Cells.ofAscii_nil, segmentsFrom, Text.declarationsIn, hempty]
    rfl
  | succ n ih =>
    have hfirst : t.Reads (pre ++ (spell "A:var" ++ (';' :: repeated n ++ post))) := by
      simpa [repeated] using ht
    have hrest : t.Reads ((pre ++ spell "A:var;") ++ (repeated n ++ post)) := by
      simpa [repeated, spell] using ht
    have hslice : t.bare.slice ⟨pre.length, pre.length + 5⟩ = ofAscii (spell "A:var") :=
      slice_bare hfirst rfl rfl
    have hblank : (ofAscii (spell "A:var")).isBlank = false := by decide
    have hsegments : segmentsFrom pre.length pre.length (ofAscii (repeated (n + 1))) =
        ⟨pre.length, pre.length + 5⟩ ::
          segmentsFrom (pre.length + 6) (pre.length + 6) (ofAscii (repeated n)) := by
      have hsemicolon : ∀ x ∈ ofAscii (spell "A:var"), x.char ≠ ';' := by decide
      rw [repeated, Cells.ofAscii_append, Cells.ofAscii_cons, segmentsFrom_append hsemicolon]
      rfl
    have hlength : (pre ++ spell "A:var;").length = pre.length + 6 := by
      rw [List.length_append]
      rfl
    have hlater := hlength ▸ ih hrest
    rw [hsegments, Text.declarationsIn, hslice, hblank, declaration?_repeated hfirst]
    simp only [Bool.false_eq_true, if_false, List.length_append, List.length_singleton, hlater]
    exact Nat.add_comm 1 n

theorem length_declarations_members {n stop : Nat} (ht : t.Reads (pre ++ (members n ++ post)))
    (hstop : stop = pre.length + (members n).length) :
    (t.declarations ⟨pre.length + 3, stop⟩ false).length = n := by
  have hread : t.Reads ((pre ++ spell "var") ++ (';' :: repeated n ++ post)) := by
    simpa [members] using ht
  have hlater : t.Reads ((pre ++ spell "var;") ++ (repeated n ++ post)) := by
    simpa [members, spell] using ht
  have hslice : t.bare.slice ⟨pre.length + 3, stop⟩ = ofAscii (';' :: repeated n) := by
    refine slice_bare hread (by rw [List.length_append]; rfl) ?_
    rw [hstop, members, List.length_append, List.length_append]
    exact (Nat.add_assoc _ _ _).symm
  have hempty : t.bare.slice ⟨pre.length + 3, pre.length + 3⟩ = [] := by
    have hlength : pre.length + 3 = (pre ++ spell "var").length := by
      rw [List.length_append]
      rfl
    exact @slice_bare t (pre ++ spell "var") (';' :: repeated n ++ post) [] _ _ hread hlength hlength
  have hsegments : segmentsFrom (pre.length + 3) (pre.length + 3) (ofAscii (';' :: repeated n)) =
      ⟨pre.length + 3, pre.length + 3⟩ ::
        segmentsFrom (pre.length + 4) (pre.length + 4) (ofAscii (repeated n)) := rfl
  have hlength : (pre ++ spell "var;").length = pre.length + 4 := by
    rw [List.length_append]
    rfl
  rw [Text.declarations, hslice, hsegments, Text.declarationsIn, hempty,
    if_pos (show Cells.isBlank [] = true from rfl), ← hlength]
  exact length_declarationsIn_repeated n hlater

theorem onWords_var : (keyword "var").OnWords := onWords_keyword (by decide)

/-- The first `var` of the members, and those behind it. -/
theorem allFrom_members (n : Nat) {before : Option Cell} (hbefore : before.any Cell.isWord = false)
    (pos : Nat) :
    (keyword "var").allFrom 0 before pos (ofAscii (members n)) = ⟨⟨pos, pos + 3⟩, ()⟩ ::
      (keyword "var").allFrom 0 (some ⟨'r', true⟩) (pos + 3) (ofAscii (';' :: repeated n)) := by
  have hmatch := @keyword_word (spell "var") "var" (by decide) (by decide) (by decide) before hbefore
    pos (ofAscii (';' :: repeated n)) rfl
  rw [members, Cells.ofAscii_append]
  exact Pattern.allFrom_match hmatch rfl (by decide)

theorem allFrom_repeated (n : Nat) (before : Option Cell) (pos : Nat) :
    (keyword "var").allFrom 0 before pos (ofAscii (';' :: repeated (n + 1))) =
      (keyword "var").allFrom 0 (some ⟨':', true⟩) (pos + 3) (ofAscii (members n)) := by
  have hsplit : ofAscii (';' :: repeated (n + 1)) =
      ofAscii [';'] ++ (ofAscii (spell "A:") ++ ofAscii (members n)) := by
    simp [repeated, members, spell]
  have hpasses : (keyword "var").Passes ⟨spell "A", [':'], by decide, by decide, by decide⟩ :=
    passes_keyword (by decide) (by decide)
  rw [hsplit, Pattern.allFrom_gap onWords_var (by decide)]
  exact Pattern.allFrom_run onWords_var hpasses rfl (pos + 1) (ofAscii (members n))

/-- **Each `var` declares what is behind it once more.** -/
theorem length_sections (n : Nat) {before : Option Cell} (hbefore : before.any Cell.isWord = false)
    {stop : Nat} (ht : t.Reads (pre ++ (members n ++ post)))
    (hstop : stop = pre.length + (members n).length) :
    (((keyword "var").allFrom 0 before pre.length (ofAscii (members n))).flatMap fun f =>
      t.declarations ⟨f.extent.stop, stop⟩ false).length = (n + 1).choose 2 := by
  induction n generalizing pre before with
  | zero =>
    have hnone : (keyword "var").allFrom 0 (some ⟨'r', true⟩) (pre.length + 3)
        (ofAscii (';' :: repeated 0)) = [] :=
      (@Pattern.allFrom_gap _ _ onWords_var (ofAscii [';']) (by decide) _ _ []).trans
        (by rw [Pattern.allFrom])
    rw [allFrom_members 0 hbefore, hnone, List.flatMap_singleton,
      length_declarations_members ht hstop]
    rfl
  | succ n ih =>
    have hrest : t.Reads ((pre ++ spell "var;A:") ++ (members n ++ post)) := by
      simpa [members_succ, spell] using ht
    have hlength : (pre ++ spell "var;A:").length = pre.length + 6 := by
      rw [List.length_append]
      rfl
    have hstop' : stop = (pre ++ spell "var;A:").length + (members n).length := by
      rw [hstop, hlength, length_members, length_members]
      omega
    have hlater := @ih _ (some ⟨':', true⟩) rfl hrest hstop'
    rw [hlength] at hlater
    rw [allFrom_members (n + 1) hbefore, allFrom_repeated, List.flatMap_cons, List.length_append,
      length_declarations_members ht hstop, hlater]
    rw [Nat.choose_succ_succ' (n + 1) 1, Nat.choose_one_right]

/-! ### The document -/

/-- The place of the object in its source. -/
def site (n : Nat) : ObjectSite :=
  ⟨.codeunit, 0, ⟨15, 16⟩, none, 17, 18 + (members n).length⟩

variable {n : Nat} (ht : t.Reads (frame.around (members n) []))
include ht

theorem reads_members :
    t.Reads ((frame.header ++ ['\n', '\x7b']) ++ (members n ++ ['\x7d'])) := by
  simpa [Codeunit.around] using ht

theorem slice_members : t.bare.slice (site n).members = ofAscii (members n) :=
  slice_bare (reads_members ht) rfl rfl

theorem routines_members : t.routines (site n).members = .ok [] := by
  obtain ⟨rs, hchars, hwords⟩ := exists_runs n
  have hpasses : ∀ r ∈ rs, routineHeader.Passes r := by
    intro r hr
    refine passes_routineHeader ?_
    rcases hwords r hr with hword | hword
    · rw [hword]
      decide
    · rw [hword]
      decide
  have hnone : routineHeader.all (Cursor.ofSlice t.bare (site n).members) = [] := by
    have hruns := @Pattern.allFrom_runs _ _ onWords_routineHeader _ hpasses none rfl
      (site n).members.start []
    rw [List.append_nil, hchars] at hruns
    rw [Pattern.all, Cursor.ofSlice, slice_members ht, hruns, Pattern.allFrom]
  rw [Text.routines, hnone]
  rfl

theorem length_globalDeclarations_members :
    (globalDeclarations t (site n) []).length = (n + 1).choose 2 := by
  have hall : (keyword "var").all (Cursor.ofSlice t.bare (site n).members) =
      (keyword "var").allFrom 0 none 18 (ofAscii (members n)) := by
    rw [Pattern.all, Cursor.ofSlice, slice_members ht]
    rfl
  have hinside : ∀ f ∈ (keyword "var").allFrom 0 none 18 (ofAscii (members n)),
      (t.depth f.extent.start == t.depth (site n).opening + 1 &&
        !([] : List Routine).any fun r => r.extent.has f.extent.start) = true := by
    intro f hf
    have hquote : ∀ x ∈ ofAscii (members n), x.char ≠ '"' := by
      refine (Cells.forall_mem_ofAscii (p := fun c => c ≠ '"')).mpr fun c hc => ?_
      have hall : ∀ c ∈ spell "A:var;", c ≠ '"' := by decide
      exact hall c (mem_members hc)
    obtain ⟨k, x, hstart, hx, -⟩ := Pattern.isWord_of_mem_allFrom onWords_var hquote hf
    have hk : k < (members n).length := by
      simpa using (List.getElem?_eq_some_iff.mp hx).1
    have hread := frame.reads_around ht
    have hopening : t.depth (site n).opening = 0 :=
      depth_opening_of_reads hread frame.braceless_front (braceless_members n)
    have hmember : t.depth (18 + k) = 1 :=
      depth_member_of_reads hread frame.braceless_front (braceless_members n) hk
    rw [hstart, hmember, hopening]
    rfl
  rw [globalDeclarations]
  simp only [hall, List.filter_eq_self.mpr hinside]
  exact length_sections n rfl (reads_members ht) rfl

/-- The object has one node, and beside its own symbol one for each variable. -/
theorem exists_resolveObject : ∃ symbols outline,
    resolveObject t 0 (site n) = .ok (symbols, outline) ∧ outline.size = 1 ∧
      symbols.length = (n + 1).choose 2 + 1 := by
  rw [resolveObject, routines_members ht]
  refine ⟨_, _, rfl, rfl, ?_⟩
  have hrecords : implicitRecords (recordTable? t (site n)) = [] := rfl
  simp only [hrecords, resolveRoutines, List.append_nil, List.length_cons, List.length_map,
    List.length_append, length_declare, length_globalDeclarations_members ht]
  simp

omit ht

/-- **The document has two nodes, and a symbol for each time that a variable is declared.** -/
theorem exists_resolveDocument_source (path : String) (n : Nat) :
    ∃ d, resolveDocument path (source n) = .ok d ∧ d.nodes.length = 2 ∧
      d.symbols.length = (n + 1).choose 2 + 1 := by
  have ht := reads_source n
  obtain ⟨symbols, outline, hobject, hsize, hlength⟩ := exists_resolveObject ht
  obtain ⟨rs, hchars, hwords⟩ := exists_runs n
  have hpasses : ∀ r ∈ rs, objectHeader.Passes r := by
    intro r hr
    refine passes_objectHeader fun hmem => ?_
    rcases hwords r hr with hword | hword
    · rw [hword] at hmem
      exact absurd hmem (by decide)
    · rw [hword] at hmem
      exact absurd hmem (by decide)
  have hheaders := @Codeunit.objectHeaders_around frame _ hpasses [] (by decide)
  rw [hchars, ← ht.bare_eq] at hheaders
  have hsite : objectSite _ ⟨⟨0, 16⟩, ⟨⟨0, 8⟩, ⟨15, 16⟩, none⟩⟩ = .ok (site n) :=
    frame.objectSite_around ht (braceless_members n)
  have hdepth := frame.depth_zero_around ht (braceless_members n)
  have hobjects : resolveObjects (Text.ofCells (Cells.ofString (source n))) 0 0
      (objectHeader.all ⟨none, 0, (Text.ofCells (Cells.ofString (source n))).bare⟩) =
        .ok (symbols ++ [], outline.append .empty) := by
    rw [Pattern.all, hheaders]
    exact resolveObjects_of_object (by simp [hdepth]) hsite hobject rfl
  rw [resolveDocument]
  simp only [hobjects]
  refine ⟨_, rfl, ?_, by simpa using hlength⟩
  rw [Outline.length_nodesFrom, Outline.single, Outline.size, Outline.size_append, hsize]
  rfl

/-- **There is no tree exactly if so many variables are declared.** -/
theorem resolve_source_eq_tooLarge_iff (path : String) (n : Nat) :
    resolve path (source n) = .error (.tree .tooLarge) ↔ 2 ^ 32 ≤ (n + 1).choose 2 + 1 := by
  obtain ⟨d, hd, hnodes, hsymbols⟩ := exists_resolveDocument_source path n
  rw [resolve_eq_tooLarge_iff, ← hsymbols]
  constructor
  · rintro ⟨d', hd', hlarge⟩
    cases hd.symm.trans hd'
    exact hlarge.resolve_left (by omega)
  · exact fun hlarge => ⟨d, hd, Or.inr hlarge⟩

theorem utf8ByteSize_source (n : Nat) : (source n).utf8ByteSize = 6 * n + 23 := by
  have hlength := congrArg List.length (reads_source n).bare_eq
  rw [Cells.length_ofAscii, Codeunit.around] at hlength
  rw [← Text.length_ofString, Text.length, hlength, List.length_append, List.length_cons,
    List.length_cons, List.length_append, length_members, frame.length_header]
  simp [frame]
  omega

/-- A source of about half a megabyte that has no tree. -/
theorem resolve_halfMegabyte : (source 92682).utf8ByteSize < 2 ^ 32 ∧
    resolve "a.al" (source 92682) = .error (.tree .tooLarge) ∧
    (ResolveError.tree .tooLarge).isOwn = false := by
  have hmany : 2 ^ 32 ≤ (92682 + 1).choose 2 + 1 := by
    rw [Nat.choose_two_right]
    decide
  rw [utf8ByteSize_source]
  exact ⟨by decide, (resolve_source_eq_tooLarge_iff "a.al" 92682).mpr hmany, rfl⟩

end LargeDocuments
end TreeLint
