/-
# Routines and the lines of their headers

The extent of a routine starts with the line of its header, or with the lines of
attributes directly above it, whatever else stands on that line. From its header
on a routine lies between the braces of its object and behind the routine before
it. Its extent does so too exactly if the line of its header starts there
(`Source.leads_iff_extents`).

A section of variables is read unless it stands in the extent of a routine. So of
the sections outside all headers and bodies, those are not read that share a line
with a header behind them (`Source.globals_except_on_header_lines`).

Key definitions: `Source.LeadsFrom`, `Source.Routine.Covers`,
`Source.Routine.SharesLine`, `Source.Home.sections`.
Key theorems: `Source.attributes_cases`, `Source.isAttributeLine_of_attributes`,
`Source.leads_iff_extents`,
`Source.Home.globalDeclarations_eq`, `Source.globals_except_on_header_lines`.
-/
import TreeLint.Proofs.Homes

namespace TreeLint
namespace Source

variable {t : Text}

/-! ### Attribute lines -/

theorem Text.lineStart_le (t : Text) (i : Nat) : t.lineStart i ≤ i := by
  have hcolumn : ∀ (starts : List Nat) (line start : Nat),
      1 ≤ (LineIndex.locate line start starts i).2 := by
    intro starts
    induction starts with
    | nil => exact fun line start => Nat.le_add_left 1 _
    | cons s later ih =>
      intro line start
      rw [LineIndex.locate]
      split
      · exact ih _ _
      · exact Nat.le_add_left 1 _
  have := hcolumn t.lines.starts 1 0
  rw [Text.lineStart, LineIndex.position]
  omega

/-- The lines that are taken are the attribute lines at the front. -/
theorem exists_attributeRun (start : Nat) (obsolete : Bool) (ls : List (Nat × Cells)) :
    ∃ taken above, ls = taken ++ above ∧ (∀ l ∈ taken, isAttributeLine l.2 = true) ∧
      (∀ l ∈ above.head?, isAttributeLine l.2 = false) ∧
      attributeRun start obsolete ls = ((taken.getLast?.map (·.1)).getD start,
        obsolete || taken.any fun l => isObsoleteAttribute l.2) := by
  induction ls generalizing start obsolete with
  | nil => exact ⟨[], [], rfl, nofun, nofun, by simp [attributeRun]⟩
  | cons l ls ih =>
    obtain ⟨lineAt, line⟩ := l
    rw [attributeRun]
    by_cases hline : isAttributeLine line = true
    · obtain ⟨taken, above, rfl, htaken, habove, hrun⟩ :=
        ih lineAt (obsolete || isObsoleteAttribute line)
      refine ⟨(lineAt, line) :: taken, above, rfl, List.forall_mem_cons.mpr ⟨hline, htaken⟩, habove, ?_⟩
      rw [if_pos hline, hrun, List.any_cons, Bool.or_assoc]
      cases taken with
      | nil => rfl
      | cons l' taken =>
        rw [List.getLast?_cons_cons, List.getLast?_eq_some_getLast (List.cons_ne_nil l' taken)]
        rfl
    · refine ⟨[], (lineAt, line) :: ls, rfl, nofun, ?_, ?_⟩
      · rintro l ⟨⟩
        simpa using hline
      · rw [if_neg hline]
        simp

theorem start_of_mem_linesFrom {start pos : Nat} {line cs : Cells} (hle : start ≤ pos)
    {l : Nat × Cells} (hl : l ∈ Cells.linesFrom start pos line cs) :
    start ≤ l.1 ∧ l.1 ≤ pos + cs.length := by
  induction cs generalizing start pos line with
  | nil =>
    obtain rfl := List.mem_singleton.mp hl
    exact ⟨le_rfl, by simpa using hle⟩
  | cons x cs ih =>
    rw [Cells.linesFrom] at hl
    rw [List.length_cons]
    split at hl
    · rcases List.mem_cons.mp hl with rfl | hl
      · exact ⟨le_rfl, by simp only; omega⟩
      · have := ih le_rfl hl
        omega
    · have := ih (by omega) hl
      omega

/-- **Where the attribute lines above a header start:** with its own line if that does not start
behind the floor, and otherwise between the floor and its own line. -/
theorem attributes_cases (t : Text) (header floor : Nat) :
    (t.attributes header floor).1 ≤ t.lineStart header ∧
      (floor ≤ (t.attributes header floor).1 ↔ floor ≤ t.lineStart header) := by
  simp only [Text.attributes]
  split
  · exact ⟨le_rfl, Iff.rfl⟩
  · obtain ⟨taken, above, hlines, -, -, hrun⟩ := exists_attributeRun (t.lineStart header) false
      ((t.bare.slice ⟨floor, t.lineStart header - 1⟩).lines floor).reverse
    rw [hrun]
    simp only
    cases hlast : taken.getLast? with
    | none => exact ⟨le_rfl, Iff.rfl⟩
    | some l =>
      have hmem : l ∈ (t.bare.slice ⟨floor, t.lineStart header - 1⟩).lines floor := by
        rw [← List.mem_reverse, hlines]
        exact List.mem_append_left _ (List.mem_of_getLast? hlast)
      have hbounds := start_of_mem_linesFrom le_rfl hmem
      have hlength : (t.bare.slice ⟨floor, t.lineStart header - 1⟩).length ≤
          t.lineStart header - 1 - floor := List.length_take_le _ _
      rw [Option.map_some, Option.getD_some]
      omega

end Source

namespace Cells

theorem fst_of_linesFrom_cons {start pos : Nat} {line cs : Cells} {l : Nat × Cells}
    {later : List (Nat × Cells)} (h : linesFrom start pos line cs = l :: later) : l.1 = start := by
  induction cs generalizing pos line with
  | nil =>
    obtain ⟨rfl, -⟩ := List.cons.inj h
    rfl
  | cons x cs ih =>
    rw [linesFrom] at h
    split at h
    · obtain ⟨rfl, -⟩ := List.cons.inj h
      rfl
    · exact ih h

/-- From a line that is not the first one on, the lines are those of the rest of the text. -/
theorem lines_of_linesFrom_append {start pos : Nat} {line cs : Cells} {l : Nat × Cells}
    {front later : List (Nat × Cells)} (h : linesFrom start pos line cs = front ++ l :: later)
    (hne : front ≠ []) : pos < l.1 ∧ Cells.lines (cs.drop (l.1 - pos)) l.1 = l :: later := by
  induction cs generalizing start pos line front with
  | nil =>
    have hlength := congrArg List.length h
    have := List.length_pos_of_ne_nil hne
    simp [linesFrom] at hlength
    omega
  | cons x cs ih =>
    have hdrop : ∀ {p : Nat}, pos + 1 ≤ p → (x :: cs).drop (p - pos) = cs.drop (p - (pos + 1)) := by
      intro p hp
      rw [show p - pos = p - (pos + 1) + 1 by omega, List.drop_succ_cons]
    rw [linesFrom] at h
    split at h
    · cases front with
      | nil => exact absurd rfl hne
      | cons f front =>
        obtain ⟨-, h⟩ := List.cons.inj h
        by_cases hlast : front = []
        · subst hlast
          have hstart := fst_of_linesFrom_cons h
          rw [hdrop hstart.ge, hstart, Nat.sub_self, List.drop_zero, lines]
          exact ⟨Nat.lt_succ_self pos, h⟩
        · obtain ⟨hlt, hlines⟩ := ih h hlast
          exact ⟨by omega, by rw [hdrop hlt.le, hlines]⟩
    · obtain ⟨hlt, hlines⟩ := ih h hne
      exact ⟨by omega, by rw [hdrop hlt.le, hlines]⟩

theorem lines_of_append_cons {start : Nat} {cs : Cells} {l : Nat × Cells}
    {front later : List (Nat × Cells)} (h : cs.lines start = front ++ l :: later) :
    start ≤ l.1 ∧ Cells.lines (cs.drop (l.1 - start)) l.1 = l :: later := by
  by_cases hfront : front = []
  · subst hfront
    have hstart := fst_of_linesFrom_cons h
    rw [hstart, Nat.sub_self, List.drop_zero]
    exact ⟨le_rfl, h⟩
  · obtain ⟨hlt, hlines⟩ := lines_of_linesFrom_append h hfront
    exact ⟨hlt.le, hlines⟩

end Cells

namespace Source

variable {t : Text}

/-- **Above the line of a header, only attribute lines are taken.** -/
theorem isAttributeLine_of_attributes {header floor : Nat}
    (h : (t.attributes header floor).1 < t.lineStart header) {l : Nat × Cells}
    (hl : l ∈ (t.bare.slice ⟨(t.attributes header floor).1, t.lineStart header - 1⟩).lines
      (t.attributes header floor).1) : isAttributeLine l.2 = true := by
  by_cases hfloor : t.lineStart header ≤ floor
  · rw [Text.attributes] at h
    simp only [if_pos hfloor] at h
    exact absurd h (lt_irrefl _)
  · obtain ⟨taken, above, hlines, htaken, -, hrun⟩ := exists_attributeRun (t.lineStart header) false
      ((t.bare.slice ⟨floor, t.lineStart header - 1⟩).lines floor).reverse
    have hstart : (t.attributes header floor).1 =
        (taken.getLast?.map (·.1)).getD (t.lineStart header) := by
      rw [Text.attributes]
      simp only [if_neg hfloor, hrun]
    rcases List.eq_nil_or_concat taken with rfl | ⟨lower, first, rfl⟩
    · rw [hstart] at h
      exact absurd h (lt_irrefl _)
    · -- read downwards, the lines taken are the last ones, and the extent starts with the first
      have hdown : (t.bare.slice ⟨floor, t.lineStart header - 1⟩).lines floor =
          above.reverse ++ first :: lower.reverse := by
        rw [← List.reverse_reverse (Cells.lines _ _), hlines]
        simp
      have hfirst : (t.attributes header floor).1 = first.1 := by
        rw [hstart]
        simp
      obtain ⟨hle, hrest⟩ := Cells.lines_of_append_cons hdown
      rw [Cells.drop_slice, show floor + (first.1 - floor) = first.1 by omega] at hrest
      rw [hfirst, hrest] at hl
      refine htaken l ?_
      rw [List.concat_eq_append, List.mem_append, List.mem_singleton]
      rcases List.mem_cons.mp hl with rfl | hl
      · exact Or.inr rfl
      · exact Or.inl (List.mem_reverse.mp hl)

/-! ### Extents -/

/-- The extent of each routine starts with its attribute lines, which are looked for from the end of
the routine before it on. -/
def ExtentsFrom (t : Text) : Nat → List Routine → Prop
  | _, [] => True
  | floor, r :: rs =>
    r.extent.start = (t.attributes r.header floor).1 ∧ ExtentsFrom t r.extent.stop rs

/-- The line of each header starts behind the routine before it. -/
def LeadsFrom (t : Text) : Nat → List Routine → Prop
  | _, [] => True
  | floor, r :: rs => floor ≤ t.lineStart r.header ∧ LeadsFrom t r.extent.stop rs

theorem extentsFrom_routinesOf {members : Cursor} {last : Option Nat}
    {hs : List (Found RoutineHeader)} {rs : List Routine}
    (h : t.routinesOf members last hs = .ok rs) : ExtentsFrom t (last.getD members.pos) rs := by
  induction hs generalizing last rs with
  | nil =>
    cases h
    trivial
  | cons header hs ih =>
    rcases Text.routinesOf_cons_ok h with ⟨-, h⟩ | ⟨-, r, rs', hr, hrs, rfl⟩
    · exact ih h
    · refine ⟨?_, ih hrs⟩
      obtain ⟨close, locals, body, stop, -, -, rfl⟩ := Text.routineAt_eq_ok_iff.mp hr
      rfl

theorem extentsFrom_routines {members : Extent} {rs : List Routine}
    (h : t.routines members = .ok rs) : ExtentsFrom t members.start rs := extentsFrom_routinesOf h

theorem ExtentsFrom.exists_floor {floor : Nat} {rs : List Routine} (h : ExtentsFrom t floor rs)
    {r : Routine} (hr : r ∈ rs) : ∃ f, r.extent.start = (t.attributes r.header f).1 := by
  induction rs generalizing floor with
  | nil => cases hr
  | cons r' rs ih =>
    rcases List.mem_cons.mp hr with rfl | hr
    · exact ⟨floor, h.1⟩
    · exact ih h.2 hr

theorem ExtentsFrom.start_le {floor : Nat} {rs : List Routine} (h : ExtentsFrom t floor rs)
    {r : Routine} (hr : r ∈ rs) : r.extent.start ≤ t.lineStart r.header := by
  obtain ⟨f, hf⟩ := h.exists_floor hr
  rw [hf]
  exact (attributes_cases t r.header f).1

/-- **Extents lie behind one another exactly if every header is the first of its line**, as far as
routines go. -/
theorem leads_iff_extents {floor : Nat} {rs : List Routine} (h : ExtentsFrom t floor rs)
    (hfloor : ∀ r ∈ rs, floor ≤ r.header) (hlt : ∀ r ∈ rs, r.header < r.extent.stop)
    (horder : rs.Pairwise (·.extent.stop ≤ ·.header)) :
    ((∀ r ∈ rs, floor ≤ r.extent.start) ∧ rs.Pairwise (·.extent.stop ≤ ·.extent.start)) ↔
      LeadsFrom t floor rs := by
  induction rs generalizing floor with
  | nil => simp [LeadsFrom]
  | cons r rs ih =>
    rw [List.forall_mem_cons] at hfloor hlt
    rw [List.pairwise_cons] at horder
    have hstart := (attributes_cases t r.header floor).2
    rw [← h.1] at hstart
    rw [LeadsFrom, ← hstart, ← ih h.2 horder.1 hlt.2 horder.2, List.forall_mem_cons,
      List.pairwise_cons]
    constructor
    · rintro ⟨⟨hr, -⟩, hrs, hpairwise⟩
      exact ⟨hr, hrs, hpairwise⟩
    · rintro ⟨hr, hrs, hpairwise⟩
      refine ⟨⟨hr, fun r' hr' => ?_⟩, hrs, hpairwise⟩
      have hbehind := hrs r' hr'
      omega

/-! ### Sections of variables -/

namespace Routine

/-- The place is in the header or the body of the routine. -/
def Covers (r : Routine) (p : Nat) : Prop := r.header ≤ p ∧ p < r.extent.stop

/-- The place is in the extent of the routine, but before its header: on the line of the header or on
one of the lines above it that belong to the extent, which are attribute lines
(`isAttributeLine_of_attributes`). -/
def SharesLine (r : Routine) (p : Nat) : Prop := r.extent.start ≤ p ∧ p < r.header

instance (r : Routine) (p : Nat) : Decidable (r.Covers p) := inferInstanceAs (Decidable (_ ∧ _))

instance (r : Routine) (p : Nat) : Decidable (r.SharesLine p) := inferInstanceAs (Decidable (_ ∧ _))

theorem has_extent_iff {r : Routine} (hstart : r.extent.start ≤ r.header)
    (hlt : r.header < r.extent.stop) (p : Nat) :
    r.extent.has p = true ↔ r.Covers p ∨ r.SharesLine p := by
  simp only [Extent.has, Covers, SharesLine, Bool.and_eq_true, decide_eq_true_eq]
  omega

end Routine

namespace Home

variable {symbols : List Symbol} (home : Home t symbols)

/-- The sections of variables directly inside the braces, outside all headers and bodies. -/
def sections : List (Found Unit) :=
  ((keyword "var").all (Cursor.ofSlice t.bare home.site.members)).filter fun f =>
    t.depth f.extent.start = t.depth home.site.opening + 1 ∧
      ∀ r ∈ home.routines, ¬ r.Covers f.extent.start

/-- The section stands in the extent of a routine before its header: on the line of the header or on
one of the attribute lines above it. -/
def SharesLine (f : Found Unit) : Prop := ∃ r ∈ home.routines, r.SharesLine f.extent.start

instance (f : Found Unit) : Decidable (home.SharesLine f) :=
  inferInstanceAs (Decidable (∃ r ∈ home.routines, _))

/-- What a section declares before the extent of the next routine starts. What the section still
declares on the line of the header, or on an attribute line above it, is cut off. -/
def sectionDeclarations (f : Found Unit) : List (String × TypeInfo) :=
  let later := (home.routines.map (·.extent.start)).filter (f.extent.start < ·)
  t.declarations ⟨f.extent.stop, later.min?.getD home.site.closing⟩ false

/-- **The sections that are read** are those that share no line with a routine behind them. -/
theorem globalDeclarations_eq (hstart : ∀ r ∈ home.routines, r.extent.start ≤ r.header)
    (hlt : ∀ r ∈ home.routines, r.header < r.extent.stop) :
    globalDeclarations t home.site home.routines =
      (home.sections.filter fun f => ¬ home.SharesLine f).flatMap home.sectionDeclarations := by
  have hany : ∀ p : Nat, (home.routines.any fun r => r.extent.has p) = true ↔
      (∃ r ∈ home.routines, r.Covers p) ∨ ∃ r ∈ home.routines, r.SharesLine p := by
    intro p
    rw [List.any_eq_true, ← exists_or]
    refine exists_congr fun r => ?_
    rw [← and_or_left]
    exact and_congr_right fun hr => Routine.has_extent_iff (hstart r hr) (hlt r hr) p
  rw [globalDeclarations, sections, List.filter_filter]
  refine congrArg (List.flatMap _) (List.filter_congr fun f _ => ?_)
  rw [Bool.eq_iff_iff]
  simp only [Bool.and_eq_true, beq_iff_eq, Bool.not_eq_true', ← Bool.not_eq_true, hany,
    decide_eq_true_eq, not_or, not_exists, not_and, SharesLine]
  tauto

end Home

/-- **Routines and variables of an object.** In every object of a tree each routine lies between
the braces from its header on, behind the routine before it, and its extent starts with the line of
its header or before it; the lines in between are attribute lines. The extents too lie between the
braces, one behind the other, exactly if each header leads its line. The variables are the implicit
records and what is declared in the sections outside all headers and bodies, those sections left out
that share a line with a header behind them or with the attributes above it.

A section that is read ends where the extent of the next routine starts. So a declaration that
stands on the line of the next header is cut off in silence: with `var` on a line of its own and
`A: Text; procedure P() ...` on the next one, there is no variable `A`. -/
theorem globals_except_on_header_lines {path source : String} {tree : Tree}
    (h : resolve path source = .ok tree) {i : NodeId} {n : Node} (hn : tree.node? i = some n)
    (hkind : n.kind = .objectDeclaration) :
    let t := Text.ofCells (Cells.ofString source)
    ∃ home : Home t tree.symbols, tree.ObjectOf home i ∧
      (∀ r ∈ home.routines, home.site.opening < r.header ∧ r.header < r.extent.stop ∧
        r.extent.stop ≤ home.site.closing ∧ r.extent.start ≤ t.lineStart r.header) ∧
      (∀ r ∈ home.routines, r.extent.start < t.lineStart r.header →
        ∀ l ∈ (t.bare.slice ⟨r.extent.start, t.lineStart r.header - 1⟩).lines r.extent.start,
          isAttributeLine l.2 = true) ∧
      home.routines.Pairwise (·.extent.stop ≤ ·.header) ∧
      ((∀ r ∈ home.routines, home.site.opening < r.extent.start) ∧
          home.routines.Pairwise (·.extent.stop ≤ ·.extent.start) ↔
        LeadsFrom t (home.site.opening + 1) home.routines) ∧
      tree.declarationsIn home.object .globalVariable =
        implicitRecords (recordTable? t home.site) ++
          (home.sections.filter fun f => ¬ home.SharesLine f).flatMap
            home.sectionDeclarations := by
  intro t
  obtain ⟨home, hobject⟩ := exists_home_of_object h hn hkind
  have ht := Text.copies_ofCells (Cells.whole_ofString source)
  obtain ⟨header, hheader, hsite⟩ := home.site_of_header
  obtain ⟨hsite, -⟩ := placed_objectSite ht (foundFrom_of_mem_headers ht hheader) hsite
  obtain ⟨hplaced, horder⟩ := placed_routines ht hsite.members home.routines_eq
  have hextents := extentsFrom_routines home.routines_eq
  have hlt : ∀ r ∈ home.routines, r.header < r.extent.stop := fun r hr => (hplaced r hr).lt
  refine ⟨home, hobject, fun r hr => ?_, fun r hr habove l hl => ?_, horder, ?_, ?_⟩
  · exact ⟨(hplaced r hr).start_le, hlt r hr, (hplaced r hr).stop_le, hextents.start_le hr⟩
  · obtain ⟨f, hf⟩ := hextents.exists_floor hr
    rw [hf] at habove hl
    exact isAttributeLine_of_attributes habove hl
  · exact leads_iff_extents hextents (fun r hr => (hplaced r hr).start_le) hlt horder
  · rw [home.declarationsIn_globalVariable rfl, home.globalDeclarations_eq (fun r hr => ?_) hlt]
    exact (hextents.start_le hr).trans (t.lineStart_le r.header)

/-- A codeunit with a section on the line of a header, and a section on a line of its own. -/
def sectionSource : String :=
  "codeunit 1 C \x7b var A: Text; procedure P() begin A.B(); end;\n" ++
    "var D: Text;\nprocedure Q() begin D.E(); end; \x7d"

/-- Of the two sections of the sample, the one on a line of its own is read. -/
theorem globals_sectionSource : ∃ tree n, resolve "a.al" sectionSource = .ok tree ∧
    tree.node? 1 = some n ∧ n.kind = .objectDeclaration ∧
    tree.declarationsIn 0 .globalVariable = [("D", { kind := .text })] ∧
    ∃ home : Home (Text.ofCells (Cells.ofString sectionSource)) tree.symbols,
      tree.ObjectOf home 1 ∧ tree.declarationsIn home.object .globalVariable =
        implicitRecords (recordTable? (Text.ofCells (Cells.ofString sectionSource)) home.site) ++
          (home.sections.filter fun f => ¬ home.SharesLine f).flatMap home.sectionDeclarations := by
  have h : (resolve "a.al" sectionSource).toOption.any (fun tree =>
      (tree.node? 1).any (·.kind = .objectDeclaration) &&
      tree.declarationsIn 0 .globalVariable = [("D", { kind := .text })]) = true := by
    decide +kernel
  obtain ⟨tree, htree, h⟩ := exists_ok_of_any h
  obtain ⟨hnode, hdeclared⟩ := Bool.and_eq_true_iff.mp h
  obtain ⟨n, hn, hkind⟩ := (Option.any_eq_true _ _).mp hnode
  have hkind := of_decide_eq_true hkind
  obtain ⟨home, hobject, -, -, -, -, hglobals⟩ := globals_except_on_header_lines htree hn hkind
  exact ⟨tree, n, htree, hn, hkind, of_decide_eq_true hdeclared, home, hobject, hglobals⟩

/-- On one line with a procedure, a section directly inside the braces and outside all routines
declares nothing: `Cust` stays unknown in the procedure. -/
theorem section_on_header_line : ∃ tree,
    resolve "a.al" ("codeunit 50100 C \x7b var Cust: Record Customer; " ++
      "procedure P() begin Cust.Delete(); end; \x7d\n") = .ok tree ∧
    tree.symbols.map (·.name) = ["C", "P"] ∧
    (tree.node? 5).map (·.kind) = some .identifier := by
  have h : (resolve "a.al" ("codeunit 50100 C \x7b var Cust: Record Customer; " ++
      "procedure P() begin Cust.Delete(); end; \x7d\n")).toOption.any (fun tree =>
      tree.symbols.map (·.name) = ["C", "P"] &&
      (tree.node? 5).map (·.kind) = some .identifier) = true := by
    decide +kernel
  obtain ⟨tree, htree, h⟩ := exists_ok_of_any h
  obtain ⟨hsymbols, hnode⟩ := Bool.and_eq_true_iff.mp h
  exact ⟨tree, htree, of_decide_eq_true hsymbols, of_decide_eq_true hnode⟩

end Source
end TreeLint
