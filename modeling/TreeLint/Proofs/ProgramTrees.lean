/-
# The tree of a codeunit written one construct per line

A walk over an outline numbers its nodes, so the spans of those that leave open
whether triggers run are put together from the parts of the outline
(`Tree.openSpans`). For the calls of a body these are the marked statements, and
for the procedures of a codeunit those of their bodies: their symbols and nodes are
listed procedure by procedure (`Program.Listed`), and the induction over that list
carries the number of the next symbol, the offset of the next procedure and the
position of the next node.

Key definitions: `Tree.openSpans`, `Source.Outline.Sits`, `Program.Listed`,
`Program.Codeunit.nodeCount`.
Key theorems: `Program.openSpans_callList`, `Program.Listed.openSpans_eq`,
`Program.listed_resolveRoutines`, `Program.Codeunit.exists_resolveObjects`.
-/
import Mathlib.Algebra.GroupWithZero.Nat
import TreeLint.Proofs.ProgramNodes

namespace TreeLint

namespace Tree

variable {t : Tree}

open Classical in
/-- The spans of the nodes, the first of which is at `first`, that leave open whether triggers
run. -/
noncomputable def openSpans (t : Tree) (first : NodeId) (ns : List Node) : List Span :=
  (ns.zipIdx first).flatMap fun x => if t.LeavesTriggerOpen x.2 x.1 then [x.1.span] else []

open Classical in
theorem openSpans_cons (first : NodeId) (n : Node) (ns : List Node) :
    t.openSpans first (n :: ns) =
      (if t.LeavesTriggerOpen first n then [n.span] else []) ++ t.openSpans (first + 1) ns := rfl

theorem openSpans_append (first : NodeId) (ns ms : List Node) :
    t.openSpans first (ns ++ ms) = t.openSpans first ns ++ t.openSpans (first + ns.length) ms := by
  rw [openSpans, List.zipIdx_append, List.flatMap_append]
  rfl

theorem FindsObject.exists_isObject {start : Option SymbolId} {o : SymbolId}
    (h : t.FindsObject start (some o)) : ∃ x, t.symbol? o = some x ∧ x.kind.isObject = true := by
  generalize hfound : some o = found at h
  induction h with
  | nowhere => cases hfound
  | here hx hobject =>
    cases hfound
    exact ⟨_, hx, hobject⟩
  | further _ _ _ ih => exact ih hfound

/-- Where no object is obsolete, code is in force if the symbol that contains it is not obsolete. -/
theorem inForce_iff {first : SymbolId} {m : Symbol} {n : Node} (hm : t.symbol? first = some m)
    (hobjects : ∀ s x, t.symbol? s = some x → x.kind.isObject = true → x.obsolete = .current)
    (hn : n.containingSymbol = some first) :
    t.InForce n ↔ ¬ (m.obsolete = .pending ∨ m.obsolete = .removed) := by
  constructor
  · intro hforce hobsolete
    exact hforce.1 first hn ⟨m, hm, hobsolete⟩
  · intro hm'
    refine ⟨?_, ?_⟩
    · rintro s hs ⟨x, hx, hobsolete⟩
      obtain rfl := Option.some.inj (hn.symm.trans hs)
      obtain rfl := Option.some.inj (hm.symm.trans hx)
      exact hm' hobsolete
    · rintro o hencloses ⟨x, hx, hobsolete⟩
      obtain ⟨y, hy, hobject⟩ := FindsObject.exists_isObject hencloses
      obtain rfl := Option.some.inj (hx.symm.trans hy)
      rw [hobjects o x hx hobject] at hobsolete
      rcases hobsolete with h | h <;> cases h

end Tree

namespace Source.Outline

variable {o w b o' : Outline} {e : Entry} {parent : Option NodeId} {first : NodeId} {t : Tree}

/-- The nodes of the outline are at their positions in the other one. -/
def Sits (o : Outline) (parent : Option NodeId) (first : NodeId) (w : Outline) : Prop :=
  ∀ ⦃i p e b⦄, o.At parent first i p e b → w.At none 0 i p e b

theorem Sits.below (h : (node e b o').Sits parent first w) : b.Sits (some first) (first + 1) w :=
  fun _ _ _ _ hat => h (.inside hat)

theorem Sits.behind (h : (node e b o').Sits parent first w) :
    o'.Sits parent (first + 1 + b.size) w :=
  fun _ _ _ _ hat => h (.later hat)

open Classical in
theorem openSpans_node (t : Tree) (parent : Option NodeId) (first : NodeId) (e : Entry)
    (b o' : Outline) : t.openSpans first ((node e b o').nodesFrom parent first) =
      (if t.LeavesTriggerOpen first (toNode e parent first b) then [e.span] else []) ++
        (t.openSpans (first + 1) (b.nodesFrom (some first) (first + 1)) ++
          t.openSpans (first + 1 + b.size) (o'.nodesFrom parent (first + 1 + b.size))) := by
  rw [nodesFrom, Tree.openSpans_cons, Tree.openSpans_append, length_nodesFrom]
  rfl

theorem openSpans_other (hkind : e.kind ≠ .invocationExpression) :
    t.openSpans first ((node e b o').nodesFrom parent first) =
      t.openSpans (first + 1) (b.nodesFrom (some first) (first + 1)) ++
        t.openSpans (first + 1 + b.size) (o'.nodesFrom parent (first + 1 + b.size)) := by
  rw [openSpans_node, if_neg, List.nil_append]
  rintro ⟨call, hcall, -⟩
  exact hkind hcall.kind_eq

theorem openSpans_single (hkind : e.kind ≠ .invocationExpression) :
    t.openSpans first ((single e b).nodesFrom parent first) =
      t.openSpans (first + 1) (b.nodesFrom (some first) (first + 1)) := by
  rw [single, openSpans_other hkind]
  exact List.append_nil _

theorem openSpans_eq_nil (h : o.Callless) : t.openSpans first (o.nodesFrom parent first) = [] := by
  induction o generalizing parent first with
  | empty => rfl
  | node e b next ihb ihn =>
    rw [openSpans_other h.1, ihb h.2.1, ihn h.2.2]
    rfl

end Source.Outline

namespace Program

open Source
open Cells (ofAscii)

/-! ### Symbols and nodes -/

/-- How many nodes a statement has: the call, its receiver, and two for each argument. -/
def Statement.nodeCount {v : Identifier} (s : Statement v) : Nat := 2 + 2 * s.arguments.length

/-- How many nodes a procedure has: itself, its block, and those of the statements. -/
def Procedure.nodeCount (p : Procedure) : Nat :=
  2 + (p.statements.map Statement.nodeCount).sum

/-- How many nodes a codeunit has: the text, the object, and those of the procedures. -/
def Codeunit.nodeCount (c : Codeunit) : Nat := 2 + (c.procedures.map Procedure.nodeCount).sum

/-- The symbols and nodes of procedures in a text, of which the first stands at `q` and has the
symbol `first`: for each a symbol and one for its parameter, and a node with a block below it and
the calls of the statements below that. -/
inductive Listed (t : Text) (names : List String) :
    SymbolId → Nat → List Procedure → List Symbol → Outline → Prop
  | nil {first : SymbolId} {q : Nat} : Listed t names first q [] [] .empty
  | cons {first : SymbolId} {q : Nat} {p : Procedure} {ps : List Procedure} {type : TypeInfo}
      {method parameter : Symbol} {e block : Entry} {symbols : List Symbol} {o : Outline} :
      type.kind = .record → method.kind = .method →
      method.obsolete = (if p.obsolete then .pending else .current) → parameter.kind = .parameter →
      e.kind ≠ .invocationExpression → block.kind ≠ .invocationExpression →
      Listed t names (first + 2) (p.stopAt q + 2) ps symbols o →
      Listed t names first q (p :: ps) (method :: parameter :: symbols)
        (.node e (.single block (callList t (p.scope first type names)
          (callsFrom t (p.bodyAt q + 6) p.statements))) o)

section Listed

variable {t : Text} {names : List String} {first : SymbolId} {q : Nat} {ps : List Procedure}
  {symbols : List Symbol} {o : Outline}

theorem Listed.length_symbols (h : Listed t names first q ps symbols o) :
    symbols.length = 2 * ps.length := by
  induction h with
  | nil => rfl
  | cons _ _ _ _ _ _ _ ih =>
    simp only [List.length_cons, ih]
    omega

theorem Listed.not_isObject (h : Listed t names first q ps symbols o) {x : Symbol}
    (hx : x ∈ symbols) : x.kind.isObject = false := by
  induction h with
  | nil => cases hx
  | cons _ hmethod _ hparameter _ _ _ ih =>
    rcases List.mem_cons.mp hx with rfl | hx
    · rw [hmethod]
      decide
    · rcases List.mem_cons.mp hx with rfl | hx
      · rw [hparameter]
        decide
      · exact ih hx

end Listed

section Lines

variable {t : Text} {p : Procedure} {ss : List (Statement p.record)} {pre post : List Char}
  {first : SymbolId} {type : TypeInfo} {names : List String} {pos : Nat}

/-- The first statement is read at its place, and the text of the others stands behind it. -/
theorem reads_lines_cons {s : Statement p.record} (ht : t.Reads (pre ++ (lines (s :: ss) ++ post)))
    (hpos : pos = pre.length) : s.ReadAt t pos ∧
      ∃ pre', t.Reads (pre' ++ (lines ss ++ post)) ∧ pos + s.call.length + 2 = pre'.length := by
  rw [lines_cons] at ht
  constructor
  · rw [List.append_assoc] at ht
    exact s.readAt ht hpos
  · refine ⟨pre ++ (s.call ++ [';', '\n']), by simpa using ht, ?_⟩
    simp only [hpos, List.length_append, List.length_cons, List.length_nil]
    omega

theorem size_callBelow (hkind : type.kind = .record) {s : Statement p.record}
    (hs : s.ReadAt t pos) :
    (callBelow t (p.scope first type names) (s.callAt t pos)).size =
      1 + 2 * s.arguments.length := by
  simp only [callBelow, receiver_callAt s hkind hs.receiver_eq, receiverOutline, Outline.single,
    Outline.append, Outline.size, size_argumentsOutline_of_apart, length_boundArguments, hs.length_eq]

theorem size_callList (hkind : type.kind = .record) (ht : t.Reads (pre ++ (lines ss ++ post)))
    (hpos : pos = pre.length) :
    (callList t (p.scope first type names) (callsFrom t pos ss)).size =
      (ss.map Statement.nodeCount).sum := by
  induction ss generalizing pre pos with
  | nil => rfl
  | cons s ss ih =>
    obtain ⟨hs, pre', ht', hpos'⟩ := reads_lines_cons ht hpos
    rw [callsFrom, callList, Outline.size, size_callBelow hkind hs, ih ht' hpos', List.map_cons,
      List.sum_cons, Statement.nodeCount]
    omega

theorem start_le_of_mem_callsFrom {call : Call} (h : call ∈ callsFrom t pos ss) :
    pos ≤ call.extent.start := by
  induction ss generalizing pos with
  | nil => cases h
  | cons s ss ih =>
    rcases List.mem_cons.mp h with rfl | h
    · exact le_rfl
    · have hle := ih h
      omega

theorem pairwise_callsFrom (t : Text) (pos : Nat) (ss : List (Statement p.record)) :
    (callsFrom t pos ss).Pairwise (·.extent.stop ≤ ·.extent.start) := by
  induction ss generalizing pos with
  | nil => exact .nil
  | cons s ss ih =>
    refine List.pairwise_cons.mpr ⟨fun call hcall => ?_, ih _⟩
    have hle := start_le_of_mem_callsFrom hcall
    have hstop : (s.callAt t pos).extent.stop = pos + s.call.length := rfl
    omega

variable {tree : Tree} {doc : Document} {w : Outline} (hdoc : Tree.ofDocument doc = .ok tree)
  (hnodes : tree.nodes = w.nodesFrom none 0)

include hdoc hnodes in
/-- **The calls of a procedure that leave open whether triggers run** are those of the marked
statements. -/
theorem openSpans_callList (hkind : type.kind = .record)
    (hforce : ∀ n : Node, n.containingSymbol = some first → (tree.InForce n ↔ p.obsolete = false))
    (hplain : ∀ x ∈ t.bare, x.char ≠ '=') (ht : t.Reads (pre ++ (lines ss ++ post)))
    (hpos : pos = pre.length) {parent : Option NodeId} {k : NodeId}
    (hsits : (callList t (p.scope first type names) (callsFrom t pos ss)).Sits parent k w) :
    tree.openSpans k
        ((callList t (p.scope first type names) (callsFrom t pos ss)).nodesFrom parent k) =
      (marksFrom pos (ss.flatMap (·.pieces p.obsolete))).map t.span := by
  induction ss generalizing pre pos k with
  | nil => rfl
  | cons s ss ih =>
    obtain ⟨hs, pre', ht', hpos'⟩ := reads_lines_cons ht hpos
    have hopen := leavesTriggerOpen_callAt_iff hdoc hnodes hkind hs (hsits .here) hplain hforce
    rw [callsFrom, callList] at hsits ⊢
    rw [Outline.openSpans_node, Outline.openSpans_eq_nil (callless_callBelow _), List.nil_append,
      ih ht' hpos' hsits.behind, List.flatMap_cons, marksFrom_append, List.map_append]
    have hmarks : (marksFrom pos (s.pieces p.obsolete)).map t.span =
        if (!p.obsolete && s.leavesOpen) = true then [t.span ⟨pos, pos + s.call.length⟩] else [] := by
      simp only [Statement.pieces, marksFrom, Piece.line]
      split <;> simp_all
    have hlength : pos + (text (s.pieces p.obsolete)).length = pos + s.call.length + 2 := by
      simp [Statement.pieces, Piece.line]
      omega
    rw [hmarks, hlength]
    simp only [hopen]
    rfl

end Lines

/-- The marks of a procedure are those of its statements. -/
theorem Procedure.marksFrom_pieces (p : Procedure) (q : Nat) :
    marksFrom q (p.pieces ' ') =
      marksFrom (p.bodyAt q + 6) (p.statements.flatMap (·.pieces p.obsolete)) := by
  have hattribute : marksFrom q (p.attributePieces ' ') = [] := by
    rw [attributePieces]
    split <;> rfl
  have hlast : ∀ pos cs, marksFrom pos [.line cs] = [] := fun pos cs => marksFrom_line pos cs []
  have hpos : p.bodyAt q + 6 = q + (text (p.attributePieces ' ')).length +
      ((p.header ++ p.parameters ++ [')']).length + 1) + ((spell "begin").length + 1) := by
    have hbegin : (spell "begin").length = 5 := rfl
    simp only [bodyAt, headerAt, hbegin, List.length_append, List.length_cons, List.length_nil]
    omega
  rw [pieces, List.append_assoc, List.append_assoc, marksFrom_append, hattribute, List.nil_append,
    List.cons_append, List.cons_append, marksFrom_line, marksFrom_line, List.nil_append,
    marksFrom_append, hlast, List.append_nil, hpos]

section Procedures

variable {t : Text} {ps : List Procedure} {pre post : List Char} {q : Nat}

theorem reads_listing_cons {p : Procedure} (ht : t.Reads (pre ++ (listing (p :: ps) ++ post)))
    (hq : q = pre.length) :
    (∃ pre' post', t.Reads (pre' ++ (lines p.statements ++ post')) ∧
      p.bodyAt q + 6 = pre'.length) ∧
    ∃ pre', t.Reads (pre' ++ (listing ps ++ post)) ∧ p.stopAt q + 2 = pre'.length := by
  have hsplit : listing (p :: ps) = text (p.pieces ' ') ++ listing ps := rfl
  constructor
  · refine ⟨pre ++ text (p.attributePieces ' ') ++ p.header ++ p.parameters ++ [')', '\n'] ++
      spell "begin" ++ ['\n'], spell "end" ++ [';', '\n'] ++ listing ps ++ post, ?_, ?_⟩
    · rw [listing_cons, Procedure.body] at ht
      simpa using ht
    · have hbegin : (spell "begin").length = 5 := rfl
      simp only [Procedure.bodyAt, Procedure.headerAt, hq, hbegin, List.length_append,
        List.length_cons, List.length_nil]
  · refine ⟨pre ++ text (p.pieces ' '), ?_, ?_⟩
    · rw [hsplit, List.append_assoc] at ht
      rwa [List.append_assoc]
    · rw [← p.length_text, List.length_append, hq]

variable {names : List String} {first : SymbolId} {symbols : List Symbol} {o : Outline}

theorem Listed.size_eq (h : Listed t names first q ps symbols o)
    (ht : t.Reads (pre ++ (listing ps ++ post))) (hq : q = pre.length) :
    o.size = (ps.map Procedure.nodeCount).sum := by
  induction h generalizing pre with
  | nil => rfl
  | @cons first q p ps type method parameter e block symbols o hkind _ _ _ _ _ _ ih =>
    obtain ⟨⟨front, back, hlines, hpos⟩, pre', ht', hq'⟩ := reads_listing_cons ht hq
    have hcalls := @size_callList t p p.statements front back first type names _ hkind hlines hpos
    simp only [Outline.size, Outline.single, hcalls, ih ht' hq', List.map_cons, List.sum_cons,
      Procedure.nodeCount]
    omega

section Marks

variable {tree : Tree} {doc : Document} {w : Outline} (hdoc : Tree.ofDocument doc = .ok tree)
  (hnodes : tree.nodes = w.nodesFrom none 0)
include hdoc hnodes

/-- **The calls of procedures that leave open whether triggers run** are those of the marked
statements. -/
theorem Listed.openSpans_eq (h : Listed t names first q ps symbols o)
    (hsymbols : tree.symbols.drop first = symbols)
    (hobjects : ∀ s x, tree.symbol? s = some x → x.kind.isObject = true → x.obsolete = .current)
    (hplain : ∀ x ∈ t.bare, x.char ≠ '=') (ht : t.Reads (pre ++ (listing ps ++ post)))
    (hq : q = pre.length) {parent : Option NodeId} {k : NodeId} (hsits : o.Sits parent k w) :
    tree.openSpans k (o.nodesFrom parent k) =
      (marksFrom q (ps.flatMap (·.pieces ' '))).map t.span := by
  induction h generalizing pre k with
  | nil => rfl
  | @cons first q p ps type method parameter e block symbols o hkind _ hobsolete _ he hblock _ ih =>
    obtain ⟨⟨front, back, hlines, hpos⟩, pre', ht', hq'⟩ := reads_listing_cons ht hq
    have hmethod : tree.symbol? first = some method := by
      have hhead := congrArg List.head? hsymbols
      rwa [List.head?_drop] at hhead
    have hlater : tree.symbols.drop (first + 2) = symbols := by
      rw [← List.drop_drop, hsymbols]
      rfl
    have hforce : ∀ n : Node, n.containingSymbol = some first →
        (tree.InForce n ↔ p.obsolete = false) := by
      intro n hn
      rw [Tree.inForce_iff hmethod hobjects hn, hobsolete]
      cases p.obsolete <;> simp
    have hcalls := openSpans_callList hdoc hnodes hkind hforce hplain hlines hpos
      hsits.below.below
    rw [Outline.openSpans_other he, Outline.openSpans_single hblock, hcalls,
      ih hlater ht' hq' hsits.behind, List.flatMap_cons, marksFrom_append, List.map_append,
      p.length_text, p.marksFrom_pieces]

end Marks

end Procedures

/-! ### The document -/

section Resolve

variable {t : Text} {S : Cells} (hcopies : t.Copies S) {members : Extent} {pre post : List Char}
include hcopies

/-- The nodes of a body are those of its statements' calls. -/
theorem outlineCalls_body (p : Procedure) (ht : t.Reads (pre ++ (p.body ++ post)))
    {start stop : Nat} (hstart : start = pre.length) (hstop : stop = pre.length + p.body.length)
    (hcuts : S.Cuts ⟨start, stop⟩) (scope : Scope) :
    outlineCalls t scope (t.calls ⟨start, stop⟩) ⟨start, stop⟩ =
      callList t scope (callsFrom t (start + 6) p.statements) := by
  have hcalls := calls_body p ht hstart hstop
  have hplaced : ∀ call ∈ callsFrom t (start + 6) p.statements, call.Placed S ⟨start, stop⟩ := by
    intro call hcall
    rw [← hcalls] at hcall
    exact placed_of_mem_calls hcopies hcuts hcall
  rw [hcalls]
  exact outlineCalls_eq_callList hcopies hplaced (pairwise_callsFrom t _ _) fun call hcall =>
    ⟨(hplaced call hcall).start_le, (hplaced call hcall).stop_le⟩

/-- **The symbols and nodes of a procedure** are its own, that of its parameter, its block and its
calls. -/
theorem resolveRoutine_procedure (p : Procedure)
    (ht : t.Reads (pre ++ (text (p.pieces ' ') ++ post))) {q : Nat} (hq : q = pre.length)
    (hplaced : (p.routine q).Placed S t.bare members) (object first : SymbolId)
    (names : List String) :
    ∃ type : TypeInfo, type.kind = .record ∧
      resolveRoutine t object first [] names (p.routine q) =
        ([{ kind := .method
            name := t.name (p.routine q).name
            obsolete := if p.obsolete then .pending else .current
            containing := some object }, (p.parameter first type).toSymbol first],
          .single { plainEntry .methodDeclaration (t.span ⟨p.headerAt q, p.stopAt q⟩) first with
              symbol := some first }
            (.single (plainEntry .block (t.span ⟨p.bodyAt q, p.stopAt q⟩) first)
              (callList t (p.scope first type names)
                (callsFrom t (p.bodyAt q + 6) p.statements)))) := by
  have hparameters : t.Reads ((pre ++ text (p.attributePieces ' ') ++ p.header) ++ (p.parameters ++
      ([')', '\n'] ++ (p.body ++ ([';', '\n'] ++ post))))) := by
    rw [p.text_pieces] at ht
    simpa using ht
  have hbody : t.Reads ((pre ++ text (p.attributePieces ' ') ++ p.header ++ p.parameters ++
      [')', '\n']) ++ (p.body ++ ([';', '\n'] ++ post))) := by
    rw [p.text_pieces] at ht
    simpa using ht
  have hopening : p.headerAt q + p.header.length =
      (pre ++ text (p.attributePieces ' ') ++ p.header).length := by
    simp only [Procedure.headerAt, hq, List.length_append]
  have hstart : p.bodyAt q = (pre ++ text (p.attributePieces ' ') ++ p.header ++ p.parameters ++
      [')', '\n']).length := by
    simp only [Procedure.bodyAt, Procedure.headerAt, hq, List.length_append, List.length_cons,
      List.length_nil]
  obtain ⟨type, hkind, hdeclarations⟩ := declarations_parameters p hparameters hopening
    (congrArg (· + p.parameters.length) hopening)
  have hcalls := outlineCalls_body hcopies p hbody hstart (congrArg (· + p.body.length) hstart)
    (hplaced.body _ rfl).1 (p.scope first type names)
  have hdeclared : declare .parameter false (first + 1)
      (t.declarations (p.routine q).parameters true) = [p.parameter first type] := by
    rw [show t.declarations (p.routine q).parameters true = _ from hdeclarations]
    rfl
  refine ⟨type, hkind, ?_⟩
  rw [resolveRoutine, hdeclared, ← hcalls]
  rfl

/-- **The symbols and nodes of procedures** are listed one after the other. -/
theorem listed_resolveRoutines (object first : SymbolId) (names : List String)
    (ps : List Procedure) (ht : t.Reads (pre ++ (listing ps ++ post))) {q : Nat}
    (hq : q = pre.length) (hplaced : ∀ r ∈ routinesFrom q ps, r.Placed S t.bare members) :
    Listed t names first q ps
      (resolveRoutines t object [] names first (routinesFrom q ps)).1
      (resolveRoutines t object [] names first (routinesFrom q ps)).2 := by
  induction ps generalizing pre q first with
  | nil => exact .nil
  | cons p ps ih =>
    obtain ⟨-, pre', ht', hq'⟩ := reads_listing_cons ht hq
    have hprocedure : t.Reads (pre ++ (text (p.pieces ' ') ++ (listing ps ++ post))) := by
      rw [show listing (p :: ps) = text (p.pieces ' ') ++ listing ps from rfl,
        List.append_assoc] at ht
      exact ht
    obtain ⟨type, hkind, hone⟩ := resolveRoutine_procedure hcopies p hprocedure hq
      (hplaced _ List.mem_cons_self) object first names
    have hrest := ih (first + 2) ht' hq' fun r hr => hplaced r (List.mem_cons_of_mem _ hr)
    rw [routinesFrom, resolveRoutines, hone]
    exact .cons hkind rfl rfl rfl (by rintro ⟨⟩) (by rintro ⟨⟩) hrest

end Resolve

namespace Codeunit

variable (c : Codeunit) {t : Text} (ht : t.Reads (text (c.pieces ' ')))
include ht

theorem exists_resolveObject {o : ObjectSite} (hkind : o.kind = .codeunit)
    (ho : o.members = ⟨c.header.length + 2, c.header.length + 2 + (c.members ' ').length⟩) :
    ∃ (names : List String) (object : Symbol) (e : Entry), object.kind = .codeunit ∧
      object.obsolete = .current ∧ e.kind ≠ .invocationExpression ∧
      resolveObject t 0 o = .ok (object ::
          (resolveRoutines t 0 [] names 1 (routinesFrom (c.header.length + 3) c.procedures)).1,
        .single e
          (resolveRoutines t 0 [] names 1 (routinesFrom (c.header.length + 3) c.procedures)).2) := by
  have hroutines := c.routines_members ht
  have hstate : t.property? obsoleteState o.members (t.depth o.opening + 1) = none :=
    c.property?_eq_none ht _ _
  have htable : recordTable? t o = none := by
    rw [recordTable?, hkind]
  have hglobals := c.globalDeclarations_eq_nil ht ho
  rw [← ho] at hroutines
  rw [resolveObject, hroutines]
  simp only [hstate, htable, hglobals, hkind]
  exact ⟨_, _, _, by rfl, by rfl, by nofun, rfl⟩

/-- **The codeunit is one object with its procedures.** -/
theorem exists_resolveObjects {S : Cells} (hcopies : t.Copies S) :
    ∃ (names : List String) (object : Symbol) (e : Entry) (symbols : List Symbol) (o : Outline),
      object.kind = .codeunit ∧ object.obsolete = .current ∧ e.kind ≠ .invocationExpression ∧
      Listed t names 1 (c.header.length + 3) c.procedures symbols o ∧
      resolveObjects t 0 0 (objectHeader.all ⟨none, 0, t.bare⟩) =
        .ok (object :: symbols, .single e o) := by
  have hheaders : objectHeader.all ⟨none, 0, t.bare⟩ =
      [⟨⟨0, c.header.length⟩, ⟨⟨0, 8⟩, ⟨15, 15 + c.name.chars.length⟩, none⟩⟩] := by
    rw [ht.bare_eq]
    exact c.objectHeaders_text
  have haround : t.Reads (c.around (c.members ' ') c.ending) := c.text_eq_around ▸ ht
  have hdepth := c.depth_zero_around haround c.braceless_members
  have hsite := c.objectSite_around haround c.braceless_members
  have hfound := foundFrom_of_mem_headers hcopies (hheaders ▸ List.mem_singleton.mpr rfl)
  have hmembers := (placed_objectSite hcopies hfound hsite).1.members
  have hplaced := (placed_routines hcopies hmembers (c.routines_members ht)).1
  obtain ⟨names, object, e, hkind, hcurrent, he, hobject⟩ := c.exists_resolveObject ht
    (o := ⟨.codeunit, 0, ⟨15, 15 + c.name.chars.length⟩, none, c.header.length + 1,
      c.header.length + 2 + (c.members ' ').length⟩) rfl rfl
  have hread : t.Reads ((c.header ++ ['\n', '\x7b', '\n']) ++ (listing c.procedures ++
      ('\x7d' :: c.ending))) := by
    rw [c.text_pieces, members] at ht
    simpa [listing] using ht
  have hlisted := listed_resolveRoutines hcopies 0 1 names c.procedures hread
    (q := c.header.length + 3) (by simp) hplaced
  refine ⟨names, object, e, _, _, hkind, hcurrent, he, hlisted, ?_⟩
  rw [hheaders, resolveObjects, if_neg (by simp [hdepth]), hsite]
  simp only [hobject, resolveObjects, List.append_nil]
  rfl

end Codeunit

end Program
end TreeLint
