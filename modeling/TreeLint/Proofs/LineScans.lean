/-
# Texts scanned line by line

A line feed ends a line comment and a quoted name, and it tells the scanner no more
than the end of the text does. So what stands above a line feed is blanked as if it
were the whole text, and what stands below it depends on one thing only: where the
scanner stands behind the line feed (`Source.coveredFrom_append_feed`). That is in
code, or else in a block comment or a string literal that was open above
(`Source.standsBehind_append_feed`).

A block comment is meant to go on below its line. A string literal goes on as well:
an apostrophe that is not closed hides the lines below it up to the next one, so two
texts are blanked apart exactly if the upper one leaves no literal open
(`Source.blanked_apart_iff`).

Key definitions: `Source.LeavesBlock`, `Source.LeavesLiteral`.
Key theorems: `Source.coveredFrom_append_feed`, `Source.coveredFrom_whole_append`,
`Source.standsBehind_append_feed`, `Source.blanked_apart_iff`.
-/
import TreeLint.Proofs.DeclarationTexts
import TreeLint.Proofs.Nesting
import TreeLint.Proofs.Spreads

namespace TreeLint
namespace Source

open Cells (ofString)

variable {hide : Layer → Bool} {s : MaskState}

/-! ### Line feeds -/

theorem cover_feed (l : Layer) : cover hide l Cell.feed = Cell.feed := if_neg (by simp [Cell.feed])

theorem maskStep_feed (s : MaskState) (next next' : Option Char) :
    maskStep s Cell.feed.char next = maskStep s Cell.feed.char next' := by
  cases s <;> simp [maskStep, Cell.feed]

theorem maskStep_before_feed (s : MaskState) (c : Char) :
    maskStep s c (some Cell.feed.char) = maskStep s c none := by
  cases s <;> simp [maskStep, Cell.feed]

theorem standsBehind_before_feed (s : MaskState) (front : Cells) :
    standsBehind (some Cell.feed.char) s front = standsBehind none s front := by
  induction front generalizing s with
  | nil => rfl
  | cons x front ih =>
    have hstep : maskStep s x.char ((front.head?.map (·.char)).or (some Cell.feed.char)) =
        maskStep s x.char ((front.head?.map (·.char)).or none) := by
      cases front with
      | nil => exact maskStep_before_feed s x.char
      | cons y front => rfl
    rw [standsBehind, standsBehind, hstep, ih]

theorem standsBehind_concat (next : Option Char) (s : MaskState) (front : Cells) (x : Cell) :
    standsBehind next s (front ++ [x]) =
      (maskStep (standsBehind (some x.char) s front) x.char next).2 := by
  induction front generalizing s with
  | nil => rfl
  | cons y front ih =>
    have hnext : ((front ++ [x]).head?.map (·.char)).or next =
        (front.head?.map (·.char)).or (some x.char) := by
      cases front <;> rfl
    rw [List.cons_append, standsBehind, standsBehind, hnext, ih]

theorem standsBehind_none_mem (front : Cells) :
    standsBehind none .code front ∈ [.code, .lineComment, .block, .literal, .name] := by
  induction front using List.reverseRecOn with
  | nil => decide
  | append_singleton front x _ =>
    rw [standsBehind_concat]
    generalize standsBehind (some x.char) .code front = s
    cases s <;> simp only [maskStep] <;> grind

/-- **Behind a line feed the scanner reads code**, unless it is in a block comment or a literal. -/
theorem standsBehind_append_feed (front : Cells) :
    standsBehind none .code (front ++ [Cell.feed]) =
      match standsBehind none .code front with
      | .block => .block
      | .literal => .literal
      | _ => .code := by
  have hmem := standsBehind_none_mem front
  rw [standsBehind_concat, standsBehind_before_feed]
  generalize standsBehind none .code front = s at hmem
  simp only [List.mem_cons, List.not_mem_nil, or_false] at hmem
  rcases hmem with rfl | rfl | rfl | rfl | rfl <;> rfl

theorem coveredFrom_whole_append {above : Cells} (h : above = [] ∨ ∃ front, above = front ++ [Cell.feed])
    (rest : Cells) :
    coveredFrom hide s (above ++ rest) =
      coveredFrom hide s above ++ coveredFrom hide (standsBehind none s above) rest := by
  rcases h with rfl | ⟨front, rfl⟩
  · rfl
  · induction front generalizing s with
    | nil =>
      rw [List.nil_append, List.singleton_append, coveredFrom_cons, coveredFrom_cons,
        maskStep_feed s _ none]
      rfl
    | cons x front ih =>
      have hnext : (front ++ [Cell.feed] ++ rest).head? = (front ++ [Cell.feed]).head? := by
        cases front <;> rfl
      rw [List.cons_append, List.cons_append, coveredFrom_cons, coveredFrom_cons, hnext, ih,
        standsBehind, Option.or_none]
      rfl

theorem coveredFrom_concat_feed (front : Cells) :
    coveredFrom hide s (front ++ [Cell.feed]) = coveredFrom hide s front ++ [Cell.feed] := by
  induction front generalizing s with
  | nil => rw [List.nil_append, coveredFrom_cons, cover_feed]; rfl
  | cons x front ih =>
    have hstep : maskStep s x.char ((front ++ [Cell.feed]).head?.map (·.char)) =
        maskStep s x.char (front.head?.map (·.char)) := by
      cases front with
      | nil => exact maskStep_before_feed s x.char
      | cons y front => rfl
    rw [List.cons_append, coveredFrom_cons, coveredFrom_cons, hstep, ih, List.cons_append]

/-- **A text above a line feed is blanked as if nothing stood below it.** -/
theorem coveredFrom_append_feed (front rest : Cells) :
    coveredFrom hide s (front ++ Cell.feed :: rest) = coveredFrom hide s front ++
      Cell.feed :: coveredFrom hide (standsBehind none s (front ++ [Cell.feed])) rest := by
  rw [show front ++ Cell.feed :: rest = front ++ [Cell.feed] ++ rest by simp,
    coveredFrom_whole_append (Or.inr ⟨front, rfl⟩), coveredFrom_concat_feed, List.append_assoc]
  rfl

/-! ### Texts with a line feed between them -/

/-- At the end of the text the scanner is in a block comment. -/
def LeavesBlock (text : String) : Prop := standsBehind none .code (ofString text) = .block

/-- At the end of the text the scanner is in a string literal. -/
def LeavesLiteral (text : String) : Prop := standsBehind none .code (ofString text) = .literal

instance (text : String) : Decidable (LeavesBlock text) := inferInstanceAs (Decidable (_ = _))

instance (text : String) : Decidable (LeavesLiteral text) := inferInstanceAs (Decidable (_ = _))

theorem ofString_append (a b : String) : ofString (a ++ b) = ofString a ++ ofString b := by
  rw [Cells.ofString, String.toList_append, Cells.ofChars_append]
  rfl

/-- Both copies of two texts with a line feed between them, of which the lower one is scanned from
where the scanner stands behind the line feed. -/
theorem blanked_append_feed (above below : String) {s : MaskState}
    (hs : standsBehind none .code (ofString above ++ [Cell.feed]) = s) :
    masked (ofString (above ++ "\n" ++ below)) = masked (ofString above) ++
        Cell.feed :: coveredFrom (· == .hidden) s (ofString below) ∧
      bare (ofString (above ++ "\n" ++ below)) = bare (ofString above) ++
        Cell.feed :: coveredFrom (· != .code) s (ofString below) := by
  have hcells : ofString (above ++ "\n" ++ below) = ofString above ++ Cell.feed :: ofString below := by
    rw [ofString_append, ofString_append, List.append_assoc]
    rfl
  rw [hcells, ← hs]
  exact ⟨coveredFrom_append_feed _ _, coveredFrom_append_feed _ _⟩

/-- **Two texts with a line feed between them are blanked apart** exactly if the upper one leaves no
string literal open. If it does, the lower one is read from within the literal. -/
theorem blanked_apart_iff {above : String} (h : ¬ LeavesBlock above) :
    ((∀ below, masked (ofString (above ++ "\n" ++ below)) =
          masked (ofString above) ++ Cell.feed :: masked (ofString below) ∧
        bare (ofString (above ++ "\n" ++ below)) =
          bare (ofString above) ++ Cell.feed :: bare (ofString below)) ↔ ¬ LeavesLiteral above) ∧
      (LeavesLiteral above → ∀ below, masked (ofString (above ++ "\n" ++ below)) =
          masked (ofString above) ++ Cell.feed :: coveredFrom (· == .hidden) .literal (ofString below) ∧
        bare (ofString (above ++ "\n" ++ below)) =
          bare (ofString above) ++ Cell.feed :: coveredFrom (· != .code) .literal (ofString below)) := by
  have hfeed := standsBehind_append_feed (ofString above)
  have hliteral : LeavesLiteral above →
      standsBehind none .code (ofString above ++ [Cell.feed]) = .literal := by
    intro hopen
    rw [hfeed, show standsBehind none .code (ofString above) = .literal from hopen]
  refine ⟨⟨fun hlaw hopen => ?_, fun hclosed below => ?_⟩, fun hopen below =>
    blanked_append_feed above below (hliteral hopen)⟩
  · -- a letter below an open literal is hidden
    have hmasked := (blanked_append_feed above "x" (hliteral hopen)).1
    rw [(hlaw "x").1, List.append_cancel_left_eq] at hmasked
    exact absurd hmasked (by decide +kernel)
  · refine blanked_append_feed above below ?_
    rw [hfeed]
    split
    · exact absurd ‹_› h
    · exact absurd ‹_› hclosed
    · rfl

/-- A quote that is not closed hides nothing on the line below it. -/
theorem blanked_apart_openName : ¬ LeavesBlock "#region \"A" ∧ ¬ LeavesLiteral "#region \"A" ∧
    bare (ofString ("#region \"A" ++ "\n" ++ "B(\"C\")")) =
      bare (ofString "#region \"A") ++ Cell.feed :: bare (ofString "B(\"C\")") := by
  have hblock : ¬ LeavesBlock "#region \"A" := by decide +kernel
  have hliteral : ¬ LeavesLiteral "#region \"A" := by decide +kernel
  exact ⟨hblock, hliteral, ((blanked_apart_iff hblock).1.mpr hliteral "B(\"C\")").2⟩

/-- The lines of a codeunit above a procedure; an apostrophe is not closed in them. -/
def regionAbove : String := "codeunit 50100 C\n\x7b\n    #region Don't touch"

/-- The rest of the codeunit. -/
def regionBelow : String := "    procedure P()\n    begin\n    end;\n    #endregion\n\x7d\n"

/-- **An apostrophe that is not closed hides the lines below it**: the codeunit has no end. -/
theorem apostrophe_hides_lines : ¬ LeavesBlock regionAbove ∧
    masked (ofString (regionAbove ++ "\n" ++ regionBelow)) ≠
      masked (ofString regionAbove) ++ Cell.feed :: masked (ofString regionBelow) ∧
    resolve "a.al" (regionAbove ++ "\n" ++ regionBelow) =
      .error (.notClosed ⟨0, 16, 1, 1, 1, 17⟩) := by
  refine ⟨by decide +kernel, by decide +kernel, by decide +kernel⟩

end Source
end TreeLint
