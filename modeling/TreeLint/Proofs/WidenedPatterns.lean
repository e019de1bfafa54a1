/-
# The language's patterns in a text with lines put in

The headers, properties, block words and calls of a text are those of the text
with lines put in, at the pushed places. What has to be a word stands on one line;
between its parts a pattern takes any blanks, and with them the lines put in.

Key definitions: `Source.ObjectHeader.map`, `Source.RoutineHeader.map`,
`Source.CallHead.map`.
Key theorems: `Source.widens_objectHeader`, `Source.widens_routineHeader`,
`Source.widens_callHead`, `Source.widens_blockToken`, `Source.closingEnd?_of_widens`.
-/
import TreeLint.Proofs.Matches
import TreeLint.Proofs.WidenedMatches

namespace TreeLint
namespace Source

/-- The header with its parts at other places. -/
def ObjectHeader.map (f : Nat → Nat) (h : ObjectHeader) : ObjectHeader :=
  ⟨h.keyword.map f, h.name.map f, h.base.map (Extent.map f)⟩

/-- The header with its name at another place. -/
def RoutineHeader.map (f : Nat → Nat) (h : RoutineHeader) : RoutineHeader :=
  ⟨h.kind, h.name.map f⟩

/-- The head of a call with its names at other places. -/
def CallHead.map (f : Nat → Nat) (h : CallHead) : CallHead :=
  ⟨h.first.map f, h.member.map (Extent.map f)⟩

section Patterns

open Cursor (WidensWith)

variable {push : Nat → Nat} {cs : Cells} {stop : Nat} {c d : Cursor} (hcs : cs.Whole)
  (hstop : cs.isBoundary stop = true)
include hcs hstop

/-! ### Words -/

theorem widens_keyword {w : String} (hw : Lettered w.toList) (hsolid : Solid w.toList) :
    (keyword w).Widens push cs stop id where
  found c d hc h := by
    rw [keyword, keyword]
    exact rel_map (h.wholeWord? hcs hstop hw.2 hc) fun c d h => ⟨rfl, h⟩
  onWords := onWords_keyword hw
  pos_lt c a d hc hd := (snug_keyword hcs hstop hc hsolid hd).2.lt

theorem widens_blockToken : blockToken.Widens push cs stop id where
  found c d hc h := by
    have hblock : ∀ c : Cursor, blockToken c =
        (((c.wholeWord? "begin".toList).or (c.wholeWord? "case".toList)).map (BlockToken.opener, ·)).or
          ((c.wholeWord? "end".toList).map (BlockToken.closer, ·)) := by
      intro c
      rw [blockToken]
      cases c.wholeWord? "begin".toList with
      | some d => rfl
      | none =>
        cases c.wholeWord? "case".toList with
        | some d => rfl
        | none => cases c.wholeWord? "end".toList <;> rfl
    have hword : ∀ w ∈ ["begin", "case", "end"], Lettered w.toList := by decide
    have hfound := fun {w : String} hmem => h.wholeWord? hcs hstop (hword w hmem).2 hc
    rw [hblock, hblock]
    exact rel_or (rel_map (rel_or (hfound (by decide)) (hfound (by decide))) fun c d h => ⟨rfl, h⟩)
      (rel_map (hfound (by decide)) fun c d h => ⟨rfl, h⟩)
  onWords := onWords_blockToken
  pos_lt c a d hc hd := (snug_blockToken hcs hstop hc hd).2.lt

/-! ### Headers -/

omit hcs hstop in
theorem widens_skipNumber (h : c.Widens push d) : (skipNumber c).Widens push (skipNumber d) := by
  have hskip : ∀ c : Cursor, skipNumber c =
      ((c.some? fun x => CharClass.isDigit x.char).bind Cursor.blanks?).getD c := by
    intro c
    rw [skipNumber]
    split <;> rename_i h <;> rw [h] <;> rfl
  rw [hskip, hskip]
  exact rel_getD (rel_bind (h.some? (absurd · (by decide))) fun _ _ h => h.blanks?) h

theorem widens_baseName? (hc : c.Stands cs stop) (h : c.Widens push d) :
    Option.Rel (WidensWith push (Extent.map push)) (baseName? c) (baseName? d) := by
  simp only [baseName?, Option.bind_eq_bind]
  refine rel_bind (rel_and h.blanks? fun e he => (hc.blanks? hcs hstop he).1) fun c₁ d₁ h₁ => ?_
  refine rel_bind (h₁.2.word? hcs hstop (by decide) h₁.1) fun c₂ d₂ h₂ => ?_
  exact rel_bind h₂.2.blanks? fun c₃ d₃ h₃ => h₃.name? _

theorem widens_objectHeader : objectHeader.Widens push cs stop (ObjectHeader.map push) where
  found c d hc h := by
    rw [objectHeader, objectHeader, h.atWordEdge]
    split
    · rename_i hedge
      have hstands : c.Stands cs stop := ⟨hc, hc.isBoundary_of_atWordEdge hcs hstop hedge⟩
      refine rel_findSome? fun w hw => ?_
      simp only [Option.bind_eq_bind]
      refine rel_bind (h.word? hcs hstop (lettered_objectKeywords w hw).2 hstands)
        fun c₁ d₁ h₁ => ?_
      refine rel_bind (rel_and h₁.2.blanks? fun e he => (h₁.1.blanks? hcs hstop he).1)
        fun c₂ d₂ h₂ => ?_
      have hnumber := (stands_skipNumber hcs hstop h₂.1).1
      refine rel_bind (rel_and ((widens_skipNumber h₂.2).name? _) fun a ha =>
        (hnumber.name? hcs hstop CharClass.isWord_of_isFoldedLetter ha).1)
        fun a b hab => ?_
      obtain ⟨name, c₃⟩ := a
      obtain ⟨name', d₃⟩ := b
      obtain ⟨hc₃, hname, h₃⟩ := hab
      simp only at hname h₃ ⊢
      have hkeyword : d.upTo d₁ = (c.upTo c₁).map push := by
        rw [Cursor.upTo, Cursor.upTo, h.pos_eq, h₁.2.pos_eq]
        rfl
      have hbase := widens_baseName? hcs hstop hc₃ h₃
      generalize baseName? c₃ = a, baseName? d₃ = b at hbase
      cases hbase with
      | some hbase => exact .some ⟨by rw [hkeyword, hname, hbase.1]; rfl, hbase.2⟩
      | none => exact .some ⟨by rw [hkeyword, hname]; rfl, h₃⟩
    · exact .none
  onWords := onWords_objectHeader
  pos_lt c a d hc hd := (placed_objectHeader hcs hstop hc hd).2.whole.lt

theorem widens_skipAccess (hc : c.Stands cs stop) (h : c.Widens push d) :
    (skipAccess c).Widens push (skipAccess d) := by
  have hskip : ∀ c : Cursor, skipAccess c = (["local", "internal", "protected"].findSome? fun w =>
      (c.word? w.toList).bind Cursor.blanks?).getD c := by
    intro c
    rw [skipAccess]
    split <;> rename_i h <;> rw [h] <;> rfl
  rw [hskip, hskip]
  refine rel_getD (rel_findSome? fun w hw => ?_) h
  have hw := lettered_routineWords w (List.mem_append_left ["procedure", "trigger"] hw)
  exact rel_bind (h.word? hcs hstop hw.2 hc) fun _ _ h => h.2.blanks?

theorem widens_routineHeader : routineHeader.Widens push cs stop (RoutineHeader.map push) where
  found c d hc h := by
    have hheader : ∀ c : Cursor, routineHeader c = if c.atWordEdge then
        ((((skipAccess c).word? "procedure".toList).map (RoutineKind.procedure, ·)).or
          (((skipAccess c).word? "trigger".toList).map (RoutineKind.trigger, ·))).bind
        fun a => a.2.blanks?.bind fun d => (d.name? CharClass.isFoldedLetter).bind
        fun b => (b.2.blanks.mark? '(').bind fun d => some (⟨a.1, b.1⟩, d) else none := by
      intro c
      rw [routineHeader]
      split
      · dsimp only
        cases (skipAccess c).word? "procedure".toList with
        | some d => rfl
        | none => cases (skipAccess c).word? "trigger".toList <;> rfl
      · rfl
    rw [hheader, hheader, h.atWordEdge]
    split
    · rename_i hedge
      have hstands : c.Stands cs stop := ⟨hc, hc.isBoundary_of_atWordEdge hcs hstop hedge⟩
      have haccess := widens_skipAccess hcs hstop hstands h
      have hword := fun {w : String} hmem => haccess.word? hcs hstop
        (lettered_routineWords w hmem).2 (stands_skipAccess hcs hstop hstands).1
      refine rel_bind (R := WidensWith push id) (rel_or (rel_map (hword (by decide)) fun c d h => ⟨rfl, h.2⟩)
        (rel_map (hword (by decide)) fun c d h => ⟨rfl, h.2⟩))
        fun a b hab => ?_
      obtain ⟨kind, c₁⟩ := a
      obtain ⟨kind', d₁⟩ := b
      obtain ⟨hkind, h₁⟩ := hab
      refine rel_bind h₁.blanks? fun c₂ d₂ h₂ => ?_
      refine rel_bind (h₂.name? _) fun a b hab => ?_
      obtain ⟨name, c₃⟩ := a
      obtain ⟨name', d₃⟩ := b
      obtain ⟨hname, h₃⟩ := hab
      refine rel_bind (h₃.blanks.mark? rfl) fun c₄ d₄ h₄ => .some ⟨?_, h₄⟩
      simp only at hkind hname ⊢
      rw [hkind, hname]
      rfl
    · exact .none
  onWords := onWords_routineHeader
  pos_lt c a d hc hd := (placed_routineHeader hcs hstop hc hd).2.whole.lt

/-! ### Properties -/

omit hcs hstop in
theorem onWords_property {key : String} (hkey : Lettered key.toList)
    (value : Cursor → Option (Extent × Cursor)) : (property key value).OnWords := by
  intro c _ h
  rw [property]
  split
  · rename_i hedge
    rw [Cursor.word?_eq_none (endsWord_of_atWordEdge hedge h) hkey.2 hkey.1]
    rfl
  · rfl

theorem found_property {key : String} {value : Cursor → Option (Extent × Cursor)}
    (hkey : Lettered key.toList)
    (hvalue : ∀ c d, Cursor.Widens push c d →
      Option.Rel (WidensWith push (Extent.map push)) (value c) (value d))
    (hc : c.In cs stop) (h : c.Widens push d) :
    Option.Rel (WidensWith push (Extent.map push)) (property key value c) (property key value d) := by
  rw [property, property, h.atWordEdge]
  split
  · rename_i hedge
    have hstands : c.Stands cs stop := ⟨hc, hc.isBoundary_of_atWordEdge hcs hstop hedge⟩
    simp only [Option.bind_eq_bind]
    refine rel_bind (h.word? hcs hstop hkey.2 hstands) fun c₁ d₁ h₁ => ?_
    refine rel_bind (h₁.2.blanks.mark? rfl) fun c₂ d₂ h₂ => ?_
    refine rel_bind (hvalue _ _ h₂.blanks) fun ⟨v, c₃⟩ ⟨v', d₃⟩ ⟨hv, h₃⟩ => ?_
    exact rel_bind (h₃.blanks.mark? rfl) fun c₄ d₄ h₄ => .some ⟨hv, h₄⟩
  · exact .none

theorem widens_obsoleteState : obsoleteState.Widens push cs stop (Extent.map push) where
  found c d hc h := by
    refine found_property hcs hstop (by decide) (fun c d h => ?_) hc h
    simp only [Option.bind_eq_bind]
    refine rel_bind (h.some? (absurd · (by decide))) fun c₁ d₁ h₁ => .some ⟨?_, h₁⟩
    rw [Cursor.upTo, Cursor.upTo, h.pos_eq, h₁.pos_eq]
    rfl
  onWords := onWords_property (by decide) _
  pos_lt c a d hc hd := (snug_obsoleteState hcs hstop hc hd).2.1.lt

theorem widens_sourceTable : sourceTable.Widens push cs stop (Extent.map push) where
  found c d hc h := found_property hcs hstop (by decide) (fun c d h => h.name? _) hc h
  onWords := onWords_property (by decide) _
  pos_lt c a d hc hd := (snug_sourceTable hcs hstop hc hd).2.1.lt

/-! ### Calls -/

omit hcs hstop in
theorem widens_memberName? (h : c.Widens push d) :
    Option.Rel (WidensWith push (Extent.map push)) (memberName? c) (memberName? d) := by
  have hmember : ∀ c : Cursor, memberName? c =
      (c.blanks.mark? '.').bind fun d => d.blanks.name? CharClass.isAsciiLetter := by
    intro c
    rw [memberName?]
    split <;> rename_i h <;> rw [h] <;> rfl
  rw [hmember, hmember]
  exact rel_bind (h.blanks.mark? rfl) fun c d h => h.blanks.name? _

theorem widens_callHead : callHead.Widens push cs stop (CallHead.map push) where
  found c d hc h := by
    simp only [callHead, Option.bind_eq_bind]
    rw [h.atWordEdge]
    have hplain : Option.Rel (Cursor.Widens push)
        (if c.atWordEdge then c.plain? CharClass.isAsciiLetter else none)
        (if c.atWordEdge then d.plain? CharClass.isAsciiLetter else none) := by
      split
      · exact h.plain?
      · exact .none
    refine rel_bind (rel_or h.quoted? hplain) fun c₁ d₁ h₁ => ?_
    have hfirst : d.upTo d₁ = (c.upTo c₁).map push := by
      rw [Cursor.upTo, Cursor.upTo, h.pos_eq, h₁.pos_eq]
      rfl
    have hmember := widens_memberName? h₁
    generalize memberName? c₁ = a, memberName? d₁ = b at hmember
    cases hmember with
    | @some a b hmember =>
      obtain ⟨m, c₂⟩ := a
      obtain ⟨m', d₂⟩ := b
      obtain ⟨rfl, h₂⟩ := hmember
      refine rel_bind (h₂.blanks.mark? rfl) fun c₃ d₃ h₃ => .some ⟨?_, h₃⟩
      rw [hfirst]
      rfl
    | none =>
      refine rel_bind (h₁.blanks.mark? rfl) fun c₂ d₂ h₂ => .some ⟨?_, h₂⟩
      rw [hfirst]
      rfl
  onWords := onWords_callHead
  pos_lt c a d hc hd := (placed_callHead hcs hstop hc hd).2.whole.lt

/-! ### Ends of blocks -/

omit hcs hstop in
theorem blockEnd_map (fs : List (Found BlockToken)) (depth : Nat) :
    blockEnd depth (fs.map (Found.map push id)) = (blockEnd depth fs).map push := by
  induction fs generalizing depth with
  | nil => rfl
  | cons f fs ih =>
    obtain ⟨extent, value⟩ := f
    cases value with
    | opener => exact ih (depth + 1)
    | closer =>
      match depth with
      | 0 => rfl
      | 1 => rfl
      | depth + 2 => exact ih (depth + 1)

end Patterns
end Source
end TreeLint
