/-
# Comments and string contents have no influence

The two copies that the front end scans have the bytes of the source, but for
blanks in place of comments, string contents and, in the second, the contents of
quoted names; line breaks are never blanked. Blanking is idempotent: a second scan
meets the same quotes and apostrophes as the first one and no comments, since a
blank neither opens nor closes anything (`coveredFrom_again`). The front end reads
nothing but the two copies and the line starts, so it gives the same symbols and
nodes for a source and for its first copy, or fails in the same way.

Key definitions: `Source.maskedText`, `Source.bareText`, `Source.MaskState.again`,
`Source.BlankedBytes`.
Key theorems: `Source.coveredFrom_again`, `Source.forall₂_bytes_of_blanks`,
`Source.ofCells_masked`, `Source.comments_have_no_influence`.
-/
import Mathlib.Data.List.Forall2
import TreeLint.Proofs.GuardedScan

namespace TreeLint
namespace Source

/-! ### Scanning a blanked copy -/

/-- Where the scanner stands in a blanked copy when it stands at a place in the text: comments are
gone, and of a doubled apostrophe nothing is left. -/
def MaskState.again : MaskState → MaskState
  | .code | .lineComment | .blockStart | .block | .blockEnd => .code
  | .literal | .literalQuote => .literal
  | .name => .name

variable {hide hide' : Layer → Bool}

/-- A byte that is blanked twice is blanked if it belongs to a layer of either; what was blanked
the first time may be in any layer the second time. -/
theorem cover_cover {l l' : Layer} (h : l' = l ∨ hide l = true) (c : Cell) :
    cover hide' l' (cover hide l c) = cover (fun l => hide l || hide' l) l c := by
  by_cases hbreak : c.char ≠ '\n' ∧ c.char ≠ '\r'
  · rcases h with rfl | h
    · cases hl : hide l' <;> simp [cover, hbreak, hl, Cell.space]
    · simp [cover, hbreak, h, Cell.space]
  · simp [cover, hbreak]

theorem char_cover (l : Layer) (c : Cell) :
    (cover hide l c).char = c.char ∨ (cover hide l c).char = ' ' := by
  unfold cover
  split
  · exact Or.inr rfl
  · exact Or.inl rfl

theorem head?_coveredFrom (s : MaskState) (cs : Cells) :
    (coveredFrom hide s cs).head?.map (·.char) = cs.head?.map (·.char) ∨
      (coveredFrom hide s cs).head?.map (·.char) = some ' ' := by
  cases cs with
  | nil => exact Or.inl rfl
  | cons c cs =>
    rw [coveredFrom_cons]
    rcases @char_cover hide (maskStep s c.char (cs.head?.map (·.char))).1 c with h | h
    · exact Or.inl (congrArg some h)
    · exact Or.inr (congrArg some h)

/-- A blank or a line break leaves the scanner where it is, in code and in a string literal. -/
theorem maskStep_gap {x : Char} (hx : x = ' ' ∨ x = '\n' ∨ x = '\r') (next : Option Char) :
    maskStep .code x next = (.code, .code) ∧ maskStep .literal x next = (.hidden, .literal) := by
  rcases hx with rfl | rfl | rfl <;> simp [maskStep]

/-- Hidden bytes stand in comments and string literals, and the scanner stays there. -/
theorem again_of_hidden {s : MaskState} {c : Char} {next : Option Char}
    (h : (maskStep s c next).1 = .hidden) :
    (maskStep s c next).2.again = s.again ∧ (s.again = .code ∨ s.again = .literal) := by
  cases s <;> simp only [maskStep] at h ⊢ <;> grind [MaskState.again]

/-- **One byte in a blanked copy.** The scanner goes on to where it stands in the copy, and finds
the layer of the byte in the text, unless the byte was hidden. -/
theorem maskStep_again (hhidden : hide .hidden = true) (hcode : hide .code = false) (s : MaskState)
    (c : Cell) {next next' : Option Char} (hnext : next' = next ∨ next' = some ' ') :
    ∃ layer, maskStep s.again (cover hide (maskStep s c.char next).1 c).char next' =
        (layer, (maskStep s c.char next).2.again) ∧
      (layer = (maskStep s c.char next).1 ∨ (maskStep s c.char next).1 = .hidden) := by
  cases hlayer : (maskStep s c.char next).1 with
  | hidden =>
    have hgap : (cover hide .hidden c).char = ' ' ∨ (cover hide .hidden c).char = '\n' ∨
        (cover hide .hidden c).char = '\r' := by
      grind [cover, Cell.space]
    obtain ⟨hcodegap, hliteral⟩ := maskStep_gap hgap next'
    obtain ⟨hsame, hs | hs⟩ := again_of_hidden hlayer
    · exact ⟨.code, by rw [hsame, hs, hcodegap], Or.inr rfl⟩
    · exact ⟨.hidden, by rw [hsame, hs, hliteral], Or.inr rfl⟩
  | name =>
    -- only a byte of a quoted name that does not end the name
    obtain ⟨rfl, hc⟩ : s = .name ∧ ¬ (c.char = '"' ∨ c.char = '\n') := by
      cases s <;> simp only [maskStep] at hlayer <;> grind
    refine ⟨.name, ?_, Or.inl rfl⟩
    rcases @char_cover hide .name c with h | h
    · simp [maskStep, MaskState.again, h, hc]
    · simp [maskStep, MaskState.again, h, hc]
  | code =>
    -- a byte of code is kept, and what is seen behind it is no other mark than before
    have hkept : cover hide .code c = c := by simp [cover, hcode]
    refine ⟨.code, ?_, Or.inl rfl⟩
    rw [hkept]
    cases s <;> simp only [maskStep, MaskState.again] at hlayer ⊢ <;> grind [MaskState.again]

/-- **Blanking twice is blanking once**, with the layers of either, as long as the first time all
that is hidden is blanked and no code is. -/
theorem coveredFrom_again (hhidden : hide .hidden = true) (hcode : hide .code = false)
    (s : MaskState) (cs : Cells) :
    coveredFrom hide' s.again (coveredFrom hide s cs) =
      coveredFrom (fun l => hide l || hide' l) s cs := by
  induction cs generalizing s with
  | nil => rfl
  | cons c cs ih =>
    obtain ⟨layer, hstep, hlayer⟩ := maskStep_again hhidden hcode s c
      (@head?_coveredFrom hide (maskStep s c.char (cs.head?.map (·.char))).2 cs)
    have hcover : layer = (maskStep s c.char (cs.head?.map (·.char))).1 ∨
        hide (maskStep s c.char (cs.head?.map (·.char))).1 = true :=
      hlayer.imp_right fun h => by rw [h, hhidden]
    rw [coveredFrom_cons hide, coveredFrom_cons hide', hstep, coveredFrom_cons, ih,
      cover_cover hcover]

theorem masked_masked (cs : Cells) : masked (masked cs) = masked cs := by
  have h := @coveredFrom_again (· == .hidden) (· == .hidden) rfl rfl .code cs
  simpa [coveredFrom, masked, layers, MaskState.again] using h

theorem bare_masked (cs : Cells) : bare (masked cs) = bare cs := by
  have h := @coveredFrom_again (· == .hidden) (· != .code) rfl rfl .code cs
  have hor : (fun l : Layer => l == .hidden || l != .code) = (· != .code) := by
    funext l
    cases l <;> rfl
  rw [hor] at h
  exact h

theorem masked_bare (cs : Cells) : masked (bare cs) = bare cs := by
  have h := @coveredFrom_again (· != .code) (· == .hidden) rfl rfl .code cs
  have hor : (fun l : Layer => l != .code || l == .hidden) = (· != .code) := by
    funext l
    cases l <;> rfl
  rw [hor] at h
  exact h

theorem bare_bare (cs : Cells) : bare (bare cs) = bare cs := by
  have h := @coveredFrom_again (· != .code) (· != .code) rfl rfl .code cs
  simpa [coveredFrom, bare, layers, MaskState.again] using h

/-! ### Bytes -/

/-- The bytes of a string. -/
def utf8 (s : String) : List UInt8 := s.toByteArray.data.toList

theorem utf8_ofList (l : List Char) : utf8 (String.ofList l) = l.flatMap String.utf8EncodeChar := by
  rw [utf8, String.toByteArray_ofList, List.utf8Encode]
  simp

/-- A byte as it may stand in a blanked copy: as it is or blanked, and a line break exactly where
there is one. -/
structure KeptOrBlank (x y : UInt8) : Prop where
  cases : y = x ∨ y = 0x20
  feed_iff : y = 0x0A ↔ x = 0x0A
  return_iff : y = 0x0D ↔ x = 0x0D

theorem KeptOrBlank.refl (x : UInt8) : KeptOrBlank x x := ⟨Or.inl rfl, Iff.rfl, Iff.rfl⟩

/-- The second string has as many bytes as the first, and the same ones but for blanks in place of
bytes that are no line breaks. -/
def BlankedBytes (s copy : String) : Prop := List.Forall₂ KeptOrBlank (utf8 s) (utf8 copy)

/-- A byte below `0x80` is a character of its own. -/
theorem eq_of_mem_utf8EncodeChar {c : Char} {b : UInt8} (hb : b.toNat < 0x80)
    (h : b ∈ String.utf8EncodeChar c) : c = Char.ofNat b.toNat := by
  have heq : ∀ m, b = UInt8.ofNat m → b.toNat = m % 256 := by
    rintro m rfl
    simp
  have hval : c.val.toNat = b.toNat := by
    rw [String.utf8EncodeChar] at h
    split at h
    · have := heq _ (List.mem_singleton.mp h)
      omega
    · exfalso
      split at h
      · simp only [List.mem_cons, List.not_mem_nil, or_false] at h
        rcases h with h | h <;> have := heq _ h <;> omega
      · split at h
        · simp only [List.mem_cons, List.not_mem_nil, or_false] at h
          rcases h with h | h | h <;> have := heq _ h <;> omega
        · simp only [List.mem_cons, List.not_mem_nil, or_false] at h
          rcases h with h | h | h | h <;> have := heq _ h <;> omega
  rw [← hval]
  exact (Char.ofNat_toNat c).symm

/-- The cell is kept, or it is no line break and a blank is in its place. -/
def KeptOrSpace (x y : Cell) : Prop := y = x ∨ y = Cell.space ∧ x.char ≠ '\n' ∧ x.char ≠ '\r'

theorem keptOrSpace_coveredFrom (hide : Layer → Bool) (s : MaskState) (cs : Cells) :
    List.Forall₂ KeptOrSpace cs (coveredFrom hide s cs) := by
  induction cs generalizing s with
  | nil => exact .nil
  | cons c cs ih =>
    rw [coveredFrom_cons]
    refine .cons ?_ (ih _)
    unfold cover
    split
    · rename_i h
      exact Or.inr ⟨rfl, h.2⟩
    · exact Or.inl rfl

theorem forall₂_blank : ∀ {bs : List UInt8}, (∀ b ∈ bs, b ≠ 0x0A ∧ b ≠ 0x0D) →
    List.Forall₂ KeptOrBlank bs (List.replicate bs.length 0x20)
  | [], _ => .nil
  | b :: bs, h => by
    obtain ⟨hfeed, hreturn⟩ := h b List.mem_cons_self
    refine .cons ⟨Or.inr rfl, ?_, ?_⟩ (forall₂_blank fun x hx => h x (List.mem_cons_of_mem b hx))
    · simp [hfeed]
    · simp [hreturn]

/-- The bytes of a character that is no line break may be blanked. -/
theorem forall₂_utf8EncodeChar {c : Char} (hc : c ≠ '\n' ∧ c ≠ '\r') :
    List.Forall₂ KeptOrBlank (String.utf8EncodeChar c) (List.replicate c.utf8Size 0x20) := by
  rw [← String.length_utf8EncodeChar]
  refine forall₂_blank fun b hb => ⟨?_, ?_⟩
  · rintro rfl
    exact hc.1 (eq_of_mem_utf8EncodeChar (by decide) hb)
  · rintro rfl
    exact hc.2 (eq_of_mem_utf8EncodeChar (by decide) hb)

theorem chars_replicate_space (n : Nat) :
    Cells.chars (List.replicate n Cell.space) = List.replicate n ' ' := by
  simp [Cells.chars, Cell.space]

theorem utf8EncodeChar_spaces (n : Nat) :
    (List.replicate n ' ').flatMap String.utf8EncodeChar = List.replicate n 0x20 := by
  induction n with
  | zero => rfl
  | succ n ih =>
    rw [List.replicate_succ, List.flatMap_cons, ih, List.replicate_succ]
    rfl

/-- **Where whole characters are blanked and no line break is, the bytes are blanked or kept.** -/
theorem forall₂_bytes_of_blanks {cs ds : Cells} (h : cs.Blanks ds)
    (hcells : List.Forall₂ KeptOrSpace cs ds) :
    List.Forall₂ KeptOrBlank (cs.chars.flatMap String.utf8EncodeChar)
      (ds.chars.flatMap String.utf8EncodeChar) := by
  induction h with
  | nil => exact .nil
  | @keep c cs ds h ih =>
    have hrest := List.forall₂_drop (Cell.ofChar c).length hcells
    rw [List.drop_left, List.drop_left] at hrest
    rw [Cells.chars_append, Cells.chars_append, Cells.chars_ofChar, List.flatMap_append,
      List.flatMap_append]
    exact List.rel_append (List.forall₂_same.mpr fun b _ => .refl b) (ih hrest)
  | @hide c cs ds h ih =>
    have hrest := List.forall₂_drop c.utf8Size hcells
    rw [List.drop_left' (Cells.length_ofChar c), List.drop_left' List.length_replicate] at hrest
    have hbreak : c ≠ '\n' ∧ c ≠ '\r' := by
      -- the first byte of the character became a blank
      obtain ⟨n, hn⟩ : ∃ n, c.utf8Size = n + 1 := Nat.exists_eq_add_one.mpr c.utf8Size_pos
      rw [hn, List.replicate_succ] at hcells
      cases hcells with
      | cons hfirst _ =>
        rcases hfirst with hsame | ⟨-, hbreak⟩
        · obtain rfl : c = ' ' := (congrArg Cell.char hsame).symm
          decide
        · exact hbreak
    rw [Cells.chars_append, Cells.chars_append, Cells.chars_ofChar, chars_replicate_space,
      List.flatMap_append, List.flatMap_append, utf8EncodeChar_spaces, List.flatMap_singleton]
    exact List.rel_append (forall₂_utf8EncodeChar hbreak) (ih hrest)

/-! ### The copies as strings -/

/-- A source with comments and string contents blanked. -/
def maskedText (s : String) : String := (masked (Cells.ofString s)).text

/-- A source with comments, string contents and the contents of quoted names blanked. -/
def bareText (s : String) : String := (bare (Cells.ofString s)).text

theorem ofString_text {cs : Cells} (h : cs.Whole) : Cells.ofString cs.text = cs := by
  obtain ⟨l, rfl⟩ := h
  simp [Cells.ofString, Cells.text, Cells.chars_ofChars]

theorem ofString_maskedText (s : String) :
    Cells.ofString (maskedText s) = masked (Cells.ofString s) :=
  ofString_text (blanks_masked (Cells.whole_ofString s)).whole

theorem ofString_bareText (s : String) : Cells.ofString (bareText s) = bare (Cells.ofString s) :=
  ofString_text (blanks_bare (Cells.whole_ofString s)).whole

theorem blankedBytes_text {s : String} {cs : Cells} (h : (Cells.ofString s).Blanks cs)
    (hcells : List.Forall₂ KeptOrSpace (Cells.ofString s) cs) : BlankedBytes s cs.text := by
  have hbytes := forall₂_bytes_of_blanks h hcells
  rw [Cells.ofString, Cells.chars_ofChars, ← utf8_ofList, ← utf8_ofList, String.ofList_toList]
    at hbytes
  exact hbytes

theorem blankedBytes_maskedText (s : String) : BlankedBytes s (maskedText s) :=
  blankedBytes_text (blanks_masked (Cells.whole_ofString s)) (keptOrSpace_coveredFrom _ .code _)

theorem blankedBytes_bareText (s : String) : BlankedBytes s (bareText s) :=
  blankedBytes_text (blanks_bare (Cells.whole_ofString s)) (keptOrSpace_coveredFrom _ .code _)

/-! ### The front end on a blanked copy -/

/-- The first copy is prepared for scanning as the text is. -/
theorem ofCells_masked (cs : Cells) : Text.ofCells (masked cs) = Text.ofCells cs := by
  have hlines : LineIndex.ofCells (masked cs) = LineIndex.ofCells cs :=
    congrArg LineIndex.mk (Guarded.startsFrom_coveredFrom (· == .hidden) .code cs 0)
  simp only [Text.ofCells, masked_masked, bare_masked, hlines]

theorem chainEnds_withSource (d : Document) (source : Option String) :
    ∀ (steps : Nat) (s : Option SymbolId),
      Document.chainEnds { d with source } steps s = d.chainEnds steps s
  | 0, none => rfl
  | _ + 1, none => rfl
  | 0, some _ => rfl
  | steps + 1, some s => chainEnds_withSource d source steps (d.containing? s)

/-- Whether a document becomes a tree does not depend on its source text. -/
theorem ofDocument_withSource (d : Document) (source : Option String) :
    Tree.ofDocument { d with source } =
      (Tree.ofDocument d).map fun t => { t with source } := by
  have hcycle : Document.cycleDefect? { d with source } = d.cycleDefect? := by
    funext ⟨x, i⟩
    simp only [Document.cycleDefect?, chainEnds_withSource]
  have hdefect : Document.defect? { d with source } = d.defect? := by
    simp only [Document.defect?, hcycle]
    rfl
  unfold Tree.ofDocument
  rw [hdefect]
  cases d.defect? with
  | some e => rfl
  | none => rfl

theorem resolveDocument_maskedText (path s : String) :
    resolveDocument path (maskedText s) =
      (resolveDocument path s).map fun d => { d with source := some (maskedText s) } := by
  unfold resolveDocument
  rw [ofString_maskedText, ofCells_masked]
  simp only
  split
  · rfl
  · rfl

/-- **The front end gives for the first copy of a source what it gives for the source.** -/
theorem resolve_maskedText (path s : String) :
    resolve path (maskedText s) =
      (resolve path s).map fun t => { t with source := some (maskedText s) } := by
  unfold resolve
  rw [resolveDocument_maskedText]
  cases resolveDocument path s with
  | error e => rfl
  | ok d =>
    simp only [Except.map]
    rw [ofDocument_withSource]
    cases Tree.ofDocument d with
    | error e => rfl
    | ok t => rfl

/-- **Comments and string contents have no influence.** For every source: the scan that blanks it
does not fault and gives its two copies; both have the bytes of the source, line breaks at the same
offsets and blanks in place of some of the others; the first copy has itself and the second copy as
its copies, and the second copy has itself as both; and the front end, given the first copy, gives
the same tree but for the source text, or the same error. -/
theorem comments_have_no_influence (s : String) :
    Guarded.maskTexts (Cells.ofString s) =
      .ok (Cells.ofString (maskedText s), Cells.ofString (bareText s)) ∧
    (maskedText s).utf8ByteSize = s.utf8ByteSize ∧ (bareText s).utf8ByteSize = s.utf8ByteSize ∧
    BlankedBytes s (maskedText s) ∧ BlankedBytes s (bareText s) ∧
    (maskedText (maskedText s) = maskedText s ∧ bareText (maskedText s) = bareText s) ∧
    (maskedText (bareText s) = bareText s ∧ bareText (bareText s) = bareText s) ∧
    ∀ path, resolve path (maskedText s) =
      (resolve path s).map fun t => { t with source := some (maskedText s) } := by
  refine ⟨?_, ?_, ?_, blankedBytes_maskedText s, blankedBytes_bareText s, ⟨?_, ?_⟩, ⟨?_, ?_⟩,
    fun path => resolve_maskedText path s⟩
  · rw [ofString_maskedText, ofString_bareText, Guarded.maskTexts_eq (Cells.whole_ofString s)]
  · rw [← Cells.length_ofString, ← Cells.length_ofString, ofString_maskedText, length_masked]
  · rw [← Cells.length_ofString, ← Cells.length_ofString, ofString_bareText, length_bare]
  · rw [maskedText, ofString_maskedText, masked_masked, ← maskedText]
  · rw [bareText, ofString_maskedText, bare_masked, ← bareText]
  · rw [maskedText, ofString_bareText, masked_bare, ← bareText]
  · rw [bareText, ofString_bareText, bare_bare, ← bareText]

end Source
end TreeLint
