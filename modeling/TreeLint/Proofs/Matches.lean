/-
# What the patterns of the scanned language find

For every pattern one lemma says where its match and the parts of it stand. A
match starts and ends with something that is no blank, and so do the names in it.
The headers of routines and calls end with the parenthesis that they open.

Key definitions: `Source.ObjectHeader.Placed`, `Source.RoutineHeader.Placed`,
`Source.CallHead.Placed`.
Key theorems: `Source.placed_objectHeader`, `Source.placed_routineHeader`,
`Source.placed_callHead`, `Source.snug_keyword`, `Source.snug_property`.
-/
import TreeLint.Proofs.Places
import TreeLint.Source.Pattern

namespace TreeLint

namespace CharClass

theorem isWord_of_isAsciiLetter (x : Char) (h : isAsciiLetter x = true) : isWord x = true := by
  have hlt : x.toNat < 0x80 := by
    simp only [isAsciiLetter, Bool.or_eq_true, Bool.and_eq_true, decide_eq_true_eq, Char.le_def,
      UInt32.le_iff_toNat_le] at h
    have hz : ('z' : Char).val.toNat = 122 := rfl
    have hZ : ('Z' : Char).val.toNat = 90 := rfl
    simp only [Char.toNat]
    omega
  rw [isWord, if_pos hlt, h]
  rfl

theorem isWord_of_isFoldedLetter (x : Char) (h : isFoldedLetter x = true) : isWord x = true := by
  simp only [isFoldedLetter, Bool.or_eq_true, beq_iff_eq] at h
  rcases h with (h | rfl) | rfl
  · exact isWord_of_isAsciiLetter x h
  · decide +kernel
  · decide +kernel

/-- What folds to a letter is a letter. -/
theorem isWord_of_folds {k x : Char} (hk : 'a' ≤ k ∧ k ≤ 'z') (h : folds k x = true) :
    isWord x = true := by
  apply isWord_of_isFoldedLetter
  simp only [folds, Bool.or_eq_true, Bool.and_eq_true, beq_iff_eq] at h
  rcases h with (h | ⟨-, rfl⟩) | ⟨-, rfl⟩
  · unfold lower at h
    split at h
    · rename_i hupper
      simp [isFoldedLetter, isAsciiLetter, hupper]
    · subst h
      simp [isFoldedLetter, isAsciiLetter, hk]
  · decide
  · decide

end CharClass

namespace Cells

variable {cs : Cells} {i j : Nat}

/-- A byte of a word is no blank when the word has none. -/
theorem Each.ne_space_of_folds {w : List Char} (hw : ∀ k ∈ w, CharClass.folds k ' ' = false)
    (h : cs.Each i j fun x => ∃ k ∈ w, CharClass.folds k x.char = true) :
    cs.Each i j (·.char ≠ ' ') := by
  refine h.mono ?_
  rintro x ⟨k, hk, hfolds⟩ hspace
  rw [hspace, hw k hk] at hfolds
  cases hfolds

/-- Two stretches of which the first starts and the second ends without a blank. -/
theorem snug_join {r r' : Extent} (h : cs.Snug r) (h' : cs.Snug r') (hle : r.start ≤ r'.start) :
    cs.Snug ⟨r.start, r'.stop⟩ :=
  ⟨by have := h'.lt; simp only; omega, h.start, h'.stop, h.first, h'.last⟩

theorem Snug.stop_le {r : Extent} (h : cs.Snug r) : r.stop ≤ cs.length :=
  le_length_of_isBoundary h.stop

/-- A single ASCII character other than a blank. -/
theorem snug_single (hcs : cs.Whole) {x : Cell} (hx : cs[i]? = some x) (hsize : x.char.utf8Size = 1)
    (hne : x.char ≠ ' ') : cs.Snug ⟨i, i + 1⟩ := by
  obtain ⟨hi, hi'⟩ := hcs.isBoundary_of_ascii hx hsize
  exact ⟨by simp, hi, hi', ⟨x, hx, hne⟩, ⟨x, by simpa using hx, hne⟩⟩

end Cells

namespace Source

/-- An object header and the names in it stand snugly in the text. -/
structure ObjectHeader.Placed (cs : Cells) (r : Extent) (h : ObjectHeader) : Prop where
  whole : cs.Snug r
  keyword : cs.Snug h.keyword
  name : cs.Snug h.name
  base : ∀ b, h.base = some b → cs.Snug b

/-- A routine header ends with the parenthesis it opens, after the name. -/
structure RoutineHeader.Placed (cs : Cells) (r : Extent) (h : RoutineHeader) : Prop where
  whole : cs.Snug r
  name : cs.Snug h.name
  start_lt : r.start < r.stop - 1
  opening : ∃ x, cs[r.stop - 1]? = some x ∧ x.char = '('

/-- A call starts with its first name and ends with the parenthesis it opens. -/
structure CallHead.Placed (cs : Cells) (r : Extent) (h : CallHead) : Prop where
  whole : cs.Snug r
  first : cs.Snug h.first
  first_start : h.first.start = r.start
  first_stop : h.first.stop < r.stop
  member : ∀ m, h.member = some m → cs.Snug m
  opening : ∃ x, cs[r.stop - 1]? = some x ∧ x.char = '('

/-- The word is not empty, and no letter of it folds to a blank. -/
def Solid (w : List Char) : Prop := w ≠ [] ∧ ∀ k ∈ w, CharClass.folds k ' ' = false

instance (w : List Char) : Decidable (Solid w) := inferInstanceAs (Decidable (_ ∧ _))

theorem solid_objectKeywords : ∀ w ∈ objectKeywords, Solid w.toList := by decide

theorem solid_accessKeywords : ∀ w ∈ ["local", "internal", "protected"], Solid w.toList := by decide

section Matches

variable {cs : Cells} {stop : Nat} {c d : Cursor} (hcs : cs.Whole)
  (hstop : cs.isBoundary stop = true)
include hcs hstop

/-! ### Words -/

theorem snug_word (h : c.Stands cs stop) {w : List Char} (hw : Solid w)
    (hd : c.word? w = some d) :
    d.Stands cs stop ∧ cs.Snug ⟨c.pos, d.pos⟩ := by
  obtain ⟨hd', hle, hall⟩ := h.word? hcs hstop hd
  have hpos : 0 < w.length := List.length_pos_iff.mpr hw.1
  exact ⟨hd', Cells.snug_of_each (by simp only; omega) h.boundary hd'.boundary
    (hall.ne_space_of_folds hw.2)⟩

theorem snug_wholeWord (h : c.In cs stop) {w : List Char} (hw : Solid w)
    (hd : c.wholeWord? w = some d) :
    d.Stands cs stop ∧ cs.Snug ⟨c.pos, d.pos⟩ := by
  obtain ⟨hc, hd', hle, hall⟩ := h.wholeWord? hcs hstop hd
  have hpos : 0 < w.length := List.length_pos_iff.mpr hw.1
  exact ⟨hd', Cells.snug_of_each (by simp only; omega) hc.boundary hd'.boundary
    (hall.ne_space_of_folds hw.2)⟩

/-- A keyword that stands as a word of its own. -/
theorem snug_keyword (h : c.In cs stop) {w : String} {a : Unit} (hw : Solid w.toList)
    (hd : keyword w c = some (a, d)) :
    d.Stands cs stop ∧ cs.Snug ⟨c.pos, d.pos⟩ := by
  obtain ⟨e, he, heq⟩ := Option.map_eq_some_iff.mp hd
  cases heq
  exact snug_wholeWord hcs hstop h hw he

/-- A word that opens or closes a block. -/
theorem snug_blockToken (h : c.In cs stop) {k : BlockToken} (hd : blockToken c = some (k, d)) :
    d.Stands cs stop ∧ cs.Snug ⟨c.pos, d.pos⟩ := by
  unfold blockToken at hd
  split at hd
  · rename_i hword
    cases hd
    exact snug_wholeWord hcs hstop h (by decide) hword
  · rename_i hword
    cases hd
    exact snug_wholeWord hcs hstop h (by decide) hword
  · rename_i hword
    cases hd
    exact snug_wholeWord hcs hstop h (by decide) hword
  · cases hd

/-! ### Headers -/

/-- An object number is skipped with the blanks behind it. -/
theorem stands_skipNumber (h : c.Stands cs stop) :
    (skipNumber c).Stands cs stop ∧ c.pos ≤ (skipNumber c).pos := by
  unfold skipNumber
  split
  · rename_i e heq
    obtain ⟨e', he', he⟩ := Option.bind_eq_some_iff.mp heq
    obtain ⟨hstands', hlt', -⟩ := h.some? hcs hstop (fun x y hxy => by simp [hxy]) he'
    obtain ⟨hstands, hlt⟩ := hstands'.blanks? hcs hstop he
    exact ⟨hstands, by omega⟩
  · exact ⟨h, le_rfl⟩

theorem stands_baseName? (h : c.Stands cs stop) {r : Extent} (hd : baseName? c = some (r, d)) :
    d.Stands cs stop ∧ r.stop = d.pos ∧ c.pos < r.start ∧ cs.Snug r := by
  simp only [baseName?, Option.bind_eq_bind, Option.bind_eq_some_iff] at hd
  obtain ⟨c₁, h₁, c₂, h₂, c₃, h₃, h₄⟩ := hd
  obtain ⟨hc₁, hlt₁⟩ := h.blanks? hcs hstop h₁
  obtain ⟨hc₂, hle₂, -⟩ := hc₁.word? hcs hstop h₂
  obtain ⟨hc₃, hlt₃⟩ := hc₂.blanks? hcs hstop h₃
  obtain ⟨hd', rfl, hsnug⟩ := hc₃.name? hcs hstop CharClass.isWord_of_isFoldedLetter h₄
  exact ⟨hd', rfl, by simp only; omega, hsnug⟩

/-- **Where an object header stands.** -/
theorem placed_objectHeader (h : c.In cs stop) {v : ObjectHeader}
    (hd : objectHeader c = some (v, d)) : d.Stands cs stop ∧ v.Placed cs ⟨c.pos, d.pos⟩ := by
  unfold objectHeader at hd
  split at hd
  · rename_i hedge
    have hc : c.Stands cs stop := ⟨h, h.isBoundary_of_atWordEdge hcs hstop hedge⟩
    obtain ⟨w, hw, hd⟩ := List.exists_of_findSome?_eq_some hd
    have hsolid := solid_objectKeywords w hw
    simp only [Option.bind_eq_bind, Option.bind_eq_some_iff, Prod.exists] at hd
    obtain ⟨e, he, c₁, h₁, name, c₂, h₂, hd⟩ := hd
    obtain ⟨hc', hkeyword⟩ := snug_word hcs hstop hc hsolid he
    obtain ⟨hc₁, hlt₁⟩ := hc'.blanks? hcs hstop h₁
    obtain ⟨hnumber, hle⟩ := stands_skipNumber hcs hstop hc₁
    obtain ⟨hc₂, rfl, hname⟩ := hnumber.name? hcs hstop CharClass.isWord_of_isFoldedLetter h₂
    have hlt := hkeyword.lt
    simp only at hlt
    split at hd
    · rename_i base c₃ h₃
      cases hd
      obtain ⟨hd', hstop', hbase, hsnug⟩ := stands_baseName? hcs hstop hc₂ h₃
      refine ⟨hd', ?_, hkeyword, hname, ?_⟩
      · rw [← hstop']
        exact Cells.snug_join hkeyword hsnug (by have := hname.lt; simp only at this ⊢; omega)
      · rintro b hb
        cases hb
        exact hsnug
    · cases hd
      exact ⟨hc₂, Cells.snug_join hkeyword hname (by simp only; omega), hkeyword, hname, nofun⟩
  · cases hd

theorem stands_skipAccess (h : c.Stands cs stop) :
    (skipAccess c).Stands cs stop ∧
      (skipAccess c = c ∨ ∃ e, cs.Snug ⟨c.pos, e⟩ ∧ e ≤ (skipAccess c).pos) := by
  unfold skipAccess
  split
  · rename_i e heq
    obtain ⟨w, hw, heq⟩ := List.exists_of_findSome?_eq_some heq
    have hsolid := solid_accessKeywords w hw
    obtain ⟨e', he', he⟩ := Option.bind_eq_some_iff.mp heq
    obtain ⟨hstands', hsnug⟩ := snug_word hcs hstop h hsolid he'
    obtain ⟨hstands, hlt⟩ := hstands'.blanks? hcs hstop he
    exact ⟨hstands, Or.inr ⟨e'.pos, hsnug, by omega⟩⟩
  · exact ⟨h, Or.inl rfl⟩

/-- **Where a routine header stands.** -/
theorem placed_routineHeader (h : c.In cs stop) {v : RoutineHeader}
    (hd : routineHeader c = some (v, d)) : d.Stands cs stop ∧ v.Placed cs ⟨c.pos, d.pos⟩ := by
  unfold routineHeader at hd
  split at hd
  · rename_i hedge
    have hc : c.Stands cs stop := ⟨h, h.isBoundary_of_atWordEdge hcs hstop hedge⟩
    obtain ⟨hc₀, haccess⟩ := stands_skipAccess hcs hstop hc
    obtain ⟨c₁, kind, hc₁, hkeyword, c₂, h₂, name, c₃, h₃, c₄, h₄, hd⟩ :
        ∃ (c₁ : Cursor) (kind : RoutineKind),
          c₁.Stands cs stop ∧ cs.Snug ⟨(skipAccess c).pos, c₁.pos⟩ ∧
          ∃ c₂ : Cursor, c₁.blanks? = some c₂ ∧
            ∃ (name : Extent) (c₃ : Cursor),
              c₂.name? CharClass.isFoldedLetter = some (name, c₃) ∧
              ∃ c₄, c₃.blanks.mark? '(' = some c₄ ∧ (v, d) = (⟨kind, name⟩, c₄) := by
      simp only [Option.bind_eq_bind] at hd
      split at hd
      · rename_i c₁ hword
        obtain ⟨hc₁, hkeyword⟩ := snug_word hcs hstop hc₀ (by decide) hword
        simp only [Option.bind_some, Option.bind_eq_some_iff, Prod.exists] at hd
        obtain ⟨c₂, h₂, name, c₃, h₃, c₄, h₄, hd⟩ := hd
        exact ⟨c₁, .procedure, hc₁, hkeyword, c₂, h₂, name, c₃, h₃, c₄, h₄, (Option.some.inj hd).symm⟩
      · rename_i c₁ _ hword
        obtain ⟨hc₁, hkeyword⟩ := snug_word hcs hstop hc₀ (by decide) hword
        simp only [Option.bind_some, Option.bind_eq_some_iff, Prod.exists] at hd
        obtain ⟨c₂, h₂, name, c₃, h₃, c₄, h₄, hd⟩ := hd
        exact ⟨c₁, .trigger, hc₁, hkeyword, c₂, h₂, name, c₃, h₃, c₄, h₄, (Option.some.inj hd).symm⟩
      · cases hd
    cases hd
    obtain ⟨hc₂, hlt₂⟩ := hc₁.blanks? hcs hstop h₂
    obtain ⟨hc₃, rfl, hname⟩ := hc₂.name? hcs hstop CharClass.isWord_of_isFoldedLetter h₃
    have hle := hc₃.le_blanks hstop
    obtain ⟨hc₄, hpos, x, hx, hchar⟩ :=
      (hc₃.blanks hcs hstop).mark? hcs hstop (by decide) h₄
    have hopening : cs.Snug ⟨c₃.blanks.pos, c₃.blanks.pos + 1⟩ :=
      Cells.snug_single hcs hx (by rw [hchar]; decide) (by rw [hchar]; decide)
    have hlt := hkeyword.lt
    have hlt' := hname.lt
    simp only at hlt hlt'
    refine ⟨hc₄, ?_⟩
    rw [hpos]
    rcases haccess with hsame | ⟨e, hword, he⟩
    · rw [hsame] at hkeyword hlt
      exact ⟨Cells.snug_join hkeyword hopening (by simp only; omega), hname,
        by simp only; omega, ⟨x, by simpa using hx, hchar⟩⟩
    · have hlt'' := hword.lt
      simp only at hlt''
      exact ⟨Cells.snug_join hword hopening (by simp only; omega), hname,
        by simp only; omega, ⟨x, by simpa using hx, hchar⟩⟩
  · cases hd

/-! ### Properties -/

/-- The value of a property is snug if values of that form are. -/
theorem snug_property {key : String} {value : Cursor → Option (Extent × Cursor)}
    (hkey : Solid key.toList)
    (hvalue : ∀ {c d : Cursor} {r : Extent}, c.Stands cs stop → value c = some (r, d) →
      d.Stands cs stop ∧ r = ⟨c.pos, d.pos⟩ ∧ cs.Snug r)
    (h : c.In cs stop) {r : Extent} (hd : property key value c = some (r, d)) :
    d.Stands cs stop ∧ cs.Snug ⟨c.pos, d.pos⟩ ∧ cs.Snug r := by
  unfold property at hd
  split at hd
  · rename_i hedge
    have hc : c.Stands cs stop := ⟨h, h.isBoundary_of_atWordEdge hcs hstop hedge⟩
    simp only [Option.bind_eq_bind, Option.bind_eq_some_iff, Prod.exists] at hd
    obtain ⟨c₁, h₁, c₂, h₂, r', c₃, h₃, c₄, h₄, hd⟩ := hd
    cases hd
    obtain ⟨hc₁, hword⟩ := snug_word hcs hstop hc hkey h₁
    obtain ⟨hc₂, hpos₂, -⟩ := (hc₁.blanks hcs hstop).mark? hcs hstop (by decide) h₂
    obtain ⟨hc₃, rfl, hsnug⟩ := hvalue (hc₂.blanks hcs hstop) h₃
    obtain ⟨hc₄, hpos₄, x, hx, hchar⟩ :=
      (hc₃.blanks hcs hstop).mark? hcs hstop (by decide) h₄
    have hmark : cs.Snug ⟨c₃.blanks.pos, c₃.blanks.pos + 1⟩ :=
      Cells.snug_single hcs hx (by rw [hchar]; decide) (by rw [hchar]; decide)
    have hle₁ := hc₁.le_blanks hstop
    have hle₂ := hc₂.le_blanks hstop
    have hle₃ := hc₃.le_blanks hstop
    have hlt := hword.lt
    have hlt' := hsnug.lt
    simp only at hlt hlt'
    refine ⟨hc₄, ?_, hsnug⟩
    rw [hpos₄]
    exact Cells.snug_join hword hmark (by simp only; omega)
  · cases hd

theorem snug_obsoleteState (h : c.In cs stop) {r : Extent} (hd : obsoleteState c = some (r, d)) :
    d.Stands cs stop ∧ cs.Snug ⟨c.pos, d.pos⟩ ∧ cs.Snug r := by
  refine snug_property hcs hstop (by decide) ?_ h hd
  intro c d r hc hd
  simp only [Option.bind_eq_bind, Option.bind_eq_some_iff] at hd
  obtain ⟨e, he, hd⟩ := hd
  cases hd
  obtain ⟨he', hlt, hall⟩ := hc.some? hcs hstop (fun x y hxy => by simp [hxy]) he
  exact ⟨he', rfl, Cells.snug_of_each hlt hc.boundary he'.boundary
    (hall.mono fun x hx => Cell.ne_space_of_isWord (CharClass.isWord_of_isFoldedLetter _ hx))⟩

theorem snug_sourceTable (h : c.In cs stop) {r : Extent} (hd : sourceTable c = some (r, d)) :
    d.Stands cs stop ∧ cs.Snug ⟨c.pos, d.pos⟩ ∧ cs.Snug r :=
  snug_property hcs hstop (by decide)
    (fun hc hd => hc.name? hcs hstop CharClass.isWord_of_isFoldedLetter hd) h hd

/-! ### Calls -/

theorem stands_memberName? (h : c.Stands cs stop) {r : Extent} (hd : memberName? c = some (r, d)) :
    d.Stands cs stop ∧ r.stop = d.pos ∧ c.pos < r.start ∧ cs.Snug r := by
  unfold memberName? at hd
  split at hd
  · rename_i e he
    obtain ⟨he', hpos, -⟩ := (h.blanks hcs hstop).mark? hcs hstop (by decide) he
    obtain ⟨hd', rfl, hsnug⟩ :=
      (he'.blanks hcs hstop).name? hcs hstop CharClass.isWord_of_isAsciiLetter hd
    have hle := h.le_blanks hstop
    have hle' := he'.le_blanks hstop
    exact ⟨hd', rfl, by simp only; omega, hsnug⟩
  · cases hd

/-- The first name of a call is a name at a boundary, wherever it is looked for. -/
theorem name?_of_callName (h : c.In cs stop)
    (hd : (c.quoted?).or (if c.atWordEdge then c.plain? CharClass.isAsciiLetter else none) = some d) :
    c.Stands cs stop ∧ c.name? CharClass.isAsciiLetter = some (⟨c.pos, d.pos⟩, d) := by
  rcases Option.or_eq_some_iff.mp hd with hquoted | ⟨hnone, hplain⟩
  · rw [Cursor.name?, hquoted]
    exact ⟨(h.quoted? hcs hstop hquoted).1, rfl⟩
  · split at hplain
    · rename_i hedge
      rw [Cursor.name?, hnone, hplain]
      exact ⟨⟨h, h.isBoundary_of_atWordEdge hcs hstop hedge⟩, rfl⟩
    · cases hplain

theorem snug_callName (h : c.In cs stop)
    (hd : (c.quoted?).or (if c.atWordEdge then c.plain? CharClass.isAsciiLetter else none) = some d) :
    d.Stands cs stop ∧ cs.Snug ⟨c.pos, d.pos⟩ := by
  obtain ⟨hc, hname⟩ := name?_of_callName hcs hstop h hd
  obtain ⟨hd', -, hsnug⟩ := hc.name? hcs hstop CharClass.isWord_of_isAsciiLetter hname
  exact ⟨hd', hsnug⟩

/-- **Where the head of a call stands.** -/
theorem placed_callHead (h : c.In cs stop) {v : CallHead} (hd : callHead c = some (v, d)) :
    d.Stands cs stop ∧ v.Placed cs ⟨c.pos, d.pos⟩ := by
  simp only [callHead, Option.bind_eq_bind, Option.bind_eq_some_iff] at hd
  obtain ⟨c₁, h₁, hd⟩ := hd
  obtain ⟨hc₁, hfirst⟩ := snug_callName hcs hstop h h₁
  -- what comes before the parenthesis: the first name, or the name after the dot
  obtain ⟨member, c₂, hc₂, hle, hmember, c₃, h₃, hd⟩ :
      ∃ (member : Option Extent) (c₂ : Cursor), c₂.Stands cs stop ∧ c₁.pos ≤ c₂.pos ∧
        (∀ m, member = some m → cs.Snug m) ∧
        ∃ c₃, c₂.blanks.mark? '(' = some c₃ ∧ (v, d) = (⟨c.upTo c₁, member⟩, c₃) := by
    split at hd
    · rename_i m c₂ hname
      obtain ⟨hc₂, hstop', hlt, hsnug⟩ := stands_memberName? hcs hstop hc₁ hname
      obtain ⟨c₃, h₃, hd⟩ := hd
      have := hsnug.lt
      refine ⟨some m, c₂, hc₂, by omega, ?_, c₃, h₃, (Option.some.inj hd).symm⟩
      rintro m' hm'
      cases hm'
      exact hsnug
    · obtain ⟨c₃, h₃, hd⟩ := hd
      exact ⟨none, c₁, hc₁, le_rfl, nofun, c₃, h₃, (Option.some.inj hd).symm⟩
  cases hd
  obtain ⟨hc₃, hpos, x, hx, hchar⟩ := (hc₂.blanks hcs hstop).mark? hcs hstop (by decide) h₃
  have hopening : cs.Snug ⟨c₂.blanks.pos, c₂.blanks.pos + 1⟩ :=
    Cells.snug_single hcs hx (by rw [hchar]; decide) (by rw [hchar]; decide)
  have hle' := hc₂.le_blanks hstop
  have hlt := hfirst.lt
  simp only at hlt
  refine ⟨hc₃, ?_⟩
  rw [hpos]
  exact ⟨Cells.snug_join hfirst hopening (by simp only; omega), hfirst, rfl,
    by simp only [Cursor.upTo]; omega, hmember, ⟨x, by simpa using hx, hchar⟩⟩

/-! ### Matches that are found -/

variable {start : Nat}

theorem foundFrom_keyword {w : String} {f : Found Unit} (hw : Solid w.toList)
    (h : (keyword w).FoundFrom cs start stop f) :
    start ≤ f.extent.start ∧ f.extent.stop ≤ stop ∧ cs.Snug f.extent :=
  h.placed (Q := fun r _ => cs.Snug r) fun hc hd => snug_keyword hcs hstop hc hw hd

theorem foundFrom_objectHeader {f : Found ObjectHeader}
    (h : objectHeader.FoundFrom cs start stop f) :
    start ≤ f.extent.start ∧ f.extent.stop ≤ stop ∧ f.value.Placed cs f.extent :=
  h.placed (Q := fun r v => v.Placed cs r) fun hc hd => placed_objectHeader hcs hstop hc hd

theorem foundFrom_routineHeader {f : Found RoutineHeader}
    (h : routineHeader.FoundFrom cs start stop f) :
    start ≤ f.extent.start ∧ f.extent.stop ≤ stop ∧ f.value.Placed cs f.extent :=
  h.placed (Q := fun r v => v.Placed cs r) fun hc hd => placed_routineHeader hcs hstop hc hd

theorem foundFrom_callHead {f : Found CallHead} (h : callHead.FoundFrom cs start stop f) :
    start ≤ f.extent.start ∧ f.extent.stop ≤ stop ∧ f.value.Placed cs f.extent :=
  h.placed (Q := fun r v => v.Placed cs r) fun hc hd => placed_callHead hcs hstop hc hd

end Matches

/-- The value of a named argument starts after its name, at the end of the text or with something
that is no blank. -/
theorem placed_namedArgument? {text : Cells} (htext : text.Whole) {name : Extent} {value : Nat}
    (h : namedArgument? text = some (name, value)) :
    text.Snug name ∧ 0 < value ∧ text.isBoundary value = true ∧
      ∀ x, text[value]? = some x → x.isBlank = false := by
  have hstop := Cells.isBoundary_length text
  have hc : Cursor.Stands text text.length ⟨none, 0, text⟩ :=
    ⟨⟨by simp [Cells.slice], by simp, Or.inl ⟨rfl, htext.isBoundary_zero⟩⟩, htext.isBoundary_zero⟩
  simp only [namedArgument?, Option.bind_eq_bind, Option.bind_eq_some_iff] at h
  obtain ⟨c₁, h₁, c₂, h₂, c₃, h₃, h⟩ := h
  cases h
  obtain ⟨hc₁, hlt, hall, -⟩ := hc.plain? htext hstop CharClass.isWord_of_isAsciiLetter h₁
  obtain ⟨hc₂, hpos₂, -⟩ := (hc₁.blanks htext hstop).mark? htext hstop (by decide) h₂
  obtain ⟨hc₃, hpos₃, -⟩ := hc₂.mark? htext hstop (by decide) h₃
  have hle := hc₃.le_blanks hstop
  obtain ⟨-, -, -, hnext⟩ := hc₃.toIn.skipWhile hstop Cell.isBlank
  refine ⟨Cells.snug_of_each hlt hc.boundary hc₁.boundary
    (hall.mono fun _ => Cell.ne_space_of_isWord), by omega, (hc₃.blanks htext hstop).boundary, ?_⟩
  intro x hx
  exact hnext x (List.getElem?_eq_some_iff.mp hx).1 hx

end Source
end TreeLint
