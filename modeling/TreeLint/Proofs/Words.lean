/-
# Reading a text word by word

The patterns of the scanned language match only where a word starts. So a text
that is cut into words with something else behind each of them (`WordRun`) is read by
looking at its words, and a search passes over every word at which the pattern
does not match (`Pattern.allFrom_runs`). At a word, whether a keyword is there is
decided by the word as a whole: a keyword that is only the start of the word ends
inside it, where neither a word edge nor a blank is.

Key definitions: `Cells.ofAscii`, `Cells.lastOr`, `WordRun`, `Pattern.OnWords`,
`Pattern.Passes`.
Key theorems: `Cursor.word?_word`, `Pattern.allFrom_runs`, `Pattern.allFrom_match`,
`Source.passes_objectHeader`, `Source.passes_routineHeader`, `Source.passes_callHead`.
-/
import TreeLint.Proofs.Brackets
import TreeLint.Proofs.Matches
import TreeLint.Source.Text

namespace TreeLint

namespace CharClass

/-- A character of an ASCII name. -/
def isAsciiWord (c : Char) : Bool := isAsciiLetter c || isAsciiDigit c || c == '_'

theorem toNat_lt_of_isAsciiWord {c : Char} (h : isAsciiWord c = true) : c.toNat < 0x80 := by
  simp only [isAsciiWord, isAsciiLetter, isAsciiDigit, Bool.or_eq_true, Bool.and_eq_true,
    decide_eq_true_eq, beq_iff_eq, Char.le_def, UInt32.le_iff_toNat_le] at h
  have hz : ('z' : Char).val.toNat = 122 := rfl
  have hZ : ('Z' : Char).val.toNat = 90 := rfl
  have h9 : ('9' : Char).val.toNat = 57 := rfl
  simp only [Char.toNat]
  rcases h with ((h | h) | h) | rfl
  · omega
  · omega
  · omega
  · decide

theorem isWord_of_isAsciiWord {c : Char} (h : isAsciiWord c = true) : isWord c = true := by
  rw [isWord, if_pos (toNat_lt_of_isAsciiWord h)]
  exact h

theorem utf8Size_of_toNat_lt {c : Char} (h : c.toNat < 0x80) : c.utf8Size = 1 := by
  have hle : c.val.toNat ≤ 127 := Nat.le_of_lt_succ h
  rw [Char.utf8Size, if_pos (UInt32.le_iff_toNat_le.mpr hle)]

/-- An ASCII character folds to a letter exactly if that is its lower-case form. -/
theorem folds_iff_of_toNat_lt {k c : Char} (h : c.toNat < 0x80) :
    folds k c = true ↔ lower c = k := by
  have hlong : c ≠ longS := by
    rintro rfl
    exact absurd h (by decide)
  have hkelvin : c ≠ kelvin := by
    rintro rfl
    exact absurd h (by decide)
  simp [folds, hlong, hkelvin]

end CharClass

namespace Cells

/-- The bytes of a list of ASCII characters. -/
def ofAscii (cs : List Char) : Cells := cs.map fun c => ⟨c, true⟩

@[simp] theorem ofAscii_nil : ofAscii [] = [] := rfl

@[simp] theorem ofAscii_cons (c : Char) (cs : List Char) :
    ofAscii (c :: cs) = ⟨c, true⟩ :: ofAscii cs := rfl

@[simp] theorem ofAscii_append (cs ds : List Char) : ofAscii (cs ++ ds) = ofAscii cs ++ ofAscii ds :=
  List.map_append

@[simp] theorem length_ofAscii (cs : List Char) : (ofAscii cs).length = cs.length :=
  List.length_map _

theorem forall_mem_ofAscii {p : Char → Prop} {cs : List Char} :
    (∀ x ∈ ofAscii cs, p x.char) ↔ ∀ c ∈ cs, p c := by
  simp [ofAscii]

theorem ofChars_eq_ofAscii {cs : List Char} (h : ∀ c ∈ cs, c.toNat < 0x80) :
    ofChars cs = ofAscii cs := by
  induction cs with
  | nil => rfl
  | cons c cs ih =>
    have hc : Cell.ofChar c = [⟨c, true⟩] := by
      rw [Cell.ofChar, CharClass.utf8Size_of_toNat_lt (h c List.mem_cons_self)]
      rfl
    rw [ofChars_cons, hc, ih fun d hd => h d (List.mem_cons_of_mem c hd)]
    rfl

theorem chars_ofAscii (cs : List Char) : (ofAscii cs).chars = cs := by
  simp [chars, ofAscii, List.filter_map, Function.comp_def]

/-- The byte before the place behind a text, given the byte before the text. -/
def lastOr (before : Option Cell) : Cells → Option Cell
  | [] => before
  | x :: cs => lastOr (some x) cs

@[simp] theorem lastOr_nil (before : Option Cell) : lastOr before [] = before := rfl

@[simp] theorem lastOr_cons (before : Option Cell) (x : Cell) (cs : Cells) :
    lastOr before (x :: cs) = lastOr (some x) cs := rfl

theorem lastOr_append (before : Option Cell) (cs ds : Cells) :
    lastOr before (cs ++ ds) = lastOr (lastOr before cs) ds := by
  induction cs generalizing before with
  | nil => rfl
  | cons x cs ih => exact ih (some x)

/-- Behind bytes with a property stands one with the property, and if there are none, the byte
before them. -/
theorem any_lastOr {p : Cell → Bool} {b : Bool} {before : Option Cell} {cs : Cells}
    (hbefore : cs = [] → before.any p = b) (hcs : ∀ x ∈ cs, p x = b) :
    (lastOr before cs).any p = b := by
  induction cs generalizing before with
  | nil => exact hbefore rfl
  | cons x cs ih =>
    refine ih (fun _ => ?_) fun y hy => hcs y (List.mem_cons_of_mem x hy)
    simpa using hcs x List.mem_cons_self

end Cells

open Cells (ofAscii lastOr)

/-! ### Moving over a known text -/

namespace Cursor

variable {before : Option Cell} {pos : Nat} {front rest : Cells}

theorem advance_append (before : Option Cell) (pos : Nat) (front rest : Cells) :
    (Cursor.mk before pos (front ++ rest)).advance front.length =
      ⟨lastOr before front, pos + front.length, rest⟩ := by
  induction front generalizing before pos with
  | nil => rfl
  | cons x front ih =>
    have hstep : (Cursor.mk before pos (x :: front ++ rest)).advance (x :: front).length =
        (Cursor.mk (some x) (pos + 1) (front ++ rest)).advance front.length := rfl
    rw [hstep, ih, List.length_cons, Nat.add_assoc, Nat.add_comm 1]
    rfl

theorem moveTo_append (before : Option Cell) (pos : Nat) (front rest : Cells) {target : Nat}
    (htarget : target = pos + front.length) :
    (Cursor.mk before pos (front ++ rest)).moveTo target = ⟨lastOr before front, target, rest⟩ := by
  subst htarget
  rcases List.eq_nil_or_concat front with rfl | ⟨init, x, rfl⟩
  · simp [moveTo]
  · simp [moveTo, Cells.lastOr_append, List.drop_append]

theorem stopAt_append (before : Option Cell) (pos : Nat) (front rest : Cells) {limit : Nat}
    (hlimit : limit = pos + front.length) :
    (Cursor.mk before pos (front ++ rest)).stopAt limit = ⟨before, pos, front⟩ := by
  subst hlimit
  simp [stopAt]

/-- A run of bytes of a class is passed over as far as it goes. -/
theorem skipWhile_append {p : Cell → Bool} (hfront : ∀ x ∈ front, p x = true)
    (hrest : rest.head?.any p = false) :
    (Cursor.mk before pos (front ++ rest)).skipWhile p =
      ⟨lastOr before front, pos + front.length, rest⟩ := by
  have htake : (front ++ rest).takeWhile p = front := by
    rw [List.takeWhile_append_of_pos hfront]
    cases rest with
    | nil => simp
    | cons x rest => simpa using hrest
  rw [skipWhile, htake, advance_append]

theorem some?_append {p : Cell → Bool} (hfront : ∀ x ∈ front, p x = true) (hne : front ≠ [])
    (hrest : rest.head?.any p = false) :
    (Cursor.mk before pos (front ++ rest)).some? p =
      some ⟨lastOr before front, pos + front.length, rest⟩ := by
  have hhead : (front ++ rest).head?.any p = true := by
    cases front with
    | nil => exact absurd rfl hne
    | cons x front => simpa using hfront x List.mem_cons_self
  rw [some?, if_pos hhead, skipWhile_append hfront hrest]

theorem some?_eq_none {p : Cell → Bool} (hrest : rest.head?.any p = false) :
    (Cursor.mk before pos rest).some? p = none := by
  rw [some?, hrest]
  rfl

theorem blanks_eq_self (hrest : rest.head?.any Cell.isBlank = false) :
    (Cursor.mk before pos rest).blanks = ⟨before, pos, rest⟩ := by
  have h := @skipWhile_append before pos [] rest Cell.isBlank nofun hrest
  exact h

theorem mark?_cons (x : Char) :
    (Cursor.mk before pos (⟨x, true⟩ :: rest)).mark? x = some ⟨some ⟨x, true⟩, pos + 1, rest⟩ := by
  rw [mark?, if_pos (by simp)]
  rfl

theorem mark?_eq_none {x : Char} (hrest : rest.head?.any (·.char == x) = false) :
    (Cursor.mk before pos rest).mark? x = none := by
  rw [mark?, hrest]
  rfl

theorem quoted?_eq_none (hrest : rest.head?.any (·.char == '"') = false) :
    (Cursor.mk before pos rest).quoted? = none := by
  rw [quoted?, mark?_eq_none hrest]

/-! ### What is still to be read -/

theorem rest_advance_suffix : ∀ (n : Nat) (c : Cursor), (c.advance n).rest <:+ c.rest
  | 0, c => List.suffix_refl c.rest
  | n + 1, c => by
    obtain ⟨before, pos, rest⟩ := c
    cases rest with
    | nil => exact List.suffix_refl _
    | cons x rest => exact (rest_advance_suffix n _).trans (List.suffix_cons x rest)

theorem rest_blanks_suffix (c : Cursor) : c.blanks.rest <:+ c.rest := rest_advance_suffix _ c

theorem rest_word?_suffix {k : List Char} {c d : Cursor} (h : c.word? k = some d) :
    d.rest <:+ c.rest := by
  induction k generalizing c with
  | nil =>
    cases h
    exact List.suffix_refl _
  | cons k ks ih =>
    unfold word? at h
    split at h
    · split at h
      · exact (ih h).trans (rest_advance_suffix _ c)
      · cases h
    · cases h

/-- A mark that is found is in the text. -/
theorem exists_of_mark? {x : Char} {c d : Cursor} (h : c.mark? x = some d) :
    d.rest <:+ c.rest ∧ ∃ y ∈ c.rest, y.char = x := by
  unfold mark? at h
  split at h
  · rename_i hhead
    cases h
    refine ⟨rest_advance_suffix 1 c, ?_⟩
    cases hrest : c.rest with
    | nil =>
      rw [hrest] at hhead
      cases hhead
    | cons y rest =>
      rw [hrest] at hhead
      exact ⟨y, List.mem_cons_self, by simpa using hhead⟩
  · cases h

end Cursor

/-! ### Words -/

/-- A word of ASCII characters, and at least one other character behind it. The word may be
empty. -/
structure WordRun where
  word : List Char
  gap : List Char
  word_all : word.all CharClass.isAsciiWord = true
  gap_ne : gap ≠ []
  gap_all : gap.all (fun c => !CharClass.isWord c && c != '"') = true

/-- The characters of a run. -/
def WordRun.chars (r : WordRun) : List Char := r.word ++ r.gap

/-- No word character comes next. -/
def Cells.EndsWord (rest : Cells) : Prop := rest.head?.any Cell.isWord = false

theorem isWord_of_mem_ofAscii {w : List Char} (hw : w.all CharClass.isAsciiWord = true) {x : Cell}
    (hx : x ∈ ofAscii w) : x.isWord = true := by
  obtain ⟨c, hc, rfl⟩ := List.mem_map.mp hx
  exact CharClass.isWord_of_isAsciiWord (List.all_eq_true.mp hw c hc)

namespace WordRun

variable (r : WordRun)

theorem not_isWord_of_mem_gap {x : Cell} (hx : x ∈ ofAscii r.gap) :
    x.isWord = false ∧ x.char ≠ '"' := by
  obtain ⟨c, hc, rfl⟩ := List.mem_map.mp hx
  simpa [Cell.isWord] using List.all_eq_true.mp r.gap_all c hc

theorem endsWord_gap (rest : Cells) : (ofAscii r.gap ++ rest).EndsWord := by
  have h := fun x => @not_isWord_of_mem_gap r x
  have hne := r.gap_ne
  cases hgap : r.gap with
  | nil => exact absurd hgap hne
  | cons c cs =>
    rw [hgap] at h
    simpa [Cells.EndsWord] using (h ⟨c, true⟩ List.mem_cons_self).1

/-- Behind a run stands no word character. -/
theorem not_isWord_lastOr (before : Option Cell) :
    (lastOr before (ofAscii r.chars)).any Cell.isWord = false := by
  rw [chars, Cells.ofAscii_append, Cells.lastOr_append]
  refine Cells.any_lastOr (fun hnil => ?_) fun x hx => (r.not_isWord_of_mem_gap hx).1
  exact absurd (List.map_eq_nil_iff.mp hnil) r.gap_ne

end WordRun

namespace Cursor

variable {before : Option Cell} {pos : Nat} {w k : List Char} {rest : Cells}

theorem plain?_word {letter : Char → Bool} (hw : w.all CharClass.isAsciiWord = true)
    (hfirst : w.head?.any fun c => letter c || c == '_') (hrest : rest.EndsWord) :
    (Cursor.mk before pos (ofAscii w ++ rest)).plain? letter =
      some ⟨lastOr before (ofAscii w), pos + w.length, rest⟩ := by
  cases w with
  | nil => cases hfirst
  | cons c w =>
    rw [plain?, if_pos (by simpa using hfirst),
      skipWhile_append (fun x hx => isWord_of_mem_ofAscii hw hx) hrest, Cells.length_ofAscii]

theorem plain?_eq_none {letter : Char → Bool}
    (hrest : rest.head?.any (fun x => letter x.char || x.char == '_') = false) :
    (Cursor.mk before pos rest).plain? letter = none := by
  rw [plain?, hrest]
  rfl

theorem not_quote_word (hw : w.all CharClass.isAsciiWord = true) (hne : w ≠ []) :
    (ofAscii w ++ rest).head?.any (·.char == '"') = false := by
  cases w with
  | nil => exact absurd rfl hne
  | cons c w =>
    have hc : CharClass.isAsciiWord c = true := List.all_eq_true.mp hw c List.mem_cons_self
    have hquote : c ≠ '"' := by
      rintro rfl
      exact absurd hc (by decide)
    simpa using hquote

theorem name?_word {letter : Char → Bool} (hw : w.all CharClass.isAsciiWord = true)
    (hfirst : w.head?.any fun c => letter c || c == '_') (hrest : rest.EndsWord) :
    (Cursor.mk before pos (ofAscii w ++ rest)).name? letter =
      some (⟨pos, pos + w.length⟩, ⟨lastOr before (ofAscii w), pos + w.length, rest⟩) := by
  have hne : w ≠ [] := by
    rintro rfl
    cases hfirst
  rw [name?, quoted?_eq_none (not_quote_word hw hne), Option.none_or,
    plain?_word hw hfirst hrest]
  rfl

theorem word?_eq_none (hrest : rest.EndsWord) (hk : ∀ c ∈ k, 'a' ≤ c ∧ c ≤ 'z') (hne : k ≠ []) :
    (Cursor.mk before pos rest).word? k = none := by
  cases k with
  | nil => exact absurd rfl hne
  | cons k ks =>
    cases rest with
    | nil => rfl
    | cons x rest =>
      have hfolds : ¬ CharClass.folds k x.char = true := by
        intro hfolds
        have hword : x.isWord = true := CharClass.isWord_of_folds (hk k List.mem_cons_self) hfolds
        simp [Cells.EndsWord, hword] at hrest
      rw [word?]
      exact if_neg hfolds

/-- **A keyword at a word** is the word, or it ends inside the word, or it is not there. -/
theorem word?_word (hw : w.all CharClass.isAsciiWord = true) (hrest : rest.EndsWord)
    (hk : ∀ c ∈ k, 'a' ≤ c ∧ c ≤ 'z') :
    w.map CharClass.lower = k ∧ (Cursor.mk before pos (ofAscii w ++ rest)).word? k =
        some ⟨lastOr before (ofAscii w), pos + w.length, rest⟩ ∨
      w.map CharClass.lower ≠ k ∧ ∀ d, (Cursor.mk before pos (ofAscii w ++ rest)).word? k = some d →
        ∃ front x back, d = ⟨lastOr before (ofAscii front), pos + k.length, x :: back⟩ ∧
          front.length = k.length ∧ front.all CharClass.isAsciiWord = true ∧ x.isWord = true := by
  induction k generalizing w before pos with
  | nil =>
    cases w with
    | nil => exact Or.inl ⟨rfl, rfl⟩
    | cons c w =>
      refine Or.inr ⟨nofun, fun d hd => ?_⟩
      cases hd
      exact ⟨[], ⟨c, true⟩, ofAscii w ++ rest, rfl, rfl, rfl,
        isWord_of_mem_ofAscii hw List.mem_cons_self⟩
  | cons k ks ih =>
    have hks : ∀ c ∈ ks, 'a' ≤ c ∧ c ≤ 'z' := fun c hc => hk c (List.mem_cons_of_mem k hc)
    cases w with
    | nil =>
      refine Or.inr ⟨nofun, fun d hd => ?_⟩
      rw [Cells.ofAscii_nil, List.nil_append, word?_eq_none hrest hk nofun] at hd
      cases hd
    | cons c w =>
      rw [List.all_cons, Bool.and_eq_true] at hw
      have hascii := CharClass.toNat_lt_of_isAsciiWord hw.1
      have hstep : (Cursor.mk before pos (ofAscii (c :: w) ++ rest)).word? (k :: ks) =
          if CharClass.lower c = k then
            (Cursor.mk (some ⟨c, true⟩) (pos + 1) (ofAscii w ++ rest)).word? ks else none := by
        rw [Cells.ofAscii_cons, List.cons_append, word?]
        simp only [CharClass.folds_iff_of_toNat_lt hascii, CharClass.utf8Size_of_toNat_lt hascii]
        rfl
      rw [hstep]
      by_cases hc : CharClass.lower c = k
      · rw [if_pos hc, List.map_cons, hc, List.length_cons, List.length_cons,
          Nat.add_comm w.length, ← Nat.add_assoc, Nat.add_comm ks.length, ← Nat.add_assoc]
        rcases @ih (some ⟨c, true⟩) (pos + 1) w hw.2 hks with ⟨heq, h⟩ | ⟨hne, h⟩
        · exact Or.inl ⟨by rw [heq], h⟩
        · refine Or.inr ⟨fun heq => hne (List.cons.inj heq).2, fun d hd => ?_⟩
          obtain ⟨front, x, back, rfl, hlength, hfront, hx⟩ := h d hd
          exact ⟨c :: front, x, back, rfl, by rw [List.length_cons, hlength, Nat.add_comm],
            by rw [List.all_cons, hw.1, hfront]; rfl, hx⟩
      · rw [if_neg hc]
        refine Or.inr ⟨fun heq => hc (List.cons.inj heq).1, nofun⟩

theorem atWordEdge_word (hbefore : before.any Cell.isWord = false)
    (hw : w.all CharClass.isAsciiWord = true) (hne : w ≠ []) :
    (Cursor.mk before pos (ofAscii w ++ rest)).atWordEdge = true := by
  cases w with
  | nil => exact absurd rfl hne
  | cons c w =>
    have hc := isWord_of_mem_ofAscii hw List.mem_cons_self
    simp [atWordEdge, hbefore, hc]

/-- **A whole word is there exactly if it is the word.** -/
theorem wholeWord?_word (hbefore : before.any Cell.isWord = false)
    (hw : w.all CharClass.isAsciiWord = true) (hne : w ≠ []) (hrest : rest.EndsWord)
    (hk : ∀ c ∈ k, 'a' ≤ c ∧ c ≤ 'z') (hknil : k ≠ []) :
    (Cursor.mk before pos (ofAscii w ++ rest)).wholeWord? k =
      if w.map CharClass.lower = k then some ⟨lastOr before (ofAscii w), pos + w.length, rest⟩
      else none := by
  have hlast : ∀ {front : List Char}, front.all CharClass.isAsciiWord = true → front ≠ [] →
      (lastOr before (ofAscii front)).any Cell.isWord = true := by
    intro front hfront hfront'
    refine Cells.any_lastOr (fun hnil => ?_) fun x hx => isWord_of_mem_ofAscii hfront hx
    exact absurd (List.map_eq_nil_iff.mp hnil) hfront'
  rw [wholeWord?, if_pos (atWordEdge_word hbefore hw hne)]
  rcases @word?_word before pos w k rest hw hrest hk with ⟨heq, h⟩ | ⟨hdiff, h⟩
  · rw [h, if_pos heq]
    simp only
    rw [if_pos]
    rw [atWordEdge, hlast hw hne, hrest]
    rfl
  · rw [if_neg hdiff]
    split
    · rename_i d hd
      obtain ⟨front, x, back, rfl, hlength, hfront, hx⟩ := h d hd
      have hfront' : front ≠ [] := by
        rintro rfl
        exact hknil (List.length_eq_zero_iff.mp hlength.symm)
      rw [if_neg]
      simp [atWordEdge, hlast hfront hfront', hx]
    · rfl

/-- Behind a keyword at a word there are blanks only if the keyword is the word. -/
theorem blanks?_of_word?_word (hw : w.all CharClass.isAsciiWord = true) (hrest : rest.EndsWord)
    (hk : ∀ c ∈ k, 'a' ≤ c ∧ c ≤ 'z')
    (hblank : w.map CharClass.lower = k → rest.head?.any Cell.isBlank = false) {d : Cursor}
    (hd : (Cursor.mk before pos (ofAscii w ++ rest)).word? k = some d) : d.blanks? = none := by
  rcases @word?_word before pos w k rest hw hrest hk with ⟨heq, h⟩ | ⟨-, h⟩
  · obtain rfl := Option.some.inj (h.symm.trans hd)
    exact some?_eq_none (hblank heq)
  · obtain ⟨front, x, back, rfl, -, -, hx⟩ := h d hd
    refine some?_eq_none ?_
    simpa [Cell.isBlank] using CharClass.isBlank_of_isWord hx

end Cursor

/-! ### Searching -/

namespace Pattern

variable {α : Type} {p : Pattern α} {before : Option Cell} {pos : Nat} {rest : Cells}

/-- Away from quotes the pattern matches only where a word starts. -/
def OnWords (p : Pattern α) : Prop :=
  ∀ c : Cursor, c.rest.head?.any (·.char == '"') = false →
    c.before.any Cell.isWord = true ∨ c.rest.EndsWord → p c = none

/-- The pattern does not match at the word of the run, whatever comes behind the run. -/
def Passes (p : Pattern α) (r : WordRun) : Prop :=
  r.word ≠ [] → ∀ (before : Option Cell) (pos : Nat) (rest : Cells),
    before.any Cell.isWord = false →
      p ⟨before, pos, ofAscii r.word ++ (ofAscii r.gap ++ rest)⟩ = none

theorem allFrom_cons_of_none {x : Cell} {cs : Cells} (h : p ⟨before, pos, x :: cs⟩ = none) :
    p.allFrom 0 before pos (x :: cs) = p.allFrom 0 (some x) (pos + 1) cs := by
  rw [allFrom, h]

/-- What is to be skipped is skipped. -/
theorem allFrom_skip_add (skip : Nat) (before : Option Cell) (pos : Nat) (front rest : Cells) :
    p.allFrom (front.length + skip) before pos (front ++ rest) =
      p.allFrom skip (lastOr before front) (pos + front.length) rest := by
  induction front generalizing before pos with
  | nil => rw [List.length_nil, Nat.zero_add]; rfl
  | cons x front ih =>
    rw [List.length_cons, List.cons_append, Nat.add_right_comm, allFrom, ih, Nat.add_assoc,
      Nat.add_comm 1]
    rfl

/-- Behind a match the search goes on. -/
theorem allFrom_skip (before : Option Cell) (pos : Nat) (front rest : Cells) :
    p.allFrom front.length before pos (front ++ rest) =
      p.allFrom 0 (lastOr before front) (pos + front.length) rest :=
  allFrom_skip_add 0 before pos front rest

theorem allFrom_match {front : Cells} {a : α} {d : Cursor}
    (h : p ⟨before, pos, front ++ rest⟩ = some (a, d)) (hd : d.pos = pos + front.length)
    (hne : front ≠ []) :
    p.allFrom 0 before pos (front ++ rest) =
      ⟨⟨pos, pos + front.length⟩, a⟩ ::
        p.allFrom 0 (lastOr before front) (pos + front.length) rest := by
  cases front with
  | nil => exact absurd rfl hne
  | cons x front =>
    have hskip : pos + (front.length + 1) - pos - 1 = front.length := by omega
    rw [List.cons_append] at h ⊢
    rw [allFrom, h]
    simp only [hd, List.length_cons, hskip]
    rw [allFrom_skip, Nat.add_assoc, Nat.add_comm 1]
    rfl

theorem firstFrom_eq_head? (before : Option Cell) (pos : Nat) (cs : Cells) :
    p.firstFrom before pos cs = (p.allFrom 0 before pos cs).head? := by
  induction cs generalizing before pos with
  | nil => rfl
  | cons x cs ih =>
    rw [firstFrom, allFrom]
    split
    · rfl
    · exact ih _ _

theorem allFrom_eq_nil {skip : Nat} {cs : Cells}
    (h : ∀ before pos front rest, cs = front ++ rest → p ⟨before, pos, rest⟩ = none) :
    p.allFrom skip before pos cs = [] := by
  induction cs generalizing skip before pos with
  | nil => simp [allFrom]
  | cons c cs ih =>
    have hlater : ∀ skip, p.allFrom skip (some c) (pos + 1) cs = [] := fun skip =>
      ih fun before pos front rest hcs => h before pos (c :: front) rest (by rw [hcs]; rfl)
    cases skip with
    | succ skip => exact hlater skip
    | zero =>
      rw [allFrom_cons_of_none (h before pos [] (c :: cs) rfl)]
      exact hlater 0

section OnWords

variable (hp : p.OnWords)
include hp

/-- Between words nothing is found. -/
theorem allFrom_gap {gap : Cells} (hgap : ∀ x ∈ gap, x.isWord = false ∧ x.char ≠ '"')
    (before : Option Cell) (pos : Nat) (rest : Cells) :
    p.allFrom 0 before pos (gap ++ rest) =
      p.allFrom 0 (lastOr before gap) (pos + gap.length) rest := by
  induction gap generalizing before pos with
  | nil => rfl
  | cons x gap ih =>
    obtain ⟨hword, hquote⟩ := hgap x List.mem_cons_self
    have hnone : p ⟨before, pos, x :: (gap ++ rest)⟩ = none :=
      hp _ (by simpa using hquote) (Or.inr (by simpa [Cells.EndsWord] using hword))
    rw [List.cons_append, allFrom_cons_of_none hnone,
      ih fun y hy => hgap y (List.mem_cons_of_mem x hy), List.length_cons, Nat.add_assoc,
      Nat.add_comm 1]
    rfl

/-- Inside a word nothing is found. -/
theorem allFrom_inside {w : List Char} (hw : w.all CharClass.isAsciiWord = true)
    {before : Option Cell} (hbefore : before.any Cell.isWord = true) (pos : Nat) (rest : Cells) :
    p.allFrom 0 before pos (ofAscii w ++ rest) =
      p.allFrom 0 (lastOr before (ofAscii w)) (pos + w.length) rest := by
  induction w generalizing before pos with
  | nil => rfl
  | cons c w ih =>
    have hnone := hp ⟨before, pos, ofAscii (c :: w) ++ rest⟩ (Cursor.not_quote_word hw nofun)
      (Or.inl hbefore)
    have hword := isWord_of_mem_ofAscii hw List.mem_cons_self
    rw [List.all_cons, Bool.and_eq_true] at hw
    rw [Cells.ofAscii_cons, List.cons_append] at hnone ⊢
    rw [allFrom_cons_of_none hnone, ih hw.2 (by simpa using hword), List.length_cons, Nat.add_assoc,
      Nat.add_comm 1]
    rfl

/-- A word at which the pattern does not match is passed over. -/
theorem allFrom_word {w : List Char} (hw : w.all CharClass.isAsciiWord = true) (hne : w ≠ [])
    (h : p ⟨before, pos, ofAscii w ++ rest⟩ = none) :
    p.allFrom 0 before pos (ofAscii w ++ rest) =
      p.allFrom 0 (lastOr before (ofAscii w)) (pos + w.length) rest := by
  cases w with
  | nil => exact absurd rfl hne
  | cons c w =>
    have hword := isWord_of_mem_ofAscii hw List.mem_cons_self
    rw [List.all_cons, Bool.and_eq_true] at hw
    rw [Cells.ofAscii_cons, List.cons_append] at h ⊢
    rw [allFrom_cons_of_none h, allFrom_inside hp hw.2 (by simpa using hword), List.length_cons,
      Nat.add_assoc, Nat.add_comm 1]
    rfl

theorem allFrom_run {r : WordRun} (hr : p.Passes r) (hbefore : before.any Cell.isWord = false)
    (pos : Nat) (rest : Cells) :
    p.allFrom 0 before pos (ofAscii r.chars ++ rest) =
      p.allFrom 0 (lastOr before (ofAscii r.chars)) (pos + r.chars.length) rest := by
  have hgap := allFrom_gap hp fun x hx => r.not_isWord_of_mem_gap hx
  rw [WordRun.chars, Cells.ofAscii_append, List.append_assoc, Cells.lastOr_append, List.length_append,
    ← Nat.add_assoc]
  by_cases hne : r.word = []
  · rw [hne, Cells.ofAscii_nil, List.nil_append, hgap, Cells.length_ofAscii]
    rfl
  · rw [allFrom_word hp r.word_all hne (hr hne before pos rest hbefore), hgap, Cells.length_ofAscii]

/-- **A search passes over runs at whose words the pattern does not match.** -/
theorem allFrom_runs {rs : List WordRun} (hrs : ∀ r ∈ rs, p.Passes r) {before : Option Cell}
    (hbefore : before.any Cell.isWord = false) (pos : Nat) (rest : Cells) :
    p.allFrom 0 before pos (ofAscii (rs.flatMap WordRun.chars) ++ rest) =
      p.allFrom 0 (lastOr before (ofAscii (rs.flatMap WordRun.chars)))
        (pos + (rs.flatMap WordRun.chars).length) rest := by
  induction rs generalizing before pos with
  | nil => rfl
  | cons r rs ih =>
    rw [List.flatMap_cons, Cells.ofAscii_append, List.append_assoc,
      allFrom_run hp (hrs r List.mem_cons_self) hbefore,
      ih (fun r' hr' => hrs r' (List.mem_cons_of_mem r hr')) (r.not_isWord_lastOr before),
      Cells.lastOr_append, List.length_append, Nat.add_assoc]

/-- Away from quotes, a pattern that matches only where words start finds words. -/
theorem isWord_of_mem_allFrom {skip : Nat} {cs : Cells} (hcs : ∀ x ∈ cs, x.char ≠ '"') {f : Found α}
    (hf : f ∈ p.allFrom skip before pos cs) :
    ∃ k x, f.extent.start = pos + k ∧ cs[k]? = some x ∧ x.isWord = true := by
  induction cs generalizing skip before pos with
  | nil => simp [allFrom] at hf
  | cons c cs ih =>
    have hlater : ∀ {skip}, f ∈ p.allFrom skip (some c) (pos + 1) cs →
        ∃ k x, f.extent.start = pos + k ∧ (c :: cs)[k]? = some x ∧ x.isWord = true := by
      intro skip hf
      obtain ⟨k, x, hstart, hx, hword⟩ := ih (fun x hx => hcs x (List.mem_cons_of_mem c hx)) hf
      exact ⟨k + 1, x, by omega, by simpa using hx, hword⟩
    cases skip with
    | succ skip => exact hlater hf
    | zero =>
      unfold allFrom at hf
      split at hf
      · rename_i a d hmatch
        rcases List.mem_cons.mp hf with rfl | hf
        · refine ⟨0, c, rfl, rfl, ?_⟩
          by_contra hword
          have hnone := hp ⟨before, pos, c :: cs⟩ (by simpa using hcs c List.mem_cons_self)
            (Or.inr (by simpa [Cells.EndsWord] using hword))
          rw [hmatch] at hnone
          cases hnone
        · exact hlater hf
      · exact hlater hf

end OnWords
end Pattern

theorem not_isWord_lastOr_runs {before : Option Cell} (hbefore : before.any Cell.isWord = false)
    (rs : List WordRun) :
    (lastOr before (ofAscii (rs.flatMap WordRun.chars))).any Cell.isWord = false := by
  induction rs generalizing before with
  | nil => exact hbefore
  | cons r rs ih =>
    rw [List.flatMap_cons, Cells.ofAscii_append, Cells.lastOr_append]
    exact ih (r.not_isWord_lastOr before)

/-! ### The patterns at words -/

namespace Source

/-- Keywords are written in small letters. -/
def Lettered (w : List Char) : Prop := w ≠ [] ∧ ∀ c ∈ w, 'a' ≤ c ∧ c ≤ 'z'

instance (w : List Char) : Decidable (Lettered w) := inferInstanceAs (Decidable (_ ∧ _))

/-- The words with which the header of a routine may start. -/
def routineWords : List String := ["local", "internal", "protected", "procedure", "trigger"]

theorem lettered_objectKeywords : ∀ w ∈ objectKeywords, Lettered w.toList := by decide

theorem lettered_routineWords : ∀ w ∈ routineWords, Lettered w.toList := by decide

/-- At an edge where no word starts, a word ends. -/
theorem endsWord_of_atWordEdge {c : Cursor} (hedge : c.atWordEdge = true)
    (h : c.before.any Cell.isWord = true ∨ c.rest.EndsWord) : c.rest.EndsWord := by
  rcases h with h | h
  · rw [Cells.EndsWord]
    simpa [Cursor.atWordEdge, h] using hedge
  · exact h

theorem wholeWord?_eq_none {w : List Char} (hw : Lettered w) {c : Cursor}
    (h : c.before.any Cell.isWord = true ∨ c.rest.EndsWord) : c.wholeWord? w = none := by
  rw [Cursor.wholeWord?]
  split
  · rename_i hedge
    rw [Cursor.word?_eq_none (endsWord_of_atWordEdge hedge h) hw.2 hw.1]
  · rfl

theorem onWords_keyword {w : String} (hw : Lettered w.toList) : (keyword w).OnWords := by
  intro c _ h
  rw [keyword, wholeWord?_eq_none hw h]
  rfl

theorem onWords_blockToken : blockToken.OnWords := by
  intro c _ h
  simp only [blockToken, wholeWord?_eq_none (w := "begin".toList) (by decide) h,
    wholeWord?_eq_none (w := "case".toList) (by decide) h,
    wholeWord?_eq_none (w := "end".toList) (by decide) h]

theorem onWords_objectHeader : objectHeader.OnWords := by
  intro c _ h
  rw [objectHeader]
  split
  · rename_i hedge
    rw [List.findSome?_eq_none_iff]
    intro w hw
    have hletters := lettered_objectKeywords w hw
    rw [Cursor.word?_eq_none (endsWord_of_atWordEdge hedge h) hletters.2 hletters.1]
    rfl
  · rfl

theorem skipAccess_eq_self {c : Cursor}
    (h : ∀ w ∈ ["local", "internal", "protected"], (c.word? w.toList).bind Cursor.blanks? = none) :
    skipAccess c = c := by
  have hnone : (["local", "internal", "protected"].findSome? fun w =>
      (c.word? w.toList).bind Cursor.blanks?) = none := List.findSome?_eq_none_iff.mpr h
  rw [skipAccess, hnone]

theorem onWords_routineHeader : routineHeader.OnWords := by
  intro c _ h
  rw [routineHeader]
  split
  · rename_i hedge
    have hnone : ∀ w ∈ routineWords, c.word? w.toList = none := fun w hw =>
      Cursor.word?_eq_none (endsWord_of_atWordEdge hedge h) (lettered_routineWords w hw).2
        (lettered_routineWords w hw).1
    have haccess : skipAccess c = c := by
      refine skipAccess_eq_self fun w hw => ?_
      rw [hnone w (List.mem_append_left ["procedure", "trigger"] hw)]
      rfl
    simp only [haccess, hnone "procedure" (by decide), hnone "trigger" (by decide)]
    rfl
  · rfl

/-- What folds to a letter may start a name. -/
theorem first_isFoldedLetter {w : List Char}
    (h : (w.head?.any fun c => CharClass.isAsciiLetter c || c == '_') = true) :
    (w.head?.any fun c => CharClass.isFoldedLetter c || c == '_') = true := by
  cases w with
  | nil => cases h
  | cons c w =>
    simp only [List.head?_cons, Option.any_some, Bool.or_eq_true, CharClass.isFoldedLetter] at h ⊢
    rcases h with h | h
    · exact Or.inl (Or.inl (Or.inl h))
    · exact Or.inr h

/-- Where no word character comes next, no ASCII name does. -/
theorem not_letter_of_endsWord {rest : Cells} (h : rest.EndsWord) :
    rest.head?.any (fun x => CharClass.isAsciiLetter x.char || x.char == '_') = false := by
  cases rest with
  | nil => rfl
  | cons x rest =>
    have hword : ¬ x.isWord = true := by simpa [Cells.EndsWord] using h
    have hletter : CharClass.isAsciiLetter x.char = false := by
      by_contra hletter
      exact hword (CharClass.isWord_of_isAsciiLetter x.char (by simpa using hletter))
    have hline : x.char ≠ '_' := by
      intro hline
      exact hword (by rw [Cell.isWord, hline]; decide)
    simp [hletter, hline]

theorem onWords_callHead : callHead.OnWords := by
  intro c hquote h
  have hplain : (if c.atWordEdge then c.plain? CharClass.isAsciiLetter else none) = none := by
    split
    · rename_i hedge
      exact Cursor.plain?_eq_none (not_letter_of_endsWord (endsWord_of_atWordEdge hedge h))
    · rfl
  rw [callHead, Cursor.quoted?_eq_none hquote, hplain]
  rfl

/-! ### Words that are passed over -/

variable {r : WordRun}

/-- The header of an object is passed over when no blanks follow its first word. -/
theorem passes_objectHeader (h : String.ofList (r.word.map CharClass.lower) ∈ objectKeywords →
    r.gap.head?.any CharClass.isBlank = false) : objectHeader.Passes r := by
  intro hne before pos rest hbefore
  rw [objectHeader, if_pos (Cursor.atWordEdge_word hbefore r.word_all hne),
    List.findSome?_eq_none_iff]
  intro w hw
  rw [Option.bind_eq_bind, Option.bind_eq_none_iff]
  intro d hd
  have hblank : r.word.map CharClass.lower = w.toList →
      (ofAscii r.gap ++ rest).head?.any Cell.isBlank = false := by
    intro heq
    rw [← String.ofList_toList (s := w), ← heq] at hw
    have hgap := h hw
    cases hcs : r.gap with
    | nil => exact absurd hcs r.gap_ne
    | cons c cs =>
      rw [hcs] at hgap
      exact hgap
  rw [Cursor.blanks?_of_word?_word r.word_all (r.endsWord_gap rest)
    (lettered_objectKeywords w hw).2 hblank hd]
  rfl

/-- The header of a routine starts with one of the words for it. -/
theorem passes_routineHeader (h : String.ofList (r.word.map CharClass.lower) ∉ routineWords) :
    routineHeader.Passes r := by
  intro hne before pos rest hbefore
  have hblanks : ∀ w ∈ routineWords, ∀ d,
      (Cursor.mk before pos (ofAscii r.word ++ (ofAscii r.gap ++ rest))).word? w.toList = some d →
        d.blanks? = none := by
    intro w hw d hd
    refine Cursor.blanks?_of_word?_word r.word_all (r.endsWord_gap rest)
      (lettered_routineWords w hw).2 (fun heq => ?_) hd
    rw [← String.ofList_toList (s := w), ← heq] at hw
    exact absurd hw h
  have haccess : skipAccess ⟨before, pos, ofAscii r.word ++ (ofAscii r.gap ++ rest)⟩ =
      ⟨before, pos, ofAscii r.word ++ (ofAscii r.gap ++ rest)⟩ := by
    refine skipAccess_eq_self fun w hw => ?_
    rw [Option.bind_eq_none_iff]
    exact hblanks w (List.mem_append_left ["procedure", "trigger"] hw)
  rw [routineHeader, if_pos (Cursor.atWordEdge_word hbefore r.word_all hne)]
  simp only [haccess]
  split
  · rename_i d hd
    simp [hblanks "procedure" (by decide) d hd]
  · rename_i d _ hd
    simp [hblanks "trigger" (by decide) d hd]
  · rfl

theorem passes_blockToken (h : String.ofList (r.word.map CharClass.lower) ∉
    ["begin", "case", "end"]) : blockToken.Passes r := by
  intro hne before pos rest hbefore
  have hnone : ∀ w ∈ ["begin", "case", "end"], (Cursor.mk before pos
      (ofAscii r.word ++ (ofAscii r.gap ++ rest))).wholeWord? w.toList = none := by
    intro w hw
    have hletters : Lettered w.toList := by
      revert w
      decide
    rw [Cursor.wholeWord?_word hbefore r.word_all hne (r.endsWord_gap rest) hletters.2 hletters.1,
      if_neg]
    intro heq
    rw [← String.ofList_toList (s := w), ← heq] at hw
    exact h hw
  simp only [blockToken, hnone "begin" (by decide), hnone "case" (by decide),
    hnone "end" (by decide)]

/-- A word is no call when, past any blanks, neither a dot nor a parenthesis follows. -/
theorem callHead_eq_none {w : List Char} (hw : w.all CharClass.isAsciiWord = true) (hne : w ≠ [])
    {before : Option Cell} (hbefore : before.any Cell.isWord = false) (pos : Nat)
    {blank rest : Cells} (hblank : ∀ x ∈ blank, x.isBlank = true)
    (hrest : rest.head?.any (fun x => x.isBlank || x.char == '.' || x.char == '(') = false)
    (hends : (blank ++ rest).EndsWord) :
    callHead ⟨before, pos, ofAscii w ++ (blank ++ rest)⟩ = none := by
  have hquote := @Cursor.not_quote_word w (blank ++ rest) hw hne
  have hhead : rest.head?.any Cell.isBlank = false ∧ rest.head?.any (·.char == '.') = false ∧
      rest.head?.any (·.char == '(') = false := by
    cases rest with
    | nil => exact ⟨rfl, rfl, rfl⟩
    | cons x rest => simpa [and_assoc] using hrest
  have hblanks := fun before pos => @Cursor.skipWhile_append before pos blank rest Cell.isBlank
    hblank hhead.1
  have hdot := fun before pos => @Cursor.mark?_eq_none before pos rest '.' hhead.2.1
  have hparen := fun before pos => @Cursor.mark?_eq_none before pos rest '(' hhead.2.2
  rw [callHead, Cursor.quoted?_eq_none hquote, Option.none_or,
    if_pos (Cursor.atWordEdge_word hbefore hw hne)]
  cases hletter : w.head?.any fun c => CharClass.isAsciiLetter c || c == '_' with
  | false =>
    rw [Cursor.plain?_eq_none]
    · rfl
    · cases w with
      | nil => exact absurd rfl hne
      | cons c w => exact hletter
  | true =>
    rw [Cursor.plain?_word hw hletter hends]
    simp only [Option.bind_eq_bind, Option.bind_some, memberName?, Cursor.blanks, hblanks, hdot,
      hparen, Option.bind_none]

/-- A call needs a name, and a dot or a parenthesis behind it. -/
theorem passes_callHead
    (h : r.word ≠ [] → r.gap.head?.any (fun c => CharClass.isBlank c || c == '.' || c == '(') = false) :
    callHead.Passes r := by
  intro hne before pos rest hbefore
  refine @callHead_eq_none _ r.word_all hne before hbefore pos [] _ nofun ?_ (r.endsWord_gap rest)
  have hgap := h hne
  cases hcs : r.gap with
  | nil => exact absurd hcs r.gap_ne
  | cons c cs =>
    rw [hcs] at hgap
    exact hgap

end Source
end TreeLint
