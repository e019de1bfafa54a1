/-
# Scanning with every access checked

Texts are cut, indexed and blanked by offsets, and an offset can be wrong in
several ways: past the end, before the start of its interval, within a character.
A guarded run makes each access only after checking it and each subtraction only
where it does not go below zero; where a check fails it stops with a fault. A
loop has a number of rounds and stops with a fault when they are used up.

Here are the checked accesses and, with them, the loop that blanks comments,
string literals and quoted names: it goes through the text by offsets, jumps to
the end of what it finds and blanks the bytes in between. It never faults, and it
gives the two copies that the scanner with one byte of look-ahead gives.

Key definitions: `Guarded.Fault`, `Guarded`, `Guarded.piece`, `Guarded.maskLoop`,
`Guarded.text`.
Key theorems: `Guarded.piece_eq`, `Guarded.maskTexts_eq`, `Guarded.text_eq`.
-/
import TreeLint.Proofs.Pieces

namespace TreeLint

/-- What stops a guarded run. -/
inductive Guarded.Fault where
  | reversed
  | outOfRange
  | insideCharacter
  | underflow
  | overflow
  | notText
  | endless
deriving DecidableEq, Repr

/-- A run in which every access is checked. -/
abbrev Guarded (α : Type) := Except Guarded.Fault α

namespace Guarded

variable {α β : Type}

@[simp] theorem ok_bind (a : α) (f : α → Guarded β) : (Except.ok a >>= f) = f a := rfl

/-! ### Checked accesses -/

/-- The bytes of an interval. -/
def bytes (cs : Cells) (r : Extent) : Guarded Cells :=
  if r.stop < r.start then .error .reversed
  else if cs.length < r.stop then .error .outOfRange
  else .ok (cs.slice r)

/-- The text of an interval, which must not start or end within a character. -/
def piece (cs : Cells) (r : Extent) : Guarded Cells := do
  let part ← bytes cs r
  if cs.isBoundary r.start && cs.isBoundary r.stop then .ok part else .error .insideCharacter

/-- The entry at an index. -/
def entry (l : List α) (i : Nat) : Guarded α :=
  match l[i]? with
  | some a => .ok a
  | none => .error .outOfRange

/-- A difference that must not go below zero. -/
def minus (a b : Nat) : Guarded Nat := if b ≤ a then .ok (a - b) else .error .underflow

/-- The next number of a counter with 32 bits. -/
def increment (n : Nat) : Guarded Nat :=
  if n + 1 < UInt32.size then .ok (n + 1) else .error .overflow

/-- Bytes that must be those of a text. -/
def wholeText (cs : Cells) : Guarded Cells :=
  if Cells.ofString cs.text = cs then .ok cs else .error .notText

variable {cs : Cells} {r : Extent}

theorem bytes_eq (hle : r.start ≤ r.stop) (hstop : r.stop ≤ cs.length) :
    bytes cs r = .ok (cs.slice r) := by
  rw [bytes, if_neg (by omega), if_neg (by omega)]

theorem piece_eq (h : cs.Cuts r) : piece cs r = .ok (cs.slice r) := by
  rw [piece, bytes_eq h.le h.stop_le, ok_bind, h.start, h.stop]
  rfl

theorem entry_eq {l : List α} {i : Nat} {a : α} (h : l[i]? = some a) : entry l i = .ok a := by
  rw [entry, h]

theorem minus_eq {a b : Nat} (h : b ≤ a) : minus a b = .ok (a - b) := if_pos h

theorem increment_eq {n : Nat} (h : n + 1 < UInt32.size) : increment n = .ok (n + 1) := if_pos h

theorem wholeText_eq (h : cs.Whole) : wholeText cs = .ok cs := by
  obtain ⟨l, rfl⟩ := h
  rw [wholeText, if_pos]
  simp [Cells.ofString, Cells.text, Cells.chars_ofChars]

/-! ### Blanking -/

/-- A byte blanked; a line break stays. -/
def blankCell (c : Cell) : Cell := if c.char ≠ '\n' ∧ c.char ≠ '\r' then Cell.space else c

/-- The text with the bytes of an interval blanked. -/
def blanked (cs : Cells) (r : Extent) : Cells :=
  cs.mapIdx fun i c => if r.has i then blankCell c else c

/-- Blanks the bytes of an interval. -/
def blank (cs : Cells) (r : Extent) : Guarded Cells := do
  let _ ← bytes cs r
  return blanked cs r

theorem blank_eq (hle : r.start ≤ r.stop) (hstop : r.stop ≤ cs.length) :
    blank cs r = .ok (blanked cs r) := by
  rw [blank, bytes_eq hle hstop]
  rfl

theorem length_blanked (cs : Cells) (r : Extent) : (blanked cs r).length = cs.length :=
  List.length_mapIdx

theorem getElem?_blanked (cs : Cells) (r : Extent) (k : Nat) :
    (blanked cs r)[k]? = cs[k]?.map fun c => if r.has k then blankCell c else c :=
  List.getElem?_mapIdx

/-! ### The loop over the text -/

/-- The offset of the first byte of a character, from an offset on. -/
def findByte (cs : Cells) (start : Nat) (ch : Char) : Guarded (Option Nat) := do
  let rest ← bytes cs ⟨start, cs.length⟩
  return rest.findChar? ch start

/-- The offset of the first `*/`, counted from `i`. -/
def findCommentEnd (i : Nat) : Cells → Option Nat
  | x :: y :: rest =>
    if x.char = '*' ∧ y.char = '/' then some i else findCommentEnd (i + 1) (y :: rest)
  | _ => none

/-- The offset of the first quote or line feed, or of the end, counted from `i`. -/
def nameEnd (i : Nat) : Cells → Nat
  | [] => i
  | x :: rest => if x.char = '"' ∨ x.char = '\n' then i else nameEnd (i + 1) rest

/-- The offset of the apostrophe that ends a string literal: the first one that is not doubled. -/
def literalEnd (source : Cells) : Nat → Nat → Guarded Nat
  | 0, _ => .error .endless
  | rounds + 1, j =>
    if j < source.length then do
      let c ← entry source j
      if c.char = '\'' then
        if (source[j + 1]?).map (·.char) = some '\'' then literalEnd source rounds (j + 2)
        else .ok j
      else literalEnd source rounds (j + 1)
    else .ok j

/-- Goes through the source from an offset on. Comments and string literals are blanked at once, and
the intervals of quoted names are listed. -/
def maskLoop (source : Cells) : Nat → Nat → Cells → List Extent → Guarded (Cells × List Extent)
  | 0, _, _, _ => .error .endless
  | rounds + 1, i, masked, quoted =>
    if i < source.length then do
      let c ← entry source i
      let next := (source[i + 1]?).map (·.char)
      if c.char = '/' ∧ next = some '/' then do
        let stop := (← findByte source i '\n').getD source.length
        maskLoop source rounds stop (← blank masked ⟨i, stop⟩) quoted
      else if c.char = '/' ∧ next = some '*' then do
        let rest ← piece source ⟨i + 2, source.length⟩
        let stop := ((findCommentEnd (i + 2) rest).map (· + 2)).getD source.length
        maskLoop source rounds stop (← blank masked ⟨i, stop⟩) quoted
      else if c.char = '\'' then do
        let j ← literalEnd source (source.length + 1) (i + 1)
        maskLoop source rounds (j + 1) (← blank masked ⟨i + 1, min j source.length⟩) quoted
      else if c.char = '"' then do
        let rest ← bytes source ⟨i + 1, source.length⟩
        let stop := nameEnd (i + 1) rest
        maskLoop source rounds (stop + 1) masked (quoted ++ [⟨i + 1, stop⟩])
      else maskLoop source rounds (i + 1) masked quoted
    else .ok (masked, quoted)

/-- The two blanked copies of a text, which must be texts again. -/
def maskTexts (source : Cells) : Guarded (Cells × Cells) := do
  let (masked, quoted) ← maskLoop source (source.length + 2) 0 source []
  let bare ← quoted.foldlM blank masked
  return (← wholeText masked, ← wholeText bare)

/-! ### What the loop jumps over -/

open Source (Layer MaskState layers layersFrom maskStep cover)

theorem layersFrom_cons (s : MaskState) (c : Cell) (cs : Cells) :
    layersFrom s (c :: cs) =
      (maskStep s c.char (cs.head?.map (·.char))).1 ::
        layersFrom (maskStep s c.char (cs.head?.map (·.char))).2 cs := rfl

/-- Blank bytes to the end of the line, or of the text. -/
theorem exists_lineComment (cs : Cells) (i : Nat) :
    ∃ n, (cs.findChar? '\n' i).getD (i + cs.length) = i + n ∧ n ≤ cs.length ∧
      layersFrom .lineComment cs = List.replicate n .hidden ++ layersFrom .code (cs.drop n) := by
  induction cs generalizing i with
  | nil => exact ⟨0, rfl, le_rfl, rfl⟩
  | cons c cs ih =>
    by_cases hc : c.char = '\n'
    · refine ⟨0, by simp [Cells.findChar?, hc], Nat.zero_le _, ?_⟩
      simp [layersFrom_cons, maskStep, hc]
    · obtain ⟨n, hn, hle, hlayers⟩ := ih (i + 1)
      refine ⟨n + 1, ?_, by simpa using hle, ?_⟩
      · rw [Cells.findChar?, if_neg hc, List.length_cons,
          show i + (cs.length + 1) = i + 1 + cs.length by omega, hn]
        omega
      · simp [layersFrom_cons, maskStep, hc, hlayers, List.replicate_succ]

/-- Blank bytes through the mark that ends the comment, or to the end of the text. -/
theorem exists_block (cs : Cells) (i : Nat) :
    ∃ n, ((findCommentEnd i cs).map (· + 2)).getD (i + cs.length) = i + n ∧ n ≤ cs.length ∧
      layersFrom .block cs = List.replicate n .hidden ++ layersFrom .code (cs.drop n) := by
  induction cs generalizing i with
  | nil => exact ⟨0, rfl, le_rfl, rfl⟩
  | cons x cs ih =>
    cases cs with
    | nil => exact ⟨1, rfl, le_rfl, by simp [maskStep, layersFrom]⟩
    | cons y cs =>
      by_cases hend : x.char = '*' ∧ y.char = '/'
      · refine ⟨2, by simp [findCommentEnd, hend], by simp, ?_⟩
        simp [layersFrom_cons, maskStep, hend, List.replicate_succ]
      · obtain ⟨n, hn, hle, hlayers⟩ := ih (i + 1)
        refine ⟨n + 1, ?_, by simpa using hle, ?_⟩
        · rw [findCommentEnd, if_neg hend, List.length_cons,
            show i + ((y :: cs).length + 1) = i + 1 + (y :: cs).length by omega, hn]
          omega
        · have hstep : maskStep .block x.char ((y :: cs).head?.map (·.char)) = (.hidden, .block) := by
            simp only [maskStep, List.head?_cons, Option.map_some, Option.some.injEq]
            rw [if_neg hend]
          rw [layersFrom_cons, hstep, hlayers, List.replicate_succ, List.drop_succ_cons]
          rfl

/-- The layer of the byte that ends a quoted name or a literal, if there is one. -/
def closing (cs : Cells) (n : Nat) : List Layer := (cs.drop n).take 1 |>.map fun _ => .code

/-- Bytes of a name to the next quote or line feed, or to the end of the text. -/
theorem exists_nameEnd (cs : Cells) (i : Nat) :
    ∃ n, nameEnd i cs = i + n ∧ n ≤ cs.length ∧
      layersFrom .name cs = List.replicate n .name ++
        (closing cs n ++ layersFrom .code (cs.drop (n + 1))) := by
  induction cs generalizing i with
  | nil => exact ⟨0, rfl, le_rfl, rfl⟩
  | cons c cs ih =>
    by_cases hc : c.char = '"' ∨ c.char = '\n'
    · refine ⟨0, by rw [nameEnd, if_pos hc]; rfl, Nat.zero_le _, ?_⟩
      simp [layersFrom_cons, maskStep, if_pos hc, closing]
    · obtain ⟨n, hn, hle, hlayers⟩ := ih (i + 1)
      refine ⟨n + 1, ?_, by simpa using hle, ?_⟩
      · rw [nameEnd, if_neg hc, hn]
        omega
      · simp [layersFrom_cons, maskStep, if_neg hc, hlayers, closing, List.replicate_succ]

/-- **The end of a literal is found**, and the bytes before it are hidden. -/
theorem exists_literalEnd (source : Cells) (rounds : Nat) {j : Nat}
    (hrounds : source.length < j + rounds) (hj : j ≤ source.length) :
    ∃ m, literalEnd source rounds j = .ok (j + m) ∧ j + m ≤ source.length ∧
      layersFrom .literal (source.drop j) = List.replicate m .hidden ++
        (closing source (j + m) ++ layersFrom .code (source.drop (j + m + 1))) := by
  induction rounds using Nat.strong_induction_on generalizing j with
  | _ rounds ih =>
    cases rounds with
    | zero => omega
    | succ rounds =>
      rw [literalEnd]
      by_cases hlt : j < source.length
      · have hcell : source[j]? = some source[j] := List.getElem?_eq_getElem hlt
        rw [if_pos hlt, entry_eq hcell, ok_bind, List.drop_eq_getElem_cons hlt, layersFrom_cons,
          List.head?_drop]
        by_cases hc : source[j].char = '\''
        · rw [if_pos hc]
          by_cases hnext : (source[j + 1]?).map (·.char) = some '\''
          · have hlt' : j + 1 < source.length := by
              by_contra hnot
              rw [List.getElem?_eq_none (by omega)] at hnext
              cases hnext
            obtain ⟨m, hm, hle, hlayers⟩ := ih rounds (by omega) (j := j + 2) (by omega) (by omega)
            refine ⟨m + 2, ?_, by omega, ?_⟩
            · rw [if_pos hnext, hm]
              congr 1
              omega
            · simp only [maskStep, if_pos hc, if_pos hnext]
              rw [List.drop_eq_getElem_cons hlt', layersFrom_cons]
              simp only [maskStep]
              rw [show j + 1 + 1 = j + 2 by omega, hlayers,
                show j + (m + 2) = j + 2 + m by omega]
              simp [List.replicate_succ]
          · refine ⟨0, ?_, by omega, ?_⟩
            · rw [if_neg hnext]
              rfl
            · simp only [maskStep, if_pos hc, if_neg hnext]
              simp only [closing, Nat.add_zero]
              rw [List.drop_eq_getElem_cons hlt]
              rfl
        · obtain ⟨m, hm, hle, hlayers⟩ := ih rounds (by omega) (j := j + 1) (by omega) (by omega)
          refine ⟨m + 1, ?_, by omega, ?_⟩
          · rw [if_neg hc, hm]
            congr 1
            omega
          · simp only [maskStep, if_neg hc]
            rw [hlayers, show j + (m + 1) = j + 1 + m by omega]
            simp [List.replicate_succ]
      · rw [if_neg hlt]
        refine ⟨0, rfl, hj, ?_⟩
        have hnil : source.drop j = [] := List.drop_eq_nil_of_le (by omega)
        have hnil' : source.drop (j + 0 + 1) = [] := List.drop_eq_nil_of_le (by omega)
        simp only [Nat.add_zero] at hnil' ⊢
        rw [closing, hnil, hnil']
        rfl

/-! ### The state of the loop -/

/-- Between the offsets `i` and `j` the bytes from `a` up to `b` have the layer, the others are code,
and at `j` the scanner is back in the code. -/
structure Stretch (source : Cells) (i j a b : Nat) (layer : Layer) : Prop where
  start_le : i ≤ a
  le : a ≤ b
  le_stop : b ≤ j
  le_length : b ≤ source.length
  layer_eq : ∀ k, i ≤ k → k < j → k < source.length →
    (layers source)[k]? = some (if a ≤ k ∧ k < b then layer else .code)
  code : (layers source).drop j = layersFrom .code (source.drop j)

theorem length_layers (source : Cells) : (layers source).length = source.length :=
  Source.length_layersFrom .code source

/-- A stretch is read off the layers from `i` on: code, bytes of the layer, code. -/
theorem stretch_of_append {source : Cells} {i j n m k : Nat} {layer : Layer}
    (hcode : (layers source).drop i = layersFrom .code (source.drop i))
    (hj : i + n + m + k = min j source.length)
    (hlayers : layersFrom .code (source.drop i) = List.replicate n .code ++
      (List.replicate m layer ++ (List.replicate k .code ++ layersFrom .code (source.drop j)))) :
    Stretch source i j (i + n) (i + n + m) layer := by
  have hall : (layers source).drop i = List.replicate n .code ++
      (List.replicate m layer ++ (List.replicate k .code ++ layersFrom .code (source.drop j))) :=
    hcode.trans hlayers
  refine ⟨by omega, by omega, by omega, by omega, ?_, ?_⟩
  · intro p hp hpj hlt
    have hget : (layers source)[p]? = ((layers source).drop i)[p - i]? := by
      rw [List.getElem?_drop, show i + (p - i) = p by omega]
    rw [hget, hall]
    by_cases h₁ : p < i + n
    · rw [List.getElem?_append_left (by simp; omega), List.getElem?_replicate, if_pos (by omega),
        if_neg (by omega)]
    · rw [List.getElem?_append_right (by simp; omega), List.length_replicate]
      by_cases h₂ : p < i + n + m
      · rw [List.getElem?_append_left (by simp; omega), List.getElem?_replicate, if_pos (by omega),
          if_pos (by omega)]
      · rw [List.getElem?_append_right (by simp; omega), List.length_replicate,
          List.getElem?_append_left (by simp; omega), List.getElem?_replicate, if_pos (by omega),
          if_neg (by omega)]
  · by_cases hle : j ≤ source.length
    · have hdrop : (layers source).drop j = ((layers source).drop i).drop (n + m + k) := by
        rw [List.drop_drop]
        congr 1
        omega
      rw [hdrop, hall, ← List.append_assoc, ← List.append_assoc, List.drop_append_of_le_length
        (by simp; omega), List.drop_eq_nil_of_le (by simp; omega), List.nil_append]
    · rw [List.drop_eq_nil_of_le (by rw [length_layers]; omega),
        List.drop_eq_nil_of_le (by omega)]
      rfl

/-- What the loop has done when it stands at the offset `i`: the copy is blanked up to there, and the
quoted names up to there are listed. -/
structure Scanned (source : Cells) (i : Nat) (masked : Cells) (quoted : List Extent) : Prop where
  code : (layers source).drop i = layersFrom .code (source.drop i)
  length_eq : masked.length = source.length
  masked_eq : ∀ k, masked[k]? = if k < i then (Source.masked source)[k]? else source[k]?
  names : ∀ k, k < i → (quoted.any (·.has k) = true ↔ (layers source)[k]? = some .name)
  ranges : ∀ r ∈ quoted, r.start ≤ r.stop ∧ r.stop ≤ source.length ∧ r.stop ≤ i

theorem cover_eq (hide : Layer → Bool) (layer : Layer) (c : Cell) :
    cover hide layer c = if hide layer then blankCell c else c := by
  unfold cover blankCell
  by_cases h : hide layer = true
  · simp [h]
  · simp [h]

theorem getElem?_covered (hide : Layer → Bool) (source : Cells) {k : Nat} {layer : Layer}
    (h : (layers source)[k]? = some layer) :
    (List.zipWith (cover hide) (layers source) source)[k]? =
      source[k]?.map fun c => if hide layer then blankCell c else c := by
  rw [List.getElem?_zipWith, h]
  cases source[k]? with
  | none => rfl
  | some c => simp [cover_eq]

variable {source masked : Cells} {quoted : List Extent} {i j a b : Nat}

theorem has_iff {r : Extent} {k : Nat} : r.has k = true ↔ r.start ≤ k ∧ k < r.stop := by
  simp [Extent.has]

theorem has_eq_false {r : Extent} {k : Nat} (h : k < r.start ∨ r.stop ≤ k) : r.has k = false := by
  by_contra hhas
  have := has_iff.mp (by simpa using hhas)
  omega

theorem Scanned.any_eq_false (h : Scanned source i masked quoted) {k : Nat} (hk : i ≤ k) :
    quoted.any (·.has k) = false := by
  rw [List.any_eq_false]
  intro r hr hhas
  have := (h.ranges r hr).2.2
  have := (has_iff.mp hhas).2
  omega

/-- The loop blanks a stretch and goes on behind it. -/
theorem Scanned.hide (h : Scanned source i masked quoted) (hs : Stretch source i j a b .hidden) :
    Scanned source j (blanked masked ⟨a, b⟩) quoted where
  code := hs.code
  length_eq := by rw [length_blanked, h.length_eq]
  masked_eq := by
    intro k
    have hia := hs.start_le
    have hbj := hs.le_stop
    have hab := hs.le
    rw [getElem?_blanked, h.masked_eq]
    by_cases hki : k < i
    · rw [if_pos hki, if_pos (by omega)]
      simp [has_eq_false (r := ⟨a, b⟩) (k := k) (Or.inl (by simp only; omega))]
    · rw [if_neg hki]
      by_cases hkj : k < j
      · rw [if_pos hkj]
        by_cases hlt : k < source.length
        · rw [Source.masked, getElem?_covered _ _ (hs.layer_eq k (by omega) hkj hlt)]
          by_cases hin : a ≤ k ∧ k < b
          · simp [Extent.has, hin]
          · simp [Extent.has, hin]
        · rw [List.getElem?_eq_none (by omega),
            List.getElem?_eq_none (by rw [Source.length_masked]; omega)]
          rfl
      · rw [if_neg hkj]
        simp [has_eq_false (r := ⟨a, b⟩) (k := k) (Or.inr (by simp only; omega))]
  names := by
    intro k hkj
    by_cases hki : k < i
    · exact h.names k hki
    · rw [h.any_eq_false (by omega)]
      by_cases hlt : k < source.length
      · rw [hs.layer_eq k (by omega) hkj hlt]
        split <;> simp
      · rw [List.getElem?_eq_none (by rw [length_layers]; omega)]
        simp
  ranges := by
    intro r hr
    obtain ⟨hle, hlength, hstop⟩ := h.ranges r hr
    have := hs.start_le
    have := hs.le
    have := hs.le_stop
    exact ⟨hle, hlength, by omega⟩

/-- The loop lists a quoted name and goes on behind it. -/
theorem Scanned.quote (h : Scanned source i masked quoted) (hs : Stretch source i j a b .name) :
    Scanned source j masked (quoted ++ [⟨a, b⟩]) where
  code := hs.code
  length_eq := h.length_eq
  masked_eq := by
    intro k
    have hia := hs.start_le
    have hbj := hs.le_stop
    have hab := hs.le
    rw [h.masked_eq]
    by_cases hki : k < i
    · rw [if_pos hki, if_pos (by omega)]
    · rw [if_neg hki]
      by_cases hkj : k < j
      · rw [if_pos hkj]
        by_cases hlt : k < source.length
        · rw [Source.masked, getElem?_covered _ _ (hs.layer_eq k (by omega) hkj hlt)]
          by_cases hin : a ≤ k ∧ k < b
          · simp [hin]
          · simp [hin]
        · rw [List.getElem?_eq_none (by omega),
            List.getElem?_eq_none (by rw [Source.length_masked]; omega)]
      · rw [if_neg hkj]
  names := by
    intro k hkj
    rw [List.any_append, Bool.or_eq_true]
    have hia := hs.start_le
    by_cases hki : k < i
    · rw [h.names k hki]
      simp only [List.any_cons, List.any_nil, Bool.or_false, has_iff]
      constructor
      · rintro (hname | hin)
        · exact hname
        · omega
      · exact Or.inl
    · rw [h.any_eq_false (by omega)]
      simp only [List.any_cons, List.any_nil, Bool.or_false, has_iff]
      by_cases hlt : k < source.length
      · rw [hs.layer_eq k (by omega) hkj hlt]
        by_cases hin : a ≤ k ∧ k < b
        · simp [hin]
        · simp [hin]
      · have := hs.le_length
        rw [List.getElem?_eq_none (by rw [length_layers]; omega)]
        simp
        omega
  ranges := by
    intro r hr
    have hia := hs.start_le
    have hab := hs.le
    have hbj := hs.le_stop
    rcases List.mem_append.mp hr with hr | hr
    · obtain ⟨hle, hlength, hstop⟩ := h.ranges r hr
      exact ⟨hle, hlength, by omega⟩
    · obtain rfl := List.mem_singleton.mp hr
      exact ⟨hab, hs.le_length, hbj⟩

theorem blanked_empty (cs : Cells) (a : Nat) : blanked cs ⟨a, a⟩ = cs := by
  refine List.ext_getElem? fun k => ?_
  rw [getElem?_blanked, has_eq_false (Nat.lt_or_ge k a)]
  simp

/-- The loop passes a byte of code. -/
theorem Scanned.pass (h : Scanned source i masked quoted) (hs : Stretch source i j a a .hidden) :
    Scanned source j masked quoted := by
  have := h.hide hs
  rwa [blanked_empty] at this

/-- When the loop has come to the end, the copy is the blanked one. -/
theorem Scanned.masked_eq_of_length_le (h : Scanned source i masked quoted)
    (hi : source.length ≤ i) : masked = Source.masked source := by
  refine List.ext_getElem? fun k => ?_
  rw [h.masked_eq]
  split
  · rfl
  · rw [List.getElem?_eq_none (by omega), List.getElem?_eq_none (by rw [Source.length_masked]; omega)]

theorem closing_of_lt {cs : Cells} {n : Nat} (h : n < cs.length) : closing cs n = [.code] := by
  rw [closing, List.drop_eq_getElem_cons h]
  rfl

theorem closing_of_le {cs : Cells} {n : Nat} (h : cs.length ≤ n) : closing cs n = [] := by
  rw [closing, List.drop_eq_nil_of_le h]
  rfl

theorem closing_eq_replicate (cs : Cells) (n : Nat) :
    closing cs n = List.replicate (min (n + 1) cs.length - n) .code := by
  by_cases h : n < cs.length
  · rw [closing_of_lt h, show min (n + 1) cs.length - n = 1 by omega]
    rfl
  · rw [closing_of_le (by omega), show min (n + 1) cs.length - n = 0 by omega]
    rfl

theorem slice_to_end (cs : Cells) (i : Nat) : cs.slice ⟨i, cs.length⟩ = cs.drop i := by
  unfold Cells.slice
  rw [List.take_of_length_le (by simp)]

section Branches

variable (hcode : (layers source).drop i = layersFrom .code (source.drop i))
  (hlt : i < source.length)
include hcode hlt

omit hcode in
/-- The layers from a byte of the source on. -/
theorem layersFrom_drop (s : MaskState) :
    layersFrom s (source.drop i) =
      (maskStep s source[i].char (source[i + 1]?.map (·.char))).1 ::
        layersFrom (maskStep s source[i].char (source[i + 1]?.map (·.char))).2
          (source.drop (i + 1)) := by
  rw [List.drop_eq_getElem_cons hlt, layersFrom_cons, List.head?_drop]

theorem exists_stretch_line
    (hc : source[i].char = '/' ∧ (source[i + 1]?).map (·.char) = some '/') :
    ∃ found, findByte source i '\n' = .ok found ∧ i < found.getD source.length ∧
      Stretch source i (found.getD source.length) i (found.getD source.length) .hidden := by
  obtain ⟨n, hn, hle, hlayers⟩ := exists_lineComment (source.drop (i + 1)) (i + 1)
  rw [List.length_drop] at hn hle
  have hfound : (Cells.findChar? '\n' i (source.drop i)).getD source.length = i + 1 + n := by
    rw [List.drop_eq_getElem_cons hlt, Cells.findChar?, if_neg (by rw [hc.1]; decide), ← hn]
    congr 1
    omega
  have hfirst : layersFrom .code (source.drop i) =
      .hidden :: layersFrom .lineComment (source.drop (i + 1)) := by
    rw [layersFrom_drop hlt]
    simp only [maskStep, if_pos hc]
  refine ⟨_, by rw [findByte, bytes_eq hlt.le le_rfl, ok_bind, slice_to_end]; rfl, ?_⟩
  rw [hfound]
  have hs : Stretch source i (i + 1 + n) (i + 0) (i + 0 + (n + 1)) .hidden :=
    stretch_of_append (k := 0) hcode (by omega) (by
      rw [hfirst, hlayers, List.drop_drop]
      simp [List.replicate_succ])
  rw [show i + 0 + (n + 1) = i + 1 + n by omega] at hs
  exact ⟨by omega, hs⟩

theorem exists_stretch_block
    (hc : source[i].char = '/' ∧ (source[i + 1]?).map (·.char) = some '*') :
    ∃ stop, ((findCommentEnd (i + 2) (source.drop (i + 2))).map (· + 2)).getD source.length = stop ∧
      i + 1 < source.length ∧ i < stop ∧ Stretch source i stop i stop .hidden := by
  have hlt' : i + 1 < source.length := by
    by_contra hnot
    rw [List.getElem?_eq_none (by omega)] at hc
    exact absurd hc.2 (by simp)
  obtain ⟨n, hn, hle, hlayers⟩ := exists_block (source.drop (i + 2)) (i + 2)
  rw [List.length_drop, show i + 2 + (source.length - (i + 2)) = source.length by omega] at hn
  rw [List.length_drop] at hle
  have hfirst : layersFrom .code (source.drop i) =
      .hidden :: .hidden :: layersFrom .block (source.drop (i + 2)) := by
    rw [layersFrom_drop hlt]
    simp only [maskStep, hc]
    rw [if_neg (by simp), if_pos (by simp), layersFrom_drop hlt']
    rfl
  refine ⟨i + 2 + n, hn, hlt', by omega, ?_⟩
  have hs : Stretch source i (i + 2 + n) (i + 0) (i + 0 + (n + 2)) .hidden :=
    stretch_of_append (k := 0) hcode (by omega) (by
      rw [hfirst, hlayers, List.drop_drop]
      simp [List.replicate_succ])
  rwa [show i + 0 + (n + 2) = i + 2 + n by omega] at hs

theorem exists_stretch_literal (hc : source[i].char = '\'') :
    ∃ j, literalEnd source (source.length + 1) (i + 1) = .ok j ∧ i < j ∧ j ≤ source.length ∧
      Stretch source i (j + 1) (i + 1) j .hidden := by
  obtain ⟨m, hm, hle, hlayers⟩ := exists_literalEnd source (source.length + 1)
    (j := i + 1) (by omega) hlt
  have hfirst : layersFrom .code (source.drop i) =
      .code :: layersFrom .literal (source.drop (i + 1)) := by
    rw [layersFrom_drop hlt]
    simp [maskStep, hc]
  refine ⟨i + 1 + m, hm, by omega, hle, ?_⟩
  exact stretch_of_append (n := 1) (k := min (i + 1 + m + 1) source.length - (i + 1 + m))
    hcode (by omega) (by rw [hfirst, hlayers, closing_eq_replicate]; rfl)

theorem exists_stretch_name (hc : source[i].char = '"') :
    i < nameEnd (i + 1) (source.drop (i + 1)) ∧
      nameEnd (i + 1) (source.drop (i + 1)) ≤ source.length ∧
      Stretch source i (nameEnd (i + 1) (source.drop (i + 1)) + 1) (i + 1)
        (nameEnd (i + 1) (source.drop (i + 1))) .name := by
  obtain ⟨n, hn, hle, hlayers⟩ := exists_nameEnd (source.drop (i + 1)) (i + 1)
  rw [List.length_drop] at hle
  have hfirst : layersFrom .code (source.drop i) =
      .code :: layersFrom .name (source.drop (i + 1)) := by
    rw [layersFrom_drop hlt]
    simp [maskStep, hc]
  rw [hn]
  refine ⟨by omega, by omega, ?_⟩
  refine stretch_of_append (n := 1) (k := min (i + 1 + n + 1) source.length - (i + 1 + n))
    hcode (by omega) ?_
  rw [hfirst, hlayers, closing_eq_replicate, List.drop_drop, List.length_drop,
    show min (n + 1) (source.length - (i + 1)) - n =
      min (i + 1 + n + 1) source.length - (i + 1 + n) by omega]
  rfl

theorem stretch_plain (hslash : ¬ (source[i].char = '/' ∧ (source[i + 1]?).map (·.char) = some '/'))
    (hstar : ¬ (source[i].char = '/' ∧ (source[i + 1]?).map (·.char) = some '*'))
    (hapostrophe : source[i].char ≠ '\'') (hquote : source[i].char ≠ '"') :
    Stretch source i (i + 1) i i .hidden := by
  have hfirst : layersFrom .code (source.drop i) =
      .code :: layersFrom .code (source.drop (i + 1)) := by
    rw [layersFrom_drop hlt]
    simp only [maskStep, if_neg hslash, if_neg hstar, if_neg hapostrophe, if_neg hquote]
  exact stretch_of_append (n := 0) (m := 0) (k := 1) hcode (by omega) (by rw [hfirst]; rfl)

end Branches

/-- **The loop gives the blanked copy and the intervals of the quoted names.** -/
theorem exists_maskLoop (rounds : Nat) (hwhole : source.Whole)
    (h : Scanned source i masked quoted) (hrounds : source.length + 1 < i + rounds)
    (hi : i ≤ source.length + 1) :
    ∃ i' quoted', maskLoop source rounds i masked quoted = .ok (Source.masked source, quoted') ∧
      source.length ≤ i' ∧ Scanned source i' (Source.masked source) quoted' := by
  induction rounds generalizing i masked quoted with
  | zero => omega
  | succ rounds ih =>
    rw [maskLoop]
    by_cases hlt : i < source.length
    · have hcell : source[i]? = some source[i] := List.getElem?_eq_getElem hlt
      rw [if_pos hlt, entry_eq hcell, ok_bind]
      simp only
      split
      · rename_i hc
        obtain ⟨found, hfound, hlt', hs⟩ := exists_stretch_line h.code hlt hc
        have := hs.le_length
        rw [hfound, ok_bind, blank_eq hlt'.le (by rw [h.length_eq]; exact hs.le_length), ok_bind]
        exact ih (h.hide hs) (by omega) (by omega)
      · rename_i hslash
        split
        · rename_i hc
          obtain ⟨stop, hstop, hlt₁, hlt', hs⟩ := exists_stretch_block h.code hlt hc
          have := hs.le_length
          have hstar : source[i + 1].char = '*' := by
            simpa [List.getElem?_eq_getElem hlt₁] using hc.2
          have hsize : source[i + 1].char.utf8Size = 1 := by
            rw [hstar]
            rfl
          have hcuts : source.Cuts ⟨i + 2, source.length⟩ :=
            ⟨hlt₁, (hwhole.isBoundary_of_ascii (List.getElem?_eq_getElem hlt₁) hsize).2,
              Cells.isBoundary_length source⟩
          rw [piece_eq hcuts, ok_bind, slice_to_end, hstop,
            blank_eq hlt'.le (by rw [h.length_eq]; exact hs.le_length), ok_bind]
          exact ih (h.hide hs) (by omega) (by omega)
        · rename_i hstar
          split
          · rename_i hc
            obtain ⟨j, hj, hlt', hle, hs⟩ := exists_stretch_literal h.code hlt hc
            rw [hj, ok_bind, Nat.min_eq_left hle,
              blank_eq (r := ⟨i + 1, j⟩) hlt' (by rw [h.length_eq]; exact hle), ok_bind]
            exact ih (h.hide hs) (by omega) (by omega)
          · rename_i hapostrophe
            split
            · rename_i hc
              obtain ⟨hlt', hle, hs⟩ := exists_stretch_name h.code hlt hc
              rw [bytes_eq (r := ⟨i + 1, source.length⟩) hlt le_rfl, ok_bind, slice_to_end]
              exact ih (h.quote hs) (by omega) (by omega)
            · rename_i hquote
              have hs := stretch_plain h.code hlt hslash hstar hapostrophe hquote
              exact ih (h.pass hs) (by omega) (by omega)
    · rw [if_neg hlt]
      have hend := h.masked_eq_of_length_le (by omega)
      exact ⟨i, quoted, by rw [hend], by omega, hend ▸ h⟩

theorem blankCell_blankCell (c : Cell) : blankCell (blankCell c) = blankCell c := by
  unfold blankCell
  by_cases h : c.char ≠ '\n' ∧ c.char ≠ '\r'
  · rw [if_pos h]
    rfl
  · rw [if_neg h, if_neg h]

/-- Blanking intervals one after the other blanks the bytes that are in any of them. -/
theorem exists_foldlM_blank (cs : Cells)
    (h : ∀ r ∈ quoted, r.start ≤ r.stop ∧ r.stop ≤ cs.length) :
    ∃ ds, quoted.foldlM blank cs = .ok ds ∧ ∀ k,
      ds[k]? = cs[k]?.map fun c => if quoted.any (·.has k) then blankCell c else c := by
  induction quoted generalizing cs with
  | nil => exact ⟨cs, rfl, fun k => by simp⟩
  | cons r quoted ih =>
    obtain ⟨hle, hstop⟩ := h r List.mem_cons_self
    obtain ⟨ds, hds, hcell⟩ := ih (blanked cs r) fun r' hr' => by
      rw [length_blanked]
      exact h r' (List.mem_cons_of_mem r hr')
    refine ⟨ds, ?_, fun k => ?_⟩
    · rw [List.foldlM_cons, blank_eq hle hstop, ok_bind, hds]
    · rw [hcell, getElem?_blanked, Option.map_map, List.any_cons]
      congr 1
      funext c
      by_cases hr : r.has k = true
      · simp [hr, blankCell_blankCell]
      · simp [hr]

/-- A byte of the second copy is a byte of the first one, blanked where it belongs to a name. -/
theorem getElem?_bare (source : Cells) (k : Nat) :
    (Source.bare source)[k]? = (Source.masked source)[k]?.map fun c =>
      if (layers source)[k]? = some .name then blankCell c else c := by
  by_cases hlt : k < source.length
  · obtain ⟨layer, hlayer⟩ : ∃ layer, (layers source)[k]? = some layer :=
      ⟨_, List.getElem?_eq_getElem (by rwa [length_layers])⟩
    rw [Source.bare, Source.masked, getElem?_covered _ _ hlayer, getElem?_covered _ _ hlayer, hlayer,
      Option.map_map]
    congr 1
    funext c
    cases layer <;> simp
  · have hmasked : (Source.masked source)[k]? = none :=
      List.getElem?_eq_none (by rw [Source.length_masked]; omega)
    rw [List.getElem?_eq_none (by rw [Source.length_bare]; omega), hmasked]
    rfl

/-- Before the first byte nothing is blanked. -/
theorem scanned_start (source : Cells) : Scanned source 0 source [] where
  code := rfl
  length_eq := rfl
  masked_eq := by simp
  names := by simp
  ranges := by simp

/-- **Blanking does not fault, and both copies are texts.** -/
theorem maskTexts_eq (hwhole : source.Whole) :
    maskTexts source = .ok (Source.masked source, Source.bare source) := by
  obtain ⟨i, quoted, hloop, hi, hscanned⟩ := exists_maskLoop (source.length + 2) hwhole
    (scanned_start source) (by omega) (by omega)
  obtain ⟨ds, hds, hcell⟩ := exists_foldlM_blank (Source.masked source)
    fun r (hr : r ∈ quoted) => by
      rw [Source.length_masked]
      exact ⟨(hscanned.ranges r hr).1, (hscanned.ranges r hr).2.1⟩
  have hbare : ds = Source.bare source := by
    refine List.ext_getElem? fun k => ?_
    rw [hcell, getElem?_bare]
    by_cases hlt : k < source.length
    · congr 1
      funext c
      simp only [hscanned.names k (by omega)]
    · rw [List.getElem?_eq_none (by rw [Source.length_masked]; omega)]
      rfl
  rw [maskTexts, hloop, ok_bind]
  simp only
  rw [hds, ok_bind, hbare, wholeText_eq (Source.blanks_masked hwhole).whole, ok_bind,
    wholeText_eq (Source.blanks_bare hwhole).whole]
  rfl

/-! ### The prepared text -/

/-- The brace depth before each byte and at the end, with a counter of 32 bits. -/
def depths (depth : Nat) : Cells → Guarded (List Nat)
  | [] => .ok [depth]
  | c :: cs => do
    let next ←
      if c.char = '\x7b' then increment depth
      else .ok (if c.char = '\x7d' then depth - 1 else depth)
    return depth :: (← depths next cs)

/-- The depth never exceeds the number of bytes read. -/
theorem depths_eq {depth : Nat} {cs : Cells} (h : depth + cs.length < UInt32.size) :
    depths depth cs = .ok (Source.depthsFrom depth cs) := by
  induction cs generalizing depth with
  | nil => rfl
  | cons c cs ih =>
    rw [List.length_cons] at h
    rw [depths, Source.depthsFrom]
    by_cases hopen : c.char = '\x7b'
    · simp only [if_pos hopen, increment_eq (show depth + 1 < UInt32.size by omega), ok_bind]
      rw [ih (by omega)]
      rfl
    · simp only [if_neg hopen, ok_bind]
      rw [ih (by split <;> omega)]
      rfl

/-- The line and the column of an offset. The line is that of the last start at or before the
offset; there is one, as the first line starts at zero. -/
def position (index : LineIndex) (offset : Nat) : Guarded (Nat × Nat) := do
  let starts := 0 :: index.starts
  let line ← minus (starts.takeWhile (· ≤ offset)).length 1
  let column ← minus offset (← entry starts line)
  return (line + 1, column + 1)

theorem exists_locate (later : List Nat) (line : Nat) {start offset : Nat} (h : start ≤ offset) :
    ∃ place, (start :: later)[(later.takeWhile (· ≤ offset)).length]? = some place ∧ place ≤ offset ∧
      LineIndex.locate line start later offset =
        (line + (later.takeWhile (· ≤ offset)).length, offset - place + 1) := by
  induction later generalizing line start with
  | nil => exact ⟨start, rfl, h, rfl⟩
  | cons s later ih =>
    by_cases hs : s ≤ offset
    · obtain ⟨place, hplace, hle, hlocate⟩ := ih (line + 1) hs
      refine ⟨place, by simpa [hs] using hplace, hle, ?_⟩
      rw [LineIndex.locate, if_pos hs, hlocate]
      simp [hs]
      omega
    · exact ⟨start, by simp [hs], h, by simp [LineIndex.locate, hs]⟩

theorem position_eq (index : LineIndex) (offset : Nat) :
    position index offset = .ok (index.position offset) := by
  obtain ⟨start, hstart, hle, hlocate⟩ := exists_locate index.starts 1 (Nat.zero_le offset)
  have hlength : ((0 :: index.starts).takeWhile (· ≤ offset)).length =
      (index.starts.takeWhile (· ≤ offset)).length + 1 := by simp
  rw [position]
  rw [hlength, minus_eq (by omega), ok_bind, Nat.add_sub_cancel, entry_eq hstart, ok_bind,
    minus_eq hle, LineIndex.position, hlocate, Nat.add_comm 1]
  rfl

/-- The span of an interval. -/
def span (t : Source.Text) (r : Extent) : Guarded Span := do
  let start ← position t.lines r.start
  let stop ← position t.lines r.stop
  return ⟨r.start, r.stop, start.1, start.2, stop.1, stop.2⟩

@[simp] theorem span_eq (t : Source.Text) (r : Extent) : span t r = .ok (t.span r) := by
  rw [span, position_eq, ok_bind, position_eq]
  rfl

/-- Prepares a source text. -/
def text (source : Cells) : Guarded Source.Text := do
  let (masked, bare) ← maskTexts source
  return { masked, bare, depths := ← depths 0 bare, lines := LineIndex.ofCells source }

/-- **A text with less than `2 ^ 32` bytes is prepared without a fault.** -/
theorem text_eq (hwhole : source.Whole) (hsize : source.length < UInt32.size) :
    text source = .ok (Source.Text.ofCells source) := by
  rw [text, maskTexts_eq hwhole, ok_bind]
  simp only
  rw [depths_eq (by rw [Source.length_bare]; omega)]
  rfl

end Guarded
end TreeLint
