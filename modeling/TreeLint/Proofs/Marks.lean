/-
# The marks of a text and what is wrong with them

Read from left to right, a text meets marks: the next one is the first that
stands there, and reading goes on behind it (`Marker.Meets`). There is one list
of marks that a text meets, each with its byte offset (`Marker.tokens`), and what
a text with marks is read as depends on that list only.

The text can be read if its marks alternate, from an opening to a closing one.
Otherwise a longest alternating front is followed by an opening mark and another
one, by a closing mark, or by an opening mark and no more
(`Marker.exists_alternate_append`), and the error names the mark that breaks the
order, with its offset in the text as it is written.

Key definitions: `Marker.Token`, `Marker.Meets`, `Marker.tokens`,
`Marker.Alternate`, `Marker.violation?`.
Key theorems: `Marker.meets_iff`, `Marker.readFrom_eq_error_iff`,
`Marker.exists_alternate_append`, `MarkedSource.errors_exact`.
-/
import Mathlib.Data.List.Chain
import TreeLint.Marker
import TreeLint.Proofs.Boundaries

namespace TreeLint

open Cells (ofChars)

namespace Marker

/-- The mark before a marked place and the one behind it. -/
inductive Mark where
  | opening
  | closing
deriving DecidableEq, Repr

/-- How a mark is written. -/
def Mark.chars : Mark → List Char
  | .opening => ['[', '|']
  | .closing => ['|', ']']

/-- A mark and the byte offset at which it stands. -/
structure Token where
  mark : Mark
  offset : Nat
deriving DecidableEq, Repr

/-- How many bytes characters take. -/
def width (cs : List Char) : Nat := (String.ofList cs).utf8ByteSize

theorem length_ofChars (cs : List Char) : (ofChars cs).length = width cs := Cells.length_ofChars cs

@[simp] theorem width_nil : width [] = 0 := rfl

@[simp] theorem width_append (a b : List Char) : width (a ++ b) = width a + width b := by
  rw [width, String.ofList_append, String.utf8ByteSize_append, width, width]

@[simp] theorem width_cons (c : Char) (cs : List Char) : width (c :: cs) = c.utf8Size + width cs := by
  rw [← length_ofChars, Cells.ofChars_cons, List.length_append, Cells.length_ofChar, length_ofChars]

theorem Mark.width_chars (m : Mark) : width m.chars = 2 := by
  cases m <;> decide

/-! ### Reading from left to right -/

/-- The mark stands in the text, at its offset. -/
def Token.StandsIn (t : Token) (text : List Char) : Prop :=
  ∃ before after, text = before ++ (t.mark.chars ++ after) ∧ t.offset = width before

/-- Read from offset `pos` on, the text meets the marks of the list: the next one is the first that
stands there, and reading goes on behind it. -/
inductive Meets (text : List Char) : Nat → List Token → Prop
  | done {pos : Nat} : (∀ t : Token, t.StandsIn text → t.offset < pos) → Meets text pos []
  | next {pos : Nat} {t : Token} {ts : List Token} : t.StandsIn text → pos ≤ t.offset →
      (∀ u : Token, u.StandsIn text → pos ≤ u.offset → t.offset ≤ u.offset) →
      Meets text (t.offset + 2) ts → Meets text pos (t :: ts)

/-- The marks of a text whose first byte has offset `pos`. -/
def tokensFrom (pos : Nat) : List Char → List Token
  | '[' :: '|' :: cs => ⟨.opening, pos⟩ :: tokensFrom (pos + 2) cs
  | '|' :: ']' :: cs => ⟨.closing, pos⟩ :: tokensFrom (pos + 2) cs
  | c :: cs => tokensFrom (pos + c.utf8Size) cs
  | [] => []

/-- The marks that a text meets. -/
def tokens (s : String) : List Token := tokensFrom 0 s.toList

/-- Fronts of one text that take the same number of bytes are the same. -/
theorem eq_of_append_eq_of_width : ∀ {a b after after' : List Char},
    a ++ after = b ++ after' → width a = width b → a = b ∧ after = after'
  | [], [], _, _, h, _ => ⟨rfl, h⟩
  | [], c :: b, _, _, _, hw => by
    have := c.utf8Size_pos
    simp at hw
    omega
  | c :: a, [], _, _, _, hw => by
    have := c.utf8Size_pos
    simp at hw
    omega
  | c :: a, d :: b, _, _, h, hw => by
    rw [List.cons_append, List.cons_append, List.cons.injEq] at h
    obtain ⟨rfl, h⟩ := h
    rw [width_cons, width_cons] at hw
    obtain ⟨rfl, rfl⟩ := eq_of_append_eq_of_width h (by omega)
    exact ⟨rfl, rfl⟩

/-- At one offset stands one mark at most. -/
theorem Token.StandsIn.eq_of_offset_eq {t u : Token} {text : List Char} (ht : t.StandsIn text)
    (hu : u.StandsIn text) (h : t.offset = u.offset) : t = u := by
  obtain ⟨before, after, rfl, hoffset⟩ := ht
  obtain ⟨before', after', htext, hoffset'⟩ := hu
  obtain ⟨-, hmarks⟩ := eq_of_append_eq_of_width htext (by omega)
  obtain ⟨m, i⟩ := t
  obtain ⟨m', j⟩ := u
  simp only at h
  subst h
  cases m <;> cases m' <;> simp_all [Mark.chars]

/-- What a text meets is determined. -/
theorem Meets.unique {text : List Char} {pos : Nat} {ts us : List Token} (h : Meets text pos ts)
    (h' : Meets text pos us) : ts = us := by
  induction h generalizing us with
  | done hnone =>
    cases h' with
    | done => rfl
    | next hu hle _ _ => exact absurd (hnone _ hu) (by omega)
  | next ht hle hfirst _ ih =>
    cases h' with
    | done hnone => exact absurd (hnone _ ht) (by omega)
    | next hu hle' hfirst' hlater =>
      have hsame := ht.eq_of_offset_eq hu
        (Nat.le_antisymm (hfirst _ hu hle') (hfirst' _ ht hle))
      subst hsame
      rw [ih hlater]

/-- No mark stands at the front of the characters. -/
def NoMarkAhead (cs : List Char) : Prop := ∀ m : Mark, ¬ m.chars <+: cs

/-- A mark that stands behind `before` is at the front of the rest, or stands behind the first
character of the rest. -/
theorem Token.StandsIn.front_or_le {t : Token} {before cs : List Char} {c : Char}
    (h : t.StandsIn (before ++ c :: cs)) (hle : width before ≤ t.offset) :
    (t.offset = width before ∧ t.mark.chars <+: c :: cs) ∨
      width before + c.utf8Size ≤ t.offset := by
  obtain ⟨before', after, htext, hoffset⟩ := h
  rcases List.append_eq_append_iff.mp htext with ⟨mid, rfl, hrest⟩ | ⟨mid, rfl, hrest⟩
  · cases mid with
    | nil =>
      refine Or.inl ⟨by simpa using hoffset, after, ?_⟩
      rw [hrest, List.nil_append]
    | cons d mid =>
      rw [List.cons_append, List.cons.injEq] at hrest
      obtain ⟨rfl, -⟩ := hrest
      refine Or.inr ?_
      rw [hoffset, width_append, width_cons]
      omega
  · -- the mark would start before its own offset
    rw [width_append] at hle
    have hmid : mid = [] := by
      cases mid with
      | nil => rfl
      | cons d mid =>
        have := d.utf8Size_pos
        rw [width_cons] at hle
        omega
    subst hmid
    rw [List.nil_append] at hrest
    refine Or.inl ⟨by simpa using hoffset, after, hrest⟩

/-- Reading goes on behind a character at which no mark stands. -/
theorem Meets.skip {before cs : List Char} {c : Char} {ts : List Token} (hc : NoMarkAhead (c :: cs))
    (h : Meets (before ++ c :: cs) (width before + c.utf8Size) ts) :
    Meets (before ++ c :: cs) (width before) ts := by
  have hbehind : ∀ t : Token, t.StandsIn (before ++ c :: cs) → width before ≤ t.offset →
      width before + c.utf8Size ≤ t.offset := fun t ht hle =>
    (ht.front_or_le hle).resolve_left fun hfront => hc _ hfront.2
  generalize hpos : width before + c.utf8Size = pos at h hbehind
  cases h with
  | done hnone =>
    refine .done fun t ht => ?_
    by_contra hle
    have := hbehind t ht (by omega)
    have := hnone t ht
    omega
  | next ht hle hfirst hlater =>
    exact .next ht (by omega) (fun u hu hule => hfirst u hu (hbehind u hu hule)) hlater

theorem Meets.mark {m : Mark} {before cs : List Char} {ts : List Token}
    (h : Meets (before ++ (m.chars ++ cs)) (width before + 2) ts) :
    Meets (before ++ (m.chars ++ cs)) (width before) (⟨m, width before⟩ :: ts) :=
  .next ⟨before, cs, rfl, rfl⟩ (Nat.le_refl _) (fun _ _ hle => hle) h

theorem noMarkAhead_of_no_match {c : Char} {cs : List Char}
    (hopening : ∀ cs', c = '[' → cs = '|' :: cs' → False)
    (hclosing : ∀ cs', c = '|' → cs = ']' :: cs' → False) : NoMarkAhead (c :: cs) := by
  rintro m ⟨after, h⟩
  cases m with
  | opening =>
    rw [Mark.chars, List.cons_append, List.cons.injEq] at h
    exact hopening after h.1.symm h.2.symm
  | closing =>
    rw [Mark.chars, List.cons_append, List.cons.injEq] at h
    exact hclosing after h.1.symm h.2.symm

theorem tokensFrom_cons {c : Char} {cs : List Char} (h : NoMarkAhead (c :: cs)) (pos : Nat) :
    tokensFrom pos (c :: cs) = tokensFrom (pos + c.utf8Size) cs := by
  rw [tokensFrom]
  · rintro cs' rfl rfl
    exact h .opening ⟨cs', rfl⟩
  · rintro cs' rfl rfl
    exact h .closing ⟨cs', rfl⟩

/-- The listed marks are those that the text meets. -/
theorem meets_tokensFrom (cs before : List Char) :
    Meets (before ++ cs) (width before) (tokensFrom (width before) cs) := by
  generalize hpos : width before = pos
  induction pos, cs using tokensFrom.induct generalizing before with
  | case1 pos cs ih =>
    subst hpos
    have hlater := ih (before ++ Mark.opening.chars) (by rw [width_append, Mark.width_chars])
    rw [List.append_assoc] at hlater
    rw [tokensFrom]
    exact hlater.mark
  | case2 pos cs ih =>
    subst hpos
    have hlater := ih (before ++ Mark.closing.chars) (by rw [width_append, Mark.width_chars])
    rw [List.append_assoc] at hlater
    rw [tokensFrom]
    exact hlater.mark
  | case3 pos c cs hopening hclosing ih =>
    subst hpos
    have hlater := ih (before ++ [c]) (by simp)
    rw [List.append_assoc, List.singleton_append] at hlater
    have hfront := noMarkAhead_of_no_match hopening hclosing
    rw [tokensFrom_cons hfront]
    exact hlater.skip hfront
  | case4 pos =>
    subst hpos
    refine .done fun t ht => ?_
    obtain ⟨before', after, htext, hoffset⟩ := ht
    rw [List.append_nil] at htext
    rw [htext, width_append, width_append, Mark.width_chars, hoffset]
    omega

/-- **The marks that a text meets are those that are listed.** -/
theorem meets_iff {s : String} {ts : List Token} : Meets s.toList 0 ts ↔ ts = tokens s := by
  have hmeets : Meets s.toList 0 (tokens s) := meets_tokensFrom s.toList []
  constructor
  · exact fun h => h.unique hmeets
  · rintro rfl
    exact hmeets

/-! ### Alternating marks -/

/-- The marks alternate, from an opening to a closing one. -/
structure Alternate (ts : List Token) : Prop where
  chain : ts.IsChain (·.mark ≠ ·.mark)
  first : ∀ t ∈ ts.head?, t.mark = .opening
  last : ∀ t ∈ ts.getLast?, t.mark = .closing

theorem alternate_nil : Alternate [] := ⟨.nil, by simp, by simp⟩

theorem Mark.ne_opening_iff {m : Mark} : .closing ≠ m ↔ m = .opening := by
  cases m <;> decide

theorem Mark.ne_closing_iff {m : Mark} : .opening ≠ m ↔ m = .closing := by
  cases m <;> decide

/-- Alternating marks are pairs of an opening and a closing one. -/
theorem alternate_cons_cons {t u : Token} {ts : List Token} :
    Alternate (t :: u :: ts) ↔ t.mark = .opening ∧ u.mark = .closing ∧ Alternate ts := by
  constructor
  · rintro ⟨hchain, hfirst, hlast⟩
    have ht : t.mark = .opening := hfirst t rfl
    rw [List.isChain_cons_cons, ht, Mark.ne_closing_iff] at hchain
    obtain ⟨hu, hchain⟩ := hchain
    rw [List.isChain_cons, hu] at hchain
    refine ⟨ht, hu, hchain.2, fun v hv => Mark.ne_opening_iff.mp (hchain.1 v hv), fun v hv => ?_⟩
    cases ts with
    | nil => cases hv
    | cons w ts => exact hlast v hv
  · rintro ⟨ht, hu, hchain, hfirst, hlast⟩
    refine ⟨?_, ?_, fun v hv => ?_⟩
    · rw [List.isChain_cons_cons, List.isChain_cons, ht, hu]
      exact ⟨by decide, fun v hv => Mark.ne_opening_iff.mpr (hfirst v hv), hchain⟩
    · rintro _ ⟨⟩
      exact ht
    · cases ts with
      | nil =>
        cases hv
        exact hu
      | cons w ts => exact hlast v hv

/-- What breaks the order of the marks, read with an opening mark at some offset or none. -/
def violation? : Option Nat → List Token → Option MarkerError
  | none, [] => none
  | some p, [] => some (.unclosed p)
  | none, ⟨.opening, p⟩ :: ts => violation? (some p) ts
  | some _, ⟨.opening, p⟩ :: _ => some (.nested p)
  | some _, ⟨.closing, _⟩ :: ts => violation? none ts
  | none, ⟨.closing, p⟩ :: _ => some (.unopened p)

/-- Marks that alternate leave it to what follows them. -/
theorem violation?_append : ∀ {ts : List Token}, Alternate ts → ∀ us : List Token,
    violation? none (ts ++ us) = violation? none us
  | [], _, _ => rfl
  | [⟨.opening, _⟩], h, _ => nomatch h.last _ rfl
  | [⟨.closing, _⟩], h, _ => nomatch h.first _ rfl
  | ⟨m, i⟩ :: ⟨m', j⟩ :: ts, h, us => by
    obtain ⟨rfl, rfl, hts⟩ := alternate_cons_cons.mp h
    exact violation?_append hts us

/-- **The marks of a text start with alternating ones.** Behind these they are at an end, or an
opening mark is followed by another one, or a closing mark comes, or an opening mark is the last. -/
theorem exists_alternate_append : ∀ ts : List Token, ∃ front rest, ts = front ++ rest ∧
    Alternate front ∧
      (rest = [] ∨ (∃ q p later, rest = ⟨.opening, q⟩ :: ⟨.opening, p⟩ :: later) ∨
        (∃ p later, rest = ⟨.closing, p⟩ :: later) ∨ ∃ p, rest = [⟨.opening, p⟩])
  | [] => ⟨[], [], rfl, alternate_nil, Or.inl rfl⟩
  | ⟨.closing, p⟩ :: ts =>
    ⟨[], _, rfl, alternate_nil, Or.inr (Or.inr (Or.inl ⟨p, ts, rfl⟩))⟩
  | [⟨.opening, p⟩] => ⟨[], _, rfl, alternate_nil, Or.inr (Or.inr (Or.inr ⟨p, rfl⟩))⟩
  | ⟨.opening, q⟩ :: ⟨.opening, p⟩ :: ts =>
    ⟨[], _, rfl, alternate_nil, Or.inr (Or.inl ⟨q, p, ts, rfl⟩)⟩
  | ⟨.opening, i⟩ :: ⟨.closing, j⟩ :: ts => by
    obtain ⟨front, rest, rfl, hfront, hrest⟩ := exists_alternate_append ts
    exact ⟨⟨.opening, i⟩ :: ⟨.closing, j⟩ :: front, rest, rfl,
      alternate_cons_cons.mpr ⟨rfl, rfl, hfront⟩, hrest⟩

section Violation

variable {ts : List Token} {e : MarkerError} {p : Nat}

theorem violation?_of_alternate (h : Alternate ts) : violation? none ts = none := by
  have hnil := violation?_append h []
  rwa [List.append_nil] at hnil

theorem violation?_eq_none_iff : violation? none ts = none ↔ Alternate ts := by
  refine ⟨fun h => ?_, violation?_of_alternate⟩
  obtain ⟨front, rest, rfl, hfront, hrest⟩ := exists_alternate_append ts
  rw [violation?_append hfront] at h
  rcases hrest with rfl | ⟨q, p, later, rfl⟩ | ⟨p, later, rfl⟩ | ⟨p, rfl⟩
  · rwa [List.append_nil]
  all_goals cases h

/-- **What breaks the order stands behind alternating marks.** -/
theorem exists_of_violation?_eq_some (h : violation? none ts = some e) : ∃ front rest,
    ts = front ++ rest ∧ Alternate front ∧
      ((∃ q p later, rest = ⟨.opening, q⟩ :: ⟨.opening, p⟩ :: later ∧ e = .nested p) ∨
        (∃ p later, rest = ⟨.closing, p⟩ :: later ∧ e = .unopened p) ∨
        ∃ p, rest = [⟨.opening, p⟩] ∧ e = .unclosed p) := by
  obtain ⟨front, rest, rfl, hfront, hrest⟩ := exists_alternate_append ts
  refine ⟨front, rest, rfl, hfront, ?_⟩
  rw [violation?_append hfront] at h
  rcases hrest with rfl | ⟨q, p, later, rfl⟩ | ⟨p, later, rfl⟩ | ⟨p, rfl⟩ <;> cases h
  · exact Or.inl ⟨q, p, later, rfl, rfl⟩
  · exact Or.inr (Or.inl ⟨p, later, rfl, rfl⟩)
  · exact Or.inr (Or.inr ⟨p, rfl, rfl⟩)

theorem violation?_eq_nested_iff : violation? none ts = some (.nested p) ↔
    ∃ front q later, ts = front ++ ⟨.opening, q⟩ :: ⟨.opening, p⟩ :: later ∧ Alternate front := by
  constructor
  · intro h
    obtain ⟨front, _, rfl, hfront, ⟨q, _, later, rfl, ⟨⟩⟩ | ⟨_, _, -, ⟨⟩⟩ | ⟨_, -, ⟨⟩⟩⟩ :=
      exists_of_violation?_eq_some h
    exact ⟨front, q, later, rfl, hfront⟩
  · rintro ⟨front, q, later, rfl, hfront⟩
    exact violation?_append hfront _

theorem violation?_eq_unopened_iff : violation? none ts = some (.unopened p) ↔
    ∃ front later, ts = front ++ ⟨.closing, p⟩ :: later ∧ Alternate front := by
  constructor
  · intro h
    obtain ⟨front, _, rfl, hfront, ⟨_, _, _, -, ⟨⟩⟩ | ⟨_, later, rfl, ⟨⟩⟩ | ⟨_, -, ⟨⟩⟩⟩ :=
      exists_of_violation?_eq_some h
    exact ⟨front, later, rfl, hfront⟩
  · rintro ⟨front, later, rfl, hfront⟩
    exact violation?_append hfront _

theorem violation?_eq_unclosed_iff : violation? none ts = some (.unclosed p) ↔
    ∃ front, ts = front ++ [⟨.opening, p⟩] ∧ Alternate front := by
  constructor
  · intro h
    obtain ⟨front, _, rfl, hfront, ⟨_, _, _, -, ⟨⟩⟩ | ⟨_, _, -, ⟨⟩⟩ | ⟨_, rfl, ⟨⟩⟩⟩ :=
      exists_of_violation?_eq_some h
    exact ⟨front, rfl, hfront⟩
  · rintro ⟨front, rfl, hfront⟩
    exact violation?_append hfront _

end Violation

/-! ### Reading character by character -/

section Read

variable {pos out : Nat} {opened : Option Opened}

/-- Puts bytes in front of what was read after them. -/
def keepAll (bytes : Cells) (r : Except MarkerError (Cells × List Extent)) :
    Except MarkerError (Cells × List Extent) := bytes.foldr keep r

theorem keepAll_ok (bytes cs : Cells) (rs : List Extent) :
    keepAll bytes (.ok (cs, rs)) = .ok (bytes ++ cs, rs) := by
  induction bytes with
  | nil => rfl
  | cons c bytes ih => rw [keepAll, List.foldr_cons, ← keepAll, ih, keep, List.cons_append]

theorem keepAll_error (bytes : Cells) (e : MarkerError) : keepAll bytes (.error e) = .error e := by
  induction bytes with
  | nil => rfl
  | cons c bytes ih => rw [keepAll, List.foldr_cons, ← keepAll, ih, keep]

theorem keepAll_append (a b : Cells) (r : Except MarkerError (Cells × List Extent)) :
    keepAll (a ++ b) r = keepAll a (keepAll b r) := List.foldr_append

/-- A byte is kept unless a mark stands there. -/
theorem readFrom_cons {c : Cell} {cs : Cells}
    (hopening : ¬ (c.char = '[' ∧ cs.head?.map (·.char) = some '|'))
    (hclosing : ¬ (c.char = '|' ∧ cs.head?.map (·.char) = some ']')) :
    readFrom pos out opened (c :: cs) = keep c (readFrom (pos + 1) (out + 1) opened cs) := by
  cases cs with
  | nil => rfl
  | cons d cs =>
    simp only [List.head?_cons, Option.map_some, Option.some.injEq] at hopening hclosing
    exact (if_neg hopening).trans (if_neg hclosing)

/-- The bytes of a character that is in no mark's place are kept. -/
theorem readFrom_append {c : Char} (hopening : c ≠ '[') (hclosing : c ≠ '|') (cs : Cells) :
    ∀ {bytes : Cells}, (∀ x ∈ bytes, x.char = c) → ∀ {pos out : Nat},
      readFrom pos out opened (bytes ++ cs) =
        keepAll bytes (readFrom (pos + bytes.length) (out + bytes.length) opened cs)
  | [], _, _, _ => rfl
  | x :: bytes, h, pos, out => by
    rw [List.forall_mem_cons] at h
    rw [List.cons_append, readFrom_cons (by rw [h.1]; tauto) (by rw [h.1]; tauto),
      readFrom_append hopening hclosing cs h.2, keepAll, keepAll, List.foldr_cons,
      List.length_cons, Nat.add_right_comm pos, Nat.add_right_comm out]
    rfl

/-- **A character at which no mark stands is kept.** -/
theorem readFrom_ofChars_cons {c : Char} {cs : List Char} (h : NoMarkAhead (c :: cs)) :
    readFrom pos out opened (ofChars (c :: cs)) =
      keepAll (Cell.ofChar c)
        (readFrom (pos + c.utf8Size) (out + c.utf8Size) opened (ofChars cs)) := by
  rw [Cells.ofChars_cons]
  by_cases hsize : 1 < c.utf8Size
  · -- a mark has ASCII characters only
    have hne : ∀ x : Char, x.utf8Size = 1 → c ≠ x := by
      rintro x hx rfl
      omega
    have hchar : ∀ x ∈ Cell.ofChar c, x.char = c := by
      intro x hx
      rw [Cell.ofChar, List.mem_cons, List.mem_replicate] at hx
      rcases hx with rfl | ⟨-, rfl⟩ <;> rfl
    rw [readFrom_append (hne '[' rfl) (hne '|' rfl) _ hchar, Cells.length_ofChar]
  · have hone : Cell.ofChar c = [⟨c, true⟩] := by
      rw [Cell.ofChar, show c.utf8Size - 1 = 0 by omega]
      rfl
    have hhead : (ofChars cs).head?.map (·.char) = cs.head? := by
      cases cs <;> simp [ofChars, Cell.ofChar]
    have hfront : ∀ m : Mark, ∀ d, m.chars = [c, d] → cs.head? ≠ some d := by
      intro m d hm hd
      obtain ⟨rest, rfl⟩ := List.head?_eq_some_iff.mp hd
      exact h m ⟨rest, by rw [hm]; rfl⟩
    have hpos := c.utf8Size_pos
    rw [hone, List.singleton_append, readFrom_cons, show c.utf8Size = 1 by omega]
    · rfl
    · rintro ⟨rfl, hnext⟩
      exact hfront .opening _ rfl (hhead ▸ hnext)
    · rintro ⟨rfl, hnext⟩
      exact hfront .closing _ rfl (hhead ▸ hnext)

theorem readFrom_opening (cs : List Char) :
    readFrom pos out none (ofChars (Mark.opening.chars ++ cs)) =
      readFrom (pos + 2) out (some ⟨out, pos⟩) (ofChars cs) := rfl

theorem readFrom_closing (o : Opened) (cs : List Char) :
    readFrom pos out (some o) (ofChars (Mark.closing.chars ++ cs)) =
      mark ⟨o.start, out⟩ (readFrom (pos + 2) out none (ofChars cs)) := rfl

theorem keepAll_eq_error_iff {bytes : Cells} {r : Except MarkerError (Cells × List Extent)}
    {e : MarkerError} : keepAll bytes r = .error e ↔ r = .error e := by
  cases r with
  | error e' => rw [keepAll_error]
  | ok r => simp [keepAll_ok bytes r.1 r.2]

theorem mark_eq_error_iff {x : Extent} {r : Except MarkerError (Cells × List Extent)}
    {e : MarkerError} : mark x r = .error e ↔ r = .error e := by
  cases r <;> simp [mark]

end Read

/-- **What breaks the order of the marks is the error of the text.** -/
theorem readFrom_eq_error_iff {pos out : Nat} {opened : Option Opened} {cs : List Char}
    {e : MarkerError} : readFrom pos out opened (ofChars cs) = .error e ↔
      violation? (opened.map (·.offset)) (tokensFrom pos cs) = some e := by
  induction pos, cs using tokensFrom.induct generalizing out opened with
  | case1 pos cs ih =>
    rw [tokensFrom]
    cases opened with
    | none =>
      rw [show '[' :: '|' :: cs = Mark.opening.chars ++ cs from rfl, readFrom_opening]
      exact ih
    | some o =>
      change Except.error (MarkerError.nested pos) = _ ↔ some (MarkerError.nested pos) = _
      simp
  | case2 pos cs ih =>
    rw [tokensFrom]
    cases opened with
    | none =>
      change Except.error (MarkerError.unopened pos) = _ ↔ some (MarkerError.unopened pos) = _
      simp
    | some o =>
      rw [show '|' :: ']' :: cs = Mark.closing.chars ++ cs from rfl, readFrom_closing,
        mark_eq_error_iff]
      exact ih
  | case3 pos c cs hopening hclosing ih =>
    have hfront := noMarkAhead_of_no_match hopening hclosing
    rw [tokensFrom_cons hfront, readFrom_ofChars_cons hfront, keepAll_eq_error_iff]
    exact ih
  | case4 pos =>
    cases opened with
    | none => exact iff_of_false nofun nofun
    | some o =>
      change Except.error (MarkerError.unclosed o.offset) = _ ↔
        some (MarkerError.unclosed o.offset) = _
      simp

end Marker

namespace MarkedSource

theorem ofString_eq_error_iff {s : String} {e : MarkerError} :
    ofString s = .error e ↔ Marker.violation? none (Marker.tokens s) = some e := by
  have h := @Marker.readFrom_eq_error_iff 0 0 none s.toList e
  rw [Option.map_none] at h
  rw [Marker.tokens, ← h, ofString, Cells.ofString]
  cases Marker.readFrom 0 0 none (ofChars s.toList) <;> simp

theorem exists_ofString_eq_ok_iff {s : String} :
    (∃ m, ofString s = .ok m) ↔ Marker.Alternate (Marker.tokens s) := by
  rw [← Marker.violation?_eq_none_iff, Option.eq_none_iff_forall_ne_some]
  simp only [ne_eq, ← ofString_eq_error_iff]
  cases ofString s <;> simp

/-- **The errors of marks are exact.** Every text meets one list of marks when it is read from left
to right. It can be read if these alternate, from an opening to a closing one. If not, then the error
is that of the first mark that breaks the order: an opening mark behind alternating marks and one
opening mark is nested, a closing mark behind alternating marks is unopened, and an opening mark
behind alternating marks is unclosed if no other mark follows. Each is named with its offset in the
marked text. -/
theorem errors_exact (s : String) :
    (∀ ts, Marker.Meets s.toList 0 ts ↔ ts = Marker.tokens s) ∧
    ((∃ m, ofString s = .ok m) ↔ Marker.Alternate (Marker.tokens s)) ∧
    (∀ p, ofString s = .error (.nested p) ↔ ∃ front q later,
      Marker.tokens s = front ++ ⟨.opening, q⟩ :: ⟨.opening, p⟩ :: later ∧
        Marker.Alternate front) ∧
    (∀ p, ofString s = .error (.unopened p) ↔ ∃ front later,
      Marker.tokens s = front ++ ⟨.closing, p⟩ :: later ∧ Marker.Alternate front) ∧
    ∀ p, ofString s = .error (.unclosed p) ↔ ∃ front,
      Marker.tokens s = front ++ [⟨.opening, p⟩] ∧ Marker.Alternate front := by
  simp only [ofString_eq_error_iff]
  exact ⟨fun ts => Marker.meets_iff, exists_ofString_eq_ok_iff,
    fun p => Marker.violation?_eq_nested_iff, fun p => Marker.violation?_eq_unopened_iff,
    fun p => Marker.violation?_eq_unclosed_iff⟩

/-- The second bracket is no part of a mark, as the first mark has the bar; then a mark opens in an
open one, at an offset that counts the two bytes of the letter. -/
example : ofString "[|]é[|" = .error (.nested 5) := by decide

end MarkedSource
end TreeLint
