/-
# Patterns in a text with lines put in

A pattern that is tried at a place and at the place to which it is pushed finds
the same, at pushed places. Every step of a pattern goes on from such a pair of
places to another one (`Cursor.Widens`): a mark and a word hold no line feed, and
where blanks are passed over, the blanks of a line put in are passed over with
them. Since no pattern matches at a blank, a search finds its matches one by one
at the pushed places (`Pattern.Widens.all`).

Key definitions: `Cursor.Widens`, `Cursor.WidensWith`, `Pattern.Widens`, `Found.map`.
Key theorems: `Cursor.Widens.skipWhile`, `Cursor.Widens.word?`,
`Cursor.Widens.name?`, `Pattern.Widens.all`.
-/
import TreeLint.Proofs.Widens
import TreeLint.Proofs.Words

namespace TreeLint

open Cells (lastOr)

/-! ### Answers that agree -/

section Rel

variable {α β γ δ : Type} {R : α → β → Prop} {S : γ → δ → Prop}

theorem rel_bind {a : Option α} {b : Option β} {f : α → Option γ} {g : β → Option δ}
    (h : Option.Rel R a b) (hfg : ∀ x y, R x y → Option.Rel S (f x) (g y)) :
    Option.Rel S (a.bind f) (b.bind g) := by
  cases h with
  | some h => exact hfg _ _ h
  | none => exact .none

theorem rel_map {a : Option α} {b : Option β} {f : α → γ} {g : β → δ} (h : Option.Rel R a b)
    (hfg : ∀ x y, R x y → S (f x) (g y)) : Option.Rel S (a.map f) (b.map g) := by
  cases h with
  | some h => exact .some (hfg _ _ h)
  | none => exact .none

theorem eq_map_of_rel {f : α → β} {a : Option α} {b : Option β}
    (h : Option.Rel (fun x y => y = f x) a b) : b = a.map f := by
  cases h with
  | some h => exact congrArg some h
  | none => rfl

theorem rel_getD {a : Option α} {b : Option β} (h : Option.Rel R a b) {x : α} {y : β}
    (hxy : R x y) : R (a.getD x) (b.getD y) := by
  cases h with
  | some h => exact h
  | none => exact hxy

theorem rel_or {a a' : Option α} {b b' : Option β} (h : Option.Rel R a b)
    (h' : Option.Rel R a' b') : Option.Rel R (a.or a') (b.or b') := by
  cases h with
  | some h => exact .some h
  | none => exact h'

theorem rel_findSome? {ι : Type} {l : List ι} {f : ι → Option α} {g : ι → Option β}
    (h : ∀ i ∈ l, Option.Rel R (f i) (g i)) : Option.Rel R (l.findSome? f) (l.findSome? g) := by
  induction l with
  | nil => exact .none
  | cons i l ih =>
    rw [List.findSome?_cons, List.findSome?_cons]
    have hi := h i List.mem_cons_self
    generalize f i = a, g i = b at hi
    cases hi with
    | some hi => exact .some hi
    | none => exact ih fun j hj => h j (List.mem_cons_of_mem i hj)

/-- What is known of the first answer comes with what relates it to the second. -/
theorem rel_and {P : α → Prop} {a : Option α} {b : Option β} (h : Option.Rel R a b)
    (hP : ∀ x, a = some x → P x) : Option.Rel (fun x y => P x ∧ R x y) a b := by
  cases h with
  | some h => exact .some ⟨hP _ rfl, h⟩
  | none => exact .none

end Rel

theorem Cell.not_isWord_of_isBlank {x : Cell} (h : x.isBlank = true) : x.isWord = false := by
  by_contra hword
  rw [Bool.not_eq_false] at hword
  rw [isBlank, CharClass.isBlank_of_isWord hword] at h
  cases h

namespace Cursor

/-- The second place is the one to which the first is pushed, with the same kind of byte before it. -/
structure Widens (push : Nat → Nat) (c d : Cursor) : Prop where
  pos_eq : d.pos = push c.pos
  rest : Cells.Widens push c.pos c.rest d.rest
  before : d.before.any Cell.isWord = c.before.any Cell.isWord

/-- The second answer is the first one, with its value moved by `f` and its place pushed. -/
def WidensWith {α : Type} (push : Nat → Nat) (f : α → α) (a b : α × Cursor) : Prop :=
  b.1 = f a.1 ∧ Widens push a.2 b.2

variable {push : Nat → Nat} {c d : Cursor}

/-! ### Going on -/

theorem Widens.head? (h : Widens push c d) : d.rest.head? = c.rest.head? := h.rest.spreads.head?

theorem Widens.atWordEdge (h : Widens push c d) : d.atWordEdge = c.atWordEdge := by
  rw [Cursor.atWordEdge, Cursor.atWordEdge, h.before, h.head?]

/-- One byte on, unless it is a line feed. -/
theorem Widens.next {before before' : Option Cell} {pos pos' : Nat} {x : Cell} {cs ds : Cells}
    (h : Widens push ⟨before, pos, x :: cs⟩ ⟨before', pos', ds⟩) (hx : x ≠ Cell.feed) :
    ∃ ds', ds = x :: ds' ∧ Widens push ⟨some x, pos + 1, cs⟩ ⟨some x, pos' + 1, ds'⟩ := by
  obtain ⟨hpos, hrest, -⟩ := h
  simp only at hpos hrest
  cases hrest with
  | cons _ hpush h => exact ⟨_, rfl, by rw [hpos, ← hpush], h, rfl⟩
  | feed => exact absurd rfl hx

theorem Widens.advance {n : Nat} (h : Widens push c d)
    (hn : ∀ j < n, ∃ x, c.rest[j]? = some x ∧ x ≠ Cell.feed) :
    Widens push (c.advance n) (d.advance n) := by
  induction n generalizing c d with
  | zero => exact h
  | succ n ih =>
    obtain ⟨before, pos, rest⟩ := c
    obtain ⟨before', pos', rest'⟩ := d
    obtain ⟨x, hx, hne⟩ := hn 0 (Nat.succ_pos n)
    cases rest with
    | nil => cases hx
    | cons y rest =>
      cases hx
      obtain ⟨ds, rfl, hnext⟩ := h.next hne
      refine ih hnext fun j hj => ?_
      obtain ⟨x, hx, hne⟩ := hn (j + 1) (Nat.succ_lt_succ hj)
      exact ⟨x, by simpa using hx, hne⟩

theorem skipWhile_cons (p : Cell → Bool) (before : Option Cell) (pos : Nat) (x : Cell) (xs : Cells) :
    (Cursor.mk before pos (x :: xs)).skipWhile p =
      if p x then (Cursor.mk (some x) (pos + 1) xs).skipWhile p else ⟨before, pos, x :: xs⟩ := by
  unfold Cursor.skipWhile
  by_cases hx : p x = true
  · rw [if_pos hx, List.takeWhile_cons_of_pos hx]
    rfl
  · rw [if_neg hx, List.takeWhile_cons_of_neg hx]
    rfl

theorem skipWhile_front {p : Cell → Bool} {front : Cells} (hfront : ∀ x ∈ front, p x = true)
    (before : Option Cell) (pos : Nat) (rest : Cells) :
    (Cursor.mk before pos (front ++ rest)).skipWhile p =
      (Cursor.mk (lastOr before front) (pos + front.length) rest).skipWhile p := by
  induction front generalizing before pos with
  | nil => rfl
  | cons x front ih =>
    rw [List.cons_append, skipWhile_cons, if_pos (hfront x List.mem_cons_self),
      ih fun y hy => hfront y (List.mem_cons_of_mem x hy), List.length_cons, Nat.add_assoc,
      Nat.add_comm 1]
    rfl

/-- Behind a line put in stands no word, as behind its line feed. -/
theorem not_isWord_lastOr_line {line : Cells} (hline : ∀ x ∈ line, x.isBlank = true) :
    (lastOr (some Cell.feed) line).any Cell.isWord = false :=
  Cells.any_lastOr (fun _ => rfl) fun x hx => Cell.not_isWord_of_isBlank (hline x hx)

/-- **Passing over bytes.** If line feeds are passed over, so are the lines put in. -/
theorem Widens.skipWhile {p : Cell → Bool} (h : Widens push c d)
    (hp : p Cell.feed = true → ∀ x : Cell, x.isBlank = true → p x = true) :
    Widens push (c.skipWhile p) (d.skipWhile p) := by
  obtain ⟨before, pos, rest⟩ := c
  obtain ⟨before', pos', rest'⟩ := d
  obtain ⟨hpos, hrest, hbefore⟩ := h
  simp only at hpos hrest hbefore
  subst hpos
  induction hrest generalizing before before' with
  | nil => exact ⟨rfl, .nil, hbefore⟩
  | cons x hpush h ih =>
    rw [skipWhile_cons, skipWhile_cons]
    split
    · rw [← hpush]
      exact ih _ _ rfl
    · exact ⟨rfl, .cons x hpush h, hbefore⟩
  | feed hline hpush h ih =>
    rw [skipWhile_cons, skipWhile_cons]
    split
    · rename_i hfeed
      rw [skipWhile_front fun x hx => hp hfeed x (hline x hx), ← hpush]
      exact ih _ _ (not_isWord_lastOr_line hline)
    · exact ⟨rfl, .feed hline hpush h, hbefore⟩

theorem Widens.blanks (h : Widens push c d) : Widens push c.blanks d.blanks :=
  h.skipWhile fun _ _ hx => hx

theorem Widens.some? {p : Cell → Bool} (h : Widens push c d)
    (hp : p Cell.feed = true → ∀ x : Cell, x.isBlank = true → p x = true) :
    Option.Rel (Widens push) (c.some? p) (d.some? p) := by
  unfold Cursor.some?
  rw [h.head?]
  split
  · exact .some (h.skipWhile hp)
  · exact .none

theorem Widens.blanks? (h : Widens push c d) : Option.Rel (Widens push) c.blanks? d.blanks? :=
  h.some? fun _ _ hx => hx

theorem Widens.mark? {x : Char} (h : Widens push c d) (hx : CharClass.isBlank x = false) :
    Option.Rel (Widens push) (c.mark? x) (d.mark? x) := by
  unfold Cursor.mark?
  rw [h.head?]
  split
  · rename_i hhead
    refine .some (h.advance fun j hj => ?_)
    obtain rfl : j = 0 := by omega
    cases hrest : c.rest with
    | nil => simp [hrest] at hhead
    | cons y ys =>
      refine ⟨y, rfl, ?_⟩
      rintro rfl
      have hchar : '\n' = x := by simpa [hrest, Cell.feed] using hhead
      subst hchar
      cases hx
  · exact .none

/-! ### Names -/

theorem Widens.quoted? (h : Widens push c d) : Option.Rel (Widens push) c.quoted? d.quoted? := by
  have hquoted : ∀ c : Cursor, c.quoted? =
      (c.mark? '"').bind fun d => (d.skipWhile fun x => x.char != '"').mark? '"' := by
    intro c
    rw [Cursor.quoted?]
    split <;> rename_i h <;> rw [h] <;> rfl
  rw [hquoted, hquoted]
  refine rel_bind (h.mark? rfl) fun c d h => (h.skipWhile fun _ x hx => ?_).mark? rfl
  rw [bne_iff_ne]
  rintro hquote
  rw [Cell.isBlank, hquote] at hx
  cases hx

theorem Widens.plain? {letter : Char → Bool} (h : Widens push c d) :
    Option.Rel (Widens push) (c.plain? letter) (d.plain? letter) := by
  unfold Cursor.plain?
  rw [h.head?]
  split
  · exact .some (h.skipWhile nofun)
  · exact .none

theorem Widens.name? (letter : Char → Bool) (h : Widens push c d) :
    Option.Rel (WidensWith push (Extent.map push)) (c.name? letter) (d.name? letter) := by
  have hname : ∀ c : Cursor, c.name? letter =
      ((c.quoted?).or (c.plain? letter)).bind fun d => some (c.upTo d, d) := by
    intro c
    rw [Cursor.name?]
    split <;> rename_i h <;> rw [h] <;> rfl
  rw [hname, hname]
  refine rel_bind (rel_or h.quoted? h.plain?) fun c' d' h' => .some ⟨?_, h'⟩
  rw [upTo, upTo, h.pos_eq, h'.pos_eq]
  rfl

/-! ### Words -/

section Words

variable {cs : Cells} {stop : Nat} (hcs : cs.Whole) (hstop : cs.isBoundary stop = true)
include hcs hstop

/-- **A word stands on one line.** -/
theorem Widens.word? {w : List Char} (hw : ∀ k ∈ w, 'a' ≤ k ∧ k ≤ 'z') (hc : c.Stands cs stop)
    (h : Widens push c d) :
    Option.Rel (fun c d => c.Stands cs stop ∧ Widens push c d) (c.word? w) (d.word? w) := by
  induction w generalizing c d with
  | nil => exact .some ⟨hc, h⟩
  | cons k w ih =>
    have hhead := h.head?
    rw [Cursor.word?.eq_def, Cursor.word?.eq_def]
    simp only
    cases hrest : c.rest with
    | nil =>
      rw [hrest, List.head?_nil, List.head?_eq_none_iff] at hhead
      rw [hhead]
      exact .none
    | cons x xs =>
      obtain ⟨ys, hys⟩ : ∃ ys, d.rest = x :: ys := by
        rw [hrest, List.head?_cons, List.head?_eq_some_iff] at hhead
        exact hhead
      rw [hys]
      simp only
      split
      · rename_i hfolds
        obtain ⟨hstands, -, hsame, hle⟩ := hc.character hcs hstop hrest
        refine ih (fun k' hk' => hw k' (List.mem_cons_of_mem k hk')) hstands (h.advance fun j hj => ?_)
        obtain ⟨y, hy, hchar⟩ := hsame (c.pos + j) (by omega) (by omega)
        refine ⟨y, by rw [hc.getElem?_rest, if_pos (by omega), hy], ?_⟩
        rintro rfl
        have hword := CharClass.isWord_of_folds (hw k List.mem_cons_self) hfolds
        rw [← hchar] at hword
        exact absurd hword (by decide)
      · exact .none

theorem Widens.wholeWord? {w : List Char} (hw : ∀ k ∈ w, 'a' ≤ k ∧ k ≤ 'z') (hc : c.In cs stop)
    (h : Widens push c d) :
    Option.Rel (Widens push) (c.wholeWord? w) (d.wholeWord? w) := by
  have hwhole : ∀ c : Cursor, c.wholeWord? w = if c.atWordEdge then
      (c.word? w).bind fun d => if d.atWordEdge then some d else none else none := by
    intro c
    rw [Cursor.wholeWord?]
    split
    · split <;> rename_i h <;> rw [h] <;> rfl
    · rfl
  rw [hwhole, hwhole, h.atWordEdge]
  split
  · rename_i hedge
    have hstands : c.Stands cs stop := ⟨hc, hc.isBoundary_of_atWordEdge hcs hstop hedge⟩
    refine rel_bind (h.word? hcs hstop hw hstands) fun c' d' h' => ?_
    rw [h'.2.atWordEdge]
    split
    · exact .some h'.2
    · exact .none
  · exact .none

end Words

/-! ### Other places of the text -/

theorem advance_add (m n : Nat) (c : Cursor) : c.advance (m + n) = (c.advance m).advance n := by
  induction m generalizing c with
  | zero => rw [Nat.zero_add]; rfl
  | succ m ih =>
    obtain ⟨before, pos, rest⟩ := c
    rw [Nat.add_right_comm]
    cases rest with
    | nil => cases n <;> rfl
    | cons x rest => exact ih _

theorem Widens.advance_push (hmono : Monotone push) (h : Widens push c d) {n : Nat}
    (hn : n ≤ c.rest.length) :
    Widens push (c.advance n) (d.advance (push (c.pos + n) - push c.pos)) := by
  obtain ⟨before, pos, rest⟩ := c
  obtain ⟨before', pos', rest'⟩ := d
  obtain ⟨hpos, hrest, hbefore⟩ := h
  simp only at hpos hrest hbefore hn ⊢
  subst hpos
  induction hrest generalizing before before' n with
  | nil =>
    obtain rfl : n = 0 := by simpa using hn
    rw [Nat.add_zero, Nat.sub_self]
    exact ⟨rfl, .nil, hbefore⟩
  | @cons pos x cs ds hpush h ih =>
    cases n with
    | zero =>
      rw [Nat.add_zero, Nat.sub_self]
      exact ⟨rfl, .cons x hpush h, hbefore⟩
    | succ n =>
      have hle := hmono (Nat.le_add_right (pos + 1) n)
      have hnext := ih (some x) (by simpa using hn) (some x) rfl
      rwa [show pos + (n + 1) = pos + 1 + n by omega,
        show push (pos + 1 + n) - push pos = push (pos + 1 + n) - push (pos + 1) + 1 by omega,
        Cursor.advance, Cursor.advance, ← hpush]
  | @feed pos line cs ds hline hpush h ih =>
    cases n with
    | zero =>
      rw [Nat.add_zero, Nat.sub_self]
      exact ⟨rfl, .feed hline hpush h, hbefore⟩
    | succ n =>
      have hle := hmono (Nat.le_add_right (pos + 1) n)
      have hnext := ih (some Cell.feed) (by simpa using hn) _ (not_isWord_lastOr_line hline)
      rw [show pos + (n + 1) = pos + 1 + n by omega, show push (pos + 1 + n) - push pos =
        line.length + (push (pos + 1 + n) - push (pos + 1)) + 1 by omega]
      simp only [Cursor.advance]
      rwa [advance_add, advance_append, ← hpush]

theorem moveTo_eq_advance {target : Nat} (h : target - c.pos ≤ c.rest.length) :
    c.moveTo target = c.advance (target - c.pos) := by
  rw [advance_eq _ _ h, Cursor.moveTo]
  split
  · rename_i hzero
    rw [hzero]
    rfl
  · rename_i n hn
    rw [hn]
    rfl

theorem Widens.moveTo (hmono : Monotone push) (h : Widens push c d) (target : Nat)
    (hle : c.pos ≤ target) (htarget : target ≤ c.pos + c.rest.length) :
    Widens push (c.moveTo target) (d.moveTo (push target)) := by
  have hlength := h.rest.push_length
  have hpush := hmono htarget
  have hstep := h.advance_push hmono (n := target - c.pos) (by omega)
  rw [show c.pos + (target - c.pos) = target by omega] at hstep
  rw [moveTo_eq_advance (by omega), moveTo_eq_advance (by rw [h.pos_eq]; omega), h.pos_eq]
  exact hstep

theorem Widens.stopAt (hmono : Monotone push) (h : Widens push c d) {limit : Nat}
    (hle : c.pos ≤ limit) : Widens push (c.stopAt limit) (d.stopAt (push limit)) := by
  refine ⟨h.pos_eq, ?_, h.before⟩
  have htake := h.rest.take hmono (limit - c.pos)
  rw [show c.pos + (limit - c.pos) = limit by omega, ← h.pos_eq] at htake
  exact htake

end Cursor

/-! ### Searches -/

/-- What was found, at other places. -/
def Found.map {α : Type} (push : Nat → Nat) (f : α → α) (a : Found α) : Found α :=
  ⟨a.extent.map push, f a.value⟩

namespace Pattern

variable {α : Type} {p : Pattern α} {f : α → α} {push : Nat → Nat} {cs : Cells} {stop : Nat}

/-- At pushed places the pattern finds the same; `f` is what becomes of the value. -/
structure Widens (push : Nat → Nat) (cs : Cells) (stop : Nat) (p : Pattern α) (f : α → α) :
    Prop where
  found : ∀ c d, c.In cs stop → Cursor.Widens push c d →
    Option.Rel (Cursor.WidensWith push f) (p c) (p d)
  onWords : p.OnWords
  pos_lt : ∀ c a d, Cursor.In cs stop c → p c = some (a, d) → c.pos < d.pos

section Search

variable (hmono : StrictMono push) (hstop : stop ≤ cs.length)
include hmono hstop

theorem Widens.allFrom (hp : p.Widens push cs stop f) {before before' : Option Cell}
    {pos skip skip' : Nat} {rest rest' : Cells} (h : Cells.Widens push pos rest rest')
    (hin : Cursor.In cs stop ⟨before, pos, rest⟩)
    (hbefore : before'.any Cell.isWord = before.any Cell.isWord)
    (hskip : push pos + skip' = push (pos + skip)) :
    p.allFrom skip' before' (push pos) rest' = (p.allFrom skip before pos rest).map (Found.map push f) := by
  induction h generalizing before before' skip skip' with
  | nil => simp [Pattern.allFrom]
  | @cons pos x cs ds hpush h ih =>
    obtain ⟨-, hnext⟩ := hin.next hstop
    cases skip with
    | succ skip =>
      have hlt := hmono (show pos < pos + (skip + 1) by omega)
      obtain ⟨skip', rfl⟩ : ∃ k, skip' = k + 1 := ⟨skip' - 1, by omega⟩
      rw [Pattern.allFrom, Pattern.allFrom, ← hpush]
      refine ih hnext rfl ?_
      rw [show pos + 1 + skip = pos + (skip + 1) by omega, ← hskip]
      omega
    | zero =>
      obtain rfl : skip' = 0 := by simpa using hskip
      have hfound := hp.found ⟨before, pos, x :: cs⟩ ⟨before', push pos, x :: ds⟩ hin
        ⟨rfl, .cons x hpush h, hbefore⟩
      rw [Pattern.allFrom, Pattern.allFrom]
      cases hc : p ⟨before, pos, x :: cs⟩ with
      | none =>
        rw [hc] at hfound
        cases hd : p ⟨before', push pos, x :: ds⟩ with
        | none =>
          simp only
          rw [← hpush]
          exact ih hnext rfl rfl
        | some b => rw [hd] at hfound; cases hfound
      | some a =>
        rw [hc] at hfound
        cases hd : p ⟨before', push pos, x :: ds⟩ with
        | none => rw [hd] at hfound; cases hfound
        | some b =>
          rw [hd] at hfound
          cases hfound with
          | some hfound =>
            have hlt : pos + 1 ≤ a.2.pos := hp.pos_lt _ _ _ hin hc
            have hle := hmono.monotone hlt
            rw [Nat.add_zero] at hskip
            simp only [hfound.1, hfound.2.pos_eq, List.map_cons]
            rw [← hpush]
            refine congrArg _ (ih hnext rfl ?_)
            rw [show pos + 1 + (a.2.pos - pos - 1) = a.2.pos by omega]
            omega
  | @feed pos line cs ds hline hpush h ih =>
    obtain ⟨-, hnext⟩ := hin.next hstop
    have hword := Cursor.not_isWord_lastOr_line hline
    cases skip with
    | succ skip =>
      have hle := hmono.monotone (show pos + 1 ≤ pos + (skip + 1) by omega)
      obtain ⟨skip', rfl⟩ : ∃ k, skip' = line.length + k + 1 :=
        ⟨skip' - line.length - 1, by omega⟩
      rw [Pattern.allFrom, Pattern.allFrom, allFrom_skip_add, ← hpush]
      refine ih hnext hword ?_
      rw [show pos + 1 + skip = pos + (skip + 1) by omega, ← hskip]
      omega
    | zero =>
      obtain rfl : skip' = 0 := by simpa using hskip
      have hnone : ∀ (before : Option Cell) pos cs, p ⟨before, pos, Cell.feed :: cs⟩ = none :=
        fun before pos cs => hp.onWords _ rfl (Or.inr rfl)
      have hgap : ∀ x ∈ line, x.isWord = false ∧ x.char ≠ '"' := fun x hx =>
        ⟨Cell.not_isWord_of_isBlank (hline x hx), Cells.char_ne_of_blank hline rfl x hx⟩
      rw [allFrom_cons_of_none (hnone _ _ _), allFrom_cons_of_none (hnone _ _ _),
        allFrom_gap hp.onWords hgap, ← hpush]
      exact ih hnext hword rfl

/-- **A search finds its matches at the pushed places.** -/
theorem Widens.all (hp : p.Widens push cs stop f) {c d : Cursor} (hc : c.In cs stop)
    (h : Cursor.Widens push c d) : p.all d = (p.all c).map (Found.map push f) := by
  rw [Pattern.all, Pattern.all, h.pos_eq]
  exact hp.allFrom hmono hstop h.rest hc h.before rfl

theorem Widens.first? (hp : p.Widens push cs stop f) {c d : Cursor} (hc : c.In cs stop)
    (h : Cursor.Widens push c d) : p.first? d = (p.first? c).map (Found.map push f) := by
  have hhead : ∀ c : Cursor, p.first? c = (p.all c).head? := fun c => firstFrom_eq_head? ..
  rw [hhead, hhead, hp.all hmono hstop hc h, List.head?_map]

end Search

end Pattern
end TreeLint
