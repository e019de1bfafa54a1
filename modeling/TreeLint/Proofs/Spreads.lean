/-
# Blanks put in behind line feeds

A text spreads to another one if the other one has further blanks behind some of
its line feeds, such as a blank line. What is made of a text piece by piece keeps
this relation: the text without the blanks at its ends, its pieces between
separators, its characters, the name without quotes. So a name that stands on one
line is the same in both texts (`Spreads.eq_of_not_mem`), and one that does not is
no name of something that stands on one line (`Name.same_of_spreads`).

Key definitions: `Spreads`, `Cells.Spreads`, `Name.Spreads`.
Key theorems: `Spreads.eq_or_mem`, `Spreads.trim`, `Cells.Spreads.splitOn`,
`Name.Spreads.unquoteChars`, `Name.same_of_spreads`.
-/
import Mathlib.Data.List.DropRight
import Mathlib.Data.List.Forall2
import TreeLint.Proofs.Names
import TreeLint.Proofs.Pieces

namespace TreeLint

/-- The second list has further blanks behind some of the line feeds of the first one. -/
inductive Spreads {α : Type} (feed : α) (blank : α → Bool) : List α → List α → Prop where
  | nil : Spreads feed blank [] []
  | cons (x : α) {xs ys : List α} (h : Spreads feed blank xs ys) :
      Spreads feed blank (x :: xs) (x :: ys)
  | feed {line xs ys : List α} (hline : ∀ x ∈ line, blank x = true) (h : Spreads feed blank xs ys) :
      Spreads feed blank (feed :: xs) (feed :: (line ++ ys))

namespace Spreads

variable {α : Type} {feed : α} {blank : α → Bool} {xs ys : List α}

theorem refl : ∀ xs : List α, Spreads feed blank xs xs
  | [] => .nil
  | x :: xs => .cons x (refl xs)

theorem head? (h : Spreads feed blank xs ys) : ys.head? = xs.head? := by
  cases h <;> rfl

theorem eq_nil_iff (h : Spreads feed blank xs ys) : ys = [] ↔ xs = [] := by
  cases h <;> simp

/-- Up to the first line feed the lists are the same. -/
theorem take_or (h : Spreads feed blank xs ys) (n : Nat) :
    ys.take n = xs.take n ∧ Spreads feed blank (xs.drop n) (ys.drop n) ∨
      feed ∈ xs.take n ∧ feed ∈ ys.take n := by
  induction h generalizing n with
  | nil => exact Or.inl ⟨rfl, by simpa using nil⟩
  | @cons x xs ys h ih =>
    cases n with
    | zero => exact Or.inl ⟨rfl, .cons x h⟩
    | succ n =>
      simp only [List.take_succ_cons, List.drop_succ_cons]
      rcases ih n with ⟨htake, hdrop⟩ | ⟨hxs, hys⟩
      · exact Or.inl ⟨by rw [htake], hdrop⟩
      · exact Or.inr ⟨List.mem_cons_of_mem x hxs, List.mem_cons_of_mem x hys⟩
  | feed hline h =>
    cases n with
    | zero => exact Or.inl ⟨rfl, .feed hline h⟩
    | succ n => exact Or.inr ⟨List.mem_cons_self, List.mem_cons_self⟩

/-- **Nothing changes where there is no line feed.** -/
theorem eq_or_mem (h : Spreads feed blank xs ys) : ys = xs ∨ feed ∈ xs ∧ feed ∈ ys := by
  induction h with
  | nil => exact Or.inl rfl
  | cons x _ ih =>
    rcases ih with rfl | ⟨hxs, hys⟩
    · exact Or.inl rfl
    · exact Or.inr ⟨List.mem_cons_of_mem x hxs, List.mem_cons_of_mem x hys⟩
  | feed => exact Or.inr ⟨List.mem_cons_self, List.mem_cons_self⟩

theorem eq_of_not_mem (h : Spreads feed blank xs ys) (hfeed : feed ∉ xs) : ys = xs :=
  h.eq_or_mem.resolve_right fun hmem => hfeed hmem.1

theorem all (h : Spreads feed blank xs ys) : ys.all blank = xs.all blank := by
  induction h with
  | nil => rfl
  | cons x _ ih => rw [List.all_cons, List.all_cons, ih]
  | feed hline _ ih =>
    rw [List.all_cons, List.all_cons, List.all_append, List.all_eq_true.mpr hline, Bool.true_and, ih]

section Blank

variable (hfeed : blank feed = true)
include hfeed

/-! ### Without the blanks at the ends -/

theorem dropWhile (h : Spreads feed blank xs ys) :
    Spreads feed blank (xs.dropWhile blank) (ys.dropWhile blank) := by
  induction h with
  | nil => exact .nil
  | cons x h ih =>
    by_cases hx : blank x = true
    · rwa [List.dropWhile_cons_of_pos hx, List.dropWhile_cons_of_pos hx]
    · rw [List.dropWhile_cons_of_neg hx, List.dropWhile_cons_of_neg hx]
      exact .cons x h
  | feed hline _ ih =>
    rwa [List.dropWhile_cons_of_pos hfeed, List.dropWhile_cons_of_pos hfeed,
      List.dropWhile_append_of_pos hline]

omit hfeed in
theorem rdropWhile_cons (x : α) (xs : List α) :
    (x :: xs).rdropWhile blank =
      if xs.all blank then if blank x then [] else [x] else x :: xs.rdropWhile blank := by
  have hempty : (xs.reverse.dropWhile blank).isEmpty = xs.all blank := by
    rw [Bool.eq_iff_iff, List.isEmpty_iff, List.dropWhile_eq_nil_iff, List.all_eq_true]
    simp
  rw [List.rdropWhile, List.reverse_cons, List.dropWhile_append, hempty]
  split
  · cases hx : blank x <;> simp [hx]
  · rw [List.reverse_append]
    rfl

omit hfeed in
/-- Of two texts of which the second is not blank, the first stays. -/
theorem rdropWhile_append (xs : List α) (hys : ys.all blank = false) :
    (xs ++ ys).rdropWhile blank = xs ++ ys.rdropWhile blank := by
  induction xs with
  | nil => rfl
  | cons x xs ih =>
    rw [List.cons_append, rdropWhile_cons, if_neg (by simp [hys]), ih, List.cons_append]

theorem rdropWhile (h : Spreads feed blank xs ys) :
    Spreads feed blank (xs.rdropWhile blank) (ys.rdropWhile blank) := by
  induction h with
  | nil => exact .nil
  | cons x h ih =>
    rw [rdropWhile_cons, rdropWhile_cons, h.all]
    split
    · exact refl _
    · exact .cons x ih
  | @feed line xs ys hline h ih =>
    have hall : (line ++ ys).all blank = xs.all blank := by
      rw [List.all_append, List.all_eq_true.mpr hline, Bool.true_and, h.all]
    rw [rdropWhile_cons, rdropWhile_cons, hall]
    split
    · exact refl _
    · rename_i hxs
      rw [rdropWhile_append line (by rw [h.all]; simpa using hxs)]
      exact .feed hline ih

theorem trim (h : Spreads feed blank xs ys) :
    Spreads feed blank ((xs.dropWhile blank).rdropWhile blank)
      ((ys.dropWhile blank).rdropWhile blank) :=
  (h.dropWhile hfeed).rdropWhile hfeed

/-! ### The last element -/

variable {x : α} (hx : blank x = false)
include hx

theorem concat (h : Spreads feed blank (xs ++ [x]) ys) :
    ∃ init, ys = init ++ [x] ∧ Spreads feed blank xs init := by
  induction xs generalizing ys with
  | nil =>
    cases h with
    | cons _ h =>
      cases h
      exact ⟨[], rfl, .nil⟩
    | feed => rw [hfeed] at hx; cases hx
  | cons y xs ih =>
    cases h with
    | cons _ h =>
      obtain ⟨init, rfl, hinit⟩ := ih h
      exact ⟨y :: init, rfl, .cons y hinit⟩
    | @feed line _ _ hline h =>
      obtain ⟨init, rfl, hinit⟩ := ih h
      exact ⟨feed :: (line ++ init), by simp, .feed hline hinit⟩

theorem of_concat (h : Spreads feed blank xs (ys ++ [x])) : ∃ init, xs = init ++ [x] := by
  generalize hzs : ys ++ [x] = zs at h
  induction h generalizing ys with
  | nil => simp at hzs
  | @cons y xs zs h ih =>
    cases ys with
    | nil =>
      obtain ⟨rfl, rfl⟩ := List.cons.inj hzs
      exact ⟨[], by rw [h.eq_nil_iff.mp rfl]; rfl⟩
    | cons z ys =>
      obtain ⟨init, rfl⟩ := ih (List.cons.inj hzs).2
      exact ⟨y :: init, rfl⟩
  | @feed line xs zs hline h ih =>
    rcases List.eq_nil_or_concat zs with rfl | ⟨init, z, rfl⟩
    · -- a line of blanks does not end with `x`
      have hlast : x ∈ feed :: (line ++ []) := hzs ▸ List.mem_append_right ys List.mem_cons_self
      rw [List.append_nil] at hlast
      rcases List.mem_cons.mp hlast with rfl | hmem
      · rw [hfeed] at hx; cases hx
      · rw [hline x hmem] at hx; cases hx
    · have hzs' : ys ++ [x] = (feed :: (line ++ init)) ++ [z] := by simpa using hzs
      obtain ⟨-, hz⟩ := List.append_inj' hzs' rfl
      obtain rfl := List.singleton_inj.mp hz
      obtain ⟨init', rfl⟩ := ih (List.concat_eq_append ..).symm
      exact ⟨feed :: init', rfl⟩

end Blank

end Spreads

/-! ### Names -/

namespace Name

open CharClass (isBlank)

/-- The second text has further white space behind some of the line feeds of the first one. -/
abbrev Spreads (a b : List Char) : Prop := TreeLint.Spreads '\n' isBlank a b

variable {a b : List Char}

theorem Spreads.trim (h : Spreads a b) : Spreads (Name.trim a) (Name.trim b) :=
  TreeLint.Spreads.trim rfl h

theorem Spreads.between? (h : Spreads a b) :
    Option.Rel Spreads (Name.between? a) (Name.between? b) := by
  cases ha : Name.between? a with
  | some inner =>
    rw [between?_eq_some_iff] at ha
    subst ha
    cases h with
    | cons _ h =>
      obtain ⟨init, rfl, hinit⟩ := h.concat rfl (x := '"') rfl
      rw [between?_eq_some_iff.mpr rfl]
      exact .some hinit
  | none =>
    cases hb : Name.between? b with
    | none => exact .none
    | some inner =>
      rw [between?_eq_some_iff] at hb
      subst hb
      cases h with
      | cons _ h =>
        obtain ⟨init, rfl⟩ := h.of_concat rfl (x := '"') rfl
        rw [between?_eq_some_iff.mpr rfl] at ha
        cases ha

theorem Spreads.unquoteChars (h : Spreads a b) :
    Spreads (Name.unquoteChars a) (Name.unquoteChars b) := by
  unfold Name.unquoteChars
  have hbetween := h.trim.between?
  generalize Name.between? (Name.trim a) = inner, Name.between? (Name.trim b) = inner' at hbetween
  cases hbetween with
  | some hinner => exact hinner
  | none => exact h.trim

theorem mem_of_mem_unquoteChars {c : Char} {cs : List Char} (h : c ∈ unquoteChars cs) : c ∈ cs := by
  obtain ⟨before, after, htrim, -, -⟩ := exists_eq_append_trim cs
  have hcore : c ∈ Name.trim cs → c ∈ cs := fun hmem => by
    rw [htrim]
    exact List.mem_append_left after (List.mem_append_right before hmem)
  unfold unquoteChars at h
  cases hinner : Name.between? (Name.trim cs) with
  | none =>
    rw [hinner, Option.getD_none] at h
    exact hcore h
  | some inner =>
    rw [hinner, Option.getD_some] at h
    refine hcore ?_
    rw [between?_eq_some_iff.mp hinner]
    exact List.mem_cons_of_mem _ (List.mem_append_left _ h)

theorem feed_mem_lower_iff {cs : List Char} :
    '\n' ∈ cs.map CharClass.lower ↔ '\n' ∈ cs := by
  have hfeed : ∀ c, CharClass.lower c = '\n' ↔ c = '\n' := by
    intro c
    rcases CharClass.lower_cases c with h | ⟨hle, h⟩
    · rw [h]
    · have hnat : ('\n' : Char).toNat = 10 := rfl
      constructor
      · intro heq
        rw [heq] at h
        omega
      · rintro rfl
        omega
  simp [hfeed]

/-- The second name is the first one, spread over further lines. -/
abbrev SpreadsTo (n n' : String) : Prop := Spreads n.toList n'.toList

theorem SpreadsTo.eq {n n' : String} (h : SpreadsTo n n') (hn : '\n' ∉ n.toList) : n' = n :=
  String.toList_inj.mp (h.eq_of_not_mem hn)

/-- **A name on one line is not meant by one that is spread**, unless both spellings mean it. -/
theorem same_of_spreads {v n n' : String} (hv : '\n' ∉ v.toList) (h : SpreadsTo n n') :
    same v n' = same v n := by
  rcases h.unquoteChars.eq_or_mem with heq | ⟨hn, hn'⟩
  · rw [Bool.eq_iff_iff, same_eq_true_iff, same_eq_true_iff, heq]
  · have hdiffers : ∀ {m : String}, '\n' ∈ unquoteChars m.toList → same v m = false := by
      intro m hm
      rw [← Bool.not_eq_true, same_eq_true_iff]
      intro heq
      have hmem := feed_mem_lower_iff.mpr hm
      rw [← heq, feed_mem_lower_iff] at hmem
      exact hv (mem_of_mem_unquoteChars hmem)
    rw [hdiffers hn, hdiffers hn']

/-- In a table of words without line feeds nothing is found under a text with one. -/
theorem lookup_lower_eq_none {α : Type} {table : List (String × α)} {s : String}
    (htable : ∀ e ∈ table, '\n' ∉ e.1.toList) (hs : '\n' ∈ s.toList) :
    table.lookup (Name.lower s) = none := by
  rw [List.lookup_eq_none_iff]
  intro e he
  rw [bne_iff_ne]
  intro heq
  refine htable e he ?_
  rw [← heq, Name.lower, String.toList_ofList, feed_mem_lower_iff]
  exact hs

theorem find?_lower_eq_none {α : Type} {all : List α} {name : α → String} {s : String}
    (hall : ∀ k ∈ all, '\n' ∉ (name k).toList) (hs : '\n' ∈ s.toList) :
    all.find? (fun k => Name.lower (name k) == Name.lower s) = none := by
  rw [List.find?_eq_none]
  intro k hk heq
  refine hall k hk ?_
  have hlists := congrArg String.toList (beq_iff_eq.mp heq)
  simp only [Name.lower, String.toList_ofList] at hlists
  rw [← feed_mem_lower_iff, hlists, feed_mem_lower_iff]
  exact hs

end Name

/-- The words of the language have no line feed: a spread word is none. -/
theorem TypeKind.ofKeyword_of_spreads {s s' : String} (h : Name.SpreadsTo s s') :
    ofKeyword s' = ofKeyword s := by
  have hunknown : ∀ {s : String}, '\n' ∈ s.toList → ofKeyword s = .unknown := by
    intro s hs
    unfold ofKeyword
    simp only
    rw [Name.find?_lower_eq_none (by decide) hs, Name.lookup_lower_eq_none (by decide) hs]
    rfl
  rcases h.eq_or_mem with heq | ⟨hs, hs'⟩
  · rw [String.toList_inj.mp heq]
  · rw [hunknown hs, hunknown hs']

theorem SymbolKind.ofObjectKeyword?_of_spreads {s s' : String}
    (h : Name.SpreadsTo s s') : ofObjectKeyword? s' = ofObjectKeyword? s := by
  rcases h.eq_or_mem with heq | ⟨hs, hs'⟩
  · rw [String.toList_inj.mp heq]
  · rw [ofObjectKeyword?, ofObjectKeyword?, Name.find?_lower_eq_none (by decide) hs,
      Name.find?_lower_eq_none (by decide) hs']

theorem ObsoleteState.ofProperty?_of_spreads {s s' : String}
    (h : Name.SpreadsTo s s') : ofProperty? s' = ofProperty? s := by
  rcases h.eq_or_mem with heq | ⟨hs, hs'⟩
  · rw [String.toList_inj.mp heq]
  · rw [ofProperty?, ofProperty?, Name.lookup_lower_eq_none (by decide) hs,
      Name.lookup_lower_eq_none (by decide) hs']

/-! ### Texts -/

/-- The byte of a line feed. -/
def Cell.feed : Cell := ⟨'\n', true⟩

namespace Cells

/-- The second text has further white space behind some of the line feeds of the first one. -/
abbrev Spreads (cs ds : Cells) : Prop := TreeLint.Spreads Cell.feed Cell.isBlank cs ds

variable {cs ds : Cells}

theorem Spreads.trim (h : Spreads cs ds) : Spreads (Cells.trim cs) (Cells.trim ds) :=
  TreeLint.Spreads.trim rfl h

theorem Spreads.trimStart (h : Spreads cs ds) : Spreads (Cells.trimStart cs) (Cells.trimStart ds) :=
  TreeLint.Spreads.dropWhile rfl h

theorem Spreads.isBlank (h : Spreads cs ds) : Cells.isBlank ds = Cells.isBlank cs :=
  TreeLint.Spreads.all h

theorem Spreads.chars (h : Spreads cs ds) : Name.Spreads (Cells.chars cs) (Cells.chars ds) := by
  induction h with
  | nil => exact .nil
  | @cons x cs ds _ ih =>
    rw [show x :: cs = [x] ++ cs from rfl, show x :: ds = [x] ++ ds from rfl, chars_append,
      chars_append]
    cases hlead : x.lead with
    | true => simpa [Cells.chars, hlead] using TreeLint.Spreads.cons x.char ih
    | false => simpa [Cells.chars, hlead] using ih
  | @feed line cs ds hline _ ih =>
    have hchars : ∀ c ∈ Cells.chars line, CharClass.isBlank c = true := by
      intro c hc
      obtain ⟨x, hx, rfl⟩ := List.mem_map.mp hc
      exact hline x (List.mem_filter.mp hx).1
    have hfeed : ∀ es, Cells.chars (Cell.feed :: es) = '\n' :: Cells.chars es := fun es => rfl
    rw [hfeed, hfeed, chars_append]
    exact .feed hchars ih

theorem Spreads.toList_text (h : Spreads cs ds) : Name.SpreadsTo cs.text ds.text := by
  rw [Name.SpreadsTo, text, text, String.toList_ofList, String.toList_ofList]
  exact h.chars

/-- The name in a text without quotes. -/
theorem Spreads.toList_unquote (h : Spreads cs ds) :
    Name.SpreadsTo (Name.unquote cs.text) (Name.unquote ds.text) := by
  rw [Name.SpreadsTo, Name.unquote, Name.unquote, String.toList_ofList, String.toList_ofList]
  exact Name.Spreads.unquoteChars h.toList_text

theorem splitOn_eq_cons (sep : Char) (cs : Cells) : ∃ p ps, cs.splitOn sep = p :: ps := by
  cases cs with
  | nil => exact ⟨_, _, rfl⟩
  | cons x cs =>
    rw [Cells.splitOn]
    split
    · exact ⟨_, _, rfl⟩
    · split <;> exact ⟨_, _, rfl⟩

/-- A text without the separator goes to the first piece. -/
theorem splitOn_append_of_not_mem {sep : Char} {line : Cells} (h : ∀ x ∈ line, x.char ≠ sep)
    {p : Cells} {ps : List Cells} (hcs : cs.splitOn sep = p :: ps) :
    (line ++ cs).splitOn sep = (line ++ p) :: ps := by
  induction line with
  | nil => exact hcs
  | cons x line ih =>
    rw [List.cons_append, Cells.splitOn, if_neg (h x List.mem_cons_self),
      ih fun y hy => h y (List.mem_cons_of_mem x hy)]
    rfl

theorem char_ne_of_blank {line : Cells} (hline : ∀ x ∈ line, x.isBlank = true) {c : Char}
    (hc : CharClass.isBlank c = false) : ∀ x ∈ line, x.char ≠ c := by
  rintro x hx rfl
  have hblank : CharClass.isBlank x.char = true := hline x hx
  rw [hc] at hblank
  cases hblank

theorem Spreads.splitOn {sep : Char} (hsep : CharClass.isBlank sep = false) (h : Spreads cs ds) :
    List.Forall₂ Spreads (cs.splitOn sep) (ds.splitOn sep) := by
  induction h with
  | nil => exact .cons .nil .nil
  | @cons x cs ds _ ih =>
    obtain ⟨p, ps, hps⟩ := splitOn_eq_cons sep cs
    obtain ⟨q, qs, hqs⟩ := splitOn_eq_cons sep ds
    rw [Cells.splitOn, Cells.splitOn]
    rw [hps, hqs] at ih ⊢
    split
    · exact .cons .nil ih
    · obtain ⟨hp, hps⟩ := List.forall₂_cons.mp ih
      exact .cons (.cons x hp) hps
  | @feed line cs ds hline _ ih =>
    obtain ⟨p, ps, hps⟩ := splitOn_eq_cons sep cs
    obtain ⟨q, qs, hqs⟩ := splitOn_eq_cons sep ds
    have hfeed : ¬ Cell.feed.char = sep := by
      rintro rfl
      cases hsep
    rw [Cells.splitOn, Cells.splitOn, if_neg hfeed, if_neg hfeed,
      splitOn_append_of_not_mem (char_ne_of_blank hline hsep) hqs, hps]
    rw [hps, hqs] at ih
    obtain ⟨hp, hps⟩ := List.forall₂_cons.mp ih
    exact .cons (.feed hline hp) hps

end Cells

namespace Source

/-- The word `var` stands on one line. -/
theorem stripVar?_of_spreads {cs ds : Cells} (h : cs.Spreads ds) :
    Option.Rel Cells.Spreads (stripVar? cs) (stripVar? ds) := by
  have hnone : ∀ {cs : Cells}, Cell.feed ∈ cs.take 3 → stripVar? cs = none := by
    intro cs hmem
    have hword : ¬ ((cs.take 3).map fun c => CharClass.lower c.char) = ['v', 'a', 'r'] := by
      intro heq
      have hfeed := List.mem_map_of_mem (f := fun c : Cell => CharClass.lower c.char) hmem
      rw [heq] at hfeed
      exact absurd hfeed (by decide)
    rw [stripVar?, if_neg]
    simp only [Bool.and_eq_true, beq_iff_eq, hword, false_and, not_false_eq_true]
  rcases h.take_or 3 with ⟨htake, hdrop⟩ | ⟨hcs, hds⟩
  · unfold stripVar?
    simp only [htake, hdrop.head?]
    split
    · exact .some (Cells.Spreads.trimStart hdrop)
    · exact .none
  · rw [hnone hcs, hnone hds]
    exact .none

end Source
end TreeLint
