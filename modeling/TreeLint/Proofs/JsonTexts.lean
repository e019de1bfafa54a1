/-
# JSON values are read back from their texts

A value is written as the spellings of its tokens, one after the other. Reading
goes the same way back: the reader of tokens turns the text into the tokens of
the value, and the reader of values puts them together again. The tokens of a
value (`Json.spelling`) stand between the two halves, so that the first is only
about characters and the second only about nesting.

A number ends where something else than a digit follows, so what is said of a
text in the middle of another asks that a delimiter comes next.

Key definitions: `Json.Spelled`, `Json.spelling`, `Json.Delimited`.
Key theorems: `Json.lex_compact`, `Json.assemble_spelling`,
`Json.readFront?_compact`.
-/
import Mathlib.Data.List.TakeWhile
import Mathlib.Data.Nat.Init
import TreeLint.Json.Parser
import TreeLint.Json.Printer

namespace TreeLint
namespace Json

mutual

/-- Every number in the value is a natural number in decimal digits, and every string spells a
text. -/
def Spelled : Json → Prop
  | .num literal => ∃ n : Nat, literal = toString n
  | .unpaired => False
  | .arr items => SpelledItems items
  | .obj fields => SpelledFields fields
  | _ => True

/-- The items are spelled out. -/
def SpelledItems : List Json → Prop
  | [] => True
  | v :: rest => Spelled v ∧ SpelledItems rest

/-- The values of the fields are spelled out. -/
def SpelledFields : List (String × Json) → Prop
  | [] => True
  | (_, v) :: rest => Spelled v ∧ SpelledFields rest

end

theorem spelledItems_iff {items : List Json} : SpelledItems items ↔ ∀ v ∈ items, v.Spelled := by
  induction items with
  | nil => simp [SpelledItems]
  | cons v rest ih => simp [SpelledItems, ih]

theorem spelledFields_iff {fields : List (String × Json)} :
    SpelledFields fields ↔ ∀ f ∈ fields, f.2.Spelled := by
  induction fields with
  | nil => simp [SpelledFields]
  | cons f rest ih =>
    obtain ⟨k, v⟩ := f
    simp [SpelledFields, ih]

mutual

/-- The tokens of a value. -/
def spelling : Json → List Token
  | .null => [.null]
  | .bool b => [.bool b]
  | .num n => [.num n]
  | .str s => [.str (some s)]
  | .unpaired => [.str none]
  | .arr items => .openBracket :: (itemsSpelling items ++ [.closeBracket])
  | .obj fields => .openBrace :: (fieldsSpelling fields ++ [.closeBrace])

/-- The tokens of the items of an array. -/
def itemsSpelling : List Json → List Token
  | [] => []
  | [v] => spelling v
  | v :: w :: rest => spelling v ++ .comma :: itemsSpelling (w :: rest)

/-- The tokens of the fields of an object. -/
def fieldsSpelling : List (String × Json) → List Token
  | [] => []
  | [(k, v)] => .str (some k) :: .colon :: spelling v
  | (k, v) :: f :: rest =>
    .str (some k) :: .colon :: (spelling v ++ .comma :: fieldsSpelling (f :: rest))

end

/-! ### Characters and tokens -/

/-- Whether a bare word ends before the character. -/
def endsWord (c : Char) : Bool := (punctuation? c).isSome || isGap c || c == '"'

/-- Nothing follows, or something that ends a bare word. -/
def Delimited (cs : List Char) : Prop := ∀ c ∈ cs.head?, endsWord c = true

/-- What is read after some tokens, with these tokens. -/
def after (ts : List Token) (r : List Token × Bool) : List Token × Bool := (ts ++ r.1, r.2)

theorem after_nil (r : List Token × Bool) : after [] r = r := rfl

theorem after_after (ts ts' : List Token) (r : List Token × Bool) :
    after ts (after ts' r) = after (ts ++ ts') r := by
  simp [after]

theorem lex_of_lexStep {s s' : LexState} {c : Char} {ts : List Token}
    (h : lexStep s c = some (ts, s')) (cs : List Char) : lex s (c :: cs) = after ts (lex s' cs) := by
  cases s <;> simp [lex, h, after]

theorem lex_punctuation {c : Char} {t : Token} (h : punctuation? c = some t) (cs : List Char) :
    lex .idle (c :: cs) = after [t] (lex .idle cs) := by
  apply lex_of_lexStep
  simp [lexStep, lexIdle, h]

/-- A character that ends no bare word goes on with it. -/
theorem lex_word_append (w collected : List Char) (hw : ∀ c ∈ w, endsWord c = false)
    (rest : List Char) : lex (.word collected) (w ++ rest) = lex (.word (w.reverse ++ collected)) rest := by
  induction w generalizing collected with
  | nil => rfl
  | cons c w ih =>
    have hc : endsWord c = false := hw c List.mem_cons_self
    have hstep : lexStep (.word collected) c = some ([], .word (c :: collected)) := by
      unfold endsWord at hc
      simp [lexStep, hc]
    rw [List.cons_append, lex_of_lexStep hstep, after_nil, ih (c :: collected)
      (fun x hx => hw x (List.mem_cons_of_mem c hx))]
    simp

/-- A bare word becomes its token when it is delimited. -/
theorem lex_word_of_delimited {collected : List Char} {t : Token}
    (ht : wordToken? collected.reverse = some t) {rest : List Char} (hrest : Delimited rest) :
    lex (.word collected) rest = after [t] (lex .idle rest) := by
  cases rest with
  | nil => simp [lex, ht, after]
  | cons c rest =>
    have hc : endsWord c = true := hrest c rfl
    have hstep : lexStep (.word collected) c = some (t :: (lexIdle c).1, (lexIdle c).2) := by
      unfold endsWord at hc
      simp [lexStep, hc, ht]
    have hidle : lexStep .idle c = some ((lexIdle c).1, (lexIdle c).2) := rfl
    rw [lex_of_lexStep hstep, lex_of_lexStep hidle, after_after]
    rfl

theorem lex_word {w : List Char} {t : Token} (hne : w ≠ []) (hw : ∀ c ∈ w, endsWord c = false)
    (ht : wordToken? w = some t) {rest : List Char} (hrest : Delimited rest) :
    lex .idle (w ++ rest) = after [t] (lex .idle rest) := by
  cases w with
  | nil => exact absurd rfl hne
  | cons c w =>
    have hc : endsWord c = false := hw c List.mem_cons_self
    simp only [endsWord, Bool.or_eq_false_iff, Option.isSome_eq_false_iff,
      Option.isNone_iff_eq_none] at hc
    have hstep : lexStep .idle c = some ([], .word [c]) := by
      simp [lexStep, lexIdle, hc.1.1, hc.1.2, hc.2]
    rw [List.cons_append, lex_of_lexStep hstep, after_nil,
      lex_word_append w [c] fun x hx => hw x (List.mem_cons_of_mem c hx)]
    exact lex_word_of_delimited (by simpa using ht) hrest

/-! ### Strings -/

theorem hexValue?_hexDigit : ∀ n < 16, CharClass.hexValue? (hexDigit n) = some n := by
  decide

/-- An escape of one letter is read as the code it stands for. -/
theorem lex_simpleEscape {x : Char} {code : Nat} (hx : simpleEscape? x = some code) (hu : x ≠ 'u')
    (units : List Nat) (rest : List Char) :
    lex (.text units) ('\\' :: x :: rest) = lex (.text (code :: units)) rest := by
  have hfirst : lexStep (.text units) '\\' = some ([], .escape units) := rfl
  have hsecond : lexStep (.escape units) x = some ([], .text (code :: units)) := by
    simp [lexStep, hx, hu]
  rw [lex_of_lexStep hfirst, lex_of_lexStep hsecond]
  rfl

/-- A code below 256 is read from its four digits. -/
theorem lex_codeEscape {code : Nat} (hcode : code < 256) (units : List Nat) (rest : List Char) :
    lex (.text units) ('\\' :: 'u' :: '0' :: '0' :: hexDigit (code / 16) :: hexDigit (code % 16) ::
      rest) = lex (.text (code :: units)) rest := by
  have hhigh := hexValue?_hexDigit (code / 16) (by omega)
  have hlow := hexValue?_hexDigit (code % 16) (by omega)
  have hsum : (code / 16) * 16 + code % 16 = code := by omega
  have hzero : CharClass.hexValue? '0' = some 0 := by decide
  have s1 : lexStep (.text units) '\\' = some ([], .escape units) := rfl
  have s2 : lexStep (.escape units) 'u' = some ([], .code units 4 0) := rfl
  have s3 : lexStep (.code units 4 0) '0' = some ([], .code units 3 0) := by
    simp [lexStep, hzero]
  have s4 : lexStep (.code units 3 0) '0' = some ([], .code units 2 0) := by
    simp [lexStep, hzero]
  have s5 : lexStep (.code units 2 0) (hexDigit (code / 16)) =
      some ([], .code units 1 (code / 16)) := by
    simp [lexStep, hhigh]
  have s6 : lexStep (.code units 1 (code / 16)) (hexDigit (code % 16)) =
      some ([], .text (code :: units)) := by
    simp [lexStep, hlow, hsum]
  rw [lex_of_lexStep s1, lex_of_lexStep s2, lex_of_lexStep s3, lex_of_lexStep s4,
    lex_of_lexStep s5, lex_of_lexStep s6]
  rfl

theorem lex_escape (c : Char) (units : List Nat) (rest : List Char) :
    lex (.text units) (escape c ++ rest) = lex (.text (c.toNat :: units)) rest := by
  by_cases h1 : c = '"'
  · subst h1; exact lex_simpleEscape (x := '"') rfl (by decide) units rest
  by_cases h2 : c = '\\'
  · subst h2; exact lex_simpleEscape (x := '\\') rfl (by decide) units rest
  by_cases h3 : c = '\n'
  · subst h3; exact lex_simpleEscape (x := 'n') rfl (by decide) units rest
  by_cases h4 : c = '\r'
  · subst h4; exact lex_simpleEscape (x := 'r') rfl (by decide) units rest
  by_cases h5 : c = '\t'
  · subst h5; exact lex_simpleEscape (x := 't') rfl (by decide) units rest
  by_cases h6 : c = '\x08'
  · subst h6; exact lex_simpleEscape (x := 'b') rfl (by decide) units rest
  by_cases h7 : c = '\x0c'
  · subst h7; exact lex_simpleEscape (x := 'f') rfl (by decide) units rest
  have hescape : escape c = if c.toNat < 0x20 then
      ['\\', 'u', '0', '0', hexDigit (c.toNat / 16), hexDigit (c.toNat % 16)] else [c] := by
    unfold escape
    split <;> simp_all
  by_cases hcontrol : c.toNat < 0x20
  · rw [hescape, if_pos hcontrol]
    exact lex_codeEscape (by omega) units rest
  · have hstep : lexStep (.text units) c = some ([], .text (c.toNat :: units)) := by
      simp [lexStep, h1, h2, hcontrol]
    rw [hescape, if_neg hcontrol, List.cons_append, lex_of_lexStep hstep]
    rfl

theorem lex_escapes (cs : List Char) (units : List Nat) (rest : List Char) :
    lex (.text units) (cs.flatMap escape ++ rest) =
      lex (.text ((cs.map Char.toNat).reverse ++ units)) rest := by
  induction cs generalizing units with
  | nil => rfl
  | cons c cs ih =>
    rw [List.flatMap_cons, List.append_assoc, lex_escape, ih]
    simp

/-- No character is a surrogate, so its code point stands for it alone. -/
theorem joinUnits_map_toNat (cs : List Char) : joinUnits (cs.map Char.toNat) = some cs := by
  induction cs with
  | nil => rfl
  | cons c cs ih =>
    have hvalid := c.valid
    have hnot : ¬ (0xD800 ≤ c.toNat ∧ c.toNat ≤ 0xDBFF) ∧ ¬ (0xDC00 ≤ c.toNat ∧ c.toNat ≤ 0xDFFF) := by
      unfold UInt32.isValidChar Nat.isValidChar at hvalid
      change c.toNat < 0xd800 ∨ 0xdfff < c.toNat ∧ c.toNat < 0x110000 at hvalid
      omega
    rw [List.map_cons, joinUnits.eq_def]
    simp only [hnot.1, hnot.2, if_false, ih, Option.map_some, Char.ofNat_toNat]

theorem lex_quote (s : String) (rest : List Char) :
    lex .idle ((quote s).toList ++ rest) = after [.str (some s)] (lex .idle rest) := by
  have hopen : lexStep .idle '"' = some ([], .text []) := rfl
  have hclose : lexStep (.text (s.toList.map Char.toNat).reverse) '"' =
      some ([.str (some s)], .idle) := by
    simp [lexStep, joinUnits_map_toNat]
  rw [quote, String.toList_ofList, List.cons_append, lex_of_lexStep hopen, after_nil,
    List.append_assoc, lex_escapes, List.append_nil, List.singleton_append, lex_of_lexStep hclose]

/-! ### Numbers -/

theorem isAsciiDigit_eq_isDigit (c : Char) : CharClass.isAsciiDigit c = c.isDigit := by
  simp [CharClass.isAsciiDigit, Char.isDigit, Char.le_def]

theorem isAsciiDigit_of_mem_toDigits {n : Nat} {c : Char} (h : c ∈ Nat.toDigits 10 n) :
    CharClass.isAsciiDigit c = true := by
  rw [isAsciiDigit_eq_isDigit]
  exact Nat.isDigit_of_mem_toDigits (by decide) (by decide) h

theorem endsWord_of_isAsciiDigit {c : Char} (h : CharClass.isAsciiDigit c = true) :
    endsWord c = false := by
  have hne : ∀ x, CharClass.isAsciiDigit x = false → c ≠ x := by
    rintro x hx rfl
    rw [h] at hx
    cases hx
  have hgap : isGap c = false := by
    simp [isGap, hne ' ' rfl, hne '\t' rfl, hne '\n' rfl, hne '\r' rfl]
  have hmark : punctuation? c = none := by
    unfold punctuation?
    split
    · exact absurd rfl (hne _ (by decide))
    · exact absurd rfl (hne _ (by decide))
    · exact absurd rfl (hne _ (by decide))
    · exact absurd rfl (hne _ (by decide))
    · exact absurd rfl (hne _ (by decide))
    · exact absurd rfl (hne _ (by decide))
    · rfl
  simp [endsWord, hgap, hmark, hne '"' rfl]

/-- Only zero is written with a zero in front. -/
theorem head?_toDigits (n : Nat) (hn : 0 < n) : ∃ c cs, Nat.toDigits 10 n = c :: cs ∧ c ≠ '0' := by
  induction n using Nat.strong_induction_on with
  | _ n ih =>
    by_cases hlt : n < 10
    · refine ⟨n.digitChar, [], Nat.toDigits_of_lt_base hlt, fun hzero => ?_⟩
      have := Nat.toNat_digitChar_of_lt_ten hlt
      rw [hzero] at this
      have : '0'.toNat = 48 := rfl
      omega
    · obtain ⟨c, cs, hcs, hc⟩ := ih (n / 10) (by omega) (by omega)
      refine ⟨c, cs ++ [(n % 10).digitChar], ?_, hc⟩
      rw [Nat.toDigits_of_base_le (by decide) (by omega), hcs, List.cons_append]

theorem isNumber_toDigits (n : Nat) : isNumber (Nat.toDigits 10 n) = true := by
  by_cases hn : n = 0
  · subst hn
    rfl
  · obtain ⟨c, cs, hcs, hc⟩ := head?_toDigits n (by omega)
    have hall : ∀ x ∈ c :: cs, CharClass.isAsciiDigit x = true := by
      intro x hx
      rw [← hcs] at hx
      exact isAsciiDigit_of_mem_toDigits hx
    have hsign : c ≠ '-' := by
      rintro rfl
      exact absurd (hall '-' List.mem_cons_self) (by decide)
    have hdigits : digits (c :: cs) = (c :: cs, []) := by
      simp only [digits, List.takeWhile_eq_self_iff.mpr hall, Prod.mk.injEq, true_and]
      exact List.dropWhile_eq_nil_iff.mpr hall
    have hunsigned : isUnsignedNumber (c :: cs) = true := by
      unfold isUnsignedNumber
      rw [hdigits]
      split
      · rename_i heq
        simp only [Prod.mk.injEq, List.cons.injEq] at heq
        exact absurd heq.1.1 hc
      · rename_i heq
        simp only [Prod.mk.injEq, List.cons.injEq] at heq
        exact absurd heq.1.1 hc
      · rename_i heq
        cases heq
      · rename_i heq
        simp only [Prod.mk.injEq] at heq
        rw [← heq.2]
        rfl
    rw [hcs]
    unfold isNumber
    split
    · rename_i heq
      cases heq
      exact absurd rfl hsign
    · exact hunsigned

/-- A number is read from its digits, if it is delimited. -/
theorem lex_toString (n : Nat) {rest : List Char} (hrest : Delimited rest) :
    lex .idle ((toString n).toList ++ rest) = after [.num (toString n)] (lex .idle rest) := by
  have hlist : (toString n).toList = Nat.toDigits 10 n := Nat.toList_repr
  have hdigit : ∀ c ∈ Nat.toDigits 10 n, CharClass.isAsciiDigit c = true :=
    fun c hc => isAsciiDigit_of_mem_toDigits hc
  have hne : ∀ w : List Char, (∃ c ∈ w, CharClass.isAsciiDigit c = false) →
      Nat.toDigits 10 n ≠ w := by
    rintro w ⟨c, hc, hfalse⟩ rfl
    rw [hdigit c hc] at hfalse
    cases hfalse
  have htoken : wordToken? (Nat.toDigits 10 n) = some (.num (toString n)) := by
    have htext : String.ofList (Nat.toDigits 10 n) = toString n := by
      rw [← hlist, String.ofList_toList]
    have htrue := hne ['t', 'r', 'u', 'e'] ⟨'t', by simp, rfl⟩
    have hfalse := hne ['f', 'a', 'l', 's', 'e'] ⟨'f', by simp, rfl⟩
    have hnull := hne ['n', 'u', 'l', 'l'] ⟨'n', by simp, rfl⟩
    simp only [wordToken?, beq_eq_false_iff_ne.mpr htrue, beq_eq_false_iff_ne.mpr hfalse,
      beq_eq_false_iff_ne.mpr hnull, isNumber_toDigits, htext, if_true, Bool.false_eq_true, if_false]
  rw [hlist]
  apply lex_word
  · intro hnil
    have := isNumber_toDigits n
    rw [hnil] at this
    cases this
  · exact fun c hc => endsWord_of_isAsciiDigit (hdigit c hc)
  · exact htoken
  · exact hrest

/-! ### The tokens of a text -/

theorem delimited_of_punctuation {c : Char} {t : Token} (h : punctuation? c = some t)
    (rest : List Char) : Delimited (c :: rest) := by
  intro x hx
  cases hx
  simp [endsWord, h]

mutual

/-- **The text of a value is read as its tokens.** -/
theorem lex_compact : ∀ (v : Json), v.Spelled → ∀ {rest : List Char}, Delimited rest →
    lex .idle ((compact v).toList ++ rest) = after v.spelling (lex .idle rest)
  | .null, _, _, hrest => by
    have htext : (compact .null).toList = ['n', 'u', 'l', 'l'] := by simp [compact]
    rw [htext]
    exact lex_word (by decide) (by decide) rfl hrest
  | .bool true, _, _, hrest => by
    have htext : (compact (.bool true)).toList = ['t', 'r', 'u', 'e'] := by simp [compact]
    rw [htext]
    exact lex_word (by decide) (by decide) rfl hrest
  | .bool false, _, _, hrest => by
    have htext : (compact (.bool false)).toList = ['f', 'a', 'l', 's', 'e'] := by simp [compact]
    rw [htext]
    exact lex_word (by decide) (by decide) rfl hrest
  | .num literal, h, _, hrest => by
    obtain ⟨n, rfl⟩ := h
    exact lex_toString n hrest
  | .str s, _, rest, _ => lex_quote s rest
  | .unpaired, h, _, _ => h.elim
  | .arr items, h, rest, _ => by
    have htext : (compact (.arr items)).toList ++ rest =
        '[' :: ((compactItems items).toList ++ ']' :: rest) := by
      simp [compact]
    rw [htext, lex_punctuation rfl, lex_compactItems items h (delimited_of_punctuation rfl rest),
      lex_punctuation rfl, after_after, after_after]
    simp [spelling]
  | .obj fields, h, rest, _ => by
    have htext : (compact (.obj fields)).toList ++ rest =
        '\x7b' :: ((compactFields fields).toList ++ '\x7d' :: rest) := by
      simp [compact]
    rw [htext, lex_punctuation rfl, lex_compactFields fields h (delimited_of_punctuation rfl rest),
      lex_punctuation rfl, after_after, after_after]
    simp [spelling]

theorem lex_compactItems : ∀ (items : List Json), SpelledItems items → ∀ {rest : List Char},
    Delimited rest →
    lex .idle ((compactItems items).toList ++ rest) = after (itemsSpelling items) (lex .idle rest)
  | [], _, _, _ => by simp [compactItems, itemsSpelling, after]
  | [v], h, _, hrest => by
    rw [compactItems, itemsSpelling]
    exact lex_compact v h.1 hrest
  | v :: w :: items, h, rest, hrest => by
    have htext : (compactItems (v :: w :: items)).toList ++ rest =
        (compact v).toList ++ ',' :: ((compactItems (w :: items)).toList ++ rest) := by
      simp [compactItems]
    rw [htext, lex_compact v h.1 (delimited_of_punctuation rfl _), lex_punctuation rfl,
      lex_compactItems (w :: items) h.2 hrest, after_after, after_after]
    simp [itemsSpelling]

theorem lex_compactFields : ∀ (fields : List (String × Json)), SpelledFields fields →
    ∀ {rest : List Char}, Delimited rest →
    lex .idle ((compactFields fields).toList ++ rest) = after (fieldsSpelling fields) (lex .idle rest)
  | [], _, _, _ => by simp [compactFields, fieldsSpelling, after]
  | [(k, v)], h, rest, hrest => by
    have htext : (compactFields [(k, v)]).toList ++ rest =
        (quote k).toList ++ ':' :: ((compact v).toList ++ rest) := by
      simp [compactFields]
    rw [htext, lex_quote, lex_punctuation rfl, lex_compact v h.1 hrest, after_after, after_after]
    simp [fieldsSpelling]
  | (k, v) :: f :: fields, h, rest, hrest => by
    have htext : (compactFields ((k, v) :: f :: fields)).toList ++ rest =
        (quote k).toList ++ ':' :: ((compact v).toList ++
          ',' :: ((compactFields (f :: fields)).toList ++ rest)) := by
      simp [compactFields]
    rw [htext, lex_quote, lex_punctuation rfl, lex_compact v h.1 (delimited_of_punctuation rfl _),
      lex_punctuation rfl, lex_compactFields (f :: fields) h.2 hrest]
    simp only [after_after]
    simp [fieldsSpelling]

end

/-! ### Tokens and values -/

/-- What a finished value leads to, with the tokens that follow it. -/
def settle (v : Json) (ts : List Token) (stack : List Frame) : Option (Json × List Token) :=
  match deliver v stack with
  | .inl v => some (v, ts)
  | .inr stack => assemble ts stack .more

theorem assemble_scalar {t : Token} {v : Json} (h : t.scalar? = some v) (ts : List Token)
    (stack : List Frame) : assemble (t :: ts) stack .value = settle v ts stack := by
  cases t <;> simp only [Token.scalar?, reduceCtorEq] at h <;> simp only [assemble, Token.scalar?, h] <;> rfl

theorem assemble_closeBracket (items : List Json) (ts : List Token) (stack : List Frame) :
    assemble (.closeBracket :: ts) (.arr items :: stack) .more = settle (.arr items.reverse) ts stack :=
  rfl

theorem assemble_closeBrace (fields : RawFields) (key : Option String) (ts : List Token)
    (stack : List Frame) : assemble (.closeBrace :: ts) (.obj fields key :: stack) .more =
      settle (ofFields fields.reverse) ts stack :=
  rfl

theorem ofFields_map (fields : List (String × Json)) :
    ofFields (fields.map fun f => (some f.1, f.2)) = .obj fields := by
  have hmap : (fields.map fun f => (some f.1, f.2)).mapM
      (fun f : Option String × Json => f.1.map fun k => (k, f.2)) = some fields := by
    induction fields with
    | nil => rfl
    | cons f fields ih => simp [ih]
  unfold ofFields
  rw [hmap]

/-- Reading a value where an array has just been opened is reading a value, unless the array ends
there. -/
theorem assemble_firstItem {t : Token} (h : t ≠ .closeBracket) (ts : List Token)
    (stack : List Frame) : assemble (t :: ts) stack .firstItem = assemble (t :: ts) stack .value := by
  cases t <;> simp_all [assemble]

/-- No value starts with the end of an array. -/
theorem exists_cons_spelling (v : Json) : ∃ t ts, v.spelling = t :: ts ∧ t ≠ .closeBracket := by
  cases v <;> simp [spelling]

mutual

/-- **The tokens of a value are put together to that value.** -/
theorem assemble_spelling : ∀ (v : Json) (ts : List Token) (stack : List Frame),
    assemble (v.spelling ++ ts) stack .value = settle v ts stack
  | .null, ts, stack => assemble_scalar rfl ts stack
  | .bool _, ts, stack => assemble_scalar rfl ts stack
  | .num _, ts, stack => assemble_scalar rfl ts stack
  | .str _, ts, stack => assemble_scalar rfl ts stack
  | .unpaired, ts, stack => assemble_scalar rfl ts stack
  | .arr [], _, _ => rfl
  | .arr (v :: items), ts, stack => by
    obtain ⟨t, ts', hv, ht⟩ := exists_cons_spelling v
    have hopen : assemble (spelling (.arr (v :: items)) ++ ts) stack .value =
        assemble (itemsSpelling (v :: items) ++ .closeBracket :: ts) (.arr [] :: stack)
          .firstItem := by
      simp [spelling, assemble]
    have hfirst : assemble (itemsSpelling (v :: items) ++ .closeBracket :: ts) (.arr [] :: stack)
        .firstItem = assemble (itemsSpelling (v :: items) ++ .closeBracket :: ts)
          (.arr [] :: stack) .value := by
      cases items <;> simp only [itemsSpelling, hv, List.cons_append, assemble_firstItem ht]
    rw [hopen, hfirst, assemble_itemsSpelling (v :: items) (List.cons_ne_nil v items)]
    rfl
  | .obj [], _, _ => rfl
  | .obj (f :: fields), ts, stack => by
    have hopen : assemble (spelling (.obj (f :: fields)) ++ ts) stack .value =
        assemble (fieldsSpelling (f :: fields) ++ .closeBrace :: ts) stack .firstKey := by
      simp [spelling, assemble]
    have hfirst : assemble (fieldsSpelling (f :: fields) ++ .closeBrace :: ts) stack .firstKey =
        assemble (fieldsSpelling (f :: fields) ++ .closeBrace :: ts) stack (.key []) := by
      cases fields <;> simp [fieldsSpelling, assemble]
    rw [hopen, hfirst, assemble_fieldsSpelling (f :: fields) (List.cons_ne_nil f fields),
      List.reverse_nil, List.nil_append, ofFields_map]

/-- The items that are read join those already there, and the end of the array finishes it. -/
theorem assemble_itemsSpelling : ∀ (items : List Json), items ≠ [] → ∀ (done : List Json)
    (ts : List Token) (stack : List Frame),
    assemble (itemsSpelling items ++ .closeBracket :: ts) (.arr done :: stack) .value =
      settle (.arr (done.reverse ++ items)) ts stack
  | [], h, _, _, _ => absurd rfl h
  | [v], _, done, ts, stack => by
    rw [itemsSpelling, assemble_spelling]
    have hclose := assemble_closeBracket (v :: done) ts stack
    rw [List.reverse_cons] at hclose
    exact hclose
  | v :: w :: items, _, done, ts, stack => by
    have hcomma : settle v (.comma :: itemsSpelling (w :: items) ++ .closeBracket :: ts)
        (.arr done :: stack) = assemble (itemsSpelling (w :: items) ++ .closeBracket :: ts)
          (.arr (v :: done) :: stack) .value := by
      simp [settle, deliver, assemble]
    rw [itemsSpelling, List.append_assoc, assemble_spelling, hcomma,
      assemble_itemsSpelling (w :: items) (List.cons_ne_nil w items)]
    simp

/-- The fields that are read join those already there, and the end of the object finishes it. -/
theorem assemble_fieldsSpelling : ∀ (fields : List (String × Json)), fields ≠ [] →
    ∀ (done : RawFields) (ts : List Token) (stack : List Frame),
    assemble (fieldsSpelling fields ++ .closeBrace :: ts) stack (.key done) =
      settle (ofFields (done.reverse ++ fields.map fun f => (some f.1, f.2))) ts stack
  | [], h, _, _, _ => absurd rfl h
  | [(k, v)], _, done, ts, stack => by
    have hkey : assemble (fieldsSpelling [(k, v)] ++ .closeBrace :: ts) stack (.key done) =
        assemble (v.spelling ++ .closeBrace :: ts) (.obj done (some k) :: stack) .value := by
      simp [fieldsSpelling, assemble]
    have hclose := assemble_closeBrace ((some k, v) :: done) (some k) ts stack
    rw [List.reverse_cons] at hclose
    rw [hkey, assemble_spelling]
    exact hclose
  | (k, v) :: f :: fields, _, done, ts, stack => by
    have hkey : assemble (fieldsSpelling ((k, v) :: f :: fields) ++ .closeBrace :: ts) stack
        (.key done) = assemble (v.spelling ++ (.comma :: fieldsSpelling (f :: fields) ++
          .closeBrace :: ts)) (.obj done (some k) :: stack) .value := by
      simp [fieldsSpelling, assemble]
    have hcomma : settle v (.comma :: fieldsSpelling (f :: fields) ++ .closeBrace :: ts)
        (.obj done (some k) :: stack) = assemble (fieldsSpelling (f :: fields) ++
          .closeBrace :: ts) stack (.key ((some k, v) :: done)) := by
      simp [settle, deliver, assemble]
    rw [hkey, assemble_spelling, hcomma,
      assemble_fieldsSpelling (f :: fields) (List.cons_ne_nil f fields)]
    simp

end

/-- **A value is read back from its text**, and nothing is left after it. -/
theorem readFront?_compact {v : Json} (h : v.Spelled) : readFront? (compact v) = some (v, true) := by
  have htokens : tokens (compact v).toList = (v.spelling, true) := by
    have hend : Delimited [] := by simp [Delimited]
    have := lex_compact v h hend
    simpa [tokens, after, lex] using this
  have hvalue : assemble v.spelling [] .value = some (v, []) := by
    have := assemble_spelling v [] []
    simpa [settle, deliver] using this
  simp [readFront?, htokens, hvalue]

end Json
end TreeLint
