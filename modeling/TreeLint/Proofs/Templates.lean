/-
# Templates are filled in one pass

A template is literal text with numbers in braces between it. It is filled from
left to right and read only once: a literal stays as it is, a number that has an
argument is replaced by that argument, and any other number stays in its braces.
What an argument says has no part in that. Its own braces are text, also where
they look like a number in braces (`Descriptor.fill_chars`).

So the message of a template is put together from the texts of its pieces, and
two templates that are joined give the two messages, joined.

Key definitions: `Template.Piece`, `Template.text`, `Template.message`.
Key theorems: `Decimal.value_toDigits`, `Descriptor.placeholder?_digits`,
`Descriptor.fill_chars`, `Descriptor.format_substitutes_once`.
-/
import TreeLint.Catalog.Descriptor
import TreeLint.Proofs.JsonTexts

namespace TreeLint

namespace Decimal

/-- A digit is no plus sign. -/
theorem ofChars?_of_digits {ds : List Char} (h : ds.all CharClass.isAsciiDigit = true)
    (limit : Nat) : ofChars? limit ds = ofDigits? limit ds := by
  cases ds with
  | nil => rfl
  | cons d ds =>
    have hplus : d ≠ '+' := by
      rintro rfl
      cases h
    unfold ofChars?
    split
    · rename_i heq
      exact absurd (List.cons.inj heq).1 hplus
    · rfl

end Decimal

namespace Template

/-- Text without braces. -/
structure Literal where
  chars : List Char
  no_braces : '\x7b' ∉ chars ∧ '\x7d' ∉ chars

/-- A number in decimal digits; the first ones may be zeros. -/
structure Numeral where
  digits : List Char
  digits_ne : digits ≠ []
  digits_all : digits.all CharClass.isAsciiDigit = true

namespace Numeral

/-- The number that is written. -/
def number (x : Numeral) : Nat := Decimal.value x.digits

/-- A number in as few digits as it has. -/
def ofNat (n : Nat) : Numeral where
  digits := Nat.toDigits 10 n
  digits_ne := Nat.toDigits_ne_nil
  digits_all := List.all_eq_true.mpr fun _ hc => Json.isAsciiDigit_of_mem_toDigits hc

theorem number_ofNat (n : Nat) : (ofNat n).number = n := Decimal.value_toDigits n

theorem not_mem_digits (x : Numeral) {c : Char} (hc : CharClass.isAsciiDigit c = false) :
    c ∉ x.digits := by
  intro hmem
  rw [List.all_eq_true.mp x.digits_all c hmem] at hc
  cases hc

end Numeral

/-- A piece of a template: literal text, or a number in braces. -/
inductive Piece where
  | literal (x : Literal)
  | placeholder (x : Numeral)

namespace Piece

/-- A piece as it is written. -/
def chars : Piece → List Char
  | .literal x => x.chars
  | .placeholder x => '\x7b' :: (x.digits ++ ['\x7d'])

/-- What stands in the message for a piece: the argument of a number that has one, or else the
piece as it is written. -/
def filled (args : List String) : Piece → List Char
  | .literal x => x.chars
  | .placeholder x =>
    match args[x.number]? with
    | some arg => arg.toList
    | none => '\x7b' :: (x.digits ++ ['\x7d'])

end Piece

/-- A template as it is written. -/
def text (ps : List Piece) : String := String.ofList (ps.flatMap Piece.chars)

/-- The message of a template: what stands for its pieces, one after the other. -/
def message (args : List String) (ps : List Piece) : String :=
  String.ofList (ps.flatMap (Piece.filled args))

theorem text_append (ps qs : List Piece) : text (ps ++ qs) = text ps ++ text qs := by
  simp [text]

theorem message_append (args : List String) (ps qs : List Piece) :
    message args (ps ++ qs) = message args ps ++ message args qs := by
  simp [message]

end Template

namespace Descriptor

open Template

/-- What belongs to a placeholder that is filled is not read again. -/
theorem fill_skip (args : List String) (back : List Char) :
    ∀ front : List Char, fill args front.length (front ++ back) = fill args 0 back
  | [] => rfl
  | _ :: front => fill_skip args back front

/-- Behind an opening brace a number is looked up among the arguments, up to its own closing brace
and no farther. -/
theorem placeholder?_digits {args : List String} (hargs : args.length ≤ Decimal.limit64)
    (x : Numeral) (back : List Char) :
    placeholder? args (x.digits ++ '\x7d' :: back) =
      args[x.number]?.map fun arg => (arg.toList, x.digits.length + 1) := by
  have hclosing : '\x7d' ∉ x.digits := x.not_mem_digits (by decide)
  have hinner : (x.digits ++ '\x7d' :: back).takeWhile (· != '\x7d') = x.digits := by
    rw [List.takeWhile_append_of_pos fun c hc => by
      simpa using fun heq : c = '\x7d' => hclosing (heq ▸ hc)]
    simp
  have hlookup : (Decimal.ofChars? Decimal.limit64 x.digits).bind (args[·]?) =
      args[x.number]? := by
    rw [Decimal.ofChars?_of_digits x.digits_all, Decimal.ofDigits?]
    unfold Numeral.number
    by_cases hlt : Decimal.value x.digits < Decimal.limit64
    · simp [x.digits_ne, x.digits_all, hlt]
    · have hnone : args[Decimal.value x.digits]? = none := List.getElem?_eq_none (by omega)
      simp [hlt, hnone]
  unfold placeholder?
  simp only [hinner, hlookup]
  cases args[x.number]? <;> simp

/-- **One piece of a template** is filled by itself, whatever comes behind it. -/
theorem fill_piece {args : List String} (hargs : args.length ≤ Decimal.limit64) (p : Piece)
    (back : List Char) : fill args 0 (p.chars ++ back) = p.filled args ++ fill args 0 back := by
  cases p with
  | literal x => exact fill_append_of_not_mem args back x.no_braces.1
  | placeholder x =>
    have hchars : (Piece.placeholder x).chars ++ back =
        '\x7b' :: (x.digits ++ '\x7d' :: back) := by simp [Piece.chars]
    rw [hchars, fill, if_pos rfl, placeholder?_digits hargs, Piece.filled]
    cases args[x.number]? with
    | some arg =>
      have hskip := fill_skip args back (x.digits ++ ['\x7d'])
      simpa using congrArg (arg.toList ++ ·) hskip
    | none =>
      -- Reading goes on behind the brace: the digits and the closing brace are plain text.
      have hplain : '\x7b' ∉ x.digits ++ ['\x7d'] := by
        simpa using x.not_mem_digits (by decide)
      have hrest := fill_append_of_not_mem args back hplain
      simpa using congrArg ('\x7b' :: ·) hrest

theorem fill_chars {args : List String} (hargs : args.length ≤ Decimal.limit64) :
    ∀ ps : List Piece, fill args 0 (ps.flatMap Piece.chars) = ps.flatMap (Piece.filled args)
  | [] => rfl
  | p :: ps => by
    rw [List.flatMap_cons, List.flatMap_cons, fill_piece hargs, fill_chars hargs ps]

/-- **Templates are filled once.** The message of a template, for any arguments, is put together
piece by piece: literals as they are, for a number the argument it counts, word for word, and a
number without an argument as it is written. Joined templates give joined messages. Every natural
number has a numeral; and no list of arguments is longer than the numbers of 64 bits. -/
theorem format_substitutes_once (d : Descriptor) {args : List String}
    (hargs : args.length ≤ Decimal.limit64) (ps qs : List Piece) :
    { d with template := text ps }.format args = message args ps ∧
      { d with template := text ps ++ text qs }.format args =
        { d with template := text ps }.format args ++
          { d with template := text qs }.format args ∧
      ∀ n : Nat, (Numeral.ofNat n).digits = (toString n).toList ∧
        (Numeral.ofNat n).number = n := by
  have hformat : ∀ ps, { d with template := text ps }.format args = message args ps := by
    intro ps
    simp only [format, text, String.toList_ofList, fill_chars hargs, message]
  refine ⟨hformat ps, ?_, fun n => ⟨Nat.toList_repr.symm, Numeral.number_ofNat n⟩⟩
  rw [← text_append, hformat, hformat, hformat, message_append]

/-- A number with an argument, the next one with zeros in front, and one without an argument. -/
def samplePieces : List Piece :=
  [.literal ⟨"rule ".toList, by decide⟩, .placeholder (.ofNat 0),
    .literal ⟨" failed: ".toList, by decide⟩,
    .placeholder ⟨['0', '0', '1'], by decide, by decide⟩, .placeholder (.ofNat 20)]

/-- The descriptor of failures, with a template to be filled. -/
def sampleDescriptor (template : String) : Descriptor :=
  ⟨"LC0000", "Fault", "Design", .info, true, "Fault", template, "A rule failed.", none⟩

/-- The arguments look like numbers in braces and are not filled in turn. -/
theorem format_arguments_with_braces :
    ["\x7b1\x7d", "\x7b0"].length ≤ Decimal.limit64 ∧
      (sampleDescriptor "rule \x7b0\x7d failed: \x7b001\x7d\x7b20\x7d").format
          ["\x7b1\x7d", "\x7b0"] =
        "rule \x7b1\x7d failed: \x7b0\x7b20\x7d" := by
  have hargs : ["\x7b1\x7d", "\x7b0"].length ≤ Decimal.limit64 := by decide
  have htext : text samplePieces = "rule \x7b0\x7d failed: \x7b001\x7d\x7b20\x7d" := by decide
  have hmessage : message ["\x7b1\x7d", "\x7b0"] samplePieces =
      "rule \x7b1\x7d failed: \x7b0\x7b20\x7d" := by decide
  refine ⟨hargs, ?_⟩
  rw [← htext, ← hmessage]
  exact (format_substitutes_once (sampleDescriptor "") hargs samplePieces []).1

end Descriptor
end TreeLint
