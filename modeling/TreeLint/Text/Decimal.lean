/-
# Decimal numbers in texts

A number is a run of ASCII digits below a limit, in some places with a plus sign
in front of it.

Key definitions: `Decimal.value`, `Decimal.ofDigits?`, `Decimal.ofChars?`.
-/
import TreeLint.Text.CharClass

namespace TreeLint
namespace Decimal

/-- One more than the largest number of 32 bits. -/
def limit32 : Nat := 0x100000000

/-- One more than the largest number of 64 bits. -/
def limit64 : Nat := 0x10000000000000000

/-- The value of a sequence of decimal digits. -/
def value (ds : List Char) : Nat := ds.foldl (fun n c => n * 10 + (c.toNat - '0'.toNat)) 0

/-- The number that digits spell, if it is below a limit. -/
def ofDigits? (limit : Nat) (ds : List Char) : Option Nat :=
  if !ds.isEmpty && ds.all CharClass.isAsciiDigit && value ds < limit then some (value ds) else none

/-- The number that digits spell, possibly after a plus sign. -/
def ofChars? (limit : Nat) : List Char → Option Nat
  | '+' :: ds => ofDigits? limit ds
  | ds => ofDigits? limit ds

/-- The decimal digits of a number spell it. -/
theorem value_toDigits (n : Nat) : value (Nat.toDigits 10 n) = n := by
  have hdigits : Nat.ofDigitChars 10 (Nat.toDigits 10 n) 0 = n :=
    Nat.ofDigitChars_toDigits (by decide) (by decide)
  unfold Nat.ofDigitChars at hdigits
  unfold value
  simpa [Nat.mul_comm] using hdigits

end Decimal
end TreeLint
