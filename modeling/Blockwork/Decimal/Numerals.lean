/-!
# Decimal integers as text

`readNat?` reads a non-empty run of ASCII digits, `readInt?` one with an optional sign.
Both refuse every other character, so nothing around the digits is skipped.
-/

namespace Blockwork.Decimal

/-- The number written by a non-empty run of digits. -/
def readNat? (cs : List Char) : Option Nat :=
  if cs ≠ [] ∧ cs.all Char.isDigit then some (Nat.ofDigitChars 10 cs 0) else none

/-- The number written by digits with an optional sign before them. -/
def readInt? : List Char → Option Int
  | '-' :: cs => (readNat? cs).map fun n => -(n : Int)
  | '+' :: cs => (readNat? cs).map Int.ofNat
  | cs => (readNat? cs).map Int.ofNat

/-- The decimal digits of a number. -/
def natChars (n : Nat) : List Char :=
  Nat.toDigits 10 n

/-- The decimal digits of an integer, after a minus sign if it is negative. -/
def intChars : Int → List Char
  | .ofNat n => natChars n
  | .negSucc n => '-' :: natChars (n + 1)

theorem readNat?_natChars (n : Nat) : readNat? (natChars n) = some n := by
  have hd : (natChars n).all Char.isDigit = true :=
    List.all_eq_true.2 fun _ hc => Nat.isDigit_of_mem_toDigits (by decide) (by decide) hc
  have hn : natChars n ≠ [] := Nat.toDigits_ne_nil
  rw [readNat?, if_pos ⟨hn, hd⟩]
  exact congrArg some Nat.ofDigitChars_ten_toDigits

end Blockwork.Decimal
