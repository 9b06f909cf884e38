import Blockwork.Decimal.Numerals

/-!
# The double nearest to a decimal text

`readFloat?` accepts an optional sign followed by `inf`, `infinity` or `nan` in any case, or
by digits with an optional point among, before or after them and an optional exponent. The
value is the double nearest to the decimal, ties to even; a decimal beyond the range is
infinite and one below it is zero.
-/

namespace Blockwork.Decimal

/-- The ASCII letters of the text in lower case. -/
def lowerChars (cs : List Char) : List Char :=
  cs.map Char.toLower

/-- The digits at the front, and what follows them. -/
def spanDigits (cs : List Char) : List Char × List Char :=
  (cs.takeWhile Char.isDigit, cs.dropWhile Char.isDigit)

/-- The double nearest to `m · 10 ^ e`. -/
def nearest (m : Nat) (e : Int) : Float :=
  if 0 ≤ e then Float.ofScientific m false e.toNat else Float.ofScientific m true (-e).toNat

/-- The exponent written by the rest of a decimal: none at all, or `e` and an integer. -/
def readExponent? : List Char → Option Int
  | [] => some 0
  | c :: cs => if c = 'e' ∨ c = 'E' then readInt? cs else none

/-- The value of a decimal without a sign. -/
def readUnsigned? (cs : List Char) : Option Float :=
  let (whole, rest) := spanDigits cs
  let (fraction, rest) := match rest with
    | '.' :: after => spanDigits after
    | _ => ([], rest)
  if whole.isEmpty && fraction.isEmpty then none
  else do
    let e ← readExponent? rest
    return nearest (Nat.ofDigitChars 10 (whole ++ fraction) 0) (e - fraction.length)

/-- The value of a text after its sign. -/
def readMagnitude? (cs : List Char) : Option Float :=
  let lower := lowerChars cs
  if lower = ['i', 'n', 'f'] ∨ lower = ['i', 'n', 'f', 'i', 'n', 'i', 't', 'y'] then
    some (1.0 / 0.0)
  else if lower = ['n', 'a', 'n'] then some (0.0 / 0.0)
  else readUnsigned? cs

/-- The double written by a text. -/
def readFloat? : List Char → Option Float
  | '-' :: cs => (readMagnitude? cs).map Float.neg
  | '+' :: cs => readMagnitude? cs
  | cs => readMagnitude? cs

end Blockwork.Decimal
