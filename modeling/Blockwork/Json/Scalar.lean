import Blockwork.Json.Basic
import Blockwork.Decimal.Nearest

/-!
# The value of a numeral

A numeral with neither point nor exponent is an integer if it fits in 64 bits, signed or
unsigned, and `-0` is not an integer. Every other numeral is a double: as many of its
leading digits as fit in 64 bits, taken as an integer, times one power of ten, in double
arithmetic. A numeral beyond the range of doubles has no value.
-/

namespace Blockwork

/-- The value of a numeral. -/
inductive Scalar
  | int (value : Int)
  | real (value : Float)

namespace Numeral

/-- The bound of the integer of leading digits. -/
def digitBound : Nat :=
  UInt64.size

/-- The integer `n` extended by the digits in turn while it stays below the bound, and how
many digits extend it. -/
def takeDigits (n count : Nat) : List Char → Nat × Nat
  | [] => (n, count)
  | c :: cs =>
    let m := n * 10 + (c.toNat - '0'.toNat)
    if m < digitBound then takeDigits m (count + 1) cs else (n, count)

/-- The power `10 ^ e` as a double. -/
def powerOfTen (e : Nat) : Float :=
  Decimal.nearest 1 e

/-- `n · 10 ^ e` in double arithmetic, or `none` beyond the range. A negative power below
the range of the doubles is divided by in two steps. -/
def scaled? (n : Nat) (e : Int) : Option Float :=
  let x := Float.ofNat n
  if 0 ≤ e then
    if n = 0 then some x
    else if e ≤ 308 then
      let y := x * powerOfTen e.toNat
      if y.isInf then none else some y
    else none
  else
    let k := (-e).toNat
    if k ≤ 308 then some (x / powerOfTen k)
    else if k ≤ 616 then some (x / powerOfTen 308 / powerOfTen (k - 308))
    else some 0.0

/-- The exponent as an integer, zero if there is none. -/
def exponentValue (n : Numeral) : Int :=
  match n.exponent with
  | none => 0
  | some (true, digits) => -(Nat.ofDigitChars 10 digits 0 : Int)
  | some (false, digits) => Nat.ofDigitChars 10 digits 0

/-- The numeral as a double, or `none` beyond the range. -/
def real? (n : Numeral) : Option Float :=
  let (whole, taken) := takeDigits 0 0 n.whole
  let dropped := n.whole.length - taken
  let (digits, places) := takeDigits whole 0 n.fraction
  let e := n.exponentValue + dropped - places
  (scaled? digits e).map fun x => if n.negative then -x else x

/-- The integer of a numeral that is one: no point, no exponent, within 64 bits. -/
def int? (n : Numeral) : Option Int :=
  if n.fraction ≠ [] ∨ n.exponent ≠ none then none
  else
    let m := Nat.ofDigitChars 10 n.whole 0
    if n.negative then (if 0 < m ∧ 2 * m ≤ digitBound then some (-(m : Int)) else none)
    else if m < digitBound then some m else none

/-- The value of a numeral, or `none` beyond the range of doubles. -/
def value? (n : Numeral) : Option Scalar :=
  match n.int? with
  | some m => some (.int m)
  | none => n.real?.map .real

end Numeral

end Blockwork
