import Blockwork.Decimal.Numerals

/-!
# The shortest decimal of a double

A finite double is `m · 2 ^ q`, and the reals that round to it form an interval around
it, ends included when `m` is even. `shortest` is the decimal `d · 10 ^ p` with the fewest
digits in that interval: for 1, 2, … 17 digits the two neighbours of the value on the
grid of that many digits are tried, the nearer of two hits is taken, and of two equally
near ones the larger.

`floatText` writes it positionally: no exponent, no point in a whole number, `-0` for the
negative zero.
-/

namespace Blockwork.Decimal

/-- The least `j` with `10 ^ j * den ≥ num`, for `num > den > 0`. -/
private def powerAbove (num den : Nat) : Nat :=
  (natChars ((num + den - 1) / den - 1)).length

/-- The exponent `e` with `10 ^ e ≤ num / den < 10 ^ (e + 1)`. -/
def magnitude (num den : Nat) : Int :=
  if den ≤ num then ((natChars (num / den)).length : Int) - 1 else -(powerAbove den num : Int)

/-- A positive real interval around a value, over a common denominator. -/
structure Interval where
  /-- The lower end. -/
  low : Nat
  /-- The value. -/
  mid : Nat
  /-- The upper end. -/
  high : Nat
  /-- The common denominator. -/
  den : Nat
  /-- Whether the ends belong to the interval. -/
  closed : Bool

/-- Whether the integer `n`, over the denominator 1, lies in the interval. -/
def Interval.mem (i : Interval) (n : Nat) : Bool :=
  if i.closed then i.low ≤ n * i.den && n * i.den ≤ i.high
  else i.low < n * i.den && n * i.den < i.high

/-- The interval with all its points divided by `10 ^ p`. -/
def Interval.scale (i : Interval) (p : Int) : Interval :=
  if 0 ≤ p then { i with den := i.den * Nat.pow 10 p.toNat }
  else
    let f := Nat.pow 10 (-p).toNat
    { i with low := i.low * f, mid := i.mid * f, high := i.high * f }

/-- The nearest integer in the interval among the two neighbours of its value, the larger
of two equally near ones. -/
def Interval.nearestInteger? (i : Interval) : Option Nat :=
  let down := i.mid / i.den
  let rest := i.mid % i.den
  match i.mem down, i.mem (down + 1) with
  | true, true => some (if 2 * rest < i.den then down else down + 1)
  | true, false => some down
  | false, true => some (down + 1)
  | false, false => none

/-- The reals that round to `m · 2 ^ q`. The gap below a power of two is half as wide as
the one above it. -/
def roundingInterval (m : Nat) (q : Int) (narrowBelow : Bool) : Interval :=
  let e := q - 2
  let up := 1 <<< e.toNat
  { low := (4 * m - if narrowBelow then 1 else 2) * up
    mid := 4 * m * up
    high := (4 * m + 2) * up
    den := 1 <<< (-e).toNat
    closed := m % 2 == 0 }

/-- Digits `d` and exponent `p` of the shortest decimal `d · 10 ^ p` that rounds to
`m · 2 ^ q`. Seventeen digits always suffice for a double. -/
def shortest (m : Nat) (q : Int) (narrowBelow : Bool) : Nat × Int :=
  let i := roundingInterval m q narrowBelow
  let e := magnitude i.mid i.den
  let found := (List.range 17).findSome? fun (k : Nat) =>
    let p := e - (k : Int)
    (i.scale p).nearestInteger?.map fun d => (d, p)
  found.getD (m, q)

/-- The digits `ds` with a point `places` digits from their right end and as many zeros
before them as it takes to have a digit on its left. -/
def placePoint (ds : List Char) (places : Nat) : List Char × List Char :=
  let padded := List.replicate (places + 1 - ds.length) '0' ++ ds
  (padded.take (padded.length - places), padded.drop (padded.length - places))

/-- The whole digits and the digits after the point of `d · 10 ^ p`, without zeros at the
end of the latter. -/
def positional (d : Nat) (p : Int) : List Char × List Char :=
  if 0 ≤ p then (natChars d ++ List.replicate p.toNat '0', [])
  else
    let (whole, fraction) := placePoint (natChars d) (-p).toNat
    (whole, (fraction.reverse.dropWhile (· == '0')).reverse)

/-- What a double is: not a number, an infinity, or a signed `m · 2 ^ q`. -/
inductive Parts
  | nan
  | infinite (negative : Bool)
  | finite (negative : Bool) (m : Nat) (q : Int) (narrowBelow : Bool)

/-- The parts of a double, from its bits. -/
def parts (x : Float) : Parts :=
  let bits := x.toBits.toNat
  let negative := bits >>> 63 == 1
  let exponent : Nat := bits >>> 52 % 2048
  let fraction : Nat := bits % (1 <<< 52)
  if exponent == 2047 then (if fraction == 0 then .infinite negative else .nan)
  else if exponent == 0 then .finite negative fraction (-1074) false
  else
    .finite negative (fraction + 1 <<< 52) ((exponent : Int) - 1075)
      (fraction == 0 && exponent != 1)

/-- Sign, whole digits and digits after the point of a finite double. -/
def digits? (x : Float) : Option (Bool × List Char × List Char) :=
  match parts x with
  | .finite negative m q narrowBelow =>
    if m = 0 then some (negative, ['0'], [])
    else
      let (d, p) := shortest m q narrowBelow
      some (negative, positional d p)
  | _ => none

/-- The text of a double: its shortest digits, positionally. -/
def floatText (x : Float) : String :=
  match parts x, digits? x with
  | .nan, _ => "NaN"
  | .infinite true, _ => "-inf"
  | .infinite false, _ => "inf"
  | _, some (negative, whole, fraction) =>
    String.ofList ((if negative then ['-'] else []) ++ whole ++
      if fraction.isEmpty then [] else '.' :: fraction)
  | _, none => ""

end Blockwork.Decimal
