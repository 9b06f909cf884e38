/-!
# Multiplicities

A multiplicity is an interval of occurrence counts. Its bounds are 32-bit words, and the
largest word as upper bound stands for no bound at all. An interval whose lower bound is
above its upper one is empty.

`shift` moves an interval by a number of occurrences that are supplied elsewhere, and
`divide` turns the counts of a parameter into the counts of an input that is used several
times in it.
-/

namespace Blockwork

/-- An interval of occurrence counts. -/
structure Multiplicity where
  /-- The lower bound. -/
  lower : UInt32
  /-- The upper bound, the largest word if there is none. -/
  upper : UInt32
deriving DecidableEq, Repr

namespace Multiplicity

/-- The word that stands for no upper bound. -/
def infinity : UInt32 :=
  4294967295

/-- Every count. -/
def any : Multiplicity :=
  ⟨0, infinity⟩

/-- The count 1 only. -/
def one : Multiplicity :=
  ⟨1, 1⟩

/-- The counts from `n` on. -/
def atLeast (n : UInt32) : Multiplicity :=
  ⟨n, infinity⟩

/-- The count `n` only. -/
def exactly (n : UInt32) : Multiplicity :=
  ⟨n, n⟩

/-- The counts between two bounds, of which the upper may be missing. -/
def ofBounds (lower : UInt32) (upper : Option UInt32) : Multiplicity :=
  ⟨lower, upper.getD infinity⟩

/-- Whether there is no upper bound. -/
def isUnbounded (m : Multiplicity) : Bool :=
  m.upper == infinity

/-- Whether no count lies in the interval. -/
def isEmpty (m : Multiplicity) : Bool :=
  m.upper < m.lower

/-- Whether exactly one count lies in the interval. -/
def isSingleton (m : Multiplicity) : Bool :=
  m.lower == m.upper && !m.isUnbounded

/-- Whether every count lies in the interval. -/
def isUnconstrained (m : Multiplicity) : Bool :=
  m == any

/-- Whether a count lies in the interval. -/
def contains (m : Multiplicity) (count : UInt32) : Bool :=
  m.lower ≤ count && count ≤ m.upper

/-- The counts in both intervals. -/
def intersect (m o : Multiplicity) : Multiplicity :=
  ⟨max m.lower o.lower, min m.upper o.upper⟩

/-- The word nearest to a bound that is not negative. -/
def clamp (n : Int) : UInt32 :=
  if 0 ≤ n ∧ n < 4294967296 then UInt32.ofNat n.toNat else infinity

/-- The interval moved by `d`. The lower bound stops at zero, and an interval that moves
below zero as a whole is empty. -/
def shift (m : Multiplicity) (d : Int) : Multiplicity :=
  let lower := max ((m.lower.toNat : Int) + d) 0
  let upper : Int := if m.isUnbounded then infinity.toNat else (m.upper.toNat : Int) + d
  if upper < 0 then ⟨1, 0⟩ else ⟨clamp lower, clamp upper⟩

/-- The counts `k` with `n * k` in the interval: the lower bound rounds up and the upper
one down. There is no such interval for `n = 0`. -/
def divide? (m : Multiplicity) (n : UInt32) : Option Multiplicity :=
  if n = 0 then none
  else
    let lower := (m.lower.toNat + (n.toNat - 1)) / n.toNat
    some ⟨UInt32.ofNat lower, if m.isUnbounded then infinity else m.upper / n⟩

/-- The interval as it is shown. -/
def text (m : Multiplicity) : String :=
  let upper := if m.isUnbounded then "∞" else toString m.upper.toNat
  s!"[{m.lower.toNat},{upper}]"

end Multiplicity

end Blockwork
