/-!
# Ascending lists

A set of numbers is kept as the list of its members in ascending order, each of them once.
-/

namespace Blockwork

/-- The set with one more number. -/
def insertAscending (a : Nat) : List Nat → List Nat
  | [] => [a]
  | b :: l =>
    if a < b then a :: b :: l
    else if b < a then b :: insertAscending a l
    else b :: l

/-- The set of the numbers in a list. -/
def ascending (l : List Nat) : List Nat :=
  l.foldr insertAscending []

end Blockwork
