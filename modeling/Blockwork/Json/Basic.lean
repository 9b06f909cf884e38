import Blockwork.Decimal.Shortest

/-!
# JSON documents as written

A `Json` keeps what a reader may still want to know about the text: the members of an
object in their order, with repetitions, and numerals as their digits. A string escape may
name half of a surrogate pair, which is no character; such a text is kept as `none`, and a
document may hold one only where nobody reads it.
-/

namespace Blockwork

/-- A numeral by its parts: sign, whole digits, digits after the point and the sign and
digits of an exponent. -/
structure Numeral where
  /-- Whether it starts with a minus sign. -/
  negative : Bool
  /-- The digits before the point. -/
  whole : List Char
  /-- The digits after the point, empty if there is none. -/
  fraction : List Char
  /-- Whether the exponent is negative, and its digits. -/
  exponent : Option (Bool × List Char)
deriving DecidableEq

namespace Json

/-- The content of a string, `none` if an escape in it names no character. -/
abbrev Text := Option String

end Json

/-- A JSON document. -/
inductive Json
  | null
  | bool (value : Bool)
  | number (numeral : Numeral)
  | string (text : Json.Text)
  | array (items : List Json)
  | object (members : List (Json.Text × Json))

namespace Numeral

/-- The numeral of an integer. -/
def ofInt (n : Int) : Numeral :=
  ⟨decide (n < 0), Decimal.natChars n.natAbs, [], none⟩

/-- The numeral of a finite double: its shortest digits, with at least one digit after
the point. -/
def ofFloat? (x : Float) : Option Numeral :=
  (Decimal.digits? x).map fun (negative, whole, fraction) =>
    ⟨negative, whole, if fraction.isEmpty then ['0'] else fraction, none⟩

end Numeral

namespace Json

/-- The document of a text. -/
def ofString (s : String) : Json :=
  .string (some s)

/-- The document of an integer. -/
def ofInt (n : Int) : Json :=
  .number (Numeral.ofInt n)

/-- The document of a natural number. -/
def ofNat (n : Nat) : Json :=
  ofInt n

/-- The document of a double, `null` if it is not finite. -/
def ofFloat (x : Float) : Json :=
  match Numeral.ofFloat? x with
  | some n => .number n
  | none => .null

/-- The array of the documents of a list. -/
def ofList (f : α → Json) (l : List α) : Json :=
  .array (l.map f)

/-- The document of an optional value, `null` if it is absent. -/
def ofOption (f : α → Json) : Option α → Json
  | some a => f a
  | none => .null

/-- The object with the given members. -/
def record (members : List (String × Json)) : Json :=
  .object (members.map fun (k, v) => (some k, v))

end Json

end Blockwork
