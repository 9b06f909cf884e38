import Blockwork.Decimal.Nearest
import Blockwork.Decimal.Shortest
import Blockwork.Text.Blank

/-!
# Literals

A literal is a value written out in a draft. `LiteralKind.read` makes one from text: blanks
around it are dropped, except that a text is taken as it stands. `Literal.shown` writes it.
-/

namespace Blockwork

/-- The ways to read a literal. -/
inductive LiteralKind
  | boolean
  | integer
  | long
  | double
  | text
deriving DecidableEq, Repr

/-- A value written out in a draft. -/
inductive Literal
  | boolean (value : Bool)
  | integer (value : Int32)
  | long (value : Int64)
  | double (value : Float)
  | text (value : String)
deriving DecidableEq

/-- Why a text is no literal of a type. -/
inductive LiteralError
  | inconstructible (type : String)
  | noLiteralForm (type : String)
  | malformed (text : String) (kind : LiteralKind)
deriving DecidableEq, Repr

namespace LiteralKind

/-- The kind as it is called in a message. -/
def noun : LiteralKind → String
  | boolean => "boolean"
  | integer => "integer"
  | long => "long"
  | double => "double"
  | text => "text"

/-- The integer written by a text, if it is within the bounds. -/
def readWithin? (least greatest : Int) (cs : List Char) : Option Int := do
  let n ← Decimal.readInt? cs
  if least ≤ n ∧ n ≤ greatest then some n else none

/-- The literal of this kind written by a trimmed text. -/
def readTrimmed? : LiteralKind → List Char → Option Literal
  | boolean, cs =>
    if cs = ['t', 'r', 'u', 'e'] then some (.boolean true)
    else if cs = ['f', 'a', 'l', 's', 'e'] then some (.boolean false)
    else none
  | integer, cs =>
    (readWithin? Int32.minValue.toInt Int32.maxValue.toInt cs).map fun n =>
      .integer (Int32.ofInt n)
  | long, cs =>
    (readWithin? Int64.minValue.toInt Int64.maxValue.toInt cs).map fun n =>
      .long (Int64.ofInt n)
  | double, cs => (Decimal.readFloat? cs).map .double
  | text, cs => some (.text (String.ofList cs))

/-- The literal of this kind written by a text. -/
def read (kind : LiteralKind) (s : String) : Except LiteralError Literal :=
  match kind with
  | text => .ok (.text s)
  | kind =>
    match kind.readTrimmed? (Text.trimChars s.toList) with
    | some v => .ok v
    | none => .error (.malformed s kind)

end LiteralKind

namespace Literal

/-- The kind of a literal. -/
def kind : Literal → LiteralKind
  | boolean _ => .boolean
  | integer _ => .integer
  | long _ => .long
  | double _ => .double
  | text _ => .text

/-- The literal as it is shown. -/
def shown : Literal → String
  | boolean true => "true"
  | boolean false => "false"
  | integer n => String.ofList (Decimal.intChars n.toInt)
  | long n => String.ofList (Decimal.intChars n.toInt)
  | double x => Decimal.floatText x
  | text s => s

end Literal

namespace LiteralError

/-- The error as it is shown. -/
def message : LiteralError → String
  | inconstructible type => s!"type '{type}' has interfaces and cannot be built from a literal"
  | noLiteralForm type => s!"type '{type}' has no literal form"
  | malformed text kind => s!"'{text}' is not a valid {kind.noun}"

end LiteralError

end Blockwork
