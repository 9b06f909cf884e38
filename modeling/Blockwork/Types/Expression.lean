import Blockwork.Types.ClassType

/-!
# Type expressions and literals of a type

A type expression is a list of names joined by `&`, such as `Number & Comparable`, and
denotes the merged type of all of them. `readLiteral` reads a text as a literal of a type
and `literalType` gives the type of a literal.
-/

namespace Blockwork

/-- The pieces of a text between the occurrences of a character. There is one piece more
than there are occurrences. -/
def splitAt (sep : Char) : List Char → List (List Char)
  | [] => [[]]
  | c :: cs =>
    if c = sep then [] :: splitAt sep cs
    else
      match splitAt sep cs with
      | [] => [[c]]
      | piece :: pieces => (c :: piece) :: pieces

namespace Hierarchy

variable (h : Hierarchy)

/-- The type named by a piece of an expression. -/
def typeNamed (name : String) : Except TypeError ClassType :=
  match h.lookup name with
  | none => .error (.unknown name)
  | some id => .ok (h.single id)

/-- The names in a type expression. -/
def expressionNames (s : String) : List String :=
  (splitAt '&' s.toList).map fun cs => String.ofList (Text.trimChars cs)

/-- The type denoted by an expression: its names merged from left to right. -/
def parse (s : String) : Except TypeError ClassType :=
  (expressionNames s).foldlM
    (fun t name => do
      let next ← h.typeNamed name
      h.merge t next)
    ClassType.object

/-- The literal of a type written by a text. A type with interfaces has none, and of the
classes only those with a literal form. -/
def readLiteral (s : String) (target : ClassType) : Except LiteralError Literal :=
  if target.hasInterfaces then .error (.inconstructible (h.describe target))
  else
    match h.literalKind? target.base with
    | none => .error (.noLiteralForm (h.describe target))
    | some kind => kind.read s

/-- The type of a literal, or all values if its class is not defined. -/
def literalType (v : Literal) : ClassType :=
  match h.lookup (literalTypeName v.kind) with
  | some id => h.single id
  | none => ClassType.object

/-- A literal given for a type: kept if it has the type, otherwise read again from its
text. A text is not read again. -/
def coerce? (v : Literal) (target : ClassType) : Option Literal :=
  if h.assignable target (h.literalType v) then some v
  else
    match v with
    | .text _ => none
    | v => (h.readLiteral v.shown target).toOption

end Hierarchy

end Blockwork
