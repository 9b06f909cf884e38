import Blockwork.Json.Lexer

/-!
# JSON documents from tokens

`parse?` accepts one document with nothing but blanks around it. The reader is a machine
with a stack of the arrays and objects that are still open; each token moves it by one
step, so it reads any depth of nesting.
-/

namespace Blockwork.Json

/-- An array or object that is still open, with what it holds already, last first. -/
inductive Frame
  | array (items : List Json)
  | member (members : List (Text × Json)) (key : Text)

/-- What the machine expects, or the value it has just read. -/
inductive Expect
  | value
  | element
  | key (members : List (Text × Json)) (first : Bool)
  | colon (members : List (Text × Json)) (key : Text)
  | after (value : Json)

/-- The machine: what it expects and the open frames, innermost first. -/
structure Machine where
  /-- What it expects. -/
  expect : Expect
  /-- The open frames, innermost first. -/
  stack : List Frame

/-- The document of a token that is one by itself. -/
def Token.scalar? : Token → Option Json
  | .null => some .null
  | .bool b => some (.bool b)
  | .number n => some (.number n)
  | .string s => some (.string s)
  | _ => none

/-- A token where a value starts. -/
def Machine.startValue (stack : List Frame) (t : Token) : Option Machine :=
  match t with
  | .openArray => some ⟨.element, .array [] :: stack⟩
  | .openObject => some ⟨.key [] true, stack⟩
  | t => t.scalar?.map fun v => ⟨.after v, stack⟩

/-- A token after the value `v`. -/
def Machine.afterValue (stack : List Frame) (v : Json) (t : Token) : Option Machine :=
  match stack, t with
  | .array items :: stack, .comma => some ⟨.value, .array (v :: items) :: stack⟩
  | .array items :: stack, .closeArray => some ⟨.after (.array (v :: items).reverse), stack⟩
  | .member members key :: stack, .comma => some ⟨.key ((key, v) :: members) false, stack⟩
  | .member members key :: stack, .closeObject =>
    some ⟨.after (.object ((key, v) :: members).reverse), stack⟩
  | _, _ => none

/-- One token read. -/
def Machine.step (m : Machine) (t : Token) : Option Machine :=
  match m.expect, t with
  | .value, t => Machine.startValue m.stack t
  | .element, .closeArray =>
    match m.stack with
    | .array items :: stack => some ⟨.after (.array items.reverse), stack⟩
    | _ => none
  | .element, t => Machine.startValue m.stack t
  | .key members _, .string key => some ⟨.colon members key, m.stack⟩
  | .key members true, .closeObject => some ⟨.after (.object members.reverse), m.stack⟩
  | .colon members key, .colon => some ⟨.value, .member members key :: m.stack⟩
  | .after v, t => Machine.afterValue m.stack v t
  | _, _ => none

/-- The document read, if it is complete. -/
def Machine.result? (m : Machine) : Option Json :=
  match m.expect, m.stack with
  | .after v, [] => some v
  | _, _ => none

/-- The document written by the tokens. -/
def read? (ts : List Token) : Option Json := do
  let m ← ts.foldlM Machine.step ⟨.value, []⟩
  m.result?

/-- The document written by a text. -/
def parse? (text : String) : Option Json := do
  let ts ← lex text.toList
  read? ts

end Blockwork.Json
