import Blockwork.Json.Basic

/-!
# The tokens of a JSON text

`lex` runs an automaton over the characters: outside every token, inside a word (a
literal name or a numeral), inside a string, or after a backslash in a string. A word ends
at the first character no word holds, and a string at the first quote that is not escaped.
What stands between the quotes is unescaped once the string is complete.
-/

namespace Blockwork.Json

/-- A token. -/
inductive Token
  | openArray
  | closeArray
  | openObject
  | closeObject
  | comma
  | colon
  | null
  | bool (value : Bool)
  | number (numeral : Numeral)
  | string (text : Text)
deriving DecidableEq

/-! ## Numerals -/

/-- The exponent of a numeral: nothing, or `e`, an optional sign and digits. -/
def readExponent? : List Char → Option (Option (Bool × List Char))
  | [] => some none
  | c :: cs =>
    if c = 'e' ∨ c = 'E' then
      let (negative, digits) := match cs with
        | '-' :: ds => (true, ds)
        | '+' :: ds => (false, ds)
        | ds => (false, ds)
      if digits ≠ [] ∧ digits.all Char.isDigit then some (some (negative, digits)) else none
    else none

/-- The digits after the point, which is followed by at least one, and the rest. -/
def readFraction? : List Char → Option (List Char × List Char)
  | '.' :: cs =>
    match cs.takeWhile Char.isDigit with
    | [] => none
    | ds => some (ds, cs.dropWhile Char.isDigit)
  | cs => some ([], cs)

/-- A run of digits does not start with a zero unless it is that zero. -/
def isWhole : List Char → Bool
  | [] => false
  | ['0'] => true
  | c :: _ => c != '0'

/-- A numeral after its sign. -/
def readUnsigned? (negative : Bool) (cs : List Char) : Option Numeral := do
  let whole := cs.takeWhile Char.isDigit
  if !isWhole whole then none
  let (fraction, rest) ← readFraction? (cs.dropWhile Char.isDigit)
  let exponent ← readExponent? rest
  return ⟨negative, whole, fraction, exponent⟩

/-- The numeral written by a word. -/
def readNumeral? : List Char → Option Numeral
  | '-' :: cs => readUnsigned? true cs
  | cs => readUnsigned? false cs

/-- The token written by a word. -/
def wordToken? (word : List Char) : Option Token :=
  if word = ['n', 'u', 'l', 'l'] then some .null
  else if word = ['t', 'r', 'u', 'e'] then some (.bool true)
  else if word = ['f', 'a', 'l', 's', 'e'] then some (.bool false)
  else (readNumeral? word).map .number

/-! ## Strings -/

/-- The value of a hexadecimal digit. -/
def hexDigit? (c : Char) : Option Nat :=
  if '0' ≤ c ∧ c ≤ '9' then some (c.toNat - '0'.toNat)
  else if 'a' ≤ c ∧ c ≤ 'f' then some (c.toNat - 'a'.toNat + 10)
  else if 'A' ≤ c ∧ c ≤ 'F' then some (c.toNat - 'A'.toNat + 10)
  else none

/-- The number written by four hexadecimal digits. -/
def hexUnit? (a b c d : Char) : Option Nat := do
  let a ← hexDigit? a
  let b ← hexDigit? b
  let c ← hexDigit? c
  let d ← hexDigit? d
  return ((a * 16 + b) * 16 + c) * 16 + d

/-- The character of an escape other than `\u`. -/
def simpleEscape? : Char → Option Char
  | '"' => some '"'
  | '\\' => some '\\'
  | '/' => some '/'
  | 'b' => some '\x08'
  | 'f' => some '\x0c'
  | 'n' => some '\n'
  | 'r' => some '\r'
  | 't' => some '\t'
  | _ => none

/-- The content of a string: characters and sixteen-bit units of escapes, in order, or
`none` if an escape is malformed. -/
def units? : List Char → Option (List (Char ⊕ Nat))
  | [] => some []
  | '\\' :: 'u' :: a :: b :: c :: d :: cs => do
    let n ← hexUnit? a b c d
    let rest ← units? cs
    return .inr n :: rest
  | '\\' :: c :: cs => do
    let c ← simpleEscape? c
    let rest ← units? cs
    return .inl c :: rest
  | ['\\'] => none
  | c :: cs => do
    let rest ← units? cs
    return .inl c :: rest

/-- Whether a unit is the first of a surrogate pair. -/
def isHighUnit (n : Nat) : Bool :=
  0xD800 ≤ n && n < 0xDC00

/-- Whether a unit is the second of a surrogate pair. -/
def isLowUnit (n : Nat) : Bool :=
  0xDC00 ≤ n && n < 0xE000

/-- The characters of a string's content: a pair of surrogate units is one character, and
half of a pair is none. -/
def joinUnits? : List (Char ⊕ Nat) → Option (List Char)
  | [] => some []
  | .inl c :: us => (joinUnits? us).map (c :: ·)
  | .inr n :: us =>
    if isLowUnit n then none
    else if isHighUnit n then
      match us with
      | .inr m :: us =>
        if isLowUnit m then
          (joinUnits? us).map (Char.ofNat (0x10000 + (n - 0xD800) * 0x400 + (m - 0xDC00)) :: ·)
        else none
      | _ => none
    else (joinUnits? us).map (Char.ofNat n :: ·)

/-- The text between two quotes, or `none` if it is malformed. -/
def unescape? (cs : List Char) : Option Text :=
  (units? cs).map fun us => (joinUnits? us).map String.ofList

/-! ## The automaton -/

/-- Where the automaton stands. Characters already read are kept last first. -/
inductive Mode
  | between
  | word (seen : List Char)
  | string (seen : List Char)
  | escape (seen : List Char)

/-- The tokens read so far, last first, and where the automaton stands. -/
structure Scan where
  /-- The tokens, last first. -/
  tokens : List Token
  /-- Where the automaton stands. -/
  mode : Mode

/-- The blanks between tokens. -/
def isGap (c : Char) : Bool :=
  c == ' ' || c == '\t' || c == '\n' || c == '\r'

/-- The characters of literal names and numerals. -/
def isWordChar (c : Char) : Bool :=
  c.isAlphanum || c == '+' || c == '-' || c == '.'

/-- The tokens of one character. -/
def punctuation? : Char → Option Token
  | '[' => some .openArray
  | ']' => some .closeArray
  | '\x7b' => some .openObject
  | '\x7d' => some .closeObject
  | ',' => some .comma
  | ':' => some .colon
  | _ => none

/-- One character read outside every token. -/
def Scan.start (tokens : List Token) (c : Char) : Option Scan :=
  if isGap c then some ⟨tokens, .between⟩
  else if c = '"' then some ⟨tokens, .string []⟩
  else if isWordChar c then some ⟨tokens, .word [c]⟩
  else (punctuation? c).map fun t => ⟨t :: tokens, .between⟩

/-- One character read. -/
def Scan.step (s : Scan) (c : Char) : Option Scan :=
  match s.mode with
  | .between => Scan.start s.tokens c
  | .word seen =>
    if isWordChar c then some ⟨s.tokens, .word (c :: seen)⟩
    else do
      let t ← wordToken? seen.reverse
      Scan.start (t :: s.tokens) c
  | .string seen =>
    if c = '"' then do
      let text ← unescape? seen.reverse
      return ⟨.string text :: s.tokens, .between⟩
    else if c = '\\' then some ⟨s.tokens, .escape (c :: seen)⟩
    else if c.toNat < 0x20 then none
    else some ⟨s.tokens, .string (c :: seen)⟩
  | .escape seen =>
    if c.toNat < 0x20 then none else some ⟨s.tokens, .string (c :: seen)⟩

/-- The tokens at the end of the text, in order. -/
def Scan.finish? (s : Scan) : Option (List Token) :=
  match s.mode with
  | .between => some s.tokens.reverse
  | .word seen => (wordToken? seen.reverse).map fun t => (t :: s.tokens).reverse
  | _ => none

/-- The tokens of a text, or `none` if it has a character outside every token. -/
def lex (cs : List Char) : Option (List Token) := do
  let s ← cs.foldlM Scan.step ⟨[], .between⟩
  s.finish?

end Blockwork.Json
