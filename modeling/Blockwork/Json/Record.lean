import Blockwork.Json.Scalar

/-!
# Reading values out of a document

A record is read from an object or from the array of its fields in their order. In an
object a field may stand anywhere, at most once, among members nobody reads. In an array no
field may be left out but a run of defaulted ones at the end.
-/

namespace Blockwork.Json

/-! ## Single values -/

/-- The text of a string. -/
def text? : Json → Option String
  | .string s => s
  | _ => none

/-- The truth value of `true` or `false`. -/
def flag? : Json → Option Bool
  | .bool b => some b
  | _ => none

/-- An integer of 32 bits without sign. -/
def count? : Json → Option UInt32
  | .number n =>
    match n.int? with
    | some (.ofNat m) => if m < UInt32.size then some (UInt32.ofNat m) else none
    | _ => none
  | _ => none

/-- The values of an array, each read in the same way. -/
def list? (read : Json → Option α) : Json → Option (List α)
  | .array items => items.mapM read
  | _ => none

/-- `none` from `null`, a value from anything else. -/
def nullable? (read : Json → Option α) : Json → Option (Option α)
  | .null => some none
  | j => (read j).map some

/-! ## Fit to be kept

Where a member is kept before it is known what it means, its texts must be texts, its
numbers must have a value and it must not be nested too deeply. -/

/-- How many arrays and objects may stand around a value that is kept, itself included. -/
def nestingLimit : Nat :=
  127

mutual

/-- Whether a value inside `depth` arrays and objects is fit to be kept. -/
def fits (depth : Nat) : Json → Bool
  | .null => true
  | .bool _ => true
  | .number n => n.value?.isSome
  | .string s => s.isSome
  | .array items => depth < nestingLimit && itemsFit (depth + 1) items
  | .object members => depth < nestingLimit && membersFit (depth + 1) members

/-- Whether all items are fit to be kept. -/
def itemsFit (depth : Nat) : List Json → Bool
  | [] => true
  | v :: vs => fits depth v && itemsFit depth vs

/-- Whether all keys and values of the members are fit to be kept. -/
def membersFit (depth : Nat) : List (Text × Json) → Bool
  | [] => true
  | (k, v) :: ms => k.isSome && fits depth v && membersFit depth ms

end

/-! ## Records -/

/-- The fields given for a record, and whether they were given by position. -/
structure Record where
  /-- Whether the fields were given by position. -/
  positional : Bool
  /-- The fields given, by name. -/
  fields : List (String × Json)

/-- The members whose names are among `keys`, if all names are texts. -/
def knownMembers? (keys : List String) : List (Text × Json) → Option (List (String × Json))
  | [] => some []
  | (none, _) :: _ => none
  | (some k, v) :: ms => do
    let rest ← knownMembers? keys ms
    return if keys.contains k then (k, v) :: rest else rest

/-- Whether no name occurs twice. -/
def distinctNames : List (String × Json) → Bool
  | [] => true
  | (k, _) :: ms => !(ms.any fun m => m.1 == k) && distinctNames ms

/-- The record with the given fields from the members of an object. -/
def Record.ofMembers? (keys : List String) (members : List (Text × Json)) : Option Record := do
  let fields ← knownMembers? keys members
  if distinctNames fields then some ⟨false, fields⟩ else none

/-- The record with the given fields from their values in order. -/
def Record.ofItems? (keys : List String) (items : List Json) : Option Record :=
  if items.length ≤ keys.length then some ⟨true, keys.zip items⟩ else none

/-- The record with the given fields from an object or an array. -/
def record? (keys : List String) : Json → Option Record
  | .object members => Record.ofMembers? keys members
  | .array items => Record.ofItems? keys items
  | _ => none

namespace Record

/-- The value given for a field. -/
def get? (r : Record) (key : String) : Option Json :=
  r.fields.lookup key

/-- A field that must be given. -/
def required? (r : Record) (key : String) (read : Json → Option α) : Option α := do
  let v ← r.get? key
  read v

/-- A field that may be `null`, or left out of an object. -/
def optional? (r : Record) (key : String) (read : Json → Option α) : Option (Option α) :=
  match r.get? key with
  | some v => nullable? read v
  | none => if r.positional then none else some none

/-- A field that may be left out and then has a default. -/
def defaulted? (r : Record) (key : String) (read : Json → Option α) (default : α) : Option α :=
  match r.get? key with
  | some v => read v
  | none => some default

end Record

end Blockwork.Json
