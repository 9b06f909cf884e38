import Blockwork.Cause
import Blockwork.Draft.Basic
import Blockwork.Json.Reader
import Blockwork.Json.Record

/-!
# Reading drafts

A draft is read from a JSON document, a bundle or a block at a time. Most parts are records,
written as objects or as arrays. A declaration is an object only: it names what it is a use
of by the first of its members `component` and `block`. A type draft says by its member
`kind` whether it is a class or an interface. All members of these two are kept until that
is known, so they have to be fit for it wherever they stand.

The number `depth` counts the arrays and objects around a value.
-/

namespace Blockwork

open Json (text? flag? count? list?)

/-! ## Types -/

namespace TypeDraft

/-- The fields of a class. -/
def classFields : List String :=
  ["name", "parent", "interfaces", "isFinal"]

/-- The fields of an interface. -/
def interfaceFields : List String :=
  ["name", "extends"]

/-- A class from its fields. -/
def ofClassRecord? (r : Json.Record) : Option TypeDraft := do
  let name ← r.required? "name" text?
  let parent ← r.optional? "parent" text?
  let interfaces ← r.defaulted? "interfaces" (list? text?) []
  let isFinal ← r.defaulted? "isFinal" flag? false
  return .ofClass name parent interfaces isFinal

/-- An interface from its fields. -/
def ofInterfaceRecord? (r : Json.Record) : Option TypeDraft := do
  let name ← r.required? "name" text?
  let extended ← r.defaulted? "extends" (list? text?) []
  return .ofInterface name extended

/-- A type draft of the kind `tag` from a document without the kind. -/
def ofTagged? (tag : Json) (body : Json) : Option TypeDraft := do
  let tag ← text? tag
  if tag = "class" then Json.record? classFields body >>= ofClassRecord?
  else if tag = "interface" then Json.record? interfaceFields body >>= ofInterfaceRecord?
  else none

/-- Whether a member is the kind. -/
def isKind (m : Json.Text × Json) : Bool :=
  m.1 == some "kind"

/-- A type draft. -/
def decode? (depth : Nat) (j : Json) : Option TypeDraft :=
  if !Json.fits depth j then none
  else
    match j with
    | .object members =>
      match members.filter isKind with
      | [(_, tag)] => ofTagged? tag (.object (members.filter fun m => !isKind m))
      | _ => none
    | .array (tag :: items) => ofTagged? tag (.array items)
    | _ => none

end TypeDraft

/-! ## Components -/

/-- An attribute of a component's parameter. -/
def ComponentAttrDraft.decode? (j : Json) : Option ComponentAttrDraft := do
  let r ← Json.record? ["name", "type", "default", "pipeline", "doc"] j
  let name ← r.required? "name" text?
  let type ← r.required? "type" text?
  let default ← r.optional? "default" text?
  let pipeline ← r.defaulted? "pipeline" flag? false
  let doc ← r.optional? "doc" text?
  return ⟨name, type, default, pipeline, doc⟩

/-- A parameter of a component. -/
def ComponentParamDraft.decode? (j : Json) : Option ComponentParamDraft := do
  let r ← Json.record? ["name", "min", "max", "doc", "attributes"] j
  let name ← r.required? "name" text?
  let min ← r.defaulted? "min" count? 0
  let max ← r.optional? "max" count?
  let doc ← r.optional? "doc" text?
  let attributes ← r.defaulted? "attributes" (list? ComponentAttrDraft.decode?) []
  return ⟨name, min, max, doc, attributes⟩

/-- The output of a component. -/
def ComponentOutputDraft.decode? (j : Json) : Option ComponentOutputDraft := do
  let r ← Json.record? ["name", "type", "doc"] j
  let name ← r.defaulted? "name" text? ""
  let type ← r.required? "type" text?
  let doc ← r.optional? "doc" text?
  return ⟨name, type, doc⟩

/-- A component. -/
def ComponentDraft.decode? (j : Json) : Option ComponentDraft := do
  let r ← Json.record? ["name", "doc", "parameters", "output"] j
  let name ← r.required? "name" text?
  let doc ← r.optional? "doc" text?
  let parameters ← r.defaulted? "parameters" (list? ComponentParamDraft.decode?) []
  let output ← r.required? "output" ComponentOutputDraft.decode?
  return ⟨name, doc, parameters, output⟩

/-! ## Blocks -/

/-- The literal of a number: an integer of 32 bits, otherwise one of 64 bits, otherwise a
double. -/
def Scalar.literal : Scalar → Literal
  | .int n =>
    if Int32.minValue.toInt ≤ n ∧ n ≤ Int32.maxValue.toInt then .integer (Int32.ofInt n)
    else if Int64.minValue.toInt ≤ n ∧ n ≤ Int64.maxValue.toInt then .long (Int64.ofInt n)
    else .double (Float.ofInt n)
  | .real x => .double x

/-- What is given for an attribute: a text, a truth value or a number. -/
def RawValue.decode? : Json → Option RawValue
  | .string (some s) => some (.text s)
  | .bool b => some (.immediate (.boolean b))
  | .number n => n.value?.map fun v => .immediate v.literal
  | _ => none

/-- An attribute as a declaration gives it. -/
def AttrDraft.decode? (j : Json) : Option AttrDraft := do
  let r ← Json.record? ["name", "value"] j
  let name ← r.required? "name" text?
  let value ← r.required? "value" RawValue.decode?
  return ⟨name, value⟩

/-- One occurrence of a parameter in a declaration. -/
def ParamDraft.decode? (j : Json) : Option ParamDraft := do
  let r ← Json.record? ["name", "attributes"] j
  let name ← r.required? "name" text?
  let attributes ← r.defaulted? "attributes" (list? AttrDraft.decode?) []
  return ⟨name, attributes⟩

namespace DeclarationDraft

/-- The fields of a declaration besides what it is a use of. -/
def fields : List String :=
  ["name", "condition", "line", "doc", "params"]

/-- What the first member `component` or `block` says. -/
def kind? : List (Json.Text × Json) → Option DeclarationKind
  | [] => none
  | (key, v) :: ms =>
    if key = some "component" then (text? v).map .component
    else if key = some "block" then (text? v).map .block
    else kind? ms

/-- Whether all members that are no fields are fit to be kept. -/
def extrasFit (depth : Nat) (members : List (Json.Text × Json)) : Bool :=
  members.all fun (key, v) =>
    match key with
    | none => false
    | some k => fields.contains k || Json.fits depth v

/-- A declaration. -/
def decode? (depth : Nat) : Json → Option DeclarationDraft
  | .object members => do
    if !extrasFit (depth + 1) members then none
    let r ← Json.Record.ofMembers? fields members
    let name ← r.required? "name" text?
    let condition ← r.optional? "condition" text?
    let line ← r.optional? "line" count?
    let doc ← r.optional? "doc" text?
    let params ← r.defaulted? "params" (list? ParamDraft.decode?) []
    let kind ← kind? members
    return ⟨name, kind, condition, line, doc, params⟩
  | _ => none

end DeclarationDraft

/-- An attribute of an input. -/
def BlockAttrDraft.decode? (j : Json) : Option BlockAttrDraft := do
  let r ← Json.record? ["name", "doc"] j
  let name ← r.required? "name" text?
  let doc ← r.optional? "doc" text?
  return ⟨name, doc⟩

/-- An input of a block. -/
def BlockParamDraft.decode? (j : Json) : Option BlockParamDraft := do
  let r ← Json.record? ["name", "doc", "attributes"] j
  let name ← r.required? "name" text?
  let doc ← r.optional? "doc" text?
  let attributes ← r.defaulted? "attributes" (list? BlockAttrDraft.decode?) []
  return ⟨name, doc, attributes⟩

/-- An output of a block. -/
def OutputDraft.decode? (j : Json) : Option OutputDraft := do
  let r ← Json.record? ["name", "ref", "doc"] j
  let name ← r.required? "name" text?
  let reference ← r.required? "ref" text?
  let doc ← r.optional? "doc" text?
  return ⟨name, reference, doc⟩

namespace BlockDraft

/-- A block inside `depth` arrays and objects. Two more stand around its declarations. -/
def decode? (depth : Nat) (j : Json) : Option BlockDraft := do
  let r ← Json.record? ["name", "origin", "doc", "params", "declarations", "outputs"] j
  let name ← r.required? "name" text?
  let origin ← r.optional? "origin" text?
  let doc ← r.optional? "doc" text?
  let params ← r.defaulted? "params" (list? BlockParamDraft.decode?) []
  let declarations ← r.defaulted? "declarations" (list? (DeclarationDraft.decode? (depth + 2))) []
  let outputs ← r.defaulted? "outputs" (list? OutputDraft.decode?) []
  return ⟨name, origin, doc, params, declarations, outputs⟩

/-- A block from a document. -/
def ofJson (j : Json) : Except Diagnostic BlockDraft :=
  match decode? 0 j with
  | some b => .ok b
  | none => .error (Cause.unreadableDraft.report .unknown)

/-- A block from a text. -/
def parse (text : String) : Except Diagnostic BlockDraft :=
  match Json.parse? text with
  | some j => ofJson j
  | none => .error (Cause.unreadableDraft.report .unknown)

end BlockDraft

namespace Bundle

/-- A bundle. Two arrays or objects stand around each of its parts. -/
def decode? (j : Json) : Option Bundle := do
  let r ← Json.record? ["types", "components", "blocks"] j
  let types ← r.defaulted? "types" (list? (TypeDraft.decode? 2)) []
  let components ← r.defaulted? "components" (list? ComponentDraft.decode?) []
  let blocks ← r.defaulted? "blocks" (list? (BlockDraft.decode? 2)) []
  return ⟨types, components, blocks⟩

/-- A bundle from a document. -/
def ofJson (j : Json) : Except Diagnostic Bundle :=
  match decode? j with
  | some b => .ok b
  | none => .error (Cause.unreadableBundle.report .unknown)

/-- A bundle from a text. -/
def parse (text : String) : Except Diagnostic Bundle :=
  match Json.parse? text with
  | some j => ofJson j
  | none => .error (Cause.unreadableBundle.report .unknown)

end Bundle

end Blockwork
