import Blockwork.Draft.Basic
import Blockwork.Json.Printer

/-!
# Writing drafts

A draft is written as a JSON document with all its fields: `null` for what is absent and
the defaults for what was left out. How a double is written is left to the caller;
`Json.ofFloat` writes it as a number.
-/

namespace Blockwork

open Json (ofString ofList ofOption)

/-- A type draft, with its kind. -/
def TypeDraft.toJson : TypeDraft → Json
  | .ofClass name parent interfaces isFinal => .record [
      ("kind", ofString "class"), ("name", ofString name), ("parent", ofOption ofString parent),
      ("interfaces", ofList ofString interfaces), ("isFinal", .bool isFinal)]
  | .ofInterface name extended => .record [
      ("kind", ofString "interface"), ("name", ofString name),
      ("extends", ofList ofString extended)]

/-- A count of occurrences or a line. -/
def Json.ofCount (n : UInt32) : Json :=
  Json.ofNat n.toNat

/-- An attribute of a component's parameter. -/
def ComponentAttrDraft.toJson (a : ComponentAttrDraft) : Json :=
  .record [
    ("name", ofString a.name), ("type", ofString a.type),
    ("default", ofOption ofString a.default), ("pipeline", .bool a.pipeline),
    ("doc", ofOption ofString a.doc)]

/-- A parameter of a component. -/
def ComponentParamDraft.toJson (p : ComponentParamDraft) : Json :=
  .record [
    ("name", ofString p.name), ("min", Json.ofCount p.min),
    ("max", ofOption Json.ofCount p.max), ("doc", ofOption ofString p.doc),
    ("attributes", ofList ComponentAttrDraft.toJson p.attributes)]

/-- The output of a component. -/
def ComponentOutputDraft.toJson (o : ComponentOutputDraft) : Json :=
  .record [
    ("name", ofString o.name), ("type", ofString o.type), ("doc", ofOption ofString o.doc)]

/-- A component. -/
def ComponentDraft.toJson (c : ComponentDraft) : Json :=
  .record [
    ("name", ofString c.name), ("doc", ofOption ofString c.doc),
    ("parameters", ofList ComponentParamDraft.toJson c.parameters),
    ("output", c.output.toJson)]

/-- A literal. -/
def Literal.toJson (real : Float → Json) : Literal → Json
  | .boolean b => .bool b
  | .integer n => Json.ofInt n.toInt
  | .long n => Json.ofInt n.toInt
  | .double x => real x
  | .text s => ofString s

/-- What is given for an attribute. -/
def RawValue.toJson (real : Float → Json) : RawValue → Json
  | .text s => ofString s
  | .immediate v => v.toJson real

/-- An attribute as a declaration gives it. -/
def AttrDraft.toJson (real : Float → Json) (a : AttrDraft) : Json :=
  .record [("name", ofString a.name), ("value", a.value.toJson real)]

/-- One occurrence of a parameter in a declaration. -/
def ParamDraft.toJson (real : Float → Json) (p : ParamDraft) : Json :=
  .record [("name", ofString p.name), ("attributes", ofList (AttrDraft.toJson real) p.attributes)]

/-- The member that says what a declaration is a use of. -/
def DeclarationKind.toMember : DeclarationKind → String × Json
  | .component name => ("component", ofString name)
  | .block name => ("block", ofString name)

/-- A declaration. -/
def DeclarationDraft.toJson (real : Float → Json) (d : DeclarationDraft) : Json :=
  .record [
    ("name", ofString d.name), d.kind.toMember,
    ("condition", ofOption ofString d.condition), ("line", ofOption Json.ofCount d.line),
    ("doc", ofOption ofString d.doc), ("params", ofList (ParamDraft.toJson real) d.params)]

/-- An attribute of an input. -/
def BlockAttrDraft.toJson (a : BlockAttrDraft) : Json :=
  .record [("name", ofString a.name), ("doc", ofOption ofString a.doc)]

/-- An input of a block. -/
def BlockParamDraft.toJson (p : BlockParamDraft) : Json :=
  .record [
    ("name", ofString p.name), ("doc", ofOption ofString p.doc),
    ("attributes", ofList BlockAttrDraft.toJson p.attributes)]

/-- An output of a block. -/
def OutputDraft.toJson (o : OutputDraft) : Json :=
  .record [
    ("name", ofString o.name), ("ref", ofString o.reference), ("doc", ofOption ofString o.doc)]

/-- A block. -/
def BlockDraft.toJson (real : Float → Json) (b : BlockDraft) : Json :=
  .record [
    ("name", ofString b.name), ("origin", ofOption ofString b.origin),
    ("doc", ofOption ofString b.doc), ("params", ofList BlockParamDraft.toJson b.params),
    ("declarations", ofList (DeclarationDraft.toJson real) b.declarations),
    ("outputs", ofList OutputDraft.toJson b.outputs)]

/-- A bundle. -/
def Bundle.toJson (real : Float → Json) (b : Bundle) : Json :=
  .record [
    ("types", ofList TypeDraft.toJson b.types),
    ("components", ofList ComponentDraft.toJson b.components),
    ("blocks", ofList (BlockDraft.toJson real) b.blocks)]

/-- The text of a block, which reads back as the block. -/
def BlockDraft.render (b : BlockDraft) : String :=
  (b.toJson Json.ofFloat).render

/-- The text of a bundle, which reads back as the bundle. -/
def Bundle.render (b : Bundle) : String :=
  (b.toJson Json.ofFloat).render

end Blockwork
