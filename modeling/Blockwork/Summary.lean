import Blockwork.Json.Basic
import Blockwork.Plan

/-!
# Summaries

A summary shows a plan to engines and readers: the execution order, the declarations with
what their attributes hold, and the inputs and outputs with their types, all by name.
-/

namespace Blockwork

/-- An attribute: a value or a reference, whichever it holds. -/
structure AttributeSummary where
  /-- Its name. -/
  name : String
  /-- Its type. -/
  type : String
  /-- The value it holds. -/
  value : Option String
  /-- The reference it holds. -/
  reference : Option String
deriving DecidableEq, Repr

/-- One occurrence of a parameter. -/
structure ParameterSummary where
  /-- Its name. -/
  name : String
  /-- Its attributes. -/
  attributes : List AttributeSummary
deriving DecidableEq, Repr

/-- A name with a type. -/
structure TypedName where
  /-- The name. -/
  name : String
  /-- The type. -/
  type : String
deriving DecidableEq, Repr

/-- A declaration. -/
structure DeclarationSummary where
  /-- Its name. -/
  name : String
  /-- What it is a use of. -/
  specification : String
  /-- Whether that is a block. -/
  isBlock : Bool
  /-- Its documentation. -/
  doc : Option String
  /-- The occurrences of parameters. -/
  parameters : List ParameterSummary
  /-- Its outputs. -/
  outputs : List TypedName
deriving DecidableEq, Repr

/-- An attribute of an input. -/
structure InputAttributeSummary where
  /-- Its name. -/
  name : String
  /-- Its type. -/
  type : String
  /-- The outputs of the block it flows into. -/
  pipelineOutputs : List String
deriving DecidableEq, Repr

/-- An input. -/
structure InputSummary where
  /-- Its name. -/
  name : String
  /-- How often it may be given. -/
  multiplicity : String
  /-- Its attributes. -/
  attributes : List InputAttributeSummary
deriving DecidableEq, Repr

/-- An output. -/
structure OutputSummary where
  /-- Its name. -/
  name : String
  /-- Its type. -/
  type : String
  /-- What it is wired to. -/
  reference : String
deriving DecidableEq, Repr

/-- A compiled block. -/
structure BlockSummary where
  /-- Its name. -/
  name : String
  /-- Its documentation. -/
  doc : Option String
  /-- The names of its declarations in the order of execution. -/
  executionOrder : List String
  /-- The declarations in the order of execution. -/
  declarations : List DeclarationSummary
  /-- The inputs. -/
  inputs : List InputSummary
  /-- The outputs. -/
  outputs : List OutputSummary
deriving DecidableEq, Repr

/-! ## Summaries of plans -/

namespace Plan

variable (p : Plan)

/-- A type as it is written. -/
def describe (t : ClassType) : String :=
  p.network.types.describe t

/-- The summary of an attribute. -/
def summarizeSlot (s : Slot) : AttributeSummary :=
  let (value, reference) := match s.binding with
    | .literal v => (some v.shown, none)
    | .reference t => (none, some (p.network.targetName t))
    | .unbound => (s.raw, none)
  ⟨s.name, p.describe s.type, value, reference⟩

/-- The summary of a declaration. -/
def summarizeDeclaration (d : Declaration) : DeclarationSummary :=
  { name := d.name
    specification := d.specification.name
    isBlock := d.specification.isBlock
    doc := d.doc
    parameters := d.parameters.map fun q => ⟨q.name, q.slots.map p.summarizeSlot⟩
    outputs := d.outputs.map fun o => ⟨o.name, p.describe o.type⟩ }

/-- The name of an output of the block. -/
def outputName (o : Nat) : String :=
  (p.network.outputs[o]?.map BlockOutput.name).getD ""

/-- The summary of an input. -/
def summarizeInput (f : FormalParameter) : InputSummary :=
  { name := f.name
    multiplicity := f.multiplicity.text
    attributes := f.attributes.map fun a =>
      ⟨a.name, p.describe a.type, a.pipelineOutputs.map p.outputName⟩ }

/-- The summary of the block. -/
def summary : BlockSummary :=
  { name := p.name
    doc := p.network.doc
    executionOrder := p.network.executionOrder
    declarations := p.declarations.map p.summarizeDeclaration
    inputs := p.interface.declaredParameters.map p.summarizeInput
    outputs := p.interface.outputs.zipWith
      (fun f o => ⟨f.name, p.describe f.type, o.reference⟩) p.network.outputs }

end Plan

/-! ## Summaries as documents -/

open Json (ofString ofList)

/-- The members for an optional text, none if it is absent. -/
def Json.optionalMember (key : String) (s : Option String) : List (String × Json) :=
  (s.map fun s => (key, ofString s)).toList

/-- An attribute. -/
def AttributeSummary.toJson (a : AttributeSummary) : Json :=
  .record ([("name", ofString a.name), ("type", ofString a.type)] ++
    Json.optionalMember "value" a.value ++ Json.optionalMember "reference" a.reference)

/-- One occurrence of a parameter. -/
def ParameterSummary.toJson (p : ParameterSummary) : Json :=
  .record [
    ("name", ofString p.name), ("attributes", ofList AttributeSummary.toJson p.attributes)]

/-- A name with a type. -/
def TypedName.toJson (t : TypedName) : Json :=
  .record [("name", ofString t.name), ("type", ofString t.type)]

/-- A declaration. -/
def DeclarationSummary.toJson (d : DeclarationSummary) : Json :=
  .record ([
    ("name", ofString d.name), ("specification", ofString d.specification),
    ("isBlock", .bool d.isBlock)] ++ Json.optionalMember "doc" d.doc ++ [
    ("parameters", ofList ParameterSummary.toJson d.parameters),
    ("outputs", ofList TypedName.toJson d.outputs)])

/-- An attribute of an input. -/
def InputAttributeSummary.toJson (a : InputAttributeSummary) : Json :=
  .record [
    ("name", ofString a.name), ("type", ofString a.type),
    ("pipelineOutputs", ofList ofString a.pipelineOutputs)]

/-- An input. -/
def InputSummary.toJson (i : InputSummary) : Json :=
  .record [
    ("name", ofString i.name), ("multiplicity", ofString i.multiplicity),
    ("attributes", ofList InputAttributeSummary.toJson i.attributes)]

/-- An output. -/
def OutputSummary.toJson (o : OutputSummary) : Json :=
  .record [
    ("name", ofString o.name), ("type", ofString o.type), ("reference", ofString o.reference)]

/-- A compiled block. -/
def BlockSummary.toJson (b : BlockSummary) : Json :=
  .record ([("name", ofString b.name)] ++ Json.optionalMember "doc" b.doc ++ [
    ("executionOrder", ofList ofString b.executionOrder),
    ("declarations", ofList DeclarationSummary.toJson b.declarations),
    ("inputs", ofList InputSummary.toJson b.inputs),
    ("outputs", ofList OutputSummary.toJson b.outputs)])

end Blockwork
