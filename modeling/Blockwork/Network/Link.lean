import Blockwork.Component
import Blockwork.Network.Basic

/-!
# Linking

Linking turns the draft of a block into a network: every declaration gets the interface of
what it uses, its outputs, and for each occurrence of a parameter all the attributes of the
formal parameter, in their order, with what the draft gives for them or their defaults.

Blocks are asked for by name from a `Resolver`. Asking may compile a block and may fail, so
linking runs in the state of the resolver, and what happened to the state before a failure
is kept.
-/

namespace Blockwork

/-- Computations on the state of a resolver that may end early. -/
abbrev Resolving (σ : Type) := ExceptT Fault (StateM σ)

/-- What declarations can use: the types, the components, and blocks by name as
specifications, found or compiled in a state `σ`. -/
structure Resolver (σ : Type) where
  /-- The types. -/
  types : Hierarchy
  /-- The component of a name. -/
  component? : String → Option Component
  /-- The block of a name, if there is one. -/
  block? : String → Resolving σ (Option Specification)

/-- A catalog alone, which knows no blocks. -/
def Catalog.resolver (c : Catalog) : Resolver Unit where
  types := c.types
  component? := c.get?
  block? _ := pure none

/-- The place of a block: the file it was read from, or its name. -/
def BlockDraft.location (b : BlockDraft) : Location :=
  .source (b.origin.getD b.name) none

/-! ## Parameters -/

namespace ParamDraft

/-- What is given for an attribute, the first time it is given. -/
def given? (p : ParamDraft) (attr : String) : Option RawValue :=
  (p.attributes.find? fun a => a.name == attr).map AttrDraft.value

/-- Checks that the formal parameter has the attributes, each given once. The names in
`seen` are given already. -/
def checkGiven (declaration param : String) (formal : FormalParameter) (location : Location) :
    (seen : List String) → List AttrDraft → Except Fault Unit
  | _, [] => .ok ()
  | seen, a :: as =>
    if seen.contains a.name then reject (.attributeGivenTwice param a.name declaration) location
    else if (formal.attributeIndex? a.name).isNone then
      reject (.unsupportedAttribute param a.name declaration) location
    else checkGiven declaration param formal location (a.name :: seen) as

/-- The attribute of a declaration for a formal one: a text still to be resolved, a literal
that has the type or can be read as one, or the default. -/
def linkSlot (h : Hierarchy) (declaration : String) (p : ParamDraft) (location : Location)
    (f : FormalAttribute) : Except Fault Slot :=
  let slot (raw : Option String) (binding : Binding) : Slot :=
    ⟨f.name, raw, binding, f.type, none, f.pipelineOutputs⟩
  match p.given? f.name with
  | some (.text s) => .ok (slot (some s) .unbound)
  | some (.immediate v) =>
    match h.coerce? v f.type with
    | some v => .ok (slot none (.literal v))
    | none =>
      reject (.invalidImmediate v.shown p.name f.name declaration (h.describe f.type)) location
  | none =>
    match f.default with
    | some v => .ok (slot none (.literal v))
    | none => reject (.missingAttribute p.name f.name declaration) location

/-- The occurrence of the formal parameter at a position. -/
def link (h : Hierarchy) (declaration : String) (p : ParamDraft) (index : Nat)
    (formal : FormalParameter) (location : Location) : Except Fault Parameter := do
  checkGiven declaration p.name formal location [] p.attributes
  let slots ← formal.attributes.mapM (linkSlot h declaration p location)
  return ⟨p.name, index, slots⟩

end ParamDraft

/-! ## Declarations -/

namespace Condition

/-- The condition of a declaration without one. -/
def always : String :=
  "true"

/-- The parameter given by the text of a condition: an exclamation mark before it inverts
the rest. -/
def param (text : String) : ParamDraft :=
  let (value, invert) := match text.toList with
    | '!' :: rest => (rest, true)
    | cs => (cs, false)
  ⟨parameterName, [
    ⟨valueName, .text (String.ofList (Text.trimChars value))⟩,
    ⟨invertName, .immediate (.boolean invert)⟩]⟩

end Condition

/-- How the output of a declaration is referred to. -/
def referenceName (declaration output : String) : String :=
  if output.isEmpty then s!"@{declaration}" else s!"@{declaration}.{output}"

/-- An output of a declaration before anything has flowed into it. -/
def FormalOutput.instantiate (declaration : String) (o : FormalOutput) : Output :=
  ⟨o.name, referenceName declaration o.name, o.type, none, [], o.doc⟩

namespace DeclarationDraft

/-- The parameters of a declaration, its condition first. -/
def allParams (d : DeclarationDraft) : List ParamDraft :=
  Condition.param (d.condition.getD Condition.always) :: d.params

/-- An occurrence of a parameter, linked to the formal parameter of its name. -/
def linkParam (h : Hierarchy) (d : DeclarationDraft) (s : Specification) (location : Location)
    (p : ParamDraft) : Except Fault Parameter :=
  match s.interface.parameterIndex? p.name with
  | none => reject (.unsupportedParameter p.name s.name d.name) location
  | some index =>
    match s.interface.parameters[index]? with
    | none => .error (.breach .outOfRange)
    | some formal => p.link h d.name index formal location

/-- The declaration linked to what it uses. -/
def link (h : Hierarchy) (d : DeclarationDraft) (s : Specification) (location : Location) :
    Except Fault Declaration := do
  let parameters ← d.allParams.mapM (d.linkParam h s location)
  let outputs := s.interface.outputs.map (FormalOutput.instantiate d.name)
  return (Declaration.mk d.name s location d.doc parameters outputs).indexPipelines

/-- What the declaration uses. -/
def resolve (r : Resolver σ) (d : DeclarationDraft) (location : Location) :
    Resolving σ Specification :=
  match d.kind with
  | .component name =>
    match r.component? name with
    | some c => return ⟨c.name, false, c.interface⟩
    | none => liftM (reject (.unknownComponent d.name name) location : Except Fault Specification)
  | .block name => do
    match ← r.block? name with
    | some s => return s
    | none =>
      liftM (reject (.unknownIncludedBlock d.name name) location : Except Fault Specification)

end DeclarationDraft

/-! ## Blocks -/

namespace BlockDraft

/-- The inputs of a block before anything is known about them. -/
def linkParams (b : BlockDraft) : List BlockParameter :=
  b.params.map fun p =>
    { name := p.name
      multiplicity := .any
      attributes := p.attributes.map fun a =>
        ⟨a.name, s!"@{p.name}.{a.name}", ClassType.object, [], a.doc⟩
      doc := p.doc }

/-- The outputs of a block before their references are resolved. -/
def linkOutputs (b : BlockDraft) : List BlockOutput :=
  b.outputs.map fun o => ⟨o.name, o.reference, none, none, o.doc⟩

/-- A declaration of the block, linked to what it uses. -/
def linkDeclaration (r : Resolver σ) (b : BlockDraft) (d : DeclarationDraft) :
    Resolving σ Declaration := do
  let location := b.location.atLine d.line
  let s ← d.resolve r location
  d.link r.types s location

/-- The network of a block. -/
def link (r : Resolver σ) (b : BlockDraft) : Resolving σ Network := do
  let declarations ← b.declarations.mapM (b.linkDeclaration r)
  return {
    name := b.name
    location := b.location
    doc := b.doc
    types := r.types
    declarations
    order := List.range declarations.length
    params := b.linkParams
    outputs := b.linkOutputs }

end BlockDraft

end Blockwork
