import Blockwork.Cause
import Blockwork.Interface

/-!
# Networks

A network is a block with its declarations linked to what they use: attributes refer to
the outputs of other declarations and to the attributes of the block's inputs. Everything is
named by its position, so references survive any change of the parts they name.

The stages of compilation take a network to a network. `order` is the order in which the
declarations are executed, at first the order of the draft.
-/

namespace Blockwork

/-! ## Positions -/

/-- An attribute of a declaration: the declaration, the occurrence of a parameter in it and
the attribute in that. -/
structure SlotId where
  /-- The declaration. -/
  declaration : Nat
  /-- The occurrence of a parameter. -/
  param : Nat
  /-- The attribute. -/
  attr : Nat
deriving DecidableEq, Repr

/-- An output of a declaration. -/
structure OutputId where
  /-- The declaration. -/
  declaration : Nat
  /-- The output. -/
  output : Nat
deriving DecidableEq, Repr

/-- An attribute of an input of the block. -/
structure InputId where
  /-- The input. -/
  param : Nat
  /-- The attribute. -/
  attr : Nat
deriving DecidableEq, Repr

/-- What can be referred to. -/
inductive Target
  | output (id : OutputId)
  | input (id : InputId)
deriving DecidableEq, Repr

/-- What can refer: an attribute of a declaration or an output of the block. -/
inductive Referrer
  | slot (id : SlotId)
  | blockOutput (index : Nat)
deriving DecidableEq, Repr

/-- What an attribute holds once its text is resolved. -/
inductive Binding
  | unbound
  | literal (value : Literal)
  | reference (target : Target)
deriving DecidableEq

namespace Binding

/-- The target of a reference. -/
def target? : Binding → Option Target
  | reference t => some t
  | _ => none

end Binding

/-! ## Declarations -/

/-- What a declaration is a use of: a component or a compiled block. -/
structure Specification where
  /-- Its name. -/
  name : String
  /-- Whether it is a block. -/
  isBlock : Bool
  /-- What may be supplied and what is produced. -/
  interface : Interface
deriving DecidableEq

/-- An attribute of a declaration. -/
structure Slot where
  /-- Its name. -/
  name : String
  /-- The text of the draft, if it gives one. -/
  raw : Option String
  /-- What it holds. -/
  binding : Binding
  /-- The type of the formal attribute. -/
  declared : ClassType
  /-- The type fixed by a value that reached it. -/
  frozen : Option ClassType
  /-- The outputs of the declaration it is still a pipeline into. -/
  feeds : List Nat
deriving DecidableEq

/-- One occurrence of a parameter in a declaration. -/
structure Parameter where
  /-- Its name. -/
  name : String
  /-- The position of the formal parameter. -/
  formal : Nat
  /-- Its attributes, one for each formal attribute. -/
  slots : List Slot
deriving DecidableEq

/-- An output of a declaration. -/
structure Output where
  /-- Its name, which may be empty. -/
  name : String
  /-- How it is referred to. -/
  referenceName : String
  /-- The type of the formal output. -/
  declared : ClassType
  /-- The narrowest type that holds what was seen to flow into it. -/
  result : Option ClassType
  /-- The attributes that are still pipelines into it, as parameter and attribute. -/
  fedBy : List (Nat × Nat)
  /-- Its documentation. -/
  doc : Option String
deriving DecidableEq

/-- A use of a component or of another block. -/
structure Declaration where
  /-- Its name. -/
  name : String
  /-- What it is a use of. -/
  specification : Specification
  /-- Where it stands. -/
  location : Location
  /-- Its documentation. -/
  doc : Option String
  /-- The occurrences of parameters. -/
  parameters : List Parameter
  /-- The outputs. -/
  outputs : List Output
deriving DecidableEq

/-- The type an attribute requires. -/
def Slot.type (s : Slot) : ClassType :=
  s.frozen.getD s.declared

/-- The type an output provides. -/
def Output.type (o : Output) : ClassType :=
  o.result.getD o.declared

/-- Whether the type of the output follows an attribute. -/
def Output.isPipeline (o : Output) : Bool :=
  !o.fedBy.isEmpty

namespace Declaration

/-- The attribute at a position. -/
def slot? (d : Declaration) (param attr : Nat) : Option Slot := do
  let p ← d.parameters[param]?
  p.slots[attr]?

/-- The declaration with the attribute at a position changed. -/
def modifySlot (d : Declaration) (param attr : Nat) (f : Slot → Slot) : Declaration :=
  { d with parameters := d.parameters.modify param fun p =>
      { p with slots := p.slots.modify attr f } }

/-- The declaration with the output at a position changed. -/
def modifyOutput (d : Declaration) (output : Nat) (f : Output → Output) : Declaration :=
  { d with outputs := d.outputs.modify output f }

/-- The positions of the attributes with the attributes, in order. -/
def slots (d : Declaration) : List ((Nat × Nat) × Slot) :=
  d.parameters.zipIdx.flatMap fun (p, i) => p.slots.zipIdx.map fun (s, j) => ((i, j), s)

/-- The position of the first output of a name. -/
def outputIndex? (d : Declaration) (name : String) : Option Nat :=
  d.outputs.findIdx? fun o => o.name == name

/-- An attribute as messages name it: declaration, parameter and attribute. -/
def slotName (d : Declaration) (param attr : Nat) : String :=
  let p := (d.parameters[param]?.map Parameter.name).getD ""
  let a := ((d.slot? param attr).map Slot.name).getD ""
  s!"{d.name}.{p}.{a}"

/-- The attributes that are pipelines into the output at a position, once for each time
they name it. -/
def feeders (d : Declaration) (output : Nat) : List (Nat × Nat) :=
  d.slots.flatMap fun (position, s) => (s.feeds.filter (· == output)).map fun _ => position

/-- The declaration with the links of its outputs taken from its attributes. -/
def indexPipelines (d : Declaration) : Declaration :=
  { d with outputs := d.outputs.zipIdx.map fun (o, i) => { o with fedBy := d.feeders i } }

end Declaration

/-! ## The block itself -/

/-- An attribute of an input. -/
structure BlockInput where
  /-- Its name. -/
  name : String
  /-- How it is referred to. -/
  referenceName : String
  /-- The type it has to have. -/
  type : ClassType
  /-- The outputs of the block it flows into, in the order in which they were found. -/
  pipelineOutputs : List Nat
  /-- Its documentation. -/
  doc : Option String
deriving DecidableEq

/-- An input: a group of attributes. -/
structure BlockParameter where
  /-- Its name. -/
  name : String
  /-- How often it may be given. -/
  multiplicity : Multiplicity
  /-- Its attributes. -/
  attributes : List BlockInput
  /-- Its documentation. -/
  doc : Option String
deriving DecidableEq

/-- An output. -/
structure BlockOutput where
  /-- Its name. -/
  name : String
  /-- The text of its reference. -/
  reference : String
  /-- What the reference refers to. -/
  target : Option Target
  /-- Its type. -/
  type : Option ClassType
  /-- Its documentation. -/
  doc : Option String
deriving DecidableEq

/-- A block with its declarations linked to what they use. -/
structure Network where
  /-- The name of the block. -/
  name : String
  /-- Where it stands. -/
  location : Location
  /-- Its documentation. -/
  doc : Option String
  /-- The types. -/
  types : Hierarchy
  /-- The declarations, in the order of the draft. -/
  declarations : List Declaration
  /-- The declarations, in the order of execution. -/
  order : List Nat
  /-- The inputs. -/
  params : List BlockParameter
  /-- The outputs. -/
  outputs : List BlockOutput
deriving DecidableEq

namespace Network

variable (n : Network)

/-- The declaration at a position. -/
def declaration? (d : Nat) : Option Declaration :=
  n.declarations[d]?

/-- The name of the declaration at a position. -/
def declarationName (d : Nat) : String :=
  ((n.declaration? d).map Declaration.name).getD ""

/-- The attribute at a position. -/
def slot? (id : SlotId) : Option Slot := do
  let d ← n.declaration? id.declaration
  d.slot? id.param id.attr

/-- The output at a position. -/
def output? (id : OutputId) : Option Output := do
  let d ← n.declaration? id.declaration
  d.outputs[id.output]?

/-- The attribute of an input at a position. -/
def input? (id : InputId) : Option BlockInput := do
  let p ← n.params[id.param]?
  p.attributes[id.attr]?

/-- The network with the declaration at a position changed. -/
def modifyDeclaration (d : Nat) (f : Declaration → Declaration) : Network :=
  { n with declarations := n.declarations.modify d f }

/-- The network with the attribute of an input changed. -/
def modifyInput (id : InputId) (f : BlockInput → BlockInput) : Network :=
  { n with params := n.params.modify id.param fun p =>
      { p with attributes := p.attributes.modify id.attr f } }

/-- The attributes of all declarations, in the order of execution. -/
def slots : List (SlotId × Slot) :=
  n.order.flatMap fun d =>
    match n.declaration? d with
    | none => []
    | some decl => decl.slots.map fun ((p, a), s) => (⟨d, p, a⟩, s)

/-- The positions of the attributes of all declarations, in the order of execution. -/
def slotIds : List SlotId :=
  n.slots.map Prod.fst

/-- The outputs of all declarations, in the order of the draft. -/
def outputIds : List OutputId :=
  n.declarations.zipIdx.flatMap fun (decl, d) =>
    (List.range decl.outputs.length).map fun o => ⟨d, o⟩

/-- The attributes of all inputs, in order. -/
def inputIds : List InputId :=
  n.params.zipIdx.flatMap fun (p, i) =>
    (List.range p.attributes.length).map fun a => ⟨i, a⟩

/-- Everything that can be referred to: outputs of declarations, then inputs. -/
def targets : List Target :=
  n.outputIds.map .output ++ n.inputIds.map .input

/-- The type a target provides now. -/
def targetType? : Target → Option ClassType
  | .output id => (n.output? id).map Output.type
  | .input id => (n.input? id).map BlockInput.type

/-- How a target is referred to. -/
def targetName? : Target → Option String
  | .output id => (n.output? id).map Output.referenceName
  | .input id => (n.input? id).map BlockInput.referenceName

/-- How a target is referred to, for messages. -/
def targetName (t : Target) : String :=
  (n.targetName? t).getD ""

/-- An attribute as messages name it. -/
def slotName (id : SlotId) : String :=
  ((n.declaration? id.declaration).map fun d => d.slotName id.param id.attr).getD ""

/-- Where a declaration stands. -/
def declarationLocation (d : Nat) : Location :=
  ((n.declaration? d).map Declaration.location).getD n.location

/-- The names of the declarations in the order of execution. -/
def executionOrder : List String :=
  n.order.map n.declarationName

end Network

end Blockwork
