import Blockwork.Multiplicity
import Blockwork.Types.Expression

/-!
# Interfaces

The interface of a component or of a compiled block says what a declaration of it may
supply, as formal parameters with formal attributes, and what it produces. An attribute may
be a pipeline into outputs: their types then follow the type of what is supplied.

Every interface starts with the parameter `condition`, which no author declares.
-/

namespace Blockwork

/-- An attribute of a formal parameter. -/
structure FormalAttribute where
  /-- Its name. -/
  name : String
  /-- The type of what may be supplied. -/
  type : ClassType
  /-- What is taken if nothing is supplied. -/
  default : Option Literal
  /-- The positions of the outputs it is a pipeline into. -/
  pipelineOutputs : List Nat
  /-- Its documentation. -/
  doc : Option String
deriving DecidableEq

/-- A parameter that a declaration may give, as often as its multiplicity allows. -/
structure FormalParameter where
  /-- Its name. -/
  name : String
  /-- How often it may be given. -/
  multiplicity : Multiplicity
  /-- What is supplied each time. -/
  attributes : List FormalAttribute
  /-- Whether no author declares it. -/
  synthetic : Bool
  /-- Its documentation. -/
  doc : Option String
deriving DecidableEq

/-- An output. -/
structure FormalOutput where
  /-- Its name, which may be empty. -/
  name : String
  /-- The type of what is produced. -/
  type : ClassType
  /-- Its documentation. -/
  doc : Option String
deriving DecidableEq

/-- What may be supplied and what is produced. -/
structure Interface where
  /-- The formal parameters, `condition` first. -/
  parameters : List FormalParameter
  /-- The outputs. -/
  outputs : List FormalOutput
deriving DecidableEq

/-- Whether the attribute is a pipeline. -/
def FormalAttribute.isPipeline (a : FormalAttribute) : Bool :=
  !a.pipelineOutputs.isEmpty

/-- The position of the first attribute of a name. -/
def FormalParameter.attributeIndex? (p : FormalParameter) (name : String) : Option Nat :=
  p.attributes.findIdx? fun a => a.name == name

/-- The position of the first parameter of a name. -/
def Interface.parameterIndex? (i : Interface) (name : String) : Option Nat :=
  i.parameters.findIdx? fun p => p.name == name

/-- The parameters an author declared. -/
def Interface.declaredParameters (i : Interface) : List FormalParameter :=
  i.parameters.filter fun p => !p.synthetic

namespace Condition

/-- The name of the parameter that decides whether a declaration is executed. -/
def parameterName : String :=
  "condition"

/-- The attribute that is true or false. -/
def valueName : String :=
  "value"

/-- The attribute that inverts the other one. -/
def invertName : String :=
  "invert"

/-- The formal parameter every interface starts with. -/
def formal (h : Hierarchy) : FormalParameter :=
  let boolean := (h.parse "Boolean").toOption.getD ClassType.object
  { name := parameterName
    multiplicity := .one
    attributes := [
      ⟨valueName, boolean, none, [], some "Execute only if this evaluates to true."⟩,
      ⟨invertName, boolean, some (.boolean false), [], some "Invert the condition."⟩]
    synthetic := true
    doc := none }

end Condition

end Blockwork
