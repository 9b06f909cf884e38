import Blockwork.Diagnostic
import Blockwork.Multiplicity
import Blockwork.Types.ClassType

/-!
# Causes of diagnostics

Every defect the compiler can find is a `Cause`, with the names its message mentions. Kind,
phase and message are functions of the cause, so no two places word a defect differently.

A `Fault` is what ends a computation early: a rejected input, or a `Breach`, a promise of
the caller that was not kept.
-/

namespace Blockwork

/-- A defect with the names its message mentions. Types are given as they are written, and a
slot is an attribute of a declaration, as `declaration.parameter.attribute`. -/
inductive Cause
  /-- The text is no block draft. -/
  | unreadableDraft
  /-- The text is no bundle. -/
  | unreadableBundle
  | rejectedType (name : String) (error : TypeError)
  | componentTwice (name : String)
  | invalidType (expression : String) (error : TypeError)
  | parameterTwice (param : String)
  | emptyInterval (param : String) (multiplicity : Multiplicity)
  | attributeTwice (param attr : String)
  | pipelineDefault (param attr : String)
  | pipelineType (param attr type outputType : String)
  | illegalDefault (param attr : String) (error : LiteralError)
  | inputTwice (block input : String)
  | inputAttributeTwice (input attr : String)
  | declarationTwice (block declaration : String)
  | outputTwice (block output : String)
  | blockTwice (name : String)
  | unknownBlock (name : String)
  /-- The blocks include each other in turn, and the last one the first. -/
  | cyclicInclusion (members : List String)
  | unknownComponent (declaration component : String)
  | unknownIncludedBlock (declaration block : String)
  | unsupportedParameter (param specification declaration : String)
  | attributeGivenTwice (param attr declaration : String)
  | unsupportedAttribute (param attr declaration : String)
  | missingAttribute (param attr declaration : String)
  | invalidImmediate (value param attr declaration type : String)
  | severalStars (param declaration : String)
  | illegalStar (star : String)
  | unknownStarDeclaration (star name : String)
  | undefinedReference (slot reference : String)
  | illegalLiteral (slot : String) (error : LiteralError)
  | undefinedOutputReference (output reference : String)
  /-- The declarations depend on each other in turn, and the last one on the first. -/
  | cyclicDeclarations (members : List String)
  | pipelineConflict (slot type value : String) (error : TypeError)
  | severalInputs (param declaration : String) (multiplicity : Multiplicity)
  | differentInputs (param declaration : String)
  | tooFewOccurrences (param declaration : String) (least count : UInt32)
  | tooManyOccurrences (param declaration : String) (most count : UInt32)
  | emptyInputInterval (input : String) (current refined : Multiplicity)
  | inconsistentInput (input type slot : String) (error : TypeError)
  | typeMismatch (slot expected reference provided : String)
deriving DecidableEq, Repr

namespace Cause

/-- The kind of defect. -/
def kind : Cause → DefectKind
  | unreadableDraft | unreadableBundle => .draftParsing
  | rejectedType _ (.duplicate _) => .duplicateName
  | rejectedType _ _ | invalidType .. => .unknownType
  | componentTwice _ | declarationTwice .. | blockTwice _ => .duplicateName
  | parameterTwice _ | inputTwice .. => .duplicateParamName
  | emptyInterval .. => .emptyParameterInterval
  | attributeTwice .. | inputAttributeTwice .. | attributeGivenTwice .. =>
    .duplicateAttributeName
  | pipelineDefault .. => .pipelineAttributeHasDefaultValue
  | pipelineType .. | pipelineConflict .. => .incompatiblePipelineTypes
  | illegalDefault .. => .illegalDefaultValue
  | outputTwice .. => .duplicateOutputName
  | unknownBlock _ | unknownIncludedBlock .. => .unknownBlockSpecification
  | cyclicInclusion _ => .cyclicBlockDependency
  | unknownComponent .. => .unknownComponent
  | unsupportedParameter .. => .unsupportedParameter
  | unsupportedAttribute .. => .unsupportedAttribute
  | missingAttribute .. => .missingAttribute
  | invalidImmediate .. => .invalidImmediateObjectType
  | severalStars .. => .multipleStarsInParameter
  | illegalStar _ => .illegalStarExpression
  | unknownStarDeclaration .. | undefinedReference .. | undefinedOutputReference .. =>
    .undefinedReference
  | illegalLiteral _ (.inconstructible _) => .inconstructibleClass
  | illegalLiteral _ _ => .illegalImmediateValue
  | cyclicDeclarations _ => .cyclicDependencies
  | severalInputs .. | differentInputs .. => .multipleInputReferences
  | tooFewOccurrences .. => .parameterOccursNotOftenEnough
  | tooManyOccurrences .. => .parameterOccursTooOften
  | emptyInputInterval .. => .emptyInferedParameterInterval
  | inconsistentInput .. => .inferedInconsistentType
  | typeMismatch .. => .typeMismatch

/-- The phase that finds the defect. -/
def phase : Cause → Phase
  | unreadableDraft | unreadableBundle => .parse
  | rejectedType .. | componentTwice _ | invalidType .. | parameterTwice _ | emptyInterval ..
  | attributeTwice .. | pipelineDefault .. | pipelineType .. | illegalDefault .. => .registry
  | inputTwice .. | inputAttributeTwice .. | declarationTwice .. | outputTwice .. => .draft
  | blockTwice _ | unknownBlock _ | cyclicInclusion _ => .load
  | unknownComponent .. | unknownIncludedBlock .. | unsupportedParameter ..
  | attributeGivenTwice .. | unsupportedAttribute .. | missingAttribute ..
  | invalidImmediate .. => .link
  | severalStars .. | illegalStar _ | unknownStarDeclaration .. => .starExpansion
  | undefinedReference .. | illegalLiteral .. | undefinedOutputReference .. =>
    .referenceResolution
  | cyclicDeclarations _ => .topSort
  | pipelineConflict .. => .pipelineFreeze
  | severalInputs .. | differentInputs .. | tooFewOccurrences .. | tooManyOccurrences ..
  | emptyInputInterval .. => .multiplicityInference
  | inconsistentInput .. => .attributeTypeInference
  | typeMismatch .. => .typeCheck

/-- The members of a cycle and its first member again, joined by arrows. -/
def path (members : List String) : String :=
  " -> ".intercalate (members ++ members.take 1)

/-- The defect in words. -/
def message : Cause → String
  | unreadableDraft => "Failed to parse block draft JSON"
  | unreadableBundle => "Failed to parse bundle JSON"
  | rejectedType name e => s!"Type '{name}': {e.message}"
  | componentTwice name => s!"Component '{name}' is registered twice"
  | invalidType expression e => s!"Invalid type '{expression}': {e.message}"
  | parameterTwice param => s!"Parameter '{param}' is declared twice"
  | emptyInterval param m => s!"Parameter '{param}' has empty multiplicity {m.text}"
  | attributeTwice param attr => s!"Attribute '{attr}' of parameter '{param}' is declared twice"
  | pipelineDefault param attr =>
    s!"Pipeline attribute '{param}.{attr}' may not have a default value"
  | pipelineType param attr type outputType =>
    s!"Pipeline attribute '{param}.{attr}' has type {type} but the output has type {outputType}"
  | illegalDefault param attr e => s!"Illegal default value for '{param}.{attr}': {e.message}"
  | inputTwice block input => s!"Block '{block}' declares input '{input}' twice"
  | inputAttributeTwice input attr => s!"Input '{input}' declares attribute '{attr}' twice"
  | declarationTwice block declaration => s!"Block '{block}' declares '{declaration}' twice"
  | outputTwice block output => s!"Block '{block}' declares output '{output}' twice"
  | blockTwice name => s!"Block '{name}' is defined twice"
  | unknownBlock name => s!"Unknown block specification '{name}'"
  | cyclicInclusion members => s!"Cyclic block inclusion: {path members}"
  | unknownComponent declaration component =>
    s!"Declaration '{declaration}' uses unknown component '{component}'"
  | unknownIncludedBlock declaration block =>
    s!"Declaration '{declaration}' uses unknown block '{block}'"
  | unsupportedParameter param specification declaration =>
    s!"Parameter '{param}' is not supported by '{specification}' (declaration '{declaration}')"
  | attributeGivenTwice param attr declaration =>
    s!"Attribute '{param}.{attr}' of declaration '{declaration}' is given twice"
  | unsupportedAttribute param attr declaration =>
    s!"Attribute '{param}.{attr}' of declaration '{declaration}' is not supported"
  | missingAttribute param attr declaration =>
    s!"Attribute '{param}.{attr}' of declaration '{declaration}' is required"
  | invalidImmediate value param attr declaration type =>
    s!"Immediate value '{value}' for '{param}.{attr}' of declaration '{declaration}' " ++
      s!"is not of type {type}"
  | severalStars param declaration =>
    s!"Parameter '{param}' of declaration '{declaration}' holds more than one star reference"
  | illegalStar star =>
    s!"Star reference '{star}' must have the form '@declaration.prefix*'"
  | unknownStarDeclaration star name =>
    s!"Star reference '{star}' names unknown declaration '{name}'"
  | undefinedReference slot reference =>
    s!"Attribute '{slot}' references undefined '{reference}'"
  | illegalLiteral slot e => s!"Attribute '{slot}': {e.message}"
  | undefinedOutputReference output reference =>
    s!"Block output '{output}' references undefined '{reference}'"
  | cyclicDeclarations members =>
    s!"Cyclic dependency between declarations: {path members}"
  | pipelineConflict slot type value e =>
    s!"Pipeline attribute '{slot}' of type {type} cannot take {value}: {e.message}"
  | severalInputs param declaration m =>
    s!"Parameter '{param}' of declaration '{declaration}' references several inputs " ++
      s!"although its multiplicity {m.text} is no singleton"
  | differentInputs param declaration =>
    s!"Occurrences of parameter '{param}' of declaration '{declaration}' reference different inputs"
  | tooFewOccurrences param declaration least count =>
    s!"Parameter '{param}' at declaration '{declaration}' is expected at least " ++
      s!"{least.toNat} time(s) but occurs {count.toNat} time(s)"
  | tooManyOccurrences param declaration most count =>
    s!"Parameter '{param}' at declaration '{declaration}' is expected at most " ++
      s!"{most.toNat} time(s) but occurs {count.toNat} time(s)"
  | emptyInputInterval input current refined =>
    s!"Inferred multiplicity of input '{input}' is empty ({current.text} refined by {refined.text})"
  | inconsistentInput input type slot e =>
    s!"Input '{input}' cannot satisfy {type} required by '{slot}': {e.message}"
  | typeMismatch slot expected reference provided =>
    s!"Attribute '{slot}' expects {expected} but '{reference}' provides {provided}"

/-- The members of the cycle, if the defect is one. -/
def cycle : Cause → List String
  | cyclicInclusion members | cyclicDeclarations members => members
  | _ => []

/-- The report of a defect at a place. -/
def report (c : Cause) (location : Location) : Diagnostic :=
  ⟨c.kind, c.phase, c.message, location, c.cycle⟩

end Cause

/-- A promise of a caller that was not kept. No input of the compiler brings one about. -/
inductive Breach
  /-- A position is used that the data do not have. -/
  | outOfRange
  /-- A count is lowered below zero. -/
  | countBelowZero
  /-- A count is raised above the largest word. -/
  | countOverflow
  /-- A multiplicity is divided by zero. -/
  | divisionByZero
  /-- References are followed around a cycle. -/
  | endlessPipeline
  /-- Inclusions are followed around a cycle. -/
  | endlessInclusion
  /-- A block that is no longer open is changed. -/
  | sealedBlock (name : String)
  /-- A block is compiled a second time. -/
  | compiledAgain (name : String)
deriving DecidableEq, Repr

/-- The breach in words. -/
def Breach.message : Breach → String
  | outOfRange => "index out of range"
  | countBelowZero => "count below zero"
  | countOverflow => "attempt to add with overflow"
  | divisionByZero => "division of a multiplicity by zero"
  | endlessPipeline => "pipeline without end"
  | endlessInclusion => "block inclusion without end"
  | sealedBlock name => s!"block specification '{name}' is sealed"
  | compiledAgain name => s!"block specification '{name}' is already initialized"

/-- What ends a computation early. -/
inductive Fault
  | rejected (diagnostic : Diagnostic)
  | breach (breach : Breach)
deriving DecidableEq, Repr

/-- The fault in one line. -/
def Fault.text : Fault → String
  | rejected d => d.text
  | breach b => b.message

/-- Rejects the input for a cause at a place. -/
def reject (c : Cause) (location : Location) : Except Fault α :=
  .error (.rejected (c.report location))

/-- The value, or a breach if there is none. -/
def require (b : Breach) : Option α → Except Fault α
  | some a => .ok a
  | none => .error (.breach b)

end Blockwork
