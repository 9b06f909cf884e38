/-!
# Diagnostics

A diagnostic reports one defect of a bundle: what kind of defect it is, in which phase it
was found, a message, a place, and the members of a cycle if the defect is one.
-/

namespace Blockwork

/-- The phases of compilation. -/
inductive Phase
  | parse
  | registry
  | draft
  | load
  | link
  | starExpansion
  | referenceResolution
  | topSort
  | pipelineFreeze
  | multiplicityInference
  | attributeTypeInference
  | outputTypeInference
  | typeCheck
deriving DecidableEq, Repr

/-- All phases, in order. -/
def Phase.all : List Phase :=
  [parse, registry, draft, load, link, starExpansion, referenceResolution, topSort,
    pipelineFreeze, multiplicityInference, attributeTypeInference, outputTypeInference,
    typeCheck]

/-- The phase as it is shown. -/
def Phase.text : Phase → String
  | parse => "Parse"
  | registry => "Registry"
  | draft => "Draft"
  | load => "Load"
  | link => "Link"
  | starExpansion => "Star Expansion"
  | referenceResolution => "Reference Resolution"
  | topSort => "Top Sort"
  | pipelineFreeze => "Pipeline Freeze"
  | multiplicityInference => "Multiplicity Inference"
  | attributeTypeInference => "Attribute Type Inference"
  | outputTypeInference => "Output Type Inference"
  | typeCheck => "Type Check"

/-- Who has to mend a defect. -/
inductive Category
  /-- The block or draft is wired incorrectly. -/
  | configuration
  /-- Declarations or blocks depend on each other in a cycle. -/
  | structural
  /-- The description of a component is defective. -/
  | metadata
deriving DecidableEq, Repr

/-- The category as it is shown. -/
def Category.text : Category → String
  | configuration => "Configuration"
  | structural => "Structural"
  | metadata => "Metadata"

/-- The kinds of defects. -/
inductive DefectKind
  | draftParsing
  | duplicateName
  | duplicateParamName
  | duplicateAttributeName
  | duplicateOutputName
  | unknownType
  | unknownComponent
  | unknownBlockSpecification
  | unsupportedParameter
  | unsupportedAttribute
  | missingAttribute
  | illegalDefaultValue
  | illegalImmediateValue
  | invalidImmediateObjectType
  | inconstructibleClass
  | pipelineAttributeHasDefaultValue
  | incompatiblePipelineTypes
  | emptyParameterInterval
  | multipleStarsInParameter
  | illegalStarExpression
  | undefinedReference
  | cyclicDependencies
  | cyclicBlockDependency
  | multipleInputReferences
  | parameterOccursTooOften
  | parameterOccursNotOftenEnough
  | emptyInferedParameterInterval
  | inferedInconsistentType
  | typeMismatch
deriving DecidableEq, Repr

namespace DefectKind

/-- All kinds, in order. -/
def all : List DefectKind :=
  [draftParsing, duplicateName, duplicateParamName, duplicateAttributeName,
    duplicateOutputName, unknownType, unknownComponent, unknownBlockSpecification,
    unsupportedParameter, unsupportedAttribute, missingAttribute, illegalDefaultValue,
    illegalImmediateValue, invalidImmediateObjectType, inconstructibleClass,
    pipelineAttributeHasDefaultValue, incompatiblePipelineTypes, emptyParameterInterval,
    multipleStarsInParameter, illegalStarExpression, undefinedReference, cyclicDependencies,
    cyclicBlockDependency, multipleInputReferences, parameterOccursTooOften,
    parameterOccursNotOftenEnough, emptyInferedParameterInterval, inferedInconsistentType,
    typeMismatch]

/-- The code of a kind. -/
def code : DefectKind → String
  | draftParsing => "DRAFT_PARSING"
  | duplicateName => "DUPLICATE_NAME"
  | duplicateParamName => "DUPLICATE_PARAM_NAME"
  | duplicateAttributeName => "DUPLICATE_ATTRIBUTE_NAME"
  | duplicateOutputName => "DUPLICATE_OUTPUT_NAME"
  | unknownType => "UNKNOWN_TYPE"
  | unknownComponent => "UNKNOWN_COMPONENT"
  | unknownBlockSpecification => "UNKNOWN_BLOCK_SPECIFICATION"
  | unsupportedParameter => "UNSUPPORTED_PARAMETER"
  | unsupportedAttribute => "UNSUPPORTED_ATTRIBUTE"
  | missingAttribute => "MISSING_ATTRIBUTE"
  | illegalDefaultValue => "ILLEGAL_DEFAULT_VALUE"
  | illegalImmediateValue => "ILLEGAL_IMMEDIATE_VALUE"
  | invalidImmediateObjectType => "INVALID_IMMEDIATE_OBJECT_TYPE"
  | inconstructibleClass => "INCONSTRUCTIBLE_CLASS"
  | pipelineAttributeHasDefaultValue => "PIPELINE_ATTRIBUTE_HAS_DEFAULT_VALUE"
  | incompatiblePipelineTypes => "INCOMPATIBLE_PIPELINE_TYPES"
  | emptyParameterInterval => "EMPTY_PARAMETER_INTERVAL"
  | multipleStarsInParameter => "MULTIPLE_STARS_IN_PARAMETER"
  | illegalStarExpression => "ILLEGAL_STAR_EXPRESSION"
  | undefinedReference => "UNDEFINED_REFERENCE"
  | cyclicDependencies => "CYCLIC_DEPENDENCIES"
  | cyclicBlockDependency => "CYCLIC_BLOCK_DEPENDENCY"
  | multipleInputReferences => "MULTIPLE_INPUT_REFERENCES"
  | parameterOccursTooOften => "PARAMETER_OCCURS_TOO_OFTEN"
  | parameterOccursNotOftenEnough => "PARAMETER_OCCURS_NOT_OFTEN_ENOUGH"
  | emptyInferedParameterInterval => "EMPTY_INFERED_PARAMETER_INTERVAL"
  | inferedInconsistentType => "INFERED_INCONSISTENT_TYPE"
  | typeMismatch => "TYPE_MISMATCH"

/-- The category of a kind. -/
def category : DefectKind → Category
  | cyclicDependencies | cyclicBlockDependency => .structural
  | unknownType | unknownComponent | illegalDefaultValue | pipelineAttributeHasDefaultValue
  | emptyParameterInterval => .metadata
  | _ => .configuration

end DefectKind

/-- A place in the input. -/
inductive Location
  | unknown
  /-- A file or block, with a line if there is one. -/
  | source (origin : String) (line : Option UInt32)
  | component (name : String)
deriving DecidableEq, Repr

namespace Location

/-- The same source at another line, if one is given. Other places stay as they are. -/
def atLine : Location → Option UInt32 → Location
  | source origin _, some line => source origin (some line)
  | l, _ => l

/-- The place as it is shown. -/
def text : Location → String
  | unknown => "unknown location"
  | source origin (some line) => s!"{origin}:{line.toNat}"
  | source origin none => origin
  | component name => s!"component '{name}'"

end Location

/-- A report of one defect. -/
structure Diagnostic where
  /-- What kind of defect it is. -/
  kind : DefectKind
  /-- The phase that found it. -/
  phase : Phase
  /-- The defect in words. -/
  message : String
  /-- Where it is. -/
  location : Location
  /-- The members of the cycle, if the defect is one. -/
  cycle : List String
deriving DecidableEq, Repr

namespace Diagnostic

/-- The category of the defect. -/
def category (d : Diagnostic) : Category :=
  d.kind.category

/-- The whole report in one line. -/
def text (d : Diagnostic) : String :=
  s!"[{d.phase.text}:{d.kind.code}] {d.message} ({d.location.text})"

end Diagnostic

end Blockwork
