import Blockwork.Cause
import Blockwork.Draft.Basic
import Blockwork.Interface

/-!
# Components

A component is registered in a catalog from its draft. Registration checks the draft: its
types are defined, the names of its parameters differ, as do those of the attributes of a
parameter, multiplicities are not empty, defaults are literals of their types, and a
pipeline attribute has no default and the very type of the output.
-/

namespace Blockwork

/-- A registered component. -/
structure Component where
  /-- Its name. -/
  name : String
  /-- Its documentation. -/
  doc : Option String
  /-- What may be supplied and what is produced: one output. -/
  interface : Interface
deriving DecidableEq

/-- The place of a component. -/
def Component.location (c : Component) : Location :=
  .component c.name

/-! ## Types of drafts -/

namespace Hierarchy

/-- Add the type of a draft. -/
def addDraft (d : TypeDraft) : Method Hierarchy Diagnostic TypeId :=
  let (name, call) := match d with
    | .ofClass name parent interfaces isFinal => (name, addClass name parent interfaces isFinal)
    | .ofInterface name extended => (name, addInterface name extended)
  ExceptT.adapt (fun e => (Cause.rejectedType name e).report .unknown) call

/-- The built-in types and those of the drafts. -/
def ofDrafts (ds : List TypeDraft) : Except Diagnostic Hierarchy :=
  (ds.mapM addDraft).result standard

end Hierarchy

/-! ## Checking a component -/

namespace ComponentDraft

/-- Rejects a component. -/
def reject (component : String) (c : Cause) : Except Diagnostic α :=
  .error (c.report (.component component))

/-- The type denoted by an expression in a component. -/
def readType (h : Hierarchy) (component expression : String) : Except Diagnostic ClassType :=
  match h.parse expression with
  | .ok t => .ok t
  | .error e => reject component (.invalidType expression e)

/-- The default of an attribute, read as a literal of its type. -/
def readDefault (h : Hierarchy) (component param attr : String) (type : ClassType) :
    Option String → Except Diagnostic (Option Literal)
  | none => .ok none
  | some s =>
    match h.readLiteral s type with
    | .ok v => .ok (some v)
    | .error e => reject component (.illegalDefault param attr e)

/-- What a pipeline attribute has to satisfy besides. -/
def checkPipeline (h : Hierarchy) (component param : String) (outputType type : ClassType)
    (a : ComponentAttrDraft) : Except Diagnostic Unit := do
  if a.pipeline then
    if a.default.isSome then reject component (.pipelineDefault param a.name)
    if type ≠ outputType then
      reject component
        (.pipelineType param a.name (h.describe type) (h.describe outputType))

/-- The formal attributes of a parameter, in order. The names in `seen` are taken. -/
def readAttributes (h : Hierarchy) (component param : String) (outputType : ClassType) :
    (seen : List String) → List ComponentAttrDraft → Except Diagnostic (List FormalAttribute)
  | _, [] => .ok []
  | seen, a :: as => do
    if seen.contains a.name then reject component (.attributeTwice param a.name)
    let type ← readType h component a.type
    checkPipeline h component param outputType type a
    let default ← readDefault h component param a.name type a.default
    let rest ← readAttributes h component param outputType (a.name :: seen) as
    return ⟨a.name, type, default, if a.pipeline then [0] else [], a.doc⟩ :: rest

/-- The formal parameters, in order. The names in `seen` are taken. -/
def readParameters (h : Hierarchy) (component : String) (outputType : ClassType) :
    (seen : List String) → List ComponentParamDraft → Except Diagnostic (List FormalParameter)
  | _, [] => .ok []
  | seen, p :: ps => do
    if seen.contains p.name then reject component (.parameterTwice p.name)
    let multiplicity := Multiplicity.ofBounds p.min p.max
    if multiplicity.isEmpty then reject component (.emptyInterval p.name multiplicity)
    let attributes ← readAttributes h component p.name outputType [] p.attributes
    let rest ← readParameters h component outputType (p.name :: seen) ps
    return ⟨p.name, multiplicity, attributes, false, p.doc⟩ :: rest

/-- The component of a draft. -/
def build (h : Hierarchy) (c : ComponentDraft) : Except Diagnostic Component := do
  let outputType ← readType h c.name c.output.type
  let parameters ←
    readParameters h c.name outputType [Condition.parameterName] c.parameters
  return {
    name := c.name
    doc := c.doc
    interface := {
      parameters := Condition.formal h :: parameters
      outputs := [⟨c.output.name, outputType, c.output.doc⟩] } }

end ComponentDraft

/-! ## Catalogs -/

/-- The types and components declarations may mention. -/
structure Catalog where
  /-- The types. -/
  types : Hierarchy
  /-- The components, of different names. -/
  components : List Component
deriving DecidableEq

namespace Catalog

/-- The built-in types and no component. -/
def standard : Catalog :=
  ⟨Hierarchy.standard, []⟩

/-- The built-in types and those of the drafts, and no component. -/
def ofTypeDrafts (ds : List TypeDraft) : Except Diagnostic Catalog :=
  (Hierarchy.ofDrafts ds).map fun h => ⟨h, []⟩

/-- The component of a name. -/
def get? (c : Catalog) (name : String) : Option Component :=
  c.components.find? fun d => d.name == name

/-- The number of components. -/
def size (c : Catalog) : Nat :=
  c.components.length

/-- Add the component of a draft under a new name. The answer is the component. -/
def register (d : ComponentDraft) : Method Catalog Diagnostic Component := do
  let c ← get
  if (c.get? d.name).isSome then
    throw ((Cause.componentTwice d.name).report (.component d.name))
  let component ← (d.build c.types : Except Diagnostic Component)
  modifyGet fun c => (component, { c with components := c.components ++ [component] })

end Catalog

end Blockwork
