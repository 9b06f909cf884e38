import Blockwork.Literal

/-!
# Drafts

A draft holds a block, a component or a type as its author wrote it: names and texts, not
yet checked against anything. A bundle is everything needed to compile a set of blocks.

The functions at the end build drafts by adding one part after the other.
-/

namespace Blockwork

/-! ## Types -/

/-- A class or an interface to be added to the hierarchy. -/
inductive TypeDraft
  | ofClass (name : String) (parent : Option String) (interfaces : List String) (isFinal : Bool)
  | ofInterface (name : String) (extended : List String)
deriving DecidableEq, Repr

/-! ## Components -/

/-- An attribute of a component's parameter. -/
structure ComponentAttrDraft where
  /-- Its name. -/
  name : String
  /-- The expression of its type. -/
  type : String
  /-- The text of its default. -/
  default : Option String
  /-- Whether the type of the output follows it. -/
  pipeline : Bool
  /-- Its documentation. -/
  doc : Option String
deriving DecidableEq, Repr

/-- A parameter of a component. -/
structure ComponentParamDraft where
  /-- Its name. -/
  name : String
  /-- How often it is given at least. -/
  min : UInt32
  /-- How often it is given at most, if there is a bound. -/
  max : Option UInt32
  /-- Its documentation. -/
  doc : Option String
  /-- Its attributes. -/
  attributes : List ComponentAttrDraft
deriving DecidableEq, Repr

/-- The output of a component. -/
structure ComponentOutputDraft where
  /-- Its name, which may be empty. -/
  name : String
  /-- The expression of its type. -/
  type : String
  /-- Its documentation. -/
  doc : Option String
deriving DecidableEq, Repr

/-- A component. -/
structure ComponentDraft where
  /-- Its name. -/
  name : String
  /-- Its documentation. -/
  doc : Option String
  /-- Its parameters. -/
  parameters : List ComponentParamDraft
  /-- Its output. -/
  output : ComponentOutputDraft
deriving DecidableEq, Repr

/-! ## Blocks -/

/-- What a draft gives for an attribute: a text, which is a reference if it starts with
`@`, or a literal. -/
inductive RawValue
  | text (text : String)
  | immediate (value : Literal)
deriving DecidableEq

/-- An attribute as a declaration gives it. -/
structure AttrDraft where
  /-- The name of the attribute. -/
  name : String
  /-- What is given for it. -/
  value : RawValue
deriving DecidableEq

/-- One occurrence of a parameter in a declaration. -/
structure ParamDraft where
  /-- The name of the parameter. -/
  name : String
  /-- The attributes it gives. -/
  attributes : List AttrDraft
deriving DecidableEq

/-- What a declaration is a use of. -/
inductive DeclarationKind
  | component (name : String)
  | block (name : String)
deriving DecidableEq, Repr

/-- A use of a component or of another block. -/
structure DeclarationDraft where
  /-- Its name in the block. -/
  name : String
  /-- What it is a use of. -/
  kind : DeclarationKind
  /-- The text of its condition, if it has one. -/
  condition : Option String
  /-- The line it stands in. -/
  line : Option UInt32
  /-- Its documentation. -/
  doc : Option String
  /-- The parameters it gives. -/
  params : List ParamDraft
deriving DecidableEq

/-- An attribute of an input. -/
structure BlockAttrDraft where
  /-- Its name. -/
  name : String
  /-- Its documentation. -/
  doc : Option String
deriving DecidableEq, Repr

/-- An input of a block: a group of attributes. -/
structure BlockParamDraft where
  /-- Its name. -/
  name : String
  /-- Its documentation. -/
  doc : Option String
  /-- Its attributes. -/
  attributes : List BlockAttrDraft
deriving DecidableEq, Repr

/-- An output of a block. -/
structure OutputDraft where
  /-- Its name. -/
  name : String
  /-- The reference to what it is wired to. -/
  reference : String
  /-- Its documentation. -/
  doc : Option String
deriving DecidableEq, Repr

/-- A block. -/
structure BlockDraft where
  /-- Its name. -/
  name : String
  /-- The file it was read from. -/
  origin : Option String
  /-- Its documentation. -/
  doc : Option String
  /-- Its inputs. -/
  params : List BlockParamDraft
  /-- Its declarations. -/
  declarations : List DeclarationDraft
  /-- Its outputs. -/
  outputs : List OutputDraft
deriving DecidableEq

/-- Everything needed to compile a set of blocks. -/
structure Bundle where
  /-- The types besides the built-in ones. -/
  types : List TypeDraft
  /-- The components. -/
  components : List ComponentDraft
  /-- The blocks. -/
  blocks : List BlockDraft
deriving DecidableEq

namespace RawValue

/-- The text, unless a literal is given. -/
def text? : RawValue → Option String
  | text s => some s
  | immediate _ => none

/-- Whether a text starts as references do. -/
def isReferenceText (s : String) : Bool :=
  s.toList.head? == some '@'

/-- Whether a reference is given. -/
def isReference (v : RawValue) : Bool :=
  v.text?.any isReferenceText

end RawValue

/-! ## Building drafts -/

namespace ComponentDraft

/-- A component without parameters. -/
def new (name outputName outputType : String) : ComponentDraft :=
  ⟨name, none, [], ⟨outputName, outputType, none⟩⟩

/-- The component with documentation. -/
def withDoc (c : ComponentDraft) (doc : String) : ComponentDraft :=
  { c with doc := some doc }

/-- The component with one more parameter. -/
def addParam (c : ComponentDraft) (p : ComponentParamDraft) : ComponentDraft :=
  { c with parameters := c.parameters ++ [p] }

end ComponentDraft

namespace ComponentParamDraft

/-- A parameter without attributes. -/
def new (name : String) (min : UInt32) (max : Option UInt32) : ComponentParamDraft :=
  ⟨name, min, max, none, []⟩

/-- The parameter with one more attribute. -/
def addAttr (p : ComponentParamDraft) (a : ComponentAttrDraft) : ComponentParamDraft :=
  { p with attributes := p.attributes ++ [a] }

/-- The parameter with one more attribute that must be given. -/
def attr (p : ComponentParamDraft) (name type : String) : ComponentParamDraft :=
  p.addAttr ⟨name, type, none, false, none⟩

/-- The parameter with one more attribute that has a default. -/
def attrWithDefault (p : ComponentParamDraft) (name type default : String) :
    ComponentParamDraft :=
  p.addAttr ⟨name, type, some default, false, none⟩

/-- The parameter with one more attribute whose type the output follows. -/
def pipelineAttr (p : ComponentParamDraft) (name type : String) : ComponentParamDraft :=
  p.addAttr ⟨name, type, none, true, none⟩

end ComponentParamDraft

namespace BlockDraft

/-- A block with nothing in it. -/
def new (name : String) : BlockDraft :=
  ⟨name, none, none, [], [], []⟩

/-- The block with one more input. -/
def addParam (b : BlockDraft) (p : BlockParamDraft) : BlockDraft :=
  { b with params := b.params ++ [p] }

/-- The block with one more declaration. -/
def addDeclaration (b : BlockDraft) (d : DeclarationDraft) : BlockDraft :=
  { b with declarations := b.declarations ++ [d] }

/-- The block with one more output. -/
def addOutput (b : BlockDraft) (o : OutputDraft) : BlockDraft :=
  { b with outputs := b.outputs ++ [o] }

/-- The block with one more input with attributes of the given names. -/
def param (b : BlockDraft) (name : String) (attributes : List String) : BlockDraft :=
  b.addParam ⟨name, none, attributes.map fun a => ⟨a, none⟩⟩

/-- The block with one more output, wired to a reference. -/
def output (b : BlockDraft) (name reference : String) : BlockDraft :=
  b.addOutput ⟨name, reference, none⟩

end BlockDraft

namespace DeclarationDraft

/-- A use of a component or block that gives nothing. -/
def new (name : String) (kind : DeclarationKind) : DeclarationDraft :=
  ⟨name, kind, none, none, none, []⟩

/-- The declaration with a condition. -/
def withCondition (d : DeclarationDraft) (condition : String) : DeclarationDraft :=
  { d with condition := some condition }

/-- The declaration with one more occurrence of a parameter. -/
def addParam (d : DeclarationDraft) (p : ParamDraft) : DeclarationDraft :=
  { d with params := d.params ++ [p] }

/-- The declaration with one more occurrence of a parameter, given by texts. -/
def param (d : DeclarationDraft) (name : String) (texts : List (String × String)) :
    DeclarationDraft :=
  d.addParam ⟨name, texts.map fun (a, s) => ⟨a, .text s⟩⟩

/-- The declaration with one more occurrence of a parameter, given by literals. -/
def paramValues (d : DeclarationDraft) (name : String) (values : List (String × Literal)) :
    DeclarationDraft :=
  d.addParam ⟨name, values.map fun (a, v) => ⟨a, .immediate v⟩⟩

end DeclarationDraft

end Blockwork
