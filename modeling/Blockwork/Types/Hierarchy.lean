import Blockwork.Ascending
import Blockwork.Literal
import Blockwork.Method

/-!
# Type hierarchies

A hierarchy is a list of definitions of classes and interfaces, and a type is named by its
position in it. A class mentions its superclass and the interfaces it implements, and an
interface those it extends. All else about a type is found by following the mentions: the
superclasses of a class by `lineage`, and the interfaces a type implements through all of them
by `implied`.

Definitions are added at the end and never change. What is added mentions types that are there
already, so following the mentions comes to an end. The walks take a bound on their steps, which
is large enough for that.

The first definition is the class `Object`, the superclass of all classes.
-/

namespace Blockwork

/-- A type, as its position in the hierarchy. -/
abbrev TypeId := Nat

/-- What kind of type a definition introduces, and which types it mentions. -/
inductive TypeForm
  | ofClass (parent : Option TypeId) (interfaces : List TypeId) (isFinal : Bool)
    (literal : Option LiteralKind)
  | ofInterface (extended : List TypeId)
deriving DecidableEq, Repr

namespace TypeForm

/-- The superclass that is mentioned. -/
def parent? : TypeForm → Option TypeId
  | ofClass parent _ _ _ => parent
  | ofInterface _ => none

/-- The interfaces that are mentioned. -/
def interfaces : TypeForm → List TypeId
  | ofClass _ interfaces _ _ => interfaces
  | ofInterface extended => extended

/-- Whether an interface is introduced. -/
def isInterface : TypeForm → Bool
  | ofClass .. => false
  | ofInterface _ => true

/-- Whether a final class is introduced. -/
def isFinal : TypeForm → Bool
  | ofClass _ _ isFinal _ => isFinal
  | ofInterface _ => false

/-- How a literal of the class that is introduced is read. -/
def literalKind? : TypeForm → Option LiteralKind
  | ofClass _ _ _ literal => literal
  | ofInterface _ => none

end TypeForm

/-- A definition of a class or an interface. -/
structure TypeDef where
  /-- The name of the type. -/
  name : String
  /-- What it introduces. -/
  form : TypeForm
deriving DecidableEq, Repr

/-- Why a type is not accepted. -/
inductive TypeError
  | unknown (name : String)
  | duplicate (name : String)
  | notAClass (name : String)
  | notAnInterface (name : String)
  | notMergeable (left right : String)
deriving DecidableEq, Repr

/-- The error as it is shown. -/
def TypeError.message : TypeError → String
  | unknown name => s!"unknown type '{name}'"
  | duplicate name => s!"type '{name}' is already defined"
  | notAClass name => s!"'{name}' is an interface, expected a class"
  | notAnInterface name => s!"'{name}' is a class, expected an interface"
  | notMergeable left right => s!"types '{left}' and '{right}' cannot be merged"

/-- A list of definitions. -/
structure Hierarchy where
  /-- The definitions in the order in which they were added. -/
  defs : List TypeDef
deriving DecidableEq, Repr

namespace Hierarchy

/-- The class `Object`. -/
def objectId : TypeId :=
  0

variable (h : Hierarchy)

/-! ## Looking types up -/

/-- The type of a name. -/
def lookup (name : String) : Option TypeId :=
  h.defs.findIdx? fun d => d.name == name

/-- The name of a type. -/
def name (id : TypeId) : String :=
  (h.defs[id]?.map TypeDef.name).getD ""

/-- What the definition of a type introduces. -/
def form? (id : TypeId) : Option TypeForm :=
  h.defs[id]?.map TypeDef.form

/-- Whether the type is an interface. -/
def isInterface (id : TypeId) : Bool :=
  (h.form? id).any TypeForm.isInterface

/-- Whether the type is a final class. -/
def isFinal (id : TypeId) : Bool :=
  (h.form? id).any TypeForm.isFinal

/-- How a literal of the class is read. -/
def literalKind? (id : TypeId) : Option LiteralKind :=
  (h.form? id).bind TypeForm.literalKind?

/-- The superclass of a class. -/
def parent? (id : TypeId) : Option TypeId :=
  (h.form? id).bind TypeForm.parent?

/-- The interfaces that a class implements itself, or that an interface extends. -/
def interfaces (id : TypeId) : List TypeId :=
  (h.form? id).elim [] TypeForm.interfaces

/-- The types a definition mentions, in order. -/
def mentions (id : TypeId) : List TypeId :=
  (h.parent? id).toList ++ h.interfaces id

/-! ## Following the mentions -/

/-- A class and its superclasses, nearest first, as far as a number of steps leads. -/
def lineageWithin : Nat → TypeId → List TypeId
  | 0, id => [id]
  | steps + 1, id => id :: (h.parent? id).elim [] (lineageWithin steps)

/-- A class and its superclasses, nearest first. Each superclass is an earlier definition, so there
are no more steps than definitions before the class. -/
def lineage (id : TypeId) : List TypeId :=
  h.lineageWithin id id

/-- Whether the first class is the second or one of its subclasses. -/
def isSubclass (sub sup : TypeId) : Bool :=
  (h.lineage sub).contains sup

/-- The interfaces that are met on the way from pending types, besides those that were found before.
The last type that became pending comes first. A class leads to all that it mentions, an interface
only when it is found. -/
def interfacesWithin : Nat → (pending found : List TypeId) → List TypeId
  | 0, _, found => found
  | _ + 1, [], found => found
  | steps + 1, id :: pending, found =>
    if !h.isInterface id then interfacesWithin steps ((h.mentions id).reverse ++ pending) found
    else if found.contains id then interfacesWithin steps pending found
    else interfacesWithin steps ((h.mentions id).reverse ++ pending) (insertAscending id found)

/-- The number of mentions in all definitions. -/
def mentionCount : Nat :=
  ((List.range h.defs.length).flatMap h.mentions).length

/-- The interfaces a type implements, an interface included in its own. Each mention makes a type
pending once at most. -/
def implied (id : TypeId) : List TypeId :=
  h.interfacesWithin (h.mentionCount + 1) [id] []

/-! ## Adding types -/

/-- The hierarchy with one more definition. -/
def extend (d : TypeDef) : Hierarchy :=
  ⟨h.defs ++ [d]⟩

/-- The class of a name. -/
def classNamed (name : String) : Except TypeError TypeId :=
  match h.lookup name with
  | none => .error (.unknown name)
  | some id => if h.isInterface id then .error (.notAClass name) else .ok id

/-- The interface of a name. -/
def interfaceNamed (name : String) : Except TypeError TypeId :=
  match h.lookup name with
  | none => .error (.unknown name)
  | some id => if h.isInterface id then .ok id else .error (.notAnInterface name)

/-- Add a definition. The answer is the type that it introduces. -/
def insert (d : TypeDef) : Method Hierarchy TypeError TypeId :=
  modifyGet fun h => (h.defs.length, h.extend d)

/-- Add a class under a new name. Its superclass is `Object` unless another is given. -/
def addClass (name : String) (parent : Option String) (interfaces : List String)
    (isFinal : Bool) : Method Hierarchy TypeError TypeId := do
  let h ← get
  if (h.lookup name).isSome then throw (.duplicate name)
  let parent ← match parent with
    | some parent => (h.classNamed parent : Except TypeError TypeId)
    | none => pure objectId
  let interfaces ← (interfaces.mapM h.interfaceNamed : Except TypeError (List TypeId))
  insert ⟨name, .ofClass (some parent) interfaces isFinal none⟩

/-- Add an interface under a new name. -/
def addInterface (name : String) (extended : List String) : Method Hierarchy TypeError TypeId := do
  let h ← get
  if (h.lookup name).isSome then throw (.duplicate name)
  let extended ← (extended.mapM h.interfaceNamed : Except TypeError (List TypeId))
  insert ⟨name, .ofInterface extended⟩

/-! ## The hierarchies every other one starts from -/

/-- Only `Object`, whose literals are texts. -/
def root : Hierarchy :=
  ⟨[⟨"Object", .ofClass none [] false (some .text)⟩]⟩

/-- The names of the types of literals. -/
def literalTypeName : LiteralKind → String
  | .boolean => "Boolean"
  | .integer => "Integer"
  | .long => "Long"
  | .double => "Double"
  | .text => "String"

/-- The final class of the literals of a kind. -/
def literalClass (kind : LiteralKind) (parent : TypeId) (interfaces : List TypeId) : TypeDef :=
  ⟨literalTypeName kind, .ofClass (some parent) interfaces true (some kind)⟩

/-- The built-in types: the interfaces of values that can be compared, read as characters
or iterated, the numbers, and a final class for every kind of literal. -/
def standard : Hierarchy :=
  let h := root
  let comparable := h.defs.length
  let h := h.extend ⟨"Comparable", .ofInterface []⟩
  let charSequence := h.defs.length
  let h := h.extend ⟨"CharSequence", .ofInterface []⟩
  let iterable := h.defs.length
  let h := h.extend ⟨"Iterable", .ofInterface []⟩
  let collection := h.defs.length
  let h := h.extend ⟨"Collection", .ofInterface [iterable]⟩
  let h := h.extend ⟨"List", .ofInterface [collection]⟩
  let number := h.defs.length
  let h := h.extend ⟨"Number", .ofClass (some objectId) [] false none⟩
  let h := h.extend (literalClass .integer number [comparable])
  let h := h.extend (literalClass .long number [comparable])
  let h := h.extend (literalClass .double number [comparable])
  let h := h.extend (literalClass .boolean objectId [comparable])
  h.extend (literalClass .text objectId [charSequence, comparable])

end Hierarchy

end Blockwork
