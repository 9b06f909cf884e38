import Blockwork.Types.Hierarchy

/-!
# Class types

A class type is a class together with interfaces: its values are the instances of the class
that implement them all. The interfaces are kept reduced, none implied by the class or by
another of them, and in order, so that equal types are equal as data.

`assignable` is the order of the types, `merge` gives the greatest type below two of them,
where there is one, and `intersect` the least type above both.
-/

namespace Blockwork

/-- A class and interfaces. -/
structure ClassType where
  /-- The class. -/
  base : TypeId
  /-- The interfaces, in order. -/
  interfaces : List TypeId
deriving DecidableEq, Repr

namespace ClassType

/-- The type of all values. -/
def object : ClassType :=
  ⟨Hierarchy.objectId, []⟩

/-- Whether the type asks for interfaces. -/
def hasInterfaces (t : ClassType) : Bool :=
  !t.interfaces.isEmpty

/-- Whether the type holds all values. -/
def isObject (t : ClassType) : Bool :=
  t.base == Hierarchy.objectId && t.interfaces.isEmpty

end ClassType

namespace Hierarchy

variable (h : Hierarchy)

/-- The type of the instances of a class, or of the values that implement an interface. -/
def single (id : TypeId) : ClassType :=
  if h.isInterface id then ⟨objectId, [id]⟩ else ⟨id, []⟩

/-- The interfaces every value of the type implements. -/
def closure (t : ClassType) : List TypeId :=
  ascending ((t.base :: t.interfaces).flatMap h.implied)

/-- The interfaces that are implied neither by the class nor by another one. -/
def reduce (base : TypeId) (interfaces : List TypeId) : List TypeId :=
  interfaces.filter fun i =>
    !(h.implied base).contains i && !(interfaces.any fun j => j != i && (h.implied j).contains i)

/-- The type as it is written: `Object` is left out where interfaces say more. -/
def describe (t : ClassType) : String :=
  if t.interfaces.isEmpty then h.name t.base
  else
    let interfaces := t.interfaces.map h.name
    " & ".intercalate (if t.base = objectId then interfaces else h.name t.base :: interfaces)

/-- Whether every value of the source is a value of the target. -/
def assignable (target source : ClassType) : Bool :=
  h.isSubclass source.base target.base &&
    target.interfaces.all fun i => (h.closure source).contains i

/-- The class of a merged type: the one of the two that is a subclass of the other. -/
def mergedBase? (a b : TypeId) : Option TypeId :=
  if h.isSubclass a b then some a else if h.isSubclass b a then some b else none

/-- The type of the values of both types. There is none if the classes are unrelated or if
a final class would have to implement further interfaces. -/
def merge (a b : ClassType) : Except TypeError ClassType :=
  match h.mergedBase? a.base b.base with
  | none => .error (.notMergeable (h.describe a) (h.describe b))
  | some base =>
    let interfaces := h.reduce base (ascending (a.interfaces ++ b.interfaces))
    if h.isFinal base && !interfaces.isEmpty then
      .error (.notMergeable (h.describe a) (h.describe b))
    else .ok ⟨base, interfaces⟩

/-- The nearest common superclass. -/
def commonBase (a b : TypeId) : TypeId :=
  ((h.lineage a).find? fun c => h.isSubclass b c).getD objectId

/-- The narrowest type that holds the values of both types. -/
def intersect (a b : ClassType) : ClassType :=
  let base := h.commonBase a.base b.base
  let closure := h.closure b
  ⟨base, h.reduce base ((h.closure a).filter fun i => closure.contains i)⟩

/-- The narrowest type that holds the values seen so far, if any, and those of one more
type. -/
def widen (current : Option ClassType) (t : ClassType) : ClassType :=
  match current with
  | some current => h.intersect current t
  | none => t

end Hierarchy

end Blockwork
