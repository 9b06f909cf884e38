import Blockwork.Draft.Basic
import Blockwork.Network.Basic

/-!
# References

A text that starts with `@` refers to the output of a declaration or to the attribute of an
input that has this very text as its reference name. Every other text is read as a literal
of the declared type. Where names coincide, inputs come before outputs and later ones before
earlier ones.
-/

namespace Blockwork

namespace Network

variable (n : Network)

/-- The target of a reference: the last one of the name, inputs being last. -/
def resolve? (reference : String) : Option Target :=
  n.targets.reverse.find? fun t => n.targetName? t == some reference

/-- What the text of an attribute stands for. `index` gives the targets of references. -/
def bindText (index : String → Option Target) (d : Declaration) (slot : String)
    (declared : ClassType) (raw : String) : Except Fault Binding :=
  if RawValue.isReferenceText raw then
    match index raw with
    | some t => .ok (.reference t)
    | none => reject (.undefinedReference slot raw) d.location
  else
    match n.types.readLiteral raw declared with
    | .ok v => .ok (.literal v)
    | .error e => reject (.illegalLiteral slot e) d.location

/-- The attribute with its text resolved, unless it has none or is resolved already. -/
def bindSlot (index : String → Option Target) (d : Declaration) (param attr : Nat) (s : Slot) :
    Except Fault Slot :=
  match s.binding, s.raw with
  | .unbound, some raw => do
    let binding ← n.bindText index d (d.slotName param attr) s.declared raw
    return { s with binding }
  | _, _ => .ok s

/-- The declaration with all its texts resolved. -/
def bindDeclaration (index : String → Option Target) (d : Declaration) :
    Except Fault Declaration := do
  let parameters ← d.parameters.zipIdx.mapM fun (p, i) => do
    let slots ← p.slots.zipIdx.mapM fun (s, j) => n.bindSlot index d i j s
    return { p with slots }
  return { d with parameters }

/-- The output of the block with its reference resolved. -/
def bindOutput (index : String → Option Target) (o : BlockOutput) : Except Fault BlockOutput :=
  match index o.reference with
  | some t => .ok { o with target := some t }
  | none => reject (.undefinedOutputReference o.name o.reference) n.location

/-- The network with the texts of the declaration at a position resolved. -/
def bindAt (index : String → Option Target) (m : Network) (d : Nat) : Except Fault Network := do
  let decl ← require .outOfRange (m.declaration? d)
  let decl ← n.bindDeclaration index decl
  return m.modifyDeclaration d fun _ => decl

/-- The network with all texts resolved: those of the declarations in the order of
execution, then those of the outputs. -/
def resolveReferences : Except Fault Network := do
  let m ← n.order.foldlM (n.bindAt n.resolve?) n
  let outputs ← n.outputs.mapM (n.bindOutput n.resolve?)
  return { m with outputs }

end Network

end Blockwork
