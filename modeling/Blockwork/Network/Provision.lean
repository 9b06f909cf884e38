import Blockwork.Network.Flow

/-!
# What outputs provide

An output of the block has the type of what it is wired to. Where this is an open pipeline,
its type is the narrowest one that holds everything flowing into it, however many pipelines
lie between.
-/

namespace Blockwork

namespace Network

variable (n : Network)

/-- The type of a target, through all open pipelines on the way to it. The number bounds the
length of a path. -/
def providedWithin : Nat → Target → Except Fault ClassType
  | 0, _ => .error (.breach .endlessPipeline)
  | _ + 1, .input id => do
    let i ← require .outOfRange (n.input? id)
    return i.type
  | bound + 1, .output id => do
    let d ← require .outOfRange (n.declaration? id.declaration)
    let o ← require .outOfRange d.outputs[id.output]?
    let result ← o.fedBy.foldlM
      (fun result (param, attr) => do
        let s ← require .outOfRange (d.slot? param attr)
        let type ← match s.binding with
          | .reference t => providedWithin bound t
          | _ => pure s.type
        return some (n.types.widen result type))
      none
    return result.getD o.type

/-- The type a target provides, looking through open pipelines. -/
def providedType (t : Target) : Except Fault ClassType :=
  n.providedWithin n.pathBound t

/-- The type of an output of the block. -/
def inferOutputType (o : BlockOutput) : Except Fault ClassType :=
  match o.target with
  | some t => n.providedType t
  | none => .ok ClassType.object

/-- The types of the outputs of the block, in order. -/
def inferOutputTypes : Except Fault (List ClassType) :=
  n.outputs.mapM n.inferOutputType

/-- The network with these types of its outputs. -/
def setOutputTypes (ts : List ClassType) : Network :=
  { n with outputs := n.outputs.zipWith (fun o t => { o with type := some t }) ts }

end Network

end Blockwork
