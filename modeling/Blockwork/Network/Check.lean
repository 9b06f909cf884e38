import Blockwork.Network.Basic

/-!
# Checking types

Every attribute that refers to something has to accept the type its target provides. The
outputs it is still a pipeline into record that type, so declarations executed later see
what really flows out of them.
-/

namespace Blockwork

namespace Network

/-- The network with one more type recorded on outputs of a declaration. -/
def recordProvided (n : Network) (declaration : Nat) (type : ClassType) (outputs : List Nat) :
    Network :=
  outputs.foldl
    (fun n o => n.modifyDeclaration declaration fun d =>
      d.modifyOutput o fun out => { out with result := some (n.types.widen out.result type) })
    n

/-- The network after the attribute at a position is checked. -/
def checkAt (n : Network) (id : SlotId) : Except Fault Network := do
  let s ← require .outOfRange (n.slot? id)
  match s.binding with
  | .reference t =>
    let provided ← require .outOfRange (n.targetType? t)
    if n.types.assignable s.type provided then
      return n.recordProvided id.declaration provided s.feeds
    else
      reject
        (.typeMismatch (n.slotName id) (n.types.describe s.type) (n.targetName t)
          (n.types.describe provided))
        (n.declarationLocation id.declaration)
  | _ => return n

/-- The network after all attributes are checked, in the order of execution. -/
def checkTypes (n : Network) : Except Fault Network :=
  n.slotIds.foldlM checkAt n

end Network

end Blockwork
