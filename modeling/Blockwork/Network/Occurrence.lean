import Blockwork.Ascending
import Blockwork.Network.Basic

/-!
# How often inputs occur

A declaration gives each formal parameter of what it uses some number of times, as often as
the multiplicity of the parameter allows. An occurrence that refers to an input of the block
stands for as many as the input is given. So where `k` of the `g` occurrences refer to an
input, the multiplicity is moved down by the `g - k` others and divided by `k`, and the input
may be given as often as all places that refer to it allow.
-/

namespace Blockwork

namespace Parameter

/-- The inputs the attributes refer to, once for each reference. -/
def inputsReferredTo (p : Parameter) : List Nat :=
  p.slots.filterMap fun s =>
    match s.binding with
    | .reference (.input id) => some id.param
    | _ => none

end Parameter

/-- The occurrences of one formal parameter that refer to inputs: which inputs, in order, and how
many occurrences. -/
structure InputUse where
  /-- The inputs. -/
  inputs : List Nat
  /-- The number of occurrences. -/
  count : UInt32
deriving DecidableEq, Repr

/-- One more occurrence that refers to the inputs. It is a breach if there are too many for a
word. -/
def InputUse.next (u : InputUse) (inputs : List Nat) : Except Fault InputUse :=
  if u.count = Multiplicity.infinity then .error (.breach .countOverflow)
  else .ok ⟨inputs, u.count + 1⟩

namespace Network

variable (n : Network)

/-- One more occurrence of a formal parameter. It refers to one input at most unless it is
the only occurrence there can be, and to the same inputs as the others unless there may be
any number of them. -/
def addOccurrence (d : Declaration) (f : FormalParameter) (u : InputUse) (p : Parameter) :
    Except Fault InputUse :=
  match ascending p.inputsReferredTo with
  | [] => .ok u
  | here =>
    if 1 < here.length ∧ ¬f.multiplicity.isSingleton then
      reject (.severalInputs f.name d.name f.multiplicity) d.location
    else if f.multiplicity.isUnconstrained ∨ u.inputs = [] then
      u.next (ascending (u.inputs ++ here))
    else if u.inputs ≠ here then reject (.differentInputs f.name d.name) d.location
    else u.next u.inputs

/-- Checks the number of occurrences of a parameter that refers to no input. -/
def checkOccurrences (d : Declaration) (f : FormalParameter) (count : UInt32) :
    Except Fault Unit :=
  if count < f.multiplicity.lower then
    reject (.tooFewOccurrences f.name d.name f.multiplicity.lower count) d.location
  else if f.multiplicity.upper < count then
    reject (.tooManyOccurrences f.name d.name f.multiplicity.upper count) d.location
  else .ok ()

/-- The multiplicities of the inputs, with the one of an input restricted to the allowed
counts. An input has to be allowed to occur. -/
def restrict (location : Location) (allowed : Multiplicity) (result : List Multiplicity)
    (input : Nat) : Except Fault (List Multiplicity) := do
  let current ← require .outOfRange result[input]?
  let restricted := current.intersect allowed
  if restricted.isEmpty || restricted.upper == 0 then
    let name := (n.params[input]?.map BlockParameter.name).getD ""
    reject (.emptyInputInterval name current allowed) location
  else return result.set input restricted

/-- The multiplicities of the inputs after the occurrences of one formal parameter. -/
def inferFormal (d : Declaration) (result : List Multiplicity) (f : FormalParameter)
    (occurrences : List Parameter) : Except Fault (List Multiplicity) := do
  let u ← occurrences.foldlM (addOccurrence d f) ⟨[], 0⟩
  let size := Multiplicity.clamp occurrences.length
  if u.inputs = [] then
    checkOccurrences d f size
    return result
  else
    let moved := f.multiplicity.shift ((u.count.toNat : Int) - size.toNat)
    let m ← require .divisionByZero (moved.divide? u.count)
    u.inputs.foldlM (n.restrict d.location m) result

/-- The occurrences of the formal parameter at a position. -/
def occurrencesOf (d : Declaration) (index : Nat) : List Parameter :=
  d.parameters.filter fun p => p.formal == index

/-- The multiplicities of the inputs after a declaration. -/
def inferDeclaration (result : List Multiplicity) (position : Nat) :
    Except Fault (List Multiplicity) := do
  let d ← require .outOfRange (n.declaration? position)
  d.specification.interface.parameters.zipIdx.foldlM
    (fun result (f, i) => n.inferFormal d result f (occurrencesOf d i)) result

/-- The multiplicities of the inputs after an output of the block, which takes exactly one
occurrence of an input it is wired to. -/
def inferOutput (result : List Multiplicity) (o : BlockOutput) :
    Except Fault (List Multiplicity) :=
  match o.target with
  | some (.input id) => n.restrict n.location .one result id.param
  | _ => .ok result

/-- How often each input may be given. -/
def inferMultiplicities : Except Fault (List Multiplicity) := do
  let result := n.params.map BlockParameter.multiplicity
  let result ← n.order.foldlM n.inferDeclaration result
  n.outputs.foldlM n.inferOutput result

/-- The network with these multiplicities of the inputs. -/
def setMultiplicities (ms : List Multiplicity) : Network :=
  { n with params := n.params.zipWith (fun p m => { p with multiplicity := m }) ms }

end Network

end Blockwork
