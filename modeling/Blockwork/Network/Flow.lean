import Blockwork.Network.Basic

/-!
# What flows out of the inputs

What is given for an attribute of an input flows to everything that refers to it, and from a
pipeline attribute on to what refers to the outputs it feeds. The input has to satisfy the
types of all attributes on the way, and the outputs of the block at the end follow its type.

`visit` goes through all referrers in this way. A network that has an execution order holds
no path longer than its number of outputs; a longer one runs in a circle and is a breach.
-/

namespace Blockwork

/-- What is known of an attribute of an input. -/
structure InputTyping where
  /-- The type it has to have. -/
  type : ClassType
  /-- The outputs of the block it flows into, in the order in which they were found. -/
  pipelineOutputs : List Nat
deriving DecidableEq, Repr

namespace Network

variable (n : Network)

/-- What refers to a target: attributes in the order of execution, then outputs of the
block. -/
def referrers (t : Target) : List Referrer :=
  ((n.slots.filter fun (_, s) => s.binding.target? == some t).map fun (id, _) =>
    Referrer.slot id) ++
  ((n.outputs.zipIdx.filter fun (o, _) => o.target == some t).map fun (_, i) =>
    Referrer.blockOutput i)

/-- The referrers of all targets. -/
def referrerTable : List (Target × List Referrer) :=
  n.targets.map fun t => (t, n.referrers t)

/-- The referrers of a target, from a table if it is there. -/
def referrersFrom (table : List (Target × List Referrer)) (t : Target) : List Referrer :=
  (table.lookup t).getD (n.referrers t)

theorem lookup_map_self {α β : Type} [DecidableEq α] (f : α → β) (l : List α) (a : α) :
    ((l.map fun a => (a, f a)).lookup a).getD (f a) = f a := by
  induction l with
  | nil => rfl
  | cons b l ih =>
    by_cases h : a = b
    · simp [h]
    · simp only [List.map_cons, List.lookup_cons, beq_eq_false_iff_ne.2 h]
      exact ih

theorem referrersFrom_referrerTable (t : Target) :
    n.referrersFrom n.referrerTable t = n.referrers t :=
  lookup_map_self n.referrers n.targets t

/-- The outputs that a referrer feeds. -/
def fedOutputs : Referrer → List Target
  | .slot id =>
    ((n.slot? id).map Slot.feeds).getD [] |>.map fun o => .output ⟨id.declaration, o⟩
  | .blockOutput _ => []

/-- Goes through everything a target flows to, from each referrer on to the outputs it
feeds, and adds it up by `step`. The referrers of targets are looked up in a table, and the
number bounds the length of a path. -/
def visit (table : List (Target × List Referrer)) (step : σ → Referrer → Except Fault σ) :
    Nat → Target → σ → Except Fault σ
  | 0, _, _ => .error (.breach .endlessPipeline)
  | bound + 1, t, s =>
    (n.referrersFrom table t).foldlM
      (fun s r => do
        let s ← step s r
        (n.fedOutputs r).foldlM (fun s t => visit table step bound t s) s)
      s

/-- A bound on the length of the paths, an input at the start included. -/
def pathBound : Nat :=
  n.outputIds.length + 1

/-- The typing of an input after one more referrer. The outputs are kept last first. -/
def addReferrer (input : InputId) (t : InputTyping) : Referrer → Except Fault InputTyping
  | .blockOutput o => .ok { t with pipelineOutputs := o :: t.pipelineOutputs }
  | .slot id => do
    let s ← require .outOfRange (n.slot? id)
    match n.types.merge t.type s.type with
    | .ok type => return { t with type }
    | .error e =>
      reject
        (.inconsistentInput (n.targetName (.input input)) (n.types.describe s.type)
          (n.slotName id) e)
        (n.declarationLocation id.declaration)

/-- The typing of an attribute of an input. The referrers of targets are looked up in a
table. -/
def inferInput (table : List (Target × List Referrer)) (input : InputId) :
    Except Fault InputTyping := do
  let t ← n.visit table (n.addReferrer input) n.pathBound (.input input)
    ⟨ClassType.object, []⟩
  return { t with pipelineOutputs := t.pipelineOutputs.reverse }

/-- The typings of the attributes of all inputs, in order. -/
def inferInputs : Except Fault (List (InputId × InputTyping)) :=
  let table := n.referrerTable
  n.inputIds.mapM fun id => do
    let t ← n.inferInput table id
    return (id, t)

/-- The network with a typing of an input. -/
def setInput (m : Network) : InputId × InputTyping → Network
  | (id, t) => m.modifyInput id fun i =>
    { i with type := t.type, pipelineOutputs := t.pipelineOutputs }

/-- The network with these typings of the inputs. -/
def setInputs (ts : List (InputId × InputTyping)) : Network :=
  ts.foldl setInput n

end Network

end Blockwork
