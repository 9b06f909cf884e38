import Blockwork.Network.Check
import Blockwork.Network.Dependency
import Blockwork.Network.Freeze
import Blockwork.Network.Link
import Blockwork.Network.Occurrence
import Blockwork.Network.Provision
import Blockwork.Network.Reference
import Blockwork.Network.Star

/-!
# Plans

A plan is a compiled block: its network, which nothing changes any more, and the interface
it offers to declarations in other blocks. `Network.complete` runs the stages of compilation
after linking, each of which relies on the ones before it.
-/

namespace Blockwork

/-- A compiled block. -/
structure Plan where
  /-- The network, completed. -/
  network : Network
  /-- What other blocks may supply to it and what it produces. -/
  interface : Interface
deriving DecidableEq

namespace Network

/-- The formal attribute of an attribute of an input. It names each output once, in order. -/
def formalAttribute (i : BlockInput) : FormalAttribute :=
  ⟨i.name, i.type, none, ascending i.pipelineOutputs, i.doc⟩

/-- The formal parameter of an input. -/
def formalParameter (p : BlockParameter) : FormalParameter :=
  ⟨p.name, p.multiplicity, p.attributes.map formalAttribute, false, p.doc⟩

/-- The formal output of an output. -/
def formalOutput (o : BlockOutput) : FormalOutput :=
  ⟨o.name, o.type.getD ClassType.object, o.doc⟩

/-- The interface of the block. -/
def interface (n : Network) : Interface where
  parameters := Condition.formal n.types :: n.params.map formalParameter
  outputs := n.outputs.map formalOutput

/-- The network with its execution order. -/
def setOrder (n : Network) (order : List Nat) : Network :=
  { n with order }

/-- The network after all stages that follow linking: star references, references,
execution order, freezing, multiplicities, types of inputs and outputs, and the check of
types. -/
def complete (n : Network) : Except Fault Network := do
  let n ← n.expandStars
  let n ← n.resolveReferences
  let n := n.setOrder (← n.sort)
  let n ← n.freezePipelines
  let n := n.setMultiplicities (← n.inferMultiplicities)
  let n := n.setInputs (← n.inferInputs)
  let n := n.setOutputTypes (← n.inferOutputTypes)
  n.checkTypes

/-- The plan of a completed network. -/
def plan (n : Network) : Plan :=
  ⟨n, n.interface⟩

end Network

namespace Plan

/-- The name of the block. -/
def name (p : Plan) : String :=
  p.network.name

/-- The plan as something declarations can use. -/
def specification (p : Plan) : Specification :=
  ⟨p.name, true, p.interface⟩

/-- The declarations in the order of execution. -/
def declarations (p : Plan) : List Declaration :=
  p.network.order.filterMap p.network.declaration?

/-- The input of a name. -/
def param? (p : Plan) (name : String) : Option BlockParameter :=
  p.network.params.find? fun q => q.name == name

/-- The output of a name. -/
def output? (p : Plan) (name : String) : Option BlockOutput :=
  p.network.outputs.find? fun o => o.name == name

end Plan

/-- The plan of a block. -/
def BlockDraft.compile (r : Resolver σ) (b : BlockDraft) : Resolving σ Plan := do
  let n ← b.link r
  let n ← n.complete
  return n.plan

end Blockwork
