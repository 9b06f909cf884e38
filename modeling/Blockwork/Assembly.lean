import Blockwork.Plan

/-!
# Assembling a block

An assembly is a block draft that grows part by part while it is open. A part is accepted
unless its name is taken. Compiling it closes it for good, whether it succeeds or not; a
closed assembly can neither be changed nor compiled.
-/

namespace Blockwork

/-! ## Accepting parts -/

namespace BlockDraft

/-- Rejects a part of a block. -/
def rejectPart (b : BlockDraft) (line : Option UInt32) (c : Cause) : Except Diagnostic α :=
  .error (c.report (b.location.atLine line))

/-- The first name that occurs before in the list or in `seen`. -/
def repeated? (seen : List String) : List String → Option String
  | [] => none
  | s :: ss => if seen.contains s then some s else repeated? (s :: seen) ss

/-- The name of the input is new, and its attributes are of different names. -/
def checkParam (b : BlockDraft) (p : BlockParamDraft) : Except Diagnostic Unit :=
  if b.params.any fun q => q.name == p.name then b.rejectPart none (.inputTwice b.name p.name)
  else
    match repeated? [] (p.attributes.map BlockAttrDraft.name) with
    | some attr => b.rejectPart none (.inputAttributeTwice p.name attr)
    | none => .ok ()

/-- The name of the declaration is new. -/
def checkDeclaration (b : BlockDraft) (d : DeclarationDraft) : Except Diagnostic Unit :=
  if b.declarations.any fun e => e.name == d.name then
    b.rejectPart d.line (.declarationTwice b.name d.name)
  else .ok ()

/-- The name of the output is new. -/
def checkOutput (b : BlockDraft) (o : OutputDraft) : Except Diagnostic Unit :=
  if b.outputs.any fun p => p.name == o.name then
    b.rejectPart none (.outputTwice b.name o.name)
  else .ok ()

/-- The block with one more input, if that is accepted. -/
def acceptParam (b : BlockDraft) (p : BlockParamDraft) : Except Diagnostic BlockDraft := do
  b.checkParam p
  return b.addParam p

/-- The block with one more declaration, if that is accepted. -/
def acceptDeclaration (b : BlockDraft) (d : DeclarationDraft) : Except Diagnostic BlockDraft := do
  b.checkDeclaration d
  return b.addDeclaration d

/-- The block with one more output, if that is accepted. -/
def acceptOutput (b : BlockDraft) (o : OutputDraft) : Except Diagnostic BlockDraft := do
  b.checkOutput o
  return b.addOutput o

/-- The block with its parts accepted one by one. -/
def acceptAll (b : BlockDraft) : Except Diagnostic BlockDraft := do
  let empty : BlockDraft := { b with params := [], declarations := [], outputs := [] }
  let withParams ← b.params.foldlM acceptParam empty
  let withDeclarations ← b.declarations.foldlM acceptDeclaration withParams
  b.outputs.foldlM acceptOutput withDeclarations

end BlockDraft

/-! ## Assemblies -/

/-- How far an assembly has come. -/
inductive AssemblyState
  /-- Parts may be added. -/
  | growing
  /-- It is being compiled. -/
  | compiling
  /-- It was compiled. -/
  | compiled
  /-- It could not be compiled. -/
  | failed
deriving DecidableEq, Repr

/-- A block being assembled. -/
structure Assembly where
  /-- The parts accepted so far. -/
  draft : BlockDraft
  /-- How far it has come. -/
  state : AssemblyState
deriving DecidableEq

namespace Assembly

/-- An open assembly without parts. -/
def new (name : String) : Assembly :=
  ⟨BlockDraft.new name, .growing⟩

/-- An open assembly with the parts of a draft. -/
def ofDraft (b : BlockDraft) : Except Diagnostic Assembly :=
  b.acceptAll.map fun b => ⟨b, .growing⟩

/-- The name of the block. -/
def name (a : Assembly) : String :=
  a.draft.name

/-- Change the draft of an open assembly, after a check of it. -/
def change (check : BlockDraft → Except Diagnostic Unit) (add : BlockDraft → BlockDraft) :
    Method Assembly Fault Unit := do
  let a ← get
  if a.state ≠ .growing then throw (.breach (.sealedBlock a.name))
  ((check a.draft).mapError .rejected : Except Fault Unit)
  modify fun a => { a with draft := add a.draft }

/-- Add an input. -/
def addParam (p : BlockParamDraft) : Method Assembly Fault Unit :=
  change (fun b => b.checkParam p) fun b => b.addParam p

/-- Add a declaration. -/
def addDeclaration (d : DeclarationDraft) : Method Assembly Fault Unit :=
  change (fun b => b.checkDeclaration d) fun b => b.addDeclaration d

/-- Add an output. -/
def addOutput (o : OutputDraft) : Method Assembly Fault Unit :=
  change (fun b => b.checkOutput o) fun b => b.addOutput o

/-- The state after compiling with a result. -/
def stateAfter : Except Fault Plan → AssemblyState
  | .ok _ => .compiled
  | .error _ => .failed

/-- The plan of an open assembly, and the assembly closed. -/
def compile (r : Resolver σ) (a : Assembly) : StateM σ (Except Fault Plan × Assembly) := do
  if a.state = .growing then
    let result ← (a.draft.compile r).run
    return (result, { a with state := stateAfter result })
  else return (.error (.breach (.compiledAgain a.name)), a)

end Assembly

end Blockwork
