import Blockwork.Assembly
import Blockwork.Summary

/-!
# Libraries

A library holds the blocks of a bundle by name and compiles them on demand. Compiling a
block compiles the blocks it includes first. What came of it is kept: a block is compiled
once at most, and one that failed stays failed.

While a block is being compiled it is marked as running, and its name is on the stack of the
running blocks. A running block that is asked for includes itself, through the blocks above
it on the stack.
-/

namespace Blockwork

/-- What came of a block so far. -/
inductive Progress
  | unstarted (assembly : Assembly)
  | running
  | ready (plan : Plan)
  | failed (diagnostic : Diagnostic)
deriving DecidableEq

/-- A block of a library. -/
structure Entry where
  /-- Its name. -/
  name : String
  /-- Where it stands. -/
  location : Location
  /-- What came of it so far. -/
  progress : Progress
deriving DecidableEq

/-- Blocks by name, with the types and components they may use. -/
structure Library where
  /-- The types and components. -/
  catalog : Catalog
  /-- The blocks, of different names. -/
  entries : List Entry
  /-- The names of the blocks being compiled, outermost first. -/
  running : List String
deriving DecidableEq

/-- Whether the block is still to be compiled. -/
def Entry.isUnstarted (e : Entry) : Bool :=
  match e.progress with
  | .unstarted _ => true
  | _ => false

namespace Library

/-- A library without blocks. -/
def ofCatalog (c : Catalog) : Library :=
  ⟨c, [], []⟩

/-- The block of a name. -/
def find? (l : Library) (name : String) : Option Entry :=
  l.entries.find? fun e => e.name == name

/-- What came of the block of a name so far. -/
def progress? (l : Library) (name : String) : Option Progress :=
  (l.find? name).map Entry.progress

/-- The library with the progress of a block set. -/
def setProgress (l : Library) (name : String) (p : Progress) : Library :=
  { l with entries := l.entries.map fun e => if e.name = name then { e with progress := p } else e }

/-- The names of the blocks, sorted. -/
def names (l : Library) : List String :=
  (l.entries.map Entry.name).mergeSort fun a b => decide (a ≤ b)

/-- Add a block under a new name. -/
def addDraft (b : BlockDraft) : Method Library Diagnostic Unit := do
  let l ← get
  if (l.find? b.name).isSome then throw ((Cause.blockTwice b.name).report b.location)
  let a ← (Assembly.ofDraft b : Except Diagnostic Assembly)
  modify fun l => { l with entries := l.entries ++ [⟨b.name, b.location, .unstarted a⟩] }

/-! ## Compiling on demand -/

/-- The library with a block marked as running. -/
def start (l : Library) (name : String) : Library :=
  { l.setProgress name .running with running := l.running ++ [name] }

/-- What came of a block, if its result is to be kept. -/
def progressOf : Except Fault Plan → Option Progress
  | .ok p => some (.ready p)
  | .error (.rejected d) => some (.failed d)
  | .error (.breach _) => none

/-- The library after a running block has come to a result. -/
def finish (l : Library) (name : String) (result : Except Fault Plan) : Library :=
  let l := { l with running := l.running.dropLast }
  match progressOf result with
  | some p => l.setProgress name p
  | none => l

/-- The report of a block that includes itself through the running blocks. It stands where
the last of them stands. -/
def cycleReport (l : Library) (name : String) : Diagnostic :=
  let members := l.running.dropWhile (· != name)
  let location := ((l.running.getLast?.bind l.find?).map Entry.location).getD .unknown
  (Cause.cyclicInclusion members).report location

/-- The plan of a block, if there is one of the name. The number bounds how many blocks may
be started inside each other. -/
def planWithin : Nat → String → Resolving Library (Option Plan)
  | bound, name => do
    let l ← get
    match l.progress? name with
    | none => return none
    | some (.ready p) => return some p
    | some (.failed d) => throw (.rejected d)
    | some .running => throw (.rejected (l.cycleReport name))
    | some (.unstarted a) =>
      match bound with
      | 0 => throw (.breach .endlessInclusion)
      | bound + 1 =>
        let resolver : Resolver Library :=
          { types := l.catalog.types
            component? := l.catalog.get?
            block? := fun name => do
              let p ← planWithin bound name
              return p.map Plan.specification }
        set (l.start name)
        let (result, _) ← a.compile resolver
        modify fun l => l.finish name result
        let p ← (result : Except Fault Plan)
        return some p

/-- The number of blocks still to be compiled. -/
def unstarted (l : Library) : Nat :=
  l.entries.countP Entry.isUnstarted

/-- The plan of a block, if there is one of the name. No more blocks can be started inside
each other than are still to be compiled. -/
def plan? (name : String) : Resolving Library (Option Plan) := do
  let l ← get
  planWithin l.unstarted name

/-- The plan of the block of a name. -/
def load (name : String) : Resolving Library Plan := do
  match ← plan? name with
  | some p => return p
  | none => throw (.rejected ((Cause.unknownBlock name).report .unknown))

/-- What blocks compiled with the library can use. -/
def resolver (l : Library) : Resolver Library where
  types := l.catalog.types
  component? := l.catalog.get?
  block? name := do
    let p ← plan? name
    return p.map Plan.specification

/-! ## Bundles -/

/-- Call a method in turn. The answer is the reports of the calls that failed. -/
def collect (call : α → Method σ Diagnostic β) : List α → StateM σ (List Diagnostic)
  | [] => return []
  | a :: as => do
    let answer ← (call a).run
    let ds ← collect call as
    return match answer with
      | .ok _ => ds
      | .error d => d :: ds

/-- The library of a bundle. All components and blocks that are rejected are reported, but
only the first type. -/
def ofBundle (b : Bundle) : Except (List Diagnostic) Library :=
  match Catalog.ofTypeDrafts b.types with
  | .error d => .error [d]
  | .ok catalog =>
    let (componentErrors, catalog) := (collect Catalog.register b.components).run catalog
    let (blockErrors, l) := (collect addDraft b.blocks).run (ofCatalog catalog)
    match componentErrors ++ blockErrors with
    | [] => .ok l
    | ds => .error ds

/-- The names of the blocks of a bundle, each once. -/
def blockNames (b : Bundle) : List String :=
  b.blocks.foldl (fun names d => if names.contains d.name then names else names ++ [d.name]) []

/-- The results of loading blocks in turn. -/
def loadAll : List String → StateM Library (List (Except Fault Plan))
  | [] => return []
  | name :: names => do
    let result ← (load name).run
    let rest ← loadAll names
    return result :: rest

/-- The plans among the results. -/
def plansOf (results : List (Except Fault Plan)) : List Plan :=
  results.filterMap Except.toOption

/-- The faults among the results, without those whose text occurs before. -/
def faultsOf : (seen : List String) → List (Except Fault Plan) → List Fault
  | _, [] => []
  | seen, .ok _ :: rest => faultsOf seen rest
  | seen, .error f :: rest =>
    if seen.contains f.text then faultsOf seen rest else f :: faultsOf (f.text :: seen) rest

/-- The summaries of all blocks of a bundle, or the faults of all that cannot be compiled. -/
def compileBundle (b : Bundle) : Except (List Fault) (List BlockSummary) :=
  match ofBundle b with
  | .error ds => .error (ds.map .rejected)
  | .ok l =>
    let results := ((loadAll (blockNames b)).run l).1
    match faultsOf [] results with
    | [] => .ok ((plansOf results).map Plan.summary)
    | faults => .error faults

end Library

end Blockwork
