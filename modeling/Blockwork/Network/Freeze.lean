import Blockwork.Network.Basic

/-!
# Freezing pipelines

When a value of known type reaches a pipeline attribute, a literal or an output that is no
pipeline itself, the attribute is frozen: its type is fixed, it feeds its outputs no longer,
the outputs record the type, and all other attributes that feed these outputs are frozen by
the same type.

The work still to be done is a list of tasks. A task cuts the links of one attribute or
output and turns each of them into a task, so that links and tasks run out together.
-/

namespace Blockwork

/-- A step of freezing: an attribute that is reached by the type, or an output that is fed
by a frozen attribute. -/
inductive FreezeTask
  | slot (param attr : Nat)
  | output (index : Nat)
deriving DecidableEq, Repr

namespace Declaration

/-- The number of links between attributes and outputs, each counted at both ends. -/
def linkCount (d : Declaration) : Nat :=
  (d.parameters.flatMap fun p => p.slots.flatMap Slot.feeds).length +
    (d.outputs.flatMap Output.fedBy).length

/-- The attribute frozen to a type, feeding nothing. -/
def freezeSlot (d : Declaration) (param attr : Nat) (type : ClassType) : Declaration :=
  d.modifySlot param attr fun s => { s with frozen := some type, feeds := [] }

/-- The output with one more type recorded, fed by nothing. -/
def recordResult (h : Hierarchy) (d : Declaration) (output : Nat) (type : ClassType) :
    Declaration :=
  d.modifyOutput output fun o => { o with result := some (h.widen o.result type), fedBy := [] }

theorem length_flatMap_modify {α β : Type} (w : α → List β) (f : α → α) :
    ∀ {l : List α} {i : Nat} {a : α}, l[i]? = some a →
      ((l.modify i f).flatMap w).length + (w a).length =
        (l.flatMap w).length + (w (f a)).length
  | b :: l, 0, a, h => by
    obtain rfl : b = a := by simpa using h
    simp only [List.modify_zero_cons, List.flatMap_cons, List.length_append]
    omega
  | b :: l, i + 1, a, h => by
    have := length_flatMap_modify w f (l := l) (i := i) (a := a) (by simpa using h)
    simp only [List.modify_succ_cons, List.flatMap_cons, List.length_append]
    omega

/-- Freezing an attribute takes away the links it has. -/
theorem linkCount_freezeSlot {d : Declaration} {param attr : Nat} {s : Slot}
    (h : d.slot? param attr = some s) (type : ClassType) :
    (d.freezeSlot param attr type).linkCount + s.feeds.length = d.linkCount := by
  unfold slot? at h
  obtain ⟨p, hp, hs⟩ := Option.bind_eq_some_iff.1 h
  have hslots := length_flatMap_modify Slot.feeds
    (fun s => { s with frozen := some type, feeds := [] }) hs
  have hparams := length_flatMap_modify (fun p : Parameter => p.slots.flatMap Slot.feeds)
    (fun p => { p with slots := p.slots.modify attr fun s =>
      { s with frozen := some type, feeds := [] } }) hp
  simp only [List.length_nil, Nat.add_zero] at hslots hparams
  simp only [linkCount, freezeSlot, modifySlot]
  omega

/-- Recording a type on an output takes away the links it has. -/
theorem linkCount_recordResult {d : Declaration} {output : Nat} {o : Output}
    (h : d.outputs[output]? = some o) (types : Hierarchy) (type : ClassType) :
    (d.recordResult types output type).linkCount + o.fedBy.length = d.linkCount := by
  have := length_flatMap_modify Output.fedBy
    (fun o => { o with result := some (types.widen o.result type), fedBy := [] }) h
  simp only [List.length_nil, Nat.add_zero] at this
  simp only [linkCount, recordResult, modifyOutput]
  omega

/-- The declaration after the tasks, with the type that reached it. An attribute that is
frozen to a narrower type already stays as it is. -/
def freeze (types : Hierarchy) (type : ClassType) (tasks : List FreezeTask) (d : Declaration) :
    Except Fault Declaration :=
  match tasks with
  | [] => .ok d
  | .slot param attr :: rest =>
    match _hs : d.slot? param attr with
    | none => .error (.breach .outOfRange)
    | some s =>
      if s.frozen.any fun t => types.assignable type t then freeze types type rest d
      else
        match types.merge type s.type with
        | .error e =>
          reject (.pipelineConflict (d.slotName param attr) (types.describe s.type)
            (types.describe type) e) d.location
        | .ok merged =>
          freeze types type (s.feeds.map .output ++ rest) (d.freezeSlot param attr merged)
  | .output index :: rest =>
    match ho : d.outputs[index]? with
    | none => .error (.breach .outOfRange)
    | some o =>
      freeze types type (o.fedBy.map (fun (param, attr) => .slot param attr) ++ rest)
        (d.recordResult types index type)
termination_by 2 * d.linkCount + tasks.length
decreasing_by
  · simp only [List.length_cons]
    omega
  · have := linkCount_freezeSlot _hs merged
    simp only [List.length_append, List.length_map, List.length_cons]
    omega
  · have := linkCount_recordResult ho types type
    simp only [List.length_append, List.length_map, List.length_cons, List.length_attach]
    omega

end Declaration

namespace Network

variable (n : Network)

/-- The type that freezes a pipeline attribute, if what it holds has a known type. -/
def freezingType? (s : Slot) : Except Fault (Option ClassType) :=
  match s.binding with
  | .literal v => .ok (some (n.types.literalType v))
  | .reference (.output id) => do
    let o ← require .outOfRange (n.output? id)
    return if o.isPipeline then none else some o.type
  | _ => .ok none

/-- The network with the attribute at a position frozen, if it is a pipeline that holds
something of known type. -/
def freezeAt (id : SlotId) : Except Fault Network := do
  let s ← require .outOfRange (n.slot? id)
  if s.feeds.isEmpty then return n
  match ← n.freezingType? s with
  | none => return n
  | some type =>
    let d ← require .outOfRange (n.declaration? id.declaration)
    let d ← d.freeze n.types type [.slot id.param id.attr]
    return n.modifyDeclaration id.declaration fun _ => d

/-- The network with all pipelines frozen that hold something of known type, in the order of
execution. -/
def freezePipelines : Except Fault Network :=
  n.slotIds.foldlM freezeAt n

end Network

end Blockwork
