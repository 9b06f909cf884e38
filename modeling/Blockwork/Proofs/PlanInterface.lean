import Blockwork.Proofs.FinalTypes
import Blockwork.Proofs.Inference

/-!
# Interfaces of plans

The interface of a plan is sound like that of a component: the types of its inputs and outputs
are formed, and every output into which an input is a pipeline accepts what the input takes
(`Compilation.sound_interface`). So the blocks that include the block can rely on it.
-/

namespace Blockwork

/-- The attributes of all parameters. -/
def Interface.attributes (i : Interface) : List FormalAttribute :=
  i.parameters.flatMap FormalParameter.attributes

namespace Network

variable {n m : Network}

/-- The attributes of the interface are those of the condition and of the inputs. -/
theorem mem_attributes_interface {a : FormalAttribute} : a ∈ m.interface.attributes ↔
    a ∈ (Condition.formal m.types).attributes ∨
      ∃ id i, m.input? id = some i ∧ formalAttribute i = a := by
  unfold Interface.attributes interface
  rw [List.flatMap_cons, List.mem_append]
  refine or_congr_right ?_
  simp only [List.mem_flatMap, List.mem_map, exists_exists_and_eq_and, formalParameter]
  constructor
  · rintro ⟨p, hp, i, hi, rfl⟩
    obtain ⟨x, hx⟩ := List.getElem?_of_mem hp
    obtain ⟨y, hy⟩ := List.getElem?_of_mem hi
    exact ⟨⟨x, y⟩, i, Option.bind_eq_some_iff.2 ⟨p, hx, hy⟩, rfl⟩
  · rintro ⟨id, i, hi, rfl⟩
    obtain ⟨p, hp, hi⟩ := Option.bind_eq_some_iff.1 hi
    exact ⟨p, List.mem_of_getElem? hp, i, List.mem_of_getElem? hi, rfl⟩

/-! ## The completed network -/

namespace Compilation

variable (k : Compilation n m)

/-- The network that is checked has inferred types. -/
theorem typed (hn : n.WellLinked) : k.unchecked.Typed :=
  (k.prepared hn).typed
    (infer_eq_ok.2 ⟨_, _, _, k.multiplicities_eq, k.inputs_eq, k.outputs_eq, rfl⟩)

theorem input?_unchecked : k.unchecked.input? = m.input? :=
  input?_congr (congrArg Network.params k.bare_eq.symm :)

/-- The type of an output of the block is what its target provides. -/
theorem exists_provides (hn : n.WellLinked) {b : BlockOutput} (hb : b ∈ m.outputs) :
    ∃ t type, b.target = some t ∧ b.type = some type ∧ k.unchecked.Provides t type := by
  obtain ⟨t, ht⟩ := Option.isSome_iff_exists.1 (k.isSome_target_type hb).1
  obtain ⟨type, htype, hprovides⟩ :=
    (k.typed hn).outputs_typed b (k.outputs_eq_unchecked ▸ hb) t ht
  exact ⟨t, type, ht, htype, hprovides⟩

/-- The inputs that list an output of the block are those that flow to its target. -/
theorem lists_iff (k : Compilation n m) (hn : n.WellLinked) {o : Nat} {b : BlockOutput}
    (hb : m.outputs[o]? = some b) {t : Target} (ht : b.target = some t) {id : InputId}
    {i : BlockInput} (hi : m.input? id = some i) :
    o ∈ i.pipelineOutputs ↔ k.unchecked.Carries id t := by
  have hwired : k.unchecked.wired? o = some t := by
    unfold wired?
    rw [← k.outputs_eq_unchecked, hb]
    exact ht
  rw [(k.typed hn).lists id i (k.input?_unchecked ▸ hi) o, hwired]
  simp

/-- The outputs that an input lists are there. -/
theorem exists_listed (k : Compilation n m) (hn : n.WellLinked) {id : InputId} {i : BlockInput}
    (hi : m.input? id = some i) {o : Nat} (ho : o ∈ i.pipelineOutputs) :
    ∃ b, m.outputs[o]? = some b := by
  rw [(k.typed hn).lists id i (k.input?_unchecked ▸ hi) o, wired?, ← k.outputs_eq_unchecked] at ho
  obtain ⟨t, ht, -⟩ := ho
  obtain ⟨b, hb, -⟩ := Option.bind_eq_some_iff.1 ht
  exact ⟨b, hb⟩

/-- The interface of a plan is sound. -/
theorem sound_interface (k : Compilation n m) (hn : n.WellLinked) : m.interface.Sound m.types := by
  have htyped := k.typed hn
  refine ⟨fun q hq a ha => ?_, fun f hf => ?_⟩
  · rcases mem_attributes_interface.1 (List.mem_flatMap.2 ⟨q, hq, ha⟩) with ha | ⟨id, i, hi, rfl⟩
    · exact Condition.sound_formal (k.wellFormed hn) _ a ha
    have hinput : k.unchecked.input? id = some i := k.input?_unchecked ▸ hi
    refine ⟨k.types_unchecked ▸ (htyped.reduced id i hinput).toFormed, fun v hv => (nomatch hv),
      fun o ho => ?_, pairwise_ascending _⟩
    have hmem := mem_ascending.1 ho
    obtain ⟨b, hb⟩ := k.exists_listed hn hi hmem
    obtain ⟨t, type, ht, htype, hprovides⟩ := k.exists_provides hn (List.mem_of_getElem? hb)
    have hcarries := (k.lists_iff hn hb ht hi).1 hmem
    refine ⟨_, (List.getElem?_map ..).trans (congrArg (Option.map formalOutput) hb), ?_⟩
    unfold formalOutput
    rw [htype, ← k.types_unchecked]
    have hjoin := hprovides.isJoin (hprovides.isOpen_of_carries htyped.toPrepared hcarries)
    exact hjoin.holds _ ⟨id, i, hinput, hcarries, rfl⟩
  · obtain ⟨b, hb, rfl⟩ := List.mem_map.1 hf
    obtain ⟨t, type, -, htype, hprovides⟩ := k.exists_provides hn hb
    unfold formalOutput
    rw [htype, ← k.types_unchecked]
    exact hprovides.formed htyped.toPrepared

end Compilation

end Network

end Blockwork
