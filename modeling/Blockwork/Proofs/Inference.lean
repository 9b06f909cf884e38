import Blockwork.Proofs.InputTypes
import Blockwork.Proofs.Occurrence
import Blockwork.Proofs.Provision

/-!
# Inferred types

Inferring gives the inputs and outputs of a prepared network their types and leaves all else as it
is. The result is `Typed`: the type of an input is the widest one that all it flows to hold, and
the type of an output is what its target provides.
-/

namespace Blockwork

namespace Network

variable {n m f u : Network}

/-- The inputs have the types that all they flow to asks for, and list the outputs of the block they
flow to. -/
structure InputsTyped (n : Network) : Prop extends n.Prepared where
  inputs : ∀ id i, n.input? id = some i → n.types.IsMeet (n.Requires id) i.type
  lists : ∀ id i, n.input? id = some i →
    ∀ o, o ∈ i.pipelineOutputs ↔ ∃ t, n.wired? o = some t ∧ n.Carries id t

/-- And the outputs have the types that their targets provide. -/
structure Typed (n : Network) : Prop extends n.InputsTyped where
  outputs_typed : ∀ b ∈ n.outputs, ∀ t, b.target = some t →
    ∃ type, b.type = some type ∧ n.Provides t type

theorem InputsTyped.reduced (hn : n.InputsTyped) : n.InputsReduced :=
  fun id i hi => (hn.inputs id i hi).reduced

/-! ## Setting what is found -/

theorem input?_setMultiplicities {ms : List Multiplicity} (hlength : ms.length = n.params.length) :
    (n.setMultiplicities ms).input? = n.input? := by
  funext id
  unfold input? setMultiplicities
  simp only [List.getElem?_zipWith]
  cases hp : n.params[id.param]? with
  | none => rfl
  | some p =>
    have hlt : id.param < ms.length := hlength ▸ (List.getElem?_eq_some_iff.1 hp).1
    rw [List.getElem?_eq_getElem hlt]
    rfl

theorem wired?_setOutputTypes {ts : List ClassType} (hlength : ts.length = n.outputs.length) :
    (n.setOutputTypes ts).wired? = n.wired? := by
  funext o
  unfold wired? setOutputTypes
  simp only [List.getElem?_zipWith]
  cases hb : n.outputs[o]? with
  | none => rfl
  | some b =>
    have hlt : o < ts.length := hlength ▸ (List.getElem?_eq_some_iff.1 hb).1
    rw [List.getElem?_eq_getElem hlt]
    rfl

/-- What a target provides depends on the declarations and on the types of the inputs. -/
theorem Provides.congr (htypes : m.types = n.types) (hdecls : m.declarations = n.declarations)
    (hinputs : ∀ id, m.targetType? (.input id) = n.targetType? (.input id)) {t : Target}
    {type : ClassType} (h : n.Provides t type) : m.Provides t type := by
  have hout := output?_congr hdecls
  cases h with
  | flowing ht htype =>
    refine .flowing (ht.congr hout) ?_
    rw [htypes]
    refine htype.congr fun u => ?_
    simp only [supplies_iff_targetType?, hinputs, carries_congr hdecls]
  | fixed ho hnil => exact .fixed (hout.symm ▸ ho) hnil

/-! ## Inferring -/

/-- What is found for the inputs depends on the wiring, which stays as it is. -/
theorem InputsTyped.congr (hn : n.InputsTyped) (htypes : m.types = n.types)
    (hdecls : m.declarations = n.declarations) (horder : m.order = n.order)
    (hparams : m.params = n.params) (hwired : m.wired? = n.wired?) : m.InputsTyped := by
  have hin := input?_congr hparams
  refine ⟨hn.toPrepared.congr htypes hdecls horder fun id => by rw [hin], ?_, ?_⟩
  · rw [htypes, hin, requires_congr hdecls]
    exact hn.inputs
  · rw [hin, hwired, carries_congr hdecls]
    exact hn.lists

/-- Setting the typings that are found. -/
theorem Prepared.inputsTyped (hn : n.Prepared) {ts : List (InputId × InputTyping)}
    (h : n.inferInputs = .ok ts) : (n.setInputs ts).InputsTyped := by
  have hdecls : (n.setInputs ts).declarations = n.declarations :=
    (congrArg Network.declarations (setInputs_eq n ts) :)
  have htypes : (n.setInputs ts).types = n.types :=
    (congrArg Network.types (setInputs_eq n ts) :)
  have hwired : (n.setInputs ts).wired? = n.wired? := by
    rw [setInputs_eq]
    rfl
  refine ⟨hn.congr htypes hdecls (congrArg Network.order (setInputs_eq n ts) :)
    fun _ => input?_setInputs_eq_none, fun id i hi => ?_, fun id i hi o => ?_⟩
  · rw [htypes, requires_congr hdecls]
    exact (input?_inferInputs hn h hi).1
  · have hcount := (input?_inferInputs hn h hi).2 o
    rw [← List.count_pos_iff, hwired, carries_congr hdecls, Nat.pos_iff_ne_zero, ne_eq,
      ← Nat.cast_eq_zero (R := ℕ∞), ← hcount, Set.encard_eq_zero, ← ne_eq,
      ← Set.nonempty_iff_ne_empty]
    constructor
    · rintro ⟨path, t, ht, hpath⟩
      exact ⟨t, ht, path, hpath⟩
    · rintro ⟨t, ht, path, hpath⟩
      exact ⟨path, t, ht, hpath⟩

/-- Setting the types of the outputs that are found. -/
theorem InputsTyped.typed (hn : n.InputsTyped) {os : List ClassType}
    (h : n.inferOutputTypes = .ok os) : (n.setOutputTypes os).Typed := by
  have hlength : os.length = n.outputs.length := by
    have := congrArg List.length (mapM_eq_ok.1 h)
    simpa using this.symm
  refine ⟨hn.congr rfl rfl rfl rfl (wired?_setOutputTypes hlength), fun b hb t ht => ?_⟩
  obtain ⟨o, hb⟩ := List.getElem?_of_mem hb
  obtain ⟨b₀, type, hb₀, htype, rfl⟩ := getElem?_setOutputTypes hb
  obtain ⟨b₁, hb₁, hinfer⟩ := getElem?_of_mapM_eq_ok h htype
  obtain rfl := Option.some.inj (hb₀.symm.trans hb₁)
  unfold inferOutputType at hinfer
  rw [show b₀.target = some t from ht] at hinfer
  have hprovides := provides_providedWithin hn.toPrepared hn.reduced hinfer
  exact ⟨type, rfl,
    .congr (n := n) (m := n.setOutputTypes os) rfl rfl (fun _ => rfl) hprovides⟩

/-- Inferring types the inputs and outputs of a prepared network. -/
theorem Prepared.typed (hf : f.Prepared) (h : f.infer = .ok u) : u.Typed := by
  obtain ⟨ms, ts, os, hms, hts, hos, rfl⟩ := infer_eq_ok.1 h
  have hinput := input?_setMultiplicities (length_inferMultiplicities hms)
  have hprepared : (f.setMultiplicities ms).Prepared :=
    hf.congr rfl rfl rfl fun id => by rw [hinput]
  exact (hprepared.inputsTyped hts).typed hos

end Network

end Blockwork
