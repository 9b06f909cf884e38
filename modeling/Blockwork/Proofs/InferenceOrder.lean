import Blockwork.Proofs.AnyOrder
import Blockwork.Proofs.Inference
import Blockwork.Proofs.PathBound
import Blockwork.Proofs.Resolution
import Mathlib.Data.List.Forall2

/-!
# Inference in any order

What is inferred for a prepared network is described by its wiring: how often inputs may occur, the
widest types that hold for them, the paths to the outputs of the block, and the types that targets
provide. So it is the same in every forward order. Only the outputs that an input lists may come in
another order (`SameTyping`).
-/

namespace Blockwork

/-- The same typing of the same input, but for the order in which outputs are listed. -/
structure SameTyping (x y : InputId × InputTyping) : Prop where
  input : x.1 = y.1
  type : x.2.type = y.2.type
  outputs : x.2.pipelineOutputs.Perm y.2.pipelineOutputs

namespace Network

variable {n m : Network} {order : List Nat}

/-! ## Multiplicities -/

theorem Resolved.setOrder (hn : n.Resolved) (horder : order.Perm n.positions) :
    (n.setOrder order).Resolved :=
  ⟨horder, hn.slots, hn.outputs⟩

/-- Multiplicities are narrowed to the admitted counts in any order. If there are too many
occurrences to be counted, none are found in any order. -/
theorem Resolved.inferMultiplicities_setOrder (hn : n.Resolved)
    (hany : ∀ p ∈ n.params, p.multiplicity = .any) (horder : order.Perm n.positions) :
    (n.setOrder order).inferMultiplicities.toOption = n.inferMultiplicities.toOption := by
  have hn' := hn.setOrder horder
  by_cases hcounted : n.Counted
  · exact (narrows_inferMultiplicities hn' hany hcounted).toOption_eq
      (narrows_inferMultiplicities hn hany hcounted)
  · have hnone : ∀ ms, n.inferMultiplicities ≠ .ok ms := fun ms h =>
      hcounted (counted_of_inferMultiplicities hn h)
    have hnone' : ∀ ms, (n.setOrder order).inferMultiplicities ≠ .ok ms := fun ms h =>
      hcounted (show (n.setOrder order).Counted from counted_of_inferMultiplicities hn' h)
    rw [toOption_eq_none hnone, toOption_eq_none hnone']

/-! ## Inputs -/

/-- The typings of an input are the same in any order. -/
theorem Prepared.inferInput_setOrder (hn : n.Prepared) (hn' : (n.setOrder order).Prepared)
    {input : InputId} {t t' : InputTyping} (h : n.inferInput n.referrerTable input = .ok t)
    (h' : (n.setOrder order).inferInput (n.setOrder order).referrerTable input = .ok t') :
    t.type = t'.type ∧ t.pipelineOutputs.Perm t'.pipelineOutputs := by
  have hmeet' := inferInput_isMeet hn' h'
  rw [requires_congr (m := n.setOrder order) (n := n) rfl] at hmeet'
  refine ⟨(inferInput_isMeet hn h).unique hn.types hmeet', List.perm_iff_count.2 fun o => ?_⟩
  have hcount' := encard_delivers_inferInput hn' h' o
  unfold Delivers at hcount'
  rw [path_congr (m := n.setOrder order) (n := n) rfl] at hcount'
  exact Nat.cast_inj.1 ((encard_delivers_inferInput hn h o).symm.trans hcount')

theorem Prepared.inferInputs_setOrder (hn : n.Prepared) (hn' : (n.setOrder order).Prepared)
    {ts ts' : List (InputId × InputTyping)} (h : n.inferInputs = .ok ts)
    (h' : (n.setOrder order).inferInputs = .ok ts') : List.Forall₂ SameTyping ts ts' := by
  have hlength := congrArg List.length (mapM_eq_ok.1 h)
  have hlength' := congrArg List.length (mapM_eq_ok.1 h')
  rw [List.length_map, List.length_map] at hlength hlength'
  refine List.forall₂_iff_get.2 ⟨hlength.symm.trans hlength', fun i hi hi' => ?_⟩
  obtain ⟨input, hinput, hstep⟩ := getElem?_of_mapM_eq_ok h (List.getElem?_eq_getElem hi)
  obtain ⟨input', hinput', hstep'⟩ := getElem?_of_mapM_eq_ok h' (List.getElem?_eq_getElem hi')
  obtain rfl : input = input' := Option.some.inj (hinput.symm.trans hinput')
  obtain ⟨t, ht, hstep⟩ := bind_eq_ok.1 hstep
  obtain ⟨t', ht', hstep'⟩ := bind_eq_ok.1 hstep'
  obtain ⟨htype, houtputs⟩ := hn.inferInput_setOrder hn' ht ht'
  rw [List.get_eq_getElem, List.get_eq_getElem, ← pure_eq_ok.1 hstep, ← pure_eq_ok.1 hstep']
  exact ⟨rfl, htype, houtputs⟩

theorem targetType?_setInput (n : Network) (x : InputId × InputTyping) (id : InputId) :
    (n.setInput x).targetType? (.input id) =
      if x.1 = id then (n.targetType? (.input id)).map fun _ => x.2.type
      else n.targetType? (.input id) := by
  obtain ⟨input, t⟩ := x
  simp only [targetType?, input?_setInput]
  split
  · simp only [Option.map_map]
    rfl
  · rfl

/-- Inputs get the same types from the same typings. -/
theorem targetType?_setInputs {ts ts' : List (InputId × InputTyping)}
    (h : List.Forall₂ SameTyping ts ts') {n m : Network}
    (hinputs : ∀ id, m.targetType? (.input id) = n.targetType? (.input id)) (id : InputId) :
    (m.setInputs ts').targetType? (.input id) = (n.setInputs ts).targetType? (.input id) := by
  induction h generalizing n m with
  | nil => exact hinputs id
  | cons hxy _ ih =>
    refine ih fun id => ?_
    rw [targetType?_setInput, targetType?_setInput, hinputs, hxy.input, hxy.type]

/-! ## Outputs -/

theorem OutputsWired.congr (hn : n.OutputsWired) (houtputs : m.outputs = n.outputs)
    (hdecls : m.declarations = n.declarations)
    (hin : ∀ id, m.input? id = none ↔ n.input? id = none) : m.OutputsWired := by
  intro b hb t ht
  refine (hasTarget_congr (fun id => ?_) hin).2 (hn b (houtputs ▸ hb) t ht)
  rw [output?_congr hdecls]

theorem OutputsWired.setInputs (hn : n.OutputsWired) (ts : List (InputId × InputTyping)) :
    (n.setInputs ts).OutputsWired :=
  hn.congr (congrArg Network.outputs (setInputs_eq n ts) :)
    (congrArg Network.declarations (setInputs_eq n ts) :) fun _ => input?_setInputs_eq_none

/-- Types are found for all outputs of the block. -/
theorem Prepared.exists_inferOutputTypes (hn : n.Prepared) (hwired : n.OutputsWired) :
    ∃ os, n.inferOutputTypes = .ok os := by
  refine exists_mapM_eq_ok fun b hb => ?_
  unfold inferOutputType
  split
  · exact exists_providedType hn (hwired b hb _ ‹_›)
  · exact ⟨_, rfl⟩

/-- The types of the outputs of the block depend on the declarations and on the types of the
inputs. -/
theorem Prepared.inferOutputTypes_congr (hn : n.Prepared) (hm : m.Prepared)
    (hi : n.InputsReduced) (hi' : m.InputsReduced) (htypes : m.types = n.types)
    (hdecls : m.declarations = n.declarations) (houtputs : m.outputs = n.outputs)
    (hinputs : ∀ id, m.targetType? (.input id) = n.targetType? (.input id))
    {os os' : List ClassType} (h : n.inferOutputTypes = .ok os)
    (h' : m.inferOutputTypes = .ok os') : os' = os := by
  have hsame : ∀ b ∈ n.outputs, m.inferOutputType b = n.inferOutputType b := fun b hb => by
    obtain ⟨type, -, htype⟩ := exists_mem_of_mapM_eq_ok h hb
    obtain ⟨type', -, htype'⟩ := exists_mem_of_mapM_eq_ok h' (houtputs ▸ hb)
    rw [htype, htype']
    unfold inferOutputType at htype htype'
    cases ht : b.target with
    | none =>
      rw [ht] at htype htype'
      exact htype'.symm.trans htype
    | some t =>
      rw [ht] at htype htype'
      have hprovides := provides_providedWithin hn hi htype
      have hprovides' := provides_providedWithin hm hi' htype'
      exact congrArg _ (hprovides'.unique hm.types (hprovides.congr htypes hdecls hinputs))
  have hmap : os'.map Except.ok = os.map (Except.ok (ε := Fault)) := by
    rw [← mapM_eq_ok.1 h, ← mapM_eq_ok.1 h', houtputs]
    exact List.map_congr_left hsame
  exact List.map_injective_iff.2 (fun _ _ => Except.ok.inj) hmap

end Network

end Blockwork
