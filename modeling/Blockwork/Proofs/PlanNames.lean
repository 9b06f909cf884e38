import Blockwork.Proofs.PlanInterface
import Blockwork.Proofs.Resolution

/-!
# Names of plans

No stage of compilation renames an input or an output (`Network.names_complete`), so the interface
of a plan has the names of the draft and, before them, the parameter `condition`
(`BlockDraft.names_compile`).
-/

namespace Blockwork

/-- The names of the inputs, with those of their attributes. -/
def Network.inputNames (n : Network) : List (String × List String) :=
  n.params.map fun p => (p.name, p.attributes.map BlockInput.name)

/-- The names of the outputs. -/
def Network.outputNames (n : Network) : List String :=
  n.outputs.map BlockOutput.name

/-- The names of the inputs of a draft, with those of their attributes. -/
def BlockDraft.inputNames (b : BlockDraft) : List (String × List String) :=
  b.params.map fun p => (p.name, p.attributes.map BlockAttrDraft.name)

/-- The names of the parameters, with those of their attributes. -/
def Interface.parameterNames (i : Interface) : List (String × List String) :=
  i.parameters.map fun f => (f.name, f.attributes.map FormalAttribute.name)

namespace Network

variable {n m : Network}

theorem outputNames_resolveReferences (h : n.resolveReferences = .ok m) :
    m.outputNames = n.outputNames := by
  unfold resolveReferences at h
  obtain ⟨c, -, h⟩ := bind_eq_ok.1 h
  obtain ⟨outputs, houtputs, h⟩ := bind_eq_ok.1 h
  obtain rfl := pure_eq_ok.1 h
  refine map_eq_of_forall₂ (forall₂_of_mapM_eq_ok houtputs) fun o o' hbind => ?_
  unfold bindOutput at hbind
  split at hbind
  · exact (congrArg BlockOutput.name (Except.ok.inj hbind).symm :)
  · simp [reject] at hbind

theorem inputNames_setMultiplicities {ms : List Multiplicity} (h : ms.length = n.params.length) :
    (n.setMultiplicities ms).inputNames = n.inputNames := by
  unfold inputNames setMultiplicities
  rw [List.map_zipWith]
  exact zipWith_eq_map (g := fun p : BlockParameter => (p.name, p.attributes.map BlockInput.name)) h

theorem outputNames_setOutputTypes {ts : List ClassType} (h : ts.length = n.outputs.length) :
    (n.setOutputTypes ts).outputNames = n.outputNames := by
  unfold outputNames setOutputTypes
  rw [List.map_zipWith]
  exact zipWith_eq_map h

theorem inputNames_setInputs (n : Network) (ts : List (InputId × InputTyping)) :
    (n.setInputs ts).inputNames = n.inputNames := by
  unfold setInputs
  induction ts generalizing n with
  | nil => rfl
  | cons t ts ih =>
    rw [List.foldl_cons, ih]
    unfold inputNames setInput modifyInput
    refine map_modify_of_eq fun p _ => Prod.ext rfl ?_
    exact map_modify_of_eq fun _ _ => rfl

theorem bare_checkTypes (h : n.checkTypes = .ok m) : m.bare = n.bare :=
  foldlM_invariant (fun _ (c : Network) => c.bare = n.bare)
    (fun _ _ _ _ hc hok => (bare_checkAt hok).trans hc) rfl h

/-- Completing a network renames neither its inputs nor its outputs. -/
theorem names_complete (h : n.complete = .ok m) :
    m.inputNames = n.inputNames ∧ m.outputNames = n.outputNames := by
  obtain ⟨k⟩ := exists_compilation h
  have hchecked := bare_checkTypes k.check_eq
  have hfrozen := bare_freezePipelines k.freeze_eq
  have hexpanded : k.expanded.outputNames = n.outputNames := by
    obtain ⟨_, -, hexpand⟩ := bind_eq_ok.1 k.expand_eq
    exact (congrArg outputNames (pure_eq_ok.1 hexpand)).symm
  have hlength := congrArg List.length (mapM_eq_ok.1 k.outputs_eq)
  rw [List.length_map, List.length_map] at hlength
  constructor
  · calc m.inputNames
      _ = ((k.frozen.setMultiplicities k.multiplicities).setInputs k.typings).inputNames :=
        (congrArg inputNames hchecked :)
      _ = (k.frozen.setMultiplicities k.multiplicities).inputNames := inputNames_setInputs ..
      _ = k.frozen.inputNames :=
        inputNames_setMultiplicities (length_inferMultiplicities k.multiplicities_eq)
      _ = k.resolved.inputNames := (congrArg inputNames hfrozen :)
      _ = n.inputNames := by
        unfold inputNames
        rw [(targets_resolveReferences k.resolve_eq).1, params_expandStars k.expand_eq]
  · calc m.outputNames
      _ = _ := (congrArg outputNames hchecked :)
      _ = ((k.frozen.setMultiplicities k.multiplicities).setInputs k.typings).outputNames :=
        outputNames_setOutputTypes hlength.symm
      _ = k.frozen.outputNames := by rw [setInputs_eq]; rfl
      _ = k.resolved.outputNames := (congrArg outputNames hfrozen :)
      _ = n.outputNames := (outputNames_resolveReferences k.resolve_eq).trans hexpanded

/-- The interface has the parameter `condition` and one for each input. -/
theorem parameterNames_interface (n : Network) : n.interface.parameterNames =
    (Condition.parameterName, [Condition.valueName, Condition.invertName]) :: n.inputNames := by
  simp [Interface.parameterNames, interface, inputNames, Condition.formal, formalParameter,
    formalAttribute, Function.comp_def]

theorem outputNames_interface (n : Network) :
    n.interface.outputs.map FormalOutput.name = n.outputNames := by
  simp [interface, outputNames, formalOutput, Function.comp_def]

end Network

/-! ## Linking and completing -/

namespace BlockDraft

variable {σ : Type} {r : Resolver σ} {b : BlockDraft} {s : σ} {p : Plan}

/-- A network that is linked has the names of the draft. -/
theorem ensures_names (r : Resolver σ) (b : BlockDraft) :
    Ensures (fun _ => True) (b.link r) fun n =>
      n.inputNames = b.inputNames ∧ n.outputNames = b.outputs.map OutputDraft.name :=
  Ensures.trivial.bind fun _ _ => .pure <| by
    simp [Network.inputNames, Network.outputNames, inputNames, linkParams, linkOutputs,
      Function.comp_def]

/-- The interface of a plan has the parameter `condition`, and the names of the draft. -/
theorem names_compile (h : ((b.compile r).run.run s).1 = .ok p) :
    p.interface.parameterNames =
      (Condition.parameterName, [Condition.valueName, Condition.invertName]) :: b.inputNames ∧
      p.interface.outputs.map FormalOutput.name = b.outputs.map OutputDraft.name := by
  obtain ⟨n, m, ⟨hin, hout⟩, hcomplete, rfl⟩ :=
    (ensures_compile (b.ensures_names r) s trivial).2 p h
  obtain ⟨hin', hout'⟩ := Network.names_complete hcomplete
  show m.interface.parameterNames = _ ∧ m.interface.outputs.map FormalOutput.name = _
  rw [m.parameterNames_interface, m.outputNames_interface, hin', hin, hout', hout]
  exact ⟨rfl, rfl⟩

end BlockDraft

end Blockwork
