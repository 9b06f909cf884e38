import Blockwork.Proofs.Positions

/-!
# Types that are there

A type names its class and its interfaces by their positions in a hierarchy. Merging and widening
lead from formed types to formed ones, so all networks that the completion of a linked one goes
through are made of formed types (`Untouched.typesFormed_passes`).
-/

namespace Blockwork

theorem Hierarchy.WellFormed.lt_of_formed {h : Hierarchy} (hw : h.WellFormed) {t : ClassType}
    (ht : h.Formed t) : t.base < h.defs.length ∧ ∀ i ∈ t.interfaces, i < h.defs.length := by
  refine ⟨?_, fun i hi => lt_of_isInterface (ht.interfaces i hi)⟩
  by_contra hge
  -- A class that is not there is its own only superclass.
  have hself : h.lineage t.base = [t.base] := lineage_of_not_lt hge
  have hbase := ht.base
  rw [hself, List.mem_singleton] at hbase
  exact hge (hbase ▸ hw.object_class.1)

/-- The types of the attribute are formed. -/
structure Slot.TypesFormed (h : Hierarchy) (s : Slot) : Prop where
  declared : h.Formed s.declared
  frozen : ∀ t, s.frozen = some t → h.Formed t

/-- The types of the output are formed. -/
structure Output.TypesFormed (h : Hierarchy) (o : Output) : Prop where
  declared : h.Formed o.declared
  result : ∀ t, o.result = some t → h.Formed t

/-- The types of all attributes and outputs are formed. -/
structure Declaration.TypesFormed (h : Hierarchy) (d : Declaration) : Prop where
  slots : ∀ p a s, d.slot? p a = some s → s.TypesFormed h
  outputs : ∀ (k : Nat) (o : Output), d.outputs[k]? = some o → o.TypesFormed h

/-- The types in the network are formed, in a hierarchy that is well-formed. -/
structure Network.TypesFormed (n : Network) : Prop where
  hierarchy : n.types.WellFormed
  declarations : ∀ i d, n.declaration? i = some d → d.TypesFormed n.types
  inputs : ∀ id i, n.input? id = some i → n.types.Formed i.type
  outputs : ∀ b ∈ n.outputs, ∀ t, b.type = some t → n.types.Formed t

theorem Slot.TypesFormed.type {h : Hierarchy} {s : Slot} (hs : s.TypesFormed h) :
    h.Formed s.type := by
  unfold Slot.type
  cases ht : s.frozen with
  | none => exact hs.declared
  | some t => exact hs.frozen t ht

theorem Output.TypesFormed.type {h : Hierarchy} {o : Output} (ho : o.TypesFormed h) :
    h.Formed o.type := by
  unfold Output.type
  cases ht : o.result with
  | none => exact ho.declared
  | some t => exact ho.result t ht

/-! ## Declarations -/

namespace Declaration

variable {h : Hierarchy} {type : ClassType} {d d' : Declaration}

/-- Fresh declarations have the types of an interface. -/
theorem Fresh.typesFormed (hd : d.Fresh h) : d.TypesFormed h where
  slots p a s hs := by
    obtain ⟨_, _, _, -, -, -, hfresh, hsound⟩ := hd.slot hs
    exact ⟨hfresh.declared ▸ hsound.formed, fun t ht => nomatch hfresh.frozen.symm.trans ht⟩
  outputs k o ho :=
    ⟨hd.formed_declared ho, fun t ht => nomatch (hd.outputs k o ho).result.symm.trans ht⟩

theorem TypesFormed.freezeSlot (hd : d.TypesFormed h) (p a : Nat) (ht : h.Formed type) :
    (d.freezeSlot p a type).TypesFormed h where
  slots p' a' s' hs' := by
    unfold Declaration.freezeSlot at hs'
    rw [slot?_modifySlot] at hs'
    split at hs'
    · obtain ⟨s, hs, rfl⟩ := Option.map_eq_some_iff.1 hs'
      exact ⟨(hd.slots p' a' s hs).declared, fun t ht' => Option.some.inj ht' ▸ ht⟩
    · exact hd.slots p' a' s' hs'
  outputs := hd.outputs

theorem TypesFormed.recordResult (hw : h.WellFormed) (hd : d.TypesFormed h) (k : Nat)
    (ht : h.Formed type) : (d.recordResult h k type).TypesFormed h where
  slots := hd.slots
  outputs k' o' ho' := by
    unfold Declaration.recordResult at ho'
    rw [outputs_modifyOutput] at ho'
    split at ho'
    · obtain ⟨o, ho, rfl⟩ := Option.map_eq_some_iff.1 ho'
      have hformed := hd.outputs k' o ho
      exact ⟨hformed.declared, fun t ht' =>
        Option.some.inj ht' ▸ hw.formed_widen hformed.result ht⟩
    · exact hd.outputs k' o' ho'

theorem TypesFormed.freeze (hw : h.WellFormed) (hd : d.TypesFormed h) (ht : h.Formed type)
    {tasks : List FreezeTask} (hok : d.freeze h type tasks = .ok d') : d'.TypesFormed h :=
  freeze_invariant (fun _ e => e.TypesFormed h) (fun _ _ _ _ _ _ _ _ _ he => he)
    (fun p a _ _ s _ hs _ hmerged he =>
      he.freezeSlot p a (Hierarchy.formed_merge ht (he.slots p a s hs).type hmerged))
    (fun k _ _ _ _ he => he.recordResult hw k ht) hd hok

theorem TypesFormed.recordAll (hw : h.WellFormed) (hd : d.TypesFormed h) (ht : h.Formed type)
    (outputs : List Nat) : (d.recordAll h type outputs).TypesFormed h where
  slots p a s hs := hd.slots p a s (slot?_congr (parameters_recordAll outputs) p a ▸ hs)
  outputs k o' ho' := by
    obtain ⟨o, ho, heq, hrecorded⟩ := exists_output_of_recordAll ho'
    have hformed := hd.outputs k o ho
    refine ⟨heq ▸ hformed.declared, hrecorded (fun result => ∀ t, result = some t → h.Formed t)
      hformed.result fun _ r hr t ht' => ?_⟩
    exact Option.some.inj ht' ▸ hw.formed_widen hr ht

end Declaration

/-! ## Stages -/

namespace Network

variable {n m e c c' r f u : Network}

theorem TypesFormed.modifyDeclaration (hc : c.TypesFormed) (i : Nat)
    {g : Declaration → Declaration}
    (hg : ∀ d, c.declaration? i = some d → (g d).TypesFormed c.types) :
    (c.modifyDeclaration i g).TypesFormed where
  hierarchy := hc.hierarchy
  declarations j d hd := by
    rw [declaration?_modifyDeclaration] at hd
    split at hd
    · rename_i hij
      obtain ⟨d₀, hd₀, rfl⟩ := Option.map_eq_some_iff.1 hd
      exact hg d₀ (hij ▸ hd₀)
    · exact hc.declarations j d hd
  inputs := hc.inputs
  outputs := hc.outputs

theorem TypesFormed.targetType? (hc : c.TypesFormed) {t : Target} {type : ClassType}
    (ht : c.targetType? t = some type) : c.types.Formed type := by
  cases t with
  | output id =>
    obtain ⟨o, ho, rfl⟩ := Option.map_eq_some_iff.1 ht
    obtain ⟨d, hd, ho⟩ := output?_eq_some.1 ho
    exact ((hc.declarations _ d hd).outputs _ o ho).type
  | input id =>
    obtain ⟨i, hi, rfl⟩ := Option.map_eq_some_iff.1 ht
    exact hc.inputs id i hi

/-- A network with nothing inferred has the types of the interfaces it uses. -/
theorem Untouched.typesFormed (hn : n.Untouched) : n.TypesFormed where
  hierarchy := hn.types
  declarations i d hd := (hn.fresh i d hd).typesFormed
  inputs id i hi := (hn.inputs id i hi).1 ▸ Hierarchy.formed_object _
  outputs b hb _ ht := nomatch (hn.outputs b hb).2.symm.trans ht

theorem TypesFormed.bindAt {i : Nat} (hc : c.TypesFormed)
    (h : e.bindAt e.resolve? c i = .ok c') : c'.TypesFormed := by
  obtain ⟨d, hd, h⟩ := bind_eq_ok.1 h
  obtain ⟨d', hbind, h⟩ := bind_eq_ok.1 h
  obtain rfl := pure_eq_ok.1 h
  have hformed := hc.declarations i d (require_eq_ok.1 hd)
  refine hc.modifyDeclaration i fun _ _ => ⟨fun p a s' hs' => ?_, ?_⟩
  · obtain ⟨s, hs, hslot⟩ := exists_slot?_of_bindDeclaration hbind hs'
    obtain ⟨_, rfl, -⟩ := hslot.kept
    exact ⟨(hformed.slots p a s hs).declared, (hformed.slots p a s hs).frozen⟩
  · have houtputs : d'.outputs = d.outputs := by rw [(getElem?_bindDeclaration hbind).1]
    rw [houtputs]
    exact hformed.outputs

theorem TypesFormed.foldlM_bindAt (he : e.TypesFormed) {ds : List Nat}
    (h : ds.foldlM (e.bindAt e.resolve?) e = .ok c) : c.TypesFormed :=
  foldlM_invariant (fun _ (c : Network) => c.TypesFormed) (fun _ _ _ _ hc hstep => hc.bindAt hstep)
    he h

theorem TypesFormed.resolveReferences (he : e.TypesFormed) (h : e.resolveReferences = .ok r) :
    r.TypesFormed := by
  obtain ⟨c, hc, h⟩ := bind_eq_ok.1 h
  obtain ⟨outputs, houtputs, h⟩ := bind_eq_ok.1 h
  obtain rfl := pure_eq_ok.1 h
  have hformed := he.foldlM_bindAt hc
  have htypes := (kept_foldlM_bindAt hc).1
  refine ⟨hformed.hierarchy, hformed.declarations, hformed.inputs, fun b' hb' t ht => ?_⟩
  obtain ⟨b, hb, hstep⟩ := mem_of_mapM_eq_ok houtputs hb'
  unfold bindOutput at hstep
  split at hstep
  · obtain rfl := Except.ok.inj hstep
    exact htypes ▸ he.outputs b hb t ht
  · simp [reject] at hstep

theorem TypesFormed.setOrder (hn : n.TypesFormed) (order : List Nat) :
    (n.setOrder order).TypesFormed :=
  ⟨hn.hierarchy, hn.declarations, hn.inputs, hn.outputs⟩

theorem TypesFormed.freezeAt {id : SlotId} (hc : c.TypesFormed) (h : c.freezeAt id = .ok c') :
    c'.TypesFormed := by
  obtain ⟨s, -, ⟨-, rfl⟩ | ⟨-, rfl⟩ | ⟨-, type, d, d', htype, hd, hfreeze, rfl⟩⟩ :=
    freezeAt_eq_ok h
  · exact hc
  · exact hc
  · have houtputs : c.OutputsFormed := fun id o ho =>
      hc.targetType? (t := .output id) (congrArg (Option.map Output.type) ho)
    have hformed := houtputs.knownType? hc.hierarchy (knownType?_of_freezingType? htype)
    exact hc.modifyDeclaration _ fun _ _ =>
      (hc.declarations _ d hd).freeze hc.hierarchy hformed hfreeze

theorem TypesFormed.foldlM_freezeAt (hc : c.TypesFormed) {ids : List SlotId}
    (h : ids.foldlM Network.freezeAt c = .ok c') : c'.TypesFormed :=
  foldlM_invariant (fun _ (c : Network) => c.TypesFormed)
    (fun _ _ _ _ hc hstep => hc.freezeAt hstep) hc h

theorem TypesFormed.checkAt {id : SlotId} (hc : c.TypesFormed) (h : c.checkAt id = .ok c') :
    c'.TypesFormed := by
  obtain ⟨s, -, ⟨t, provided, -, ht, -, rfl⟩ | ⟨-, rfl⟩⟩ := checkAt_eq_ok h
  · exact hc.modifyDeclaration _ fun d hd =>
      (hc.declarations _ d hd).recordAll hc.hierarchy (hc.targetType? ht) s.feeds
  · exact hc

theorem TypesFormed.setMultiplicities (hn : n.TypesFormed) {ms : List Multiplicity}
    (hlength : ms.length = n.params.length) : (n.setMultiplicities ms).TypesFormed where
  hierarchy := hn.hierarchy
  declarations := hn.declarations
  inputs := by
    rw [input?_setMultiplicities hlength]
    exact hn.inputs
  outputs := hn.outputs

/-- The types that are found for inputs are formed. -/
theorem formed_of_inferInputs (hn : n.Prepared) {ts : List (InputId × InputTyping)}
    (h : n.inferInputs = .ok ts) {x : InputId × InputTyping} (hx : x ∈ ts) :
    n.types.Formed x.2.type := by
  obtain ⟨id, -, hstep⟩ := mem_of_mapM_eq_ok h hx
  obtain ⟨t, ht, hstep⟩ := bind_eq_ok.1 hstep
  obtain rfl := pure_eq_ok.1 hstep
  exact (inferInput_isMeet hn ht).reduced.toFormed

theorem TypesFormed.setInputs (hn : n.TypesFormed) {ts : List (InputId × InputTyping)}
    (hts : ∀ x ∈ ts, n.types.Formed x.2.type) : (n.setInputs ts).TypesFormed := by
  have hinputs : ∀ id i, (n.setInputs ts).input? id = some i → n.types.Formed i.type := by
    intro id i hi
    rcases input?_setInputs hi with ⟨t, ht, htype, -⟩ | ⟨hi, -⟩
    · exact htype ▸ hts (id, t) ht
    · exact hn.inputs id i hi
  rw [setInputs_eq] at hinputs ⊢
  exact ⟨hn.hierarchy, hn.declarations, hinputs, hn.outputs⟩

/-- The types that are found for outputs of the block are formed. -/
theorem InputsTyped.formed_of_inferOutputTypes (hn : n.InputsTyped) {os : List ClassType}
    (h : n.inferOutputTypes = .ok os) {t : ClassType} (ht : t ∈ os) : n.types.Formed t := by
  obtain ⟨b, -, hinfer⟩ := mem_of_mapM_eq_ok h ht
  unfold inferOutputType at hinfer
  split at hinfer
  · exact (provides_providedWithin hn.toPrepared hn.reduced hinfer).formed hn.toPrepared
  · exact Except.ok.inj hinfer ▸ Hierarchy.formed_object _

theorem TypesFormed.setOutputTypes (hn : n.TypesFormed) {os : List ClassType}
    (hos : ∀ t ∈ os, n.types.Formed t) : (n.setOutputTypes os).TypesFormed where
  hierarchy := hn.hierarchy
  declarations := hn.declarations
  inputs := hn.inputs
  outputs b hb t ht := by
    obtain ⟨j, hj⟩ := List.getElem?_of_mem hb
    obtain ⟨_, t', -, ht', rfl⟩ := getElem?_setOutputTypes hj
    exact Option.some.inj ht ▸ hos t' (List.mem_of_getElem? ht')

/-! ## All networks on the way -/

section Untouched

variable (hn : n.Untouched)
include hn

theorem Untouched.typesFormed_resolved (hexpand : n.expandStars = .ok e)
    (hresolve : e.resolveReferences = .ok r) : r.TypesFormed :=
  (hn.expandStars hexpand).typesFormed.resolveReferences hresolve

theorem Untouched.typesFormed_prepare (h : n.prepare = .ok f) : f.TypesFormed := by
  obtain ⟨e, r, order, hexpand, hresolve, -, hfreeze⟩ := prepare_eq_ok.1 h
  exact ((hn.typesFormed_resolved hexpand hresolve).setOrder order).foldlM_freezeAt hfreeze

theorem Untouched.typesFormed_typing (hprepare : n.prepare = .ok f) {ms : List Multiplicity}
    (hms : f.inferMultiplicities = .ok ms) {ts : List (InputId × InputTyping)}
    (hts : (f.setMultiplicities ms).inferInputs = .ok ts) {before : List (InputId × InputTyping)}
    (hbefore : before ⊆ ts) : ((f.setMultiplicities ms).setInputs before).TypesFormed :=
  ((hn.typesFormed_prepare hprepare).setMultiplicities (length_inferMultiplicities hms)).setInputs
    fun _ hx => formed_of_inferInputs (hn.prepared_setMultiplicities hprepare hms) hts (hbefore hx)

theorem Untouched.typesFormed_infer (hprepare : n.prepare = .ok f) (hinfer : f.infer = .ok u) :
    u.TypesFormed := by
  obtain ⟨ms, ts, os, hms, hts, hos, rfl⟩ := infer_eq_ok.1 hinfer
  have htyped := (hn.prepared_setMultiplicities hprepare hms).inputsTyped hts
  exact (hn.typesFormed_typing hprepare hms hts (List.Subset.refl ts)).setOutputTypes fun _ ht =>
    htyped.formed_of_inferOutputTypes hos ht

/-- All networks that the completion of a linked one goes through are made of formed types. -/
theorem Untouched.typesFormed_passes (h : n.Passes m) : m.TypesFormed := by
  cases h with
  | linked => exact hn.typesFormed
  | binding hexpand _ hrun => exact (hn.expandStars hexpand).typesFormed.foldlM_bindAt hrun
  | resolved hexpand hresolve => exact hn.typesFormed_resolved hexpand hresolve
  | freezing hexpand hresolve _ _ hrun =>
    exact ((hn.typesFormed_resolved hexpand hresolve).setOrder _).foldlM_freezeAt hrun
  | counted hprepare hms =>
    exact (hn.typesFormed_prepare hprepare).setMultiplicities (length_inferMultiplicities hms)
  | typing hprepare hms hts =>
    exact hn.typesFormed_typing hprepare hms hts (List.subset_append_left _ _)
  | checking hprepare hinfer _ hrun =>
    exact foldlM_invariant (fun _ (c : Network) => c.TypesFormed)
      (fun _ _ _ _ hc hstep => hc.checkAt hstep) (hn.typesFormed_infer hprepare hinfer) hrun

end Untouched

end Network

end Blockwork
