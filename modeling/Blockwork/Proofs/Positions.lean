import Blockwork.Proofs.Safety

/-!
# Positions in range

A network names everything by position, and positions found by one stage are used by later ones.
`InRange` says that all those it holds lead to something that is there. Completing a network goes
through the networks of `Passes`, one for each step of a stage that changes it, and all of them are
in range if the linked one is (`WellLinked.inRange_passes`).
-/

namespace Blockwork

/-- The occurrences of parameters are those of formal ones that are there, and the links between
attributes and outputs lead to attributes and outputs that are there. -/
structure Declaration.InRange (d : Declaration) : Prop where
  formals : ∀ q ∈ d.parameters, q.formal < d.specification.interface.parameters.length
  links : d.LinksFound

/-- The positions in the network lead to what is there: those of declarations in the execution
order, those in the declarations, those that attributes and outputs of the block refer to, and those
of outputs of the block that inputs flow into. -/
structure Network.InRange (n : Network) : Prop where
  order : ∀ i ∈ n.order, i < n.declarations.length
  declarations : ∀ i d, n.declaration? i = some d → d.InRange
  references : ∀ id s t, n.slot? id = some s → s.binding = .reference t → n.HasTarget t
  wired : n.OutputsWired
  inputs : ∀ id i, n.input? id = some i → ∀ o ∈ i.pipelineOutputs, o < n.outputs.length

namespace Network

/-- While it is completed the network goes through the other one: at the start, with the texts of
some declarations resolved and with all, sorted and with some attributes gone through by freezing,
with multiplicities, with the typings of some inputs, and with all types and some attributes
checked. -/
inductive Passes (n : Network) : Network → Prop
  | linked : n.Passes n
  | binding {e c : Network} {before after : List Nat} (hexpand : n.expandStars = .ok e)
      (hsplit : e.order = before ++ after)
      (hrun : before.foldlM (e.bindAt e.resolve?) e = .ok c) : n.Passes c
  | resolved {e r : Network} (hexpand : n.expandStars = .ok e)
      (hresolve : e.resolveReferences = .ok r) : n.Passes r
  | freezing {e r c : Network} {order : List Nat} {before after : List SlotId}
      (hexpand : n.expandStars = .ok e) (hresolve : e.resolveReferences = .ok r)
      (hsort : r.sort = .ok order) (hsplit : (r.setOrder order).slotIds = before ++ after)
      (hrun : before.foldlM freezeAt (r.setOrder order) = .ok c) : n.Passes c
  | counted {f : Network} {ms : List Multiplicity} (hprepare : n.prepare = .ok f)
      (hms : f.inferMultiplicities = .ok ms) : n.Passes (f.setMultiplicities ms)
  | typing {f : Network} {ms : List Multiplicity} {before after : List (InputId × InputTyping)}
      (hprepare : n.prepare = .ok f) (hms : f.inferMultiplicities = .ok ms)
      (hts : (f.setMultiplicities ms).inferInputs = .ok (before ++ after)) :
      n.Passes ((f.setMultiplicities ms).setInputs before)
  | checking {f u c : Network} {before after : List SlotId} (hprepare : n.prepare = .ok f)
      (hinfer : f.infer = .ok u) (hsplit : u.slotIds = before ++ after)
      (hrun : before.foldlM checkAt u = .ok c) : n.Passes c

variable {n m e c c' r f u : Network}

/-! ## Linking and expanding star references -/

/-- Fresh declarations with all their outputs are in range. -/
theorem Fresh.inRange (hn : n.Fresh) (hout : n.HasOutputs) {i : Nat} {d : Declaration}
    (hd : n.declaration? i = some d) : d.InRange where
  formals q hq := by
    obtain ⟨f, hf, -⟩ := (hn i d hd).parameters q hq
    exact (List.getElem?_eq_some_iff.1 hf).1
  links := (hn i d hd).linksFound (hout i d hd)

/-- Nothing refers to anything while texts are still to be resolved. -/
theorem Given.not_reference (hn : n.Given) {id : SlotId} {s : Slot} {t : Target}
    (hs : n.slot? id = some s) : s.binding ≠ .reference t := by
  obtain ⟨d, hd, hs⟩ := slot?_eq_some.1 hs
  obtain ⟨q, hq, hs⟩ := Declaration.slot?_eq_some.1 hs
  intro ht
  rcases hn d (List.mem_of_getElem? hd) q (List.mem_of_getElem? hq) s (List.mem_of_getElem? hs) with
    ⟨hunbound, -⟩ | ⟨v, hv⟩
  · cases hunbound.symm.trans ht
  · cases hv.symm.trans ht

/-- A linked network of which nothing is inferred yet. -/
structure Untouched (n : Network) : Prop extends n.WellLinked where
  hasOutputs : n.HasOutputs
  multiplicities : ∀ p ∈ n.params, p.multiplicity = .any
  inputs : ∀ id i, n.input? id = some i → i.type = ClassType.object ∧ i.pipelineOutputs = []
  outputs : ∀ b ∈ n.outputs, b.target = none ∧ b.type = none

theorem Untouched.expandStars (hn : n.Untouched) (h : n.expandStars = .ok e) : e.Untouched := by
  obtain ⟨htypes, hfresh⟩ := hn.fresh.expandStars h
  obtain ⟨hgiven, horder, hpositions⟩ := hn.given.expandStars h
  have hparams := params_expandStars h
  have houtputs : e.outputs = n.outputs := by
    obtain ⟨_, -, h⟩ := bind_eq_ok.1 h
    exact (congrArg Network.outputs (pure_eq_ok.1 h)).symm
  exact ⟨⟨htypes ▸ hn.types, htypes ▸ hn.literals, hfresh, hgiven,
      horder.trans (hn.order.trans hpositions.symm)⟩,
    hn.hasOutputs.expandStars h, hparams ▸ hn.multiplicities, input?_congr hparams ▸ hn.inputs,
    houtputs ▸ hn.outputs⟩

theorem Untouched.inRange (hn : n.Untouched) : n.InRange where
  order i hi := mem_positions.1 (hn.order ▸ hi)
  declarations _ _ hd := hn.fresh.inRange hn.hasOutputs hd
  references _ _ _ hs ht := absurd ht (hn.given.not_reference hs)
  wired b hb t ht := nomatch (hn.outputs b hb).1.symm.trans ht
  inputs id i hi o ho := by
    rw [(hn.inputs id i hi).2] at ho
    cases ho

/-! ## Resolving -/

/-- Resolving the texts of a declaration resolves each of its attributes, and nothing else. -/
theorem exists_slot?_of_bindDeclaration {d d' : Declaration}
    (h : n.bindDeclaration n.resolve? d = .ok d') {p a : Nat} {s' : Slot}
    (hs' : d'.slot? p a = some s') : ∃ s, d.slot? p a = some s ∧ n.ResolvesSlot s s' := by
  obtain ⟨q', hq', hs'⟩ := Declaration.slot?_eq_some.1 hs'
  obtain ⟨q, hq, hresolves⟩ := exists_getElem?_of_forall₂ (forall₂_bindDeclaration h).flip hq'
  obtain ⟨s, hs, hslot⟩ := exists_getElem?_of_forall₂ hresolves.slots.flip hs'
  exact ⟨s, Declaration.slot?_eq_some.2 ⟨q, hq, hs⟩, hslot⟩

theorem exists_slot?_bindDeclaration {d d' : Declaration}
    (h : n.bindDeclaration n.resolve? d = .ok d') {p a : Nat} {s : Slot}
    (hs : d.slot? p a = some s) : ∃ s', d'.slot? p a = some s' := by
  obtain ⟨q, hq, hs⟩ := Declaration.slot?_eq_some.1 hs
  obtain ⟨q', hq', hresolves⟩ := exists_getElem?_of_forall₂ (forall₂_bindDeclaration h) hq
  obtain ⟨s', hs', -⟩ := exists_getElem?_of_forall₂ hresolves.slots hs
  exact ⟨s', Declaration.slot?_eq_some.2 ⟨q', hq', hs'⟩⟩

theorem inRange_bindDeclaration {d d' : Declaration} (hd : d.InRange)
    (h : n.bindDeclaration n.resolve? d = .ok d') : d'.InRange := by
  have heq := (getElem?_bindDeclaration h).1
  have hspec : d'.specification = d.specification := by rw [heq]
  have houtputs : d'.outputs = d.outputs := by rw [heq]
  refine ⟨fun q' hq' => ?_, fun p a s' hs' k hk => ?_, fun k o ho x hx => ?_⟩
  · obtain ⟨i, hi⟩ := List.getElem?_of_mem hq'
    obtain ⟨q, hq, hresolves⟩ := exists_getElem?_of_forall₂ (forall₂_bindDeclaration h).flip hi
    rw [hspec, hresolves.formal]
    exact hd.formals q (List.mem_of_getElem? hq)
  · obtain ⟨s, hs, hslot⟩ := exists_slot?_of_bindDeclaration h hs'
    obtain ⟨_, rfl, -⟩ := hslot.kept
    rw [houtputs]
    exact hd.links.feeds p a s hs k hk
  · obtain ⟨s, hs⟩ := hd.links.fedBy k o (houtputs ▸ ho) x hx
    exact exists_slot?_bindDeclaration h hs

/-- Resolving the texts of one more declaration keeps positions in range, as long as there is to
refer to what there was at the start. -/
theorem InRange.bindAt {i : Nat} (hc : c.InRange) (htargets : ∀ t, c.HasTarget t ↔ e.HasTarget t)
    (h : e.bindAt e.resolve? c i = .ok c') :
    c'.InRange ∧ ∀ t, c'.HasTarget t ↔ e.HasTarget t := by
  obtain ⟨hparams, hout⟩ := targets_bindAt h
  have hkept : ∀ t, c'.HasTarget t ↔ c.HasTarget t := fun t =>
    hasTarget_congr (fun id => by rw [hout]) fun id => by rw [input?_congr hparams]
  obtain ⟨d, hd, h⟩ := bind_eq_ok.1 h
  obtain ⟨d', hbind, h⟩ := bind_eq_ok.1 h
  obtain rfl := pure_eq_ok.1 h
  have hd := require_eq_ok.1 hd
  have hd' : d'.InRange := inRange_bindDeclaration (hc.declarations i d hd) hbind
  refine ⟨⟨fun j hj => ?_, fun j f hf => ?_, fun id s t hs ht => ?_, fun b hb t ht => ?_,
    hc.inputs⟩, fun t => (hkept t).trans (htargets t)⟩
  · show j < (c.declarations.modify i fun _ => d').length
    rw [List.length_modify]
    exact hc.order j hj
  · rw [declaration?_modifyDeclaration] at hf
    split at hf
    · obtain ⟨_, -, rfl⟩ := Option.map_eq_some_iff.1 hf
      exact hd'
    · exact hc.declarations j f hf
  · rw [hkept]
    obtain ⟨f, hf, hs⟩ := slot?_eq_some.1 hs
    rw [declaration?_modifyDeclaration] at hf
    split at hf
    · rename_i hid
      obtain ⟨_, -, rfl⟩ := Option.map_eq_some_iff.1 hf
      obtain ⟨s₀, hs₀, hslot⟩ := exists_slot?_of_bindDeclaration hbind hs
      obtain ⟨_, rfl, hbinding⟩ := hslot.kept
      rcases hbinding t ht with ht | htarget
      · exact hc.references id s₀ t (slot?_eq_some.2 ⟨d, hid ▸ hd, hs₀⟩) ht
      · exact (htargets t).2 htarget
    · exact hc.references id s t (slot?_eq_some.2 ⟨f, hf, hs⟩) ht
  · exact (hkept t).2 (hc.wired b hb t ht)

/-- Resolving texts goes through networks in range. -/
theorem InRange.foldlM_bindAt (he : e.InRange) {ds : List Nat}
    (h : ds.foldlM (e.bindAt e.resolve?) e = .ok c) : c.InRange :=
  (foldlM_invariant (fun _ (c : Network) => c.InRange ∧ ∀ t, c.HasTarget t ↔ e.HasTarget t)
    (fun _ _ _ _ ⟨hc, htargets⟩ hstep => hc.bindAt htargets hstep) ⟨he, fun _ => Iff.rfl⟩ h).1

theorem InRange.resolveReferences (he : e.InRange) (h : e.resolveReferences = .ok r) :
    r.InRange := by
  have hwired := outputsWired_resolveReferences h
  obtain ⟨c, hc, h⟩ := bind_eq_ok.1 h
  obtain ⟨outputs, houtputs, h⟩ := bind_eq_ok.1 h
  obtain rfl := pure_eq_ok.1 h
  have hrange := he.foldlM_bindAt hc
  have hlength := congrArg List.length (mapM_eq_ok.1 houtputs)
  rw [List.length_map, List.length_map] at hlength
  refine ⟨hrange.order, hrange.declarations, hrange.references, hwired, fun id i hi o ho => ?_⟩
  show o < outputs.length
  rw [← hlength, ← (kept_foldlM_bindAt hc).2]
  exact hrange.inputs id i hi o ho

/-! ## Stages that keep the wiring -/

theorem InRange.of_bare (hn : n.InRange) (h : m.bare = n.bare) (hlinks : m.LinksFound) :
    m.InRange := by
  have horder : m.order = n.order := (congrArg Network.order h :)
  have hparams : m.params = n.params := (congrArg Network.params h :)
  have houtputs : m.outputs = n.outputs := (congrArg Network.outputs h :)
  have hlength : m.declarations.length = n.declarations.length := by
    simpa [bare] using congrArg (fun n : Network => n.declarations.length) h
  refine ⟨fun i hi => hlength ▸ hn.order i (horder ▸ hi), fun i d hd => ⟨fun q hq => ?_,
    hlinks i d hd⟩, fun id s t hs ht => ?_, fun b hb t ht => ?_, ?_⟩
  · obtain ⟨d₀, hd₀, hbare⟩ := exists_declaration?_of_bare h hd
    have hspec : d.specification = d₀.specification := (congrArg Declaration.specification hbare :)
    have hparameters : d.parameters.map Parameter.bare = d₀.parameters.map Parameter.bare :=
      (congrArg Declaration.parameters hbare :)
    have hmem : q.bare ∈ d₀.parameters.map Parameter.bare :=
      hparameters ▸ List.mem_map_of_mem hq
    obtain ⟨q₀, hq₀, hqbare⟩ := List.mem_map.1 hmem
    have hformal : q₀.formal = q.formal := (congrArg Parameter.formal hqbare :)
    exact hspec ▸ hformal ▸ (hn.declarations i d₀ hd₀).formals q₀ hq₀
  · obtain ⟨s₀, hs₀, hsbare⟩ := exists_slot?_of_bare h hs
    have hbinding : s.binding = s₀.binding := (congrArg Slot.binding hsbare :)
    exact (hn.references id s₀ t hs₀ (hbinding.symm.trans ht)).of_bare h
  · exact (hn.wired b (houtputs ▸ hb) t ht).of_bare h
  · rw [input?_congr hparams, houtputs]
    exact hn.inputs

theorem InRange.linksFound (hn : n.InRange) : n.LinksFound :=
  fun i d hd => (hn.declarations i d hd).links

theorem InRange.freezeAt {id : SlotId} (hc : c.InRange) (h : c.freezeAt id = .ok c') :
    c'.InRange :=
  hc.of_bare (bare_freezeAt h) (hc.linksFound.freezeAt h)

theorem LinksFound.checkAt {id : SlotId} (hc : c.LinksFound) (h : c.checkAt id = .ok c') :
    c'.LinksFound := by
  obtain ⟨s, -, ⟨t, provided, -, -, -, rfl⟩ | ⟨-, rfl⟩⟩ := checkAt_eq_ok h
  · intro i d hd
    rw [declaration?_modifyDeclaration] at hd
    split at hd
    · obtain ⟨d₀, hd₀, rfl⟩ := Option.map_eq_some_iff.1 hd
      have hbare : (d₀.recordAll c.types provided s.feeds).bare = d₀.bare :=
        Declaration.bare_recordAll s.feeds
      have hslots : ∀ p a, (d₀.recordAll c.types provided s.feeds).slot? p a = d₀.slot? p a :=
        Declaration.slot?_congr (Declaration.parameters_recordAll s.feeds)
      refine ⟨fun p a s' hs' k hk => ?_, fun k o ho x hx => ?_⟩
      · rw [Declaration.length_outputs_of_bare hbare]
        exact (hc i d₀ hd₀).feeds p a s' (hslots p a ▸ hs') k hk
      · obtain ⟨o₀, ho₀, heq, -⟩ := Declaration.exists_output_of_recordAll ho
        rw [hslots]
        rw [heq] at hx
        exact (hc i d₀ hd₀).fedBy k o₀ ho₀ x hx
    · exact hc i d hd
  · exact hc

theorem InRange.checkAt {id : SlotId} (hc : c.InRange) (h : c.checkAt id = .ok c') :
    c'.InRange :=
  hc.of_bare (bare_checkAt h) (hc.linksFound.checkAt h)

/-! ## Inferring -/

/-- Positions stay in range if only inputs and types of outputs change, as long as inputs list
outputs that are there. -/
theorem InRange.congr (hn : n.InRange) (hdecls : m.declarations = n.declarations)
    (horder : m.order = n.order) (hin : ∀ id, m.input? id = none ↔ n.input? id = none)
    (hwired : ∀ b ∈ m.outputs, ∃ b₀ ∈ n.outputs, b.target = b₀.target)
    (hinputs : ∀ id i, m.input? id = some i → ∀ o ∈ i.pipelineOutputs, o < m.outputs.length) :
    m.InRange := by
  have htarget : ∀ {t}, n.HasTarget t → m.HasTarget t := fun ht =>
    (hasTarget_congr (fun id => by rw [output?_congr hdecls]) hin).2 ht
  refine ⟨?_, ?_, fun id s t hs ht => ?_, fun b hb t ht => ?_, hinputs⟩
  · rw [horder, hdecls]
    exact hn.order
  · rw [declaration?_congr hdecls]
    exact hn.declarations
  · rw [slot?_congr hdecls] at hs
    exact htarget (hn.references id s t hs ht)
  · obtain ⟨b₀, hb₀, heq⟩ := hwired b hb
    exact htarget (hn.wired b₀ hb₀ t (heq ▸ ht))

/-- An input flows into outputs of the block that are there. -/
theorem lt_of_mem_pipelineOutputs (hn : n.Prepared) {ts : List (InputId × InputTyping)}
    (h : n.inferInputs = .ok ts) {x : InputId × InputTyping} (hx : x ∈ ts) {o : Nat}
    (ho : o ∈ x.2.pipelineOutputs) : o < n.outputs.length := by
  obtain ⟨id, -, hstep⟩ := mem_of_mapM_eq_ok h hx
  obtain ⟨t, ht, hstep⟩ := bind_eq_ok.1 hstep
  obtain rfl := pure_eq_ok.1 hstep
  have hne : {path | n.Delivers id o path}.encard ≠ 0 := by
    rw [encard_delivers_inferInput hn ht]
    exact_mod_cast (List.count_pos_iff.2 ho).ne'
  obtain ⟨path, t, hwired, -⟩ := Set.nonempty_iff_ne_empty.2 (mt Set.encard_eq_zero.2 hne)
  obtain ⟨b, hb, -⟩ := Option.bind_eq_some_iff.1 hwired
  exact (List.getElem?_eq_some_iff.1 hb).1

theorem InRange.setMultiplicities (hn : n.InRange) {ms : List Multiplicity}
    (hlength : ms.length = n.params.length) : (n.setMultiplicities ms).InRange := by
  have hin := input?_setMultiplicities hlength
  refine hn.congr rfl rfl (fun id => by rw [hin]) (fun b hb => ⟨b, hb, rfl⟩) ?_
  rw [hin]
  exact hn.inputs

theorem InRange.setInputs (hn : n.InRange) {ts : List (InputId × InputTyping)}
    (hts : ∀ x ∈ ts, ∀ o ∈ x.2.pipelineOutputs, o < n.outputs.length) :
    (n.setInputs ts).InRange := by
  have heq := setInputs_eq n ts
  have houtputs : (n.setInputs ts).outputs = n.outputs := by rw [heq]
  refine hn.congr (by rw [heq]) (by rw [heq]) (fun _ => input?_setInputs_eq_none)
    (fun b hb => ⟨b, houtputs ▸ hb, rfl⟩) fun id i hi o ho => ?_
  rw [houtputs]
  rcases input?_setInputs hi with ⟨t, ht, -, hpipelines⟩ | ⟨hi, -⟩
  · exact hts (id, t) ht o (hpipelines ▸ ho)
  · exact hn.inputs id i hi o ho

theorem InRange.setOutputTypes (hn : n.InRange) {os : List ClassType}
    (hlength : os.length = n.outputs.length) : (n.setOutputTypes os).InRange := by
  have houtputs : (n.setOutputTypes os).outputs.length = n.outputs.length := by
    simp [Network.setOutputTypes, hlength]
  refine hn.congr rfl rfl (fun _ => Iff.rfl) (fun b hb => ?_) fun id i hi o ho => ?_
  · obtain ⟨j, hj⟩ := List.getElem?_of_mem hb
    obtain ⟨b₀, t, hb₀, -, rfl⟩ := List.getElem?_zipWith_eq_some.1 hj
    exact ⟨b₀, List.mem_of_getElem? hb₀, rfl⟩
  · rw [houtputs]
    exact hn.inputs id i hi o ho

/-! ## All networks on the way -/

section Untouched

variable (hn : n.Untouched)
include hn

theorem Untouched.inRange_sorted {order : List Nat} (hexpand : n.expandStars = .ok e)
    (hresolve : e.resolveReferences = .ok r) (hsort : r.sort = .ok order) :
    (r.setOrder order).InRange := by
  have hr := (hn.expandStars hexpand).inRange.resolveReferences hresolve
  have hforward : (r.setOrder order).Forward := forward_of_sort hsort
  exact ⟨fun i hi => mem_positions.1 (hforward.perm.mem_iff.1 hi), hr.declarations, hr.references,
    hr.wired, hr.inputs⟩

theorem Untouched.inRange_prepare (h : n.prepare = .ok f) : f.InRange := by
  obtain ⟨e, r, order, hexpand, hresolve, hsort, hfreeze⟩ := prepare_eq_ok.1 h
  exact foldlM_invariant (fun _ (c : Network) => c.InRange)
    (fun _ _ _ _ hc hstep => hc.freezeAt hstep) (hn.inRange_sorted hexpand hresolve hsort) hfreeze

theorem Untouched.prepared_setMultiplicities (hprepare : n.prepare = .ok f)
    {ms : List Multiplicity} (hms : f.inferMultiplicities = .ok ms) :
    (f.setMultiplicities ms).Prepared :=
  (hn.prepared hprepare).congr rfl rfl rfl fun id => by
    rw [input?_setMultiplicities (length_inferMultiplicities hms)]

theorem Untouched.inRange_typing (hprepare : n.prepare = .ok f) {ms : List Multiplicity}
    (hms : f.inferMultiplicities = .ok ms) {ts : List (InputId × InputTyping)}
    (hts : (f.setMultiplicities ms).inferInputs = .ok ts) {before : List (InputId × InputTyping)}
    (hbefore : before ⊆ ts) : ((f.setMultiplicities ms).setInputs before).InRange := by
  have hprepared := hn.prepared_setMultiplicities hprepare hms
  have hcounted :=
    (hn.inRange_prepare hprepare).setMultiplicities (length_inferMultiplicities hms)
  exact hcounted.setInputs fun x hx o ho => lt_of_mem_pipelineOutputs hprepared hts (hbefore hx) ho

theorem Untouched.inRange_infer (hprepare : n.prepare = .ok f) (hinfer : f.infer = .ok u) :
    u.InRange := by
  obtain ⟨ms, ts, os, hms, hts, hos, rfl⟩ := infer_eq_ok.1 hinfer
  have hlength := congrArg List.length (mapM_eq_ok.1 hos)
  rw [List.length_map, List.length_map] at hlength
  exact (hn.inRange_typing hprepare hms hts (List.Subset.refl ts)).setOutputTypes hlength.symm

/-- All networks that the completion of a linked one goes through are in range. -/
theorem Untouched.inRange_passes (h : n.Passes m) : m.InRange := by
  cases h with
  | linked => exact hn.inRange
  | binding hexpand _ hrun => exact (hn.expandStars hexpand).inRange.foldlM_bindAt hrun
  | resolved hexpand hresolve => exact (hn.expandStars hexpand).inRange.resolveReferences hresolve
  | freezing hexpand hresolve hsort _ hrun =>
    exact foldlM_invariant (fun _ (c : Network) => c.InRange)
      (fun _ _ _ _ hc hstep => hc.freezeAt hstep) (hn.inRange_sorted hexpand hresolve hsort) hrun
  | counted hprepare hms =>
    exact (hn.inRange_prepare hprepare).setMultiplicities (length_inferMultiplicities hms)
  | typing hprepare hms hts =>
    exact hn.inRange_typing hprepare hms hts (List.subset_append_left _ _)
  | checking hprepare hinfer _ hrun =>
    exact foldlM_invariant (fun _ (c : Network) => c.InRange)
      (fun _ _ _ _ hc hstep => hc.checkAt hstep) (hn.inRange_infer hprepare hinfer) hrun

end Untouched

/-- The completed network is the last one of these. -/
theorem passes_complete (h : n.complete = .ok m) : n.Passes m := by
  rw [complete_eq] at h
  obtain ⟨f, hprepare, h⟩ := bind_eq_ok.1 h
  obtain ⟨u, hinfer, hcheck⟩ := bind_eq_ok.1 h
  exact .checking hprepare hinfer (List.append_nil _).symm hcheck

end Network

end Blockwork
