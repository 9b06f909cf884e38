import Blockwork.Proofs.DeclaredOutputs
import Blockwork.Proofs.Occurrence
import Blockwork.Proofs.Preparation

/-!
# Resolved networks

Once its references are resolved, a network holds all that the later stages ask for, whatever order
of execution is chosen: fresh declarations with all their outputs, and references to something that
is there (`WellResolved`). Freezing it in a forward order prepares it (`WellResolved.prepared`).
-/

namespace Blockwork

/-- Linking leaves it open how often inputs may occur. -/
theorem BlockDraft.ensures_params {σ : Type} (r : Resolver σ) (b : BlockDraft) :
    Ensures (fun _ => True) (b.link r) fun n => ∀ p ∈ n.params, p.multiplicity = .any :=
  Ensures.trivial.bind fun _ _ => .pure fun p hp => by
    obtain ⟨q, -, rfl⟩ := List.mem_map.1 hp
    rfl

namespace Network

variable {n m e r f : Network} {order : List Nat}

/-- The outputs of the block are wired to something that is there. -/
def OutputsWired (n : Network) : Prop :=
  ∀ b ∈ n.outputs, ∀ t, b.target = some t → n.HasTarget t

/-- What the stages after resolving rely on, in any order of execution. -/
structure WellResolved (n : Network) : Prop where
  types : n.types.WellFormed
  fresh : n.Fresh
  hasOutputs : n.HasOutputs
  bound : ∀ id s, n.slot? id = some s → s.Bound n
  wired : n.OutputsWired
  multiplicities : ∀ p ∈ n.params, p.multiplicity = .any

/-! ## Resolving -/

theorem params_expandStars (h : n.expandStars = .ok m) : m.params = n.params := by
  unfold expandStars at h
  obtain ⟨_, -, h⟩ := bind_eq_ok.1 h
  exact (congrArg Network.params (pure_eq_ok.1 h)).symm

/-- Resolving the texts of a declaration keeps what can be referred to. -/
theorem targets_bindAt {index : String → Option Target} {c c' : Network} {i : Nat}
    (h : n.bindAt index c i = .ok c') : c'.params = c.params ∧ c'.output? = c.output? := by
  unfold bindAt at h
  obtain ⟨d, hd, h⟩ := bind_eq_ok.1 h
  obtain ⟨d', hbind, h⟩ := bind_eq_ok.1 h
  obtain rfl := pure_eq_ok.1 h
  refine ⟨rfl, funext fun id => ?_⟩
  unfold output?
  rw [declaration?_modifyDeclaration]
  split
  · rename_i hid
    rw [← hid, require_eq_ok.1 hd, (getElem?_bindDeclaration hbind).1]
    rfl
  · rfl

/-- Resolving texts changes declarations only. -/
theorem kept_foldlM_bindAt {index : String → Option Target} {ds : List Nat} {c : Network}
    (h : ds.foldlM (e.bindAt index) e = .ok c) : c.types = e.types ∧ c.outputs = e.outputs :=
  foldlM_invariant (fun _ (c : Network) => c.types = e.types ∧ c.outputs = e.outputs)
    (fun _ _ _ _ hc hstep => by
      obtain ⟨_, -, hstep⟩ := bind_eq_ok.1 hstep
      obtain ⟨_, -, hstep⟩ := bind_eq_ok.1 hstep
      obtain rfl := pure_eq_ok.1 hstep
      exact hc) ⟨rfl, rfl⟩ h

theorem types_resolveReferences (h : n.resolveReferences = .ok m) : m.types = n.types := by
  unfold resolveReferences at h
  obtain ⟨c, hc, h⟩ := bind_eq_ok.1 h
  obtain ⟨outputs, -, h⟩ := bind_eq_ok.1 h
  obtain rfl := pure_eq_ok.1 h
  exact (kept_foldlM_bindAt hc).1

/-- Resolving keeps what can be referred to. -/
theorem targets_resolveReferences (h : n.resolveReferences = .ok m) :
    m.params = n.params ∧ m.output? = n.output? := by
  unfold resolveReferences at h
  obtain ⟨c, hc, h⟩ := bind_eq_ok.1 h
  obtain ⟨outputs, -, h⟩ := bind_eq_ok.1 h
  obtain rfl := pure_eq_ok.1 h
  suffices c.params = n.params ∧ c.output? = n.output? from this
  refine foldlM_invariant (fun _ (c : Network) => c.params = n.params ∧ c.output? = n.output?)
    (fun _ _ _ _ ⟨hparams, hout⟩ hstep => ?_) ⟨rfl, rfl⟩ hc
  obtain ⟨hparams', hout'⟩ := targets_bindAt hstep
  exact ⟨hparams'.trans hparams, hout'.trans hout⟩

theorem hasTarget_resolveReferences (h : n.resolveReferences = .ok m) {t : Target} :
    m.HasTarget t ↔ n.HasTarget t := by
  obtain ⟨hparams, hout⟩ := targets_resolveReferences h
  exact hasTarget_congr (fun id => by rw [hout]) fun id => by rw [input?_congr hparams]

theorem outputsWired_resolveReferences (h : n.resolveReferences = .ok m) : m.OutputsWired := by
  intro b hb t ht
  rw [hasTarget_resolveReferences h]
  unfold resolveReferences at h
  obtain ⟨c, -, h⟩ := bind_eq_ok.1 h
  obtain ⟨outputs, houtputs, h⟩ := bind_eq_ok.1 h
  obtain rfl := pure_eq_ok.1 h
  obtain ⟨b₀, -, hbind⟩ := mem_of_mapM_eq_ok houtputs hb
  unfold bindOutput at hbind
  split at hbind
  · rename_i t' ht'
    obtain rfl := Except.ok.inj hbind
    exact Option.some.inj ht ▸ hasTarget_of_resolve? ht'
  · simp [reject] at hbind

/-- A linked network is well resolved after star references are expanded and references resolved. -/
theorem WellLinked.wellResolved (hn : n.WellLinked) (hout : n.HasOutputs)
    (hany : ∀ p ∈ n.params, p.multiplicity = .any) (hexpand : n.expandStars = .ok e)
    (hresolve : e.resolveReferences = .ok r) : r.WellResolved := by
  obtain ⟨htypes, hfresh, hbound⟩ := hn.resolved hexpand hresolve
  refine ⟨htypes ▸ hn.types, hfresh, (hout.expandStars hexpand).resolveReferences hresolve, hbound,
    outputsWired_resolveReferences hresolve, ?_⟩
  rw [(targets_resolveReferences hresolve).1, params_expandStars hexpand]
  exact hany

namespace WellResolved

theorem setOrder (hr : r.WellResolved) (order : List Nat) : (r.setOrder order).WellResolved :=
  ⟨hr.types, hr.fresh, hr.hasOutputs, hr.bound, hr.wired, hr.multiplicities⟩

/-- Freezing in a forward order prepares the network. -/
theorem prepared (hr : r.WellResolved) (hforward : r.Forward) (h : r.freezePipelines = .ok f) :
    f.Prepared :=
  prepared_of_freezePipelines hr.types hforward hr.fresh hr.bound h

theorem outputsWired_frozen (hr : r.WellResolved) (h : r.freezePipelines = .ok f) :
    f.OutputsWired := by
  have hbare := bare_freezePipelines h
  have houtputs : f.outputs = r.outputs := (congrArg Network.outputs hbare :)
  exact fun b hb t ht => (hr.wired b (houtputs ▸ hb) t ht).of_bare hbare

theorem multiplicities_frozen (hr : r.WellResolved) (h : r.freezePipelines = .ok f) :
    ∀ p ∈ f.params, p.multiplicity = .any := by
  have hparams : f.params = r.params := (congrArg Network.params (bare_freezePipelines h) :)
  exact hparams ▸ hr.multiplicities

end WellResolved

/-! ## What multiplicities rely on -/

theorem mem_inputsReferredTo {p : Parameter} {input : Nat} : input ∈ p.inputsReferredTo ↔
    ∃ s ∈ p.slots, ∃ id : InputId, s.binding = .reference (.input id) ∧ id.param = input := by
  unfold Parameter.inputsReferredTo
  rw [List.mem_filterMap]
  refine exists_congr fun s => and_congr_right fun _ => ?_
  cases s.binding with
  | unbound => simp
  | literal => simp
  | reference t => cases t <;> simp

theorem lt_of_hasTarget_input {id : InputId} (h : n.HasTarget (.input id)) :
    id.param < n.params.length := by
  obtain ⟨type, htype⟩ := h
  obtain ⟨i, hi, -⟩ := Option.map_eq_some_iff.1 htype
  obtain ⟨p, hp, -⟩ := Option.bind_eq_some_iff.1 hi
  exact (List.getElem?_eq_some_iff.1 hp).1

/-- A prepared network refers to inputs that exist. -/
theorem Prepared.resolved (hn : n.Prepared) (hwired : n.OutputsWired) : n.Resolved where
  order := hn.forward.perm
  slots d hd p hp input hinput := by
    obtain ⟨s, hs, id, ht, rfl⟩ := mem_inputsReferredTo.1 hinput
    obtain ⟨i, hi⟩ := List.getElem?_of_mem hd
    obtain ⟨j, hj⟩ := List.getElem?_of_mem hp
    obtain ⟨a, ha⟩ := List.getElem?_of_mem hs
    have hslot : n.slot? ⟨i, j, a⟩ = some s :=
      slot?_eq_some.2 ⟨d, hi, Declaration.slot?_eq_some.2 ⟨p, hj, ha⟩⟩
    exact lt_of_hasTarget_input (hn.hasTarget _ s _ hslot ht)
  outputs b hb id ht := lt_of_hasTarget_input (hwired b hb _ ht)

end Network

end Blockwork
