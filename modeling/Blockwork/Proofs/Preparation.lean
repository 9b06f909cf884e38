import Blockwork.Proofs.Compilation
import Blockwork.Proofs.Frozen

/-!
# Prepared networks

Completing a network has three parts (`complete_eq`): it is prepared, its multiplicities and types
are inferred, and the types are checked. `Prepared` says what the later parts can rely on, and the
network that comes of a linked one is prepared (`WellLinked.prepared`).

A target is open if its type follows what is given for the block: an input, or an output that
pipelines still lead into. In a prepared network every pipeline carries what an open target
provides.
-/

namespace Blockwork

namespace Network

variable {n m f u : Network}

/-! ## The parts of completing -/

/-- The network with star references expanded, references resolved, an execution order and its
pipelines frozen. -/
def prepare (n : Network) : Except Fault Network := do
  let n ← n.expandStars
  let n ← n.resolveReferences
  let n := n.setOrder (← n.sort)
  n.freezePipelines

/-- The network with the multiplicities and types of its inputs and the types of its outputs. -/
def infer (n : Network) : Except Fault Network := do
  let n := n.setMultiplicities (← n.inferMultiplicities)
  let n := n.setInputs (← n.inferInputs)
  return n.setOutputTypes (← n.inferOutputTypes)

/-- To complete a network is to prepare it, to infer what is left open and to check the types. -/
theorem complete_eq (n : Network) :
    n.complete = n.prepare >>= fun f => f.infer >>= checkTypes := by
  simp [complete, prepare, infer]

theorem prepare_eq_ok : n.prepare = .ok f ↔ ∃ e r order, n.expandStars = .ok e ∧
    e.resolveReferences = .ok r ∧ r.sort = .ok order ∧
      (r.setOrder order).freezePipelines = .ok f := by
  simp only [prepare, bind_eq_ok]
  constructor
  · rintro ⟨e, he, r, hr, order, ho, hf⟩
    exact ⟨e, r, order, he, hr, ho, hf⟩
  · rintro ⟨e, r, order, he, hr, ho, hf⟩
    exact ⟨e, he, r, hr, order, ho, hf⟩

theorem infer_eq_ok : f.infer = .ok u ↔ ∃ ms ts os, f.inferMultiplicities = .ok ms ∧
    (f.setMultiplicities ms).inferInputs = .ok ts ∧
      ((f.setMultiplicities ms).setInputs ts).inferOutputTypes = .ok os ∧
        u = ((f.setMultiplicities ms).setInputs ts).setOutputTypes os := by
  simp only [infer, bind_eq_ok, pure_eq_ok]
  constructor
  · rintro ⟨ms, hms, ts, hts, os, hos, rfl⟩
    exact ⟨ms, ts, os, hms, hts, hos, rfl⟩
  · rintro ⟨ms, ts, os, hms, hts, hos, rfl⟩
    exact ⟨ms, hms, ts, hts, os, hos, rfl⟩

/-! ## What is prepared -/

/-- The type of the target follows what is given for the block. -/
def IsOpen (n : Network) : Target → Prop
  | .input _ => True
  | .output id => ∃ o, n.output? id = some o ∧ o.fedBy ≠ []

theorem IsOpen.congr {t : Target} (ht : n.IsOpen t) (hout : m.output? = n.output?) :
    m.IsOpen t := by
  cases t with
  | input => trivial
  | output id =>
    unfold IsOpen
    rw [hout]
    exact ht

/-- What the stages rely on that infer and check types: an execution order, links that are the
same from both ends, formed types, references to something that is there, and pipelines that carry
what open targets provide. -/
structure Prepared (n : Network) : Prop where
  types : n.types.WellFormed
  forward : n.Forward
  linked : ∀ i d, n.declaration? i = some d → d.Linked n.types
  slots : ∀ id s, n.slot? id = some s → n.types.Formed s.type
  outputs : n.OutputsFormed
  ordered : ∀ id s, n.slot? id = some s → s.feeds.Pairwise (· < ·)
  hasTarget : ∀ id s t, n.slot? id = some s → s.binding = .reference t → n.HasTarget t
  isOpen : ∀ id s, n.slot? id = some s → s.feeds ≠ [] →
    ∃ t, s.binding = .reference t ∧ n.IsOpen t

/-- Inferring multiplicities and types leaves a network prepared. -/
theorem Prepared.congr (hn : n.Prepared) (htypes : m.types = n.types)
    (hdecls : m.declarations = n.declarations) (horder : m.order = n.order)
    (hin : ∀ id, m.input? id = none ↔ n.input? id = none) : m.Prepared := by
  have hdeclaration := declaration?_congr hdecls
  have hslot := slot?_congr hdecls
  have hout := output?_congr hdecls
  refine ⟨htypes ▸ hn.types,
    hn.forward.of_declarations (congrArg (List.map Declaration.bare) hdecls) horder, ?_, ?_, ?_, ?_,
    fun id s t hs ht => ?_, fun id s hs hfeeds => ?_⟩
  · rw [hdeclaration, htypes]
    exact hn.linked
  · rw [hslot, htypes]
    exact hn.slots
  · unfold OutputsFormed
    rw [hout, htypes]
    exact hn.outputs
  · rw [hslot]
    exact hn.ordered
  · rw [hslot] at hs
    exact (hasTarget_congr (fun id => by rw [hout]) hin).2 (hn.hasTarget id s t hs ht)
  · rw [hslot] at hs
    obtain ⟨t, ht, hopen⟩ := hn.isOpen id s hs hfeeds
    exact ⟨t, ht, hopen.congr hout⟩

/-! ## Preparing -/

/-- Once references are resolved, the declarations are fresh, and all that attributes refer to is
there. -/
theorem WellLinked.resolved (hn : n.WellLinked) {e r : Network} (hexpand : n.expandStars = .ok e)
    (hresolve : e.resolveReferences = .ok r) :
    r.types = n.types ∧ r.Fresh ∧ ∀ id s, r.slot? id = some s → s.Bound r := by
  obtain ⟨htypes, hexpanded⟩ := hn.fresh.expandStars hexpand
  obtain ⟨htypes', hresolved⟩ :=
    hexpanded.resolveReferences (htypes ▸ hn.types) (htypes ▸ hn.literals) hresolve
  obtain ⟨hgiven, horder, hpositions⟩ := hn.given.expandStars hexpand
  exact ⟨htypes'.trans htypes, hresolved, fun _ _ hs =>
    hgiven.resolveReferences (by rw [horder, hpositions, hn.order]) hresolve hs⟩

/-- Before pipelines are frozen, the declarations are in order as well. -/
theorem WellLinked.sorted (hn : n.WellLinked) {e r : Network} {order : List Nat}
    (hexpand : n.expandStars = .ok e) (hresolve : e.resolveReferences = .ok r)
    (hsort : r.sort = .ok order) : (r.setOrder order).types = n.types ∧
      (r.setOrder order).Forward ∧ (r.setOrder order).Fresh ∧
        ∀ id s, (r.setOrder order).slot? id = some s → s.Bound (r.setOrder order) := by
  obtain ⟨htypes, hfresh, hbound⟩ := hn.resolved hexpand hresolve
  exact ⟨htypes, forward_of_sort hsort, hfresh, hbound⟩

/-- With the same bare network there are the same targets. -/
theorem HasTarget.of_bare {t : Target} (ht : n.HasTarget t) (h : m.bare = n.bare) :
    m.HasTarget t := by
  refine (hasTarget_congr (fun id => ?_) fun id => ?_).2 ht
  · unfold output?
    cases hd : m.declaration? id.declaration with
    | none =>
      rw [(declaration?_eq_none_of_bare h).1 hd]
    | some d' =>
      obtain ⟨d, hd, hbare⟩ := exists_declaration?_of_bare h hd
      rw [hd]
      exact Declaration.outputs_eq_none_of_bare hbare
  · unfold input?
    rw [show m.params = n.params from (congrArg Network.params h :)]

/-- An attribute that is still a pipeline refers to an open target. -/
theorem isOpen_of_known_eq_none {s : Slot} (hs : s.Bound n) (hknown : n.knownType? s = none) :
    ∃ t, s.binding = .reference t ∧ n.IsOpen t := by
  unfold knownType? at hknown
  rcases hs with ⟨v, hv⟩ | ⟨t, ht, htarget⟩
  · simp [hv] at hknown
  · refine ⟨t, ht, ?_⟩
    cases t with
    | input => trivial
    | output id =>
      obtain ⟨_, htype⟩ := htarget
      obtain ⟨o, ho, -⟩ := Option.map_eq_some_iff.1 htype
      simp only [ht, ho, Option.bind_some] at hknown
      refine ⟨o, ho, fun hnil => ?_⟩
      simp [Output.isPipeline, hnil] at hknown

/-- What attributes hold depends on the bare network. -/
theorem bound_of_bare (h : m.bare = n.bare) (hbound : ∀ id s, n.slot? id = some s → s.Bound n)
    {id : SlotId} {s' : Slot} (hs' : m.slot? id = some s') : s'.Bound m := by
  obtain ⟨s, hs, hsbare⟩ := exists_slot?_of_bare h hs'
  unfold Slot.Bound
  rw [show s'.binding = s.binding from (congrArg Slot.binding hsbare :)]
  exact (hbound id s hs).imp_right
    fun ⟨t, ht, htarget⟩ => ⟨t, ht, htarget.of_bare h⟩

/-- Freezing a sorted network of fresh declarations prepares it. -/
theorem prepared_of_freezePipelines (hw : n.types.WellFormed) (hforward : n.Forward)
    (hfresh : n.Fresh) (hbound : ∀ id s, n.slot? id = some s → s.Bound n)
    (h : n.freezePipelines = .ok f) : f.Prepared := by
  have hbare := bare_freezePipelines h
  have htypes : f.types = n.types := (congrArg Network.types hbare :)
  have houtputs : f.OutputsFormed := (freezePipelines_frozen hw hforward hfresh h).1
  have hstages := fun i e he =>
    exists_fresh_of_freezePipelines (i := i) (e := e) hw hforward hfresh h he
  rw [← htypes] at hw
  refine ⟨hw, hforward.of_declarations (congrArg Network.declarations hbare)
    (congrArg Network.order hbare :), fun i e he => ?_, fun id s hs => ?_, houtputs,
    fun id s hs => ?_, fun id s t hs ht => ?_, fun id s hs hfeeds => ?_⟩
  · obtain ⟨d, hd, hfrozen⟩ := hstages i e he
    exact hfrozen.linked hd.linked
  · obtain ⟨e, he, hs⟩ := slot?_eq_some.1 hs
    obtain ⟨d, hd, hfrozen⟩ := hstages _ e he
    exact hd.formed_of_frozen hfrozen (fun _ _ ht => houtputs.of_freezing hw ht) hs
  · obtain ⟨e, he, hs⟩ := slot?_eq_some.1 hs
    obtain ⟨d, hd, hfrozen⟩ := hstages _ e he
    exact hd.ordered_of_frozen hfrozen hs
  · rcases bound_of_bare hbare hbound hs with ⟨v, hv⟩ | ⟨t', ht', htarget⟩
    · simp [hv] at ht
    · exact Binding.reference.inj (ht'.symm.trans ht) ▸ htarget
  · refine isOpen_of_known_eq_none (bound_of_bare hbare hbound hs) ?_
    obtain ⟨e, he, hs⟩ := slot?_eq_some.1 hs
    obtain ⟨d, -, hfrozen⟩ := hstages _ e he
    obtain ⟨hs₀, hknown⟩ := hfrozen.unfrozen hs hfeeds
    unfold knownAt at hknown
    rwa [hs₀] at hknown

/-- A linked network is prepared in the end. -/
theorem WellLinked.prepared (hn : n.WellLinked) (h : n.prepare = .ok f) : f.Prepared := by
  obtain ⟨e, r, order, hexpand, hresolve, hsort, hfreeze⟩ := prepare_eq_ok.1 h
  obtain ⟨htypes, hforward, hfresh, hbound⟩ := hn.sorted hexpand hresolve hsort
  exact prepared_of_freezePipelines (htypes ▸ hn.types) hforward hfresh hbound hfreeze

theorem Compilation.prepared (k : Compilation n m) (hn : n.WellLinked) : k.frozen.Prepared :=
  hn.prepared (prepare_eq_ok.2 ⟨_, _, _, k.expand_eq, k.resolve_eq, k.sort_eq, k.freeze_eq⟩)

end Network

end Blockwork
