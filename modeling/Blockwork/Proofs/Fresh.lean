import Blockwork.Proofs.Bindings
import Blockwork.Proofs.Interfaces

/-!
# Fresh declarations

A declaration is fresh as long as nothing is frozen: its attributes and outputs are those of a
sound interface, its pipelines are complete, and its literals have the declared types. Linking
gives fresh declarations, and expanding star references and resolving texts keeps them fresh
(`Network.Fresh.resolveReferences`).
-/

namespace Blockwork

variable {h : Hierarchy}

/-- The attribute as it is linked for a formal one: not frozen, a pipeline if that is one, and
with a literal of its type if it holds one. -/
structure Slot.Fresh (h : Hierarchy) (f : FormalAttribute) (s : Slot) : Prop where
  declared : s.declared = f.type
  frozen : s.frozen = none
  feeds : s.feeds = f.pipelineOutputs
  literal : ∀ v, s.binding = .literal v → h.assignable s.declared (h.literalType v) = true

/-- The occurrence of a parameter of the interface, with fresh attributes. -/
def Parameter.Fresh (h : Hierarchy) (i : Interface) (q : Parameter) : Prop :=
  ∃ f, i.parameters[q.formal]? = some f ∧ ∀ (a : Nat) (s : Slot), q.slots[a]? = some s →
    ∃ fa, f.attributes[a]? = some fa ∧ s.Fresh h fa

/-- The output into which nothing has flowed, and which knows all attributes that feed it. -/
structure Output.Fresh (d : Declaration) (k : Nat) (o : Output) : Prop where
  result : o.result = none
  formal : ∃ f, d.specification.interface.outputs[k]? = some f ∧ o.declared = f.type
  fedBy : ∀ p a, (p, a) ∈ o.fedBy ↔ ∃ s, d.slot? p a = some s ∧ k ∈ s.feeds

/-- The declaration of something with a sound interface, with nothing frozen. -/
structure Declaration.Fresh (h : Hierarchy) (d : Declaration) : Prop where
  sound : d.specification.interface.Sound h
  parameters : ∀ q ∈ d.parameters, q.Fresh h d.specification.interface
  outputs : ∀ (k : Nat) (o : Output), d.outputs[k]? = some o → o.Fresh d k

/-- All declarations are fresh. -/
def Network.Fresh (n : Network) : Prop :=
  ∀ i d, n.declaration? i = some d → d.Fresh n.types

/-- A network as linking makes it: of well-formed types that know their literals, and with
fresh declarations that hold texts and literals, in the order of the draft. -/
structure Network.WellLinked (n : Network) : Prop where
  types : n.types.WellFormed
  literals : n.types.KnowsLiterals
  fresh : n.Fresh
  given : n.Given
  order : n.order = n.positions

/-! ## Indexed pipelines -/

namespace Declaration

variable {d : Declaration}

theorem mem_feeders {k p a : Nat} :
    (p, a) ∈ d.feeders k ↔ ∃ s, d.slot? p a = some s ∧ k ∈ s.feeds := by
  unfold feeders
  simp only [List.mem_flatMap, Prod.exists, mem_slots, List.mem_map, List.mem_filter,
    beq_iff_eq]
  constructor
  · rintro ⟨p', a', s, hs, k', ⟨hk, rfl⟩, hpa⟩
    obtain ⟨rfl, rfl⟩ := Prod.mk.inj hpa
    exact ⟨s, hs, hk⟩
  · rintro ⟨s, hs, hk⟩
    exact ⟨p, a, s, hs, k, ⟨hk, rfl⟩, rfl⟩

/-- Indexing completes the pipelines of a declaration that is fresh otherwise. -/
theorem fresh_indexPipelines (hsound : d.specification.interface.Sound h)
    (hparams : ∀ q ∈ d.parameters, q.Fresh h d.specification.interface)
    (hout : ∀ (k : Nat) (o : Output), d.outputs[k]? = some o → o.result = none ∧
      ∃ f, d.specification.interface.outputs[k]? = some f ∧ o.declared = f.type) :
    d.indexPipelines.Fresh h := by
  refine ⟨hsound, hparams, fun k o ho => ?_⟩
  unfold indexPipelines at ho
  simp only [List.getElem?_map, List.getElem?_zipIdx, Option.map_map, Nat.zero_add] at ho
  obtain ⟨o', ho', rfl⟩ := Option.map_eq_some_iff.1 ho
  obtain ⟨hresult, hformal⟩ := hout k o' ho'
  exact ⟨hresult, hformal, fun p a => mem_feeders⟩

end Declaration

/-! ## Linking -/

/-- An attribute linked for a sound formal one is fresh. -/
theorem ParamDraft.fresh_linkSlot (hw : h.WellFormed) (hk : h.KnowsLiterals)
    {declaration : String} {p : ParamDraft} {location : Location} {outputs : List FormalOutput}
    {f : FormalAttribute} {s : Slot} (hf : f.Sound h outputs)
    (hok : p.linkSlot h declaration location f = .ok s) : s.Fresh h f := by
  unfold linkSlot at hok
  simp only at hok
  split at hok
  · obtain rfl := Except.ok.inj hok
    exact ⟨rfl, rfl, rfl, fun v hv => by simp at hv⟩
  · split at hok
    · rename_i w hcoerce
      obtain rfl := Except.ok.inj hok
      refine ⟨rfl, rfl, rfl, fun v hv => ?_⟩
      obtain rfl := Binding.literal.inj hv
      exact hk.assignable_of_coerce? hw hcoerce
    · simp [reject] at hok
  · split at hok
    · rename_i w hdefault
      obtain rfl := Except.ok.inj hok
      refine ⟨rfl, rfl, rfl, fun v hv => ?_⟩
      obtain rfl := Binding.literal.inj hv
      exact hf.default w hdefault
    · simp [reject] at hok

theorem DeclarationDraft.fresh_linkParam (hw : h.WellFormed) (hk : h.KnowsLiterals)
    {d : DeclarationDraft} {s : Specification} {location : Location} {p : ParamDraft}
    {q : Parameter} (hs : s.interface.Sound h) (hok : d.linkParam h s location p = .ok q) :
    q.Fresh h s.interface := by
  unfold linkParam at hok
  split at hok
  · simp [reject] at hok
  · rename_i index _
    split at hok
    · simp at hok
    · rename_i formal hformal
      unfold ParamDraft.link at hok
      obtain ⟨_, -, hok⟩ := bind_eq_ok.1 hok
      obtain ⟨slots, hslots, hok⟩ := bind_eq_ok.1 hok
      obtain rfl := pure_eq_ok.1 hok
      refine ⟨formal, hformal, fun a s hs' => ?_⟩
      obtain ⟨fa, hfa, hlink⟩ := getElem?_of_mapM_eq_ok hslots hs'
      exact ⟨fa, hfa, ParamDraft.fresh_linkSlot hw hk
        (hs.attributes formal (List.mem_of_getElem? hformal) fa (List.mem_of_getElem? hfa)) hlink⟩

/-- A declaration linked to something with a sound interface is fresh. -/
theorem DeclarationDraft.fresh_link (hw : h.WellFormed) (hk : h.KnowsLiterals)
    {d : DeclarationDraft} {s : Specification} {location : Location} {decl : Declaration}
    (hs : s.interface.Sound h) (hok : d.link h s location = .ok decl) : decl.Fresh h := by
  unfold link at hok
  obtain ⟨parameters, hparams, hok⟩ := bind_eq_ok.1 hok
  obtain rfl := pure_eq_ok.1 hok
  refine Declaration.fresh_indexPipelines hs (fun q hq => ?_) fun k o ho => ?_
  · obtain ⟨i, hi⟩ := List.getElem?_of_mem hq
    obtain ⟨p, -, hp⟩ := getElem?_of_mapM_eq_ok hparams hi
    exact fresh_linkParam hw hk hs hp
  · simp only [List.getElem?_map] at ho
    obtain ⟨f, hf, rfl⟩ := Option.map_eq_some_iff.1 ho
    exact ⟨rfl, f, hf, rfl⟩

/-! ## Expanding star references -/

theorem Slot.Fresh.substitute {f : FormalAttribute} {s : Slot} (hs : s.Fresh h f)
    (star reference : String) : (s.substitute star reference).Fresh h f := by
  unfold Slot.substitute
  split
  · exact ⟨hs.declared, hs.frozen, hs.feeds, hs.literal⟩
  · exact hs

theorem Parameter.Fresh.substitute {i : Interface} {q : Parameter} (hq : q.Fresh h i)
    (star reference : String) : (q.substitute star reference).Fresh h i := by
  obtain ⟨f, hf, hslots⟩ := hq
  refine ⟨f, hf, fun a s hs => ?_⟩
  unfold Parameter.substitute at hs
  rw [List.getElem?_map] at hs
  obtain ⟨t, ht, rfl⟩ := Option.map_eq_some_iff.1 hs
  obtain ⟨fa, hfa, hfresh⟩ := hslots a t ht
  exact ⟨fa, hfa, hfresh.substitute star reference⟩

namespace Network

variable {n m : Network}

theorem fresh_expandParameter {i : Interface} {d : Declaration} {q : Parameter}
    {qs : List Parameter} (hq : q.Fresh h i) (hok : n.expandParameter d q = .ok qs) :
    ∀ q' ∈ qs, q'.Fresh h i := by
  unfold expandParameter at hok
  split at hok
  · obtain rfl := Except.ok.inj hok
    simpa using hq
  · split at hok
    · obtain ⟨references, -, hok⟩ := bind_eq_ok.1 hok
      obtain rfl := pure_eq_ok.1 hok
      intro q' hq'
      obtain ⟨reference, -, rfl⟩ := List.mem_map.1 hq'
      exact hq.substitute _ reference
    · simp [reject] at hok

theorem fresh_expandDeclaration {d d' : Declaration} (hd : d.Fresh h)
    (hok : n.expandDeclaration d = .ok d') : d'.Fresh h := by
  unfold expandDeclaration at hok
  split at hok
  · exact Except.ok.inj hok ▸ hd
  · obtain ⟨qss, hqss, hok⟩ := bind_eq_ok.1 hok
    obtain rfl := pure_eq_ok.1 hok
    refine Declaration.fresh_indexPipelines hd.sound (fun q hq => ?_) fun k o ho =>
      ⟨(hd.outputs k o ho).result, (hd.outputs k o ho).formal⟩
    obtain ⟨qs, hqs, hq⟩ := List.mem_flatten.1 hq
    obtain ⟨i, hi⟩ := List.getElem?_of_mem hqs
    obtain ⟨q₀, hq₀, hexpand⟩ := getElem?_of_mapM_eq_ok hqss hi
    exact fresh_expandParameter (hd.parameters q₀ (List.mem_of_getElem? hq₀)) hexpand q hq

theorem Fresh.expandStars (hn : n.Fresh) (hok : n.expandStars = .ok m) :
    m.types = n.types ∧ m.Fresh := by
  unfold Network.expandStars at hok
  obtain ⟨declarations, hds, hok⟩ := bind_eq_ok.1 hok
  obtain rfl := pure_eq_ok.1 hok
  refine ⟨rfl, fun i d hd => ?_⟩
  obtain ⟨d₀, hd₀, hexpand⟩ := getElem?_of_mapM_eq_ok hds hd
  exact fresh_expandDeclaration (hn i d₀ hd₀) hexpand

/-! ## Resolving texts -/

/-- An attribute is resolved to a reference or to a literal of its declared type. -/
theorem fresh_bindSlot (hw : n.types.WellFormed) (hk : n.types.KnowsLiterals)
    {index : String → Option Target} {d : Declaration} {p a : Nat} {s s' : Slot}
    (hok : n.bindSlot index d p a s = .ok s') :
    s'.feeds = s.feeds ∧ ∀ f, s.Fresh n.types f → s'.Fresh n.types f := by
  unfold bindSlot at hok
  split at hok
  · obtain ⟨binding, hbind, hok⟩ := bind_eq_ok.1 hok
    obtain rfl := pure_eq_ok.1 hok
    refine ⟨rfl, fun f hs => ⟨hs.declared, hs.frozen, hs.feeds, fun v hv => ?_⟩⟩
    obtain rfl : binding = .literal v := hv
    unfold bindText at hbind
    split at hbind
    · split at hbind
      · simp at hbind
      · simp [reject] at hbind
    · split at hbind
      · rename_i hread
        obtain rfl := Binding.literal.inj (Except.ok.inj hbind)
        exact hk.assignable_of_readLiteral hw hread
      · simp [reject] at hbind
  · obtain rfl := Except.ok.inj hok
    exact ⟨rfl, fun _ hs => hs⟩

/-- Resolving takes each occurrence of a parameter to one with every attribute resolved. -/
theorem getElem?_bindDeclaration {index : String → Option Target} {d d' : Declaration}
    (hok : n.bindDeclaration index d = .ok d') :
    d' = { d with parameters := d'.parameters } ∧ ∀ i : Nat,
      (d'.parameters[i]?.isNone ∧ d.parameters[i]?.isNone) ∨
        ∃ q q', d.parameters[i]? = some q ∧ d'.parameters[i]? = some q' ∧
          q'.formal = q.formal ∧ ∀ a : Nat, q'.slots[a]?.map Except.ok =
            q.slots[a]?.map fun s => n.bindSlot index d i a s := by
  unfold bindDeclaration at hok
  obtain ⟨parameters, hparams, hok⟩ := bind_eq_ok.1 hok
  obtain rfl := pure_eq_ok.1 hok
  refine ⟨rfl, fun i => ?_⟩
  have heq := congrArg (fun l => l[i]?) (mapM_eq_ok.1 hparams)
  simp only [List.getElem?_map, List.getElem?_zipIdx, Option.map_map, Nat.zero_add] at heq
  cases hq : d.parameters[i]? with
  | none =>
    rw [hq, Option.map_none, eq_comm, Option.map_eq_none_iff] at heq
    exact Or.inl ⟨by simp [heq], rfl⟩
  | some q =>
    rw [hq, Option.map_some, eq_comm] at heq
    obtain ⟨q', hq', heq⟩ := Option.map_eq_some_iff.1 heq
    obtain ⟨slots, hslots, heq⟩ := bind_eq_ok.1 heq.symm
    obtain rfl := pure_eq_ok.1 heq
    refine Or.inr ⟨q, _, rfl, hq', rfl, fun a => ?_⟩
    have hslot := congrArg (fun l => l[a]?) (mapM_eq_ok.1 hslots)
    simp only [List.getElem?_map, List.getElem?_zipIdx, Option.map_map, Nat.zero_add] at hslot
    exact hslot.symm

theorem fresh_bindDeclaration (hw : n.types.WellFormed) (hk : n.types.KnowsLiterals)
    {index : String → Option Target} {d d' : Declaration} (hd : d.Fresh n.types)
    (hok : n.bindDeclaration index d = .ok d') : d'.Fresh n.types := by
  obtain ⟨heq, hparams⟩ := getElem?_bindDeclaration hok
  have hfeeds : ∀ (p a k : Nat), (∃ s, d'.slot? p a = some s ∧ k ∈ s.feeds) ↔
      ∃ s, d.slot? p a = some s ∧ k ∈ s.feeds := by
    intro p a k
    rcases hparams p with ⟨hnone', hnone⟩ | ⟨q, q', hq, hq', -, hslots⟩
    · rw [Option.isNone_iff_eq_none] at hnone hnone'
      simp [Declaration.slot?, hnone, hnone']
    · have hslot := hslots a
      simp only [Declaration.slot?, hq, hq', Option.bind_eq_bind, Option.bind_some]
      cases hs : q.slots[a]? with
      | none =>
        rw [hs, Option.map_none, Option.map_eq_none_iff] at hslot
        simp [hslot]
      | some s =>
        rw [hs, Option.map_some] at hslot
        obtain ⟨s', hs', hbind⟩ := Option.map_eq_some_iff.1 hslot
        simp [hs', (fresh_bindSlot hw hk hbind.symm).1]
  have hspec : d'.specification = d.specification := by rw [heq]
  refine ⟨hspec ▸ hd.sound, fun q' hq' => ?_, fun k o ho => ?_⟩
  · obtain ⟨i, hi⟩ := List.getElem?_of_mem hq'
    rcases hparams i with ⟨hnone', -⟩ | ⟨q, q'', hq, hq'', hformal, hslots⟩
    · simp [hi] at hnone'
    · obtain rfl := Option.some.inj (hi.symm.trans hq'')
      obtain ⟨f, hf, hfresh⟩ := hd.parameters q (List.mem_of_getElem? hq)
      rw [hspec]
      refine ⟨f, hformal ▸ hf, fun a s' hs' => ?_⟩
      have hslot := hslots a
      rw [hs', Option.map_some, eq_comm] at hslot
      obtain ⟨s, hs, hbind⟩ := Option.map_eq_some_iff.1 hslot
      obtain ⟨fa, hfa, hsfresh⟩ := hfresh a s hs
      exact ⟨fa, hfa, (fresh_bindSlot hw hk hbind).2 fa hsfresh⟩
  · rw [heq] at ho
    have hfresh := hd.outputs k o ho
    refine ⟨hfresh.result, hspec ▸ hfresh.formal, fun p a => ?_⟩
    rw [hfeeds, hfresh.fedBy]

theorem Fresh.resolveReferences (hw : n.types.WellFormed) (hk : n.types.KnowsLiterals)
    (hn : n.Fresh) (hok : n.resolveReferences = .ok m) : m.types = n.types ∧ m.Fresh := by
  unfold Network.resolveReferences at hok
  obtain ⟨c, hc, hok⟩ := bind_eq_ok.1 hok
  obtain ⟨outputs, -, hok⟩ := bind_eq_ok.1 hok
  obtain rfl := pure_eq_ok.1 hok
  obtain ⟨htypes, hfresh⟩ := foldlM_invariant
    (fun _ (c : Network) => c.types = n.types ∧ c.Fresh)
    (fun i _ c c' ⟨htypes, hc⟩ hstep => by
      unfold bindAt at hstep
      obtain ⟨d, hd, hstep⟩ := bind_eq_ok.1 hstep
      obtain ⟨d', hbind, hstep⟩ := bind_eq_ok.1 hstep
      obtain rfl := pure_eq_ok.1 hstep
      refine ⟨htypes, fun j e he => ?_⟩
      rw [declaration?_modifyDeclaration] at he
      split at he
      · obtain ⟨_, -, rfl⟩ := Option.map_eq_some_iff.1 he
        have hdfresh := hc i d (require_eq_ok.1 hd)
        rw [htypes] at hdfresh
        show Declaration.Fresh c.types d'
        rw [htypes]
        exact fresh_bindDeclaration hw hk hdfresh hbind
      · exact hc j e he)
    ⟨rfl, hn⟩ hc
  exact ⟨htypes, hfresh⟩

end Network

end Blockwork
