import Blockwork.Proofs.Preparation
import Blockwork.Proofs.References

/-!
# The types of a completed network

In a completed network the type of a pipeline that something of known type is connected to is
fixed by the first such thing, whatever else is connected to it. So a literal has the type its
attribute requires in the end unless another attribute fixed it to a type the literal does not
have (`literal_assignable_iff`), and an output keeps within its declared type unless one of its
pipelines was fixed to a type outside of it (`output_assignable_iff`).
-/

namespace Blockwork

namespace Declaration

/-- The formal attribute of an attribute. -/
def formal? (d : Declaration) (x : Nat × Nat) : Option FormalAttribute := do
  let q ← d.parameters[x.1]?
  let _ ← q.slots[x.2]?
  let f ← d.specification.interface.parameters[q.formal]?
  f.attributes[x.2]?

/-- The outputs an attribute is declared to be a pipeline into. -/
def formalFeeds (d : Declaration) (x : Nat × Nat) : List Nat :=
  ((d.formal? x).map FormalAttribute.pipelineOutputs).getD []

theorem formal?_bare (d : Declaration) : d.bare.formal? = d.formal? := by
  funext x
  unfold formal? bare
  simp only [List.getElem?_map]
  cases d.parameters[x.1]? with
  | none => rfl
  | some q =>
    simp only [Option.map_some, Option.bind_eq_bind, Option.bind_some, Parameter.bare,
      List.getElem?_map]
    cases q.slots[x.2]? <;> rfl

theorem formalFeeds_congr {d d' : Declaration} (h : d'.bare = d.bare) :
    d'.formalFeeds = d.formalFeeds := by
  unfold formalFeeds
  rw [← formal?_bare d', h, formal?_bare]

/-- In a fresh declaration the pipelines are the declared ones. -/
theorem Fresh.feedsAt_eq {h : Hierarchy} {d : Declaration} (hd : d.Fresh h) :
    d.feedsAt = d.formalFeeds := by
  funext ⟨p, a⟩
  unfold formalFeeds formal? feedsAt slot?
  cases hq : d.parameters[p]? with
  | none => rfl
  | some q =>
    cases hs : q.slots[a]? with
    | none => simp [hs]
    | some s =>
      obtain ⟨q', f, fa, hq', hf, hfa, hfresh, -⟩ := hd.slot (slot?_eq_some.2 ⟨q, hq, hs⟩)
      obtain rfl := Option.some.inj (hq.symm.trans hq')
      simp [hs, hf, hfa, hfresh.feeds]

end Declaration

namespace Network

variable {n m : Network}

/-- The type that reaches an attribute through the pipelines of its declaration: that of the
first attribute connected to it which holds something of known type. -/
def FrozenBy (n : Network) (id : SlotId) (type : ClassType) : Prop :=
  ∃ d, n.declaration? id.declaration = some d ∧
    Freezing d.formalFeeds (n.knownAt d) (d.slots.map Prod.fst) (id.param, id.attr) type

/-- The type that reaches an output: one that reaches an attribute declared to be a pipeline
into it. -/
def OutputFrozenBy (n : Network) (id : OutputId) (type : ClassType) : Prop :=
  ∃ d x, n.declaration? id.declaration = some d ∧ id.output ∈ d.formalFeeds x ∧
    n.FrozenBy ⟨id.declaration, x.1, x.2⟩ type

namespace Compilation

variable (k : Compilation n m)

theorem types_eq : m.types = k.frozen.types := by
  rw [← k.types_unchecked]
  unfold unchecked
  rw [setInputs_eq]
  rfl

theorem frozen_types_eq : k.frozen.types = k.resolved.types :=
  (congrArg Network.types (bare_freezePipelines k.freeze_eq) :)

/-- The sorted network is fresh if the linked one was. -/
theorem fresh_sorted (hn : n.WellLinked) :
    k.resolved.types = n.types ∧ (k.resolved.setOrder k.order).Fresh := by
  obtain ⟨htypes, -, hfresh, -⟩ := hn.sorted k.expand_eq k.resolve_eq k.sort_eq
  exact ⟨htypes, hfresh⟩

theorem types_linked (k : Compilation n m) (hn : n.WellLinked) : m.types = n.types := by
  rw [k.types_eq, k.frozen_types_eq, (k.fresh_sorted hn).1]

theorem wellFormed (k : Compilation n m) (hn : n.WellLinked) : m.types.WellFormed :=
  k.types_linked hn ▸ hn.types

/-- Each declaration of the frozen network was fresh before. -/
theorem exists_fresh (hn : n.WellLinked) {i : Nat} {e : Declaration}
    (he : k.frozen.declaration? i = some e) :
    ∃ d : Declaration, d.Fresh m.types ∧
      d.Frozen m.types (k.frozen.knownAt d) (d.slots.map Prod.fst) e := by
  obtain ⟨htypes, hfresh⟩ := k.fresh_sorted hn
  rw [k.types_eq]
  exact exists_fresh_of_freezePipelines (htypes ▸ hn.types) k.forward_sorted hfresh k.freeze_eq he

/-- Each declaration of the completed network was fresh, then frozen, then checked. -/
theorem exists_stages (hn : n.WellLinked) {i : Nat} {d' : Declaration}
    (hd' : m.declaration? i = some d') :
    ∃ d e : Declaration, d.Fresh m.types ∧ k.frozen.declaration? i = some e ∧
      d.Frozen m.types (k.frozen.knownAt d) (d.slots.map Prod.fst) e ∧ e.Checked m [] d' := by
  obtain ⟨e, he, hchecked⟩ := k.exists_checked hd'
  obtain ⟨d, hd, hfrozen⟩ := k.exists_fresh hn he
  exact ⟨d, e, hd, he, hfrozen, hchecked⟩

/-- Checking does not change the types of outputs without pipelines. -/
theorem output?_eq (hn : n.WellLinked)
    (id : OutputId) :
    (m.output? id).bind (fun o => if o.isPipeline then none else some o.type) =
      (k.frozen.output? id).bind fun o => if o.isPipeline then none else some o.type := by
  cases hd' : m.declaration? id.declaration with
  | none =>
    have he := (declaration?_eq_none_of_bare k.bare_eq).1 hd'
    rw [k.declaration?_unchecked] at he
    unfold output?
    rw [hd', he]
  | some d' =>
    obtain ⟨d, e, hd, he, hfrozen, hchecked⟩ := k.exists_stages hn hd'
    have hlinked := hfrozen.linked hd.linked
    unfold output?
    rw [hd', he]
    show d'.outputs[id.output]?.bind _ = e.outputs[id.output]?.bind _
    cases ho' : d'.outputs[id.output]? with
    | none => rw [(Declaration.outputs_eq_none_of_bare hchecked.bare).1 ho']
    | some o' =>
      obtain ⟨o, ho, heq, -⟩ := hchecked.outputs id.output o' ho'
      rw [ho]
      by_cases hnil : o.fedBy = []
      · have hsame := hchecked.output_eq ho' fun p a s hs hk => by
          have hmem := (hlinked.fedBy id.output o ho p a).2 (Declaration.mem_feedsAt.2 ⟨s, hs, hk⟩)
          simp [hnil] at hmem
        rw [← ho, hsame]
      · have hpipeline : o.isPipeline = true ∧ o'.isPipeline = true := by
          rw [heq]
          simpa [Output.isPipeline] using hnil
        simp [hpipeline]

/-- What is known of types when declarations are frozen is still known in the end. -/
theorem knownAt_eq (hn : n.WellLinked) (d : Declaration) : m.knownAt d = k.frozen.knownAt d := by
  funext x
  refine congrArg (Option.bind _) (funext fun s => ?_)
  unfold knownType?
  rw [k.types_eq]
  split
  · rfl
  · exact k.output?_eq hn _
  · rfl

/-- The types that reach the attributes of a declaration, as it was when it was frozen. -/
theorem frozenBy_iff (hn : n.WellLinked) {i : Nat} {d d' : Declaration} (hd : d.Fresh m.types)
    (hd' : m.declaration? i = some d') (hbare : d'.bare = d.bare) {p a : Nat} {t : ClassType} :
    m.FrozenBy ⟨i, p, a⟩ t ↔
      Freezing d.feedsAt (k.frozen.knownAt d) (d.slots.map Prod.fst) (p, a) t := by
  have hknown : m.knownAt d' = k.frozen.knownAt d := by
    rw [knownAt_congr hbare, k.knownAt_eq hn]
  unfold FrozenBy
  rw [hd.feedsAt_eq, ← Declaration.formalFeeds_congr hbare, ← hknown,
    ← Declaration.positions_bare hbare]
  constructor
  · rintro ⟨e, he, ht⟩
    obtain rfl := Option.some.inj (hd'.symm.trans he)
    exact ht
  · exact fun ht => ⟨d', hd', ht⟩

/-- The types that reach attributes are formed. -/
theorem formed_of_freezing (k : Compilation n m) (hn : n.WellLinked)
    {feeds : Nat × Nat → List Nat} {d : Declaration} {order : List (Nat × Nat)} {x : Nat × Nat}
    {t : ClassType} (ht : Freezing feeds (k.frozen.knownAt d) order x t) : m.types.Formed t := by
  rw [k.types_eq]
  exact (k.prepared hn).outputs.of_freezing (k.prepared hn).types ht

/-- A literal has the type its attribute requires in the end just if it has the type that fixed
the attribute, in case one did. -/
theorem literal_assignable_iff (k : Compilation n m) (hn : n.WellLinked) {id : SlotId} {s : Slot}
    {v : Literal} (hs : m.slot? id = some s) (hv : s.binding = .literal v) :
    m.types.assignable s.type (m.types.literalType v) = true ↔
      ∀ t, m.FrozenBy id t → m.types.assignable t (m.types.literalType v) = true := by
  obtain ⟨i, p, a⟩ := id
  obtain ⟨d', hd', hs'⟩ := slot?_eq_some.1 hs
  obtain ⟨d, e, hd, -, hfrozen, hchecked⟩ := k.exists_stages hn hd'
  have hiff := fun t => k.frozenBy_iff hn hd hd' (hchecked.bare.trans hfrozen.bare) (p := p)
    (a := a) (t := t)
  have hw : m.types.WellFormed := k.wellFormed hn
  rw [Declaration.slot?_congr hchecked.parameters] at hs'
  obtain ⟨s₀, hs₀, ⟨t, ht, merged, hmerged, rfl⟩ | ⟨hnone, rfl⟩⟩ := hfrozen.slot p a s hs'
  · obtain ⟨_, _, _, -, -, -, hfresh, hsound⟩ := hd.slot hs₀
    have hdeclared : m.types.Formed s₀.declared := hfresh.declared ▸ hsound.formed
    have hformed := k.formed_of_freezing hn ht
    show m.types.assignable merged _ = true ↔ _
    constructor
    · intro hassign t' ht'
      rw [← ht.unique ((hiff t').1 ht')]
      exact hw.assignable_trans (hw.assignable_merge hformed hdeclared hmerged).1 hassign
    · exact fun hall => Hierarchy.merge_assignable hmerged
        (hall t ((hiff t).2 ht)) (hfresh.literal v hv)
  · obtain ⟨_, _, _, -, -, -, hfresh, -⟩ := hd.slot hs₀
    have hassign : m.types.assignable s.type (m.types.literalType v) = true := by
      unfold Slot.type
      rw [hfresh.frozen]
      exact hfresh.literal v hv
    exact ⟨fun _ t ht => absurd ((hiff t).1 ht) (hnone t), fun _ => hassign⟩

/-- The types that reach the outputs of a declaration, as it was when it was frozen. -/
theorem outputFrozenBy_iff (hn : n.WellLinked) {i j : Nat} {d d' : Declaration}
    (hd : d.Fresh m.types) (hd' : m.declaration? i = some d') (hbare : d'.bare = d.bare)
    {t : ClassType} : m.OutputFrozenBy ⟨i, j⟩ t ↔ ∃ x, j ∈ d.feedsAt x ∧
      Freezing d.feedsAt (k.frozen.knownAt d) (d.slots.map Prod.fst) x t := by
  have hfeeds : d'.formalFeeds = d.feedsAt := by
    rw [hd.feedsAt_eq, Declaration.formalFeeds_congr hbare]
  constructor
  · rintro ⟨e, x, he, hj, ht⟩
    obtain rfl := Option.some.inj (hd'.symm.trans he)
    exact ⟨x, hfeeds ▸ hj, (k.frozenBy_iff hn hd hd' hbare).1 ht⟩
  · rintro ⟨x, hj, ht⟩
    exact ⟨d', x, hd', hfeeds ▸ hj, (k.frozenBy_iff hn hd hd' hbare).2 ht⟩

/-- What checking records on an output that is not frozen keeps within the declared type, since
the pipelines do. -/
theorem assignable_of_unfrozen (k : Compilation n m) (hn : n.WellLinked) {d e d' : Declaration}
    (hd : d.Fresh m.types)
    (hfrozen : d.Frozen m.types (k.frozen.knownAt d) (d.slots.map Prod.fst) e)
    (hchecked : e.Checked m [] d') {j : Nat} {o o' : Output} (ho : d.outputs[j]? = some o)
    (hoₑ : e.outputs[j]? = some o) (ho' : d'.outputs[j]? = some o') :
    m.types.assignable o'.declared o'.type = true := by
  have hw : m.types.WellFormed := k.wellFormed hn
  have hformed := hd.formed_declared ho
  obtain ⟨oₑ, hoₑ', heq, hP⟩ := hchecked.outputs j o' ho'
  obtain rfl := Option.some.inj (hoₑ.symm.trans hoₑ')
  have hresult : ∀ r, o'.result = some r → m.types.assignable o.declared r = true := by
    refine hP (fun r => ∀ t, r = some t → m.types.assignable o.declared t = true)
      (fun r hr => ?_) fun p a s provided r hs hmem hassign hr t ht => ?_
    · rw [(hd.outputs j o ho).result] at hr
      cases hr
    · obtain ⟨s₀, hs₀, ⟨_, -, _, -, rfl⟩ | ⟨-, rfl⟩⟩ := hfrozen.slot p a s hs
      · simp at hmem
      · rw [← Option.some.inj ht]
        exact hw.assignable_widen hformed.base hr
          (hw.assignable_trans (hd.assignable_of_feeds hs₀ hmem ho) hassign)
  rw [show o'.declared = o.declared by rw [heq]]
  unfold Output.type
  cases hr : o'.result with
  | none =>
    rw [Option.getD_none, show o'.declared = o.declared by rw [heq]]
    exact hw.assignable_refl hformed
  | some r => exact hresult r hr

/-- An output keeps within its declared type just if the type that reached it does, in case one
did. -/
theorem output_assignable_iff (k : Compilation n m) (hn : n.WellLinked) {id : OutputId}
    {o : Output} (ho : m.output? id = some o) :
    m.types.assignable o.declared o.type = true ↔
      ∀ t, m.OutputFrozenBy id t → m.types.assignable o.declared t = true := by
  obtain ⟨i, j⟩ := id
  obtain ⟨d', hd', ho'⟩ := output?_eq_some.1 ho
  obtain ⟨d, e, hd, -, hfrozen, hchecked⟩ := k.exists_stages hn hd'
  have hw : m.types.WellFormed := k.wellFormed hn
  have hlinked := hfrozen.linked hd.linked
  have hiff := fun t => k.outputFrozenBy_iff hn hd hd' (hchecked.bare.trans hfrozen.bare) (j := j)
    (t := t)
  obtain ⟨oₑ, hoₑ, -, -⟩ := hchecked.outputs j o ho'
  obtain ⟨o₀, ho₀, ⟨x, t, hj, ht, r, -, htr, hrt, rfl⟩ | ⟨hnone, rfl⟩⟩ :=
    hfrozen.output j oₑ hoₑ
  · -- Fixed by a type, and as no pipeline is left, checking changed nothing.
    have hsame := hchecked.output_eq ho' fun p a s hs hmem => by
      have hmem := (hlinked.fedBy j _ hoₑ p a).2 (Declaration.mem_feedsAt.2 ⟨s, hs, hmem⟩)
      simp at hmem
    rw [hoₑ] at hsame
    obtain rfl := Option.some.inj hsame
    show m.types.assignable o₀.declared r = true ↔ _
    constructor
    · intro hassign t' ht'
      obtain ⟨y, hj', ht'⟩ := (hiff t').1 ht'
      rw [← (ht.of_connected (.of_mem hj hj')).unique ht']
      exact hw.assignable_trans hassign hrt
    · intro hall
      exact hw.assignable_trans (hall t ((hiff t).2 ⟨x, hj, ht⟩)) htr
  · -- Not fixed: what checking records is accepted by the pipelines, and they fit the output.
    have hassign := k.assignable_of_unfrozen hn hd hfrozen hchecked ho₀ hoₑ ho'
    refine ⟨fun _ t ht => ?_, fun _ => hassign⟩
    obtain ⟨x, hj, ht⟩ := (hiff t).1 ht
    exact absurd ht (hnone x t hj)

end Compilation

end Network

end Blockwork
