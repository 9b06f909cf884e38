import Blockwork.Proofs.Freezing
import Blockwork.Proofs.Fresh

/-!
# The frozen network

Freezing a forward network of fresh declarations freezes every pipeline that is connected to
something of known type, by the first such type, and nothing else (`freezePipelines_frozen`).
What is known of a type when a declaration is frozen is still so in the frozen network, since
what it refers to was frozen before.
-/

namespace Blockwork

theorem Declaration.Fresh.slot {h : Hierarchy} {d : Declaration} (hd : d.Fresh h) {p a : Nat}
    {s : Slot} (hs : d.slot? p a = some s) : ∃ q f fa, d.parameters[p]? = some q ∧
      d.specification.interface.parameters[q.formal]? = some f ∧ f.attributes[a]? = some fa ∧
        s.Fresh h fa ∧ fa.Sound h d.specification.interface.outputs := by
  obtain ⟨q, hq, hs⟩ := slot?_eq_some.1 hs
  obtain ⟨f, hf, hslots⟩ := hd.parameters q (List.mem_of_getElem? hq)
  obtain ⟨fa, hfa, hfresh⟩ := hslots a s hs
  exact ⟨q, f, fa, hq, hf, hfa, hfresh,
    hd.sound.attributes f (List.mem_of_getElem? hf) fa (List.mem_of_getElem? hfa)⟩

theorem Declaration.Fresh.linked {h : Hierarchy} {d : Declaration} (hd : d.Fresh h) :
    d.Linked h := by
  refine ⟨fun k o ho p a => ?_, fun p a s hs _ => ?_, fun k o ho _ => (hd.outputs k o ho).result,
    fun p a s hs => ?_⟩
  · rw [(hd.outputs k o ho).fedBy, mem_feedsAt]
  · obtain ⟨_, _, _, -, -, -, hfresh, -⟩ := hd.slot hs
    exact hfresh.frozen
  · obtain ⟨_, _, _, -, -, -, hfresh, hsound⟩ := hd.slot hs
    exact hfresh.declared ▸ hsound.formed

/-- An output of a fresh declaration accepts what its pipelines carry. -/
theorem Declaration.Fresh.assignable_of_feeds {h : Hierarchy} {d : Declaration} (hd : d.Fresh h)
    {p a k : Nat} {s : Slot} {o : Output} (hs : d.slot? p a = some s) (hk : k ∈ s.feeds)
    (ho : d.outputs[k]? = some o) : h.assignable o.declared s.type = true := by
  obtain ⟨_, _, fa, -, -, -, hfresh, hsound⟩ := hd.slot hs
  rw [hfresh.feeds] at hk
  obtain ⟨f, hf, hassign⟩ := hsound.pipeline k hk
  obtain ⟨f', hf', hdeclared⟩ := (hd.outputs k o ho).formal
  obtain rfl := Option.some.inj (hf.symm.trans hf')
  unfold Slot.type
  rw [hfresh.frozen, Option.getD_none, hdeclared, hfresh.declared]
  exact hassign

theorem Declaration.Fresh.formed_declared {h : Hierarchy} {d : Declaration} (hd : d.Fresh h)
    {k : Nat} {o : Output} (ho : d.outputs[k]? = some o) : h.Formed o.declared := by
  obtain ⟨f, hf, hdeclared⟩ := (hd.outputs k o ho).formal
  exact hdeclared ▸ hd.sound.outputs f (List.mem_of_getElem? hf)

namespace Declaration.Fresh

variable {h : Hierarchy} {d e : Declaration} {known : Nat × Nat → Option ClassType}
  {done : List (Nat × Nat)} {p a : Nat} {s : Slot}

/-- In a frozen declaration attributes require formed types if formed types reached them. -/
theorem formed_of_frozen (hd : d.Fresh h) (he : d.Frozen h known done e)
    (hformed : ∀ x t, Freezing d.feedsAt known done x t → h.Formed t)
    (hs : e.slot? p a = some s) : h.Formed s.type := by
  obtain ⟨s₀, hs₀, hcase⟩ := he.slot p a s hs
  obtain ⟨_, _, _, -, -, -, hslot, hsound⟩ := hd.slot hs₀
  have hdeclared : h.Formed s₀.declared := hslot.declared ▸ hsound.formed
  rcases hcase with ⟨t, ht, merged, hmerged, rfl⟩ | ⟨-, rfl⟩
  · exact Hierarchy.formed_merge (hformed _ t ht) hdeclared hmerged
  · unfold Slot.type
    rw [hslot.frozen]
    exact hdeclared

/-- In a frozen declaration attributes name the outputs they are pipelines into in order. -/
theorem ordered_of_frozen (hd : d.Fresh h) (he : d.Frozen h known done e)
    (hs : e.slot? p a = some s) : s.feeds.Pairwise (· < ·) := by
  obtain ⟨s₀, hs₀, ⟨_, -, _, -, rfl⟩ | ⟨-, rfl⟩⟩ := he.slot p a s hs
  · exact List.Pairwise.nil
  · obtain ⟨_, _, _, -, -, -, hslot, hsound⟩ := hd.slot hs₀
    exact hslot.feeds ▸ hsound.ordered

end Declaration.Fresh

namespace Network

variable {n m c : Network}

/-- The type of what an attribute holds, if it is known: that of a literal, or that of an output
which is no pipeline. -/
def knownType? (n : Network) (s : Slot) : Option ClassType :=
  match s.binding with
  | .literal v => some (n.types.literalType v)
  | .reference (.output id) =>
    (n.output? id).bind fun o => if o.isPipeline then none else some o.type
  | _ => none

/-- The known type of what an attribute of a declaration holds. -/
def knownAt (n : Network) (d : Declaration) (x : Nat × Nat) : Option ClassType :=
  (d.slot? x.1 x.2).bind n.knownType?

theorem knownType?_of_freezingType? {s : Slot} {type : Option ClassType}
    (h : n.freezingType? s = .ok type) : n.knownType? s = type := by
  unfold freezingType? at h
  unfold knownType?
  cases hb : s.binding with
  | unbound =>
    rw [hb] at h
    exact Except.ok.inj h
  | literal v =>
    rw [hb] at h
    exact Except.ok.inj h
  | reference t =>
    rw [hb] at h
    cases t with
    | input id => exact Except.ok.inj h
    | output id =>
      obtain ⟨o, ho, h⟩ := bind_eq_ok.1 h
      rw [← pure_eq_ok.1 h]
      show (n.output? id).bind _ = _
      rw [require_eq_ok.1 ho]
      rfl

/-- The known type depends on the types and on the outputs referred to. -/
theorem knownType?_congr {s s' : Slot} (htypes : c.types = n.types)
    (hbinding : s'.binding = s.binding)
    (hout : ∀ id, s.binding = .reference (.output id) → c.output? id = n.output? id) :
    c.knownType? s' = n.knownType? s := by
  unfold knownType?
  rw [hbinding, htypes]
  split
  · rfl
  · rw [hout _ ‹_›]
  · rfl

theorem knownAt_bare (n : Network) (d : Declaration) : n.knownAt d.bare = n.knownAt d := by
  funext x
  unfold knownAt
  rw [Declaration.slot?_bare]
  cases d.slot? x.1 x.2 <;> rfl

theorem knownAt_congr {d d' : Declaration} (h : d'.bare = d.bare) :
    n.knownAt d' = n.knownAt d := by
  rw [← knownAt_bare n d', h, knownAt_bare]

/-- Changing a declaration changes what is known at those that depend on it only. -/
theorem knownAt_modifyDeclaration {i j : Nat} {d : Declaration} (hd : n.declaration? i = some d)
    (hij : ¬n.dependsOn i j = true) (f : Declaration → Declaration) :
    (n.modifyDeclaration j f).knownAt d = n.knownAt d := by
  funext x
  unfold knownAt
  cases hs : d.slot? x.1 x.2 with
  | none => rfl
  | some s =>
    exact knownType?_congr rfl rfl fun id hid =>
      output?_modifyDeclaration_of_ne (ne_of_not_dependsOn hd hij hs hid) f

/-- The types that outputs provide are formed. -/
def OutputsFormed (n : Network) : Prop :=
  ∀ id o, n.output? id = some o → n.types.Formed o.type

theorem OutputsFormed.knownType? (hw : n.types.WellFormed) (hn : n.OutputsFormed) {s : Slot}
    {t : ClassType} (ht : n.knownType? s = some t) : n.types.Formed t := by
  unfold Network.knownType? at ht
  split at ht
  · rw [← Option.some.inj ht]
    exact hw.formed_literalType _
  · obtain ⟨o, ho, ht⟩ := Option.bind_eq_some_iff.1 ht
    split at ht
    · cases ht
    · rw [← Option.some.inj ht]
      exact hn _ o ho
  · cases ht

/-- The types that reach attributes are formed. -/
theorem OutputsFormed.of_freezing (hw : n.types.WellFormed) (hn : n.OutputsFormed)
    {feeds : Nat × Nat → List Nat} {d : Declaration} {order : List (Nat × Nat)} {x : Nat × Nat}
    {t : ClassType} (ht : Freezing feeds (n.knownAt d) order x t) : n.types.Formed t := by
  obtain ⟨-, before, y, after, -, -, hknown, -⟩ := ht
  obtain ⟨s, -, hknown⟩ := Option.bind_eq_some_iff.1 hknown
  exact hn.knownType? hw hknown

theorem Fresh.outputsFormed (hn : n.Fresh) : n.OutputsFormed := by
  intro id o ho
  obtain ⟨d, hd, ho⟩ := output?_eq_some.1 ho
  have hfresh := hn id.declaration d hd
  unfold Output.type
  rw [(hfresh.outputs id.output o ho).result]
  exact hfresh.formed_declared ho

/-! ## The run -/

/-- Freezing at one attribute of a declaration. -/
theorem frozen_freezeAt (hw : c.types.WellFormed) (hformed : c.OutputsFormed) {i p a : Nat}
    {d e : Declaration} {done : List (Nat × Nat)} (hd : c.declaration? i = some d)
    (hself : ¬c.dependsOn i i = true) (hlinked : d.Linked c.types)
    (he : d.Frozen c.types (c.knownAt d) done e)
    (h : (c.modifyDeclaration i fun _ => e).freezeAt ⟨i, p, a⟩ = .ok m) :
    ∃ e', m = (c.modifyDeclaration i fun _ => e') ∧
      d.Frozen c.types (c.knownAt d) (done ++ [(p, a)]) e' := by
  obtain ⟨s', hs', hcase⟩ := freezeAt_eq_ok h
  rw [slot?_replace hd] at hs'
  obtain ⟨s, hs, hbare⟩ := Declaration.exists_slot?_of_bare he.bare hs'
  have hbinding : s'.binding = s.binding := (congrArg Slot.binding hbare :)
  have hfeeds : e.feedsAt (p, a) = s'.feeds := Declaration.feedsAt_eq hs'
  -- What the attribute holds lies elsewhere, so its type does not depend on `e`.
  have hknown : ∀ t, (c.modifyDeclaration i fun _ => e).freezingType? s' = .ok t →
      c.knownAt d (p, a) = t := by
    intro t ht
    have hsame : (c.modifyDeclaration i fun _ => e).knownType? s' = c.knownType? s :=
      knownType?_congr rfl hbinding fun id hid =>
        output?_modifyDeclaration_of_ne (ne_of_not_dependsOn hd hself hs hid) _
    rw [← knownType?_of_freezingType? ht, hsame, knownAt, hs]
    rfl
  rcases hcase with ⟨hnil, rfl⟩ | ⟨hnone, rfl⟩ |
    ⟨hne, type, e₀, e', htype, he₀, hfreeze, rfl⟩
  · exact ⟨e, rfl, he.pass (Or.inl (hfeeds.trans hnil))⟩
  · exact ⟨e, rfl, he.pass (Or.inr (hknown none hnone))⟩
  · have hknown := hknown _ htype
    rw [declaration?_replace hd] at he₀
    obtain rfl := Option.some.inj he₀
    refine ⟨e', modifyDeclaration_modifyDeclaration _ _ _ _, ?_⟩
    have hs : c.knownType? s = some type := by
      rw [← hknown, knownAt, hs]
      rfl
    exact he.freeze hw hlinked (hfeeds ▸ hne) hknown (hformed.knownType? hw hs) hfreeze

/-- The outputs of a frozen declaration have formed types if they had before. -/
theorem outputsFormed_replace {i : Nat} {d e : Declaration}
    {known : Nat × Nat → Option ClassType} {done : List (Nat × Nat)} (hc : c.OutputsFormed)
    (hd : c.declaration? i = some d) (he : d.Frozen c.types known done e) :
    (c.modifyDeclaration i fun _ => e).OutputsFormed := by
  intro id o' ho'
  by_cases hi : i = id.declaration
  · obtain ⟨e', he', ho'⟩ := output?_eq_some.1 ho'
    rw [← hi, declaration?_replace hd] at he'
    obtain rfl := Option.some.inj he'
    obtain ⟨o, ho, ⟨_, _, -, -, r, hr, -, -, rfl⟩ | ⟨-, rfl⟩⟩ := he.output id.output o' ho'
    · exact hr
    · exact hc id o' (output?_eq_some.2 ⟨d, hi ▸ hd, ho⟩)
  · rw [output?_modifyDeclaration_of_ne hi] at ho'
    exact hc id o' ho'

/-- Freezing a forward network of fresh declarations: every attribute is frozen by the first
known type that is connected to it, if there is one. -/
theorem freezePipelines_frozen (hw : n.types.WellFormed) (hn : n.Forward) (hfresh : n.Fresh)
    (h : n.freezePipelines = .ok m) : m.OutputsFormed ∧ ∀ i ∈ n.order, ∀ d,
      n.declaration? i = some d → ∃ e, m.declaration? i = some e ∧
        d.Frozen n.types (m.knownAt d) (d.slots.map Prod.fst) e := by
  unfold freezePipelines at h
  rw [foldlM_slotIds] at h
  obtain ⟨-, hformed, hR⟩ := stage_invariant (I := fun c => c.OutputsFormed)
    (R := fun c i => ∀ d, n.declaration? i = some d → ∃ e, c.declaration? i = some e ∧
      d.Frozen n.types (c.knownAt d) (d.slots.map Prod.fst) e) hn hfresh.outputsFormed
    (fun c i c' hbare hsame hi hformed hok => by
      obtain ⟨d, hd⟩ := exists_declaration?_of_mem_positions (hn.perm.mem_iff.1 hi)
      have hc : c.declaration? i = some d := hsame.trans hd
      have htypes : c.types = n.types := (congrArg Network.types hbare :)
      have hself : ¬c.dependsOn i i = true := by
        rw [dependsOn_congr hbare]
        exact (hn.executable.not_dependsOn fun _ => hn.perm.mem_iff.1).2 i hi
      rw [← htypes] at hw
      have hlinked : d.Linked c.types := htypes ▸ (hfresh i d hd).linked
      rw [← slotIdsAt_congr hsame] at hok
      obtain ⟨e, rfl, done, hdone, he⟩ := slotIdsAt_invariant
        (fun left e => ∃ done, d.slots.map Prod.fst = done ++ left ∧
          d.Frozen c.types (c.knownAt d) done e) hc
        ⟨[], rfl, Declaration.frozen_nil _ _ d⟩
        (fun x left e m ⟨done, hdone, he⟩ hok => by
          obtain ⟨e', rfl, he'⟩ := frozen_freezeAt hw hformed hc hself hlinked he hok
          exact ⟨e', rfl, done ++ [x], by simpa using hdone, he'⟩)
        hok
      rw [List.append_nil] at hdone
      refine ⟨fun _ => e, fun d' hd' => ?_, rfl, outputsFormed_replace hformed hc he,
        fun d' hd' => ?_⟩
      · obtain rfl := Option.some.inj (hc.symm.trans hd')
        exact he.bare
      · obtain rfl := Option.some.inj (hd.symm.trans hd')
        rw [knownAt_modifyDeclaration hc hself, hdone, ← htypes]
        exact ⟨e, declaration?_replace hc, he⟩)
    (fun c i j f hbare hf hji hij hR d hd => by
      obtain ⟨e, he, hfrozen⟩ := hR d hd
      have hij : ¬c.dependsOn i j = true := by
        rw [dependsOn_congr hbare]
        exact hij
      refine ⟨e, ?_, ?_⟩
      · rw [declaration?_modifyDeclaration_of_ne _ hji, he]
      · rw [← knownAt_congr hfrozen.bare] at hfrozen ⊢
        rw [knownAt_modifyDeclaration he hij]
        exact hfrozen)
    h
  exact ⟨hformed, hR⟩

/-- Each declaration of the frozen network was fresh before. -/
theorem exists_fresh_of_freezePipelines (hw : n.types.WellFormed) (hn : n.Forward)
    (hfresh : n.Fresh) (h : n.freezePipelines = .ok m) {i : Nat} {e : Declaration}
    (he : m.declaration? i = some e) : ∃ d : Declaration, d.Fresh m.types ∧
      d.Frozen m.types (m.knownAt d) (d.slots.map Prod.fst) e := by
  have hbare := bare_freezePipelines h
  have htypes : m.types = n.types := (congrArg Network.types hbare :)
  obtain ⟨d, hd, -⟩ := exists_declaration?_of_bare hbare he
  obtain ⟨e', he', hfrozen⟩ := (freezePipelines_frozen hw hn hfresh h).2 i (hn.mem_order hd) d hd
  obtain rfl := Option.some.inj (he.symm.trans he')
  rw [htypes]
  exact ⟨d, hfresh i d hd, hfrozen⟩

end Network

end Blockwork
