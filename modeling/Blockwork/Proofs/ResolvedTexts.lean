import Blockwork.Proofs.DraftOrders
import Blockwork.Proofs.PlanTypes
import Blockwork.Proofs.Positions
import Blockwork.Proofs.References
import Blockwork.Proofs.StarBindings
import Blockwork.Summary

/-!
# What texts are resolved to

Resolving is exact (`BlockDraft.texts_resolved`). It reports an undefined reference only where
nothing has the name, and where it succeeds every attribute holds a literal or a reference: a
reference just if its text starts as references do, and then one to something of this very name. So
in the summary of a plan every attribute has a value or a reference, and never both.
-/

namespace Blockwork

namespace Network

variable {n m e g : Network} {d d' : Declaration} {s s' : Slot} {reference text : String}
  {t : Target} {x : Diagnostic}

/-! ## Names -/

/-- No output of a declaration and no attribute of an input has the name. -/
def Undefined (n : Network) (reference : String) : Prop :=
  (∀ id o, n.output? id = some o → o.referenceName ≠ reference) ∧ n.Unshadowed reference

/-- The target has the name, and it is an attribute of an input if one has the name. -/
structure Denotes (n : Network) (reference : String) (t : Target) : Prop where
  name : n.targetName? t = some reference
  input : ¬n.Unshadowed reference → ∃ id, t = .input id

theorem denotes_of_resolve? (h : n.resolve? reference = some t) : n.Denotes reference t where
  name := by
    unfold resolve? at h
    simpa using List.find?_some h
  input hshadowed := by
    simp only [Unshadowed, not_forall, not_not] at hshadowed
    obtain ⟨id, i, hi, hname⟩ := hshadowed
    obtain ⟨id', -, hresolve, -⟩ := exists_input_of_resolve? hi hname
    exact ⟨id', Option.some.inj (h.symm.trans hresolve)⟩

theorem undefined_of_resolve? (h : n.resolve? reference = none) : n.Undefined reference := by
  have hinputs : n.Unshadowed reference := fun id i hi hname => by
    obtain ⟨_, _, hresolve, -⟩ := exists_input_of_resolve? hi hname
    exact nomatch h.symm.trans hresolve
  refine ⟨fun id o ho hname => ?_, hinputs⟩
  obtain ⟨_, _, hresolve, -⟩ := exists_output_of_resolve? hinputs ho hname
  exact nomatch h.symm.trans hresolve

theorem Denotes.congr (h : e.Denotes reference t) (hin : g.input? = e.input?)
    (hout : g.output? = e.output?) : g.Denotes reference t := by
  constructor
  · cases t with
    | output id => exact (congrArg (fun f => (f id).map Output.referenceName) hout).trans h.name
    | input id => exact (congrArg (fun f => (f id).map BlockInput.referenceName) hin).trans h.name
  · unfold Unshadowed
    rw [hin]
    exact h.input

/-! ## One text -/

/-- A text is resolved to what it names or to the literal it reads as, whichever it looks like. -/
theorem bindText_eq_ok {index : String → Option Target} {slot : String} {declared : ClassType}
    {binding : Binding} : n.bindText index d slot declared text = .ok binding ↔
      (RawValue.isReferenceText text = true ∧
        ∃ t, index text = some t ∧ binding = .reference t) ∨
      (RawValue.isReferenceText text = false ∧
        ∃ v, n.types.readLiteral text declared = .ok v ∧ binding = .literal v) := by
  unfold bindText
  cases htext : RawValue.isReferenceText text with
  | true => cases hindex : index text <;> simp [reject, eq_comm]
  | false => cases hread : n.types.readLiteral text declared <;> simp [reject, eq_comm]

/-- A text that is reported as undefined has the look of a reference and names nothing. -/
theorem undefined_of_bindText {slot : String} {declared : ClassType}
    (h : n.bindText n.resolve? d slot declared text = .error (.rejected x))
    (hx : x.kind = .undefinedReference) :
    RawValue.isReferenceText text = true ∧ n.Undefined text := by
  unfold bindText at h
  split at h
  · rename_i href
    split at h
    · cases h
    · rename_i hnone
      exact ⟨href, undefined_of_resolve? hnone⟩
  · -- Texts that are no literal of the type are reported as that.
    split at h
    · cases h
    · rename_i err _
      obtain rfl := Fault.rejected.inj (Except.error.inj h)
      cases err <;> cases hx

/-! ## One attribute -/

/-- The attribute holds a literal or a reference: a reference just if its text starts as references
do, and then to what the text denotes. A literal has the declared type, and is what the text reads
as if there is one. -/
structure ResolvedSlot (n : Network) (s : Slot) : Prop where
  bound : s.binding ≠ .unbound
  reference_iff : (∃ t, s.binding = .reference t) ↔
    ∃ text, s.raw = some text ∧ RawValue.isReferenceText text = true
  denotes : ∀ t, s.binding = .reference t → ∃ text, s.raw = some text ∧ n.Denotes text t
  read : ∀ v text, s.binding = .literal v → s.raw = some text →
    n.types.readLiteral text s.declared = .ok v
  typed : ∀ v, s.binding = .literal v → n.types.assignable s.declared (n.types.literalType v) = true

/-- Resolving an attribute that holds a text or a literal. Only the type of the literal is left to
show. -/
theorem ResolvesSlot.resolvedSlot (h : n.ResolvesSlot s s') (hgiven : s.Given)
    (hunresolved : s.raw ≠ none → s.binding = .unbound)
    (htyped : ∀ v, s'.binding = .literal v →
      n.types.assignable s'.declared (n.types.literalType v) = true) : n.ResolvedSlot s' := by
  obtain ⟨d, i, j, h⟩ := h
  unfold bindSlot at h
  cases hraw : s.raw with
  | none =>
    -- Without a text there is a literal already, and it stays.
    have hok : s' = s := by
      rw [hraw] at h
      split at h
      · rename_i heq
        cases heq
      · exact (Except.ok.inj h).symm
    subst hok
    obtain ⟨-, hsome⟩ | ⟨v, hv⟩ := hgiven
    · exact absurd hraw hsome
    · exact ⟨by simp [hv], by simp [hv, hraw], by simp [hv], by simp [hraw], htyped⟩
  | some text =>
    rw [hunresolved (by simp [hraw]), hraw] at h
    obtain ⟨binding, hbind, h⟩ := bind_eq_ok.1 h
    obtain rfl := pure_eq_ok.1 h
    rcases bindText_eq_ok.1 hbind with ⟨href, t, ht, rfl⟩ | ⟨href, v, hv, rfl⟩
    · exact ⟨by simp, by simp [href], by simp [denotes_of_resolve? ht], by simp, htyped⟩
    · exact ⟨by simp, by simp [href], by simp, by simp [hv], htyped⟩

theorem ResolvedSlot.congr (h : e.ResolvedSlot s) (htypes : g.types = e.types)
    (hin : g.input? = e.input?) (hout : g.output? = e.output?) : g.ResolvedSlot s where
  bound := h.bound
  reference_iff := h.reference_iff
  denotes t ht := by
    obtain ⟨text, hraw, hdenotes⟩ := h.denotes t ht
    exact ⟨text, hraw, hdenotes.congr hin hout⟩
  read := htypes ▸ h.read
  typed := htypes ▸ h.typed

/-! ## All attributes -/

/-- Some attribute has the text. -/
def Mentions (n : Network) (text : String) : Prop :=
  ∃ id s, n.slot? id = some s ∧ s.raw = some text

/-- Resolving brings no new texts. -/
theorem mentions_of_bindAt {c c' : Network} {i : Nat} (h : n.bindAt n.resolve? c i = .ok c')
    (hmentions : c'.Mentions text) : c.Mentions text := by
  obtain ⟨d, hd, h⟩ := bind_eq_ok.1 h
  obtain ⟨d', hbind, h⟩ := bind_eq_ok.1 h
  obtain rfl := pure_eq_ok.1 h
  obtain ⟨id, s', hs', hraw⟩ := hmentions
  by_cases hi : i = id.declaration
  · subst hi
    rw [slot?_of_declaration? (declaration?_replace (require_eq_ok.1 hd))] at hs'
    obtain ⟨s, hs, hresolves⟩ := exists_slot?_of_bindDeclaration hbind hs'
    obtain ⟨_, rfl, -⟩ := hresolves.kept
    exact ⟨id, s, slot?_eq_some.2 ⟨d, require_eq_ok.1 hd, hs⟩, hraw⟩
  · obtain ⟨e, he, hs'⟩ := slot?_eq_some.1 hs'
    rw [declaration?_modifyDeclaration_of_ne _ hi] at he
    exact ⟨id, s', slot?_eq_some.2 ⟨e, he, hs'⟩, hraw⟩

/-- A declaration with an undefined reference has it as the text of an attribute. -/
theorem undefined_of_bindDeclaration (h : n.bindDeclaration n.resolve? d = .error (.rejected x))
    (hx : x.kind = .undefinedReference) : ∃ p a s text, d.slot? p a = some s ∧
      s.raw = some text ∧ RawValue.isReferenceText text = true ∧ n.Undefined text := by
  rcases bind_eq_error.1 h with h | ⟨_, -, h⟩
  · obtain ⟨⟨q, p⟩, hq, h⟩ := exists_error_of_mapM h
    rcases bind_eq_error.1 h with h | ⟨_, -, h⟩
    · obtain ⟨⟨s, a⟩, hs, h⟩ := exists_error_of_mapM h
      simp only [bindSlot] at h
      split at h
      · rename_i text _ hraw
        rcases bind_eq_error.1 h with h | ⟨_, -, h⟩
        · exact ⟨p, a, s, text, Declaration.slot?_eq_some.2
            ⟨q, List.mk_mem_zipIdx_iff_getElem?.1 hq, List.mk_mem_zipIdx_iff_getElem?.1 hs⟩, hraw,
            undefined_of_bindText h hx⟩
        · cases h
      · cases h
    · cases h
  · cases h

/-- A reference is reported as undefined only if nothing has the name, and the name is the text of
an attribute or of an output. -/
theorem undefined_of_resolveReferences (h : n.resolveReferences = .error (.rejected x))
    (hx : x.kind = .undefinedReference) :
    (∃ text, n.Mentions text ∧ RawValue.isReferenceText text = true ∧ n.Undefined text) ∨
      ∃ o ∈ n.outputs, n.Undefined o.reference := by
  rcases bind_eq_error.1 h with h | ⟨c, -, h⟩
  · obtain ⟨before, i, after, c, -, hbefore, h⟩ := exists_error_step_of_foldlM h
    have hmentions : ∀ text, c.Mentions text → n.Mentions text :=
      foldlM_invariant (fun _ (c : Network) => ∀ text, c.Mentions text → n.Mentions text)
        (fun _ _ _ _ hc hstep text htext => hc text (mentions_of_bindAt hstep htext))
        (fun _ => id) hbefore
    rcases bind_eq_error.1 h with h | ⟨d, hd, h⟩
    · cases hd : c.declaration? i <;> rw [hd] at h <;> cases h
    · rcases bind_eq_error.1 h with h | ⟨_, -, h⟩
      · obtain ⟨p, a, s, text, hs, hraw, hundefined⟩ := undefined_of_bindDeclaration h hx
        have hslot : c.slot? ⟨i, p, a⟩ = some s :=
          slot?_eq_some.2 ⟨d, require_eq_ok.1 hd, hs⟩
        exact .inl ⟨text, hmentions text ⟨_, s, hslot, hraw⟩, hundefined⟩
      · cases h
  · rcases bind_eq_error.1 h with h | ⟨_, -, h⟩
    · obtain ⟨o, ho, h⟩ := exists_error_of_mapM h
      unfold bindOutput at h
      split at h
      · cases h
      · rename_i hnone
        exact .inr ⟨o, ho, undefined_of_resolve? hnone⟩
    · cases h

theorem length_declarations_resolveReferences (h : e.resolveReferences = .ok g) :
    g.declarations.length = e.declarations.length := by
  obtain ⟨c, hc, h⟩ := bind_eq_ok.1 h
  obtain ⟨outputs, -, h⟩ := bind_eq_ok.1 h
  obtain rfl := pure_eq_ok.1 h
  suffices c.declarations.length = e.declarations.length from this
  refine foldlM_invariant (fun _ (c : Network) => c.declarations.length = e.declarations.length)
    (fun _ _ _ _ hc hstep => ?_) rfl hc
  obtain ⟨_, -, hstep⟩ := bind_eq_ok.1 hstep
  obtain ⟨_, -, hstep⟩ := bind_eq_ok.1 hstep
  obtain rfl := pure_eq_ok.1 hstep
  exact (List.length_modify ..).trans hc

/-- Every resolved declaration comes from the one at its position. -/
theorem exists_declaration?_of_resolveReferences (horder : e.order = e.positions)
    (h : e.resolveReferences = .ok g) {i : Nat} (hd' : g.declaration? i = some d') :
    ∃ d, e.declaration? i = some d ∧ e.bindDeclaration e.resolve? d = .ok d' := by
  have hi := (List.getElem?_eq_some_iff.1 hd').1
  rw [length_declarations_resolveReferences h] at hi
  obtain ⟨d, hd⟩ : ∃ d, e.declaration? i = some d := ⟨_, List.getElem?_eq_getElem hi⟩
  obtain ⟨d'', hd'', hbind⟩ := declaration?_resolveReferences horder h hd
  obtain rfl := Option.some.inj (hd'.symm.trans hd'')
  exact ⟨d, hd, hbind⟩

/-- Expanding star references leaves texts to be resolved. -/
theorem Unresolved.expandStars (hn : n.Unresolved) (h : n.expandStars = .ok e) : e.Unresolved := by
  intro d' hd' q' hq' s' hs'
  obtain ⟨i, hi⟩ := List.getElem?_of_mem hd'
  obtain ⟨d, hd, hexpand⟩ := exists_getElem?_of_forall₂ (expandStars_eq_ok h).2.flip hi
  obtain ⟨-, groups, hgroups, hqs⟩ := expandDeclaration_eq_ok hexpand
  rw [hgroups] at hq'
  obtain ⟨qs, hmem, hq'⟩ := List.mem_flatten.1 hq'
  obtain ⟨j, hj⟩ := List.getElem?_of_mem hmem
  obtain ⟨q, hq, hexpand⟩ := exists_getElem?_of_forall₂ hqs.flip hj
  have hunresolved := hn d (List.mem_of_getElem? hd) q (List.mem_of_getElem? hq)
  rcases expandParameter_eq_ok hexpand with ⟨-, rfl⟩ | ⟨star, _, start, target, -, -, -, -, rfl⟩
  · exact hunresolved s' (List.mem_singleton.1 hq' ▸ hs')
  · obtain ⟨reference, -, rfl⟩ := List.mem_map.1 hq'
    obtain ⟨s, hs, rfl⟩ := List.mem_map.1 hs'
    unfold Slot.substitute
    split
    · rename_i hraw
      exact fun _ => hunresolved s hs (by simp [hraw])
    · exact hunresolved s hs

/-- Where resolving succeeds, every attribute is resolved. -/
theorem resolvedSlot_of_resolveReferences (hgiven : e.Given) (hunresolved : e.Unresolved)
    (horder : e.order = e.positions) (h : e.resolveReferences = .ok g) (hg : g.WellResolved)
    {id : SlotId} (hs : g.slot? id = some s) : g.ResolvedSlot s := by
  obtain ⟨d', hd', hs⟩ := slot?_eq_some.1 hs
  obtain ⟨d, hd, hbind⟩ := exists_declaration?_of_resolveReferences horder h hd'
  obtain ⟨s₀, hs₀, hresolves⟩ := exists_slot?_of_bindDeclaration hbind hs
  obtain ⟨q, hq, hs₀⟩ := Declaration.slot?_eq_some.1 hs₀
  have hqmem := List.mem_of_getElem? hq
  have hsmem := List.mem_of_getElem? hs₀
  have hdmem := List.mem_of_getElem? hd
  obtain ⟨hparams, hout⟩ := targets_resolveReferences h
  have htypes := types_resolveReferences h
  -- Literals have the declared type, since the resolved declaration is fresh.
  obtain ⟨q', hq', hs⟩ := Declaration.slot?_eq_some.1 hs
  obtain ⟨_, -, hfresh⟩ := (hg.fresh _ d' hd').parameters q' (List.mem_of_getElem? hq')
  obtain ⟨_, -, hfresh⟩ := hfresh _ s hs
  refine ResolvedSlot.congr (hresolves.resolvedSlot (hgiven d hdmem q hqmem s₀ hsmem)
    (hunresolved d hdmem q hqmem s₀ hsmem) ?_) htypes (input?_congr hparams) hout
  exact htypes ▸ hfresh.literal

/-- Every output of the block is wired to what its reference denotes. -/
theorem denotes_of_resolveReferences (h : e.resolveReferences = .ok g) {o : BlockOutput}
    (ho : o ∈ g.outputs) : ∃ t, o.target = some t ∧ g.Denotes o.reference t := by
  obtain ⟨hparams, hout⟩ := targets_resolveReferences h
  obtain ⟨c, -, h⟩ := bind_eq_ok.1 h
  obtain ⟨outputs, houtputs, h⟩ := bind_eq_ok.1 h
  obtain rfl := pure_eq_ok.1 h
  obtain ⟨o₀, -, hbind⟩ := mem_of_mapM_eq_ok houtputs ho
  unfold bindOutput at hbind
  split at hbind
  · rename_i t ht
    obtain rfl := Except.ok.inj hbind
    exact ⟨t, rfl, (denotes_of_resolve? ht).congr (input?_congr hparams) hout⟩
  · cases hbind

/-! ## The plan -/

/-- An attribute of the completed network holds what it was resolved to. -/
theorem Compilation.exists_resolved_slot (k : Compilation n m) {id : SlotId}
    (hs : m.slot? id = some s) :
    ∃ s₀, k.resolved.slot? id = some s₀ ∧ s.binding = s₀.binding := by
  obtain ⟨s₁, hs₁, hbare₁⟩ := exists_slot?_of_bare k.bare_eq hs
  rw [slot?_congr k.declarations_unchecked] at hs₁
  obtain ⟨s₀, hs₀, hbare₀⟩ := exists_slot?_of_bare (bare_freezePipelines k.freeze_eq) hs₁
  exact ⟨s₀, hs₀, (congrArg Slot.binding (hbare₁.trans hbare₀) :)⟩

end Network

namespace Plan

variable {p : Plan} {s : Slot}

/-- What holds a literal or a reference is summarized with one of value and reference. -/
theorem isSome_summarizeSlot (hs : s.binding ≠ .unbound) :
    (p.summarizeSlot s).value.isSome = !(p.summarizeSlot s).reference.isSome := by
  unfold summarizeSlot
  cases hbinding : s.binding with
  | unbound => exact absurd hbinding hs
  | literal v => rfl
  | reference t => rfl

/-- The attributes in a summary are those of the network. -/
theorem exists_slot_of_summary {d : DeclarationSummary} (hd : d ∈ p.summary.declarations)
    {q : ParameterSummary} (hq : q ∈ d.parameters) {a : AttributeSummary} (ha : a ∈ q.attributes) :
    ∃ id s, p.network.slot? id = some s ∧ a = p.summarizeSlot s := by
  obtain ⟨decl, hdecl, rfl⟩ := List.mem_map.1 hd
  obtain ⟨i, -, hi⟩ := List.mem_filterMap.1 hdecl
  obtain ⟨param, hparam, rfl⟩ := List.mem_map.1 hq
  obtain ⟨s, hs, rfl⟩ := List.mem_map.1 ha
  obtain ⟨j, hj⟩ := List.getElem?_of_mem hparam
  obtain ⟨k, hk⟩ := List.getElem?_of_mem hs
  exact ⟨⟨i, j, k⟩, s,
    Network.slot?_eq_some.2 ⟨decl, hi, Declaration.slot?_eq_some.2 ⟨param, hj, hk⟩⟩, rfl⟩

end Plan

namespace BlockDraft

variable {σ : Type} {good : σ → Prop} {c : Catalog} {r : Resolver σ} {b : BlockDraft} {s : σ}
  {n e : Network}

/-- Resolving the references of a linked and expanded block ends in a report if it fails, and
reports an undefined reference only if the text of an attribute that starts as references do, or the
text of an output, is the name of nothing. Where it succeeds, every attribute is resolved, and every
output is wired to what its text denotes. In the summary of the plan, every attribute has either a
value or a reference. -/
theorem texts_resolved (hc : c.Registered) (hr : r.Within c good c.Provides) (hs : good s)
    (hlink : ((b.link r).run.run s).1 = .ok n) (hexpand : n.expandStars = .ok e) :
    (∀ f, e.resolveReferences = .error f → ∃ x, f = .rejected x ∧
      (x.kind = .undefinedReference →
        (∃ text, e.Mentions text ∧ RawValue.isReferenceText text = true ∧ e.Undefined text) ∨
          ∃ o ∈ e.outputs, e.Undefined o.reference)) ∧
    (∀ g, e.resolveReferences = .ok g →
      (∀ id slot, g.slot? id = some slot → g.ResolvedSlot slot) ∧
        ∀ o ∈ g.outputs, ∃ t, o.target = some t ∧ g.Denotes o.reference t) ∧
    ∀ m, n.complete = .ok m → ∀ d ∈ m.plan.summary.declarations, ∀ q ∈ d.parameters,
      ∀ a ∈ q.attributes, a.value.isSome = !a.reference.isSome := by
  have hn := ((b.ensures_link hc (hr.mono fun _ hx => hx.sound hc) s hs).2 n hlink).2
  obtain ⟨hgiven, horder, hpositions⟩ := hn.given.expandStars hexpand
  have hunresolved := ((b.ensures_unresolved r s trivial).2 n hlink).2.expandStars hexpand
  have horder : e.order = e.positions := by rw [horder, hpositions, hn.order]
  have hslots : ∀ g, e.resolveReferences = .ok g → ∀ id slot, g.slot? id = some slot →
      g.ResolvedSlot slot := fun g hg id slot hslot =>
    Network.resolvedSlot_of_resolveReferences hgiven hunresolved horder hg
      (wellResolved_of_link hc hr hs hlink hexpand hg) hslot
  refine ⟨fun f hf => ?_, fun g hg => ⟨hslots g hg, fun o ho =>
    Network.denotes_of_resolveReferences hg ho⟩, fun m hm d hd q hq a ha => ?_⟩
  · obtain ⟨x, rfl⟩ := (Network.safe_resolveReferences fun i hi => horder ▸ hi).exists_rejected hf
    exact ⟨x, rfl, Network.undefined_of_resolveReferences hf⟩
  · obtain ⟨k⟩ := Network.exists_compilation hm
    obtain rfl : k.expanded = e := Except.ok.inj (k.expand_eq.symm.trans hexpand)
    obtain ⟨id, slot, hslot, rfl⟩ := Plan.exists_slot_of_summary hd hq ha
    obtain ⟨slot₀, hslot₀, hbinding⟩ := k.exists_resolved_slot hslot
    exact Plan.isSome_summarizeSlot (hbinding ▸ (hslots _ k.resolve_eq id slot₀ hslot₀).bound)

/-! ### Values from everywhere

A sink takes a number from a text, from a literal and from a star reference, and a scale by default.
The last of its numbers is named by a text of one's own choice. -/

/-- A component with an output and one that takes integers with a scale. -/
def scaleCatalog : Catalog :=
  let source := ComponentDraft.new "Source" "out" "Integer"
  let sink := (ComponentDraft.new "Sink" "out" "Object").addParam
    (((ComponentParamDraft.new "in" 0 none).attr "value" "Integer").attrWithDefault
      "scale" "Integer" "2")
  ((Library.collect Catalog.register [source, sink]).run Catalog.standard).2

/-- A block in which the sink takes a seven, a three, all that the source provides, and something
else. -/
def scaled (reference : String) : BlockDraft where
  __ := BlockDraft.new "scaled"
  declarations := [
    .new "d" (.component "Source"),
    ((((DeclarationDraft.new "c" (.component "Sink")).param "in" [("value", "7")]).paramValues
      "in" [("value", .integer 3)]).param "in" [("value", "@d.o*")]).param
        "in" [("value", reference)]]
  outputs := [⟨"result", "@c.out", none⟩]

theorem registered_scaleCatalog : scaleCatalog.Registered :=
  Library.registered_collect registered_standard _

/-- The star is resolved to the output of the source, and a name that nothing has is reported. -/
theorem texts_resolved_scaled :
    (∃ n e g m slot, (((scaled "@d.out").link scaleCatalog.resolver).run.run ()).1 = .ok n ∧
      n.expandStars = .ok e ∧ e.resolveReferences = .ok g ∧ n.complete = .ok m ∧
        g.slot? ⟨1, 3, 0⟩ = some slot ∧ slot.binding = .reference (.output ⟨0, 0⟩) ∧
          g.Denotes "@d.out" (.output ⟨0, 0⟩) ∧
            ∀ d ∈ m.plan.summary.declarations, ∀ q ∈ d.parameters, ∀ a ∈ q.attributes,
              a.value.isSome = !a.reference.isSome) ∧
    ∃ n e x, (((scaled "@e.out").link scaleCatalog.resolver).run.run ()).1 = .ok n ∧
      n.expandStars = .ok e ∧ e.resolveReferences = .error (.rejected x) ∧
        x.kind = .undefinedReference ∧
          ((∃ text, e.Mentions text ∧ RawValue.isReferenceText text = true ∧ e.Undefined text) ∨
            ∃ o ∈ e.outputs, e.Undefined o.reference) := by
  constructor
  · have hrun : (((scaled "@d.out").link scaleCatalog.resolver).run.run ()).1.toOption.any (fun n =>
        n.expandStars.toOption.any fun e => e.resolveReferences.toOption.any fun g =>
          n.complete.toOption.any fun _ => (g.slot? ⟨1, 3, 0⟩).any fun slot =>
            slot.raw == some "@d.out" && slot.binding == .reference (.output ⟨0, 0⟩)) = true := by
      decide +kernel
    obtain ⟨n, hlink, hrun⟩ := toOption_any.1 hrun
    obtain ⟨e, hexpand, hrun⟩ := toOption_any.1 hrun
    obtain ⟨g, hg, hrun⟩ := toOption_any.1 hrun
    obtain ⟨m, hm, hrun⟩ := toOption_any.1 hrun
    obtain ⟨slot, hslot, hrun⟩ := (Option.any_eq_true _ _).1 hrun
    rw [Bool.and_eq_true, beq_iff_eq, beq_iff_eq] at hrun
    obtain ⟨-, hresolved, hsummary⟩ := texts_resolved registered_scaleCatalog
      (scaleCatalog.resolver_within _) trivial hlink hexpand
    obtain ⟨text, htext, hdenotes⟩ := ((hresolved g hg).1 _ slot hslot).denotes _ hrun.2
    obtain rfl := Option.some.inj (hrun.1.symm.trans htext)
    exact ⟨n, e, g, m, slot, hlink, hexpand, hg, hm, hslot, hrun.2, hdenotes, hsummary m hm⟩
  · have hrun : (((scaled "@e.out").link scaleCatalog.resolver).run.run ()).1.toOption.any (fun n =>
        n.expandStars.toOption.any fun e => match e.resolveReferences with
          | .error (.rejected x) => x.kind == .undefinedReference
          | _ => false) = true := by
      decide +kernel
    obtain ⟨n, hlink, hrun⟩ := toOption_any.1 hrun
    obtain ⟨e, hexpand, hrun⟩ := toOption_any.1 hrun
    split at hrun
    · rename_i x hx
      obtain ⟨y, hy, hundefined⟩ := (texts_resolved registered_scaleCatalog
        (scaleCatalog.resolver_within _) trivial hlink hexpand).1 _ hx
      obtain rfl := Fault.rejected.inj hy
      rw [beq_iff_eq] at hrun
      exact ⟨n, e, x, hlink, hexpand, hx, hrun, hundefined hrun⟩
    · cases hrun

end BlockDraft

end Blockwork
