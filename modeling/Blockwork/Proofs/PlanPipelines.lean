import Blockwork.Proofs.DeclaredOutputs
import Blockwork.Proofs.DraftTypes

/-!
# Pipelines of a plan

An output of a declaration holds everything that flows into it by reference
(`Assembly.outputs_cover_references`). Freezing and checking see to this on different ways: a
frozen attribute accepts only what the type accepts that is recorded on its outputs, and an open
one adds the type of what it refers to when types are checked.
-/

namespace Blockwork

namespace Network

variable {n m : Network}

/-- An output that an attribute still feeds holds what the attribute refers to once types are
checked. -/
theorem assignable_of_feeds (hn : n.Prepared) (hi : n.InputsReduced) (h : n.checkTypes = .ok m)
    {x : SlotId} {s : Slot} {t : Target} {id : OutputId} (hs : n.slot? x = some s)
    (ht : s.binding = .reference t) (hx : n.Feeds x id) (hid : n.HasTarget (.output id)) :
    ∃ o provided, m.output? id = some o ∧ m.targetType? t = some provided ∧
      n.types.assignable o.type provided = true := by
  obtain ⟨_, t', hs', ht', hopen⟩ := hn.isOpen_of_feeds hx
  obtain rfl := Option.some.inj (hs.symm.trans hs')
  obtain rfl := Binding.reference.inj (ht.symm.trans ht')
  obtain ⟨provided, hprovided, hprovides⟩ :=
    provides_checkTypes hn hi h (hn.hasTarget x s t hs ht)
  obtain ⟨type, htype, houtput⟩ := provides_checkTypes hn hi h hid
  obtain ⟨o, ho, rfl⟩ := Option.map_eq_some_iff.1 htype
  obtain ⟨_, htype₀⟩ := hid
  obtain ⟨o₀, ho₀, -⟩ := Option.map_eq_some_iff.1 htype₀
  have hjoin := houtput.isJoin ⟨o₀, ho₀, (hn.fedBy_ne_nil ho₀).2 ⟨x, hx⟩⟩
  refine ⟨o, provided, ho, hprovided, ?_⟩
  -- Whatever flows to the target flows on over the attribute.
  refine (hprovides.isJoin hopen).least _ hjoin.reduced.toFormed fun u hu => hjoin.holds u ?_
  exact supplies_output.2 ⟨x, hx, s, t, hs, ht, hu⟩

namespace Compilation

variable (k : Compilation n m)

theorem hasOutputs_resolved (hout : n.HasOutputs) : k.resolved.HasOutputs :=
  (hout.expandStars k.expand_eq).resolveReferences k.resolve_eq

theorem hasOutputs_unchecked (hout : n.HasOutputs) : k.unchecked.HasOutputs := by
  intro i d hd
  rw [k.declaration?_unchecked] at hd
  have hsorted : (k.resolved.setOrder k.order).HasOutputs := k.hasOutputs_resolved hout
  exact hsorted.of_bare (bare_freezePipelines k.freeze_eq) i d hd

/-- An output that a frozen attribute was a pipeline into holds what the attribute accepts. -/
theorem assignable_of_frozen (k : Compilation n m) (hn : n.WellLinked) {d e d' : Declaration}
    (hd : d.Fresh m.types)
    (hfrozen : d.Frozen m.types (k.frozen.knownAt d) (d.slots.map Prod.fst) e)
    (hchecked : e.Checked m [] d') {x : Nat × Nat} {j : Nat} {t merged provided : ClassType}
    {s : Slot} (hs : d.slot? x.1 x.2 = some s) (hj : j ∈ d.feedsAt x)
    (ht : Freezing d.feedsAt (k.frozen.knownAt d) (d.slots.map Prod.fst) x t)
    (hmerged : m.types.merge t s.declared = .ok merged)
    (hassign : m.types.assignable merged provided = true) {o : Output}
    (ho : d'.outputs[j]? = some o) : m.types.assignable o.type provided = true := by
  have hw : m.types.WellFormed := k.wellFormed hn
  have hlinked := hfrozen.linked hd.linked
  obtain ⟨oₑ, hoₑ, -, -⟩ := hchecked.outputs j o ho
  obtain ⟨o₀, -, ⟨y, t', hj', ht', r, -, -, hrt, rfl⟩ | ⟨hnone, rfl⟩⟩ := hfrozen.output j oₑ hoₑ
  · -- As no pipeline is left, checking has left the recorded type.
    have hsame := hchecked.output_eq ho fun p a s hs hmem => by
      have hmem := (hlinked.fedBy j _ hoₑ p a).2 (Declaration.mem_feedsAt.2 ⟨s, hs, hmem⟩)
      simp at hmem
    obtain rfl := Option.some.inj (hoₑ.symm.trans hsame)
    obtain rfl := (ht'.of_connected (.of_mem hj' hj)).unique ht
    obtain ⟨_, _, _, -, -, -, hfresh, hsound⟩ := hd.slot hs
    have hdeclared : m.types.Formed s.declared := hfresh.declared ▸ hsound.formed
    have hbelow := (hw.assignable_merge (k.formed_of_freezing hn ht) hdeclared hmerged).1
    exact hw.assignable_trans hrt (hw.assignable_trans hbelow hassign)
  · exact absurd ht (hnone x t hj)

/-- Every output that an attribute is declared to be a pipeline into holds what the attribute
refers to. -/
theorem covers_reference (k : Compilation n m) (hn : n.WellLinked) (hout : n.HasOutputs)
    {id : SlotId} {d : Declaration} {s : Slot} {t : Target} {j : Nat}
    (hd : m.declaration? id.declaration = some d) (hs : d.slot? id.param id.attr = some s)
    (ht : s.binding = .reference t) (hj : j ∈ d.formalFeeds (id.param, id.attr)) :
    ∃ o provided, m.output? ⟨id.declaration, j⟩ = some o ∧ m.targetType? t = some provided ∧
      m.types.assignable o.type provided = true := by
  have htyped := k.typed hn
  obtain ⟨provided, hprovided, haccepts⟩ :=
    k.accepts_reference (slot?_eq_some.2 ⟨d, hd, hs⟩) ht
  obtain ⟨d₀, e, hfresh, he, hfrozen, hchecked⟩ := k.exists_stages hn hd
  have hbare : d.bare = d₀.bare := hchecked.bare.trans hfrozen.bare
  rw [Declaration.formalFeeds_congr hbare, ← hfresh.feedsAt_eq] at hj
  rw [Declaration.slot?_congr hchecked.parameters] at hs
  obtain ⟨s₀, hs₀, hslot⟩ := hfrozen.slot _ _ s hs
  have hunchecked := k.declaration?_unchecked id.declaration ▸ he
  obtain ⟨o₀, ho₀⟩ : ∃ o, d₀.outputs[j]? = some o := by
    refine hfresh.exists_output ?_ hs₀ (Declaration.feedsAt_eq hs₀ ▸ hj)
    exact (k.hasOutputs_unchecked hout _ e hunchecked).of_bare hfrozen.bare.symm
  rcases hslot with ⟨t', ht', merged, hmerged, rfl⟩ | ⟨-, rfl⟩
  · obtain ⟨o, ho⟩ : ∃ o, d.outputs[j]? = some o := by
      refine Option.ne_none_iff_exists'.1 fun hnone => ?_
      rw [Declaration.outputs_eq_none_of_bare hbare, ho₀] at hnone
      cases hnone
    exact ⟨o, provided, output?_eq_some.2 ⟨d, hd, ho⟩, hprovided,
      k.assignable_of_frozen hn hfresh hfrozen hchecked hs₀ hj ht' hmerged haccepts ho⟩
  · have hslotₑ : k.unchecked.slot? id = some s := slot?_eq_some.2 ⟨e, hunchecked, hs⟩
    obtain ⟨oₑ, hoₑ⟩ : ∃ o, e.outputs[j]? = some o := by
      refine Option.ne_none_iff_exists'.1 fun hnone => ?_
      rw [Declaration.outputs_eq_none_of_bare hfrozen.bare, ho₀] at hnone
      cases hnone
    have houtput : k.unchecked.output? ⟨id.declaration, j⟩ = some oₑ :=
      output?_eq_some.2 ⟨e, hunchecked, hoₑ⟩
    rw [← k.types_unchecked]
    exact assignable_of_feeds htyped.toPrepared htyped.reduced k.check_eq hslotₑ ht
      ⟨rfl, s, hslotₑ, Declaration.feedsAt_eq hs₀ ▸ hj⟩
      ⟨oₑ.type, congrArg (Option.map Output.type) houtput⟩

end Compilation

end Network

namespace Assembly

variable {σ : Type} {good : σ → Prop} {c : Catalog} {r : Resolver σ} {a : Assembly} {s : σ}
  {p : Plan}

/-- In the plan of an assembly every output that an attribute is declared to be a pipeline into is
there, and holds what the attribute refers to, whether the pipeline was cut or not. -/
theorem outputs_cover_references (hc : c.Registered) (hr : r.Within c good c.Provides)
    (hs : good s) (h : ((a.compile r).run s).1.1 = .ok p) {id : SlotId} {d : Declaration}
    {slot : Slot} {t : Target} {j : Nat} (hd : p.network.declaration? id.declaration = some d)
    (hslot : d.slot? id.param id.attr = some slot) (ht : slot.binding = .reference t)
    (hj : j ∈ d.formalFeeds (id.param, id.attr)) :
    ∃ o provided, p.network.output? ⟨id.declaration, j⟩ = some o ∧
      p.network.targetType? t = some provided ∧
        p.network.types.assignable o.type provided = true := by
  have hlink := (a.draft.ensures_link hc (hr.mono fun _ hx => hx.sound hc)).and
    (a.draft.ensures_hasOutputs r)
  obtain ⟨n, m, ⟨⟨-, hn⟩, hout⟩, hm, rfl⟩ :=
    (BlockDraft.ensures_compile hlink s hs).2 p (compile_eq_ok h)
  obtain ⟨k⟩ := Network.exists_compilation hm
  exact k.covers_reference hn hout hd hslot ht hj

/-- The number that fixes both inputs of the blend is held by the output for both. -/
theorem outputs_cover_references_blend : ∃ p o provided,
    ((blend.compile blendLibrary.resolver).run blendLibrary).1.1 = .ok p ∧
      p.network.output? ⟨1, 0⟩ = some o ∧
        p.network.targetType? (.output ⟨0, 0⟩) = some provided ∧
          p.network.types.assignable o.type provided = true := by
  have hrun : blendResult.toOption.any (fun p => (p.network.declaration? 1).any fun d =>
      (d.slot? 1 0).any fun slot => slot.binding == .reference (.output ⟨0, 0⟩) &&
        (d.formalFeeds (1, 0)).contains 0) = true := by
    decide +kernel
  obtain ⟨p, hp, hrun⟩ := (Option.any_eq_true _ _).1 hrun
  obtain ⟨d, hd, hrun⟩ := (Option.any_eq_true _ _).1 hrun
  obtain ⟨slot, hslot, hrun⟩ := (Option.any_eq_true _ _).1 hrun
  rw [Bool.and_eq_true, beq_iff_eq, List.contains_iff_mem] at hrun
  have hok : blendResult = .ok p := toOption_eq_some.1 hp
  obtain ⟨hc, hserving⟩ := serving_blendLibrary
  have hd : p.network.declaration? (⟨1, 1, 0⟩ : SlotId).declaration = some d := hd
  obtain ⟨o, provided, ho, hprovided, hassign⟩ := outputs_cover_references
    hc (Library.resolver_within hc rfl) hserving hok hd hslot hrun.1 hrun.2
  exact ⟨p, o, provided, hok, ho, hprovided, hassign⟩

end Assembly

end Blockwork
