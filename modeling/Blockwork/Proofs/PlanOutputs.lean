import Blockwork.Proofs.DraftTypes

/-!
# Outputs of a plan

The type of an output of the block is found by going back over the pipelines before the types are
checked, and checking records types forward on the outputs of declarations. Both find what the
target provides (`Assembly.output_types_agree`).

The inputs in turn list the outputs they flow to, so the interface of a plan is consistent: the
type of an output is what comes of intersecting the types of all attributes that list it
(`Assembly.interface_consistent`).
-/

namespace Blockwork

/-- The types of the attributes that are pipelines into the output at a position. -/
def Interface.typesInto (i : Interface) (o : Nat) : List ClassType :=
  (i.attributes.filter fun a => a.pipelineOutputs.contains o).map FormalAttribute.type

namespace Network

variable {n m : Network}

/-- The types of attributes into an output are those of the inputs that list it. -/
theorem mem_typesInto_interface {o : Nat} {type : ClassType} :
    type ∈ m.interface.typesInto o ↔
      ∃ id i, m.input? id = some i ∧ o ∈ i.pipelineOutputs ∧ i.type = type := by
  unfold Interface.typesInto
  simp only [List.mem_map, List.mem_filter, List.contains_iff_mem, mem_attributes_interface]
  constructor
  · rintro ⟨a, ⟨ha | ⟨id, i, hi, rfl⟩, hmem⟩, rfl⟩
    · simp [Condition.pipelineOutputs_eq_nil ha] at hmem
    · exact ⟨id, i, hi, mem_ascending.1 hmem, rfl⟩
  · rintro ⟨id, i, hi, hmem, rfl⟩
    exact ⟨_, ⟨Or.inr ⟨id, i, hi, rfl⟩, mem_ascending.2 hmem⟩, rfl⟩

namespace Compilation

/-- Going back from an output of the block and going forward to the output of a declaration it is
wired to finds the same type. -/
theorem exists_output_type_eq (k : Compilation n m) (hn : n.WellLinked) {b : BlockOutput}
    (hb : b ∈ m.outputs) {id : OutputId} (hid : b.target = some (.output id)) :
    ∃ out, m.output? id = some out ∧ b.type = some out.type := by
  have htyped := k.typed hn
  obtain ⟨t, type, ht, htype, hprovides⟩ := k.exists_provides hn hb
  obtain rfl := Option.some.inj (ht.symm.trans hid)
  obtain ⟨type', htype', hprovides'⟩ :=
    provides_checkTypes htyped.toPrepared htyped.reduced k.check_eq hprovides.hasTarget
  obtain ⟨out, hout, rfl⟩ := Option.map_eq_some_iff.1 htype'
  exact ⟨out, hout, hprovides.unique htyped.types hprovides' ▸ htype⟩

/-- The type of an output with attributes into it is the join of their types. -/
theorem isJoin_typesInto (k : Compilation n m) (hn : n.WellLinked) {o : Nat} {b : BlockOutput}
    (hb : m.outputs[o]? = some b) (hne : m.interface.typesInto o ≠ []) :
    ∃ type, b.type = some type ∧ m.types.IsJoin (· ∈ m.interface.typesInto o) type := by
  have htyped := k.typed hn
  obtain ⟨t, type, ht, htype, hprovides⟩ := k.exists_provides hn (List.mem_of_getElem? hb)
  obtain ⟨u, hu⟩ := List.exists_mem_of_ne_nil _ hne
  obtain ⟨id, i, hi, hmem, -⟩ := mem_typesInto_interface.1 hu
  have hopen :=
    hprovides.isOpen_of_carries htyped.toPrepared ((k.lists_iff hn hb ht hi).1 hmem)
  refine ⟨type, htype, ?_⟩
  rw [← k.types_unchecked]
  refine (hprovides.isJoin hopen).congr fun u => ?_
  rw [mem_typesInto_interface]
  unfold Supplies
  rw [k.input?_unchecked]
  constructor
  · rintro ⟨id, i, hi, hmem, hu⟩
    exact ⟨id, i, hi, (k.lists_iff hn hb ht hi).1 hmem, hu⟩
  · rintro ⟨id, i, hi, hcarries, hu⟩
    exact ⟨id, i, hi, (k.lists_iff hn hb ht hi).2 hcarries, hu⟩

/-- Intersecting the types of the attributes into an output, in any order, gives its type. -/
theorem foldl_intersect_typesInto (k : Compilation n m) (hn : n.WellLinked) {o : Nat}
    {f : FormalOutput} (hf : m.interface.outputs[o]? = some f) {t : ClassType}
    {ts : List ClassType} (hperm : (t :: ts).Perm (m.interface.typesInto o)) :
    f.type = ts.foldl m.types.intersect t := by
  have hw := k.wellFormed hn
  obtain ⟨b, hb, rfl⟩ := Option.map_eq_some_iff.1 ((List.getElem?_map ..).symm.trans hf)
  have hne : m.interface.typesInto o ≠ [] := fun hnil => by simp [hnil] at hperm
  obtain ⟨type, htype, hjoin⟩ := k.isJoin_typesInto hn hb hne
  have hreduced : ∀ u ∈ t :: ts, m.types.Reduced u := fun u hu => by
    obtain ⟨id, i, hi, -, rfl⟩ := mem_typesInto_interface.1 (hperm.mem_iff.1 hu)
    exact k.types_unchecked ▸ (k.typed hn).reduced id i (k.input?_unchecked ▸ hi)
  obtain ⟨ht, hts⟩ := List.forall_mem_cons.1 hreduced
  have hfold := (Hierarchy.IsJoin.self hw ht).foldl_intersect hw hts
  unfold formalOutput
  rw [htype]
  refine hjoin.unique hw (hfold.congr fun u => ?_)
  rw [← hperm.mem_iff, List.mem_cons]

end Compilation

end Network

namespace Assembly

variable {σ : Type} {good : σ → Prop} {c : Catalog} {r : Resolver σ} {a : Assembly} {s : σ}
  {p : Plan}

/-- The type of an output of a plan that is wired to an output of a declaration is the type that
this output has after the check of types. -/
theorem output_types_agree (hc : c.Registered) (hr : r.Within c good c.Provides) (hs : good s)
    (h : ((a.compile r).run s).1.1 = .ok p) : ∀ o ∈ p.network.outputs, ∀ id,
      o.target = some (.output id) →
        ∃ out, p.network.output? id = some out ∧ o.type = some out.type := by
  obtain ⟨n, hn, ⟨k⟩⟩ := exists_compilation hc hr hs h
  exact fun o ho id hid => k.exists_output_type_eq hn ho hid

end Assembly

/-! ### The fork as a plan -/

/-- The fork as it is compiled. -/
def forkAssembly : Assembly where
  draft := fork
  state := .growing

/-- What comes of the fork. -/
def forkResult : Except Fault Plan :=
  ((forkAssembly.compile forkCatalog.resolver).run ()).1.1

/-- The output of the second pair has recorded the type that was found going back. -/
theorem Assembly.output_types_agree_fork : ∃ p o out,
    ((forkAssembly.compile forkCatalog.resolver).run ()).1.1 = .ok p ∧ o ∈ p.network.outputs ∧
      o.target = some (.output ⟨1, 0⟩) ∧ p.network.output? ⟨1, 0⟩ = some out ∧
        out.result ≠ none ∧ o.type = some out.type := by
  have hrun : forkResult.toOption.any (fun p =>
      p.network.outputs.any (fun o => o.target == some (.output ⟨1, 0⟩)) &&
        (p.network.output? ⟨1, 0⟩).all fun out => out.result.isSome) = true := by
    decide +kernel
  obtain ⟨p, hp, hrun⟩ := (Option.any_eq_true _ _).1 hrun
  rw [Bool.and_eq_true, List.any_eq_true] at hrun
  obtain ⟨⟨o, ho, htarget⟩, hresult⟩ := hrun
  have hok : forkResult = .ok p := toOption_eq_some.1 hp
  obtain ⟨out, hout, htype⟩ := Assembly.output_types_agree serving_blendLibrary.1
    (forkCatalog.resolver_within _) trivial hok o ho _ (beq_iff_eq.1 htarget)
  rw [hout, Option.all_some] at hresult
  exact ⟨p, o, out, hok, ho, beq_iff_eq.1 htarget, hout, Option.isSome_iff_ne_none.1 hresult,
    htype⟩

/-! ## The interface -/

namespace Assembly

variable {σ : Type} {good : σ → Prop} {c : Catalog} {r : Resolver σ} {a : Assembly} {s : σ}
  {p : Plan}

theorem interface_eq (h : ((a.compile r).run s).1.1 = .ok p) :
    p.interface = p.network.interface := by
  obtain ⟨n, m, -, -, rfl⟩ :=
    (BlockDraft.ensures_compile .trivial s trivial).2 p (compile_eq_ok h)
  rfl

/-- The interface of a plan is consistent. The type of an output with attributes into it comes of
intersecting their types, in any order, and accepts each of them. Attributes list outputs that are
there, in order and once each, and those of the condition list none. -/
theorem interface_consistent (hc : c.Registered) (hr : r.Within c good c.Provides) (hs : good s)
    (h : ((a.compile r).run s).1.1 = .ok p) :
    (∀ o f, p.interface.outputs[o]? = some f →
      (∀ t ts, (t :: ts).Perm (p.interface.typesInto o) →
        f.type = ts.foldl p.network.types.intersect t) ∧
      ∀ t ∈ p.interface.typesInto o, p.network.types.assignable f.type t = true) ∧
    (∀ a ∈ p.interface.attributes, (∀ o ∈ a.pipelineOutputs, o < p.interface.outputs.length) ∧
      a.pipelineOutputs.Pairwise (· < ·)) ∧
    ∀ q ∈ p.interface.parameters, q.synthetic = true →
      ∀ a ∈ q.attributes, a.pipelineOutputs = [] := by
  obtain ⟨n, hn, ⟨k⟩⟩ := exists_compilation hc hr hs h
  have hsound := k.sound_interface hn
  rw [interface_eq h]
  refine ⟨fun o f hf => ⟨fun t ts hperm => k.foldl_intersect_typesInto hn hf hperm,
    fun t ht => ?_⟩, fun a ha => ?_, fun q hq hsynthetic => ?_⟩
  · obtain ⟨a, ha, rfl⟩ := List.mem_map.1 ht
    obtain ⟨ha, ho⟩ := List.mem_filter.1 ha
    obtain ⟨q, hq, ha⟩ := List.mem_flatMap.1 ha
    obtain ⟨f', hf', hassign⟩ :=
      (hsound.attributes q hq a ha).pipeline o (List.contains_iff_mem.1 ho)
    exact Option.some.inj (hf.symm.trans hf') ▸ hassign
  · obtain ⟨q, hq, ha⟩ := List.mem_flatMap.1 ha
    refine ⟨fun o ho => ?_, (hsound.attributes q hq a ha).ordered⟩
    obtain ⟨f, hf, -⟩ := (hsound.attributes q hq a ha).pipeline o ho
    exact (List.getElem?_eq_some_iff.1 hf).1
  · rcases List.mem_cons.1 hq with rfl | hq
    · exact fun a => Condition.pipelineOutputs_eq_nil
    · obtain ⟨p, -, rfl⟩ := List.mem_map.1 hq
      cases hsynthetic

end Assembly

/-- Both inputs list the output, and either order gives its type. -/
theorem Assembly.interface_consistent_fork : ∃ p f t u,
    ((forkAssembly.compile forkCatalog.resolver).run ()).1.1 = .ok p ∧
      p.interface.outputs[0]? = some f ∧ p.interface.typesInto 0 = [t, u] ∧ t ≠ u ∧
        f.type = p.network.types.intersect t u ∧ f.type = p.network.types.intersect u t := by
  have hrun : forkResult.toOption.any (fun p => p.interface.outputs[0]?.any fun _ =>
      (p.interface.typesInto 0).length == 2 && decide (p.interface.typesInto 0).Nodup) = true := by
    decide +kernel
  obtain ⟨p, hp, hrun⟩ := (Option.any_eq_true _ _).1 hrun
  obtain ⟨f, hf, hrun⟩ := (Option.any_eq_true _ _).1 hrun
  rw [Bool.and_eq_true, beq_iff_eq, decide_eq_true_eq] at hrun
  obtain ⟨t, u, htypes⟩ := List.length_eq_two.1 hrun.1
  have hne : t ≠ u := by simpa [htypes] using hrun.2
  have hok : forkResult = .ok p := toOption_eq_some.1 hp
  have hfold := ((Assembly.interface_consistent serving_blendLibrary.1
    (forkCatalog.resolver_within _) trivial hok).1 0 f hf).1
  exact ⟨p, f, t, u, hok, hf, htypes, hne, hfold t [u] (htypes ▸ .refl _),
    hfold u [t] (htypes ▸ .swap ..)⟩

end Blockwork
