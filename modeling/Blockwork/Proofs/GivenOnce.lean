import Blockwork.Proofs.BundleSafety

/-!
# What has to be given once

A formal parameter that is given once occurs once in every declaration, and the inputs that its
occurrence refers to are given once. This is what inferring multiplicities comes to for it
(`Network.exists_only_of_inferMultiplicities`), and it is still so in a plan
(`Network.Compilation.exists_only`).
-/

namespace Blockwork

open Multiplicity

namespace Network

/-! ## Formal parameters that are given once -/

theorem length_eq_one_of_countedTotal {occurrences : List Parameter} {k : Nat}
    (hrefers : 0 < referring occurrences) (hk : 1 ≤ k)
    (htotal : countedTotal occurrences k = 1) : occurrences.length = 1 := by
  have hsize := toNat_clamp_natCast occurrences.length
  have hle := referring_le_length occurrences
  have hpos : referring occurrences ≤ referring occurrences * k := Nat.le_mul_of_pos_right _ hk
  unfold countedTotal at htotal
  omega

theorem countedTotal_singleton {q : Parameter} (hrefers : q.inputsReferredTo ≠ []) (k : Nat) :
    countedTotal [q] k = k := by
  have hone : referring [q] = 1 := by simp [referring, hrefers]
  simp [countedTotal, hone, toNat_clamp]

variable {n m e : Network} {d d₀ : Declaration}

/-- If multiplicities can be inferred, a formal parameter that is given once occurs once in every
declaration, and the inputs that its occurrence refers to are given once. -/
theorem exists_only_of_inferMultiplicities (hn : n.Resolved)
    (hany : ∀ p ∈ n.params, p.multiplicity = .any) {ms : List Multiplicity}
    (h : n.inferMultiplicities = .ok ms) (hd : d ∈ n.declarations) {i : Nat} {f : FormalParameter}
    (hf : d.specification.interface.parameters[i]? = some f) (hone : f.multiplicity = .one) :
    ∃ q, occurrencesOf d i = [q] ∧ ∀ input ∈ q.inputsReferredTo, ms[input]? = some .one := by
  have hnarrows :=
    narrows_inferMultiplicities hn hany (counted_of_inferMultiplicities hn h)
  rw [h] at hnarrows
  obtain ⟨hfits, hlength, hpermits, hviable⟩ := hnarrows
  -- However often an input is given that an occurrence refers to, there is one in all.
  have htotal : ∀ q ∈ occurrencesOf d i, ∀ input ∈ q.inputsReferredTo, ∀ k, Permits ms input k →
      countedTotal (occurrencesOf d i) k = 1 := fun q hq input hinput k hk => by
    have hadmits := ((hpermits input k).1 hk).2.1 d hd i f hf ⟨q, hq, hinput⟩
    rwa [hone, allows_one] at hadmits
  have hgiven : ∀ q ∈ occurrencesOf d i, ∀ input ∈ q.inputsReferredTo, ∃ k, 1 ≤ k ∧
      Permits ms input k := fun q hq input hinput => by
    refine hviable input ?_
    rw [hlength, List.length_map]
    exact hn.slots d hd q (List.mem_of_mem_filter hq) input hinput
  have honce : (occurrencesOf d i).length = 1 := by
    by_cases hnone : ∀ q ∈ occurrencesOf d i, q.inputsReferredTo = []
    · by_contra hnot
      refine hfits ⟨d, hd, i, f, hf, .wrongNumber hnone ?_⟩
      rwa [hone, allows_one]
    · push Not at hnone
      obtain ⟨q, hq, hrefers⟩ := hnone
      obtain ⟨input, hinput⟩ := List.exists_mem_of_ne_nil _ hrefers
      obtain ⟨k, hk, hpermit⟩ := hgiven q hq input hinput
      exact length_eq_one_of_countedTotal (referring_pos_iff.2 ⟨q, hq, hrefers⟩) hk
        (htotal q hq input hinput k hpermit)
  obtain ⟨q, hq⟩ := List.length_eq_one_iff.1 honce
  rw [hq] at htotal hgiven
  refine ⟨q, hq, fun input hinput => ?_⟩
  have honly : ∀ k, Permits ms input k → k = 1 := fun k hk => by
    rw [← countedTotal_singleton (List.ne_nil_of_mem hinput) k]
    exact htotal q (List.mem_singleton_self q) input hinput k hk
  obtain ⟨k, -, hpermit⟩ := hgiven q (List.mem_singleton_self q) input hinput
  obtain rfl := honly k hpermit
  obtain ⟨m, hm, hallows⟩ := hpermit
  have hsame : m = .one := eq_of_allows hallows fun k =>
    ⟨fun hk => allows_one.2 (honly k ⟨m, hm, hk⟩), fun hk => allows_one.1 hk ▸ hallows⟩
  rw [hm, hsame]

/-! ## In a plan -/

theorem multiplicities_setInputs (ts : List (InputId × InputTyping)) :
    (n.setInputs ts).params.map BlockParameter.multiplicity =
      n.params.map BlockParameter.multiplicity := by
  unfold setInputs
  induction ts generalizing n with
  | nil => rfl
  | cons t ts ih =>
    rw [List.foldl_cons, ih]
    exact map_modify_of_eq fun _ _ => rfl

theorem multiplicities_setMultiplicities {ms : List Multiplicity}
    (h : ms.length = n.params.length) :
    (n.setMultiplicities ms).params.map BlockParameter.multiplicity = ms := by
  unfold setMultiplicities
  rw [List.map_zipWith, List.zipWith_comm]
  exact (zipWith_eq_map h.symm).trans (List.map_id ms)

namespace Compilation

theorem multiplicities_eq_map (k : Compilation n m) :
    m.params.map BlockParameter.multiplicity = k.multiplicities := by
  have hparams : m.params = k.unchecked.params := (congrArg Network.params k.bare_eq :)
  calc m.params.map BlockParameter.multiplicity
    _ = ((k.frozen.setMultiplicities k.multiplicities).setInputs k.typings).params.map
        BlockParameter.multiplicity := congrArg _ hparams
    _ = (k.frozen.setMultiplicities k.multiplicities).params.map BlockParameter.multiplicity :=
      multiplicities_setInputs k.typings
    _ = k.multiplicities :=
      multiplicities_setMultiplicities (length_inferMultiplicities k.multiplicities_eq)

/-- A formal parameter that is given once occurs once in every declaration of a plan, and the inputs
that its occurrence refers to are given once. -/
theorem exists_only (k : Compilation n m) (hn : n.Untouched) {i j : Nat}
    (hd : m.declaration? i = some d) {f : FormalParameter}
    (hf : d.specification.interface.parameters[j]? = some f)
    (hone : f.multiplicity = .one) : ∃ q, occurrencesOf d j = [q] ∧
      ∀ input ∈ q.inputsReferredTo, ∃ x, m.params[input]? = some x ∧ x.multiplicity = .one := by
  obtain ⟨e, he, hchecked⟩ := k.exists_checked hd
  have hresolved := (hn.toWellLinked.wellResolved hn.hasOutputs hn.multiplicities k.expand_eq
    k.resolve_eq).setOrder k.order
  have hfrozen := (k.prepared hn.toWellLinked).resolved (hresolved.outputsWired_frozen k.freeze_eq)
  have hspecification : d.specification = e.specification :=
    (congrArg Declaration.specification hchecked.bare :)
  rw [hspecification] at hf
  obtain ⟨q, hq, hinputs⟩ := exists_only_of_inferMultiplicities hfrozen
    (hresolved.multiplicities_frozen k.freeze_eq) k.multiplicities_eq (List.mem_of_getElem? he) hf
    hone
  have hsame : occurrencesOf d j = [q] := by
    unfold occurrencesOf
    rw [hchecked.parameters]
    exact hq
  refine ⟨q, hsame, fun input hinput => ?_⟩
  have hinput := hinputs input hinput
  rw [← k.multiplicities_eq_map, List.getElem?_map] at hinput
  exact Option.map_eq_some_iff.1 hinput

/-- In a plan an attribute requires nothing but what its formal attribute does. -/
theorem assignable_formal (k : Compilation n m) (hn : n.WellLinked) {i p a : Nat}
    (hd : m.declaration? i = some d) {q : Parameter} (hq : d.parameters[p]? = some q) {s : Slot}
    (hs : q.slots[a]? = some s) : ∃ f x, d.specification.interface.parameters[q.formal]? = some f ∧
      f.attributes[a]? = some x ∧ m.types.assignable x.type s.type = true := by
  have hw := k.wellFormed hn
  obtain ⟨d₀, e, hd₀, -, hfrozen, hchecked⟩ := k.exists_stages hn hd
  have hbare : d.bare = d₀.bare := hchecked.bare.trans hfrozen.bare
  have hslot : e.slot? p a = some s := by
    rw [← Declaration.slot?_congr hchecked.parameters]
    exact Declaration.slot?_eq_some.2 ⟨q, hq, hs⟩
  obtain ⟨s₀, hs₀, hcase⟩ := hfrozen.slot p a s hslot
  obtain ⟨q₀, f, x, hq₀, hf, hx, hfresh, hsound⟩ := hd₀.slot hs₀
  have hformal : q.formal = q₀.formal := by
    have hformals := congrArg (fun d : Declaration => d.parameters[p]?.map Parameter.formal) hbare
    simpa [Declaration.bare, Parameter.bare, hq, hq₀] using hformals
  have hspecification : d.specification = d₀.specification :=
    (congrArg Declaration.specification hbare :)
  have hdeclared : m.types.Formed s₀.declared := hfresh.declared ▸ hsound.formed
  refine ⟨f, x, by rwa [hformal, hspecification], hx, hfresh.declared ▸ ?_⟩
  rcases hcase with ⟨t, ht, merged, hmerged, rfl⟩ | ⟨-, rfl⟩
  · exact (hw.assignable_merge (k.formed_of_freezing hn ht) hdeclared hmerged).2
  · unfold Slot.type
    rw [hfresh.frozen]
    exact hw.assignable_refl hdeclared

end Compilation

end Network

end Blockwork
