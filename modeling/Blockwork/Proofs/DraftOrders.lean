import Blockwork.Proofs.DraftTypes
import Blockwork.Proofs.InferenceOrder

/-!
# Drafts in any order

The order of execution is chosen by the names of declarations. What the stages after it find out
does not depend on the choice: freezing, the multiplicities, the types and the check of types come
out the same for any two forward orders of a resolved network (`BlockDraft.order_irrelevant`).
-/

namespace Blockwork

namespace Network

variable {r f f' : Network} {order order' : List Nat}

/-- Freezing leaves the same declarations in any forward order, if it leaves any. -/
theorem freezePipelines_setOrder (hforward : (r.setOrder order).Forward)
    (hforward' : (r.setOrder order').Forward) :
    (r.setOrder order').freezePipelines.toOption.map declarations =
      (r.setOrder order).freezePipelines.toOption.map declarations :=
  foldlM_slotIds_any_order actsAt_freezeAt hforward hforward' rfl rfl fun _ => rfl

/-- With the same declarations, networks frozen in different orders differ in the order only. -/
theorem eq_setOrder_of_freezePipelines (h : (r.setOrder order).freezePipelines = .ok f)
    (h' : (r.setOrder order').freezePipelines = .ok f')
    (hdecls : f'.declarations = f.declarations) : f' = f.setOrder order' := by
  have hbare := bare_freezePipelines h
  have hbare' := bare_freezePipelines h'
  cases f
  cases f'
  simp only [bare, setOrder, Network.mk.injEq] at hbare hbare' hdecls ⊢
  simp_all

/-- The types of a prepared network and their check come out the same in any order. -/
theorem Prepared.checkTypes_setOrder (hf : f.Prepared) (hf' : (f.setOrder order).Prepared)
    (hwired : f.OutputsWired) {ts ts' : List (InputId × InputTyping)} (hts : f.inferInputs = .ok ts)
    (hts' : (f.setOrder order).inferInputs = .ok ts') :
    List.Forall₂ SameTyping ts ts' ∧
      ∃ os, (f.setInputs ts).inferOutputTypes = .ok os ∧
        ((f.setOrder order).setInputs ts').inferOutputTypes = .ok os ∧
          (((f.setOrder order).setInputs ts').setOutputTypes os).checkTypes.toOption.map
              declarations =
            ((f.setInputs ts).setOutputTypes os).checkTypes.toOption.map declarations := by
  have hsame := hf.inferInputs_setOrder hf' hts hts'
  have htyped := hf.inputsTyped hts
  have htyped' := hf'.inputsTyped hts'
  have htypes : ((f.setOrder order).setInputs ts').types = (f.setInputs ts).types := by
    rw [setInputs_eq, setInputs_eq f]
    rfl
  have hdecls :
      ((f.setOrder order).setInputs ts').declarations = (f.setInputs ts).declarations := by
    rw [setInputs_eq, setInputs_eq f]
    rfl
  have houtputs : ((f.setOrder order).setInputs ts').outputs = (f.setInputs ts).outputs := by
    rw [setInputs_eq, setInputs_eq f]
    rfl
  have hinputs := targetType?_setInputs hsame (n := f) (m := f.setOrder order) fun _ => rfl
  obtain ⟨os, hos⟩ := htyped.toPrepared.exists_inferOutputTypes (hwired.setInputs ts)
  obtain ⟨os', hos'⟩ := htyped'.toPrepared.exists_inferOutputTypes
    (OutputsWired.setInputs (n := f.setOrder order) hwired ts')
  obtain rfl := htyped.toPrepared.inferOutputTypes_congr htyped'.toPrepared htyped.reduced
    htyped'.reduced htypes hdecls houtputs hinputs hos hos'
  exact ⟨hsame, os', hos, hos', foldlM_slotIds_any_order actsAt_checkAt (htyped.typed hos).forward
    (htyped'.typed hos').forward htypes hdecls hinputs⟩

end Network

namespace BlockDraft

variable {σ : Type} {good : σ → Prop} {c : Catalog} {r : Resolver σ} {b : BlockDraft} {s : σ}
  {n e m f u : Network}

/-- After star references are expanded and references resolved, a linked block is well resolved. -/
theorem wellResolved_of_link (hc : c.Registered) (hr : r.Within c good c.Provides) (hs : good s)
    (hlink : ((b.link r).run.run s).1 = .ok n) (hexpand : n.expandStars = .ok e)
    (hresolve : e.resolveReferences = .ok m) : m.WellResolved := by
  have hn := ((b.ensures_link hc (hr.mono fun _ hx => hx.sound hc) s hs).2 n hlink).2
  have hout := (b.ensures_hasOutputs r s trivial).2 n hlink
  have hany := (b.ensures_params r s trivial).2 n hlink
  exact hn.wellResolved hout hany hexpand hresolve

/-- The stages from freezing on do not depend on which forward order they go through. Freezing
succeeds in both orders or in neither, and leaves the same declarations. So does the inference of
multiplicities, with the same multiplicities. Where types are found for the inputs in both orders,
they are the same, and each input lists the same outputs as often. Then the types of the outputs are
found and are the same, and the check succeeds in both orders or in neither, and leaves the same
declarations. -/
theorem order_irrelevant (hc : c.Registered) (hr : r.Within c good c.Provides) (hs : good s)
    (hlink : ((b.link r).run.run s).1 = .ok n) (hexpand : n.expandStars = .ok e)
    (hresolve : e.resolveReferences = .ok m) {order order' : List Nat}
    (hforward : (m.setOrder order).Forward) (hforward' : (m.setOrder order').Forward) :
    (m.setOrder order').freezePipelines.toOption.map Network.declarations =
      (m.setOrder order).freezePipelines.toOption.map Network.declarations ∧
    ∀ f f', (m.setOrder order).freezePipelines = .ok f →
      (m.setOrder order').freezePipelines = .ok f' →
      f'.inferMultiplicities.toOption = f.inferMultiplicities.toOption ∧
      ∀ ms, f.inferMultiplicities = .ok ms →
        ∀ ts ts', (f.setMultiplicities ms).inferInputs = .ok ts →
          (f'.setMultiplicities ms).inferInputs = .ok ts' →
          List.Forall₂ SameTyping ts ts' ∧
            ∃ os, ((f.setMultiplicities ms).setInputs ts).inferOutputTypes = .ok os ∧
              ((f'.setMultiplicities ms).setInputs ts').inferOutputTypes = .ok os ∧
                (((f'.setMultiplicities ms).setInputs ts').setOutputTypes
                    os).checkTypes.toOption.map Network.declarations =
                  (((f.setMultiplicities ms).setInputs ts).setOutputTypes
                    os).checkTypes.toOption.map Network.declarations := by
  have hm := wellResolved_of_link hc hr hs hlink hexpand hresolve
  have hfreeze := Network.freezePipelines_setOrder hforward hforward'
  refine ⟨hfreeze, fun f f' hf hf' => ?_⟩
  rw [hf, hf'] at hfreeze
  have hprepared := (hm.setOrder order).prepared hforward hf
  have hprepared' := (hm.setOrder order').prepared hforward' hf'
  have hwired := (hm.setOrder order).outputsWired_frozen hf
  obtain rfl := Network.eq_setOrder_of_freezePipelines hf hf' (Option.some.inj hfreeze)
  refine ⟨(hprepared.resolved hwired).inferMultiplicities_setOrder
    ((hm.setOrder order).multiplicities_frozen hf) hprepared'.forward.perm,
    fun ms hms ts ts' hts hts' => ?_⟩
  have hin : ∀ id, (f.setMultiplicities ms).input? id = none ↔ f.input? id = none := fun id => by
    rw [Network.input?_setMultiplicities (Network.length_inferMultiplicities hms)]
  exact Network.Prepared.checkTypes_setOrder (f := f.setMultiplicities ms)
    (hprepared.congr rfl rfl rfl hin) (hprepared'.congr rfl rfl rfl hin)
    (Network.OutputsWired.congr hwired rfl rfl hin) hts hts'

/-- The fork may be executed with its sink at the end or at the start. -/
theorem order_irrelevant_fork : ∃ n e m f f' ms ts ts',
    ((fork.link forkCatalog.resolver).run.run ()).1 = .ok n ∧ n.expandStars = .ok e ∧
      e.resolveReferences = .ok m ∧ (m.setOrder [0, 1, 2]).Forward ∧
        (m.setOrder [2, 0, 1]).Forward ∧ (m.setOrder [0, 1, 2]).freezePipelines = .ok f ∧
          (m.setOrder [2, 0, 1]).freezePipelines = .ok f' ∧ f'.inferMultiplicities = .ok ms ∧
            f'.declarations = f.declarations ∧ List.Forall₂ SameTyping ts ts' ∧
              ∃ os, ((f.setMultiplicities ms).setInputs ts).inferOutputTypes = .ok os ∧
                ((f'.setMultiplicities ms).setInputs ts').inferOutputTypes = .ok os := by
  have hrun : forkLinked.toOption.any (fun n => n.expandStars.toOption.any fun e =>
      e.resolveReferences.toOption.any fun m => decide (m.setOrder [0, 1, 2]).Forward &&
        (decide (m.setOrder [2, 0, 1]).Forward &&
          (m.setOrder [0, 1, 2]).freezePipelines.toOption.any fun f =>
            (m.setOrder [2, 0, 1]).freezePipelines.toOption.any fun f' =>
              f.inferMultiplicities.toOption.any fun ms =>
                (f.setMultiplicities ms).inferInputs.toOption.isSome &&
                  (f'.setMultiplicities ms).inferInputs.toOption.isSome)) = true := by
    decide +kernel
  obtain ⟨n, hn, hrun⟩ := (Option.any_eq_true _ _).1 hrun
  obtain ⟨e, he, hrun⟩ := (Option.any_eq_true _ _).1 hrun
  obtain ⟨m, hm, hrun⟩ := (Option.any_eq_true _ _).1 hrun
  rw [Bool.and_eq_true, Bool.and_eq_true, decide_eq_true_iff, decide_eq_true_iff] at hrun
  obtain ⟨hforward, hforward', hrun⟩ := hrun
  obtain ⟨f, hf, hrun⟩ := (Option.any_eq_true _ _).1 hrun
  obtain ⟨f', hf', hrun⟩ := (Option.any_eq_true _ _).1 hrun
  obtain ⟨ms, hms, hrun⟩ := (Option.any_eq_true _ _).1 hrun
  rw [Bool.and_eq_true, Option.isSome_iff_exists, Option.isSome_iff_exists] at hrun
  obtain ⟨⟨ts, hts⟩, ts', hts'⟩ := hrun
  have hlink : forkLinked = .ok n := toOption_eq_some.1 hn
  have hexpand := toOption_eq_some.1 he
  have hresolve := toOption_eq_some.1 hm
  obtain ⟨hdecls, hstages⟩ := order_irrelevant serving_blendLibrary.1
    (forkCatalog.resolver_within _) trivial hlink hexpand hresolve hforward hforward'
  rw [hf, hf'] at hdecls
  obtain ⟨hmultiplicities, htypes⟩ :=
    hstages f f' (toOption_eq_some.1 hf) (toOption_eq_some.1 hf')
  obtain ⟨hsame, os, hos, hos', -⟩ := htypes ms (toOption_eq_some.1 hms) ts ts'
    (toOption_eq_some.1 hts) (toOption_eq_some.1 hts')
  exact ⟨n, e, m, f, f', ms, ts, ts', hlink, hexpand, hresolve, hforward, hforward',
    toOption_eq_some.1 hf, toOption_eq_some.1 hf', toOption_eq_some.1 (hmultiplicities.trans hms),
    Option.some.inj hdecls, hsame, os, hos, hos'⟩

end BlockDraft

end Blockwork
