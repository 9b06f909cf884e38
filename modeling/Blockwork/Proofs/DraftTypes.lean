import Blockwork.Proofs.Checking
import Blockwork.Proofs.PlanTypes

/-!
# Types inferred for drafts

A block that is linked with a resolver of a catalog is compiled in parts: it is prepared, its types
are inferred, and they are checked. The types found for its inputs are exactly what the attributes
ask for that the inputs flow to (`BlockDraft.inputs_exact`). So the check of types finds fault only
with references to outputs whose type no input decides (`BlockDraft.open_references_pass`).
-/

namespace Blockwork

namespace BlockDraft

variable {σ : Type} {good : σ → Prop} {c : Catalog} {r : Resolver σ} {b : BlockDraft} {s : σ}
  {n f u : Network}

/-- A linked block is prepared in the end. -/
theorem prepared_of_link (hc : c.Registered) (hr : r.Within c good c.Provides) (hs : good s)
    (hlink : ((b.link r).run.run s).1 = .ok n) (hprepare : n.prepare = .ok f) : f.Prepared :=
  ((b.ensures_link hc (hr.mono fun _ hx => hx.sound hc) s hs).2 n hlink).2.prepared hprepare

/-- The type inferred for an input is accepted by all attributes the input flows to, it is the
widest such type, and the one of all objects if there are no such attributes. The input lists each
output of the block once for each path over open pipelines to what the output is wired to. -/
theorem inputs_exact (hc : c.Registered) (hr : r.Within c good c.Provides) (hs : good s)
    (hlink : ((b.link r).run.run s).1 = .ok n) (hprepare : n.prepare = .ok f)
    {ts : List (InputId × InputTyping)} (hts : f.inferInputs = .ok ts) {id : InputId}
    {i : BlockInput} (hi : (f.setInputs ts).input? id = some i) :
    (∀ t, f.Requires id t → f.types.assignable t i.type = true) ∧
    (∀ u, f.types.Formed u → (∀ t, f.Requires id t → f.types.assignable t u = true) →
      f.types.assignable i.type u = true) ∧
    ((∀ t, ¬f.Requires id t) → i.type = ClassType.object) ∧
    ∀ o, {path | f.Delivers id o path}.encard = i.pipelineOutputs.count o := by
  have hf := prepared_of_link hc hr hs hlink hprepare
  obtain ⟨hmeet, hcount⟩ := Network.input?_inferInputs hf hts hi
  exact ⟨hmeet.held, hmeet.greatest,
    fun hnone => (Hierarchy.IsMeet.object_iff hf.types hnone).1 hmeet, hcount⟩

end BlockDraft

/-! ### A fork

The first input goes to an output of the block on two ways, and to a sink besides. -/

/-- The sources, pairs and sinks of a catalog. -/
def forkCatalog : Catalog :=
  blendLibrary.catalog

/-- The block with two pairs of numbers and a sink of integers. -/
def fork : BlockDraft :=
  { BlockDraft.new "fork" with
    declarations := [
      (DeclarationDraft.new "p" (.component "Pair")).param "in"
        [("left", "@in.x"), ("right", "@in.y")],
      (DeclarationDraft.new "q" (.component "Pair")).param "in"
        [("left", "@p.out"), ("right", "@in.x")],
      (DeclarationDraft.new "s" (.component "Sink")).param "in" [("value", "@in.x")]] }
    |>.param "in" ["x", "y"] |>.output "both" "@q.out"

/-- The linked block. -/
def forkLinked : Except Fault Network :=
  ((fork.link forkCatalog.resolver).run.run ()).1

/-- There are two paths from the first input to the output. -/
theorem BlockDraft.inputs_exact_fork : ∃ n f ts i,
    ((fork.link forkCatalog.resolver).run.run ()).1 = .ok n ∧ n.prepare = .ok f ∧
      f.inferInputs = .ok ts ∧ (f.setInputs ts).input? ⟨0, 0⟩ = some i ∧
        {path | f.Delivers ⟨0, 0⟩ 0 path}.encard = 2 := by
  have hrun : forkLinked.toOption.any (fun n => n.prepare.toOption.any fun f =>
      f.inferInputs.toOption.any fun ts => ((f.setInputs ts).input? ⟨0, 0⟩).any fun i =>
        i.pipelineOutputs == [0, 0]) = true := by
    decide +kernel
  obtain ⟨n, hn, hrun⟩ := (Option.any_eq_true _ _).1 hrun
  obtain ⟨f, hf, hrun⟩ := (Option.any_eq_true _ _).1 hrun
  obtain ⟨ts, hts, hrun⟩ := (Option.any_eq_true _ _).1 hrun
  obtain ⟨i, hi, hlists⟩ := (Option.any_eq_true _ _).1 hrun
  have hlink : forkLinked = .ok n := toOption_eq_some.1 hn
  have hprepare := toOption_eq_some.1 hf
  have htypings := toOption_eq_some.1 hts
  have hexact := BlockDraft.inputs_exact serving_blendLibrary.1 (forkCatalog.resolver_within _)
    trivial hlink hprepare htypings hi
  refine ⟨n, f, ts, i, hlink, hprepare, htypings, hi, ?_⟩
  rw [hexact.2.2.2 0, beq_iff_eq.1 hlists]
  rfl

/-! ## The check of types -/

namespace BlockDraft

variable {σ : Type} {good : σ → Prop} {c : Catalog} {r : Resolver σ} {b : BlockDraft} {s : σ}
  {n f u : Network}

/-- After all types are inferred, the check of types passes every attribute it reaches that refers
to an input or to an output with pipelines. Where it fails, it does so at an attribute that refers
to an output without pipelines. -/
theorem open_references_pass (hc : c.Registered) (hr : r.Within c good c.Provides) (hs : good s)
    (hlink : ((b.link r).run.run s).1 = .ok n) (hprepare : n.prepare = .ok f)
    (hinfer : f.infer = .ok u) :
    (∀ before id after m slot t, u.slotIds = before ++ id :: after →
      before.foldlM Network.checkAt u = .ok m → u.slot? id = some slot →
        slot.binding = .reference t → u.IsOpen t → ∃ m', m.checkAt id = .ok m') ∧
    ∀ fault, u.checkTypes = .error fault → ∃ before id after m slot oid o,
      u.slotIds = before ++ id :: after ∧ before.foldlM Network.checkAt u = .ok m ∧
        m.checkAt id = .error fault ∧ u.slot? id = some slot ∧
          slot.binding = .reference (.output oid) ∧ u.output? oid = some o ∧ o.fedBy = [] := by
  have hu := (prepared_of_link hc hr hs hlink hprepare).typed hinfer
  exact ⟨fun _ _ _ _ _ _ hids hm hslot ht hopen =>
    Network.exists_checkAt hu.toInputsTyped hids hm hslot ht hopen,
    fun _ h => Network.exists_of_checkTypes_error hu.toInputsTyped h⟩

end BlockDraft

/-! ### A mixed block

A sink of integers takes what a pair provides, and another one what a source of numbers does. -/

/-- The block with a reference to an open output and one to a fixed output. -/
def mixed : BlockDraft :=
  { BlockDraft.new "mixed" with
    declarations := [
      (DeclarationDraft.new "p" (.component "Pair")).param "in"
        [("left", "@in.x"), ("right", "@in.x")],
      (DeclarationDraft.new "s" (.component "Sink")).param "in" [("value", "@p.out")],
      DeclarationDraft.new "source" (.component "Source"),
      (DeclarationDraft.new "t" (.component "Sink")).param "in" [("value", "@source.out")]] }
    |>.param "in" ["x"] |>.output "result" "@s.out"

/-- The linked block. -/
def mixedLinked : Except Fault Network :=
  ((mixed.link forkCatalog.resolver).run.run ()).1

/-- The attribute that refers to the pair passes, and the check fails at one that refers to an
output without pipelines. -/
theorem BlockDraft.open_references_pass_mixed : ∃ n f u,
    ((mixed.link forkCatalog.resolver).run.run ()).1 = .ok n ∧ n.prepare = .ok f ∧
      f.infer = .ok u ∧
        (∃ m m', (u.slotIds.take 6).foldlM Network.checkAt u = .ok m ∧
          m.checkAt ⟨1, 1, 0⟩ = .ok m') ∧
        ∃ fault id slot oid o, u.checkTypes = .error fault ∧ u.slot? id = some slot ∧
          slot.binding = .reference (.output oid) ∧ u.output? oid = some o ∧ o.fedBy = [] := by
  have hrun : mixedLinked.toOption.any (fun n => n.prepare.toOption.any fun f =>
      f.infer.toOption.any fun u => (u.checkTypes.toOption.isNone &&
        u.slotIds == u.slotIds.take 6 ++ ⟨1, 1, 0⟩ :: u.slotIds.drop 7) &&
          (((u.slotIds.take 6).foldlM Network.checkAt u).toOption.isSome &&
            ((u.slot? ⟨1, 1, 0⟩).any (fun s => s.binding == .reference (.output ⟨0, 0⟩)) &&
              (u.output? ⟨0, 0⟩).any Output.isPipeline))) = true := by
    decide +kernel
  obtain ⟨n, hn, hrun⟩ := (Option.any_eq_true _ _).1 hrun
  obtain ⟨f, hf, hrun⟩ := (Option.any_eq_true _ _).1 hrun
  obtain ⟨u, hu, hrun⟩ := (Option.any_eq_true _ _).1 hrun
  simp only [Bool.and_eq_true, beq_iff_eq] at hrun
  obtain ⟨⟨hfails, hids⟩, hm, hslot, hopen⟩ := hrun
  obtain ⟨m, hm⟩ := Option.isSome_iff_exists.1 hm
  obtain ⟨slot, hslot, ht⟩ := (Option.any_eq_true _ _).1 hslot
  obtain ⟨o, ho, hopen⟩ := (Option.any_eq_true _ _).1 hopen
  have hlink : mixedLinked = .ok n := toOption_eq_some.1 hn
  have hprepare := toOption_eq_some.1 hf
  have hinfer := toOption_eq_some.1 hu
  have hm := toOption_eq_some.1 hm
  obtain ⟨hpass, hfault⟩ := BlockDraft.open_references_pass serving_blendLibrary.1
    (forkCatalog.resolver_within _) trivial hlink hprepare hinfer
  obtain ⟨m', hm'⟩ := hpass _ _ _ m slot _ hids hm hslot (beq_iff_eq.1 ht)
    ⟨o, ho, by simpa [Output.isPipeline] using hopen⟩
  refine ⟨n, f, u, hlink, hprepare, hinfer, ⟨m, m', hm, hm'⟩, ?_⟩
  cases herror : u.checkTypes with
  | ok _ => simp [herror, Except.toOption] at hfails
  | error fault =>
    obtain ⟨-, id, -, -, slot, oid, o, -, -, -, hslot, ht, ho, hnil⟩ := hfault fault herror
    exact ⟨fault, id, slot, oid, o, rfl, hslot, ht, ho, hnil⟩

end Blockwork
