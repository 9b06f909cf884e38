import Blockwork.Library
import Blockwork.Proofs.Freezing
import Blockwork.Proofs.TypeCheck

/-!
# References of a plan

In a plan every attribute that refers to something accepts the type its target has in the plan
(`Assembly.references_accepted`), and every output of the block is wired and has a type.
-/

namespace Blockwork

namespace Network

variable {n m : Network}

/-! ## Outputs of the block -/

/-- Resolving wires every output. -/
theorem isSome_target_of_resolveReferences (h : n.resolveReferences = .ok m) :
    ∀ o ∈ m.outputs, o.target.isSome = true := by
  unfold resolveReferences at h
  obtain ⟨c, -, h⟩ := bind_eq_ok.1 h
  obtain ⟨outputs, houtputs, h⟩ := bind_eq_ok.1 h
  obtain rfl := pure_eq_ok.1 h
  intro o ho
  obtain ⟨b, -, hb⟩ := mem_of_mapM_eq_ok houtputs ho
  unfold bindOutput at hb
  split at hb
  · rw [← Except.ok.inj hb]
    rfl
  · simp [reject] at hb

/-! ## The completed network -/

namespace Compilation

variable (k : Compilation n m)

/-- The network that is checked in the end. -/
def unchecked : Network :=
  ((k.frozen.setMultiplicities k.multiplicities).setInputs k.typings).setOutputTypes k.outputTypes

theorem forward_sorted : (k.resolved.setOrder k.order).Forward :=
  forward_of_sort k.sort_eq

theorem forward_frozen : k.frozen.Forward :=
  have hbare := bare_freezePipelines k.freeze_eq
  k.forward_sorted.of_declarations (congrArg Network.declarations hbare)
    (congrArg Network.order hbare :)

theorem declarations_unchecked : k.unchecked.declarations = k.frozen.declarations := by
  unfold unchecked
  rw [setInputs_eq]
  rfl

theorem declaration?_unchecked (i : Nat) :
    k.unchecked.declaration? i = k.frozen.declaration? i := by
  unfold declaration?
  rw [k.declarations_unchecked]

theorem order_unchecked : k.unchecked.order = k.frozen.order := by
  unfold unchecked
  rw [setInputs_eq]
  rfl

theorem forward_unchecked : k.unchecked.Forward :=
  k.forward_frozen.of_declarations
    (congrArg (List.map Declaration.bare) k.declarations_unchecked) k.order_unchecked

theorem outputs_unchecked : k.unchecked.outputs =
    k.resolved.outputs.zipWith (fun o t => { o with type := some t }) k.outputTypes := by
  have hbare := congrArg Network.outputs (bare_freezePipelines k.freeze_eq)
  unfold unchecked
  rw [setInputs_eq]
  exact congrArg (List.zipWith _ · _) hbare

theorem bare_eq (k : Compilation n m) : m.bare = k.unchecked.bare :=
  (checkTypes_checked k.forward_unchecked k.check_eq).1

theorem types_unchecked : k.unchecked.types = m.types :=
  (congrArg Network.types k.bare_eq.symm :)

theorem outputs_eq_unchecked (k : Compilation n m) : m.outputs = k.unchecked.outputs :=
  (congrArg Network.outputs k.bare_eq :)

/-- Each declaration of the completed network comes from checking a frozen one. -/
theorem exists_checked (k : Compilation n m) {i : Nat} {d : Declaration}
    (hd : m.declaration? i = some d) :
    ∃ e : Declaration, k.frozen.declaration? i = some e ∧ e.Checked m [] d := by
  obtain ⟨hbare, hchecked⟩ := checkTypes_checked k.forward_unchecked k.check_eq
  obtain ⟨e, he, -⟩ := exists_declaration?_of_bare hbare hd
  obtain ⟨d', hd', hcheck⟩ := hchecked i (k.forward_unchecked.mem_order he) e he
  obtain rfl := Option.some.inj (hd.symm.trans hd')
  exact ⟨e, k.declaration?_unchecked i ▸ he, hcheck⟩

/-- Every output of the completed block is wired and has a type. -/
theorem isSome_target_type (k : Compilation n m) {o : BlockOutput} (ho : o ∈ m.outputs) :
    o.target.isSome = true ∧ o.type.isSome = true := by
  rw [k.outputs_eq_unchecked, k.outputs_unchecked] at ho
  obtain ⟨i, hi⟩ := List.getElem?_of_mem ho
  obtain ⟨b, t, hb, -, rfl⟩ := getElem?_setOutputTypes (n := k.resolved) hi
  exact ⟨isSome_target_of_resolveReferences k.resolve_eq b (List.mem_of_getElem? hb), rfl⟩

/-- In the completed network every attribute accepts what its target provides. -/
theorem accepts_reference (k : Compilation n m) {id : SlotId} {s : Slot} {t : Target}
    (hs : m.slot? id = some s) (ht : s.binding = .reference t) :
    ∃ provided, m.targetType? t = some provided ∧
      m.types.assignable s.type provided = true := by
  obtain ⟨d, hd, hs⟩ := slot?_eq_some.1 hs
  obtain ⟨e, -, hchecked⟩ := k.exists_checked hd
  rw [Declaration.slot?_congr hchecked.parameters] at hs
  exact hchecked.accepts _ _ s t hs (by simp) ht

end Compilation

end Network

/-- In the plan of an assembly every attribute that refers to something accepts the type its
target has in the plan, and every output of the block is wired and has a type. -/
theorem Assembly.references_accepted {σ : Type} {r : Resolver σ} {a : Assembly} {s : σ} {p : Plan}
    (h : ((a.compile r).run s).1.1 = .ok p) :
    (∀ id slot t, p.network.slot? id = some slot → slot.binding = .reference t →
      ∃ provided, p.network.targetType? t = some provided ∧
        p.network.types.assignable slot.type provided = true) ∧
    ∀ o ∈ p.network.outputs, o.target.isSome = true ∧ o.type.isSome = true := by
  obtain ⟨n, m, -, hm, rfl⟩ :=
    (BlockDraft.ensures_compile .trivial s trivial).2 p (compile_eq_ok h)
  obtain ⟨k⟩ := Network.exists_compilation hm
  exact ⟨fun _ _ _ hs ht => k.accepts_reference hs ht, fun _ ho => k.isSome_target_type ho⟩

/-! ## A relay

A number passes through a pipeline to an attribute that needs an integer. The declared type of
the pipeline's output is too wide for it, the type recorded for the output is not. -/

/-- A source of integers, a pipeline of numbers and a sink of integers. -/
def relayCatalog : Catalog :=
  let source := ComponentDraft.new "Source" "out" "Integer"
  let pass := (ComponentDraft.new "Pass" "out" "Number").addParam
    ((ComponentParamDraft.new "in" 1 (some 1)).pipelineAttr "value" "Number")
  let sink := (ComponentDraft.new "Sink" "out" "Object").addParam
    ((ComponentParamDraft.new "in" 1 (some 1)).attr "value" "Integer")
  ((Library.collect Catalog.register [source, pass, sink]).run Catalog.standard).2

/-- The source wired to the sink through the pipeline. -/
def relay : Assembly where
  draft := { BlockDraft.new "relay" with
    declarations := [
      DeclarationDraft.new "source" (.component "Source"),
      (DeclarationDraft.new "pass" (.component "Pass")).param "in" [("value", "@source.out")],
      (DeclarationDraft.new "sink" (.component "Sink")).param "in" [("value", "@pass.out")]]
    outputs := [⟨"result", "@sink.out", none⟩] }
  state := .growing

/-- What comes of the relay. -/
def relayResult : Except Fault Plan :=
  ((relay.compile relayCatalog.resolver).run ()).1.1

theorem Assembly.references_accepted_relay : ∃ p slot provided,
    ((relay.compile relayCatalog.resolver).run ()).1.1 = .ok p ∧
      p.network.slot? ⟨2, 1, 0⟩ = some slot ∧
        p.network.targetType? (.output ⟨1, 0⟩) = some provided ∧
          p.network.types.assignable slot.type provided = true ∧
            (p.network.output? ⟨1, 0⟩).any (fun o =>
              p.network.types.assignable slot.type o.declared) = false := by
  have hrun : relayResult.toOption.any (fun p =>
      (p.network.slot? ⟨2, 1, 0⟩).any fun slot =>
        slot.binding == .reference (.output ⟨1, 0⟩) &&
          !(p.network.output? ⟨1, 0⟩).any fun o =>
            p.network.types.assignable slot.type o.declared) = true := by
    decide +kernel
  obtain ⟨p, hp, hany⟩ := (Option.any_eq_true _ _).1 hrun
  obtain ⟨slot, hslot, h⟩ := (Option.any_eq_true _ _).1 hany
  rw [Bool.and_eq_true, beq_iff_eq, Bool.not_eq_true'] at h
  have hok : relayResult = .ok p := toOption_eq_some.1 hp
  obtain ⟨provided, hprovided, haccepts⟩ :=
    (Assembly.references_accepted hok).1 _ slot _ hslot h.1
  exact ⟨p, slot, provided, hok, hslot, hprovided, haccepts, h.2⟩

end Blockwork
