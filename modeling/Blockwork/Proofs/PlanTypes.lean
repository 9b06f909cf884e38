import Blockwork.Proofs.Provides

/-!
# Literals and outputs of a plan

The literals of a plan have the types their attributes were declared with, and its outputs keep
within their declared types, as long as nothing is frozen. Freezing fixes all attributes that are
connected by pipelines to the type of the first thing known, without a second look at the literals
among them, and records this type on all their outputs. So a literal has the type of its attribute
just if it has the type that fixed the attribute (`Assembly.literal_sound_iff`), and an output
keeps within its declared type just if the type that reached it does
(`Assembly.output_narrowed_iff`).
-/

namespace Blockwork

namespace Assembly

variable {σ : Type} {good : σ → Prop} {c : Catalog} {r : Resolver σ} {a : Assembly} {s : σ}
  {p : Plan}

/-- The plan of an assembly is compiled from a network of fresh declarations. -/
theorem exists_compilation (hc : c.Registered) (hr : r.Within c good c.Provides) (hs : good s)
    (h : ((a.compile r).run s).1.1 = .ok p) :
    ∃ n : Network, n.WellLinked ∧ Nonempty (n.Compilation p.network) := by
  obtain ⟨n, m, ⟨-, hn⟩, hk, rfl⟩ :=
    (BlockDraft.ensures_compilation hc (hr.mono fun _ hx => hx.sound hc) a.draft s hs).2 p
      (compile_eq_ok h)
  exact ⟨n, hn, hk⟩

/-- A literal of a plan has the type of its attribute just if it has the type that fixed the
attribute, in case one did. -/
theorem literal_sound_iff (hc : c.Registered) (hr : r.Within c good c.Provides) (hs : good s)
    (h : ((a.compile r).run s).1.1 = .ok p) {id : SlotId} {slot : Slot} {v : Literal}
    (hslot : p.network.slot? id = some slot) (hv : slot.binding = .literal v) :
    p.network.types.assignable slot.type (p.network.types.literalType v) = true ↔
      ∀ t, p.network.FrozenBy id t →
        p.network.types.assignable t (p.network.types.literalType v) = true := by
  obtain ⟨n, hn, ⟨k⟩⟩ := exists_compilation hc hr hs h
  exact k.literal_assignable_iff hn hslot hv

/-- An output of a plan keeps within its declared type just if the type that reached it does, in
case one did. -/
theorem output_narrowed_iff (hc : c.Registered) (hr : r.Within c good c.Provides) (hs : good s)
    (h : ((a.compile r).run s).1.1 = .ok p) {id : OutputId} {o : Output}
    (ho : p.network.output? id = some o) :
    p.network.types.assignable o.declared o.type = true ↔
      ∀ t, p.network.OutputFrozenBy id t → p.network.types.assignable o.declared t = true := by
  obtain ⟨n, hn, ⟨k⟩⟩ := exists_compilation hc hr hs h
  exact k.output_assignable_iff hn ho

end Assembly

theorem registered_standard : Catalog.standard.Registered :=
  .ofTypes .standard

/-! ## A pair

Two pipelines into one output, with an integer and a boolean. The integer fixes both. -/

/-- A component with two pipelines of objects. -/
def pairCatalog : Catalog :=
  let pair := (ComponentDraft.new "Pair" "out" "Object").addParam
    (((ComponentParamDraft.new "in" 1 (some 1)).pipelineAttr "left" "Object").pipelineAttr
      "right" "Object")
  ((Library.collect Catalog.register [pair]).run Catalog.standard).2

/-- The pair of an integer and a boolean. -/
def pair : Assembly where
  draft := { BlockDraft.new "pair" with
    declarations := [(DeclarationDraft.new "p" (.component "Pair")).paramValues "in"
      [("left", .integer 5), ("right", .boolean true)]] }
  state := .growing

/-- What comes of the pair. -/
def pairResult : Except Fault Plan :=
  ((pair.compile pairCatalog.resolver).run ()).1.1

/-- The boolean is no value of the type its attribute has in the end. -/
theorem exists_pairResult : ∃ p slot, pairResult = .ok p ∧
    p.network.slot? ⟨0, 1, 1⟩ = some slot ∧ slot.binding = .literal (.boolean true) ∧
      p.network.types.assignable slot.type
        (p.network.types.literalType (.boolean true)) = false := by
  have hrun : pairResult.toOption.any (fun p =>
      (p.network.slot? ⟨0, 1, 1⟩).any fun slot =>
        slot.binding == .literal (.boolean true) &&
          !p.network.types.assignable slot.type
            (p.network.types.literalType (.boolean true))) = true := by
    decide +kernel
  obtain ⟨p, hp, hany⟩ := (Option.any_eq_true _ _).1 hrun
  obtain ⟨slot, hslot, h⟩ := (Option.any_eq_true _ _).1 hany
  rw [Bool.and_eq_true, beq_iff_eq, Bool.not_eq_true'] at h
  exact ⟨p, slot, toOption_eq_some.1 hp, hslot, h.1, h.2⟩

theorem registered_pairCatalog : pairCatalog.Registered :=
  Library.registered_collect registered_standard _

theorem Assembly.literal_unsound_pair : pairCatalog.Registered ∧
    ∃ p slot, ((pair.compile pairCatalog.resolver).run ()).1.1 = .ok p ∧
      p.network.slot? ⟨0, 1, 1⟩ = some slot ∧ slot.binding = .literal (.boolean true) ∧
        p.network.types.assignable slot.type
          (p.network.types.literalType (.boolean true)) = false :=
  ⟨registered_pairCatalog, exists_pairResult⟩

/-- What fixed the attribute of the boolean does not take it either. -/
theorem Assembly.literal_sound_iff_pair : ∃ p t,
    ((pair.compile pairCatalog.resolver).run ()).1.1 = .ok p ∧
      p.network.FrozenBy ⟨0, 1, 1⟩ t ∧
        p.network.types.assignable t (p.network.types.literalType (.boolean true)) = false := by
  obtain ⟨p, slot, hok, hslot, hv, hno⟩ := exists_pairResult
  have hiff := Assembly.literal_sound_iff registered_pairCatalog
    (pairCatalog.resolver_within _) trivial hok hslot hv
  rw [hno, Bool.false_eq_true, false_iff, not_forall] at hiff
  obtain ⟨t, ht⟩ := hiff
  rw [Classical.not_imp, Bool.not_eq_true] at ht
  exact ⟨p, t, hok, ht.1, ht.2⟩

/-! ## A blend

A block passes its first input on together with the second one, and the second one also by
itself, as an integer. Where it is given a number and an integer, the number fixes the second
input as well, and is recorded on the output for integers. -/

/-- A source of numbers, a component with two pipelines of numbers and a sink of integers, and
the block. -/
def blendLibrary : Library :=
  let source := ComponentDraft.new "Source" "out" "Number"
  let pair := (ComponentDraft.new "Pair" "out" "Number").addParam
    (((ComponentParamDraft.new "in" 1 (some 1)).pipelineAttr "left" "Number").pipelineAttr
      "right" "Number")
  let sink := (ComponentDraft.new "Sink" "out" "Object").addParam
    ((ComponentParamDraft.new "in" 1 (some 1)).attr "value" "Integer")
  let inner := ((BlockDraft.new "inner").param "in" ["x", "y"]).addDeclaration
    ((DeclarationDraft.new "p" (.component "Pair")).param "in"
      [("left", "@in.x"), ("right", "@in.y")]) |>.addDeclaration
    ((DeclarationDraft.new "s" (.component "Sink")).param "in" [("value", "@in.y")])
  let inner := (inner.output "both" "@p.out").output "second" "@in.y"
  let catalog := ((Library.collect Catalog.register [source, pair, sink]).run Catalog.standard).2
  ((Library.collect Library.addDraft [inner]).run (Library.ofCatalog catalog)).2

/-- The block with a number and an integer. -/
def blend : Assembly where
  draft := { BlockDraft.new "blend" with
    declarations := [
      DeclarationDraft.new "source" (.component "Source"),
      (DeclarationDraft.new "q" (.block "inner")).addParam
        ⟨"in", [⟨"x", .text "@source.out"⟩, ⟨"y", .immediate (.integer 5)⟩]⟩] }
  state := .growing

/-- What comes of the blend. -/
def blendResult : Except Fault Plan :=
  ((blend.compile blendLibrary.resolver).run blendLibrary).1.1

/-- The output for integers is declared with a type that does not take the one it has. -/
theorem exists_blendResult : ∃ p o, blendResult = .ok p ∧ p.network.output? ⟨1, 1⟩ = some o ∧
    p.network.types.assignable o.declared o.type = false := by
  have hrun : blendResult.toOption.any (fun p =>
      (p.network.output? ⟨1, 1⟩).any fun o =>
        !p.network.types.assignable o.declared o.type) = true := by
    decide +kernel
  obtain ⟨p, hp, hany⟩ := (Option.any_eq_true _ _).1 hrun
  obtain ⟨o, ho, h⟩ := (Option.any_eq_true _ _).1 hany
  rw [Bool.not_eq_true'] at h
  exact ⟨p, o, toOption_eq_some.1 hp, ho, h⟩

theorem serving_blendLibrary :
    blendLibrary.catalog.Registered ∧ blendLibrary.Serving blendLibrary.catalog := by
  have hserving : blendLibrary.Serving _ :=
    (Library.holds_ofCatalog _ _ _).collect fun _ _ _ _ => trivial
  rw [hserving.catalog]
  exact ⟨Library.registered_collect registered_standard _, hserving⟩

theorem Assembly.output_widened_blend :
    blendLibrary.catalog.Registered ∧ blendLibrary.Serving blendLibrary.catalog ∧
      ∃ p o, ((blend.compile blendLibrary.resolver).run blendLibrary).1.1 = .ok p ∧
        p.network.output? ⟨1, 1⟩ = some o ∧
          p.network.types.assignable o.declared o.type = false :=
  ⟨serving_blendLibrary.1, serving_blendLibrary.2, exists_blendResult⟩

/-- What reached the output for integers is no integer. -/
theorem Assembly.output_narrowed_iff_blend : ∃ p o t,
    ((blend.compile blendLibrary.resolver).run blendLibrary).1.1 = .ok p ∧
      p.network.output? ⟨1, 1⟩ = some o ∧ p.network.OutputFrozenBy ⟨1, 1⟩ t ∧
        p.network.types.assignable o.declared t = false := by
  obtain ⟨p, o, hok, ho, hno⟩ := exists_blendResult
  obtain ⟨hc, hserving⟩ := serving_blendLibrary
  have hiff := Assembly.output_narrowed_iff hc (Library.resolver_within hc rfl) hserving hok ho
  rw [hno, Bool.false_eq_true, false_iff, not_forall] at hiff
  obtain ⟨t, ht⟩ := hiff
  rw [Classical.not_imp, Bool.not_eq_true] at ht
  exact ⟨p, o, t, hok, ho, ht.1, ht.2⟩

end Blockwork
