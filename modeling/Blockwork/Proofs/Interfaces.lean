import Blockwork.Proofs.ComponentReading
import Blockwork.Proofs.TypeOrder

/-!
# Sound interfaces

An interface is sound if its types are formed, its defaults have the types of their attributes,
and its pipelines lead, in order and once each, into outputs that accept what they carry. The
interfaces of registered components are sound (`Catalog.Registered.sound`).
-/

namespace Blockwork

variable {h : Hierarchy}

/-- The attribute of an interface with these outputs has a type its default satisfies and the
outputs it feeds accept, and names these in order. -/
structure FormalAttribute.Sound (h : Hierarchy) (outputs : List FormalOutput)
    (a : FormalAttribute) : Prop where
  formed : h.Formed a.type
  default : ∀ v, a.default = some v → h.assignable a.type (h.literalType v) = true
  pipeline : ∀ k ∈ a.pipelineOutputs, ∃ o, outputs[k]? = some o ∧
    h.assignable o.type a.type = true
  ordered : a.pipelineOutputs.Pairwise (· < ·)

/-- All attributes are sound and the types of the outputs are formed. -/
structure Interface.Sound (h : Hierarchy) (i : Interface) : Prop where
  attributes : ∀ q ∈ i.parameters, ∀ a ∈ q.attributes, a.Sound h i.outputs
  outputs : ∀ o ∈ i.outputs, h.Formed o.type

/-! ## The condition -/

theorem Condition.formed_boolean (hw : h.WellFormed) :
    h.Formed ((h.parse "Boolean").toOption.getD ClassType.object) := by
  cases hparse : h.parse "Boolean" with
  | error e => exact Hierarchy.formed_object _
  | ok t => exact hw.formed_parse hparse

/-- Booleans have the type of the condition, even if there is no such class. -/
theorem Condition.assignable_boolean (hw : h.WellFormed) (b : Bool) :
    h.assignable ((h.parse "Boolean").toOption.getD ClassType.object)
      (h.literalType (.boolean b)) = true := by
  have hformed := hw.formed_literalType (.boolean b)
  have hobject : h.assignable ClassType.object (h.literalType (.boolean b)) = true :=
    hformed.assignable_object
  cases hparse : h.parse "Boolean" with
  | error e => exact hobject
  | ok t =>
    have hnames : Hierarchy.expressionNames "Boolean" = ["Boolean"] := by decide
    unfold Hierarchy.parse at hparse
    rw [hnames, List.foldlM_cons] at hparse
    obtain ⟨t', hstep, hnil⟩ := bind_eq_ok.1 hparse
    obtain rfl := pure_eq_ok.1 hnil
    obtain ⟨next, hnext, hmerge⟩ := bind_eq_ok.1 hstep
    unfold Hierarchy.typeNamed at hnext
    split at hnext
    · simp at hnext
    · rename_i id hl
      have hnext : next = h.literalType (.boolean b) := by
        unfold Hierarchy.literalType
        rw [show Hierarchy.literalTypeName (Literal.boolean b).kind = "Boolean" from rfl, hl]
        exact (Except.ok.inj hnext).symm
      rw [hnext] at hmerge
      exact Hierarchy.merge_assignable hmerge hobject
        (hw.assignable_refl hformed)

theorem Condition.sound_formal (hw : h.WellFormed) (outputs : List FormalOutput) :
    ∀ a ∈ (Condition.formal h).attributes, a.Sound h outputs := by
  intro a ha
  have hformed := formed_boolean hw
  simp only [formal, List.mem_cons, List.not_mem_nil, or_false] at ha
  rcases ha with rfl | rfl
  · exact ⟨hformed, fun v hv => by simp at hv, fun k hk => by simp at hk, List.Pairwise.nil⟩
  · refine ⟨hformed, fun v hv => ?_, fun k hk => by simp at hk, List.Pairwise.nil⟩
    obtain rfl := Option.some.inj hv
    exact assignable_boolean hw false

/-- The attributes of the condition are no pipelines. -/
theorem Condition.pipelineOutputs_eq_nil {h : Hierarchy} {a : FormalAttribute}
    (ha : a ∈ (formal h).attributes) : a.pipelineOutputs = [] := by
  simp only [formal, List.mem_cons, List.not_mem_nil, or_false] at ha
  rcases ha with rfl | rfl <;> rfl

/-! ## Components -/

/-- What a draft stands for has the default that its text denotes. -/
theorem ComponentAttrDraft.Describes.exists_text {output : ClassType} {a : ComponentAttrDraft}
    {f : FormalAttribute} (ha : a.Describes h output f) {v : Literal} (hv : f.default = some v) :
    ∃ s, a.default = some s ∧ h.readLiteral s f.type = .ok v := by
  have hdefault := ha.default
  rw [hv] at hdefault
  exact Option.map_eq_some_iff.1 hdefault

theorem ComponentAttrDraft.Describes.sound (hw : h.WellFormed) (hk : h.KnowsLiterals)
    {o : FormalOutput} {a : ComponentAttrDraft} {f : FormalAttribute}
    (ha : a.Describes h o.type f) : f.Sound h [o] := by
  have hformed := hw.formed_parse ha.type
  refine ⟨hformed, fun v hv => ?_, fun k hk' => ?_, ?_⟩
  · obtain ⟨s, -, hread⟩ := ha.exists_text hv
    exact hk.assignable_of_readLiteral hw hread
  · rw [ha.links] at hk'
    split at hk'
    · rename_i hpipeline
      rw [List.mem_singleton] at hk'
      rw [hk']
      refine ⟨o, rfl, ?_⟩
      rw [← (ha.pipeline hpipeline).2]
      exact hw.assignable_refl hformed
    · simp at hk'
  · rw [ha.links]
    split
    · exact List.pairwise_singleton _ _
    · exact List.Pairwise.nil

/-- The interface of a component that passed the checks is sound. -/
theorem ComponentDraft.sound_build (hw : h.WellFormed) (hk : h.KnowsLiterals) {d : ComponentDraft}
    {c : Component} (hok : d.build h = .ok c) : c.interface.Sound h := by
  obtain ⟨-, -, ⟨output, parameters, houtput, hinterface, hdescribes⟩, -⟩ := build_eq_ok.1 hok
  rw [hinterface]
  refine ⟨List.forall_mem_cons.2 ⟨Condition.sound_formal hw _, fun f hf x hx => ?_⟩, ?_⟩
  · obtain ⟨p, -, hp⟩ := exists_mem_of_forall₂ hdescribes hf
    obtain ⟨a, -, ha⟩ := exists_mem_of_forall₂ hp.attributes hx
    exact ha.sound (o := ⟨d.output.name, output, d.output.doc⟩) hw hk
  · simp only [List.mem_singleton, forall_eq]
    exact hw.formed_parse houtput

/-! ## Catalogs -/

namespace Catalog

/-- The catalogs that can be made: components are registered one by one in a catalog of
types. -/
inductive Registered : Catalog → Prop
  | ofTypes {h : Hierarchy} (hm : h.Made) : Registered ⟨h, []⟩
  | register {c c' : Catalog} {d : ComponentDraft} (hc : Registered c)
    (hok : (register d).result c = .ok c') : Registered c'

variable {c : Catalog}

theorem Registered.ofTypeDrafts {ts : List TypeDraft} (hok : ofTypeDrafts ts = .ok c) :
    c.Registered := by
  obtain ⟨h, hh, rfl⟩ := map_eq_ok.1 hok
  exact .ofTypes (.ofDrafts hh)

theorem Registered.types (hc : c.Registered) : c.types.WellFormed ∧ c.types.KnowsLiterals := by
  induction hc with
  | ofTypes hm => exact ⟨hm.wellFormed, hm.knowsLiterals⟩
  | register hc hok ih =>
    obtain ⟨-, x, -, rfl⟩ := register_eq_ok.1 hok
    exact ih

/-- Registered components are built from drafts, with the types of the catalog. -/
theorem Registered.exists_build (hc : c.Registered) :
    ∀ x ∈ c.components, ∃ d, ComponentDraft.build c.types d = .ok x := by
  induction hc with
  | ofTypes => simp
  | @register c c' d hc hok ih =>
    obtain ⟨-, x, hx, rfl⟩ := register_eq_ok.1 hok
    intro z hz
    rcases List.mem_append.1 hz with hz | hz
    · exact ih z hz
    · rw [List.mem_singleton.1 hz]
      exact ⟨d, hx⟩

/-- The interfaces of registered components are sound. -/
theorem Registered.sound (hc : c.Registered) : ∀ x ∈ c.components, x.interface.Sound c.types := by
  intro x hx
  obtain ⟨d, hbuild⟩ := hc.exists_build x hx
  exact ComponentDraft.sound_build hc.types.1 hc.types.2 hbuild

end Catalog

end Blockwork
