import Blockwork.Proofs.Addressing
import Blockwork.Proofs.Multiplicity
import Blockwork.Proofs.ObtainedTypes

/-!
# What registration admits

A draft keeps the rules (`ComponentDraft.Admissible`) exactly if a component is built from it
(`exists_build_iff`). That a pipeline has the type of the output is a rule about the types, not about
how they are written: types that are read are reduced, so two of them that accept each other are the
same.

What is in a catalog keeps the contract of components (`Component.Contract`), however many calls of
`register` have failed in between, and a draft of a new name is refused only if it breaks a rule
(`register_exact`).
-/

namespace Blockwork

variable {h : Hierarchy} {output type : ClassType}

/-! ## The rules for drafts -/

/-- What is asked of the draft of an attribute: its type is defined, its default denotes a literal
of this type, and if it is a pipeline it has no default, and values of its type and of the type of
the output are the same. -/
structure ComponentAttrDraft.Admissible (h : Hierarchy) (output : ClassType)
    (a : ComponentAttrDraft) (type : ClassType) : Prop where
  parses : h.parse a.type = .ok type
  default : ∀ s, a.default = some s → ∃ v, h.readLiteral s type = .ok v ∧
    h.assignable type (h.literalType v) = true
  pipeline : a.pipeline = true → a.default = none ∧
    h.assignable output type = true ∧ h.assignable type output = true

/-- What is asked of the draft of a component with an output of type `output`. -/
structure ComponentDraft.Admissible (h : Hierarchy) (d : ComponentDraft) (output : ClassType) :
    Prop where
  parses : h.parse d.output.type = .ok output
  parameters : (Condition.parameterName :: d.parameters.map ComponentParamDraft.name).Nodup
  attributes : ∀ p ∈ d.parameters, (p.attributes.map ComponentAttrDraft.name).Nodup
  occurs : ∀ p ∈ d.parameters, ∃ count, (Multiplicity.ofBounds p.min p.max).Allows count
  each : ∀ p ∈ d.parameters, ∀ a ∈ p.attributes, ∃ type, a.Admissible h output type

theorem ComponentAttrDraft.exists_describes_iff (hw : h.WellFormed) (hk : h.KnowsLiterals)
    {o : String} (ho : h.parse o = .ok output) {a : ComponentAttrDraft} :
    (∃ f, a.Describes h output f) ↔ ∃ type, a.Admissible h output type := by
  constructor
  · rintro ⟨f, hf⟩
    refine ⟨f.type, hf.type, fun s hs => ?_, fun hpipeline => ?_⟩
    · have hdefault := hf.default
      rw [hs] at hdefault
      obtain ⟨v, -, hv⟩ := Option.map_eq_some_iff.1 hdefault.symm
      exact ⟨v, hv.symm, hk.assignable_of_readLiteral hw hv.symm⟩
    · obtain ⟨hnone, htype⟩ := hf.pipeline hpipeline
      have hself := hw.assignable_refl (hw.formed_parse ho)
      rw [htype]
      exact ⟨hnone, hself, hself⟩
  · rintro ⟨type, hparses, hdefault, hpipeline⟩
    obtain ⟨default, hread⟩ : ∃ default : Option Literal,
        a.default.map (h.readLiteral · type) = default.map .ok := by
      cases hs : a.default with
      | none => exact ⟨none, rfl⟩
      | some s =>
        obtain ⟨v, hv, -⟩ := hdefault s hs
        exact ⟨some v, congrArg some hv⟩
    refine ⟨⟨a.name, type, default, if a.pipeline = true then [0] else [], a.doc⟩, rfl, rfl, hparses,
      hread, rfl, fun ha => ?_⟩
    obtain ⟨hnone, hot, hto⟩ := hpipeline ha
    exact ⟨hnone, (hw.reduced_parse hparses).antisymm hw (hw.reduced_parse ho) hto hot⟩

theorem ComponentParamDraft.exists_describes_iff (hw : h.WellFormed) (hk : h.KnowsLiterals)
    {o : String} (ho : h.parse o = .ok output) {p : ComponentParamDraft} :
    (∃ f, p.Describes h output f) ↔ (p.attributes.map ComponentAttrDraft.name).Nodup ∧
      (∃ count, (Multiplicity.ofBounds p.min p.max).Allows count) ∧
        ∀ a ∈ p.attributes, ∃ type, a.Admissible h output type := by
  simp only [Multiplicity.exists_allows_iff, ← ComponentAttrDraft.exists_describes_iff hw hk ho,
    ← exists_forall₂_iff]
  constructor
  · rintro ⟨f, hf⟩
    exact ⟨hf.names, hf.multiplicity ▸ hf.occurs, f.attributes, hf.attributes⟩
  · rintro ⟨hnames, hoccurs, attributes, hattributes⟩
    exact ⟨⟨p.name, .ofBounds p.min p.max, attributes, false, p.doc⟩, rfl, rfl, rfl, hoccurs, rfl,
      hattributes, hnames⟩

/-- A component is built from a draft exactly if it keeps the rules. -/
theorem ComponentDraft.exists_build_iff (hw : h.WellFormed) (hk : h.KnowsLiterals)
    {d : ComponentDraft} : (∃ c, d.build h = .ok c) ↔ ∃ output, d.Admissible h output := by
  simp only [build_eq_ok]
  constructor
  · rintro ⟨c, -, -, ⟨output, parameters, ho, -, hdescribes⟩, hnames⟩
    have hparams := fun p hp => (ComponentParamDraft.exists_describes_iff hw hk ho).1
      (exists_forall₂_iff.1 ⟨parameters, hdescribes⟩ p hp)
    exact ⟨output, ho, hnames, fun p hp => (hparams p hp).1, fun p hp => (hparams p hp).2.1,
      fun p hp => (hparams p hp).2.2⟩
  · rintro ⟨output, ho, hnames, hattributes, hoccurs, heach⟩
    obtain ⟨parameters, hparams⟩ := exists_forall₂_iff.2 fun p hp =>
      (ComponentParamDraft.exists_describes_iff hw hk ho).2
        ⟨hattributes p hp, hoccurs p hp, heach p hp⟩
    exact ⟨⟨d.name, d.doc, Condition.formal h :: parameters, [⟨d.output.name, output, d.output.doc⟩]⟩,
      rfl, rfl, ⟨output, parameters, ho, rfl, hparams⟩, hnames⟩

/-! ## The contract of components -/

/-- What holds of a component: it has the condition first, nothing in it shares its name with
another of its kind, every parameter may occur, a pipeline is one into the only output, without
default and of the very type of the output, and defaults have the types of their attributes. -/
structure Component.Contract (h : Hierarchy) (c : Component) : Prop where
  condition : c.interface.parameters.head? = some (Condition.formal h)
  parameters : (c.interface.parameters.map FormalParameter.name).Nodup
  attributes : ∀ f ∈ c.interface.parameters, (f.attributes.map FormalAttribute.name).Nodup
  occurs : ∀ f ∈ c.interface.parameters, ∃ count, f.multiplicity.Allows count
  pipelines : ∃ o, c.interface.outputs = [o] ∧
    ∀ f ∈ c.interface.parameters, ∀ a ∈ f.attributes, a.isPipeline = true →
      a.pipelineOutputs = [0] ∧ a.default = none ∧ a.type = o.type
  defaults : ∀ f ∈ c.interface.parameters, ∀ a ∈ f.attributes, ∀ v, a.default = some v →
    h.assignable a.type (h.literalType v) = true

/-- What is no pipeline in the draft feeds no output. -/
theorem ComponentAttrDraft.Describes.pipeline_of_isPipeline {a : ComponentAttrDraft}
    {f : FormalAttribute} (ha : a.Describes h output f) (hf : f.isPipeline = true) :
    f.pipelineOutputs = [0] ∧ f.default = none ∧ f.type = output := by
  have hpipeline : a.pipeline = true := by
    by_contra hnot
    simp [FormalAttribute.isPipeline, ha.links, hnot] at hf
  obtain ⟨hnone, htype⟩ := ha.pipeline hpipeline
  have hdefault := ha.default
  rw [hnone] at hdefault
  exact ⟨ha.links.trans (if_pos hpipeline), Option.map_eq_none_iff.1 hdefault.symm, htype⟩

theorem ComponentDraft.Describes.contract (hw : h.WellFormed) (hk : h.KnowsLiterals)
    {d : ComponentDraft} {c : Component} (hd : d.Describes h c) : c.Contract h := by
  have hsound := sound_build hw hk (build_eq_ok.2 hd)
  obtain ⟨output, parameters, -, hinterface, hdescribes⟩ := hd.interface
  refine ⟨by rw [hinterface]; rfl, hd.map_name ▸ hd.names, hd.nodup_attributes, ?_,
    ⟨⟨d.output.name, output, d.output.doc⟩, by rw [hinterface], ?_⟩,
    fun f hf a ha => (hsound.attributes f hf a ha).default⟩
  · rw [hinterface]
    refine List.forall_mem_cons.2 ⟨⟨1, Multiplicity.allows_one.2 rfl⟩, fun f hf => ?_⟩
    obtain ⟨p, -, hp⟩ := exists_mem_of_forall₂ hdescribes hf
    exact Multiplicity.exists_allows_iff.2 hp.occurs
  · rw [hinterface]
    refine List.forall_mem_cons.2 ⟨fun a ha hpipeline => ?_, fun f hf x hx => ?_⟩
    · simp [FormalAttribute.isPipeline, Condition.pipelineOutputs_eq_nil ha] at hpipeline
    · obtain ⟨p, -, hp⟩ := exists_mem_of_forall₂ hdescribes hf
      obtain ⟨a, -, ha⟩ := exists_mem_of_forall₂ hp.attributes hx
      exact ha.pipeline_of_isPipeline

/-! ## Calls that may fail -/

namespace Catalog

variable {c : Catalog}

/-- The catalog after a call that registers a draft, whether it fails or not. -/
def attempt (c : Catalog) (d : ComponentDraft) : Catalog :=
  (register d).after c

/-- The catalog after calls that register drafts one by one. -/
def attemptAll (c : Catalog) (ds : List ComponentDraft) : Catalog :=
  ds.foldl attempt c

theorem attemptAll_concat (c : Catalog) (ds : List ComponentDraft) (d : ComponentDraft) :
    c.attemptAll (ds ++ [d]) = (c.attemptAll ds).attempt d :=
  List.foldl_concat ..

/-- The catalog grew by components that some of the drafts stand for, in the order of the calls. -/
structure GrownBy (c : Catalog) (ds : List ComponentDraft) (c' : Catalog) : Prop where
  types : c'.types = c.types
  components : ∃ accepted new, accepted.Sublist ds ∧
    List.Forall₂ (ComponentDraft.Describes c.types) accepted new ∧
      c'.components = c.components ++ new
  names : (c.components.map Component.name).Nodup → (c'.components.map Component.name).Nodup

/-- One more call adds a component at the end or nothing. -/
theorem GrownBy.attempt {ds : List ComponentDraft} {c' : Catalog} (hc : c.GrownBy ds c')
    (d : ComponentDraft) : c.GrownBy (ds ++ [d]) (c'.attempt d) := by
  obtain ⟨htypes, ⟨accepted, new, hsub, hdescribes, hcomponents⟩, hnames⟩ := hc
  unfold Catalog.attempt
  cases hregister : (register d).result c' with
  | error e =>
    rw [guarded_register c' d e (Method.result_eq_error.1 hregister)]
    exact ⟨htypes, ⟨accepted, new, hsub.trans (List.sublist_append_left ..), hdescribes,
      hcomponents⟩, hnames⟩
  | ok r =>
    obtain ⟨hnew, x, hbuild, rfl⟩ := register_eq_ok.1 hregister
    have hd := ComponentDraft.build_eq_ok.1 hbuild
    rw [Method.after_of_result hregister]
    refine ⟨htypes, ⟨accepted ++ [d], new ++ [x], hsub.append (List.Sublist.refl _),
      List.rel_append hdescribes (.cons (htypes ▸ hd) .nil), ?_⟩, fun hnodup => ?_⟩
    · rw [hcomponents, List.append_assoc]
    · rw [List.map_append, List.map_singleton, ← List.concat_eq_append, hd.name]
      exact (hnames hnodup).concat (get?_eq_none.1 hnew)

theorem grownBy_attemptAll (c : Catalog) (ds : List ComponentDraft) :
    c.GrownBy ds (c.attemptAll ds) := by
  induction ds using List.reverseRecOn with
  | nil => exact ⟨rfl, ⟨[], [], .slnil, .nil, (List.append_nil _).symm⟩, id⟩
  | append_singleton ds d ih =>
    rw [attemptAll_concat]
    exact ih.attempt d

/-! ## Main result -/

/-- Whatever drafts are registered, some of them in vain, the components of the catalog have
different names and come of the accepted drafts, and each keeps the contract. A call that fails
changes nothing, and one succeeds exactly if its name is new and its draft keeps the rules. -/
theorem register_exact {ts : List TypeDraft} (hc : ofTypeDrafts ts = .ok c)
    (ds : List ComponentDraft) :
    (c.attemptAll ds).types = c.types ∧
    ((c.attemptAll ds).components.map Component.name).Nodup ∧
    (∃ accepted, accepted.Sublist ds ∧
      List.Forall₂ (ComponentDraft.Describes c.types) accepted (c.attemptAll ds).components) ∧
    (∀ x ∈ (c.attemptAll ds).components, x.Contract c.types) ∧
    ∀ d,
      (∀ e, (register d).answer (c.attemptAll ds) = .error e →
        c.attemptAll (ds ++ [d]) = c.attemptAll ds) ∧
      ((∃ x, (register d).answer (c.attemptAll ds) = .ok x) ↔
        (c.attemptAll ds).get? d.name = none ∧ ∃ output, d.Admissible c.types output) := by
  obtain ⟨hw, hk⟩ := (Registered.ofTypeDrafts hc).types
  obtain ⟨htypes, ⟨accepted, new, hsub, hdescribes, hcomponents⟩, hnames⟩ := c.grownBy_attemptAll ds
  obtain ⟨h, -, rfl⟩ := map_eq_ok.1 hc
  obtain rfl : new = _ := hcomponents.symm
  refine ⟨htypes, hnames List.nodup_nil, ⟨accepted, hsub, hdescribes⟩, fun x hx => ?_,
    fun d => ⟨fun e herror => ?_, ?_⟩⟩
  · obtain ⟨d, -, hd⟩ := exists_mem_of_forall₂ hdescribes hx
    exact hd.contract hw hk
  · rw [attemptAll_concat]
    exact guarded_register _ d e herror
  · rw [← ComponentDraft.exists_build_iff hw hk, ← htypes, Method.exists_answer_iff]
    constructor
    · rintro ⟨c', hok⟩
      obtain ⟨hnew, x, hbuild, -⟩ := register_eq_ok.1 hok
      exact ⟨hnew, x, hbuild⟩
    · rintro ⟨hnew, x, hbuild⟩
      exact ⟨_, register_eq_ok.2 ⟨hnew, x, hbuild, rfl⟩⟩

/-- A component that passes its value on. The two types of it are written in two ways. -/
def stampDraft : ComponentDraft where
  name := "Stamp"
  doc := none
  parameters := [⟨"in", 1, some 2, none,
    [⟨"value", "Dated & Comparable", none, true, none⟩, ⟨"limit", "Integer", some "5", false, none⟩]⟩]
  output := ⟨"out", "Comparable & Dated", none⟩

/-- The same with a wider output. -/
def wideStampDraft : ComponentDraft :=
  { stampDraft with name := "WideStamp", output := ⟨"out", "Dated", none⟩ }

/-- Of three calls the first one succeeds. The second one has its name and the third one breaks a
rule. -/
theorem register_exact_stamp : ∃ c, ofTypeDrafts [.ofInterface "Dated" []] = .ok c ∧
    (c.attemptAll [stampDraft, stampDraft, wideStampDraft]).size = 1 ∧
    (∀ x ∈ (c.attemptAll [stampDraft, stampDraft, wideStampDraft]).components,
      x.Contract c.types) ∧
    (∃ output, stampDraft.Admissible c.types output) ∧
    ¬∃ output, wideStampDraft.Admissible c.types output := by
  have hrun : (ofTypeDrafts [.ofInterface "Dated" []]).toOption.any (fun c =>
      (c.attemptAll [stampDraft, stampDraft, wideStampDraft]).size == 1 &&
        ((register stampDraft).answer c).toOption.isSome &&
          ((register wideStampDraft).answer c).toOption.isNone) = true := by
    decide +kernel
  obtain ⟨c, hc, hrun⟩ := toOption_any.1 hrun
  simp only [Bool.and_eq_true, beq_iff_eq] at hrun
  obtain ⟨⟨hsize, hstamp⟩, hwide⟩ := hrun
  obtain ⟨-, -, -, hcontract, -⟩ := register_exact hc [stampDraft, stampDraft, wideStampDraft]
  obtain ⟨-, -, -, -, hcalls⟩ := register_exact hc []
  obtain ⟨x, hok⟩ := Option.isSome_iff_exists.1 hstamp
  refine ⟨c, hc, hsize, hcontract, ((hcalls stampDraft).2.1 ⟨x, ?_⟩).2, fun hadmissible => ?_⟩
  · exact toOption_eq_some.1 hok
  · obtain ⟨h, -, rfl⟩ := map_eq_ok.1 hc
    obtain ⟨x, hok⟩ := (hcalls wideStampDraft).2.2 ⟨rfl, hadmissible⟩
    exact ne_ok_of_isNone hwide _ hok

end Catalog

end Blockwork
