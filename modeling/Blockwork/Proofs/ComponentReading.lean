import Blockwork.Component
import Blockwork.Proofs.Methods

/-!
# Reading components

`Describes` relates the draft of a component to the component it stands for, part by part. It holds
of a draft and a component exactly if the one is built from the other (`build_eq_ok`), and says all
that registration makes sure of.
-/

namespace Blockwork

/-- The draft of an attribute and the attribute it stands for, where the output of the component has
the type `output`. A pipeline attribute feeds this output, and no other attribute feeds it. -/
structure ComponentAttrDraft.Describes (h : Hierarchy) (output : ClassType)
    (a : ComponentAttrDraft) (f : FormalAttribute) : Prop where
  name : f.name = a.name
  doc : f.doc = a.doc
  type : h.parse a.type = .ok f.type
  default : a.default.map (h.readLiteral · f.type) = f.default.map .ok
  links : f.pipelineOutputs = if a.pipeline = true then [0] else []
  pipeline : a.pipeline = true → a.default = none ∧ f.type = output

/-- The draft of a parameter and the parameter it stands for. -/
structure ComponentParamDraft.Describes (h : Hierarchy) (output : ClassType)
    (p : ComponentParamDraft) (f : FormalParameter) : Prop where
  name : f.name = p.name
  doc : f.doc = p.doc
  multiplicity : f.multiplicity = .ofBounds p.min p.max
  occurs : f.multiplicity.isEmpty = false
  declared : f.synthetic = false
  attributes : List.Forall₂ (ComponentAttrDraft.Describes h output) p.attributes f.attributes
  names : (p.attributes.map ComponentAttrDraft.name).Nodup

/-- The draft of a component and the component it stands for. -/
structure ComponentDraft.Describes (h : Hierarchy) (d : ComponentDraft) (c : Component) :
    Prop where
  name : c.name = d.name
  doc : c.doc = d.doc
  interface : ∃ output parameters, h.parse d.output.type = .ok output ∧
    c.interface = ⟨Condition.formal h :: parameters, [⟨d.output.name, output, d.output.doc⟩]⟩ ∧
      List.Forall₂ (ComponentParamDraft.Describes h output) d.parameters parameters
  names : (Condition.parameterName :: d.parameters.map ComponentParamDraft.name).Nodup

namespace ComponentDraft

variable {h : Hierarchy} {component param expression : String} {output type : ClassType}

theorem readType_eq_ok : readType h component expression = .ok type ↔
    h.parse expression = .ok type := by
  unfold readType
  split
  · rename_i hparse
    simp [hparse]
  · rename_i hparse
    simp [hparse, reject]

theorem readDefault_eq_ok {attr : String} {text : Option String} {default : Option Literal} :
    readDefault h component param attr type text = .ok default ↔
      text.map (h.readLiteral · type) = default.map .ok := by
  unfold readDefault
  split
  · cases default <;> simp
  · split
    · rename_i hread
      cases default <;> simp [hread]
    · rename_i hread
      cases default <;> simp [hread, reject]

/-- A pipeline attribute has no default and the type of the output. -/
theorem checkPipeline_eq_ok {a : ComponentAttrDraft} {u : Unit} :
    checkPipeline h component param output type a = .ok u ↔
      (a.pipeline = true → a.default = none ∧ type = output) := by
  unfold checkPipeline
  by_cases hpipeline : a.pipeline = true
  · rw [if_pos hpipeline]
    refine Iff.trans ite_error_bind_eq_ok ?_
    by_cases htype : type = output <;> simp [hpipeline, htype, reject, pure, Except.pure]
  · simp [hpipeline, pure, Except.pure]

/-- Attributes are read exactly if their drafts stand for them and their names differ from each
other and from those that are taken. -/
theorem readAttributes_eq_ok : ∀ {as : List ComponentAttrDraft} {seen : List String}
    {fs : List FormalAttribute}, readAttributes h component param output seen as = .ok fs ↔
      List.Forall₂ (ComponentAttrDraft.Describes h output) as fs ∧
        (as.map ComponentAttrDraft.name).Nodup ∧ (as.map ComponentAttrDraft.name).Disjoint seen
  | [], seen, fs => by simp [readAttributes, eq_comm]
  | a :: as, seen, fs => by
    unfold readAttributes
    refine Iff.trans ite_error_bind_eq_ok ?_
    rw [List.contains_iff_mem, List.map_cons, nodup_disjoint_cons_iff]
    constructor
    · rintro ⟨hnew, hok⟩
      obtain ⟨type, htype, hok⟩ := bind_eq_ok.1 hok
      obtain ⟨_, hpipeline, hok⟩ := bind_eq_ok.1 hok
      obtain ⟨default, hdefault, hok⟩ := bind_eq_ok.1 hok
      obtain ⟨rest, hrest, hok⟩ := bind_eq_ok.1 hok
      obtain rfl := pure_eq_ok.1 hok
      obtain ⟨hdescribes, hnames⟩ := readAttributes_eq_ok.1 hrest
      exact ⟨.cons ⟨rfl, rfl, readType_eq_ok.1 htype, readDefault_eq_ok.1 hdefault, rfl,
        checkPipeline_eq_ok.1 hpipeline⟩ hdescribes, hnew, hnames⟩
    · rintro ⟨_ | @⟨_, f, _, rest, ha, hdescribes⟩, hnew, hnames⟩
      refine ⟨hnew, bind_eq_ok.2 ⟨f.type, readType_eq_ok.2 ha.type, ?_⟩⟩
      refine bind_eq_ok.2 ⟨(), checkPipeline_eq_ok.2 ha.pipeline, ?_⟩
      refine bind_eq_ok.2 ⟨f.default, readDefault_eq_ok.2 ha.default, ?_⟩
      refine bind_eq_ok.2 ⟨rest, readAttributes_eq_ok.2 ⟨hdescribes, hnames⟩, pure_eq_ok.2 ?_⟩
      rw [← ha.name, ← ha.doc, ← ha.links]

/-- Parameters are read exactly if their drafts stand for them and their names differ from each other
and from those that are taken. -/
theorem readParameters_eq_ok : ∀ {ps : List ComponentParamDraft} {seen : List String}
    {fs : List FormalParameter}, readParameters h component output seen ps = .ok fs ↔
      List.Forall₂ (ComponentParamDraft.Describes h output) ps fs ∧
        (ps.map ComponentParamDraft.name).Nodup ∧ (ps.map ComponentParamDraft.name).Disjoint seen
  | [], seen, fs => by simp [readParameters, eq_comm]
  | p :: ps, seen, fs => by
    unfold readParameters
    refine Iff.trans ite_error_bind_eq_ok ?_
    rw [List.contains_iff_mem, List.map_cons, nodup_disjoint_cons_iff]
    constructor
    · rintro ⟨hnew, hok⟩
      obtain ⟨hoccurs, hok⟩ := ite_error_bind_eq_ok.1 hok
      obtain ⟨attrs, hattrs, hok⟩ := bind_eq_ok.1 hok
      obtain ⟨rest, hrest, hok⟩ := bind_eq_ok.1 hok
      obtain rfl := pure_eq_ok.1 hok
      obtain ⟨hattributes, hattrNames, -⟩ := readAttributes_eq_ok.1 hattrs
      obtain ⟨hdescribes, hnames⟩ := readParameters_eq_ok.1 hrest
      exact ⟨.cons ⟨rfl, rfl, rfl, Bool.eq_false_iff.2 hoccurs, rfl, hattributes, hattrNames⟩
        hdescribes, hnew, hnames⟩
    · rintro ⟨_ | @⟨_, f, _, rest, hp, hdescribes⟩, hnew, hnames⟩
      have hoccurs := Bool.eq_false_iff.1 hp.occurs
      rw [hp.multiplicity] at hoccurs
      refine ⟨hnew, ite_error_bind_eq_ok.2 ⟨hoccurs, ?_⟩⟩
      refine bind_eq_ok.2 ⟨f.attributes,
        readAttributes_eq_ok.2 ⟨hp.attributes, hp.names, List.disjoint_nil_right _⟩, ?_⟩
      refine bind_eq_ok.2 ⟨rest, readParameters_eq_ok.2 ⟨hdescribes, hnames⟩, pure_eq_ok.2 ?_⟩
      rw [← hp.name, ← hp.multiplicity, ← hp.declared, ← hp.doc]

/-- A component is built from a draft exactly if the draft stands for it. -/
theorem build_eq_ok {d : ComponentDraft} {c : Component} : d.build h = .ok c ↔ d.Describes h c := by
  unfold build
  constructor
  · intro hok
    obtain ⟨output, houtput, hok⟩ := bind_eq_ok.1 hok
    obtain ⟨parameters, hparameters, hok⟩ := bind_eq_ok.1 hok
    obtain rfl := pure_eq_ok.1 hok
    obtain ⟨hdescribes, hnodup, hdisjoint⟩ := readParameters_eq_ok.1 hparameters
    exact ⟨rfl, rfl, ⟨output, parameters, readType_eq_ok.1 houtput, rfl, hdescribes⟩,
      List.nodup_cons.2 ⟨List.disjoint_singleton.1 hdisjoint, hnodup⟩⟩
  · rintro ⟨hname, hdoc, ⟨output, parameters, houtput, hinterface, hdescribes⟩, hnames⟩
    obtain ⟨hnew, hnodup⟩ := List.nodup_cons.1 hnames
    refine bind_eq_ok.2 ⟨output, readType_eq_ok.2 houtput, bind_eq_ok.2 ⟨parameters,
      readParameters_eq_ok.2 ⟨hdescribes, hnodup, List.disjoint_singleton.2 hnew⟩,
        pure_eq_ok.2 ?_⟩⟩
    rw [← hname, ← hdoc, ← hinterface]

end ComponentDraft

/-! ## Registering -/

namespace Catalog

variable {c c' : Catalog} {d : ComponentDraft}

theorem get?_eq_none {name : String} :
    c.get? name = none ↔ name ∉ c.components.map Component.name := by
  simp only [get?, List.find?_eq_none, beq_iff_eq, List.mem_map, not_exists, not_and]

/-- A call that registers a component, as a run that leaves nothing behind when it fails. -/
theorem result_register (c : Catalog) (d : ComponentDraft) : (register d).result c = (do
    if (c.get? d.name).isSome then
      .error ((Cause.componentTwice d.name).report (.component d.name))
    let x ← d.build c.types
    return { c with components := c.components ++ [x] }) := by
  unfold register
  rw [Method.result_get_bind, Method.result_ite]
  split
  · rfl
  · simp only [Method.result_lift_bind]
    rfl

/-- A component is registered exactly if its name is new and it is built, and it comes last. -/
theorem register_eq_ok : (register d).result c = .ok c' ↔ c.get? d.name = none ∧
    ∃ x, d.build c.types = .ok x ∧ c' = { c with components := c.components ++ [x] } := by
  rw [result_register]
  refine Iff.trans ite_error_bind_eq_ok ?_
  rw [bind_eq_ok, Option.not_isSome_iff_eq_none]
  refine and_congr_right fun _ => exists_congr fun x => and_congr_right fun _ => ?_
  rw [pure_eq_ok, eq_comm]

/-- All checks come before the component is added. -/
theorem guarded_register (c : Catalog) (d : ComponentDraft) : (register d).Guarded c :=
  .get_bind (.ite (fun _ => .throw_bind _ _) fun _ => .lift_bind fun _ _ => .modifyGet _)

end Catalog

end Blockwork
