import Blockwork.Proofs.AcceptedDrafts
import Blockwork.Proofs.FinalTypes
import Blockwork.Proofs.TypeNames

/-!
# Addressing

A declaration gives parameters and attributes by name, and linking takes the first one of a name. So
what is behind another of its name cannot be given. In the interface of a component nothing is
(`Catalog.Registered.addressable`), because no parameter may have the name of another, nor that of
the condition which comes before them. The inputs of a block differ from each other only, and its
interface has the condition before them as well: an input is out of reach exactly if it is named
like the condition (`Assembly.addressable_iff`).
-/

namespace Blockwork

/-! ## Finding by name -/

/-- The parameters have different names, and each is found by its name. -/
structure Interface.Addressable (i : Interface) : Prop where
  names : (i.parameters.map FormalParameter.name).Nodup
  found : ∀ k f, i.parameters[k]? = some f → i.parameterIndex? f.name = some k

/-- The attributes have different names, and each is found by its name. -/
structure FormalParameter.Addressable (f : FormalParameter) : Prop where
  names : (f.attributes.map FormalAttribute.name).Nodup
  found : ∀ k a, f.attributes[k]? = some a → f.attributeIndex? a.name = some k

theorem Interface.parameterIndex?_eq (i : Interface) (name : String) :
    i.parameterIndex? name = (i.parameters.map FormalParameter.name).findIdx? (· == name) := by
  rw [List.findIdx?_map]
  rfl

theorem FormalParameter.attributeIndex?_eq (f : FormalParameter) (name : String) :
    f.attributeIndex? name = (f.attributes.map FormalAttribute.name).findIdx? (· == name) := by
  rw [List.findIdx?_map]
  rfl

theorem Interface.addressable_of_nodup {i : Interface}
    (h : (i.parameters.map FormalParameter.name).Nodup) : i.Addressable :=
  ⟨h, fun k f hf => by
    rw [i.parameterIndex?_eq]
    exact findIdx?_of_nodup h (by rw [List.getElem?_map, hf, Option.map_some])⟩

theorem FormalParameter.addressable_of_nodup {f : FormalParameter}
    (h : (f.attributes.map FormalAttribute.name).Nodup) : f.Addressable :=
  ⟨h, fun k a ha => by
    rw [f.attributeIndex?_eq]
    exact findIdx?_of_nodup h (by rw [List.getElem?_map, ha, Option.map_some])⟩

theorem Condition.addressable_formal (h : Hierarchy) : (Condition.formal h).Addressable :=
  FormalParameter.addressable_of_nodup (by decide : [valueName, invertName].Nodup)

/-! ## Components -/

/-- Attributes that drafts stand for have the names of the drafts. -/
theorem ComponentParamDraft.Describes.map_name {h : Hierarchy} {output : ClassType}
    {p : ComponentParamDraft} {f : FormalParameter} (hp : p.Describes h output f) :
    f.attributes.map FormalAttribute.name = p.attributes.map ComponentAttrDraft.name :=
  map_eq_of_forall₂ hp.attributes fun _ _ ha => ha.name

/-- A component that a draft stands for has the condition and the parameters of the draft. -/
theorem ComponentDraft.Describes.map_name {h : Hierarchy} {d : ComponentDraft} {c : Component}
    (hd : d.Describes h c) : c.interface.parameters.map FormalParameter.name =
      Condition.parameterName :: d.parameters.map ComponentParamDraft.name := by
  obtain ⟨output, parameters, -, hinterface, hdescribes⟩ := hd.interface
  rw [hinterface]
  exact congrArg _ (map_eq_of_forall₂ hdescribes fun _ _ hp => hp.name)

theorem ComponentDraft.Describes.nodup_attributes {h : Hierarchy} {d : ComponentDraft}
    {c : Component} (hd : d.Describes h c) :
    ∀ f ∈ c.interface.parameters, (f.attributes.map FormalAttribute.name).Nodup := by
  obtain ⟨output, parameters, -, hinterface, hdescribes⟩ := hd.interface
  rw [hinterface]
  refine List.forall_mem_cons.2 ⟨(Condition.addressable_formal h).names, fun f hf => ?_⟩
  obtain ⟨p, -, hp⟩ := exists_mem_of_forall₂ hdescribes hf
  rw [hp.map_name]
  exact hp.names

/-- Names are taken from the condition on, so nothing in a component hides behind another. -/
theorem ComponentDraft.addressable_build {h : Hierarchy} {d : ComponentDraft} {x : Component}
    (hok : d.build h = .ok x) :
    x.interface.Addressable ∧ ∀ f ∈ x.interface.parameters, f.Addressable := by
  have hd := build_eq_ok.1 hok
  refine ⟨Interface.addressable_of_nodup ?_, fun f hf =>
    FormalParameter.addressable_of_nodup (hd.nodup_attributes f hf)⟩
  rw [hd.map_name]
  exact hd.names

theorem Catalog.Registered.addressable {c : Catalog} (hc : c.Registered) {x : Component}
    (hx : x ∈ c.components) :
    x.interface.Addressable ∧ ∀ f ∈ x.interface.parameters, f.Addressable := by
  obtain ⟨_, hbuild⟩ := hc.exists_build x hx
  exact ComponentDraft.addressable_build hbuild

/-! ## Giving a parameter -/

/-- What gives each attribute of a formal parameter a text. -/
def FormalParameter.giving (f : FormalParameter) (texts : List String) : ParamDraft :=
  ⟨f.name, f.attributes.zipWith (fun a text => ⟨a.name, .text text⟩) texts⟩

/-- A declaration can give the formal parameter at a position: whatever the texts for its
attributes, a declaration that gives it and nothing else is linked, and its parameter is an
occurrence of that one with these texts. -/
def Specification.Bindable (x : Specification) (h : Hierarchy) (k : Nat) : Prop :=
  ∃ f, x.interface.parameters[k]? = some f ∧
    ∀ (d : DeclarationDraft) (location : Location) (texts : List String),
      texts.length = f.attributes.length → ∃ decl q,
        { d with params := [f.giving texts] }.link h x location = .ok decl ∧
          decl.parameters[1]? = some q ∧ q.formal = k ∧ q.slots.map Slot.raw = texts.map some

namespace ParamDraft

variable {h : Hierarchy} {declaration param : String} {location : Location}

/-- What is there and given once passes. -/
theorem checkGiven_eq_ok {f : FormalParameter} :
    ∀ {as : List AttrDraft} {seen : List String}, (as.map AttrDraft.name).Nodup →
      (∀ a ∈ as, a.name ∉ seen) → (∀ a ∈ as, a.name ∈ f.attributes.map FormalAttribute.name) →
        checkGiven declaration param f location seen as = .ok ()
  | [], _, _, _, _ => rfl
  | a :: as, seen, hnodup, hseen, hthere => by
    obtain ⟨hnew, hnodup⟩ := List.nodup_cons.1 hnodup
    obtain ⟨haseen, hseen⟩ := List.forall_mem_cons.1 hseen
    obtain ⟨hathere, hthere⟩ := List.forall_mem_cons.1 hthere
    obtain ⟨x, hx, hname⟩ := List.mem_map.1 hathere
    have hfound : ¬(f.attributeIndex? a.name).isNone = true := fun hnone => by
      have h := List.findIdx?_eq_none_iff.1 (Option.isNone_iff_eq_none.1 hnone) x hx
      simp [hname] at h
    unfold checkGiven
    rw [if_neg (by simpa using haseen), if_neg hfound]
    refine checkGiven_eq_ok hnodup (fun b hb hmem => ?_) hthere
    rcases List.mem_cons.1 hmem with heq | hmem
    · exact hnew (heq ▸ List.mem_map_of_mem hb)
    · exact hseen b hb hmem

theorem given?_of_nodup {p : ParamDraft} (hnodup : (p.attributes.map AttrDraft.name).Nodup)
    {a : AttrDraft} (ha : a ∈ p.attributes) : p.given? a.name = some a.value := by
  obtain ⟨b, hb⟩ : ∃ b, p.attributes.find? (fun x => x.name == a.name) = some b :=
    Option.isSome_iff_exists.1 (List.find?_isSome.2 ⟨a, ha, beq_self_eq_true _⟩)
  have hname : b.name = a.name := by simpa using List.find?_some hb
  obtain rfl : b = a := List.inj_on_of_nodup_map hnodup (List.mem_of_find?_eq_some hb) ha hname
  rw [given?, hb, Option.map_some]

end ParamDraft

namespace FormalParameter

variable {f : FormalParameter} {texts : List String}

theorem names_giving (hlength : texts.length = f.attributes.length) :
    (f.giving texts).attributes.map AttrDraft.name = f.attributes.map FormalAttribute.name := by
  unfold giving
  rw [List.map_zipWith]
  exact zipWith_eq_map hlength

/-- Texts for all attributes are linked to the attributes. -/
theorem link_giving (hf : f.Addressable) (hlength : texts.length = f.attributes.length)
    (h : Hierarchy) (declaration : String) (k : Nat) (location : Location) :
    ∃ q, (f.giving texts).link h declaration k f location = .ok q ∧ q.formal = k ∧
      q.slots.map Slot.raw = texts.map some := by
  have hnames := names_giving hlength
  have hnodup : ((f.giving texts).attributes.map AttrDraft.name).Nodup := hnames ▸ hf.names
  let slot (a : FormalAttribute) (text : String) : Slot :=
    ⟨a.name, some text, .unbound, a.type, none, a.pipelineOutputs⟩
  have hslots : f.attributes.mapM ((f.giving texts).linkSlot h declaration location) =
      .ok (f.attributes.zipWith slot texts) := by
    refine mapM_eq_ok_of_forall₂ (List.forall₂_iff_get.2 ⟨by simp [hlength], fun i hi hi' => ?_⟩)
    have hi' : i < texts.length := hlength ▸ hi
    have hgiven : (f.giving texts).given? f.attributes[i].name = some (.text texts[i]) :=
      ParamDraft.given?_of_nodup (a := ⟨f.attributes[i].name, .text texts[i]⟩) hnodup
        (List.mem_of_getElem? (i := i) (by simp [giving, hi, hi']))
    simp [ParamDraft.linkSlot, hgiven, slot]
  refine ⟨⟨f.name, k, f.attributes.zipWith slot texts⟩, bind_eq_ok.2 ⟨(), ?_, ?_⟩, rfl, ?_⟩
  · refine ParamDraft.checkGiven_eq_ok hnodup (fun _ _ => List.not_mem_nil) fun a ha => ?_
    exact hnames ▸ List.mem_map_of_mem ha
  · exact bind_eq_ok.2 ⟨_, hslots, rfl⟩
  · rw [List.map_zipWith]
    show List.zipWith (fun _ text => some text) f.attributes texts = _
    rw [List.zipWith_comm]
    exact zipWith_eq_map hlength.symm

end FormalParameter

/-- The condition of a declaration is linked to the parameter that interfaces start with. -/
theorem Condition.exists_link {h : Hierarchy} (hw : h.WellFormed) (text declaration : String)
    (location : Location) :
    ∃ q, (Condition.param text).link h declaration 0 (Condition.formal h) location = .ok q := by
  obtain ⟨value, invert, hparam⟩ : ∃ value invert, Condition.param text =
      ⟨parameterName, [⟨valueName, .text value⟩, ⟨invertName, .immediate (.boolean invert)⟩]⟩ :=
    ⟨_, _, rfl⟩
  rw [hparam]
  have hcoerce : h.coerce? (.boolean invert) ((h.parse "Boolean").toOption.getD ClassType.object) =
      some (.boolean invert) := if_pos (Condition.assignable_boolean hw invert)
  have hnames : valueName ≠ invertName := by decide
  obtain ⟨slots, hslots⟩ := exists_mapM_eq_ok (l := (Condition.formal h).attributes)
    (f := ParamDraft.linkSlot h declaration ⟨parameterName, [⟨valueName, .text value⟩,
      ⟨invertName, .immediate (.boolean invert)⟩]⟩ location) (by
    simp [formal, ParamDraft.linkSlot, ParamDraft.given?, hnames, hcoerce])
  refine ⟨_, bind_eq_ok.2 ⟨(), ?_, bind_eq_ok.2 ⟨slots, hslots, rfl⟩⟩⟩
  exact ParamDraft.checkGiven_eq_ok (by decide : [valueName, invertName].Nodup)
    (fun _ _ => List.not_mem_nil) (by simp [formal])

/-! ## Blocks -/

namespace Network

variable {n m : Network}

theorem types_complete (h : n.complete = .ok m) : m.types = n.types := by
  obtain ⟨k⟩ := exists_compilation h
  have hexpanded : k.expanded.types = n.types := by
    obtain ⟨_, -, hexpand⟩ := bind_eq_ok.1 k.expand_eq
    exact (congrArg Network.types (pure_eq_ok.1 hexpand)).symm
  calc m.types
    _ = k.frozen.types := k.types_eq
    _ = k.resolved.types := k.frozen_types_eq
    _ = k.expanded.types := types_resolveReferences k.resolve_eq
    _ = n.types := hexpanded

end Network

section Blocks

variable {σ : Type} {r : Resolver σ} {b : BlockDraft} {a : Assembly} {s : σ} {p : Plan}

/-- The first parameter of a plan is the condition. -/
theorem BlockDraft.getElem?_zero_parameters (hok : ((b.compile r).run.run s).1 = .ok p) :
    p.interface.parameters[0]? = some (Condition.formal r.types) := by
  have htypes : Ensures (fun _ => True) (b.link r) fun n => n.types = r.types :=
    Ensures.trivial.bind fun _ _ => .pure rfl
  obtain ⟨n, m, hn, hcomplete, rfl⟩ := (ensures_compile htypes s trivial).2 p hok
  rw [← hn, ← Network.types_complete hcomplete]
  rfl

theorem Assembly.getElem?_zero_parameters (hok : ((a.compile r).run s).1.1 = .ok p) :
    p.interface.parameters[0]? = some (Condition.formal r.types) :=
  BlockDraft.getElem?_zero_parameters (compile_eq_ok hok)

/-- The names of the parameters of a plan are that of the condition and those of the inputs. -/
theorem Assembly.map_name_parameters (ha : Assembly.ofDraft b = .ok a)
    (hok : ((a.compile r).run s).1.1 = .ok p) : p.interface.parameters.map FormalParameter.name =
      Condition.parameterName :: b.params.map BlockParamDraft.name := by
  have hnames := congrArg (List.map Prod.fst) (names_interface ha hok).1
  simpa [Interface.parameterNames, BlockDraft.inputNames, Function.comp_def] using hnames

/-- The attributes of each parameter of a plan have different names. -/
theorem Assembly.addressable_parameter (ha : Assembly.ofDraft b = .ok a)
    (hok : ((a.compile r).run s).1.1 = .ok p) {f : FormalParameter}
    (hf : f ∈ p.interface.parameters) : f.Addressable := by
  have hmem : (f.name, f.attributes.map FormalAttribute.name) ∈ p.interface.parameterNames :=
    List.mem_map_of_mem (f := fun f : FormalParameter =>
      (f.name, f.attributes.map FormalAttribute.name)) hf
  rw [(names_interface ha hok).1] at hmem
  refine FormalParameter.addressable_of_nodup ?_
  rcases List.mem_cons.1 hmem with heq | hmem
  · rw [(Prod.mk.inj heq).2]
    decide
  · obtain ⟨q, hq, heq⟩ := List.mem_map.1 hmem
    rw [← (Prod.mk.inj heq).2]
    exact (ofDraft_eq_ok ha).2.attributes q hq

/-- Every formal input is found exactly if no input is named like the condition. -/
theorem Assembly.addressable_interface_iff (ha : Assembly.ofDraft b = .ok a)
    (hok : ((a.compile r).run s).1.1 = .ok p) :
    p.interface.Addressable ↔ ∀ q ∈ b.params, q.name ≠ Condition.parameterName := by
  have hnodup : (p.interface.parameters.map FormalParameter.name).Nodup ↔
      ∀ q ∈ b.params, q.name ≠ Condition.parameterName := by
    rw [map_name_parameters ha hok, List.nodup_cons,
      and_iff_left (ofDraft_eq_ok ha).2.inputs, List.mem_map]
    exact ⟨fun h q hq hname => h ⟨q, hq, hname⟩, fun h ⟨q, hq, hname⟩ => h q hq hname⟩
  exact ⟨fun h => hnodup.1 h.names, fun h => Interface.addressable_of_nodup (hnodup.2 h)⟩

/-- The position of an input in the interface. -/
theorem Assembly.exists_parameter (ha : Assembly.ofDraft b = .ok a)
    (hok : ((a.compile r).run s).1.1 = .ok p) {i : Nat} {x : BlockParamDraft}
    (hx : b.params[i]? = some x) :
    ∃ f, p.interface.parameters[i + 1]? = some f ∧ f.name = x.name := by
  have hname : (p.interface.parameters.map FormalParameter.name)[i + 1]? = some x.name := by
    rw [map_name_parameters ha hok, List.getElem?_cons_succ, List.getElem?_map, hx, Option.map_some]
  rw [List.getElem?_map] at hname
  exact Option.map_eq_some_iff.1 hname

theorem Assembly.parameterIndex?_condition (ha : Assembly.ofDraft b = .ok a)
    (hok : ((a.compile r).run s).1.1 = .ok p) :
    p.interface.parameterIndex? Condition.parameterName = some 0 := by
  rw [p.interface.parameterIndex?_eq, map_name_parameters ha hok, List.findIdx?_cons,
    if_pos (beq_self_eq_true _)]

theorem Assembly.parameterIndex?_input (ha : Assembly.ofDraft b = .ok a)
    (hok : ((a.compile r).run s).1.1 = .ok p) {i : Nat} {x : BlockParamDraft}
    (hx : b.params[i]? = some x) (hname : x.name ≠ Condition.parameterName) :
    p.interface.parameterIndex? x.name = some (i + 1) := by
  have hfound := findIdx?_of_nodup (ofDraft_eq_ok ha).2.inputs (i := i) (s := x.name)
    (by rw [List.getElem?_map, hx, Option.map_some])
  rw [p.interface.parameterIndex?_eq, map_name_parameters ha hok, List.findIdx?_cons,
    if_neg (by simpa using hname.symm), hfound, Option.map_some]

end Blocks

theorem DeclarationDraft.linkParam_eq {h : Hierarchy} {d : DeclarationDraft} {x : Specification}
    {location : Location} {p : ParamDraft} {k : Nat} {f : FormalParameter}
    (hk : x.interface.parameterIndex? p.name = some k)
    (hf : x.interface.parameters[k]? = some f) :
    d.linkParam h x location p = p.link h d.name k f location := by
  simp only [linkParam, hk, hf]

/-- A parameter of a declaration is an occurrence of the first one of its name. -/
theorem DeclarationDraft.parameterIndex?_of_link {h : Hierarchy} {d : DeclarationDraft}
    {x : Specification} {location : Location} {decl : Declaration}
    (hok : d.link h x location = .ok decl) {q : Parameter} (hq : q ∈ decl.parameters) :
    ∃ f, x.interface.parameters[q.formal]? = some f ∧
      x.interface.parameterIndex? f.name = some q.formal := by
  obtain ⟨parameters, hparams, hok⟩ := bind_eq_ok.1 hok
  obtain rfl := pure_eq_ok.1 hok
  obtain ⟨p, -, hlink⟩ := mem_of_mapM_eq_ok hparams hq
  unfold linkParam at hlink
  split at hlink
  · cases hlink
  · rename_i k hk
    split at hlink
    · cases hlink
    · rename_i f hf
      obtain ⟨_, -, hlink⟩ := bind_eq_ok.1 hlink
      obtain ⟨slots, -, hlink⟩ := bind_eq_ok.1 hlink
      obtain rfl := pure_eq_ok.1 hlink
      have hname : f.name = p.name := by
        obtain ⟨hlt, hfound, -⟩ := List.findIdx?_eq_some_iff_getElem.1 hk
        rw [List.getElem?_eq_getElem hlt] at hf
        exact Option.some.inj hf ▸ beq_iff_eq.1 hfound
      exact ⟨f, hf, hname ▸ hk⟩

/-- What is in reach can be given. -/
theorem Specification.bindable_of_parameterIndex? {h : Hierarchy} (hw : h.WellFormed)
    {x : Specification} {k : Nat} {f : FormalParameter}
    (hcondition : x.interface.parameterIndex? Condition.parameterName = some 0)
    (hfirst : x.interface.parameters[0]? = some (Condition.formal h))
    (hk : x.interface.parameters[k]? = some f)
    (hfound : x.interface.parameterIndex? f.name = some k) (hf : f.Addressable) :
    x.Bindable h k := by
  refine ⟨f, hk, fun d location texts hlength => ?_⟩
  obtain ⟨c, hc⟩ :=
    Condition.exists_link hw (d.condition.getD Condition.always) d.name location
  obtain ⟨q, hq, hformal, hraws⟩ := FormalParameter.link_giving hf hlength h d.name k location
  have hlinked : (DeclarationDraft.allParams { d with params := [f.giving texts] }).mapM
      (DeclarationDraft.linkParam h { d with params := [f.giving texts] } x location) =
      .ok [c, q] := by
    refine mapM_eq_ok_of_forall₂ (.cons ?_ (.cons ?_ .nil))
    · exact (DeclarationDraft.linkParam_eq hcondition hfirst).trans hc
    · exact (DeclarationDraft.linkParam_eq hfound hk).trans hq
  exact ⟨_, q, bind_eq_ok.2 ⟨_, hlinked, rfl⟩, rfl, hformal, hraws⟩

/-- In the interface of a component every formal input is found by its name, and so are the
attributes in any interface. For the plan of an accepted draft this is so exactly if no input is
named like the condition: such an input has no occurrence in any declaration, and each other input
can be given. -/
theorem Assembly.addressable_iff {σ : Type} {c : Catalog} (hc : c.Registered) {r : Resolver σ}
    (hr : r.types = c.types) {b : BlockDraft} {a : Assembly} (ha : Assembly.ofDraft b = .ok a)
    {s : σ} {p : Plan} (hok : ((a.compile r).run s).1.1 = .ok p) :
    (∀ x ∈ c.components,
        x.interface.Addressable ∧ ∀ f ∈ x.interface.parameters, f.Addressable) ∧
      (∀ f ∈ p.interface.parameters, f.Addressable) ∧
        (p.interface.Addressable ↔ ∀ q ∈ b.params, q.name ≠ Condition.parameterName) ∧
          ∀ i q, b.params[i]? = some q →
            (q.name ≠ Condition.parameterName → p.specification.Bindable c.types (i + 1)) ∧
              (q.name = Condition.parameterName → ∀ (d : DeclarationDraft) location decl,
                d.link c.types p.specification location = .ok decl →
                  ∀ x ∈ decl.parameters, x.formal ≠ i + 1) := by
  refine ⟨fun _ hx => hc.addressable hx, fun _ hf => addressable_parameter ha hok hf,
    addressable_interface_iff ha hok, fun i q hq => ⟨fun hname => ?_, fun hname => ?_⟩⟩
  · obtain ⟨f, hf, hfname⟩ := exists_parameter ha hok hq
    refine Specification.bindable_of_parameterIndex? hc.types.1
      (parameterIndex?_condition ha hok) (hr ▸ getElem?_zero_parameters hok) hf ?_
      (addressable_parameter ha hok (List.mem_of_getElem? hf))
    exact hfname ▸ parameterIndex?_input ha hok hq hname
  · intro d location decl hlink x hx hformal
    obtain ⟨f, hf, hfound⟩ := DeclarationDraft.parameterIndex?_of_link hlink hx
    obtain ⟨f', hf', hfname⟩ := exists_parameter ha hok hq
    rw [hformal] at hf hfound
    obtain rfl := Option.some.inj (hf.symm.trans hf')
    rw [hfname, hname] at hfound
    exact Nat.noConfusion
      (Option.some.inj (hfound.symm.trans (parameterIndex?_condition ha hok)))

/-- A block with an input named like the condition, after one that is not. -/
def hidingInput : BlockDraft :=
  ((BlockDraft.new "n").param "in" ["x"]).param Condition.parameterName ["x"]

/-- The plan of a block that uses no other one. -/
def compileAlone (b : BlockDraft) : Except Fault Plan :=
  (((Assembly.mk b .growing).compile Catalog.standard.resolver).run ()).1.1

/-- Next to an input that is out of reach the others can be given. -/
theorem Assembly.addressable_iff_hiding : ∃ p,
    Assembly.ofDraft hidingInput = .ok ⟨hidingInput, .growing⟩ ∧
      (((Assembly.mk hidingInput .growing).compile Catalog.standard.resolver).run ()).1.1 = .ok p ∧
        ¬p.interface.Addressable ∧ p.specification.Bindable Catalog.standard.types 1 := by
  have hrun : (compileAlone hidingInput).toOption.isSome = true := by decide +kernel
  obtain ⟨p, hp⟩ := Option.isSome_iff_exists.1 hrun
  have haccepted : Assembly.ofDraft hidingInput = .ok ⟨hidingInput, .growing⟩ := rfl
  have hok : (((Assembly.mk hidingInput .growing).compile Catalog.standard.resolver).run ()).1.1 =
    .ok p := toOption_eq_some.1 hp
  obtain ⟨-, -, hiff, hinputs⟩ := addressable_iff (.ofTypes .standard) rfl haccepted hok
  refine ⟨p, haccepted, hok, fun h => ?_, (hinputs 0 ⟨"in", none, [⟨"x", none⟩]⟩ rfl).1 (by decide)⟩
  exact hiff.1 h ⟨Condition.parameterName, none, [⟨"x", none⟩]⟩ (by decide) rfl

/-- A block whose only input is named like the condition. -/
def hiddenInput : BlockDraft :=
  (BlockDraft.new "n").param Condition.parameterName ["x"]

/-- A declaration that gives the input. -/
def givesHidden : DeclarationDraft :=
  (DeclarationDraft.new "q" (.block "n")).param Condition.parameterName [("x", "5")]

/-- The block is accepted and compiled, and what gives its input is taken for a condition. -/
theorem Assembly.unaddressable_hidden : ∃ p,
    Assembly.ofDraft hiddenInput = .ok ⟨hiddenInput, .growing⟩ ∧
      (((Assembly.mk hiddenInput .growing).compile Catalog.standard.resolver).run ()).1.1 = .ok p ∧
        p.interface.parameters.map FormalParameter.name =
            [Condition.parameterName, Condition.parameterName] ∧
          p.interface.parameterIndex? Condition.parameterName = some 0 ∧
            givesHidden.link Catalog.standard.types p.specification .unknown =
              reject (.unsupportedAttribute Condition.parameterName "x" "q") .unknown := by
  have hrun : (compileAlone hiddenInput).toOption.any (fun p =>
      p.interface.parameters.map FormalParameter.name ==
          [Condition.parameterName, Condition.parameterName] &&
        (p.interface.parameterIndex? Condition.parameterName == some 0 &&
          decide (givesHidden.link Catalog.standard.types p.specification .unknown =
            reject (.unsupportedAttribute Condition.parameterName "x" "q") .unknown))) = true := by
    decide +kernel
  obtain ⟨p, hp, hrun⟩ := (Option.any_eq_true _ _).1 hrun
  simp only [Bool.and_eq_true, beq_iff_eq, decide_eq_true_eq] at hrun
  exact ⟨p, rfl, toOption_eq_some.1 hp, hrun⟩

end Blockwork
