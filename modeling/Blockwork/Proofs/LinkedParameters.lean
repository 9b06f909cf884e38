import Blockwork.Proofs.Addressing
import Blockwork.Proofs.Provides

/-!
# Linked parameters

A draft gives the attributes of a parameter in any order, and linking puts them into the order of
the formal parameter. This succeeds just if the draft fits the formal parameter
(`ParamDraft.Fits`): it gives attributes of it only, each once, all those that have no default,
and for each of them something that can be taken. Then there is one attribute for each formal one,
which holds what is given for it, and the default just if nothing is (`ParamDraft.Fills`). No
attribute that is given is lost. All this is `ParamDraft.link_exact`.
-/

namespace Blockwork

/-! ## What is taken for an attribute -/

/-- The literal that a literal becomes where a type is asked for: the same if it has the type, and
otherwise what its text is read as, unless it is a text itself. -/
inductive Hierarchy.CoercesTo (h : Hierarchy) (t : ClassType) (v : Literal) : Literal → Prop
  | kept (hv : h.assignable t (h.literalType v) = true) : CoercesTo h t v v
  | reread {w : Literal} (hv : h.assignable t (h.literalType v) = false) (hkind : v.kind ≠ .text)
    (hw : h.readLiteral v.shown t = .ok w) : CoercesTo h t v w

/-- The attribute holds what is given: a text that is still to be resolved, or the literal that the
literal becomes. -/
inductive AttrDraft.HeldBy (h : Hierarchy) (a : AttrDraft) (s : Slot) : Prop
  | text {text : String} (ha : a.value = .text text) (hraw : s.raw = some text)
    (hbinding : s.binding = .unbound)
  | literal {v w : Literal} (ha : a.value = .immediate v) (hcoerces : h.CoercesTo s.declared v w)
    (hraw : s.raw = none) (hbinding : s.binding = .literal w)

namespace ParamDraft

/-- The draft gives what the formal parameter asks for. -/
structure Fits (h : Hierarchy) (p : ParamDraft) (f : FormalParameter) : Prop where
  once : (p.attributes.map AttrDraft.name).Nodup
  supported : ∀ a ∈ p.attributes, ∃ x ∈ f.attributes, x.name = a.name
  complete : ∀ x ∈ f.attributes, x.default = none → ∃ a ∈ p.attributes, a.name = x.name
  coerced : ∀ x ∈ f.attributes, ∀ a ∈ p.attributes, a.name = x.name → ∀ v,
    a.value = .immediate v → ∃ w, h.CoercesTo x.type v w

/-- The attribute for a formal one, as it is linked: what is given for it if anything is, and the
default otherwise. -/
structure Fills (h : Hierarchy) (p : ParamDraft) (x : FormalAttribute) (s : Slot) : Prop
    extends s.Fresh h x where
  name : s.name = x.name
  given : ∀ a ∈ p.attributes, a.name = x.name → a.HeldBy h s
  default : (∀ a ∈ p.attributes, a.name ≠ x.name) → ∃ v, x.default = some v ∧ s.raw = none ∧
    s.binding = .literal v

end ParamDraft

/-! ## Literals -/

theorem Hierarchy.coerce?_eq_some {h : Hierarchy} {t : ClassType} {v w : Literal} :
    h.coerce? v t = some w ↔ h.CoercesTo t v w := by
  unfold coerce?
  by_cases hv : h.assignable t (h.literalType v) = true
  · rw [if_pos hv, Option.some_inj]
    constructor
    · rintro rfl
      exact .kept hv
    · rintro (- | ⟨hnot, -, -⟩)
      · rfl
      · rw [hv] at hnot
        cases hnot
  · rw [if_neg hv]
    split
    · constructor
      · intro hnone
        cases hnone
      · rintro (hv' | ⟨-, hkind, -⟩)
        · exact absurd hv' hv
        · exact absurd rfl hkind
    · rename_i hnot
      have hkind : v.kind ≠ .text := by
        cases v with
        | text text => exact absurd rfl (hnot text)
        | _ => exact nofun
      rw [toOption_eq_some]
      constructor
      · exact .reread (eq_false_of_ne_true hv) hkind
      · rintro (hv' | ⟨-, -, hw⟩)
        · exact absurd hv' hv
        · exact hw

namespace ParamDraft

variable {h : Hierarchy} {declaration param : String} {location : Location} {p : ParamDraft}
  {f : FormalParameter} {x : FormalAttribute} {s : Slot} {k : Nat} {q : Parameter}

/-! ## Checking what is given -/

/-- What passes is there, given once and not given before. -/
theorem checkGiven_eq_ok_iff {as : List AttrDraft} {seen : List String} :
    checkGiven declaration param f location seen as = .ok () ↔ (as.map AttrDraft.name).Nodup ∧
      (∀ a ∈ as, a.name ∉ seen) ∧ ∀ a ∈ as, ∃ x ∈ f.attributes, x.name = a.name := by
  refine ⟨fun hok => ?_, fun ⟨hnodup, hseen, hthere⟩ =>
    checkGiven_eq_ok hnodup hseen fun a ha => List.mem_map.2 (hthere a ha)⟩
  -- What has been seen grows along the list, so it is general in the induction.
  induction as generalizing seen with
  | nil => simp
  | cons a as ih =>
    unfold checkGiven at hok
    split at hok
    · simp [reject] at hok
    · rename_i hnew
      split at hok
      · simp [reject] at hok
      · rename_i hfound
        rw [List.contains_iff_mem] at hnew
        obtain ⟨hnodup, hseen, hthere⟩ := ih hok
        refine ⟨List.nodup_cons.2 ⟨fun hmem => ?_, hnodup⟩, List.forall_mem_cons.2 ⟨hnew, ?_⟩,
          List.forall_mem_cons.2 ⟨?_, hthere⟩⟩
        · obtain ⟨b, hb, hname⟩ := List.mem_map.1 hmem
          exact hseen b hb (hname ▸ List.mem_cons_self)
        · exact fun b hb hmem => hseen b hb (List.mem_cons_of_mem _ hmem)
        · rw [Option.isNone_iff_eq_none] at hfound
          unfold FormalParameter.attributeIndex? at hfound
          rw [List.findIdx?_eq_none_iff] at hfound
          push Not at hfound
          obtain ⟨x, hx, hname⟩ := hfound
          exact ⟨x, hx, by simpa using hname⟩

theorem given?_eq_none {name : String} :
    p.given? name = none ↔ ∀ a ∈ p.attributes, a.name ≠ name := by
  unfold given?
  simp

theorem exists_of_given? {name : String} {value : RawValue} (hgiven : p.given? name = some value) :
    ∃ a ∈ p.attributes, a.name = name ∧ a.value = value := by
  obtain ⟨a, ha, rfl⟩ := Option.map_eq_some_iff.1 hgiven
  exact ⟨a, List.mem_of_find?_eq_some ha, by simpa using List.find?_some ha, rfl⟩

/-! ## Filling an attribute -/

/-- The attribute is filled with the only thing that is given for it, or with the default. -/
theorem fills_of_linkSlot {outputs : List FormalOutput} (hw : h.WellFormed) (hk : h.KnowsLiterals)
    (hx : x.Sound h outputs) (honce : (p.attributes.map AttrDraft.name).Nodup)
    (hok : p.linkSlot h declaration location x = .ok s) : p.Fills h x s := by
  have hfresh := fresh_linkSlot hw hk hx hok
  have hvalue : ∀ a ∈ p.attributes, a.name = x.name → p.given? x.name = some a.value :=
    fun a ha hname => hname ▸ given?_of_nodup honce ha
  unfold linkSlot at hok
  simp only at hok
  split at hok
  · rename_i text hgiven
    obtain rfl := Except.ok.inj hok
    refine { hfresh with name := rfl, given := fun a ha hname => ?_, default := fun hnone => ?_ }
    · exact .text (Option.some.inj ((hvalue a ha hname).symm.trans hgiven)) rfl rfl
    · rw [given?_eq_none.2 hnone] at hgiven
      cases hgiven
  · rename_i v hgiven
    split at hok
    · rename_i w hcoerce
      obtain rfl := Except.ok.inj hok
      refine { hfresh with name := rfl, given := fun a ha hname => ?_, default := fun hnone => ?_ }
      · exact .literal (Option.some.inj ((hvalue a ha hname).symm.trans hgiven))
          (Hierarchy.coerce?_eq_some.1 hcoerce) rfl rfl
      · rw [given?_eq_none.2 hnone] at hgiven
        cases hgiven
    · simp [reject] at hok
  · rename_i hgiven
    split at hok
    · rename_i v hdefault
      obtain rfl := Except.ok.inj hok
      refine { hfresh with name := rfl, given := fun a ha hname => ?_, default := fun _ => ?_ }
      · exact absurd hname (given?_eq_none.1 hgiven a ha)
      · exact ⟨v, hdefault, rfl, rfl⟩
    · simp [reject] at hok

/-- An attribute is filled if there is something for it that can be taken. -/
theorem exists_linkSlot
    (hcomplete : x.default = none → ∃ a ∈ p.attributes, a.name = x.name)
    (hcoerced : ∀ a ∈ p.attributes, a.name = x.name → ∀ v, a.value = .immediate v →
      ∃ w, h.CoercesTo x.type v w) :
    ∃ s, p.linkSlot h declaration location x = .ok s := by
  unfold linkSlot
  cases hgiven : p.given? x.name with
  | none =>
    cases hdefault : x.default with
    | none =>
      obtain ⟨a, ha, hname⟩ := hcomplete hdefault
      exact absurd hname (given?_eq_none.1 hgiven a ha)
    | some v => exact ⟨_, rfl⟩
  | some value =>
    cases value with
    | text text => exact ⟨_, rfl⟩
    | immediate v =>
      obtain ⟨a, ha, hname, hvalue⟩ := exists_of_given? hgiven
      obtain ⟨w, hw⟩ := hcoerced a ha hname v hvalue
      simp only [Hierarchy.coerce?_eq_some.2 hw]
      exact ⟨_, rfl⟩

/-! ## Linking -/

theorem link_eq_ok : p.link h declaration k f location = .ok q ↔
    checkGiven declaration p.name f location [] p.attributes = .ok () ∧
      ∃ slots, f.attributes.mapM (p.linkSlot h declaration location) = .ok slots ∧
        q = ⟨p.name, k, slots⟩ := by
  unfold link
  simp only [bind_eq_ok, pure_eq_ok]
  constructor
  · rintro ⟨⟨⟩, hgiven, slots, hslots, rfl⟩
    exact ⟨hgiven, slots, hslots, rfl⟩
  · rintro ⟨hgiven, slots, hslots, rfl⟩
    exact ⟨(), hgiven, slots, hslots, rfl⟩

theorem exists_link (hfits : p.Fits h f) : ∃ q, p.link h declaration k f location = .ok q := by
  obtain ⟨slots, hslots⟩ := exists_mapM_eq_ok
    (f := p.linkSlot h declaration location) fun x hx =>
      exists_linkSlot (hfits.complete x hx) (hfits.coerced x hx)
  exact ⟨_, link_eq_ok.2 ⟨checkGiven_eq_ok_iff.2 ⟨hfits.once, fun _ _ => List.not_mem_nil,
    hfits.supported⟩, slots, hslots, rfl⟩⟩

/-- What is linked is filled attribute by attribute. -/
theorem fills_of_link {outputs : List FormalOutput} (hw : h.WellFormed) (hk : h.KnowsLiterals)
    (hf : ∀ x ∈ f.attributes, x.Sound h outputs)
    (hok : p.link h declaration k f location = .ok q) :
    q.name = p.name ∧ q.formal = k ∧ List.Forall₂ (p.Fills h) f.attributes q.slots := by
  obtain ⟨hgiven, slots, hslots, rfl⟩ := link_eq_ok.1 hok
  obtain ⟨honce, -, -⟩ := checkGiven_eq_ok_iff.1 hgiven
  refine ⟨rfl, rfl, ?_⟩
  exact ((List.forall₂_and_left ..).2 ⟨fun x hx => hx, forall₂_of_mapM_eq_ok hslots⟩).imp
    fun x s ⟨hx, hlink⟩ => fills_of_linkSlot hw hk (hf x hx) honce hlink

theorem fits_of_fills {slots : List Slot}
    (hgiven : checkGiven declaration param f location [] p.attributes = .ok ())
    (hfills : List.Forall₂ (p.Fills h) f.attributes slots) : p.Fits h f := by
  obtain ⟨honce, -, hsupported⟩ := checkGiven_eq_ok_iff.1 hgiven
  refine ⟨honce, hsupported, fun x hx hdefault => ?_, fun x hx a ha hname v hvalue => ?_⟩ <;>
    obtain ⟨i, hi⟩ := List.getElem?_of_mem hx <;>
    obtain ⟨s, -, hs⟩ := exists_getElem?_of_forall₂ hfills hi
  · -- If nothing were given, the attribute would be filled with a default that there is not.
    by_contra hnone
    push Not at hnone
    obtain ⟨v, hv, -⟩ := hs.default hnone
    rw [hdefault] at hv
    cases hv
  · obtain ⟨hvalue', -, -⟩ | ⟨hvalue', hcoerces, -, -⟩ := hs.given a ha hname
    · rw [hvalue] at hvalue'
      cases hvalue'
    · rw [hvalue] at hvalue'
      obtain rfl := RawValue.immediate.inj hvalue'
      exact ⟨_, hs.declared ▸ hcoerces⟩

/-- A formal parameter of what a catalog provides is linked just if the draft fits it. Then the
attributes are those of the formal parameter, in its order, each filled with what is given for it or
else with its default, and everything that is given is held by the attribute of its name. -/
theorem link_exact {c : Catalog} (hc : c.Registered) {y : Specification} (hy : c.Provides y)
    (hf : y.interface.parameters[k]? = some f) (p : ParamDraft) (declaration : String)
    (location : Location) :
    ((∃ q, p.link c.types declaration k f location = .ok q) ↔ p.Fits c.types f) ∧
      ∀ q, p.link c.types declaration k f location = .ok q → q.name = p.name ∧ q.formal = k ∧
        List.Forall₂ (p.Fills c.types) f.attributes q.slots ∧
          ∀ a ∈ p.attributes, ∃ s ∈ q.slots, s.name = a.name ∧ a.HeldBy c.types s := by
  obtain ⟨hw, hk⟩ := hc.types
  have hsound := (hy.sound hc).attributes f (List.mem_of_getElem? hf)
  refine ⟨⟨fun ⟨q, hok⟩ => ?_, exists_link⟩, fun q hok => ?_⟩
  · obtain ⟨-, -, hfills⟩ := fills_of_link hw hk hsound hok
    exact fits_of_fills (link_eq_ok.1 hok).1 hfills
  · obtain ⟨hname, hformal, hfills⟩ := fills_of_link hw hk hsound hok
    refine ⟨hname, hformal, hfills, fun a ha => ?_⟩
    obtain ⟨-, -, hsupported⟩ := checkGiven_eq_ok_iff.1 (link_eq_ok.1 hok).1
    obtain ⟨x, hx, hxname⟩ := hsupported a ha
    obtain ⟨i, hi⟩ := List.getElem?_of_mem hx
    obtain ⟨s, hs, hfill⟩ := exists_getElem?_of_forall₂ hfills hi
    exact ⟨s, List.mem_of_getElem? hs, hfill.name.trans hxname, hfill.given a ha hxname.symm⟩

/-- A component that counts up to a limit, by one unless it is told otherwise. -/
def countingCatalog : Catalog :=
  let counter := (ComponentDraft.new "Counter" "out" "Long").addParam
    ((((ComponentParamDraft.new "range" 1 none).attr "start" "Integer").attr "limit"
      "Long").attrWithDefault "step" "Integer" "1")
  ((Library.collect Catalog.register [counter]).run Catalog.standard).2

/-- A range whose limit is given first, as an integer. -/
def countingRange : ParamDraft :=
  ⟨"range", [⟨"limit", .immediate (.integer 5)⟩, ⟨"start", .text "@in.first"⟩]⟩

/-- The limit becomes a long integer, and the step is the default. -/
theorem link_exact_counting : ∃ x f q, x ∈ countingCatalog.components ∧
    x.interface.parameters[1]? = some f ∧ countingRange.Fits countingCatalog.types f ∧
      countingRange.link countingCatalog.types "d" 1 f .unknown = .ok q ∧
        List.Forall₂ (countingRange.Fills countingCatalog.types) f.attributes q.slots ∧
          q.slots.map (fun s => (s.name, s.raw, s.binding)) =
            [("start", some "@in.first", .unbound), ("limit", none, .literal (.long 5)),
              ("step", none, .literal (.integer 1))] := by
  have hrun : countingCatalog.components[0]?.any (fun x => x.interface.parameters[1]?.any fun f =>
      (countingRange.link countingCatalog.types "d" 1 f .unknown).toOption.any fun q =>
        decide (q.slots.map (fun s => (s.name, s.raw, s.binding)) =
          [("start", some "@in.first", .unbound), ("limit", none, .literal (.long 5)),
            ("step", none, .literal (.integer 1))])) = true := by
    decide +kernel
  obtain ⟨x, hx, hrun⟩ := (Option.any_eq_true _ _).1 hrun
  obtain ⟨f, hf, hrun⟩ := (Option.any_eq_true _ _).1 hrun
  obtain ⟨q, hq, hrun⟩ := toOption_any.1 hrun
  have hc : countingCatalog.Registered := Library.registered_collect (.ofTypes .standard) _
  have hmem := List.mem_of_getElem? hx
  obtain ⟨hfits, hlinks⟩ := link_exact hc (.component hmem) hf countingRange "d" .unknown
  obtain ⟨-, -, hfills, -⟩ := hlinks q hq
  exact ⟨x, f, q, hmem, hf, hfits.1 ⟨q, hq⟩, hq, hfills, of_decide_eq_true hrun⟩

end ParamDraft

end Blockwork
