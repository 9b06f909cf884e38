import Blockwork.Proofs.LinkedParameters
import Blockwork.Proofs.StarExpansion

/-!
# What comes of a parameter of a draft

A parameter of a draft is linked to the formal parameter of its name, and then it is copied for each
output that a star reference in it matches. Later passes change neither what the copies look like
nor what star references read. So the parameters of a declaration of a plan fall into groups, one
for each parameter of its draft (`Network.Compilation.gives`), and a group is empty just if there is
a star reference without outputs (`Network.Vanishes`).
-/

namespace Blockwork

/-! ## Parameters that vanish -/

/-- The name of a parameter, its formal parameter and the names of its attributes. -/
def Parameter.header (q : Parameter) : String × Nat × List String :=
  (q.name, q.formal, q.slots.map Slot.name)

/-- Nothing comes of a parameter of a draft: one of its texts is a star reference, and no output of
the declaration has a name that starts as it says. -/
def Network.Vanishes (n : Network) (p : ParamDraft) : Prop :=
  ∃ a ∈ p.attributes, ∃ star name start, a.value = .text star ∧ StarTo star name start ∧
    ∀ t ∈ n.declarations, t.name = name → ∀ o ∈ t.outputs, ¬start.toList <+: o.name.toList

/-- The occurrences that come of a parameter of a draft: they are occurrences of the formal
parameter of its name, and there are none just if the parameter vanishes. -/
structure Network.Gives (n : Network) (x : Specification) (p : ParamDraft) (qs : List Parameter) :
    Prop where
  name : ∀ q ∈ qs, q.name = p.name
  formal : ∀ q ∈ qs, x.interface.parameterIndex? p.name = some q.formal
  attributes : ∀ q ∈ qs, ∃ f, x.interface.parameters[q.formal]? = some f ∧
    q.slots.map Slot.name = f.attributes.map FormalAttribute.name
  eq_nil_iff : qs = [] ↔ n.Vanishes p

/-- An attribute has a text just if the draft gives it. -/
theorem ParamDraft.exists_raw_iff {h : Hierarchy} {outputs : List FormalOutput}
    (hw : h.WellFormed) (hk : h.KnowsLiterals) {declaration : String} {location : Location}
    {p : ParamDraft} {f : FormalParameter} {k : Nat} {q : Parameter}
    (hf : ∀ x ∈ f.attributes, x.Sound h outputs) (hok : p.link h declaration k f location = .ok q)
    {text : String} :
    (∃ s ∈ q.slots, s.raw = some text) ↔ ∃ a ∈ p.attributes, a.value = .text text := by
  obtain ⟨-, -, hfills⟩ := fills_of_link hw hk hf hok
  obtain ⟨-, -, hsupported⟩ := checkGiven_eq_ok_iff.1 (link_eq_ok.1 hok).1
  constructor
  · rintro ⟨s, hs, hraw⟩
    obtain ⟨i, hi⟩ := List.getElem?_of_mem hs
    obtain ⟨x, -, hfill⟩ := exists_getElem?_of_forall₂ hfills.flip hi
    by_cases hgiven : ∃ a ∈ p.attributes, a.name = x.name
    · obtain ⟨a, ha, hname⟩ := hgiven
      obtain ⟨hvalue, hraw', -⟩ | ⟨-, -, hraw', -⟩ := hfill.given a ha hname
      · exact ⟨a, ha, by rw [hvalue, Option.some.inj (hraw.symm.trans hraw')]⟩
      · rw [hraw] at hraw'
        cases hraw'
    · push Not at hgiven
      obtain ⟨v, -, hraw', -⟩ := hfill.default hgiven
      rw [hraw] at hraw'
      cases hraw'
  · rintro ⟨a, ha, hvalue⟩
    obtain ⟨x, hx, hname⟩ := hsupported a ha
    obtain ⟨i, hi⟩ := List.getElem?_of_mem hx
    obtain ⟨s, hs, hfill⟩ := exists_getElem?_of_forall₂ hfills hi
    obtain ⟨hvalue', hraw, -⟩ | ⟨hvalue', -, -, -⟩ := hfill.given a ha hname.symm
    · rw [hvalue] at hvalue'
      exact ⟨s, List.mem_of_getElem? hs, by rw [hraw, RawValue.text.inj hvalue']⟩
    · rw [hvalue] at hvalue'
      cases hvalue'

/-! ### Star references -/

theorem StarTo.isStarText {star name start : String} (h : StarTo star name start) :
    isStarText star = true := by
  have htoList : star.toList = ('@' :: (dotted name start).toList) ++ ['*'] := by
    rw [h.text]
    simp
  unfold Blockwork.isStarText
  rw [htoList, Bool.and_eq_true, beq_iff_eq, beq_iff_eq]
  exact ⟨rfl, List.getLast?_concat⟩

theorem StarTo.unique {star name start name' start' : String} (h : StarTo star name start)
    (h' : StarTo star name' start') : name' = name ∧ start' = start := by
  have hparts := h'.starParts?.symm.trans h.starParts?
  obtain ⟨hname, hstart⟩ := Prod.mk.inj (Option.some.inj hparts)
  exact ⟨hname, String.toList_inj.1 hstart⟩

/-- A parameter without star references does not vanish. -/
theorem Network.not_vanishes_of_noStar {n : Network} {p : ParamDraft}
    (h : p.attributes.all (fun a => a.value.text?.all fun text => !isStarText text) = true) :
    ¬n.Vanishes p := by
  rintro ⟨a, ha, star, name, start, hvalue, hto, -⟩
  have hnot := List.all_eq_true.1 h a ha
  rw [hvalue] at hnot
  simp [RawValue.text?, hto.isStarText] at hnot

theorem Declaration.startingWith_eq_nil {t : Declaration} {start : String} :
    t.startingWith start = [] ↔ ∀ o ∈ t.outputs, ¬start.toList <+: o.name.toList := by
  unfold startingWith
  rw [List.filter_eq_nil_iff]
  simp only [List.isPrefixOf_iff_prefix]
  constructor
  · intro hnone o ho
    obtain ⟨i, hi⟩ := List.getElem?_of_mem ho
    exact hnone (o, i) (List.mk_mem_zipIdx_iff_getElem?.2 hi)
  · exact fun hnone x hx => hnone x.1 (List.fst_mem_of_mem_zipIdx hx)

/-- A copy looks like the parameter. -/
theorem Parameter.FilledWith.header {q copy : Parameter} {star reference : String}
    (h : q.FilledWith star reference copy) : copy.header = q.header := by
  have hnames : copy.slots.map Slot.name = q.slots.map Slot.name :=
    map_eq_of_forall₂ h.slots fun s s' ⟨hstar, hother⟩ => by
      by_cases hraw : s.raw = some star
      · rw [hstar hraw]
      · rw [hother hraw]
  unfold Parameter.header
  rw [h.name, h.formal, hnames]

namespace Network.Replaces

variable {n : Network} {q : Parameter} {qs : List Parameter}

theorem header (h : n.Replaces q qs) : ∀ copy ∈ qs, copy.header = q.header := by
  intro copy hcopy
  cases h with
  | kept => rw [List.mem_singleton.1 hcopy]
  | copied _ _ _ _ _ _ hcopies =>
    obtain ⟨i, hi⟩ := List.getElem?_of_mem hcopy
    obtain ⟨x, -, hfilled⟩ := exists_getElem?_of_forall₂ hcopies.flip hi
    exact hfilled.header

/-- Nothing takes the place of a parameter just if it has a star reference without outputs. -/
theorem eq_nil_iff (h : n.Replaces q qs) : qs = [] ↔ ∃ s ∈ q.slots, ∃ star name start,
    s.raw = some star ∧ StarTo star name start ∧
      ∀ t ∈ n.declarations, t.name = name → ∀ o ∈ t.outputs, ¬start.toList <+: o.name.toList := by
  have hstars : ∀ s ∈ q.slots, ∀ star name start, s.raw = some star → StarTo star name start →
      s.isStar = true := fun s _ star name start hraw hto => by
    rw [Slot.isStar, hraw, Option.any_some, hto.isStarText]
  cases h with
  | kept hfree =>
    -- It is kept since it has no star reference at all.
    refine iff_of_false (List.cons_ne_nil _ _) ?_
    rintro ⟨s, hs, star, name, start, hraw, hto, -⟩
    have hnot := hfree s hs
    rw [hstars s hs star name start hraw hto] at hnot
    cases hnot
  | @copied star name start t copies hstar honly hto ht hname hone hcopies =>
    -- All its star references are the same one, to the only declaration of that name.
    rw [← List.length_eq_zero_iff, ← hcopies.length_eq, List.length_eq_zero_iff,
      Declaration.startingWith_eq_nil]
    constructor
    · intro hnone
      obtain ⟨s, hs, hraw⟩ := hstar
      exact ⟨s, hs, star, name, start, hraw, hto, fun t' ht' hname' => hone t' ht' hname' ▸ hnone⟩
    · rintro ⟨s, hs, star', name', start', hraw, hto', hnone⟩
      have hsame := honly s hs (hstars s hs star' name' start' hraw hto')
      obtain rfl := Option.some.inj (hraw.symm.trans hsame)
      obtain ⟨rfl, rfl⟩ := hto.unique hto'
      exact hnone t ht hname

end Network.Replaces

/-- What comes of a parameter of a draft when it is linked and its star references are expanded. -/
theorem DeclarationDraft.gives_of_linkParam {h : Hierarchy} (hw : h.WellFormed)
    (hk : h.KnowsLiterals) {d : DeclarationDraft} {x : Specification} {location : Location}
    {p : ParamDraft} {n : Network} {q : Parameter} {qs : List Parameter}
    (hx : x.interface.Sound h) (hok : d.linkParam h x location p = .ok q)
    (hreplaces : n.Replaces q qs) : n.Gives x p qs := by
  unfold linkParam at hok
  split at hok
  · cases hok
  · rename_i k hk'
    split at hok
    · cases hok
    · rename_i f hf
      have hsound := hx.attributes f (List.mem_of_getElem? hf)
      obtain ⟨hname, hformal, hfills⟩ := ParamDraft.fills_of_link hw hk hsound hok
      have hheader : ∀ copy ∈ qs, copy.name = p.name ∧ copy.formal = k ∧
          copy.slots.map Slot.name = f.attributes.map FormalAttribute.name := fun copy hcopy => by
        obtain ⟨hname', hrest⟩ := Prod.mk.inj (hreplaces.header copy hcopy)
        obtain ⟨hformal', hslots⟩ := Prod.mk.inj hrest
        exact ⟨hname'.trans hname, hformal'.trans hformal,
          hslots.trans (map_eq_of_forall₂ hfills fun _ _ hfill => hfill.name)⟩
      refine ⟨fun copy hcopy => (hheader copy hcopy).1, fun copy hcopy => ?_,
        fun copy hcopy => ⟨f, ?_, (hheader copy hcopy).2.2⟩, hreplaces.eq_nil_iff.trans ?_⟩
      · rw [(hheader copy hcopy).2.1, hk']
      · rw [(hheader copy hcopy).2.1, hf]
      · have hraws : ∀ text, (∃ s ∈ q.slots, s.raw = some text) ↔
            ∃ a ∈ p.attributes, a.value = .text text := fun _ =>
          ParamDraft.exists_raw_iff hw hk hsound hok
        constructor
        · rintro ⟨s, hs, star, name, start, hraw, hto, hnone⟩
          obtain ⟨a, ha, hvalue⟩ := (hraws star).1 ⟨s, hs, hraw⟩
          exact ⟨a, ha, star, name, start, hvalue, hto, hnone⟩
        · rintro ⟨a, ha, star, name, start, hvalue, hto, hnone⟩
          obtain ⟨s, hs, hraw⟩ := (hraws star).2 ⟨a, ha, hvalue⟩
          exact ⟨s, hs, star, name, start, hraw, hto, hnone⟩

/-! ### From linking to the plan -/

namespace Network

variable {n m e g : Network} {d d' : Declaration}

theorem vanishes_congr (h : m.labels = n.labels) {p : ParamDraft} :
    m.Vanishes p ↔ n.Vanishes p := by
  have hlabels : ∀ (c : Network) (name start : String), (∀ t ∈ c.declarations, t.name = name →
      ∀ o ∈ t.outputs, ¬start.toList <+: o.name.toList) ↔
        ∀ x ∈ c.labels, x.1 = name → ∀ y ∈ x.2, ¬start.toList <+: y.1.toList := by
    intro c name start
    simp only [labels, Declaration.label, List.forall_mem_map]
  unfold Vanishes
  simp only [hlabels, h]

theorem Gives.congr {x : Specification} {p : ParamDraft} {qs qs' : List Parameter}
    (h : n.Gives x p qs) (hlabels : m.labels = n.labels)
    (hheaders : List.Forall₂ (fun q q' : Parameter => q'.header = q.header) qs qs') :
    m.Gives x p qs' := by
  have hsource : ∀ q' ∈ qs', ∃ q ∈ qs, q'.name = q.name ∧ q'.formal = q.formal ∧
      q'.slots.map Slot.name = q.slots.map Slot.name := fun q' hq' => by
    obtain ⟨i, hi⟩ := List.getElem?_of_mem hq'
    obtain ⟨q, hq, hheader⟩ := exists_getElem?_of_forall₂ hheaders.flip hi
    obtain ⟨hname, hrest⟩ := Prod.mk.inj hheader
    exact ⟨q, List.mem_of_getElem? hq, hname, Prod.mk.inj hrest⟩
  refine ⟨fun q' hq' => ?_, fun q' hq' => ?_, fun q' hq' => ?_, ?_⟩
  · obtain ⟨q, hq, hname, -⟩ := hsource q' hq'
    exact hname.trans (h.name q hq)
  · obtain ⟨q, hq, -, hformal, -⟩ := hsource q' hq'
    exact hformal ▸ h.formal q hq
  · obtain ⟨q, hq, -, hformal, hslots⟩ := hsource q' hq'
    rw [hformal, hslots]
    exact h.attributes q hq
  · rw [vanishes_congr hlabels, ← h.eq_nil_iff, ← List.length_eq_zero_iff, ← hheaders.length_eq,
      List.length_eq_zero_iff]

theorem ResolvesParameter.header {q q' : Parameter} (h : n.ResolvesParameter q q') :
    q'.header = q.header := by
  have hnames : q'.slots.map Slot.name = q.slots.map Slot.name :=
    map_eq_of_forall₂ h.slots fun s s' hs => by
      obtain ⟨_, rfl, -⟩ := hs.kept
      rfl
  unfold Parameter.header
  rw [h.name, h.formal, hnames]

theorem headers_congr (h : d'.bare = d.bare) :
    d'.parameters.map Parameter.header = d.parameters.map Parameter.header := by
  have hbare : ∀ d : Declaration,
      d.bare.parameters.map Parameter.header = d.parameters.map Parameter.header := fun d => by
    simp [Declaration.bare, Parameter.bare, Parameter.header, Slot.bare, Function.comp_def]
  rw [← hbare d', h, hbare]

theorem specification_expandDeclaration (h : n.expandDeclaration d = .ok d') :
    d'.specification = d.specification := by
  unfold expandDeclaration at h
  split at h
  · rw [Except.ok.inj h]
  · obtain ⟨groups, -, h⟩ := bind_eq_ok.1 h
    obtain rfl := pure_eq_ok.1 h
    rfl

theorem labels_expandStars (h : n.expandStars = .ok e) : e.labels = n.labels :=
  map_eq_of_forall₂ (expandStars_eq_ok h).2 fun _ _ => label_expandDeclaration

theorem labels_resolveReferences (h : n.resolveReferences = .ok g) : g.labels = n.labels := by
  unfold resolveReferences at h
  obtain ⟨c, hc, h⟩ := bind_eq_ok.1 h
  obtain ⟨outputs, -, h⟩ := bind_eq_ok.1 h
  obtain rfl := pure_eq_ok.1 h
  suffices c.labels = n.labels from this
  refine foldlM_invariant (fun _ (c : Network) => c.labels = n.labels)
    (fun i _ c c' hlabels hstep => ?_) rfl hc
  obtain ⟨d, hd, hstep⟩ := bind_eq_ok.1 hstep
  obtain ⟨d', hbind, hstep⟩ := bind_eq_ok.1 hstep
  obtain rfl := pure_eq_ok.1 hstep
  refine (map_modify_of_eq fun d'' hd'' => ?_).trans hlabels
  obtain rfl := Option.some.inj ((require_eq_ok.1 hd).symm.trans hd'')
  rw [(getElem?_bindDeclaration hbind).1]
  rfl

theorem labels_congr (h : m.bare = n.bare) : m.labels = n.labels := by
  have hbare : ∀ c : Network, c.bare.labels = c.labels := fun c => by
    simp [labels, bare, Declaration.label, Declaration.bare, Output.bare, Function.comp_def]
  rw [← hbare m, h, hbare]

namespace Compilation

/-- The names that star references read do not change. -/
theorem labels_eq (k : Compilation n m) : m.labels = n.labels := by
  calc m.labels
    _ = k.unchecked.labels := labels_congr k.bare_eq
    _ = k.frozen.labels := congrArg (List.map Declaration.label) k.declarations_unchecked
    _ = (k.resolved.setOrder k.order).labels := labels_congr (bare_freezePipelines k.freeze_eq)
    _ = k.resolved.labels := rfl
    _ = k.expanded.labels := labels_resolveReferences k.resolve_eq
    _ = n.labels := labels_expandStars k.expand_eq

/-- The declarations of the plan are those that are linked. -/
theorem exists_linked (k : Compilation n m) {i : Nat} (hd : m.declaration? i = some d) :
    ∃ d₀, n.declaration? i = some d₀ := by
  have hlabel : m.labels[i]? = some d.label := by
    rw [labels, List.getElem?_map, show m.declarations[i]? = some d from hd, Option.map_some]
  rw [k.labels_eq, labels, List.getElem?_map] at hlabel
  obtain ⟨d₀, hd₀, -⟩ := Option.map_eq_some_iff.1 hlabel
  exact ⟨d₀, hd₀⟩

/-- The parameters of a declaration in the plan are those that take the place of its linked ones. -/
theorem exists_copies (k : Compilation n m) (hn : n.WellLinked) {i : Nat}
    (hd : n.declaration? i = some d) : ∃ d' groups, m.declaration? i = some d' ∧
      d'.specification = d.specification ∧
        List.Forall₂ (fun q qs => n.expandParameter d q = .ok qs) d.parameters groups ∧
          d'.parameters.map Parameter.header = groups.flatten.map Parameter.header := by
  obtain ⟨d₁, hd₁, hexpand⟩ := exists_getElem?_of_forall₂ (expandStars_eq_ok k.expand_eq).2 hd
  obtain ⟨-, groups, hgroups, hparameters⟩ := expandDeclaration_eq_ok hexpand
  obtain ⟨-, horder, hpositions⟩ := hn.given.expandStars k.expand_eq
  obtain ⟨d₂, hd₂, hbind⟩ :=
    declaration?_resolveReferences (by rw [horder, hpositions, hn.order]) k.resolve_eq hd₁
  have hsorted : (k.resolved.setOrder k.order).declaration? i = some d₂ := hd₂
  obtain ⟨d₃, hd₃, hbare⟩ :=
    exists_declaration?_of_bare (bare_freezePipelines k.freeze_eq).symm hsorted
  obtain ⟨d', hd', hbare'⟩ := exists_declaration?_of_bare k.bare_eq.symm
    (k.declaration?_unchecked i ▸ hd₃)
  have hsame : d₂.bare = d'.bare := hbare.trans hbare'
  refine ⟨d', groups, hd', ?_, hparameters, ?_⟩
  · calc d'.specification
      _ = d₂.specification := (congrArg Declaration.specification hsame.symm :)
      _ = d₁.specification := by rw [(getElem?_bindDeclaration hbind).1]
      _ = d.specification := specification_expandDeclaration hexpand
  · rw [← headers_congr hsame, ← hgroups]
    exact map_eq_of_forall₂ (forall₂_bindDeclaration hbind) fun _ _ => ResolvesParameter.header

/-- The parameters of a declaration in the plan, by the parameters of the draft that they come
of. -/
theorem gives (k : Compilation n m) (hn : n.WellLinked)
    (hnames : (n.declarations.map Declaration.name).Nodup) {draft : DeclarationDraft}
    {x : Specification} (hx : x.interface.Sound n.types) {location : Location}
    (hlink : draft.link n.types x location = .ok d) {i : Nat} (hd : n.declaration? i = some d) :
    ∃ d' groups, m.declaration? i = some d' ∧ d'.specification = x ∧
      d'.parameters = groups.flatten ∧ List.Forall₂ (m.Gives x) draft.allParams groups := by
  obtain ⟨d', groups, hd', hspecification, hgroups, hheaders⟩ := k.exists_copies hn hd
  obtain ⟨parameters, hparameters, hlink⟩ := bind_eq_ok.1 hlink
  obtain rfl := pure_eq_ok.1 hlink
  have hcopies : List.Forall₂ (fun q q' : Parameter => q'.header = q.header) groups.flatten
      d'.parameters := by
    have heq : List.Forall₂ (· = ·) (d'.parameters.map Parameter.header)
        (groups.flatten.map Parameter.header) := hheaders ▸ List.forall₂_refl _
    exact (List.forall₂_map_right_iff.1 (List.forall₂_map_left_iff.1 heq)).flip
  obtain ⟨groups', hflatten, hgroups'⟩ := exists_groups hcopies
  have hreplaced : List.Forall₂ n.Replaces parameters groups :=
    hgroups.imp fun _ _ => expandParameter_replaces hnames
  have hgives : List.Forall₂ (n.Gives x) draft.allParams groups := by
    refine forall₂_trans (T := n.Gives x) (fun p q qs hlink hreplaces => ?_)
      (forall₂_of_mapM_eq_ok hparameters) hreplaced
    exact DeclarationDraft.gives_of_linkParam hn.types hn.literals hx hlink hreplaces
  exact ⟨d', groups', hd', hspecification, hflatten,
    forall₂_trans (fun _ _ _ hgives => hgives.congr k.labels_eq) hgives hgroups'⟩

end Compilation

end Network

end Blockwork
