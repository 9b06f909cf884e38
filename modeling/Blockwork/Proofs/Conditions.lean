import Blockwork.Proofs.Copies
import Blockwork.Proofs.GivenOnce
import Blockwork.Proofs.GrowingTypes

/-!
# Conditions of declarations

Linking puts the condition of a declaration before the parameters of its draft, but the draft may
give the parameter `condition` again, and a star reference in it may leave no parameter at all or
many. All this is rejected unless one condition is left, since the formal parameter is given once.

So every declaration of a plan has exactly one condition, but not always as its first parameter. It
comes first just if no other parameter is left before it (`Library.conditions_exact`), and there is
one left if the condition of the draft vanishes (`Network.Vanishes`) and the draft gives another one
at the end (`Library.condition_last`).
-/

namespace Blockwork

/-! ## The parameter interfaces start with -/

/-- What a catalog provides has the condition as its first parameter. -/
theorem Catalog.Provides.condition {c : Catalog} (hc : c.Registered) {x : Specification}
    (hx : c.Provides x) : x.interface.parameters[0]? = some (Condition.formal c.types) := by
  cases hx with
  | @component x hx =>
    obtain ⟨d, hbuild⟩ := hc.exists_build x hx
    unfold ComponentDraft.build at hbuild
    obtain ⟨type, -, hbuild⟩ := bind_eq_ok.1 hbuild
    obtain ⟨parameters, -, hbuild⟩ := bind_eq_ok.1 hbuild
    obtain rfl := pure_eq_ok.1 hbuild
    rfl
  | block htypes _ _ _ _ hok => exact htypes ▸ BlockDraft.getElem?_zero_parameters hok

/-- Only the name of the condition is that of the first parameter. -/
theorem Interface.parameterIndex?_eq_zero {i : Interface} {h : Hierarchy}
    (hi : i.parameters[0]? = some (Condition.formal h)) {name : String} :
    i.parameterIndex? name = some 0 ↔ name = Condition.parameterName := by
  unfold parameterIndex?
  cases hparameters : i.parameters with
  | nil =>
    rw [hparameters] at hi
    cases hi
  | cons f fs =>
    rw [hparameters] at hi
    obtain rfl : f = Condition.formal h := Option.some.inj hi
    rw [List.findIdx?_cons]
    by_cases hname : name = Condition.parameterName
    · simp [hname, Condition.formal]
    · have hne : ¬((Condition.formal h).name == name) = true := fun heq =>
        hname (beq_iff_eq.1 heq).symm
      rw [if_neg hne]
      simp [hname]

/-! ## The condition of a declaration -/

/-- The condition of a declaration in a plan: the only occurrence of the parameter that interfaces
start with, with both its attributes. -/
structure Declaration.HasCondition (d : Declaration) (q : Parameter) : Prop where
  only : Network.occurrencesOf d 0 = [q]
  name : q.name = Condition.parameterName
  attributes : q.slots.map Slot.name = [Condition.valueName, Condition.invertName]

/-- The input is given once, and has a type that is assignable to `Boolean`. -/
structure Network.GivenAsCondition (n : Network) (id : InputId) : Prop where
  once : ∃ p, n.params[id.param]? = some p ∧ p.multiplicity = .one
  boolean : ∃ i t, n.input? id = some i ∧ n.types.parse "Boolean" = .ok t ∧
    n.types.assignable t i.type = true

/-- The parameter of a draft is the first that does not vanish. -/
def Network.FirstLeft (n : Network) (ps : List ParamDraft) (own : ParamDraft) : Prop :=
  ∃ before after, ps = before ++ own :: after ∧ (∀ y ∈ before, n.Vanishes y) ∧ ¬n.Vanishes own

/-- The first element of the groups is one of the first element that has any. -/
theorem exists_head?_flatten_iff {α β : Type} {P : β → Prop} {Gone Q : α → Prop} {as : List α}
    {groups : List (List β)}
    (h : List.Forall₂ (fun a group => (group = [] ↔ Gone a) ∧ ∀ b ∈ group, P b ↔ Q a) as groups) :
    (∃ b, groups.flatten.head? = some b ∧ P b) ↔ ∃ a, (∃ before after,
      as = before ++ a :: after ∧ (∀ y ∈ before, Gone y) ∧ ¬Gone a) ∧ Q a := by
  induction h with
  | nil => simp
  | @cons a group as groups hgroup _ ih =>
    obtain ⟨hnil, hP⟩ := hgroup
    cases group with
    | nil =>
      -- Nothing comes of `a`, so the search goes on behind it.
      rw [List.flatten_cons, List.nil_append, ih]
      constructor
      · rintro ⟨own, ⟨before, after, rfl, hbefore, hleft⟩, hown⟩
        exact ⟨own, ⟨a :: before, after, rfl,
          List.forall_mem_cons.2 ⟨hnil.1 rfl, hbefore⟩, hleft⟩, hown⟩
      · rintro ⟨own, ⟨before, after, has, hbefore, hleft⟩, hown⟩
        cases before with
        | nil =>
          obtain ⟨rfl, -⟩ := List.cons.inj has
          exact absurd (hnil.1 rfl) hleft
        | cons y before =>
          obtain ⟨-, rfl⟩ := List.cons.inj has
          exact ⟨own, ⟨before, after, rfl, (List.forall_mem_cons.1 hbefore).2, hleft⟩, hown⟩
    | cons b group =>
      have hleft : ¬Gone a := fun hgone => List.cons_ne_nil b group (hnil.2 hgone)
      have hb := hP b List.mem_cons_self
      constructor
      · rintro ⟨b', hb', hPb⟩
        obtain rfl := Option.some.inj hb'
        exact ⟨a, ⟨[], as, rfl, nofun, hleft⟩, hb.1 hPb⟩
      · rintro ⟨own, ⟨before, after, has, hbefore, -⟩, hown⟩
        cases before with
        | nil =>
          obtain ⟨rfl, -⟩ := List.cons.inj has
          exact ⟨b, rfl, hb.2 hown⟩
        | cons y before =>
          obtain ⟨rfl, -⟩ := List.cons.inj has
          exact absurd (hbefore a List.mem_cons_self) hleft

namespace Network

variable {n m : Network} {d : Declaration} {x : Specification} {h : Hierarchy} {q : Parameter}

theorem mem_occurrencesOf {i : Nat} : q ∈ occurrencesOf d i ↔ q ∈ d.parameters ∧ q.formal = i := by
  simp [occurrencesOf]

/-- Only what the draft calls the condition is an occurrence of it. -/
theorem Gives.formal_eq_zero {p : ParamDraft} {qs : List Parameter} (hgives : n.Gives x p qs)
    (hx : x.interface.parameters[0]? = some (Condition.formal h)) :
    ∀ q ∈ qs, q.formal = 0 ↔ p.name = Condition.parameterName := fun q hq => by
  rw [← Interface.parameterIndex?_eq_zero hx, hgives.formal q hq, Option.some_inj]

theorem Gives.names {p : ParamDraft} {qs : List Parameter} (hgives : n.Gives x p qs)
    (hx : x.interface.parameters[0]? = some (Condition.formal h)) (hq : q ∈ qs)
    (hformal : q.formal = 0) : q.name = Condition.parameterName ∧
      q.slots.map Slot.name = [Condition.valueName, Condition.invertName] := by
  obtain ⟨f, hf, hslots⟩ := hgives.attributes q hq
  rw [hformal, hx] at hf
  obtain rfl := Option.some.inj hf
  exact ⟨(hgives.name q hq).trans ((hgives.formal_eq_zero hx q hq).1 hformal), hslots⟩

/-- The condition of a declaration comes of the parameters of that name, and it is the first
parameter just if no other one is left before them. -/
theorem condition_of_gives (hx : x.interface.parameters[0]? = some (Condition.formal h))
    {ps : List ParamDraft} {groups : List (List Parameter)}
    (hparameters : d.parameters = groups.flatten)
    (hgives : List.Forall₂ (n.Gives x) ps groups) (hq : occurrencesOf d 0 = [q]) :
    d.HasCondition q ∧ (d.parameters.head? = some q ↔
      ∃ own, n.FirstLeft ps own ∧ own.name = Condition.parameterName) := by
  obtain ⟨hmem, hformal⟩ := mem_occurrencesOf.1 (hq ▸ List.mem_singleton_self q)
  have honly : ∀ q' ∈ d.parameters, q'.formal = 0 → q' = q := fun q' hq' hformal' =>
    List.mem_singleton.1 (hq ▸ mem_occurrencesOf.2 ⟨hq', hformal'⟩)
  constructor
  · obtain ⟨qs, hqs, hmem'⟩ := List.mem_flatten.1 (hparameters ▸ hmem)
    obtain ⟨i, hi⟩ := List.getElem?_of_mem hqs
    obtain ⟨p, -, hp⟩ := exists_getElem?_of_forall₂ hgives.flip hi
    obtain ⟨hname, hslots⟩ := hp.names hx hmem' hformal
    exact ⟨hq, hname, hslots⟩
  · -- As the only occurrence it comes first as soon as any occurrence does.
    have hhead : d.parameters.head? = some q ↔
        ∃ q', d.parameters.head? = some q' ∧ q'.formal = 0 := by
      refine ⟨fun hhead => ⟨q, hhead, hformal⟩, fun ⟨q', hhead, hformal'⟩ => ?_⟩
      rw [hhead, honly q' (List.mem_of_mem_head? hhead) hformal']
    rw [hhead, hparameters]
    exact exists_head?_flatten_iff (hgives.imp fun p qs hp => ⟨hp.eq_nil_iff, hp.formal_eq_zero hx⟩)

/-- The inputs that the condition of a declaration refers to are given as one. -/
theorem Compilation.exists_condition (k : Compilation n m) (hn : n.Untouched) {boolean : ClassType}
    (hboolean : m.types.parse "Boolean" = .ok boolean) {i : Nat} (hd : m.declaration? i = some d)
    (hfirst : d.specification.interface.parameters[0]? = some (Condition.formal m.types)) :
    ∃ q, occurrencesOf d 0 = [q] ∧ ∀ s ∈ q.slots, ∀ id, s.binding = .reference (.input id) →
      m.GivenAsCondition id := by
  obtain ⟨q, hq, hinputs⟩ := k.exists_only hn hd hfirst rfl
  refine ⟨q, hq, fun s hs id ht => ⟨hinputs _ (mem_inputsReferredTo.2 ⟨s, hs, id, ht, rfl⟩), ?_⟩⟩
  obtain ⟨hmem, hformal⟩ := mem_occurrencesOf.1 (hq ▸ List.mem_singleton_self q)
  obtain ⟨p, hp⟩ := List.getElem?_of_mem hmem
  obtain ⟨a, ha⟩ := List.getElem?_of_mem hs
  obtain ⟨f, x, hf, hx, hassign⟩ := k.assignable_formal hn.toWellLinked hd hp ha
  have hslot : m.slot? ⟨i, p, a⟩ = some s :=
    slot?_eq_some.2 ⟨d, hd, Declaration.slot?_eq_some.2 ⟨q, hp, ha⟩⟩
  obtain ⟨provided, hprovided, haccepts⟩ := k.accepts_reference hslot ht
  obtain ⟨input, hinput, rfl⟩ := Option.map_eq_some_iff.1 hprovided
  rw [hformal, hfirst] at hf
  obtain rfl := Option.some.inj hf
  have htype : x.type = boolean := by
    have hx := List.mem_of_getElem? hx
    simp only [Condition.formal, List.mem_cons, List.not_mem_nil, or_false, hboolean] at hx
    rcases hx with rfl | rfl <;> rfl
  exact ⟨input, boolean, hinput, hboolean,
    (k.wellFormed hn.toWellLinked).assignable_trans (htype ▸ hassign) haccepts⟩

end Network

/-! ## Bundles -/

/-- Later definitions leave those of the built-in types where they are. -/
theorem Hierarchy.prefix_ofDrafts {ds : List TypeDraft} {h : Hierarchy}
    (hok : ofDrafts ds = .ok h) : standard.defs <+: h.defs := by
  unfold ofDrafts at hok
  rw [Method.result_mapM] at hok
  refine (foldlM_invariant (fun _ (h : Hierarchy) => h.Made ∧ standard.defs <+: h.defs)
    (fun d _ h h' ⟨hm, hp⟩ hstep => ?_) ⟨.standard, List.prefix_refl _⟩ hok).2
  obtain ⟨hmade, hgrown⟩ := hm.attempt d
  have hafter : h.attempt d = h' := Method.after_of_result hstep
  exact hafter ▸ ⟨hmade, hp.trans hgrown⟩

/-- There are Booleans whatever other types there are. -/
theorem Hierarchy.exists_boolean {ds : List TypeDraft} {h : Hierarchy} (hok : ofDrafts ds = .ok h) :
    ∃ t, h.parse "Boolean" = .ok t := by
  have hstandard : (standard.parse "Boolean").toOption.isSome = true := by decide +kernel
  obtain ⟨t, ht⟩ := Option.isSome_iff_exists.1 hstandard
  exact ⟨t, Made.standard.wellFormed.parse_of_grown (Made.ofDrafts hok).wellFormed
    (prefix_ofDrafts hok) (toOption_eq_some.1 ht)⟩

namespace Catalog

variable {c : Catalog} {plans : String → Option Plan} {b : BlockDraft} {p : Plan}

/-- A declaration is linked to something that the catalog provides. -/
theorem exists_link_of_linkDeclaration
    (hplans : ∀ name q, plans name = some q → c.Provides q.specification) {d : DeclarationDraft}
    {decl : Declaration} (hok : c.linkDeclaration plans b d = .ok decl) :
    ∃ x location, c.Provides x ∧ d.link c.types x location = .ok decl := by
  cases hkind : d.kind with
  | component name =>
    rw [linkDeclaration_component hkind] at hok
    cases hx : c.get? name with
    | none =>
      rw [hx] at hok
      cases hok
    | some x =>
      rw [hx] at hok
      exact ⟨_, _, .component (List.mem_of_find?_eq_some hx), hok⟩
  | block name =>
    rw [linkDeclaration_block hkind] at hok
    cases hq : plans name with
    | none =>
      rw [hq] at hok
      cases hok
    | some q =>
      rw [hq] at hok
      exact ⟨_, _, hplans name q hq, hok⟩

theorem names_linked (hplans : ∀ name q, plans name = some q → c.Provides q.specification)
    {ds : List Declaration} (hds : b.declarations.mapM (c.linkDeclaration plans b) = .ok ds) :
    ds.map Declaration.name = b.declarations.map DeclarationDraft.name :=
  map_eq_of_forall₂ (forall₂_of_mapM_eq_ok hds) fun _ _ hlink => by
    obtain ⟨x, location, -, hlink⟩ := exists_link_of_linkDeclaration hplans hlink
    exact (DeclarationDraft.names_link hlink).1

/-- Every declaration of a block that is compiled with given plans has one condition. -/
theorem exists_condition_of_compile (hc : c.Registered) {boolean : ClassType}
    (hboolean : c.types.parse "Boolean" = .ok boolean)
    (hplans : ∀ name q, plans name = some q → c.Provides q.specification) (hb : b.Distinct)
    (hok : c.compile plans b = .ok p) {i : Nat} {d : Declaration}
    (hd : p.network.declaration? i = some d) :
    ∃ draft q, b.declarations[i]? = some draft ∧ d.HasCondition q ∧
      (d.parameters.head? = some q ↔ ∃ own, p.network.FirstLeft draft.allParams own ∧
        own.name = Condition.parameterName) ∧ ∀ s ∈ q.slots, ∀ id,
          s.binding = .reference (.input id) → p.network.GivenAsCondition id := by
  rw [compile_eq] at hok
  obtain ⟨ds, hds, hok⟩ := bind_eq_ok.1 hok
  have hsound := (offering_within (c := c) hplans).mono fun _ hx => hx.sound hc
  have hn := (b.ensures_untouched hc hsound () trivial).2 _ (link_eq_ok hds)
  obtain ⟨m, hm, rfl⟩ := map_eq_ok.1 hok
  obtain ⟨k⟩ := Network.exists_compilation hm
  obtain ⟨d₀, hd₀⟩ := k.exists_linked hd
  obtain ⟨draft, hdraft, hlink⟩ :=
    exists_getElem?_of_forall₂ (forall₂_of_mapM_eq_ok hds).flip hd₀
  obtain ⟨x, location, hx, hlink⟩ := exists_link_of_linkDeclaration hplans hlink
  have hnames : (ds.map Declaration.name).Nodup := names_linked hplans hds ▸ hb.declarations
  obtain ⟨d', groups, hd', hspecification, hgroups, hgives⟩ :=
    k.gives hn.toWellLinked hnames (hx.sound hc) hlink hd₀
  obtain rfl := Option.some.inj (hd.symm.trans hd')
  have htypes : m.types = c.types := k.types_linked hn.toWellLinked
  have hfirst := hx.condition hc
  obtain ⟨q, hq, hinputs⟩ := k.exists_condition hn (htypes ▸ hboolean) hd
    (hspecification ▸ htypes ▸ hfirst)
  obtain ⟨hcondition, hhead⟩ := Network.condition_of_gives hfirst hgroups hgives hq
  exact ⟨draft, q, hdraft, hcondition, hhead, hinputs⟩

end Catalog

namespace Library

variable {b : Bundle} {l : Library}

/-- The types of a bundle are the built-in ones and those of its drafts. -/
theorem types_ofBundle (hok : ofBundle b = .ok l) :
    Hierarchy.ofDrafts b.types = .ok l.catalog.types := by
  obtain ⟨catalog, hcatalog, -, hblocks⟩ := ofBundle_eq_ok hok
  obtain ⟨h, hh, rfl⟩ := map_eq_ok.1 hcatalog
  have htypes : ((collect Catalog.register b.components).run ⟨h, []⟩).2.types = h := by
    refine collect_invariant (fun c : Catalog => c.types = h) (fun d _ c hc => ?_) rfl
    refine (Catalog.guarded_register c d).after (P := fun c => c.types = h) hc fun c' hok => ?_
    obtain ⟨-, x, -, rfl⟩ := Catalog.register_eq_ok.1 hok
    exact hc
  have hlibrary := ((holds_ofCatalog ((collect Catalog.register b.components).run ⟨h, []⟩).2
    (fun _ _ => True) fun _ _ => True).collect fun x (_ : x ∈ b.blocks) _ _ => trivial).catalog
  rw [hblocks] at hlibrary
  rw [hlibrary, htypes, hh]

/-- The blocks of a bundle have different names for what they are made of. -/
theorem distinct_ofBundle (hok : ofBundle b = .ok l) : ∀ x ∈ b.blocks, x.Distinct := by
  obtain ⟨catalog, -, -, hrun⟩ := ofBundle_eq_ok hok
  have hblocks := foldlM_of_collect (congrArg Prod.fst hrun)
  refine foldlM_invariant_done (fun done _ => ∀ x ∈ done, x.Distinct)
    (fun done d rest l l' _ hdone hstep => ?_) nofun hblocks
  obtain ⟨-, a, ha, -⟩ := result_addDraft.1 hstep
  exact List.forall_mem_append.2
    ⟨hdone, List.forall_mem_singleton.2 (Assembly.ofDraft_eq_ok ha).2⟩

/-- In every block that a bundle compiles, each declaration has exactly one condition, with a value
and an attribute that inverts it. All inputs it refers to are given once and are Booleans. The
condition is the first parameter just if, of the condition of the draft and the parameters after it,
one that is called `condition` is the first that does not vanish. -/
theorem conditions_exact (hok : ofBundle b = .ok l) {x : BlockDraft} (hx : x ∈ b.blocks)
    {names : List String} {j : Nat} (hj : names[j]? = some x.name) {p : Plan}
    (hp : ((loadAll names).run l).1[j]? = some (.ok p)) {i : Nat} {d : Declaration}
    (hd : p.network.declaration? i = some d) :
    ∃ draft q, x.declarations[i]? = some draft ∧ d.HasCondition q ∧
      (d.parameters.head? = some q ↔ ∃ own, p.network.FirstLeft draft.allParams own ∧
        own.name = Condition.parameterName) ∧ ∀ s ∈ q.slots, ∀ id,
          s.binding = .reference (.input id) → p.network.GivenAsCondition id := by
  have hc := (serving_ofBundle hok).1
  obtain ⟨hl, hnodup, -⟩ := fresh_ofBundle hok
  obtain ⟨r, hr, hloads⟩ := exists_getElem?_of_forall₂
    ((compiles_loads hnodup).loadAll names (hl.loading hnodup)) hj
  obtain rfl := Option.some.inj (hr.symm.trans hp)
  obtain ⟨plans, hplans, hcompile⟩ := (hloads p rfl).exists_plans hnodup hx
  obtain ⟨boolean, hboolean⟩ := Hierarchy.exists_boolean (types_ofBundle hok)
  exact Catalog.exists_condition_of_compile hc hboolean
    (fun name q hq => (hplans name q hq).provides) (distinct_ofBundle hok x hx) hcompile hd

/-! ### Two conditions

A sink that is switched off by an input, and one whose condition names outputs that there are
not. -/

/-- A component with an output and one that takes integers. -/
def flowComponents : List ComponentDraft :=
  [.new "Source" "out" "Integer",
    (ComponentDraft.new "Sink" "out" "Object").addParam
      ((ComponentParamDraft.new "in" 0 none).attr "value" "Integer")]

/-- A use of the sink with a condition. -/
def conditionedSink (condition : String) : DeclarationDraft :=
  ((DeclarationDraft.new "d" (.component "Sink")).withCondition condition).param "in"
    [("value", "@s.out")]

/-- A block that uses the sink. -/
def conditionedBlock (d : DeclarationDraft) : BlockDraft :=
  (((BlockDraft.new "b").param "go" ["on"]).addDeclaration
    (.new "s" (.component "Source"))).addDeclaration d

/-- A bundle with only that block. -/
def conditionedBundle (d : DeclarationDraft) : Bundle :=
  ⟨[], flowComponents, [conditionedBlock d]⟩

/-- The sink runs unless the input says so. -/
def gatedSink : DeclarationDraft :=
  conditionedSink "!@go.on"

/-- The sink with a condition that is left out, and another one. -/
def straySink : DeclarationDraft :=
  (conditionedSink "@s.x*").param "condition" [("value", "true")]

/-- The input of a condition has to be given once. -/
theorem conditions_exact_gated : ∃ l p d q, ofBundle (conditionedBundle gatedSink) = .ok l ∧
    ((loadAll ["b"]).run l).1[0]? = some (.ok p) ∧ p.network.declaration? 1 = some d ∧
      d.HasCondition q ∧ d.parameters.head? = some q ∧ p.network.GivenAsCondition ⟨0, 0⟩ := by
  have hrun : (ofBundle (conditionedBundle gatedSink)).toOption.any (fun l =>
      ((loadAll ["b"]).run l).1[0]?.any fun r => r.toOption.any fun p =>
        (p.network.declaration? 1).any fun d => (Network.occurrencesOf d 0).all fun q =>
          q.slots.any fun s => s.binding == .reference (.input ⟨0, 0⟩)) = true := by
    decide +kernel
  obtain ⟨l, hl, hrun⟩ := (Option.any_eq_true _ _).1 hrun
  obtain ⟨r, hr, hrun⟩ := (Option.any_eq_true _ _).1 hrun
  obtain ⟨p, hp, hrun⟩ := (Option.any_eq_true _ _).1 hrun
  obtain ⟨d, hd, hrun⟩ := (Option.any_eq_true _ _).1 hrun
  have hl := toOption_eq_some.1 hl
  rw [toOption_eq_some.1 hp] at hr
  obtain ⟨draft, q, hdraft, hq, hhead, hgiven⟩ :=
    conditions_exact hl (List.mem_singleton_self (conditionedBlock gatedSink)) rfl hr hd
  obtain rfl : gatedSink = draft := Option.some.inj hdraft
  obtain ⟨s, hs, hbinding⟩ := List.any_eq_true.1
    (List.all_eq_true.1 hrun q (hq.only ▸ List.mem_singleton_self q))
  refine ⟨l, p, d, q, hl, hr, hd, hq, hhead.2 ⟨_, ⟨[], _, rfl, nofun, ?_⟩, rfl⟩,
    hgiven s hs _ (beq_iff_eq.1 hbinding)⟩
  exact Network.not_vanishes_of_noStar (by decide +kernel)

/-- What the condition of the draft refers to are no outputs, and the other condition is the last
parameter. -/
theorem condition_last : ∃ l p d, ofBundle (conditionedBundle straySink) = .ok l ∧
    ((loadAll ["b"]).run l).1[0]? = some (.ok p) ∧ p.network.declaration? 1 = some d ∧
      d.parameters.map Parameter.header = [("in", 1, ["value"]),
        (Condition.parameterName, 0, [Condition.valueName, Condition.invertName])] := by
  have hrun : (ofBundle (conditionedBundle straySink)).toOption.any (fun l =>
      ((loadAll ["b"]).run l).1[0]?.any fun r => r.toOption.any fun p =>
        (p.network.declaration? 1).any fun d => d.parameters.map Parameter.header ==
          [("in", 1, ["value"]),
            (Condition.parameterName, 0, [Condition.valueName, Condition.invertName])]) = true := by
    decide +kernel
  obtain ⟨l, hl, hrun⟩ := (Option.any_eq_true _ _).1 hrun
  obtain ⟨r, hr, hrun⟩ := (Option.any_eq_true _ _).1 hrun
  obtain ⟨p, hp, hrun⟩ := (Option.any_eq_true _ _).1 hrun
  obtain ⟨d, hd, hrun⟩ := (Option.any_eq_true _ _).1 hrun
  rw [toOption_eq_some.1 hp] at hr
  exact ⟨l, p, d, toOption_eq_some.1 hl, hr, hd, beq_iff_eq.1 hrun⟩

end Library

end Blockwork
