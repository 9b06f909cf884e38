import Blockwork.Proofs.BundleReports
import Blockwork.Proofs.FormedTypes
import Blockwork.Proofs.StarBindings

/-!
# Safety of bundles

Whatever a bundle holds, compiling it gives summaries or rejects it and never ends in a breach, as
long as the occurrences of parameters can be counted in words (`Library.compileBundle_safe`). A
library loads the blocks in turn and goes through the states that it `Reaches`. Every block that is still to be compiled in one of them is open, and once it is
linked, completing it is safe and only goes through networks whose positions are in range and whose
types are formed. So are those of the plans that come of it, also where their interfaces and
summaries name outputs by position.
-/

namespace Blockwork

variable {σ : Type} {good : σ → Prop} {c : Catalog}

/-! ## Linked networks -/

/-- Linking leaves the inputs and outputs of the block as they are in the draft. -/
theorem BlockDraft.ensures_linked (r : Resolver σ) (b : BlockDraft) :
    Ensures (fun _ => True) (b.link r) fun n =>
      n.params = b.linkParams ∧ n.outputs = b.linkOutputs :=
  Ensures.trivial.bind fun _ _ => .pure ⟨rfl, rfl⟩

/-- Linking with sound interfaces gives a network of which nothing is inferred yet. -/
theorem BlockDraft.ensures_untouched (hc : c.Registered) {r : Resolver σ}
    (hr : r.Within c good fun x => x.interface.Sound c.types) (b : BlockDraft) :
    Ensures good (b.link r) Network.Untouched := by
  refine ((((b.ensures_link hc hr).and (b.ensures_hasOutputs r)).and (b.ensures_params r)).and
    (b.ensures_linked r)).mono fun n ⟨⟨⟨⟨_, hn⟩, hout⟩, hany⟩, hparams, houtputs⟩ => ?_
  refine ⟨hn, hout, hany, fun id i hi => ?_, fun o ho => ?_⟩
  · unfold Network.input? at hi
    rw [hparams] at hi
    obtain ⟨p, hp, hi⟩ := Option.bind_eq_some_iff.1 hi
    obtain ⟨q, -, rfl⟩ := List.mem_map.1 (List.mem_of_getElem? hp)
    obtain ⟨x, -, rfl⟩ := List.mem_map.1 (List.mem_of_getElem? hi)
    exact ⟨rfl, rfl⟩
  · rw [houtputs] at ho
    obtain ⟨x, -, rfl⟩ := List.mem_map.1 ho
    exact ⟨rfl, rfl⟩

namespace Network

variable {n m : Network}

theorem Untouched.safe_complete (hn : n.Untouched) (hfit : n.CopiesFit) : Safe n.complete :=
  hn.toWellLinked.safe_complete hn.hasOutputs hn.multiplicities hfit

/-- Completing the network is safe, and only goes through networks in range and of formed types. -/
structure CompletesSafely (n : Network) : Prop where
  safe : Safe n.complete
  inRange : ∀ m, n.Passes m → m.InRange
  typesFormed : ∀ m, n.Passes m → m.TypesFormed

theorem Untouched.completesSafely (hn : n.Untouched) (hfit : n.CopiesFit) :
    n.CompletesSafely where
  safe := hn.safe_complete hfit
  inRange _ hm := hn.inRange_passes hm
  typesFormed _ hm := hn.typesFormed_passes hm

end Network

/-! ## Plans -/

/-- The positions in the plan lead to what is there, and its types are formed: in the network, and
in the interface, which has the outputs of the block. -/
structure Plan.InRange (p : Plan) : Prop where
  network : p.network.InRange
  types : p.network.TypesFormed
  outputs : p.interface.outputs.length = p.network.outputs.length
  pipelines : ∀ q ∈ p.interface.parameters, ∀ a ∈ q.attributes, ∀ o ∈ a.pipelineOutputs,
    o < p.network.outputs.length

/-- The plan of a network in range is in range. -/
theorem Network.inRange_plan {n : Network} (hn : n.InRange) (ht : n.TypesFormed) :
    n.plan.InRange where
  network := hn
  types := ht
  outputs := List.length_map _
  pipelines q hq a ha o ho := by
    rcases mem_attributes_interface.1 (List.mem_flatMap.2 ⟨q, hq, ha⟩) with ha | ⟨id, i, hi, rfl⟩
    · rw [Condition.pipelineOutputs_eq_nil ha] at ho
      cases ho
    · exact hn.inputs id i hi o (mem_ascending.1 ho)

theorem BlockDraft.ensures_inRange (hc : c.Registered) {r : Resolver σ}
    (hr : r.Within c good fun x => x.interface.Sound c.types) (b : BlockDraft) :
    Ensures good (b.compile r) Plan.InRange :=
  (ensures_compile (b.ensures_untouched hc hr)).mono fun _ ⟨_, _, hn, hm, hp⟩ =>
    have hpasses := Network.passes_complete hm
    hp ▸ Network.inRange_plan (hn.inRange_passes hpasses) (hn.typesFormed_passes hpasses)

theorem Catalog.Loads.inRange {drafts : List BlockDraft} {name : String} {p : Plan}
    (hc : c.Registered) (h : c.Loads drafts name p) : p.InRange := by
  cases h with
  | @intro b plans _ hb hplans hok =>
    have hr := (offering_within (c := c) fun inner q hq => (hplans inner q hq).provides).mono
      fun _ hx => hx.sound hc
    exact (b.ensures_inRange hc hr () trivial).2 p hok

namespace Library

variable {drafts : List BlockDraft} {F : String → Diagnostic → Prop} {b : Bundle}
  {l m : Library}

/-! ## States of a bundle -/

/-- The library goes through the state while the blocks of the bundle are loaded in turn. -/
def Reaches (b : Bundle) (l m : Library) : Prop :=
  ∃ done name rest, blockNames b = done ++ name :: rest ∧
    Passes ((loadAll done).run l).2.unstarted name ((loadAll done).run l).2 m

theorem Consistent.loadAll (hc : c.Registered) (hnodup : (drafts.map BlockDraft.name).Nodup)
    (hF : c.Blames drafts F) (hfit : CopiesFit drafts) :
    ∀ (names : List String) {l : Library}, Consistent c drafts F l → l.running = [] →
      Consistent c drafts F ((Library.loadAll names).run l).2 ∧
        ((Library.loadAll names).run l).2.running = []
  | [], _, hl, hidle => ⟨hl, hidle⟩
  | name :: names, _, hl, hidle => by
    have hload := leads_load hc hnodup hF hfit hl hidle name
    have hrest := Consistent.loadAll hc hnodup hF hfit names hload.consistent
      (hload.advances.running.trans hidle)
    exact hrest

section Bundle

variable (hfit : CopiesFit b.blocks) (hok : ofBundle b = .ok l)
include hfit hok

/-- All states that are gone through are consistent with the bundle. -/
theorem Reaches.consistent (h : Reaches b l m) :
    Consistent l.catalog b.blocks (fun _ _ => True) m := by
  obtain ⟨done, name, -, -, hpasses⟩ := h
  have hc := (serving_ofBundle hok).1
  obtain ⟨hl, hnodup, hidle⟩ := fresh_ofBundle hok
  have hF := l.catalog.blames_all b.blocks
  obtain ⟨hdone, hdoneIdle⟩ :=
    Consistent.loadAll hc hnodup hF hfit done (hl.mark fun _ _ _ => trivial) hidle
  exact (passed hc hnodup hF hfit hdone (Nat.le_refl _) (by simp [hdoneIdle]) hpasses).consistent

/-- A block that is still to be compiled is open, and is completed safely once it is linked. -/
theorem Reaches.completesSafely (h : Reaches b l m) {name : String} {a : Assembly}
    (ha : m.progress? name = some (.unstarted a)) : a.state = .growing ∧ ∀ bound n,
      ((a.draft.link (m.resolverWithin bound)).run.run (m.start name)).1 = .ok n →
        n.CompletesSafely := by
  have hc := (serving_ofBundle hok).1
  have hnodup := (fresh_ofBundle hok).2.1
  have hm := h.consistent hfit hok
  obtain ⟨hgrowing, hdraft, -⟩ := hm.unstarted name a ha
  refine ⟨hgrowing, fun bound n hn => ?_⟩
  have hserves : (m.resolverWithin bound).Serves l.catalog (Loading l.catalog b.blocks)
      (l.catalog.Loads b.blocks) :=
    serves_of_plans hm.catalog ((compiles_loads hnodup).planWithin bound)
  have hstarted := (hm.start ha).loading hnodup
  have huntouched := a.draft.ensures_untouched hc
    (hserves.within fun _ _ hp => hp.provides.sound hc) _ hstarted
  have hcopies := BlockDraft.ensures_copiesFit hc hfit
    (hserves.within fun _ _ hp => hp.sizedBy) hdraft _ hstarted
  exact (huntouched.2 n hn).completesSafely (hcopies.2 n hn)

/-- Each block comes to a plan in range or is rejected. -/
theorem safe_resultsOf {r : Except Fault Plan} (hr : r ∈ resultsOf b l) :
    Safe r ∧ ∀ p, r = .ok p → p.InRange := by
  have hc := (serving_ofBundle hok).1
  obtain ⟨i, hi⟩ := List.getElem?_of_mem hr
  obtain ⟨x, -, hdecides⟩ := exists_getElem?_of_forall₂ (decides_resultsOf hfit hok).flip hi
  rcases hdecides with ⟨p, rfl, hp⟩ | ⟨d, rfl, -⟩
  · exact ⟨.ok p, fun p' hp' => Except.ok.inj hp' ▸ hp.inRange hc⟩
  · exact ⟨fun _ h => (nomatch h), fun _ h => (nomatch h)⟩

end Bundle

theorem mem_of_mem_faultsOf {seen : List String} {rs : List (Except Fault Plan)} {f : Fault}
    (hf : f ∈ faultsOf seen rs) : .error f ∈ rs := by
  fun_induction faultsOf seen rs with
  | case1 => cases hf
  | case2 seen p rest ih => exact List.mem_cons_of_mem _ (ih hf)
  | case3 seen g rest hseen ih => exact List.mem_cons_of_mem _ (ih hf)
  | case4 seen g rest hseen ih =>
    rcases List.mem_cons.1 hf with rfl | hf
    · exact List.mem_cons_self
    · exact List.mem_cons_of_mem _ (ih hf)

/-- A bundle without a library is rejected for something. -/
theorem ne_nil_of_ofBundle {ds : List Diagnostic} (h : ofBundle b = .error ds) : ds ≠ [] := by
  unfold ofBundle at h
  split at h
  · obtain rfl := Except.error.inj h
    exact List.cons_ne_nil _ _
  · rename_i catalog _
    rcases hcomponents : (collect Catalog.register b.components).run catalog with
      ⟨componentErrors, c⟩
    rcases hblocks : (collect addDraft b.blocks).run (ofCatalog c) with ⟨blockErrors, l⟩
    simp only [hcomponents, hblocks] at h
    split at h
    · cases h
    · rename_i hne
      obtain rfl := Except.error.inj h
      exact hne

/-- Compiling a bundle gives the summaries or rejects it for something. -/
theorem compileBundle_ok_or_rejected (hfit : CopiesFit b.blocks) :
    (∃ ss, compileBundle b = .ok ss) ∨
      ∃ ds, ds ≠ [] ∧ compileBundle b = .error (ds.map .rejected) := by
  rcases hb : ofBundle b with ds | l
  · refine .inr ⟨ds, ne_nil_of_ofBundle hb, ?_⟩
    unfold compileBundle
    rw [hb]
  · by_cases hnil : faultsOf [] (resultsOf b l) = []
    · exact .inl ⟨_, compileBundle_of_eq_nil hb hnil⟩
    · have hrejected : faultsOf [] (resultsOf b l) ∈ Set.range (List.map Fault.rejected) := by
        rw [Set.range_list_map]
        intro f hf
        obtain ⟨d, rfl⟩ := (safe_resultsOf hfit hb (mem_of_mem_faultsOf hf)).1.exists_rejected rfl
        exact ⟨d, rfl⟩
      obtain ⟨ds, hds⟩ := hrejected
      refine .inr ⟨ds, ?_, (compileBundle_of_ne_nil hb hnil).trans (congrArg Except.error hds.symm)⟩
      rintro rfl
      exact hnil hds.symm

/-- Compiling a bundle never ends in a breach, whatever the bundle holds, if the occurrences of
parameters can be counted: it gives the summaries or rejects the bundle. A block that is about to be
compiled is open, completing it once it is linked is safe and only goes through networks in range,
and so is the plan of every block. A star text has a first and a last character with a text
between. -/
theorem compileBundle_safe (b : Bundle) (hfit : CopiesFit b.blocks) :
    ((∃ ss, compileBundle b = .ok ss) ∨
      ∃ ds, ds ≠ [] ∧ compileBundle b = .error (ds.map .rejected)) ∧
    (∀ l, ofBundle b = .ok l →
      (∀ m, Reaches b l m → ∀ name a, m.progress? name = some (.unstarted a) →
        a.state = .growing ∧ ∀ bound n,
          ((a.draft.link (m.resolverWithin bound)).run.run (m.start name)).1 = .ok n →
            n.CompletesSafely) ∧
      ∀ r ∈ resultsOf b l, Safe r ∧ ∀ p, r = .ok p → p.InRange) ∧
    ∀ text, isStarText text = true → ∃ body : String, text = "@" ++ body ++ "*" := by
  refine ⟨compileBundle_ok_or_rejected hfit, fun l hok => ⟨fun m hm name a =>
    hm.completesSafely hfit hok, fun r => safe_resultsOf hfit hok⟩, fun text htext => ?_⟩
  refine ⟨String.ofList (text.toList.drop 1).dropLast, String.toList_inj.1 ?_⟩
  calc text.toList = '@' :: ((text.toList.drop 1).dropLast ++ ['*']) := toList_of_isStarText htext
    _ = _ := by simp [String.toList_append]

/-! ### A nest

An outer block includes an inner one, which comes after it, by a star reference. -/

/-- The inner block copies its input. -/
def nestInner : BlockDraft :=
  (((BlockDraft.new "inner").param "p" ["x"]).addDeclaration
    ((DeclarationDraft.new "c" (.component "Copy")).param "in" [("value", "@p.x")])).output
      "out" "@c.out"

/-- The outer block supplies a number to it. -/
def nestOuter : BlockDraft :=
  (((BlockDraft.new "outer").addDeclaration
    ((DeclarationDraft.new "i" (.block "inner")).param "p" [("x", "@s.o*")])).addDeclaration
      (DeclarationDraft.new "s" (.component "Source"))).output "result" "@i.out"

/-- Both blocks, with what they use. -/
def nest : Bundle where
  types := []
  components := [.new "Source" "out" "Integer",
    (ComponentDraft.new "Copy" "out" "Number").addParam
      ((ComponentParamDraft.new "in" 1 (some 1)).pipelineAttr "value" "Number")]
  blocks := [nestOuter, nestInner]

/-- The inner block linked while the outer one is running. -/
def linkNestInner (l : Library) : Except Fault Network :=
  ((nestInner.link ((l.start "outer").resolverWithin 0)).run.run
    ((l.start "outer").start "inner")).1

/-- The nest is compiled, and the inner block is linked and completed on the way. -/
theorem compileBundle_safe_nest : ∃ l n p, ofBundle nest = .ok l ∧
    (∃ ss, compileBundle nest = .ok ss) ∧ Reaches nest l (l.start "outer") ∧
      linkNestInner l = .ok n ∧ n.CompletesSafely ∧ .ok p ∈ resultsOf nest l ∧ p.InRange ∧
        ∃ body : String, "@s.o*" = "@" ++ body ++ "*" := by
  have hrun : (ofBundle nest).toOption.any (fun l => l.unstarted == 2 &&
      (l.progress? "outer" == some (.unstarted ⟨nestOuter, .growing⟩) &&
        (l.progress? "inner" == some (.unstarted ⟨nestInner, .growing⟩) &&
          ((linkNestInner l).toOption.isSome &&
            (resultsOf nest l).any fun r => r.toOption.isSome)))) = true := by
    decide +kernel
  have hcompile : (compileBundle nest).toOption.isSome = true := by
    decide +kernel
  obtain ⟨ss, hss⟩ := Option.isSome_iff_exists.1 hcompile
  obtain ⟨l, hl, hrun⟩ := (Option.any_eq_true _ _).1 hrun
  simp only [Bool.and_eq_true, beq_iff_eq] at hrun
  obtain ⟨hbound, houter, hinner, hlink, hresults⟩ := hrun
  obtain ⟨n, hn⟩ := Option.isSome_iff_exists.1 hlink
  obtain ⟨r, hr, hr'⟩ := List.any_eq_true.1 hresults
  obtain ⟨p, hp⟩ := Option.isSome_iff_exists.1 hr'
  obtain rfl := toOption_eq_some.1 hp
  have hok := toOption_eq_some.1 hl
  have hn := toOption_eq_some.1 hn
  have hreaches : Reaches nest l (l.start "outer") := by
    refine ⟨[], "outer", ["inner"], by decide +kernel, ?_⟩
    show Passes l.unstarted "outer" l (l.start "outer")
    rw [hbound]
    exact .inner houter (List.nil_append nestOuter.declarations).symm rfl rfl .asked
  have hstill : (l.start "outer").progress? "inner" =
      some (.unstarted ⟨nestInner, .growing⟩) := by
    rw [progress?_start houter, if_neg (by decide), hinner]
  obtain ⟨-, hstates, hstar⟩ := compileBundle_safe nest (by decide +kernel)
  obtain ⟨hreached, hsafe⟩ := hstates l hok
  exact ⟨l, n, p, hok, ⟨ss, toOption_eq_some.1 hss⟩, hreaches, hn,
    (hreached _ hreaches _ _ hstill).2 0 n hn, hr, (hsafe _ hr).2 p rfl,
    hstar "@s.o*" (by decide +kernel)⟩

end Library

end Blockwork
