import Blockwork.Library
import Blockwork.Proofs.PlanInterface

/-!
# What declarations can use

A catalog provides its components, and the blocks that were compiled with a resolver that
provides such components and blocks in turn (`Catalog.Provides`). All of them have sound
interfaces (`Catalog.Provides.sound`), so linking a block with such a resolver gives a network
of fresh declarations. The resolver of a catalog alone and that of a library are such resolvers
(`Library.resolver_within`).

What is known of the blocks that a library still has to compile and of the plans it has is kept by
asking for plans, if it is by compiling a block (`Library.Compiles.planWithin`).
-/

namespace Blockwork

variable {σ : Type} {good : σ → Prop} {c : Catalog}

/-! ## Resolvers of a catalog -/

/-- In good states the resolver knows the types and components of the catalog and serves blocks
as `P` says. -/
structure Resolver.Within (r : Resolver σ) (c : Catalog) (good : σ → Prop)
    (P : Specification → Prop) : Prop where
  types : r.types = c.types
  component : ∀ name x, r.component? name = some x → x ∈ c.components
  block : ∀ name, Ensures good (r.block? name) fun o => ∀ x, o = some x → P x

theorem Resolver.Within.mono {r : Resolver σ} {P Q : Specification → Prop}
    (hr : r.Within c good P) (hPQ : ∀ x, P x → Q x) : r.Within c good Q :=
  ⟨hr.types, hr.component, fun name => (hr.block name).mono fun _ ho x hx => hPQ x (ho x hx)⟩

/-- In good states the resolver knows the types and components of the catalog and has plans of blocks
as `P` says. -/
structure Resolver.Serves (r : Resolver σ) (c : Catalog) (good : σ → Prop)
    (P : String → Plan → Prop) : Prop where
  types : r.types = c.types
  component : r.component? = c.get?
  block : ∀ name, Ensures good (r.block? name) fun o => ∀ x, o = some x →
    ∃ p, P name p ∧ p.specification = x

theorem Resolver.Serves.within {r : Resolver σ} {P : String → Plan → Prop}
    (hr : r.Serves c good P) {Q : Specification → Prop}
    (hPQ : ∀ name p, P name p → Q p.specification) : r.Within c good Q :=
  ⟨hr.types, fun _ _ hx => List.mem_of_find?_eq_some (hr.component ▸ hx),
    fun name => (hr.block name).mono fun _ ho x hx =>
      let ⟨p, hp, hspecification⟩ := ho x hx
      hspecification ▸ hPQ name p hp⟩

/-- What a catalog provides: its components, and blocks that only use what it provides. -/
inductive Catalog.Provides (c : Catalog) : Specification → Prop
  | component {x : Component} (hx : x ∈ c.components) : Provides c ⟨x.name, false, x.interface⟩
  | block {σ : Type} {good : σ → Prop} {r : Resolver σ} (htypes : r.types = c.types)
    (hcomponent : ∀ name x, r.component? name = some x → x ∈ c.components)
    (hkeeps : ∀ name s, good s → good ((r.block? name).run.run s).2)
    (hserves : ∀ name s x, good s → ((r.block? name).run.run s).1 = .ok (some x) →
      Provides c x)
    {b : BlockDraft} {s : σ} {p : Plan} (hs : good s)
    (hok : ((b.compile r).run.run s).1 = .ok p) : Provides c p.specification

/-! ## Linking with sound interfaces -/

section Linking

variable {r : Resolver σ}

/-- What a declaration uses is a component the resolver knows or a block it serves. -/
theorem DeclarationDraft.ensures_serves {P : Specification → Prop}
    (hcomponent : ∀ name x, r.component? name = some x → P ⟨x.name, false, x.interface⟩)
    (hblock : ∀ name, Ensures good (r.block? name) fun o => ∀ x, o = some x → P x)
    (d : DeclarationDraft) (location : Location) : Ensures good (d.resolve r location) P := by
  unfold resolve
  split
  · split
    · rename_i x hx
      exact .pure (hcomponent _ x hx)
    · exact .lift fun _ hok => nomatch hok
  · refine (hblock _).bind fun o ho => ?_
    split
    · rename_i x
      exact .pure (ho x rfl)
    · exact .lift fun _ hok => nomatch hok

/-- Linking keeps what asking for blocks keeps. -/
theorem BlockDraft.ensures_good (hr : ∀ name, Ensures good (r.block? name) fun _ => True)
    (b : BlockDraft) : Ensures good (b.link r) fun _ => True := by
  refine (Ensures.mapM (Q := fun _ => True) (fun d => ?_) b.declarations).bind fun _ _ =>
    .pure trivial
  exact (d.ensures_serves (P := fun _ => True) (fun _ _ _ => trivial)
    (fun name => (hr name).mono fun _ _ _ _ => trivial) _).bind fun _ _ => .lift fun _ _ => trivial

/-- Linking a block gives fresh declarations. -/
theorem BlockDraft.ensures_link (hc : c.Registered)
    (hr : r.Within c good fun x => x.interface.Sound c.types) (b : BlockDraft) :
    Ensures good (b.link r) fun n => n.types = c.types ∧ n.WellLinked := by
  obtain ⟨hw, hk⟩ := hc.types
  refine (Ensures.mapM (Q := fun d => d.Fresh c.types ∧ d.Given) (fun d => ?_)
    b.declarations).bind fun ds hds => .pure ⟨hr.types, ?_⟩
  · refine (d.ensures_serves (fun _ x hx => hc.sound x (hr.component _ x hx)) hr.block _).bind
      fun x hx => .lift fun decl hdecl => ?_
    rw [hr.types] at hdecl
    exact ⟨DeclarationDraft.fresh_link hw hk hx hdecl, DeclarationDraft.given_link hdecl⟩
  · rw [← hr.types] at hw hk hds
    exact ⟨hw, hk, fun i d hd => (hds d (List.mem_of_getElem? hd)).1, fun d hd => (hds d hd).2,
      rfl⟩

/-- A plan compiled with a resolver of the catalog comes from a network of fresh declarations. -/
theorem BlockDraft.ensures_compilation (hc : c.Registered)
    (hr : r.Within c good fun x => x.interface.Sound c.types) (b : BlockDraft) :
    Ensures good (b.compile r) fun p => ∃ n m : Network, (n.types = c.types ∧ n.WellLinked) ∧
      Nonempty (n.Compilation m) ∧ m.plan = p :=
  (ensures_compile (b.ensures_link hc hr)).mono fun _ ⟨n, m, hn, hm, hp⟩ =>
    ⟨n, m, hn, Network.exists_compilation hm, hp⟩

end Linking

/-- All that a catalog provides has a sound interface. -/
theorem Catalog.Provides.sound (hc : c.Registered) {x : Specification} (hx : c.Provides x) :
    x.interface.Sound c.types := by
  induction hx with
  | component hx => exact hc.sound _ hx
  | block htypes hcomponent hkeeps _ hs hok ih =>
    have hr : Resolver.Within _ c _ fun x => x.interface.Sound c.types :=
      ⟨htypes, hcomponent, fun name s hs =>
        ⟨hkeeps name s hs, fun o ho x hx => ih name s x hs (hx ▸ ho)⟩⟩
    obtain ⟨n, m, ⟨htypes, hn⟩, ⟨k⟩, rfl⟩ :=
      (BlockDraft.ensures_compilation hc hr _ _ hs).2 _ hok
    rw [← htypes, ← k.types_linked hn]
    exact k.sound_interface hn

/-- What is compiled with a resolver of the catalog is provided by it. -/
theorem BlockDraft.ensures_provides {r : Resolver σ} (hc : c.Registered)
    (hr : r.Within c good c.Provides) (b : BlockDraft) :
    Ensures good (b.compile r) fun p => c.Provides p.specification :=
  fun s hs => ⟨(b.ensures_compilation hc (hr.mono fun _ hx => hx.sound hc) s hs).1, fun _ hok =>
    .block hr.types hr.component (fun name s hs => (hr.block name s hs).1)
      (fun name s x hs hok => (hr.block name s hs).2 _ hok x rfl) hs hok⟩

/-! ## The resolvers there are -/

theorem Catalog.resolver_within (c : Catalog) (P : Specification → Prop) :
    c.resolver.Within c (fun _ => True) P :=
  ⟨rfl, fun _ _ hx => List.mem_of_find?_eq_some hx, fun _ => .pure fun _ hx => nomatch hx⟩

/-- An assembly keeps states good as its draft does, and has the same plan. -/
theorem Assembly.ensures_compile {r : Resolver σ} {a : Assembly} {P : Plan → Prop}
    (h : Ensures good (a.draft.compile r) P) :
    Ensures good (liftM (a.compile r)) fun x => ∀ p, x.1 = .ok p → P p := by
  refine .liftState fun s hs => ⟨?_, fun p hp => (h s hs).2 p (compile_eq_ok hp)⟩
  unfold compile
  split
  · exact (h s hs).1
  · exact hs

/-! ## What a library holds -/

namespace Library

/-- The library has the catalog, and its blocks still to be compiled are as `U` says, and its plans
as `P` says, each with the name of the block. -/
structure Holds (c : Catalog) (U : String → Assembly → Prop) (P : String → Plan → Prop)
    (l : Library) : Prop where
  catalog : l.catalog = c
  unstarted : ∀ e ∈ l.entries, ∀ a, e.progress = .unstarted a → U e.name a
  ready : ∀ e ∈ l.entries, ∀ p, e.progress = .ready p → P e.name p

variable {U : String → Assembly → Prop} {P : String → Plan → Prop} {l l' : Library}

theorem of_find?_eq_some {e : Entry} {name : String} (h : l.find? name = some e) :
    e ∈ l.entries ∧ e.name = name :=
  ⟨List.mem_of_find?_eq_some h, by simpa using List.find?_some h⟩

theorem progressOf_eq_some {result : Except Fault Plan} {x : Progress} :
    progressOf result = some x ↔ (∃ p, result = .ok p ∧ x = .ready p) ∨
      ∃ d, result = .error (.rejected d) ∧ x = .failed d := by
  rcases result with (d | b) | p <;> simp [progressOf, eq_comm]

namespace Holds

theorem unstarted_of_progress? (hl : l.Holds c U P) {name : String} {a : Assembly}
    (h : l.progress? name = some (.unstarted a)) : U name a := by
  obtain ⟨e, he, ha⟩ := Option.map_eq_some_iff.1 h
  obtain ⟨hmem, rfl⟩ := of_find?_eq_some he
  exact hl.unstarted e hmem a ha

theorem ready_of_progress? (hl : l.Holds c U P) {name : String} {p : Plan}
    (h : l.progress? name = some (.ready p)) : P name p := by
  obtain ⟨e, he, hp⟩ := Option.map_eq_some_iff.1 h
  obtain ⟨hmem, rfl⟩ := of_find?_eq_some he
  exact hl.ready e hmem p hp

theorem mono (hl : l.Holds c U P) {U' : String → Assembly → Prop} {P' : String → Plan → Prop}
    (hU : ∀ name a, U name a → U' name a) (hP : ∀ name p, P name p → P' name p) :
    l.Holds c U' P' :=
  ⟨hl.catalog, fun e he a ha => hU e.name a (hl.unstarted e he a ha),
    fun e he p hp => hP e.name p (hl.ready e he p hp)⟩

theorem setProgress (hl : l.Holds c U P) (name : String) {x : Progress}
    (hx : ∀ a, x ≠ .unstarted a) (hready : ∀ p, x = .ready p → P name p) :
    (l.setProgress name x).Holds c U P := by
  refine ⟨hl.catalog, fun e he a ha => ?_, fun e he p hp => ?_⟩ <;>
    obtain ⟨e', he', rfl⟩ := List.mem_map.1 he
  · split at ha
    · exact absurd ha (hx a)
    · rw [if_neg ‹_›]
      exact hl.unstarted e' he' a ha
  · split at hp
    · rename_i heq
      rw [if_pos heq]
      exact heq ▸ hready p hp
    · rw [if_neg ‹_›]
      exact hl.ready e' he' p hp

theorem start (hl : l.Holds c U P) (name : String) : (l.start name).Holds c U P := by
  have hrunning := hl.setProgress name (x := .running) (fun _ => nofun) fun _ hp => nomatch hp
  exact ⟨hrunning.catalog, hrunning.unstarted, hrunning.ready⟩

/-- What comes of a block is kept. -/
theorem finish (hl : l.Holds c U P) (name : String) {result : Except Fault Plan}
    (hresult : ∀ p, result = .ok p → P name p) : (l.finish name result).Holds c U P := by
  have hstopped : Holds c U P { l with running := l.running.dropLast } :=
    ⟨hl.catalog, hl.unstarted, hl.ready⟩
  unfold Library.finish
  split
  · rename_i x hx
    rcases progressOf_eq_some.1 hx with ⟨p, rfl, rfl⟩ | ⟨d, rfl, rfl⟩
    · exact hstopped.setProgress name (fun _ => nofun) fun p' hp' =>
        Progress.ready.inj hp' ▸ hresult p rfl
    · exact hstopped.setProgress name (fun _ => nofun) fun _ hp => nomatch hp
  · exact hstopped

end Holds

/-- The resolver of a library of the catalog, if the plans it asks for are as `P` says. -/
theorem serves_of_plans {good : Library → Prop} (hl : l.catalog = c)
    {plan? : String → Resolving Library (Option Plan)}
    (hplan : ∀ name, Ensures good (plan? name) fun o => ∀ p, o = some p → P name p) :
    Resolver.Serves
      { types := l.catalog.types
        component? := l.catalog.get?
        block? := fun name => do
          let p ← plan? name
          return p.map Plan.specification }
      c good P := by
  subst hl
  refine ⟨rfl, rfl, fun name => (hplan name).bind fun o ho => .pure fun x hx => ?_⟩
  obtain ⟨p, hp, rfl⟩ := Option.map_eq_some_iff.1 hx
  exact ⟨p, ho p hp, rfl⟩

/-- What is kept by starting a block that is still to be compiled, by compiling it and by its coming
to a result is kept by asking for plans, also where this ends in a breach. -/
theorem ensures_planWithin {good : Library → Prop}
    (hready : ∀ l name p, good l → l.progress? name = some (.ready p) → P name p)
    (hblock : ∀ l name a, good l → l.progress? name = some (.unstarted a) → good (l.start name) ∧
      (∀ r : Resolver Library, r.Serves l.catalog good P →
        Ensures good (a.draft.compile r) (P name)) ∧
      ∀ m result, good m → (∀ p, result = .ok p → P name p) → good (m.finish name result))
    (bound : Nat) (name : String) :
    Ensures good (planWithin bound name) fun o => ∀ p, o = some p → P name p := by
  induction bound using Nat.strong_induction_on generalizing name with
  | _ bound ih =>
    unfold planWithin
    refine Ensures.get.bind fun l hl => ?_
    split
    · exact .pure fun _ hp => nomatch hp
    · rename_i p hp
      exact .pure fun p' hp' => Option.some.inj hp' ▸ hready l name p hl hp
    · exact .error
    · exact .error
    · rename_i a ha
      split
      · exact .error
      · rename_i bound
        obtain ⟨hstarted, hcompile, hfinish⟩ := hblock l name a hl ha
        have hserves := serves_of_plans (l := l) rfl (ih bound (Nat.lt_succ_self bound))
        refine (Ensures.set hstarted).bind fun _ _ => ?_
        refine (Assembly.ensures_compile (hcompile _ hserves)).bind fun x hx => ?_
        refine (Ensures.modify fun m hm => hfinish m x.1 hm hx).bind fun _ _ => ?_
        exact (Ensures.lift hx).bind fun p hp => .pure fun p' hp' => Option.some.inj hp' ▸ hp

/-- Compiling a block that is as `U` says, with plans that are as `P` says, gives a plan that is as
`P` says. -/
def Compiles (c : Catalog) (U : String → Assembly → Prop) (P : String → Plan → Prop) : Prop :=
  ∀ (r : Resolver Library) (name : String) (a : Assembly), r.Serves c (Holds c U P) P → U name a →
    Ensures (Holds c U P) (a.draft.compile r) (P name)

/-- Then all plans that are asked for are as `P` says. -/
theorem Compiles.planWithin (h : Compiles c U P) (bound : Nat) (name : String) :
    Ensures (Holds c U P) (planWithin bound name) fun o => ∀ p, o = some p → P name p := by
  refine ensures_planWithin (fun _ _ _ hl => hl.ready_of_progress?) (fun l name a hl ha => ?_) bound
    name
  refine ⟨hl.start name, fun r hr => ?_, fun m result hm hresult => hm.finish name hresult⟩
  rw [hl.catalog] at hr
  exact h r name a hr (hl.unstarted_of_progress? ha)

/-- The resolver of a library with the catalog. -/
theorem Compiles.resolver (h : Compiles c U P) (hl : l.catalog = c) :
    l.resolver.Serves c (Holds c U P) P :=
  serves_of_plans hl fun name => Ensures.get.bind fun l _ => h.planWithin l.unstarted name

/-- So is the plan of a block that is loaded. -/
theorem Compiles.load (h : Compiles c U P) (name : String) :
    Ensures (Holds c U P) (load name) (P name) := by
  have hplan : Ensures (Holds c U P) (plan? name) fun o => ∀ p, o = some p → P name p :=
    Ensures.get.bind fun l _ => h.planWithin l.unstarted name
  refine hplan.bind fun o ho => ?_
  split
  · exact .pure (ho _ rfl)
  · exact .error

/-- So are the plans of blocks that are loaded in turn. -/
theorem Compiles.loadAll (h : Compiles c U P) : ∀ (names : List String) {l : Library},
    l.Holds c U P →
      List.Forall₂ (fun name r => ∀ p, r = .ok p → P name p) names ((loadAll names).run l).1
  | [], _, _ => .nil
  | name :: names, l, hl =>
    have ⟨hm, hp⟩ := h.load name l hl
    .cons hp (Compiles.loadAll h names hm)

/-! ## Drafts that are added -/

/-- A draft is added if its name is new and its parts are accepted. -/
theorem result_addDraft {b : BlockDraft} : (addDraft b).result l = .ok l' ↔
    l.find? b.name = none ∧ ∃ a, Assembly.ofDraft b = .ok a ∧
      l' = { l with entries := l.entries ++ [⟨b.name, b.location, .unstarted a⟩] } := by
  have hresult : (addDraft b).result l =
      if (l.find? b.name).isSome then .error ((Cause.blockTwice b.name).report b.location)
      else do
        let a ← Assembly.ofDraft b
        return { l with entries := l.entries ++ [⟨b.name, b.location, .unstarted a⟩] } := by
    unfold addDraft
    rw [Method.result_get_bind, Method.result_ite, Method.result_throw_bind,
      Method.result_lift_bind]
    rfl
  rw [hresult, ite_error_eq_ok, bind_eq_ok, Option.not_isSome_iff_eq_none]
  refine and_congr_right fun _ => exists_congr fun a => and_congr_right fun _ => ?_
  rw [pure_eq_ok, eq_comm]

/-- A draft that is not added leaves the library as it was. -/
theorem guarded_addDraft (b : BlockDraft) : (addDraft b).Guarded l :=
  .get_bind (.ite (fun _ => .throw_bind _ _) fun _ => .lift_bind fun _ _ => .modifyGet _)

theorem Holds.addDraft (hl : l.Holds c U P) {b : BlockDraft}
    (hb : ∀ a, Assembly.ofDraft b = .ok a → U b.name a) (hok : (addDraft b).result l = .ok l') :
    l'.Holds c U P := by
  obtain ⟨-, a, ha, rfl⟩ := result_addDraft.1 hok
  refine ⟨hl.catalog, fun e he a' ha' => ?_, fun e he p hp => ?_⟩ <;>
    rcases List.mem_append.1 he with he | he
  · exact hl.unstarted e he a' ha'
  · rw [List.mem_singleton.1 he] at ha' ⊢
    exact Progress.unstarted.inj ha' ▸ hb a ha
  · exact hl.ready e he p hp
  · rw [List.mem_singleton.1 he] at hp
    cases hp

theorem holds_ofCatalog (c : Catalog) (U : String → Assembly → Prop) (P : String → Plan → Prop) :
    (ofCatalog c).Holds c U P :=
  ⟨rfl, fun _ he => (nomatch he), fun _ he => (nomatch he)⟩

/-! ## Calls of a method in turn -/

section Collecting

variable {τ α β : Type} {call : α → Method τ Diagnostic β}

/-- What each call keeps holds after all of them. -/
theorem collect_invariant (I : τ → Prop) {as : List α} {t : τ}
    (hcall : ∀ a ∈ as, ∀ t, I t → I ((call a).after t)) (ht : I t) :
    I ((collect call as).run t).2 := by
  induction as generalizing t with
  | nil => exact ht
  | cons a as ih =>
    exact ih (fun x hx => hcall x (List.mem_cons_of_mem a hx)) (hcall a List.mem_cons_self t ht)

/-- Where nothing is reported, all calls succeeded. -/
theorem foldlM_of_collect {as : List α} {t : τ} (h : ((collect call as).run t).1 = []) :
    as.foldlM (fun t a => (call a).result t) t = .ok ((collect call as).run t).2 := by
  induction as generalizing t with
  | nil => rfl
  | cons a as ih =>
    rcases hrun : (call a).run.run t with ⟨d | b, t'⟩
    · rw [collect, StateT.run_bind, hrun] at h
      cases h
    · have hcollect : (collect call (a :: as)).run t = (collect call as).run t' := by
        rw [collect, StateT.run_bind, hrun]
        rfl
      have hok : (call a).result t = .ok t' :=
        Method.result_eq_ok.2 ⟨⟨b, congrArg Prod.fst hrun⟩, congrArg Prod.snd hrun⟩
      rw [hcollect] at h ⊢
      rw [List.foldlM_cons, hok]
      exact ih h

end Collecting

theorem registered_collect (hc : c.Registered) (ds : List ComponentDraft) :
    ((collect Catalog.register ds).run c).2.Registered :=
  collect_invariant Catalog.Registered (fun d _ c hc =>
    (Catalog.guarded_register c d).after hc fun _ hok => hc.register hok) hc

theorem Holds.collect (hl : l.Holds c U P) {bs : List BlockDraft}
    (hbs : ∀ b ∈ bs, ∀ a, Assembly.ofDraft b = .ok a → U b.name a) :
    ((Library.collect Library.addDraft bs).run l).2.Holds c U P :=
  collect_invariant (Holds c U P) (fun b hb _ hl =>
    (guarded_addDraft b).after hl fun _ hok => hl.addDraft (hbs b hb) hok) hl

/-- The library of a bundle has all its components and blocks, and none of them is reported. -/
theorem ofBundle_eq_ok {b : Bundle} (hok : ofBundle b = .ok l) :
    ∃ catalog, Catalog.ofTypeDrafts b.types = .ok catalog ∧
      ((collect Catalog.register b.components).run catalog).1 = [] ∧
        (collect addDraft b.blocks).run
          (ofCatalog ((collect Catalog.register b.components).run catalog).2) = ([], l) := by
  unfold ofBundle at hok
  split at hok
  · cases hok
  · rename_i catalog hcatalog
    refine ⟨catalog, hcatalog, ?_⟩
    rcases hcomponents : (collect Catalog.register b.components).run catalog with
      ⟨componentErrors, c⟩
    rcases hblocks : (collect addDraft b.blocks).run (ofCatalog c) with ⟨blockErrors, l'⟩
    simp only [hcomponents, hblocks] at hok
    split at hok
    · rename_i hreports
      obtain ⟨rfl, rfl⟩ := List.append_eq_nil_iff.1 hreports
      exact ⟨rfl, congrArg _ (Except.ok.inj hok)⟩
    · cases hok

/-- Such a library has a catalog of registered components, and its blocks are still to be
compiled. -/
theorem holds_ofBundle {b : Bundle} (hok : ofBundle b = .ok l)
    (hb : ∀ x ∈ b.blocks, ∀ a, Assembly.ofDraft x = .ok a → U x.name a) :
    l.catalog.Registered ∧ l.Holds l.catalog U P := by
  obtain ⟨catalog, hcatalog, -, hblocks⟩ := ofBundle_eq_ok hok
  have hl := (holds_ofCatalog ((collect Catalog.register b.components).run catalog).2 U P).collect hb
  rw [hblocks] at hl
  rw [hl.catalog]
  exact ⟨registered_collect (.ofTypeDrafts hcatalog) b.components, hl⟩

/-! ## What libraries serve -/

/-- The library has the catalog, and its plans are provided by it. -/
abbrev Serving (c : Catalog) (l : Library) : Prop :=
  l.Holds c (fun _ _ => True) fun _ p => c.Provides p.specification

theorem compiles_provides (hc : c.Registered) :
    Compiles c (fun _ _ => True) fun _ p => c.Provides p.specification :=
  fun _ _ a hr _ => a.draft.ensures_provides hc (hr.within fun _ _ => id)

/-- The resolver of a library with the catalog. -/
theorem resolver_within (hc : c.Registered) (hl : l.catalog = c) :
    l.resolver.Within c (Serving c) c.Provides :=
  ((compiles_provides hc).resolver hl).within fun _ _ => id

/-- The library of a bundle has a catalog of registered components and serves what it
provides. -/
theorem serving_ofBundle {b : Bundle} (hok : ofBundle b = .ok l) :
    l.catalog.Registered ∧ l.Serving l.catalog :=
  holds_ofBundle hok fun _ _ _ _ => trivial

end Library

end Blockwork
