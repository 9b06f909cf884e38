import Blockwork.Proofs.CountedDrafts
import Blockwork.Proofs.Safety
import Mathlib.Data.List.Nodup
import Mathlib.Logic.Relation

/-!
# Loads

Whether a block loads, and with which plan, is fixed by the drafts there are: it does if it
compiles with the plans of the blocks it includes, which load in turn (`Catalog.Loads`). No state
and no order is involved. There is at most one plan (`Catalog.Loads.unique`), it is provided by the
catalog (`Catalog.Loads.provides`), and a block that loads does not include itself through others
(`Catalog.Loads.acyclic`).
-/

namespace Blockwork

open Relation

/-! ## Inclusion -/

/-- The block that is included, if the declaration is a use of one. -/
def DeclarationDraft.included? (d : DeclarationDraft) : Option String :=
  match d.kind with
  | .component _ => none
  | .block name => some name

theorem DeclarationDraft.included?_eq_some {d : DeclarationDraft} {inner : String} :
    d.included? = some inner ↔ d.kind = .block inner := by
  unfold included?
  split <;> simp [*]

/-- The names of the blocks that a block includes. -/
def BlockDraft.includes (b : BlockDraft) : List String :=
  b.declarations.filterMap DeclarationDraft.included?

/-- One of the drafts is of the outer name and includes the inner one. -/
def Includes (drafts : List BlockDraft) (outer inner : String) : Prop :=
  ∃ b ∈ drafts, b.name = outer ∧ inner ∈ b.includes

theorem DeclarationDraft.mem_includes {b : BlockDraft} {d : DeclarationDraft} {inner : String}
    (hd : d ∈ b.declarations) (h : d.included? = some inner) : inner ∈ b.includes :=
  List.mem_filterMap.2 ⟨d, hd, h⟩

/-! ## Compiling apart from asking -/

namespace BlockDraft

variable {σ : Type}

/-- The network of a block whose declarations are linked. -/
def linked (b : BlockDraft) (types : Hierarchy) (declarations : List Declaration) : Network where
  name := b.name
  location := b.location
  doc := b.doc
  types
  declarations
  order := List.range declarations.length
  params := b.linkParams
  outputs := b.linkOutputs

/-- The plan of a block whose declarations are linked. -/
def planOf (b : BlockDraft) (types : Hierarchy) (declarations : List Declaration) :
    Except Fault Plan :=
  (b.linked types declarations).complete.map Network.plan

theorem run_link (r : Resolver σ) (b : BlockDraft) (s : σ) :
    (b.link r).run.run s =
      (((b.declarations.mapM (b.linkDeclaration r)).run.run s).1 >>= fun ds =>
        .ok (b.linked r.types ds), ((b.declarations.mapM (b.linkDeclaration r)).run.run s).2) := by
  unfold link
  simp only [ExceptT.run_bind, StateT.run_bind]
  rcases (b.declarations.mapM (b.linkDeclaration r)).run.run s with ⟨e | ds, t⟩ <;> rfl

/-- Only linking the declarations asks for blocks. -/
theorem compile_eq (r : Resolver σ) (b : BlockDraft) : b.compile r =
    b.declarations.mapM (b.linkDeclaration r) >>= fun ds => liftM (b.planOf r.types ds) := by
  unfold compile link
  simp only [bind_assoc, pure_bind]
  refine congrArg _ (funext fun ds => ?_)
  show (liftM (b.linked r.types ds).complete >>= fun m => pure m.plan) = _
  unfold planOf
  cases (b.linked r.types ds).complete <;> rfl

/-- The declaration linked to what was found for it, if anything was. -/
def linkTo (b : BlockDraft) (types : Hierarchy) (d : DeclarationDraft) (missing : Cause) :
    Option Specification → Except Fault Declaration
  | none => reject missing (b.location.atLine d.line)
  | some x => d.link types x (b.location.atLine d.line)

variable {r : Resolver σ} {b : BlockDraft} {d : DeclarationDraft} {name : String}

theorem linkDeclaration_component (hkind : d.kind = .component name) : b.linkDeclaration r d =
    liftM (b.linkTo r.types d (.unknownComponent d.name name)
      ((r.component? name).map fun x => ⟨x.name, false, x.interface⟩)) := by
  unfold linkDeclaration DeclarationDraft.resolve
  simp only [hkind]
  cases r.component? name <;> rfl

theorem linkDeclaration_block (hkind : d.kind = .block name) : b.linkDeclaration r d =
    r.block? name >>= fun o =>
      liftM (b.linkTo r.types d (.unknownIncludedBlock d.name name) o) := by
  unfold linkDeclaration DeclarationDraft.resolve
  simp only [hkind, bind_assoc]
  refine congrArg _ (funext fun o => ?_)
  cases o <;> rfl

end BlockDraft

/-! ## Compiling with given plans -/

theorem run_mapM_unit {α β : Type} (f : α → Resolving Unit β) (l : List α) :
    ((l.mapM f).run.run ()).1 = l.mapM fun a => ((f a).run.run ()).1 := by
  induction l with
  | nil => rfl
  | cons a l ih =>
    rw [List.mapM_cons, List.mapM_cons, ← ih]
    simp only [ExceptT.run_bind, StateT.run_bind]
    rcases (f a).run.run () with ⟨e | b, -⟩
    · rfl
    · show ((l.mapM f >>= fun bs => pure (b :: bs) : Resolving Unit (List β)).run.run ()).1 = _
      simp only [ExceptT.run_bind, StateT.run_bind]
      rcases (l.mapM f).run.run () with ⟨e | bs, -⟩ <;> rfl

namespace Catalog

variable {c : Catalog} {drafts : List BlockDraft} {plans plans' : String → Option Plan}
  {b : BlockDraft} {name : String} {p : Plan}

/-- A resolver that has the plans of the blocks already. -/
def offering (c : Catalog) (plans : String → Option Plan) : Resolver Unit where
  types := c.types
  component? := c.get?
  block? name := pure ((plans name).map Plan.specification)

/-- A declaration linked with given plans of the blocks. -/
def linkDeclaration (c : Catalog) (plans : String → Option Plan) (b : BlockDraft)
    (d : DeclarationDraft) : Except Fault Declaration :=
  ((b.linkDeclaration (c.offering plans) d).run.run ()).1

/-- A block compiled with given plans of the blocks. -/
def compile (c : Catalog) (plans : String → Option Plan) (b : BlockDraft) : Except Fault Plan :=
  ((b.compile (c.offering plans)).run.run ()).1

theorem compile_eq (c : Catalog) (plans : String → Option Plan) (b : BlockDraft) :
    c.compile plans b = b.declarations.mapM (c.linkDeclaration plans b) >>= b.planOf c.types := by
  have hlink : ((b.declarations.mapM (b.linkDeclaration (c.offering plans))).run.run ()).1 =
      b.declarations.mapM (c.linkDeclaration plans b) := run_mapM_unit ..
  unfold compile
  rw [BlockDraft.compile_eq, ExceptT.run_bind, StateT.run_bind, ← hlink]
  rcases (b.declarations.mapM (b.linkDeclaration (c.offering plans))).run.run () with ⟨e | ds, -⟩
  · rfl
  · rfl

theorem linkDeclaration_component {d : DeclarationDraft} (hkind : d.kind = .component name) :
    c.linkDeclaration plans b d = b.linkTo c.types d (.unknownComponent d.name name)
      ((c.get? name).map fun x => ⟨x.name, false, x.interface⟩) := by
  unfold linkDeclaration
  rw [BlockDraft.linkDeclaration_component hkind]
  rfl

theorem linkDeclaration_block {d : DeclarationDraft} (hkind : d.kind = .block name) :
    c.linkDeclaration plans b d = b.linkTo c.types d (.unknownIncludedBlock d.name name)
      ((plans name).map Plan.specification) := by
  unfold linkDeclaration
  rw [BlockDraft.linkDeclaration_block hkind]
  rfl

theorem linkDeclaration_congr {d : DeclarationDraft}
    (h : ∀ inner, d.included? = some inner → plans inner = plans' inner) :
    c.linkDeclaration plans b d = c.linkDeclaration plans' b d := by
  cases hkind : d.kind with
  | component name => rw [linkDeclaration_component hkind, linkDeclaration_component hkind]
  | block name =>
    rw [linkDeclaration_block hkind, linkDeclaration_block hkind,
      h name (DeclarationDraft.included?_eq_some.2 hkind)]

/-- Compiling a block depends on the plans of the blocks it includes only. -/
theorem compile_congr (h : ∀ inner ∈ b.includes, plans inner = plans' inner) :
    c.compile plans b = c.compile plans' b := by
  have hlink : b.declarations.mapM (c.linkDeclaration plans b) =
      b.declarations.mapM (c.linkDeclaration plans' b) :=
    mapM_congr fun d hd => linkDeclaration_congr fun inner hinner =>
      h inner (DeclarationDraft.mem_includes hd hinner)
  rw [compile_eq, compile_eq, hlink]

/-- A declaration is linked only if the block it includes has a plan. -/
theorem exists_plan_of_linkDeclaration {d : DeclarationDraft} {decl : Declaration}
    (hok : c.linkDeclaration plans b d = .ok decl) {inner : String}
    (hinner : d.included? = some inner) : ∃ q, plans inner = some q := by
  rw [linkDeclaration_block (DeclarationDraft.included?_eq_some.1 hinner)] at hok
  cases hplan : plans inner with
  | some q => exact ⟨q, rfl⟩
  | none =>
    rw [hplan] at hok
    cases hok

/-- The declarations of a block are linked only if the blocks they include have plans. -/
theorem exists_plan_of_mapM {ds : List Declaration}
    (hds : b.declarations.mapM (c.linkDeclaration plans b) = .ok ds) :
    ∀ inner ∈ b.includes, ∃ q, plans inner = some q := by
  intro inner hinner
  obtain ⟨d, hd, hinner⟩ := List.mem_filterMap.1 hinner
  obtain ⟨decl, -, hdecl⟩ := exists_mem_of_mapM_eq_ok hds hd
  exact exists_plan_of_linkDeclaration hdecl hinner

theorem exists_plan_of_compile (hok : c.compile plans b = .ok p) :
    ∀ inner ∈ b.includes, ∃ q, plans inner = some q := by
  rw [compile_eq] at hok
  obtain ⟨ds, hds, -⟩ := bind_eq_ok.1 hok
  exact exists_plan_of_mapM hds

theorem safe_linkDeclaration {d : DeclarationDraft} : Safe (c.linkDeclaration plans b d) := by
  have hlink : ∀ missing o, Safe (b.linkTo c.types d missing o) := fun missing o => by
    cases o with
    | none => exact .reject _ _
    | some x => exact DeclarationDraft.safe_link
  cases hkind : d.kind with
  | component => exact linkDeclaration_component hkind ▸ hlink _ _
  | block => exact linkDeclaration_block hkind ▸ hlink _ _

/-- The resolver serves blocks as the plans are. -/
theorem offering_within {P : Specification → Prop}
    (hplans : ∀ name q, plans name = some q → P q.specification) :
    (c.offering plans).Within c (fun _ => True) P := by
  refine ⟨rfl, fun _ _ hx => List.mem_of_find?_eq_some hx, fun name => .pure fun x hx => ?_⟩
  obtain ⟨q, hq, rfl⟩ := Option.map_eq_some_iff.1 hx
  exact hplans name q hq

/-- A block is linked if its declarations are. -/
theorem link_eq_ok {ds : List Declaration}
    (hds : b.declarations.mapM (c.linkDeclaration plans b) = .ok ds) :
    ((b.link (c.offering plans)).run.run ()).1 = .ok (b.linked c.types ds) := by
  rw [BlockDraft.run_link, run_mapM_unit]
  exact bind_eq_ok.2 ⟨ds, hds, rfl⟩

/-! ## Loads -/

/-- The block of a name loads with a plan: it compiles with the plans of blocks that load. -/
inductive Loads (c : Catalog) (drafts : List BlockDraft) : String → Plan → Prop
  | intro {b : BlockDraft} {plans : String → Option Plan} {p : Plan} (hb : b ∈ drafts)
      (hplans : ∀ inner q, plans inner = some q → Loads c drafts inner q)
      (hok : c.compile plans b = .ok p) : Loads c drafts b.name p

namespace Loads

theorem mono {drafts' : List BlockDraft} (hsub : drafts ⊆ drafts') (h : c.Loads drafts name p) :
    c.Loads drafts' name p := by
  induction h with
  | intro hb _ hok ih => exact .intro (hsub hb) ih hok

theorem exists_draft (h : c.Loads drafts name p) : ∃ b ∈ drafts, b.name = name :=
  match h with
  | .intro hb _ _ => ⟨_, hb, rfl⟩

/-- What loads is provided by the catalog. -/
theorem provides (h : c.Loads drafts name p) : c.Provides p.specification := by
  induction h with
  | intro _ _ hok ih =>
    have hr := offering_within (c := c) ih
    exact .block rfl hr.component (fun _ _ _ => trivial)
      (fun inner s x hs hx => (hr.block inner s hs).2 _ hx x rfl) trivial hok

/-- A plan has the outputs of its block. -/
theorem sizedBy (h : c.Loads drafts name p) : p.specification.SizedBy drafts := by
  cases h with
  | intro hb _ hok => exact BlockDraft.sizedBy_compile hb hok

section DifferentNames

variable (hnodup : (drafts.map BlockDraft.name).Nodup)
include hnodup

/-- A block that loads compiles with the plans of all that it includes. -/
theorem exists_plans (hb : b ∈ drafts) (h : c.Loads drafts b.name p) :
    ∃ plans, (∀ inner q, plans inner = some q → c.Loads drafts inner q) ∧
      c.compile plans b = .ok p := by
  generalize hname : b.name = name at h
  cases h with
  | intro hb' hplans hok =>
    obtain rfl := List.inj_on_of_nodup_map hnodup hb hb' hname
    exact ⟨_, hplans, hok⟩

/-- The blocks that a block includes load if it does. -/
theorem included (h : c.Loads drafts name p) {inner : String}
    (hinner : Includes drafts name inner) : ∃ q, c.Loads drafts inner q := by
  obtain ⟨b, hb, rfl, hinner⟩ := hinner
  obtain ⟨plans, hplans, hok⟩ := exists_plans hnodup hb h
  obtain ⟨q, hq⟩ := exists_plan_of_compile hok inner hinner
  exact ⟨q, hplans inner q hq⟩

/-- The declarations of a block that loads can be linked with the plans of what they include. -/
theorem exists_linkDeclaration (hb : b ∈ drafts) (h : c.Loads drafts b.name p)
    {d : DeclarationDraft} (hd : d ∈ b.declarations)
    (hplans : ∀ inner, d.included? = some inner → ∀ q, c.Loads drafts inner q →
      plans inner = some q) : ∃ decl, c.linkDeclaration plans b d = .ok decl := by
  obtain ⟨plans', hplans', hok⟩ := exists_plans hnodup hb h
  rw [compile_eq] at hok
  obtain ⟨ds, hds, -⟩ := bind_eq_ok.1 hok
  obtain ⟨decl, -, hdecl⟩ := exists_mem_of_mapM_eq_ok hds hd
  refine ⟨decl, hdecl ▸ linkDeclaration_congr fun inner hinner => ?_⟩
  obtain ⟨q, hq⟩ := exists_plan_of_linkDeclaration hdecl hinner
  rw [hq, hplans inner hinner q (hplans' inner q hq)]

/-- A block that loads compiles with any plans of the blocks it includes. -/
theorem compile_eq_ok (hb : b ∈ drafts) (h : c.Loads drafts b.name p)
    (hplans : ∀ inner ∈ b.includes, ∀ q, c.Loads drafts inner q → plans inner = some q) :
    c.compile plans b = .ok p := by
  obtain ⟨plans', hplans', hok⟩ := exists_plans hnodup hb h
  refine hok ▸ compile_congr fun inner hinner => ?_
  obtain ⟨q, hq⟩ := exists_plan_of_compile hok inner hinner
  rw [hq, hplans inner hinner q (hplans' inner q hq)]

/-- A block loads with one plan only. -/
theorem unique {p' : Plan} (h : c.Loads drafts name p) (h' : c.Loads drafts name p') :
    p = p' := by
  induction h generalizing p' with
  | @intro b plans p hb hplans hok ih =>
    refine Except.ok.inj (hok.symm.trans (compile_eq_ok hnodup hb h' fun inner hinner q hq => ?_))
    obtain ⟨q', hq'⟩ := exists_plan_of_compile hok inner hinner
    rw [hq', ih inner q' hq' hq]

/-- A block that loads does not include itself, directly or through others. -/
theorem acyclic (h : c.Loads drafts name p) : ¬TransGen (Includes drafts) name name := by
  induction h with
  | @intro b plans p hb hplans hok ih =>
    intro hcycle
    -- A circle through the block goes through one it includes, which has a plan as well.
    obtain ⟨inner, hinner, hback⟩ := TransGen.head'_iff.1 hcycle
    obtain ⟨b', hb', hname, hmem⟩ := hinner
    obtain rfl := List.inj_on_of_nodup_map hnodup hb' hb hname
    obtain ⟨q, hq⟩ := exists_plan_of_compile hok inner hmem
    exact ih inner q hq (.tail' hback ⟨b', hb', rfl, hmem⟩)

/-- All plans that blocks load with. -/
theorem exists_iff (c : Catalog) : ∃ plans : String → Option Plan,
    ∀ inner q, plans inner = some q ↔ c.Loads drafts inner q := by
  classical
  refine ⟨fun inner => if h : ∃ q, c.Loads drafts inner q then some h.choose else none,
    fun inner q => ?_⟩
  dsimp only
  split
  · rename_i h
    rw [Option.some_inj]
    exact ⟨fun hq => hq ▸ h.choose_spec, h.choose_spec.unique hnodup⟩
  · rename_i h
    exact ⟨(nomatch ·), fun hq => absurd ⟨q, hq⟩ h⟩

end DifferentNames

end Loads

/-- A block compiled with plans of blocks that load comes to the plan it loads with. -/
theorem ensures_loads {σ : Type} {good : σ → Prop} {r : Resolver σ}
    (hnodup : (drafts.map BlockDraft.name).Nodup) (hr : r.Serves c good (c.Loads drafts))
    (hb : b ∈ drafts) : Ensures good (b.compile r) (c.Loads drafts b.name) := by
  obtain ⟨plans, hplans⟩ := Loads.exists_iff hnodup c
  rw [BlockDraft.compile_eq, hr.types]
  refine (Ensures.forall₂ (R := fun d decl => c.linkDeclaration plans b d = .ok decl)
    (fun d => ?_) b.declarations).bind fun ds hds => .lift fun p hp => ?_
  · cases hkind : d.kind with
    | component name =>
      rw [linkDeclaration_component hkind, BlockDraft.linkDeclaration_component hkind, hr.types,
        hr.component]
      exact .lift fun _ => id
    | block name =>
      rw [linkDeclaration_block hkind, BlockDraft.linkDeclaration_block hkind, hr.types]
      refine (hr.block name).bind fun o ho => .lift fun decl hdecl => ?_
      cases o with
      | none => cases hdecl
      | some x =>
        obtain ⟨q, hq, rfl⟩ := ho x rfl
        rw [(hplans name q).2 hq]
        exact hdecl
  · refine .intro hb (fun inner q => (hplans inner q).1) ?_
    rw [compile_eq, mapM_eq_ok_of_forall₂ hds]
    exact hp

/-- Completing a block whose declarations are linked with plans of blocks that load never ends in a
breach. -/
theorem safe_planOf (hc : c.Registered) (hfit : CopiesFit drafts) (hb : b ∈ drafts)
    (hplans : ∀ inner q, plans inner = some q → c.Loads drafts inner q) {ds : List Declaration}
    (hds : b.declarations.mapM (c.linkDeclaration plans b) = .ok ds) :
    Safe (b.planOf c.types ds) := by
  have hlink := link_eq_ok hds
  have hr : (c.offering plans).Within c (fun _ => True) c.Provides :=
    offering_within fun inner q hq => (hplans inner q hq).provides
  have hsized : (c.offering plans).Within c (fun _ => True) (Specification.SizedBy drafts) :=
    offering_within fun inner q hq => (hplans inner q hq).sizedBy
  obtain ⟨-, hn⟩ := (b.ensures_link hc (hr.mono fun _ hx => hx.sound hc) () trivial).2 _ hlink
  have hout := (b.ensures_hasOutputs (c.offering plans) () trivial).2 _ hlink
  have hany := (b.ensures_params (c.offering plans) () trivial).2 _ hlink
  have hcopies := (BlockDraft.ensures_copiesFit hc hfit hsized hb () trivial).2 _ hlink
  unfold BlockDraft.planOf
  exact (hn.safe_complete hout hany hcopies).map _

end Catalog

end Blockwork
