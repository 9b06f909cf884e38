import Blockwork.Proofs.Circles
import Blockwork.Proofs.LibraryStates

/-!
# Loading blocks

Asking a library for a block leads from a consistent state to one, and never ends in a breach if the
occurrences of parameters can be counted: the bound on how many blocks are started inside each other
is not reached, as each start leaves one block less to be started. A plan that comes of it is the
one the block loads with.

A block may be rejected because it includes one that is still running. That this is deserved,
whatever block was asked for first, is said by a mark that rejected blocks bear together with what
they are rejected for (`Catalog.Blames`): every block that is rejected bears it
(`Library.leads_planWithin`).
-/

namespace Blockwork

open Relation

/-- The mark is borne by blocks that do not load, for a defect in their own source, and by the
members of a circle of inclusions, for this circle. It is handed on to the blocks that include one
that bears it. -/
structure Catalog.Blames (c : Catalog) (drafts : List BlockDraft)
    (F : String → Diagnostic → Prop) : Prop where
  own : ∀ b ∈ drafts, (∀ p, ¬c.Loads drafts b.name p) → ∀ d, d.IsFrom b.source → F b.name d
  circle : ∀ members, IsCircle (Includes drafts) members → ∀ name ∈ members, ∀ b ∈ drafts,
    b.name ∈ members → F name ((Cause.cyclicInclusion members).report b.location)
  included : ∀ outer inner, Includes drafts outer inner → ∀ d, F inner d → F outer d

theorem Catalog.blames_all (c : Catalog) (drafts : List BlockDraft) :
    c.Blames drafts fun _ _ => True :=
  ⟨fun _ _ _ _ _ => trivial, fun _ _ _ _ _ _ _ => trivial, fun _ _ _ _ _ => trivial⟩

/-- Just the blocks that do not load can be blamed. -/
theorem Catalog.blames_unloadable (c : Catalog) {drafts : List BlockDraft}
    (hnodup : (drafts.map BlockDraft.name).Nodup) :
    c.Blames drafts fun name _ => ∀ p, ¬c.Loads drafts name p where
  own _ _ h _ _ := h
  circle _ hcircle _ hname _ _ _ _ hp := hp.acyclic hnodup (hcircle.transGen hname hname)
  included _ _ hinner _ hnone _ hp :=
    let ⟨q, hq⟩ := hp.included hnodup hinner
    hnone q hq

namespace Library

/-! ## Asking for a plan -/

/-- What a running block asks for the blocks it includes. -/
def resolverWithin (l : Library) (bound : Nat) : Resolver Library where
  types := l.catalog.types
  component? := l.catalog.get?
  block? name := do
    let p ← planWithin bound name
    return p.map Plan.specification

/-- A block still to be compiled is started, compiled and comes to its result. -/
theorem run_planWithin_unstarted {l : Library} {name : String} {bound : Nat} {a : Assembly}
    (h : l.progress? name = some (.unstarted a)) (hgrowing : a.state = .growing) :
    (planWithin (bound + 1) name).run.run l =
      (((a.draft.compile (l.resolverWithin bound)).run.run (l.start name)).1.map some,
        ((a.draft.compile (l.resolverWithin bound)).run.run (l.start name)).2.finish name
          ((a.draft.compile (l.resolverWithin bound)).run.run (l.start name)).1) := by
  unfold planWithin
  rw [run_get_bind]
  simp only [h, run_set_bind, run_liftState_bind, Assembly.run_compile _ hgrowing, run_modify_bind]
  unfold resolverWithin
  generalize (BlockDraft.compile _ a.draft).run.run (l.start name) = y
  rcases y with ⟨e | p, m⟩ <;> rfl

/-! ## From consistent states to consistent states -/

/-- The computation leads to a later consistent state, to a result as said, and to a rejection only
for the reason said. -/
structure Leads {α : Type} (c : Catalog) (drafts : List BlockDraft)
    (F : String → Diagnostic → Prop) (l : Library) (x : Resolving Library α)
    (good : Library → α → Prop) (bad : Diagnostic → Prop) : Prop where
  consistent : Consistent c drafts F (x.run.run l).2
  advances : l.Advances (x.run.run l).2
  ok : ∀ a, (x.run.run l).1 = .ok a → good (x.run.run l).2 a
  rejected : ∀ f, (x.run.run l).1 = .error f →
    (∃ d, f = .rejected d) ∧ ∀ d, f = .rejected d → bad d

section Leading

variable {c : Catalog} {drafts : List BlockDraft} {F : String → Diagnostic → Prop}
  {l l₀ m : Library} {b : BlockDraft} {d : DeclarationDraft} {decl : Declaration} {bound : Nat}
  {name : String}

namespace Leads

variable {α β : Type} {good : Library → α → Prop} {good' : Library → β → Prop}
  {bad : Diagnostic → Prop}

theorem pure (hl : Consistent c drafts F l) {a : α} (ha : good l a) :
    Leads c drafts F l (Pure.pure a) good bad :=
  ⟨hl, .refl l, fun _ hok => Except.ok.inj hok ▸ ha, fun _ h => nomatch h⟩

theorem lift (hl : Consistent c drafts F l) {x : Except Fault α}
    (hok : ∀ a, x = .ok a → good l a)
    (hrejected : ∀ f, x = .error f → (∃ d, f = .rejected d) ∧ ∀ d, f = .rejected d → bad d) :
    Leads c drafts F l (liftM x) good bad :=
  ⟨hl, .refl l, hok, hrejected⟩

theorem reject (hl : Consistent c drafts F l) {d : Diagnostic} (hbad : bad d) :
    Leads c drafts F l (throw (.rejected d)) good bad := by
  refine ⟨hl, .refl l, (fun _ h => nomatch h), fun f hf => ?_⟩
  obtain rfl := Except.error.inj hf
  refine ⟨⟨d, rfl⟩, fun d' hd' => ?_⟩
  obtain rfl := Fault.rejected.inj hd'
  exact hbad

theorem congr {x y : Resolving Library α} (hy : Leads c drafts F l y good bad)
    (h : x.run.run l = y.run.run l) : Leads c drafts F l x good bad := by
  constructor <;> rw [h]
  · exact hy.consistent
  · exact hy.advances
  · exact hy.ok
  · exact hy.rejected

theorem get {f : Library → Resolving Library α} (h : Leads c drafts F l (f l) good bad) :
    Leads c drafts F l (MonadState.get >>= f) good bad :=
  h.congr (run_get_bind f l)

theorem blame {x : Resolving Library α} {bad' : Diagnostic → Prop}
    (hx : Leads c drafts F l x good bad) (h : ∀ d, bad d → bad' d) :
    Leads c drafts F l x good bad' :=
  ⟨hx.consistent, hx.advances, hx.ok, fun f hf =>
    (hx.rejected f hf).imp_right fun hbad d hd => h d (hbad d hd)⟩

theorem bind {x : Resolving Library α} {f : α → Resolving Library β}
    (hx : Leads c drafts F l x good bad)
    (hf : ∀ a m, Consistent c drafts F m → l.Advances m → good m a →
      Leads c drafts F m (f a) good' bad) : Leads c drafts F l (x >>= f) good' bad := by
  obtain ⟨hm, hadv, hok, hrejected⟩ := hx
  rcases hrun : x.run.run l with ⟨e | a, m⟩ <;> rw [hrun] at hm hadv hok hrejected
  · constructor <;> rw [run_bind_of_error hrun]
    · exact hm
    · exact hadv
    · exact fun _ h => nomatch h
    · exact fun f h => hrejected f (congrArg Except.error (Except.error.inj h))
  · have hnext := hf a m hm hadv (hok a rfl)
    constructor <;> rw [run_bind_of_ok hrun]
    · exact hnext.consistent
    · exact hadv.trans hnext.advances
    · exact hnext.ok
    · exact hnext.rejected

/-- A result that is led to is kept. -/
theorem exists_progressOf {x : Resolving Library Plan} {good : Library → Plan → Prop}
    (hx : Leads c drafts F l x good bad) : ∃ y, progressOf (x.run.run l).1 = some y := by
  cases hresult : (x.run.run l).1 with
  | ok p => exact ⟨.ready p, rfl⟩
  | error f =>
    obtain ⟨⟨d, rfl⟩, -⟩ := hx.rejected f hresult
    exact ⟨.failed d, rfl⟩

/-- A block that is started keeps running. -/
theorem progress?_start {x : Resolving Library α}
    (hx : Leads c drafts F (l.start name) x good bad) :
    (x.run.run (l.start name)).2.progress? name = some .running := by
  refine (hx.consistent.running name).2 ?_
  rw [hx.advances.running]
  exact List.mem_append_right _ (List.mem_singleton_self name)

/-- A computation that leads on does so over a list, if later states keep what each result is good
for. -/
theorem mapM {f : α → Resolving Library β} {good : Library → α → β → Prop}
    (keeps : ∀ m m' a b, good m a b → m.Advances m' → good m' a b) :
    ∀ {as : List α} {l : Library}, Consistent c drafts F l →
      (∀ a ∈ as, ∀ m, Consistent c drafts F m → l.Advances m →
        Leads c drafts F m (f a) (fun m' b => good m' a b) bad) →
      Leads c drafts F l (as.mapM f) (fun m bs => List.Forall₂ (good m) as bs) bad
  | [], l, hl, _ => pure hl .nil
  | a :: as, l, hl, hf => by
    rw [List.mapM_cons]
    refine (hf a List.mem_cons_self l hl (.refl l)).bind fun b m hm hadv hb => ?_
    have hrest := mapM keeps hm fun x hx m' hm' hadv' =>
      hf x (List.mem_cons_of_mem a hx) m' hm' (hadv.trans hadv')
    exact hrest.bind fun bs m' hm' hadv' hbs => pure hm' (.cons (keeps m m' a b hb hadv') hbs)

/-- The state after an element of the list is an earlier one than that after the whole list. -/
theorem advances_mapM {f : α → Resolving Library β} {good : Library → α → β → Prop}
    (keeps : ∀ m m' a b, good m a b → m.Advances m' → good m' a b) {before after : List α} {a : α}
    {bs : List β} (hl : Consistent c drafts F l)
    (hf : ∀ x ∈ before ++ a :: after, ∀ m, Consistent c drafts F m → l.Advances m →
      Leads c drafts F m (f x) (fun m' b => good m' x b) bad)
    (hrun : (before.mapM f).run.run l = (.ok bs, m)) :
    ((f a).run.run m).2.Advances (((before ++ a :: after).mapM f).run.run l).2 := by
  have hbefore := mapM keeps hl fun x hx => hf x (List.mem_append_left _ hx)
  have hm := hbefore.consistent
  have hadv := hbefore.advances
  rw [hrun] at hm hadv
  have ha := hf a (by simp) m hm hadv
  rw [List.mapM_append, run_bind_of_ok hrun, List.mapM_cons, bind_assoc]
  rcases hstep : (f a).run.run m with ⟨e | b, t⟩
  · rw [run_bind_of_error hstep]
    exact .refl t
  · have ht := ha.consistent
    have hadv' := ha.advances
    rw [hstep] at ht hadv'
    have hafter := mapM keeps ht fun x hx m' hm' hadv'' =>
      hf x (List.mem_append_right _ (List.mem_cons_of_mem a hx)) m' hm'
        (hadv.trans (hadv'.trans hadv''))
    have hfinal := hafter.advances
    rw [run_bind_of_ok hstep]
    rcases hrest : (after.mapM f).run.run t with ⟨e | bs', u⟩ <;> rw [hrest] at hfinal
    · rw [bind_assoc, run_bind_of_error hrest]
      exact hfinal
    · rw [bind_assoc, run_bind_of_ok hrest]
      exact hfinal

end Leads

/-! ## Compiling a block -/

/-- The declaration is linked as it is with the plans there are. -/
def Linked (c : Catalog) (b : BlockDraft) (m : Library) (d : DeclarationDraft)
    (decl : Declaration) : Prop :=
  c.linkDeclaration m.ready? b d = .ok decl

theorem Keeps.ready? (h : l.Keeps m) {q : Plan} (hq : l.ready? name = some q) :
    m.ready? name = some q :=
  ready?_eq_some.2 (h name _ trivial (ready?_eq_some.1 hq))

/-- Later plans are no others for what is included. -/
theorem Linked.keeps (h : Linked c b l d decl) (hm : l.Keeps m) : Linked c b m d decl := by
  refine (Catalog.linkDeclaration_congr fun inner hinner => ?_).symm.trans h
  obtain ⟨q, hq⟩ := Catalog.exists_plan_of_linkDeclaration h hinner
  rw [hq, hm.ready? hq]

/-- While a block runs, fewer blocks are still to be compiled, and it follows on the running blocks,
each of which includes the next. -/
theorem asked_while_running {a : Assembly} {inner : String}
    (h : l.progress? name = some (.unstarted a)) (hbound : l.unstarted ≤ bound + 1)
    (hstack : (l.running ++ [name]).IsChain (Includes drafts))
    (hinner : Includes drafts name inner) (hm : (l.start name).Advances m) :
    m.unstarted ≤ bound ∧ (m.running ++ [inner]).IsChain (Includes drafts) := by
  refine ⟨Nat.le_of_lt_succ ?_, ?_⟩
  · exact hm.unstarted.trans_lt ((unstarted_start_lt h).trans_le hbound)
  · have hrunning : m.running = l.running ++ [name] := hm.running
    rw [hrunning]
    refine List.isChain_append.2 ⟨hstack, .singleton inner, fun x hx y hy => ?_⟩
    rw [List.getLast?_concat] at hx
    obtain rfl := Option.some.inj hx
    obtain rfl := Option.some.inj hy
    exact hinner

/-- A running block that is asked for is a member of the circle that is reported. -/
theorem blamed_cycleReport (hF : c.Blames drafts F) (hl : Consistent c drafts F l)
    (hstack : (l.running ++ [name]).IsChain (Includes drafts)) (hname : name ∈ l.running) :
    F name (l.cycleReport name) := by
  have hne := List.ne_nil_of_mem hname
  have hcircle := IsCircle.of_path hstack hl.nodup hname
  -- The report stands where the block on top of the stack does, which is a member as well.
  have hlast : l.running.getLast? = some (l.running.getLast hne) :=
    List.getLast?_eq_some_getLast hne
  have htop : l.running.getLast hne ∈ l.running.dropWhile (· != name) := by
    rw [← (List.dropWhile_suffix _).getLast hcircle.ne_nil]
    exact List.getLast_mem hcircle.ne_nil
  obtain ⟨e, he, -⟩ := Option.map_eq_some_iff.1 ((hl.running _).2 (List.getLast_mem hne))
  obtain ⟨hmem, hentry⟩ := of_find?_eq_some he
  obtain ⟨b, hb, hbname, hlocation⟩ := hl.located e hmem
  have hreport : l.cycleReport name =
      (Cause.cyclicInclusion (l.running.dropWhile (· != name))).report b.location := by
    unfold cycleReport
    rw [hlast, Option.bind_some, he, hlocation]
    rfl
  rw [hreport]
  exact hF.circle _ hcircle name (mem_dropWhile_bne hname) b hb (hbname.trans hentry ▸ htop)

variable (hc : c.Registered) (hnodup : (drafts.map BlockDraft.name).Nodup)
  (hF : c.Blames drafts F) (hfit : CopiesFit drafts)
include hnodup hF

/-- Once it has been asked for what a declaration includes, it is linked as with the plans there
are. If it cannot be, the block does not load. -/
theorem leads_linked (hb : b ∈ drafts) (hd : d ∈ b.declarations) (hl : Consistent c drafts F l)
    (hasked : ∀ inner, d.included? = some inner → ∃ o, l.Answers inner o) :
    Leads c drafts F l (liftM (c.linkDeclaration l.ready? b d)) (fun m decl => Linked c b m d decl)
      (F b.name) := by
  refine .lift hl (fun decl hok => hok) fun f hf =>
    ⟨Catalog.safe_linkDeclaration.exists_rejected hf, ?_⟩
  rintro e rfl
  refine hF.own b hb (fun p hp => ?_) e (Catalog.rejectsIn_linkDeclaration e hf)
  obtain ⟨decl, hok⟩ := hp.exists_linkDeclaration hnodup hb hd fun inner hinner q hq =>
    let ⟨_, ho⟩ := hasked inner hinner
    hl.ready?_of_loads hnodup ho hq
  exact nomatch hok.symm.trans hf

/-- Linking a declaration leads on if asking for the block it includes does. -/
theorem leads_linkDeclaration (hcatalog : l₀.catalog = c) (hb : b ∈ drafts)
    (hd : d ∈ b.declarations) (hl : Consistent c drafts F l)
    (hask : ∀ inner ∈ b.includes, Leads c drafts F l (planWithin bound inner)
      (fun m o => m.Answers inner o) (F inner)) :
    Leads c drafts F l (b.linkDeclaration (l₀.resolverWithin bound) d)
      (fun m decl => Linked c b m d decl) (F b.name) := by
  subst hcatalog
  cases hkind : d.kind with
  | component name =>
    have hlinked := leads_linked hnodup hF hb hd hl fun inner hinner =>
      nomatch hkind.symm.trans (DeclarationDraft.included?_eq_some.1 hinner)
    rw [Catalog.linkDeclaration_component hkind] at hlinked
    rw [BlockDraft.linkDeclaration_component hkind]
    exact hlinked
  | block inner =>
    have hinner := DeclarationDraft.included?_eq_some.2 hkind
    have hmem := DeclarationDraft.mem_includes hd hinner
    have hasked : (l₀.resolverWithin bound).block? inner =
        planWithin bound inner >>= fun o => Pure.pure (o.map Plan.specification) := rfl
    rw [BlockDraft.linkDeclaration_block hkind, hasked, bind_assoc]
    refine ((hask inner hmem).blame (hF.included b.name inner ⟨b, hb, rfl, hmem⟩)).bind
      fun o m hm _ ho => ?_
    have hlinked := leads_linked hnodup hF hb hd hm fun name hname => by
      obtain rfl := Option.some.inj (hinner.symm.trans hname)
      exact ⟨o, ho⟩
    rw [Catalog.linkDeclaration_block hkind, ho.ready?] at hlinked
    rw [pure_bind]
    exact hlinked

/-- Linking declarations leads on if asking for the blocks they include does from all states
between. -/
theorem leads_declarations (hcatalog : l₀.catalog = c) (hb : b ∈ drafts)
    (hl : Consistent c drafts F l)
    (hask : ∀ inner ∈ b.includes, ∀ m, Consistent c drafts F m → l.Advances m →
      Leads c drafts F m (planWithin bound inner) (fun m o => m.Answers inner o) (F inner))
    {ds : List DeclarationDraft} (hds : ds ⊆ b.declarations) :
    Leads c drafts F l (ds.mapM (b.linkDeclaration (l₀.resolverWithin bound)))
      (fun m decls => List.Forall₂ (Linked c b m) ds decls) (F b.name) :=
  Leads.mapM (fun _ _ _ _ h hadv => h.keeps hadv.keeps) hl fun _ hd m hm hadv =>
    leads_linkDeclaration hnodup hF hcatalog hb (hds hd) hm fun inner hinner =>
      hask inner hinner m hm hadv

include hc hfit

/-- Compiling a block leads to the plan it loads with, if asking for the blocks it includes leads
on from all states between. -/
theorem leads_compile (hcatalog : l₀.catalog = c) (hb : b ∈ drafts) (hl : Consistent c drafts F l)
    (hask : ∀ inner ∈ b.includes, ∀ m, Consistent c drafts F m → l.Advances m →
      Leads c drafts F m (planWithin bound inner) (fun m o => m.Answers inner o) (F inner)) :
    Leads c drafts F l (b.compile (l₀.resolverWithin bound))
      (fun m p => c.Loads drafts b.name p ∧ ∀ inner ∈ b.includes, ∃ q, m.ready? inner = some q)
      (F b.name) := by
  rw [BlockDraft.compile_eq]
  refine (leads_declarations hnodup hF hcatalog hb hl hask (List.Subset.refl _)).bind
    fun ds m hm hadv hds => ?_
  subst hcatalog
  have hmapM : b.declarations.mapM (l₀.catalog.linkDeclaration m.ready? b) = .ok ds :=
    mapM_eq_ok_of_forall₂ hds
  have hplans := Catalog.exists_plan_of_mapM hmapM
  have hcompile : l₀.catalog.compile m.ready? b = b.planOf l₀.catalog.types ds :=
    (Catalog.compile_eq ..).trans (congrArg (· >>= b.planOf l₀.catalog.types) hmapM)
  have hsafe := Catalog.safe_planOf hc hfit hb (fun _ _ hq => hm.loads hq) hmapM
  refine .lift hm (fun p hp => ⟨?_, hplans⟩) fun f hf => ⟨hsafe.exists_rejected hf, ?_⟩
  · exact .intro hb (fun _ _ hq => hm.loads hq) (hcompile.trans hp)
  · rintro e rfl
    refine hF.own b hb (fun p hp => ?_) e (Catalog.rejectsIn_planOf hmapM e hf)
    have hok : l₀.catalog.compile m.ready? b = .ok p :=
      hp.compile_eq_ok hnodup hb fun inner hinner q hq => by
        obtain ⟨q', hq'⟩ := hplans inner hinner
        rw [hq', (hm.loads hq').unique hnodup hq]
    exact nomatch hok.symm.trans (hcompile.trans hf)

/-- Starting a block leads to its plan if asking for the blocks it includes leads on. -/
theorem leads_start {a : Assembly} (hl : Consistent c drafts F l)
    (h : l.progress? name = some (.unstarted a))
    (hask : ∀ inner, Includes drafts name inner → ∀ m, Consistent c drafts F m →
      (l.start name).Advances m →
      Leads c drafts F m (planWithin bound inner) (fun m o => m.Answers inner o) (F inner)) :
    Leads c drafts F l (planWithin (bound + 1) name) (fun m o => m.Answers name o) (F name) := by
  obtain ⟨hgrowing, hb, rfl⟩ := hl.unstarted name a h
  have hcompile := leads_compile hc hnodup hF hfit hl.catalog hb (hl.start h)
    fun inner hinner => hask inner ⟨a.draft, hb, rfl, hinner⟩
  have hrunning := hcompile.progress?_start
  obtain ⟨x, hx⟩ := hcompile.exists_progressOf
  obtain ⟨hm, hadv, hok, hrejected⟩ := hcompile
  have hrun : (planWithin (bound + 1) a.draft.name).run.run l = _ :=
    run_planWithin_unstarted h hgrowing
  generalize (a.draft.compile (l.resolverWithin bound)).run.run (l.start a.draft.name) = y
    at hm hadv hok hrejected hrun hrunning hx
  obtain ⟨result, m⟩ := y
  constructor <;> rw [hrun]
  · refine hm.finish hadv.running hx (fun p hp => ⟨(hok p hp).1, fun inner hinner => ?_⟩)
      fun d hd => (hrejected _ hd).2 d rfl
    obtain ⟨b, hb', hname, hinner⟩ := hinner
    obtain rfl := List.inj_on_of_nodup_map hnodup hb' hb hname
    obtain ⟨q, hq⟩ := (hok p hp).2 inner hinner
    exact ⟨q, ready?_eq_some.1 hq⟩
  · exact advances_finish h hadv hx hrunning
  · intro o ho
    obtain ⟨p, rfl, rfl⟩ := map_eq_ok.1 ho
    show (m.finish _ _).progress? _ = some (.ready p)
    rw [progress?_finish hrunning rfl, if_pos rfl]
  · intro f hf
    cases result with
    | ok p => cases hf
    | error f' => exact hrejected f (congrArg Except.error (Except.error.inj hf))

/-- Asking for a block leads to an answer, or the block bears the mark. The running blocks lead to
it, each including the next. -/
theorem leads_planWithin (hl : Consistent c drafts F l) (hbound : l.unstarted ≤ bound)
    (hstack : (l.running ++ [name]).IsChain (Includes drafts)) :
    Leads c drafts F l (planWithin bound name) (fun m o => m.Answers name o) (F name) := by
  induction bound using Nat.strong_induction_on generalizing l name with
  | _ bound ih =>
    rcases hprogress : l.progress? name with _ | a | _ | p | d
    case some.unstarted =>
      have hlt := unstarted_start_lt hprogress
      cases bound with
      | zero => omega
      | succ bound =>
        refine leads_start hc hnodup hF hfit hl hprogress fun inner hinner m hm hadv => ?_
        obtain ⟨hbound', hstack'⟩ := asked_while_running hprogress hbound hstack hinner hadv
        exact ih bound (Nat.lt_succ_self bound) hm hbound' hstack'
    -- In all other cases the answer is there.
    all_goals
      unfold planWithin
      refine Leads.get ?_
      simp only [hprogress]
    · exact .pure hl hprogress
    · -- A running block that is asked for includes itself.
      exact .reject hl (blamed_cycleReport hF hl hstack ((hl.running name).1 hprogress))
    · exact .pure hl hprogress
    · exact .reject hl (hl.failed name d hprogress)

/-- Loading a block while none is running leads to its plan, or the block bears the mark, or there
is none of the name. -/
theorem leads_load (hl : Consistent c drafts F l) (hidle : l.running = []) (name : String) :
    Leads c drafts F l (load name) (fun m p => m.progress? name = some (.ready p)) fun d =>
      F name d ∨ (∀ b ∈ drafts, b.name ≠ name) ∧ d = (Cause.unknownBlock name).report .unknown := by
  have hplan : Leads c drafts F l (plan? name) (fun m o => m.Answers name o) (F name) :=
    (leads_planWithin hc hnodup hF hfit hl (Nat.le_refl _) (by simp [hidle])).congr rfl
  refine (hplan.blame fun _ => .inl).bind fun o m hm _ ho => ?_
  cases o with
  | some p => exact .pure hm ho
  | none =>
    refine .reject hm (.inr ⟨fun b hb hname => ?_, rfl⟩)
    obtain ⟨x, hx⟩ := hm.exists_progress?_iff.2 ⟨b, hb, hname⟩
    exact nomatch hx.symm.trans ho

end Leading

end Library

end Blockwork
