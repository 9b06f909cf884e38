import Blockwork.Proofs.Loading

/-!
# Runs of a library

A library is run by adding drafts and loading blocks, in any order and with any outcome. Between
calls nothing is being compiled (`Library.Settled`) and what came of a block for good is kept
(`Library.Keeps`). During a load the running blocks are those on the stack, each once, and each of
them was still to be compiled before the load and has come to its result after it
(`Library.Orderly`). So a block is compiled once at most, and no load ends in a breach: neither is
a block compiled again nor is the bound on inclusions reached. That the occurrences of parameters
can be counted in words has to be asked of the drafts (`CopiesFit`).
-/

namespace Blockwork

open Relation

namespace Library

/-! ## Calls -/

/-- A call of a library. -/
inductive Call
  | addDraft (draft : BlockDraft)
  | load (name : String)
deriving DecidableEq

/-- The library after a call, whatever came of it, with the drafts it has accepted. -/
def afterCall : List BlockDraft × Library → Call → List BlockDraft × Library
  | (drafts, l), .addDraft b =>
    let accepted := match (addDraft b).answer l with
      | .ok _ => drafts ++ [b]
      | .error _ => drafts
    (accepted, (addDraft b).after l)
  | (drafts, l), .load name => (drafts, ((load name).run.run l).2)

/-- The library of a catalog after calls, with the drafts it has accepted. -/
def afterCalls (c : Catalog) (calls : List Call) : List BlockDraft × Library :=
  calls.foldl afterCall ([], ofCatalog c)

/-- What holds between calls: no block is running, blocks still to be compiled are open, and those
with a plan include only such blocks, without going round in a circle. -/
structure Settled (drafts : List BlockDraft) (l : Library) : Prop where
  names : l.entries.map Entry.name = drafts.map BlockDraft.name
  nodup : (drafts.map BlockDraft.name).Nodup
  idle : l.running = []
  notRunning : ∀ name, l.progress? name ≠ some .running
  unstarted : ∀ name a, l.progress? name = some (.unstarted a) →
    a.state = .growing ∧ a.draft ∈ drafts ∧ a.draft.name = name
  included : ∀ name p, l.progress? name = some (.ready p) →
    ∃ b ∈ drafts, b.name = name ∧ ∀ inner ∈ b.includes, ∃ q, l.progress? inner = some (.ready q)
  acyclic : ∀ name p, l.progress? name = some (.ready p) →
    ¬TransGen (Includes drafts) name name

/-! ## Moments of a load -/

/-- The library goes from one state through the other while it is asked for the block of a name: at
the start and at the end, right after the block is started, and while it is asked for the block that
a declaration includes, once the declarations before are linked. -/
inductive Passes : Nat → String → Library → Library → Prop
  | asked {bound : Nat} {name : String} {l : Library} : Passes bound name l l
  | started {bound : Nat} {name : String} {l : Library} {a : Assembly}
      (h : l.progress? name = some (.unstarted a)) : Passes (bound + 1) name l (l.start name)
  | inner {bound : Nat} {name inner : String} {l m s : Library} {a : Assembly}
      {before after : List DeclarationDraft} {d : DeclarationDraft} {decls : List Declaration}
      (h : l.progress? name = some (.unstarted a))
      (hsplit : a.draft.declarations = before ++ d :: after) (hinner : d.included? = some inner)
      (hrun : (before.mapM (a.draft.linkDeclaration (l.resolverWithin bound))).run.run
        (l.start name) = (.ok decls, s))
      (hpass : Passes bound inner s m) : Passes (bound + 1) name l m
  | answered {bound : Nat} {name : String} {l : Library} :
      Passes bound name l ((planWithin bound name).run.run l).2

/-- How a state between stands to the start and the end of a load. -/
structure Orderly (drafts : List BlockDraft) (l l' m : Library) : Prop where
  nodup : m.running.Nodup
  running : ∀ name, m.progress? name = some .running ↔ name ∈ m.running
  included : ∀ name p, m.progress? name = some (.ready p) → ∀ inner, Includes drafts name inner →
    ∃ q, m.progress? inner = some (.ready q)
  keeps : l.Keeps m
  once : ∀ name ∈ m.running, (∃ a, l.progress? name = some (.unstarted a)) ∧
    ∃ x, x.IsFinal ∧ l'.progress? name = some x

section Passing

variable {c : Catalog} {drafts : List BlockDraft} {F : String → Diagnostic → Prop}
  {l m s : Library} {name inner : String} {bound : Nat} {a : Assembly}

/-- Linking a declaration leaves the library as asking for the block it includes does. -/
theorem state_linkDeclaration {b : BlockDraft} {d : DeclarationDraft}
    (hinner : d.included? = some inner) :
    ((b.linkDeclaration (l.resolverWithin bound) d).run.run s).2 =
      ((planWithin bound inner).run.run s).2 := by
  have hasked : (l.resolverWithin bound).block? inner =
      planWithin bound inner >>= fun o => pure (o.map Plan.specification) := rfl
  rw [BlockDraft.linkDeclaration_block (DeclarationDraft.included?_eq_some.1 hinner), hasked,
    bind_assoc]
  rcases hrun : (planWithin bound inner).run.run s with ⟨e | o, t⟩
  · rw [run_bind_of_error hrun]
  · rw [run_bind_of_ok hrun]
    rfl

theorem state_load : ((load name).run.run l).2 =
    ((planWithin l.unstarted name).run.run l).2 := by
  have hplan : (plan? name).run.run l = (planWithin l.unstarted name).run.run l := rfl
  unfold load
  rcases hrun : (planWithin l.unstarted name).run.run l with ⟨e | _ | p, t⟩
  · rw [run_bind_of_error (hplan.trans hrun)]
  · rw [run_bind_of_ok (hplan.trans hrun)]
    rfl
  · rw [run_bind_of_ok (hplan.trans hrun)]
    rfl

theorem state_compile {σ : Type} (r : Resolver σ) (b : BlockDraft) (t : σ) :
    ((b.compile r).run.run t).2 = ((b.declarations.mapM (b.linkDeclaration r)).run.run t).2 := by
  rw [BlockDraft.compile_eq]
  rcases hrun : (b.declarations.mapM (b.linkDeclaration r)).run.run t with ⟨e | ds, u⟩
  · rw [run_bind_of_error hrun]
  · rw [run_bind_of_ok hrun]
    rfl

/-- What holds in all states a library goes through. -/
structure Passed (c : Catalog) (drafts : List BlockDraft) (F : String → Diagnostic → Prop)
    (l l' m : Library) : Prop where
  consistent : Consistent c drafts F m
  keeps : l.Keeps m
  finished : ∀ name ∈ m.running, name ∈ l.running ∨ ∃ x, x.IsFinal ∧ l'.progress? name = some x

variable (hc : c.Registered) (hnodup : (drafts.map BlockDraft.name).Nodup)
  (hF : c.Blames drafts F) (hfit : CopiesFit drafts)
include hc hnodup hF hfit

/-- Asking for what a running block includes leads on. -/
theorem leads_included (hl : Consistent c drafts F l) (hbound : l.unstarted ≤ bound + 1)
    (hstack : (l.running ++ [name]).IsChain (Includes drafts))
    (h : l.progress? name = some (.unstarted a)) : ∀ inner ∈ a.draft.includes, ∀ m,
      Consistent c drafts F m → (l.start name).Advances m →
        Leads c drafts F m (planWithin bound inner) (fun m o => m.Answers inner o) (F inner) := by
  intro inner hinner m hm hadv
  obtain ⟨-, hb, hname⟩ := hl.unstarted name a h
  obtain ⟨hbound', hstack'⟩ :=
    asked_while_running h hbound hstack ⟨a.draft, hb, hname, hinner⟩ hadv
  exact leads_planWithin hc hnodup hF hfit hm hbound' hstack'

/-- A block that is started has come to its result in the end, and all that came of others while it
was running is kept. -/
theorem finished_of_started (hl : Consistent c drafts F l) (hbound : l.unstarted ≤ bound + 1)
    (hstack : (l.running ++ [name]).IsChain (Includes drafts))
    (h : l.progress? name = some (.unstarted a)) :
    ((a.draft.compile (l.resolverWithin bound)).run.run (l.start name)).2.Keeps
      ((planWithin (bound + 1) name).run.run l).2 ∧
    ∃ x, x.IsFinal ∧ ((planWithin (bound + 1) name).run.run l).2.progress? name = some x := by
  obtain ⟨hgrowing, hb, -⟩ := hl.unstarted name a h
  have hcompile := leads_compile hc hnodup hF hfit hl.catalog hb (hl.start h)
    (leads_included hc hnodup hF hfit hl hbound hstack h)
  obtain ⟨x, hx⟩ := hcompile.exists_progressOf
  have hrunning := hcompile.progress?_start
  rw [run_planWithin_unstarted h hgrowing]
  refine ⟨keeps_finish hrunning hx, x, isFinal_of_progressOf hx, ?_⟩
  rw [progress?_finish hrunning hx, if_pos rfl]

/-- All states a library goes through are consistent, keep what came of blocks before, and have only
blocks running that come to their results. -/
theorem passed (hl : Consistent c drafts F l) (hbound : l.unstarted ≤ bound)
    (hstack : (l.running ++ [name]).IsChain (Includes drafts)) (h : Passes bound name l m) :
    Passed c drafts F l ((planWithin bound name).run.run l).2 m := by
  induction h with
  | asked => exact ⟨hl, .refl _, fun _ h => .inl h⟩
  | @started bound name l a h =>
    refine ⟨hl.start h, keeps_start h, fun other hother => ?_⟩
    rcases List.mem_append.1 hother with hother | hother
    · exact .inl hother
    · rw [List.mem_singleton.1 hother]
      exact .inr (finished_of_started hc hnodup hF hfit hl hbound hstack h).2
  | @inner bound name inner l m s a before after d decls h hsplit hinner hrun hpass ih =>
    obtain ⟨hkept, hfinal⟩ := finished_of_started hc hnodup hF hfit hl hbound hstack h
    obtain ⟨-, hb, hname⟩ := hl.unstarted name a h
    have hask := leads_included hc hnodup hF hfit hl hbound hstack h
    have hdecls : ∀ x ∈ before ++ d :: after, x ∈ a.draft.declarations := by
      rw [hsplit]
      exact fun _ hx => hx
    have hd := hdecls d (by simp)
    -- The state in which the inner block is asked for.
    have hbefore := leads_declarations hnodup hF hl.catalog hb (hl.start h) hask
      fun x hx => hdecls x (List.mem_append_left _ hx)
    have hs := hbefore.consistent
    have hadv := hbefore.advances
    rw [hrun] at hs hadv
    obtain ⟨hbound', hstack'⟩ := asked_while_running h hbound hstack
      ⟨a.draft, hb, hname, DeclarationDraft.mem_includes hd hinner⟩ hadv
    obtain ⟨hm, hkeeps, hfinished⟩ := ih hs hbound' hstack'
    -- What came of blocks by then is kept until the outer block has come to its result.
    have hlater := Leads.advances_mapM (fun _ _ _ _ h hadv => h.keeps hadv.keeps) (hl.start h)
      (fun x hx m hm hadv => leads_linkDeclaration hnodup hF hl.catalog hb (hdecls x hx) hm
        fun inner hinner => hask inner hinner m hm hadv) hrun
    rw [state_linkDeclaration hinner, ← hsplit, ← state_compile] at hlater
    refine ⟨hm, (keeps_start h).trans (hadv.keeps.trans hkeeps), fun other hother => ?_⟩
    rcases hfinished other hother with hrunning | ⟨x, hx, hend⟩
    · rw [hadv.running] at hrunning
      rcases List.mem_append.1 hrunning with hrunning | hrunning
      · exact .inl hrunning
      · rw [List.mem_singleton.1 hrunning]
        exact .inr hfinal
    · exact .inr ⟨x, hx, hkept other x hx (hlater.keeps other x hx hend)⟩
  | @answered bound name l =>
    have hleads := leads_planWithin hc hnodup hF hfit hl hbound hstack
    exact ⟨hleads.consistent, hleads.advances.keeps, fun _ h => .inl (hleads.advances.running ▸ h)⟩

end Passing

/-! ## What is kept -/

section Keeping

variable {l m : Library} {s : List BlockDraft × Library} {name : String}

theorem Keeps.setProgress (h : l.Keeps m) (hname : ∀ x, l.progress? name = some x → ¬x.IsFinal)
    (x : Progress) : l.Keeps (m.setProgress name x) := by
  intro other y hy hother
  rw [progress?_setProgress]
  split
  · rename_i heq
    exact absurd hy (hname y (heq ▸ hother))
  · exact h other y hy hother

theorem Keeps.finish (h : l.Keeps m) (hname : ∀ x, l.progress? name = some x → ¬x.IsFinal)
    (result : Except Fault Plan) : l.Keeps (m.finish name result) := by
  have hstopped : l.Keeps { m with running := m.running.dropLast } := h
  unfold Library.finish
  split
  · exact hstopped.setProgress hname _
  · exact hstopped

/-- Asking for a plan keeps what is kept by starting a block that is still to be compiled and by its
coming to a result, whatever it is. -/
theorem ensures_kept {I : Library → Prop}
    (hkeeps : ∀ m name a, m.progress? name = some (.unstarted a) → I m →
      I (m.start name) ∧ ∀ m' result, I m' → I (m'.finish name result))
    (bound : Nat) (name : String) : Ensures I (planWithin bound name) fun _ => True := by
  refine (ensures_planWithin (P := fun _ _ => True) (fun _ _ _ _ _ => trivial)
    (fun m name a hm ha => ?_) bound name).mono fun _ _ => trivial
  obtain ⟨hstarted, hfinished⟩ := hkeeps m name a ha hm
  refine ⟨hstarted, fun r hr => ?_, fun m' result hm' _ => hfinished m' result hm'⟩
  have hasked := fun inner => (hr.block inner).mono fun _ _ => trivial
  exact (BlockDraft.ensures_compile (a.draft.ensures_good hasked)).mono fun _ _ => trivial

/-- What came of blocks is kept for good. -/
theorem ensures_keeps (bound : Nat) (name : String) :
    Ensures l.Keeps (planWithin bound name) fun _ => True := by
  refine ensures_kept (fun m name a ha hm => ?_) bound name
  -- A block that is still to be compiled did not come to its result before.
  have hname : ∀ x, l.progress? name = some x → ¬x.IsFinal := fun x hx hfinal => by
    obtain rfl := Option.some.inj ((hm name x hfinal hx).symm.trans ha)
    exact hfinal
  exact ⟨hm.setProgress hname .running, fun _ result hm' => hm'.finish hname result⟩

theorem ensures_names (names : List String) (bound : Nat) (name : String) :
    Ensures (fun m => m.entries.map Entry.name = names) (planWithin bound name) fun _ => True :=
  ensures_kept (I := fun m => m.entries.map Entry.name = names) (fun _ _ _ _ hm =>
    ⟨(names_setProgress ..).trans hm, fun _ _ hm' => (names_finish ..).trans hm'⟩) bound name

/-- A draft is added at the end, or the call changes nothing. -/
theorem afterCall_addDraft (s : List BlockDraft × Library) (b : BlockDraft) :
    afterCall s (.addDraft b) = s ∨ ∃ l', (addDraft b).result s.2 = .ok l' ∧
      afterCall s (.addDraft b) = (s.1 ++ [b], l') := by
  obtain ⟨drafts, l⟩ := s
  simp only [afterCall]
  cases h : (addDraft b).answer l with
  | error d => exact .inl (congrArg _ (guarded_addDraft b d h))
  | ok => exact .inr ⟨_, Method.result_eq_ok.2 ⟨⟨_, h⟩, rfl⟩, rfl⟩

/-- A call keeps what came of blocks for good. -/
theorem keeps_afterCall (s : List BlockDraft × Library) (call : Call) :
    s.2.Keeps (afterCall s call).2 := by
  cases call with
  | addDraft b =>
    rcases afterCall_addDraft s b with h | ⟨l', hok, h⟩ <;> rw [h]
    · exact .refl s.2
    · exact fun name x _ hx => progress?_eq_some_of_addDraft hok hx
  | load name =>
    show s.2.Keeps ((load name).run.run s.2).2
    rw [state_load]
    exact (ensures_keeps _ name s.2 (.refl s.2)).1

theorem keeps_afterCalls (calls : List Call) :
    s.2.Keeps (calls.foldl afterCall s).2 := by
  induction calls generalizing s with
  | nil => exact .refl s.2
  | cons call calls ih => exact (keeps_afterCall s call).trans ih

/-- Drafts that were accepted stay. -/
theorem subset_afterCall (s : List BlockDraft × Library) (call : Call) :
    s.1 ⊆ (afterCall s call).1 := by
  cases call with
  | addDraft b =>
    rcases afterCall_addDraft s b with h | ⟨l', -, h⟩ <;> rw [h]
    · exact List.Subset.refl _
    · exact List.subset_append_left ..
  | load => exact List.Subset.refl _

theorem subset_afterCalls (calls : List Call) : s.1 ⊆ (calls.foldl afterCall s).1 := by
  induction calls generalizing s with
  | nil => exact List.Subset.refl _
  | cons call calls ih => exact List.Subset.trans (subset_afterCall s call) ih

/-- The library has an entry for each draft it has accepted, and its plans are those the blocks load
with. -/
structure Stocked (c : Catalog) (s : List BlockDraft × Library) : Prop where
  names : s.2.entries.map Entry.name = s.1.map BlockDraft.name
  nodup : (s.1.map BlockDraft.name).Nodup
  loading : Loading c s.1 s.2

/-- A call leaves the library so, also where it ends in a breach. -/
theorem Stocked.afterCall {c : Catalog} (hs : Stocked c s) (call : Call) :
    Stocked c (Library.afterCall s call) := by
  obtain ⟨hnames, hnodup, hloading⟩ := hs
  cases call with
  | addDraft b =>
    rcases afterCall_addDraft s b with h | ⟨l', hok, h⟩ <;> rw [h]
    · exact ⟨hnames, hnodup, hloading⟩
    · refine ⟨?_, nodup_addDraft hnames hok hnodup, hloading.addDraft hok⟩
      rw [(addDraft_eq_ok hok).2, List.map_append, List.map_append, hnames]
      rfl
  | load name =>
    refine ⟨?_, hnodup, ((compiles_loads hnodup).load name s.2 hloading).1⟩
    show ((load name).run.run s.2).2.entries.map Entry.name = s.1.map BlockDraft.name
    rw [state_load]
    exact (ensures_names _ _ name s.2 hnames).1

theorem stocked_afterCalls (c : Catalog) (calls : List Call) : Stocked c (afterCalls c calls) := by
  have hcalls : ∀ (calls : List Call) {s}, Stocked c s → Stocked c (calls.foldl afterCall s) := by
    intro calls
    induction calls with
    | nil => exact id
    | cons call calls ih => exact fun hs => ih (hs.afterCall call)
  exact hcalls calls ⟨rfl, List.nodup_nil, holds_ofCatalog c _ _⟩

end Keeping

/-! ## Between calls -/

section Calls

variable {c : Catalog} {s : List BlockDraft × Library} {drafts : List BlockDraft} {l : Library}

/-- The library is consistent with the drafts it has accepted, and no block is running. -/
structure Idle (c : Catalog) (s : List BlockDraft × Library) : Prop where
  consistent : Consistent c s.1 (fun _ _ => True) s.2
  nodup : (s.1.map BlockDraft.name).Nodup
  idle : s.2.running = []

theorem Idle.settled (hs : Idle c s) : Settled s.1 s.2 where
  names := hs.consistent.names
  nodup := hs.nodup
  idle := hs.idle
  notRunning name h := by
    have hmem := (hs.consistent.running name).1 h
    rw [hs.idle] at hmem
    cases hmem
  unstarted := hs.consistent.unstarted
  included name p hp := by
    obtain ⟨b, hb, rfl⟩ := (hs.consistent.ready name p hp).exists_draft
    exact ⟨b, hb, rfl, fun inner hinner =>
      hs.consistent.included b.name p hp inner ⟨b, hb, rfl, hinner⟩⟩
  acyclic name p hp := (hs.consistent.ready name p hp).acyclic hs.nodup

variable (hc : c.Registered)
include hc

/-- A call leaves the library idle. -/
theorem Idle.afterCall (hs : Idle c s) (call : Call)
    (hfit : CopiesFit (Library.afterCall s call).1) : Idle c (Library.afterCall s call) := by
  cases call with
  | addDraft b =>
    rcases afterCall_addDraft s b with h | ⟨l', hok, h⟩ <;> rw [h]
    · exact hs
    · exact ⟨hs.consistent.addDraft hok fun _ _ => id,
        nodup_addDraft hs.consistent.names hok hs.nodup,
        (congrArg Library.running (addDraft_eq_ok hok).2).trans hs.idle⟩
  | load name =>
    have hload := leads_load hc hs.nodup (c.blames_all s.1) hfit hs.consistent hs.idle name
    exact ⟨hload.consistent, hs.nodup, hload.advances.running.trans hs.idle⟩

theorem Idle.afterCalls (hs : Idle c s) :
    ∀ calls : List Call, CopiesFit (calls.foldl Library.afterCall s).1 →
      Idle c (calls.foldl Library.afterCall s) := by
  intro calls
  induction calls generalizing s with
  | nil => exact fun _ => hs
  | cons call calls ih =>
    exact fun hfit => ih (hs.afterCall hc call (hfit.mono (subset_afterCalls calls))) hfit

/-- After calls of a catalog the library is idle. -/
theorem idle_afterCalls {calls : List Call} (hrun : afterCalls c calls = (drafts, l))
    (hfit : CopiesFit drafts) : Idle c (drafts, l) := by
  have hstart : Idle c ([], ofCatalog c) := ⟨consistent_ofCatalog c _, List.nodup_nil, rfl⟩
  have hlast := hstart.afterCalls hc calls
  unfold afterCalls at hrun
  rw [hrun] at hlast
  exact hlast hfit

/-- A load from an idle library only goes through orderly states. -/
theorem Idle.orderly (hs : Idle c (drafts, l)) (hfit : CopiesFit drafts) {name : String}
    {m : Library} (h : Passes l.unstarted name l m) : Orderly drafts l ((load name).run.run l).2 m := by
  have hidle : l.running = [] := hs.idle
  obtain ⟨hm, hkeeps, hfinished⟩ := passed hc hs.nodup (c.blames_all drafts) hfit hs.consistent
    (Nat.le_refl _) (by simp [hidle]) h
  refine ⟨hm.nodup, hm.running, hm.included, hkeeps, fun other hother => ⟨?_, ?_⟩⟩
  · have hrunning := (hm.running other).2 hother
    obtain ⟨x, hx⟩ := hs.consistent.exists_progress?_iff.2 (hm.exists_progress?_iff.1 ⟨_, hrunning⟩)
    cases x with
    | unstarted a => exact ⟨a, hx⟩
    | running => exact absurd hx (hs.settled.notRunning other)
    | ready p => exact nomatch hrunning.symm.trans (hkeeps other (.ready p) trivial hx)
    | failed d => exact nomatch hrunning.symm.trans (hkeeps other (.failed d) trivial hx)
  · rw [state_load]
    exact (hfinished other hother).resolve_left (by simp [hidle])

/-- After any calls, whatever came of them, the library keeps for good what came of blocks. As long
as the occurrences of parameters can be counted, it is settled, no load from there ends in a breach,
and all states in between are orderly. -/
theorem settled_afterCalls {calls : List Call} (hrun : afterCalls c calls = (drafts, l)) :
    (∀ later, l.Keeps (afterCalls c (calls ++ later)).2) ∧
    (CopiesFit drafts → Settled drafts l ∧
      ∀ name, (∀ x, ((load name).run.run l).1 ≠ .error (.breach x)) ∧
        ∀ m, Passes l.unstarted name l m → Orderly drafts l ((load name).run.run l).2 m) := by
  refine ⟨fun later => ?_, fun hfit => ?_⟩
  · unfold afterCalls at hrun ⊢
    rw [List.foldl_append, hrun]
    exact keeps_afterCalls (s := (drafts, l)) later
  · have hs := idle_afterCalls hc hrun hfit
    refine ⟨hs.settled, fun name => ⟨fun x hx => ?_, fun m => hs.orderly hc hfit⟩⟩
    have hload := leads_load hc hs.nodup (c.blames_all drafts) hfit hs.consistent hs.idle name
    obtain ⟨⟨d, hd⟩, -⟩ := hload.rejected _ hx
    cases hd

end Calls

/-! ### A knot

Two blocks include each other, one of them a leaf as well, which is added after they failed. -/

/-- Calls that load a block before what it includes is there. -/
def knotCalls : List Call :=
  [.addDraft ((BlockDraft.new "left").addDeclaration (.new "r" (.block "right"))),
    .addDraft (((BlockDraft.new "right").addDeclaration (.new "l" (.block "left"))).addDeclaration
      (.new "x" (.block "leaf"))),
    .load "left", .addDraft (BlockDraft.new "leaf"),
    .addDraft ((BlockDraft.new "twig").addDeclaration (.new "x" (.block "leaf"))), .load "twig"]

/-- The diagnostic of a block that has failed. -/
def failed? (l : Library) (name : String) : Option Diagnostic :=
  match l.progress? name with
  | some (.failed d) => some d
  | _ => none

theorem failed?_eq_some {l : Library} {name : String} {d : Diagnostic} :
    l.failed? name = some d ↔ l.progress? name = some (.failed d) := by
  unfold failed?
  split
  · rename_i e he
    rw [he]
    simp
  · rename_i hnone
    exact ⟨(nomatch ·), fun h => absurd h (hnone d)⟩

/-- The twig has its plan. The knot keeps its error, also after the leaf is there. -/
theorem settled_afterCalls_knot : ∃ drafts l p d,
    afterCalls Catalog.standard knotCalls = (drafts, l) ∧
      l.progress? "twig" = some (.ready p) ∧ l.progress? "right" = some (.failed d) ∧
        Settled drafts l ∧ ∀ later,
          (afterCalls Catalog.standard (knotCalls ++ later)).2.progress? "right" =
            some (.failed d) := by
  have hrun : ((afterCalls Catalog.standard knotCalls).2.ready? "twig").isSome = true ∧
      ((afterCalls Catalog.standard knotCalls).2.failed? "right").isSome = true := by
    decide +kernel
  obtain ⟨p, hp⟩ := Option.isSome_iff_exists.1 hrun.1
  obtain ⟨d, hd⟩ := Option.isSome_iff_exists.1 hrun.2
  have hfailed : (afterCalls Catalog.standard knotCalls).2.progress? "right" =
      some (.failed d) := by
    unfold failed? at hd
    split at hd
    · rename_i h
      rw [h, Option.some.inj hd]
    · cases hd
  have hcalls : afterCalls Catalog.standard knotCalls = (_, _) := rfl
  have hfit : CopiesFit (afterCalls Catalog.standard knotCalls).1 := by decide +kernel
  obtain ⟨hkeeps, hsettled⟩ := settled_afterCalls (.ofTypes .standard) hcalls
  exact ⟨_, _, p, d, rfl, ready?_eq_some.1 hp, hfailed, (hsettled hfit).1, fun later =>
    hkeeps later "right" (.failed d) trivial hfailed⟩

end Library

end Blockwork
