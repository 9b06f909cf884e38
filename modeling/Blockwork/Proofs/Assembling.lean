import Blockwork.Proofs.AcceptedDrafts

/-!
# Assembling by calls

A part is accepted exactly if what has to differ in the draft still does with it
(`Call.checkOn_eq_ok`), so a whole draft is taken over exactly if it is distinct, and unchanged
(`exists_ofDraft_iff`).

An assembly answers calls, in any order, each of which may fail. Until one of them compiles it, its
draft is what it was with the accepted parts at the ends of its lists. From then on every call is a
breach and nothing changes any more (`calls_exact`).
-/

namespace Blockwork

namespace BlockDraft

variable {b b' : BlockDraft}

theorem any_name_eq_false {α : Type} {f : α → String} {l : List α} {a : α}
    (h : ((l ++ [a]).map f).Nodup) : (l.any fun x => f x == f a) = false := by
  rw [List.map_append, List.nodup_append] at h
  rw [List.any_eq_false]
  intro x hx
  rw [beq_iff_eq]
  exact h.2.2 (f x) (List.mem_map_of_mem hx) (f a) (List.mem_singleton_self _)

/-- Parts can be left out. -/
theorem Distinct.of_sublist (hb : b.Distinct) (hparams : b'.params.Sublist b.params)
    (hdeclarations : b'.declarations.Sublist b.declarations)
    (houtputs : b'.outputs.Sublist b.outputs) : b'.Distinct where
  inputs := hb.inputs.sublist (hparams.map _)
  attributes p hp := hb.attributes p (hparams.subset hp)
  declarations := hb.declarations.sublist (hdeclarations.map _)
  outputs := hb.outputs.sublist (houtputs.map _)

theorem checkParam_eq_ok (hb : b.Distinct) {p : BlockParamDraft} :
    b.checkParam p = .ok () ↔ (b.addParam p).Distinct := by
  constructor
  · exact fun h => hb.acceptParam (bind_eq_ok.2 ⟨(), h, rfl⟩)
  · intro hd
    have hnew : (b.params.any fun q => q.name == p.name) = false := any_name_eq_false hd.inputs
    have hattrs : (p.attributes.map BlockAttrDraft.name).Nodup :=
      hd.attributes p (List.mem_append_right _ (List.mem_singleton_self p))
    unfold checkParam
    rw [if_neg (Bool.eq_false_iff.1 hnew),
      repeated?_eq_none.2 ⟨hattrs, List.disjoint_nil_right _⟩]

theorem checkDeclaration_eq_ok (hb : b.Distinct) {d : DeclarationDraft} :
    b.checkDeclaration d = .ok () ↔ (b.addDeclaration d).Distinct := by
  constructor
  · exact fun h => hb.acceptDeclaration (bind_eq_ok.2 ⟨(), h, rfl⟩)
  · exact fun hd => if_neg (Bool.eq_false_iff.1 (any_name_eq_false hd.declarations))

theorem checkOutput_eq_ok (hb : b.Distinct) {o : OutputDraft} :
    b.checkOutput o = .ok () ↔ (b.addOutput o).Distinct := by
  constructor
  · exact fun h => hb.acceptOutput (bind_eq_ok.2 ⟨(), h, rfl⟩)
  · exact fun hd => if_neg (Bool.eq_false_iff.1 (any_name_eq_false hd.outputs))

end BlockDraft

/-! ## Calls -/

namespace Assembly

/-- A call on an assembly. -/
inductive Call
  | param (p : BlockParamDraft)
  | declaration (d : DeclarationDraft)
  | output (o : OutputDraft)
  | compile
deriving DecidableEq

namespace Call

/-- The draft with the part that the call adds. -/
def addTo : Call → BlockDraft → BlockDraft
  | .param p, b => b.addParam p
  | .declaration d, b => b.addDeclaration d
  | .output o, b => b.addOutput o
  | .compile, b => b

/-- The check of the part that the call adds. -/
def checkOn : Call → BlockDraft → Except Diagnostic Unit
  | .param p, b => b.checkParam p
  | .declaration d, b => b.checkDeclaration d
  | .output o, b => b.checkOutput o
  | .compile, _ => .ok ()

/-- The draft with the part that the call adds, if it is accepted. -/
def acceptTo (c : Call) (b : BlockDraft) : Except Diagnostic BlockDraft := do
  c.checkOn b
  return c.addTo b

/-- The input that the call adds. -/
def param? : Call → Option BlockParamDraft
  | .param p => some p
  | _ => none

/-- The declaration that the call adds. -/
def declaration? : Call → Option DeclarationDraft
  | .declaration d => some d
  | _ => none

/-- The output that the call adds. -/
def output? : Call → Option OutputDraft
  | .output o => some o
  | _ => none

/-- How a closed assembly of a name refuses the call. -/
def refusal (name : String) : Call → Breach
  | .compile => .compiledAgain name
  | _ => .sealedBlock name

variable {b : BlockDraft} {c : Call}

/-- A part is accepted exactly if what has to differ still does. -/
theorem checkOn_eq_ok (hb : b.Distinct) : c.checkOn b = .ok () ↔ (c.addTo b).Distinct := by
  cases c with
  | param p => exact BlockDraft.checkParam_eq_ok hb
  | declaration d => exact BlockDraft.checkDeclaration_eq_ok hb
  | output o => exact BlockDraft.checkOutput_eq_ok hb
  | compile => exact iff_of_true rfl hb

/-- A part that is added takes none away. -/
theorem distinct_of_addTo (h : (c.addTo b).Distinct) : b.Distinct := by
  cases c with
  | param p => exact h.of_sublist (List.sublist_append_left ..) (.refl _) (.refl _)
  | declaration d => exact h.of_sublist (.refl _) (List.sublist_append_left ..) (.refl _)
  | output o => exact h.of_sublist (.refl _) (.refl _) (List.sublist_append_left ..)
  | compile => exact h

/-- Parts go to the ends of the lists, in the order of the calls. -/
theorem foldl_addTo (cs : List Call) (b : BlockDraft) : cs.foldl (fun b c => c.addTo b) b =
    { b with
      params := b.params ++ cs.filterMap param?
      declarations := b.declarations ++ cs.filterMap declaration?
      outputs := b.outputs ++ cs.filterMap output? } := by
  induction cs generalizing b with
  | nil => simp
  | cons c cs ih =>
    rw [List.foldl_cons, ih]
    cases c <;>
      simp [addTo, List.filterMap_cons, param?, declaration?, output?, BlockDraft.addParam,
        BlockDraft.addDeclaration, BlockDraft.addOutput]

theorem distinct_of_foldl_addTo {cs : List Call} :
    ∀ {b : BlockDraft}, (cs.foldl (fun b c => c.addTo b) b).Distinct → b.Distinct := by
  induction cs with
  | nil => exact id
  | cons c cs ih => exact fun h => distinct_of_addTo (ih h)

/-- All parts are accepted, one by one, if what has to differ in the end does. -/
theorem foldlM_acceptTo {cs : List Call} : ∀ {b : BlockDraft},
    (cs.foldl (fun b c => c.addTo b) b).Distinct →
      cs.foldlM (fun b c => c.acceptTo b) b = .ok (cs.foldl (fun b c => c.addTo b) b) := by
  induction cs with
  | nil => exact fun _ => rfl
  | cons c cs ih =>
    intro b h
    have hb : (c.addTo b).Distinct := distinct_of_foldl_addTo h
    rw [List.foldlM_cons, List.foldl_cons]
    have haccept : c.acceptTo b = .ok (c.addTo b) :=
      bind_eq_ok.2 ⟨(), (checkOn_eq_ok (distinct_of_addTo hb)).2 hb, rfl⟩
    exact bind_eq_ok.2 ⟨c.addTo b, haccept, ih h⟩

end Call

/-! ## Taking over a draft -/

/-- The calls that add all parts of a draft. -/
def callsOf (b : BlockDraft) : List Call :=
  b.params.map .param ++ b.declarations.map .declaration ++ b.outputs.map .output

theorem acceptAll_eq (b : BlockDraft) : b.acceptAll = (callsOf b).foldlM (fun b c => c.acceptTo b)
    { b with params := [], declarations := [], outputs := [] } := by
  unfold callsOf
  rw [List.foldlM_append, List.foldlM_append, List.foldlM_map, bind_assoc]
  simp only [List.foldlM_map]
  rfl

theorem foldl_callsOf (b : BlockDraft) : (callsOf b).foldl (fun b c => c.addTo b)
    { b with params := [], declarations := [], outputs := [] } = b := by
  rw [Call.foldl_addTo]
  simp [callsOf, List.filterMap_append, List.filterMap_map, Function.comp_def, Call.param?,
    Call.declaration?, Call.output?]

/-- A draft is taken over exactly if what has to differ in it does. -/
theorem exists_ofDraft_iff {b : BlockDraft} : (∃ a, ofDraft b = .ok a) ↔ b.Distinct := by
  constructor
  · rintro ⟨a, ha⟩
    exact (ofDraft_eq_ok ha).2
  · intro hb
    let bare : BlockDraft := { b with params := [], declarations := [], outputs := [] }
    have hparts : (callsOf b).foldl (fun e c => c.addTo e) bare = b := foldl_callsOf b
    have hall := Call.foldlM_acceptTo (hparts.symm ▸ hb)
    exact ⟨⟨_, .growing⟩, map_eq_ok.2 ⟨_, (acceptAll_eq b).trans hall, rfl⟩⟩

/-! ## Answers -/

/-- The answer of a method that adds a part, and the assembly after the call. -/
def reply (m : Method Assembly Fault Unit) (a : Assembly) :
    Except Fault (Option Plan) × Assembly :=
  ((m.answer a).map fun _ => none, m.after a)

/-- The answer to a call, and the assembly after it, whatever came of the call. -/
def call {σ : Type} (r : Resolver σ) (a : Assembly) :
    Call → StateM σ (Except Fault (Option Plan) × Assembly)
  | .param p => return reply (addParam p) a
  | .declaration d => return reply (addDeclaration d) a
  | .output o => return reply (addOutput o) a
  | .compile => do
    let (result, b) ← a.compile r
    return (result.map some, b)

/-- The answers to calls made one after the other, each with its call, and the assembly after all of
them. -/
def callAll {σ : Type} (r : Resolver σ) :
    List Call → Assembly → StateM σ (List (Call × Except Fault (Option Plan)) × Assembly)
  | [], a => return ([], a)
  | c :: cs, a => do
    let (answer, b) ← a.call r c
    let (answers, e) ← callAll r cs b
    return ((c, answer) :: answers, e)

/-- The calls that succeeded. -/
def accepted (answers : List (Call × Except Fault (Option Plan))) : List Call :=
  (answers.filter fun x => x.2.isOk).map Prod.fst

section Changes

variable {a : Assembly} {check : BlockDraft → Except Diagnostic Unit}
  {add : BlockDraft → BlockDraft}

theorem result_change : (change check add).result a =
    if a.state ≠ .growing then .error (.breach (.sealedBlock a.name))
    else (check a.draft).mapError .rejected >>= fun _ => .ok { a with draft := add a.draft } := by
  unfold change
  rw [Method.result_get_bind, Method.result_ite, Method.result_throw_bind, Method.result_lift_bind]
  rfl

/-- A part that is refused leaves the assembly as it was: all checks come before the change. -/
theorem guarded_change : (change check add).Guarded a :=
  .get_bind (.ite (fun _ => .throw_bind _ _) fun _ => .lift_bind fun _ _ => .modifyGet _)

theorem reply_of_ok {m : Method Assembly Fault Unit} {b : Assembly} (h : m.result a = .ok b) :
    reply m a = (.ok none, b) := by
  obtain ⟨⟨_, hanswer⟩, rfl⟩ := Method.result_eq_ok.1 h
  unfold reply
  rw [hanswer]
  rfl

theorem reply_of_error {m : Method Assembly Fault Unit} (hm : m.Guarded a) {f : Fault}
    (h : m.result a = .error f) : reply m a = (.error f, a) := by
  have hanswer := Method.result_eq_error.1 h
  unfold reply
  rw [hanswer, hm f hanswer]
  rfl

end Changes

section Calls

variable {σ : Type} {r : Resolver σ} {a : Assembly} {c : Call} {s : σ}

/-- A call that adds a part changes the draft after a check of it. -/
theorem call_eq (hc : c ≠ .compile) : a.call r c = pure (reply (change c.checkOn c.addTo) a) := by
  cases c with
  | compile => exact absurd rfl hc
  | _ => rfl

/-- A part that passes the check is added to an open assembly. -/
theorem call_of_accepted (ha : a.state = .growing) (hc : c ≠ .compile)
    (hcheck : c.checkOn a.draft = .ok ()) :
    a.call r c = pure (.ok none, { a with draft := c.addTo a.draft }) := by
  rw [call_eq hc]
  refine congrArg pure (reply_of_ok ?_)
  rw [result_change, if_neg (not_not_intro ha), hcheck]
  rfl

theorem call_of_rejected (ha : a.state = .growing) (hc : c ≠ .compile) {e : Diagnostic}
    (hcheck : c.checkOn a.draft = .error e) : a.call r c = pure (.error (.rejected e), a) := by
  rw [call_eq hc]
  refine congrArg pure (reply_of_error guarded_change ?_)
  rw [result_change, if_neg (not_not_intro ha), hcheck]
  rfl

/-- A closed assembly refuses every call. -/
theorem call_of_closed (ha : a.state ≠ .growing) (c : Call) :
    a.call r c = pure (.error (.breach (c.refusal a.name)), a) := by
  by_cases hc : c = .compile
  · subst hc
    unfold call compile
    rw [if_neg ha]
    rfl
  · have hrefusal : c.refusal a.name = .sealedBlock a.name := by
      cases c with
      | compile => exact absurd rfl hc
      | _ => rfl
    rw [call_eq hc, hrefusal]
    refine congrArg pure (reply_of_error guarded_change ?_)
    rw [result_change, if_pos ha]

/-- Compiling closes an open assembly and leaves its draft. -/
theorem call_compile (ha : a.state = .growing) (s : σ) : ∃ result t,
    (a.call r .compile).run s = ((result.map some, { a with state := stateAfter result }), t) := by
  unfold call compile
  rw [if_pos ha]
  exact ⟨_, _, rfl⟩

theorem run_callAll_cons {cs : List Call} {answer : Except Fault (Option Plan)} {b e : Assembly}
    {answers : List (Call × Except Fault (Option Plan))} {t u : σ}
    (hc : (a.call r c).run s = ((answer, b), t))
    (hcs : (b.callAll r cs).run t = ((answers, e), u)) :
    (a.callAll r (c :: cs)).run s = (((c, answer) :: answers, e), u) := by
  unfold callAll
  rw [StateT.run_bind, hc]
  show (callAll r cs b >>= fun x => pure ((c, answer) :: x.1, x.2)).run t = _
  rw [StateT.run_bind, hcs]
  rfl

/-- What one call does: its part is added or nothing is, and only compiling closes. -/
theorem run_call (ha : a.draft.Distinct) (c : Call) (s : σ) : ∃ answer b t,
    (a.call r c).run s = ((answer, b), t) ∧ b.draft.Distinct ∧
      b.draft = (if answer.isOk then c.addTo a.draft else a.draft) ∧
        (b.state = .growing ↔ a.state = .growing ∧ c ≠ .compile) := by
  by_cases hs : a.state = .growing
  · by_cases hc : c = .compile
    · subst hc
      obtain ⟨result, t, hrun⟩ := call_compile (r := r) hs s
      refine ⟨_, _, _, hrun, ha, (ite_self _).symm, ?_⟩
      cases result <;> simp [stateAfter]
    · cases hcheck : c.checkOn a.draft with
      | ok u =>
        rw [call_of_accepted hs hc hcheck]
        exact ⟨_, _, _, rfl, (Call.checkOn_eq_ok ha).1 hcheck, rfl, by simp [hs, hc]⟩
      | error e =>
        rw [call_of_rejected hs hc hcheck]
        exact ⟨_, _, _, rfl, ha, rfl, by simp [hs, hc]⟩
  · rw [call_of_closed hs]
    exact ⟨_, _, _, rfl, ha, rfl, by simp [hs]⟩

/-- What any number of calls does. -/
theorem run_callAll {cs : List Call} : ∀ {a : Assembly} {s : σ}, a.draft.Distinct →
    ∃ answers e t, (a.callAll r cs).run s = ((answers, e), t) ∧ answers.map Prod.fst = cs ∧
      e.draft.Distinct ∧ e.draft = (accepted answers).foldl (fun b c => c.addTo b) a.draft ∧
        (e.state = .growing ↔ a.state = .growing ∧ .compile ∉ cs) := by
  induction cs with
  | nil =>
    intro a s ha
    exact ⟨[], a, s, rfl, rfl, ha, rfl, by simp⟩
  | cons c cs ih =>
    intro a s ha
    obtain ⟨answer, b, t, hcall, hb, hdraft, hstate⟩ := run_call (r := r) ha c s
    obtain ⟨answers, e, u, hrun, hcalls, he, hdrafts, hstates⟩ := ih (s := t) hb
    refine ⟨_, e, u, run_callAll_cons hcall hrun, by rw [List.map_cons, hcalls], he, ?_, ?_⟩
    · rw [hdrafts, hdraft]
      cases answer <;> rfl
    · rw [hstates, hstate, List.mem_cons, not_or, ne_eq, and_assoc, eq_comm (a := c)]

/-- A closed assembly refuses all further calls, and nothing changes. -/
theorem run_callAll_of_closed (ha : a.state ≠ .growing) (cs : List Call) (s : σ) :
    (a.callAll r cs).run s =
      ((cs.map fun c => (c, .error (.breach (c.refusal a.name))), a), s) := by
  induction cs with
  | nil => rfl
  | cons c cs ih => exact run_callAll_cons (congrArg (·.run s) (call_of_closed ha c)) ih

/-- A part that is not accepted leaves everything as it was. -/
theorem eq_of_run_call_error (hc : c ≠ .compile) {f : Fault} {b : Assembly} {t : σ}
    (h : (a.call r c).run s = ((.error f, b), t)) : b = a ∧ t = s := by
  rw [call_eq hc] at h
  obtain ⟨hreply, rfl⟩ := Prod.ext_iff.1 h
  obtain ⟨hanswer, rfl⟩ := Prod.ext_iff.1 hreply
  refine ⟨?_, rfl⟩
  cases hm : (change c.checkOn c.addTo).answer a with
  | ok u =>
    unfold reply at hanswer
    rw [hm] at hanswer
    cases hanswer
  | error g => exact guarded_change g hm

/-- An open assembly accepts a part exactly if what has to differ still does. -/
theorem exists_run_call_iff (ha : a.draft.Distinct) (hs : a.state = .growing) (hc : c ≠ .compile) :
    (∃ b, (a.call r c).run s = ((.ok none, b), s)) ↔ (c.addTo a.draft).Distinct := by
  rw [← Call.checkOn_eq_ok ha]
  cases hcheck : c.checkOn a.draft with
  | ok u =>
    rw [call_of_accepted hs hc hcheck]
    exact iff_of_true ⟨_, rfl⟩ rfl
  | error e =>
    rw [call_of_rejected hs hc hcheck]
    exact iff_of_false (fun ⟨b, h⟩ => by cases h) fun h => by cases h

end Calls

/-! ## Main result -/

/-- An assembly before any call: one that has a name only, or the parts of a draft. -/
inductive Opened : Assembly → Prop
  | new (name : String) : Opened (.new name)
  | ofDraft {b : BlockDraft} {a : Assembly} (ha : ofDraft b = .ok a) : Opened a

theorem Opened.growing {a : Assembly} (ha : a.Opened) : a.state = .growing ∧ a.draft.Distinct := by
  cases ha with
  | new name => exact ⟨rfl, List.nodup_nil, by simp [Assembly.new, BlockDraft.new], List.nodup_nil,
      List.nodup_nil⟩
  | ofDraft ha =>
    obtain ⟨rfl, hdistinct⟩ := ofDraft_eq_ok ha
    exact ⟨rfl, hdistinct⟩

/-- After any calls, the draft is what it was at the start with the accepted parts at the ends of its
lists, and what has to differ in it does. A part that is refused changes nothing. Until the first
call that compiles, the parts that are accepted are those that leave the draft distinct, and after it
every call is a breach that leaves all as it is. A whole draft is taken over exactly if it is
distinct, and as it is. -/
theorem calls_exact {σ : Type} (r : Resolver σ) :
    (∀ a, Opened a → ∀ (calls : List Call) (s : σ), ∃ answers e t,
      (a.callAll r calls).run s = ((answers, e), t) ∧ answers.map Prod.fst = calls ∧
      e.draft.Distinct ∧
      e.draft = { a.draft with
        params := a.draft.params ++ (accepted answers).filterMap Call.param?
        declarations := a.draft.declarations ++ (accepted answers).filterMap Call.declaration?
        outputs := a.draft.outputs ++ (accepted answers).filterMap Call.output? } ∧
      (∀ c f b u, c ≠ .compile → (e.call r c).run t = ((.error f, b), u) → b = e ∧ u = t) ∧
      (.compile ∉ calls → e.state = .growing ∧ ∀ c, c ≠ .compile →
        ((∃ b, (e.call r c).run t = ((.ok none, b), t)) ↔ (c.addTo e.draft).Distinct)) ∧
      (.compile ∈ calls → e.state ≠ .growing ∧ ∀ more, (e.callAll r more).run t =
        ((more.map fun c => (c, .error (.breach (c.refusal e.name))), e), t))) ∧
    ∀ b, ((∃ a, ofDraft b = .ok a) ↔ b.Distinct) ∧
      ∀ a, ofDraft b = .ok a → a.draft = b ∧ a.state = .growing := by
  refine ⟨fun a ha calls s => ?_, fun b => ⟨exists_ofDraft_iff, fun a ha => ?_⟩⟩
  · obtain ⟨hgrowing, hdistinct⟩ := ha.growing
    obtain ⟨answers, e, t, hrun, hcalls, he, hdraft, hstate⟩ := run_callAll (r := r) (s := s) hdistinct
    rw [Call.foldl_addTo] at hdraft
    refine ⟨answers, e, t, hrun, hcalls, he, hdraft, fun c f b u hc => eq_of_run_call_error hc,
      fun hopen => ?_, fun hclosed => ?_⟩
    · have hs := hstate.2 ⟨hgrowing, hopen⟩
      exact ⟨hs, fun c => exists_run_call_iff he hs⟩
    · have hs : e.state ≠ .growing := fun hs => (hstate.1 hs).2 hclosed
      exact ⟨hs, fun more => run_callAll_of_closed hs more t⟩
  · obtain ⟨rfl, -⟩ := ofDraft_eq_ok ha
    exact ⟨rfl, rfl⟩

/-- An input, the same once more, an output, and one that comes too late. -/
def relayCalls : List Call := [
  .param ⟨"x", none, [⟨"value", none⟩]⟩, .param ⟨"x", none, []⟩, .output ⟨"out", "@x.value", none⟩,
  .compile, .output ⟨"late", "@x.value", none⟩]

/-- Of the two inputs and the two outputs one each is accepted, and the calls made once more are all
refused. -/
theorem calls_exact_relay : ∃ answers e, ((Assembly.new "b").callAll Catalog.standard.resolver
      relayCalls).run () = ((answers, e), ()) ∧
    e = ⟨(BlockDraft.new "b" |>.addParam ⟨"x", none, [⟨"value", none⟩]⟩).addOutput
      ⟨"out", "@x.value", none⟩, .compiled⟩ ∧
    (e.callAll Catalog.standard.resolver relayCalls).run () =
      ((relayCalls.map fun c => (c, .error (.breach (c.refusal "b"))), e), ()) := by
  obtain ⟨answers, e, ⟨⟩, hrun, -, -, -, -, -, hclosed⟩ :=
    (calls_exact Catalog.standard.resolver).1 (Assembly.new "b") (.new "b") relayCalls ()
  have he : (((Assembly.new "b").callAll Catalog.standard.resolver relayCalls).run ()).1.2 =
      ⟨(BlockDraft.new "b" |>.addParam ⟨"x", none, [⟨"value", none⟩]⟩).addOutput
        ⟨"out", "@x.value", none⟩, .compiled⟩ := by decide +kernel
  rw [hrun] at he
  obtain rfl : e = _ := he
  exact ⟨answers, _, hrun, rfl, (hclosed (by decide)).2 relayCalls⟩

end Assembly

end Blockwork
