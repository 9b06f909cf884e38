import Blockwork.Proofs.PathBound
import Blockwork.Proofs.Safety

/-!
# Recursions without a bound

The types of inputs and outputs are found by going along pipelines from one target to the next, and
a pipeline is frozen by freezing the pipelines beside it. None of these recursions keeps a record of
where it has been. Each is taken here with its depth cut off at a bound, and `EndsWithin` says that
from some bound on it is never cut off and always gives the same answer.

Going on and going back end since each step leads to a later or to an earlier stage of the execution
order (`stage_lt`). Freezing ends whatever is linked to what, since it goes on from an output only
after it has emptied the list of pipelines there (`openOutputs_recordResult_lt`), and the answer is
the one of the list of tasks (`agrees_freezeWithin`).
-/

namespace Blockwork

variable {α β σ : Type}

/-! ## Runs cut off -/

/-- Two runs give the same answer and neither was cut off. -/
def Agrees (x y : Except Fault α) : Prop :=
  x = y ∧ x ≠ .error (.breach .endlessPipeline)

/-- The recursion cut off at a depth is not so from `bound` on, and gives the same answer at every
greater depth. -/
def EndsWithin (f : Nat → Except Fault α) (bound : Nat) : Prop :=
  ∀ depth, bound ≤ depth → f depth = f bound ∧ f depth ≠ .error (.breach .endlessPipeline)

namespace Agrees

variable {x y : Except Fault α}

theorem ok (a : α) : Agrees (.ok a) (.ok a) :=
  ⟨rfl, fun h => nomatch h⟩

theorem reject (c : Cause) (location : Location) :
    Agrees (Blockwork.reject c location : Except Fault α) (Blockwork.reject c location) :=
  ⟨rfl, fun h => nomatch h⟩

theorem require (o : Option α) :
    Agrees (Blockwork.require .outOfRange o) (Blockwork.require .outOfRange o) := by
  refine ⟨rfl, ?_⟩
  cases o <;> simp [Blockwork.require]

theorem bind {f g : α → Except Fault β} (hx : Agrees x y)
    (hf : ∀ a, x = .ok a → Agrees (f a) (g a)) : Agrees (x >>= f) (y >>= g) := by
  obtain ⟨rfl, hx⟩ := hx
  cases x with
  | error e => exact ⟨rfl, fun h => hx (congrArg Except.error (Except.error.inj h))⟩
  | ok a => exact hf a rfl

/-- Runs agree if their steps do, wherever the steps before may have led. -/
theorem foldlM {f g : σ → α → Except Fault σ} (P : σ → Prop) :
    ∀ {l : List α} {s : σ}, P s →
      (∀ a ∈ l, ∀ s, P s → Agrees (f s a) (g s a) ∧ ∀ s', f s a = .ok s' → P s') →
      Agrees (l.foldlM f s) (l.foldlM g s)
  | [], s, _, _ => ok s
  | a :: l, s, hs, h => by
    rw [List.foldlM_cons, List.foldlM_cons]
    obtain ⟨hstep, hnext⟩ := h a List.mem_cons_self s hs
    exact hstep.bind fun s' hs' =>
      foldlM P (hnext s' hs') fun b hb => h b (List.mem_cons_of_mem a hb)

theorem foldlM_all {f g : σ → α → Except Fault σ} {l : List α} {s : σ}
    (h : ∀ a ∈ l, ∀ s, Agrees (f s a) (g s a)) : Agrees (l.foldlM f s) (l.foldlM g s) :=
  foldlM (fun _ => True) trivial fun a ha s _ => ⟨h a ha s, fun _ _ => trivial⟩

theorem endsWithin {f : Nat → Except Fault α} {bound : Nat}
    (h : ∀ depth, bound ≤ depth → Agrees (f depth) y) : EndsWithin f bound := fun depth hdepth =>
  ⟨(h depth hdepth).1.trans (h bound (Nat.le_refl _)).1.symm, (h depth hdepth).2⟩

end Agrees

namespace Network

variable {n : Network} {order : List Nat} {t u : Target}

/-! ## Going on and going back -/

/-- What flows to the first target flows on to the second one, over a pipeline that refers to the
first and feeds the second. -/
def FlowsOn (n : Network) (t u : Target) : Prop :=
  ∃ r ∈ n.referrers t, u ∈ n.fedOutputs r

/-- The type of the first target draws on that of the second one, to which a pipeline into the first
refers. -/
def DrawsOn (n : Network) : Target → Target → Prop
  | .input _, _ => False
  | .output id, u => ∃ o s p a, n.output? id = some o ∧ (p, a) ∈ o.fedBy ∧
      n.slot? ⟨id.declaration, p, a⟩ = some s ∧ s.binding = .reference u

/-- What flows on does so over an attribute that refers to where it comes from. -/
theorem FlowsOn.exists_slot (h : n.FlowsOn t u) : ∃ x s k, n.slot? x = some s ∧
    s.binding = .reference t ∧ k ∈ s.feeds ∧ u = .output ⟨x.declaration, k⟩ := by
  obtain ⟨r, hr, hu⟩ := h
  rw [fedOutputs_eq] at hu
  obtain ⟨x, hx, rfl⟩ := List.mem_map.1 hu
  obtain ⟨rfl, s, hs, hk⟩ := mem_pipelines.1 hx
  simp only [referrers, List.mem_append, List.mem_map, List.mem_filter, beq_iff_eq,
    Binding.target?_eq_some, Prod.exists, Referrer.slot.injEq, reduceCtorEq, and_false,
    exists_false, or_false] at hr
  obtain ⟨_, s', ⟨hmem, ht⟩, rfl⟩ := hr
  obtain rfl := Option.some.inj (hs.symm.trans (slot?_of_mem_slots hmem))
  exact ⟨x.1, s, x.2, hs, ht, hk, rfl⟩

/-- Going on ends if each step lowers a measure. -/
theorem agrees_visit {step : σ → Referrer → Except Fault σ}
    (hstep : ∀ s r, Agrees (step s r) (step s r)) {P : Target → Prop} {measure : Target → Nat}
    (hlower : ∀ t u, P t → n.FlowsOn t u → P u ∧ measure u < measure t) :
    ∀ {b c : Nat} {t : Target} {s : σ}, P t → measure t < b → measure t < c →
      Agrees (n.visit n.referrerTable step b t s) (n.visit n.referrerTable step c t s)
  | 0, _, _, _, _, hb, _ => absurd hb (Nat.not_lt_zero _)
  | _ + 1, 0, _, _, _, _, hc => absurd hc (Nat.not_lt_zero _)
  | b + 1, c + 1, t, s, ht, hb, hc => by
    unfold visit
    rw [referrersFrom_referrerTable]
    refine Agrees.foldlM_all fun r hr s => (hstep s r).bind fun s _ => ?_
    refine Agrees.foldlM_all fun u hu s => ?_
    obtain ⟨hP, hlt⟩ := hlower t u ht ⟨r, hr, hu⟩
    exact agrees_visit hstep hlower hP (by omega) (by omega)

/-- Going back ends if each step lowers a measure. -/
theorem agrees_providedWithin {measure : Target → Nat}
    (hlower : ∀ t u, n.DrawsOn t u → measure u < measure t) :
    ∀ {b c : Nat} {t : Target}, measure t < b → measure t < c →
      Agrees (n.providedWithin b t) (n.providedWithin c t)
  | 0, _, _, hb, _ => absurd hb (Nat.not_lt_zero _)
  | _ + 1, 0, _, _, hc => absurd hc (Nat.not_lt_zero _)
  | _ + 1, _ + 1, .input _, _, _ => by
    unfold providedWithin
    exact (Agrees.require _).bind fun i _ => .ok i.type
  | b + 1, c + 1, .output id, hb, hc => by
    rw [providedWithin_output, providedWithin_output]
    refine (Agrees.require _).bind fun d hd => (Agrees.require _).bind fun o ho => ?_
    refine (Agrees.foldlM_all fun x hx result => ?_).bind fun _ _ => .ok _
    unfold widenCarried
    refine (Agrees.require _).bind fun s hs => Agrees.bind ?_ fun _ _ => .ok _
    rw [require_eq_ok] at hd ho hs
    unfold carriedWithin
    split
    · rename_i u hu
      have hlt := hlower (.output id) u ⟨o, s, x.1, x.2, output?_eq_some.2 ⟨d, hd, ho⟩, hx,
        slot?_eq_some.2 ⟨d, hd, hs⟩, hu⟩
      exact agrees_providedWithin hlower (by omega) (by omega)
    · exact .ok _

theorem agrees_addReferrer (n : Network) (input : InputId) (typing : InputTyping) (r : Referrer) :
    Agrees (n.addReferrer input typing r) (n.addReferrer input typing r) := by
  cases r with
  | blockOutput => exact .ok _
  | slot id =>
    refine (Agrees.require _).bind fun s _ => ?_
    split
    · exact .ok _
    · exact .reject _ _

/-! ## Stages of the execution order -/

/-- Where a target stands in the order of execution. Inputs stand before all declarations. -/
def stage (order : List Nat) : Target → Nat
  | .input _ => 0
  | .output id => if id.declaration ∈ order then order.idxOf id.declaration + 1 else 0

theorem stage_of_mem {id : OutputId} (h : id.declaration ∈ order) :
    stage order (.output id) = order.idxOf id.declaration + 1 :=
  if_pos h

theorem stage_of_not_mem {id : OutputId} (h : id.declaration ∉ order) :
    stage order (.output id) = 0 :=
  if_neg h

theorem stage_le (order : List Nat) (t : Target) : stage order t ≤ order.length := by
  cases t with
  | input => exact Nat.zero_le _
  | output id =>
    by_cases hmem : id.declaration ∈ order
    · rw [stage_of_mem hmem]
      exact List.idxOf_lt_length_of_mem hmem
    · rw [stage_of_not_mem hmem]
      exact Nat.zero_le _

/-- What an attribute refers to stands before the outputs of its declaration. -/
theorem stage_lt (h : n.sort = .ok order) {x : SlotId} {s : Slot} (hs : n.slot? x = some s)
    (ht : s.binding = .reference t) (k : Nat) :
    stage order t < stage order (.output ⟨x.declaration, k⟩) := by
  obtain ⟨d, hd, hs⟩ := slot?_eq_some.1 hs
  have hn := forward_of_sort h
  have hmem : x.declaration ∈ order := hn.mem_order hd
  obtain ⟨before, after, hsplit, hnew, hbefore⟩ := hn.exists_split hmem
  replace hsplit : order = before ++ x.declaration :: after := hsplit
  have hat : order.idxOf x.declaration = before.length := by
    rw [hsplit, List.idxOf_append_of_notMem hnew, List.idxOf_cons_self, Nat.add_zero]
  rw [stage_of_mem hmem, hat]
  cases t with
  | input => exact Nat.zero_lt_succ _
  | output id =>
    by_cases hid : id.declaration ∈ order
    · have hdep : n.dependsOn x.declaration id.declaration = true :=
        dependsOn_iff.2 ⟨d, hd, Declaration.mem_referredTo.2 ⟨_, _, s, id.output, hs, ht⟩⟩
      have hearlier : id.declaration ∈ before := hbefore id.declaration hid hdep
      have := List.idxOf_lt_length_of_mem hearlier
      rw [stage_of_mem hid, hsplit, List.idxOf_append_of_mem hearlier]
      omega
    · rw [stage_of_not_mem hid]
      exact Nat.zero_lt_succ _

/-- Going on leads to a later stage. -/
theorem FlowsOn.stage_lt (h : n.sort = .ok order) (hflows : n.FlowsOn t u) :
    stage order t < stage order u := by
  obtain ⟨x, s, k, hs, ht, -, rfl⟩ := hflows.exists_slot
  exact Network.stage_lt h hs ht k

/-- Going back leads to an earlier stage. -/
theorem DrawsOn.stage_lt (h : n.sort = .ok order) (hdraws : n.DrawsOn t u) :
    stage order u < stage order t := by
  cases t with
  | input => exact hdraws.elim
  | output id =>
    obtain ⟨o, s, p, a, -, -, hs, hu⟩ := hdraws
    exact Network.stage_lt h hs hu id.output

theorem length_of_sort (h : n.sort = .ok order) : order.length = n.declarations.length := by
  have hperm := (forward_of_sort h).perm.length_eq
  rwa [positions, List.length_range] at hperm

/-- From any target, going on ends before it has been through more stages than there are
declarations. -/
theorem endsWithin_visit (h : n.sort = .ok order) (input : InputId) (t : Target)
    (typing : InputTyping) :
    EndsWithin (fun depth => n.visit n.referrerTable (n.addReferrer input) depth t typing)
      (n.declarations.length + 1) := by
  have hlength := length_of_sort h
  have hlower : ∀ t u, True → n.FlowsOn t u →
      True ∧ order.length - stage order u < order.length - stage order t := by
    intro t u _ hflows
    have := hflows.stage_lt h
    have := stage_le order u
    exact ⟨trivial, by omega⟩
  exact Agrees.endsWithin fun depth hdepth => agrees_visit (n.agrees_addReferrer input) hlower
    trivial (c := n.declarations.length + 1) (by omega) (by omega)

/-- From any target, going back ends before it has been through more stages than there are
declarations. -/
theorem endsWithin_providedWithin (h : n.sort = .ok order) (t : Target) :
    EndsWithin (fun depth => n.providedWithin depth t) (n.declarations.length + 1) := by
  have := length_of_sort h
  have := stage_le order t
  exact Agrees.endsWithin fun depth hdepth => agrees_providedWithin
    (fun t u hdraws => hdraws.stage_lt h) (c := n.declarations.length + 1) (by omega) (by omega)

/-! ## The bound on paths -/

open Classical in
/-- The depth of a target that is there, in the order that was found. -/
noncomputable def depthIn (n : Network) (order : List Nat) (t : Target) : Nat :=
  if n.HasTarget t then ({ n with order } : Network).depth t else 0

/-- The bound on paths is enough for going back, from any target. -/
theorem endsWithin_pathBound (h : n.sort = .ok order) (t : Target) :
    EndsWithin (fun depth => n.providedWithin depth t) n.pathBound := by
  have hn := forward_of_sort h
  have hlower : ∀ t u, n.DrawsOn t u → n.depthIn order u < n.depthIn order t := by
    intro t u hdraws
    cases t with
    | input => exact hdraws.elim
    | output id =>
      obtain ⟨o, s, p, a, ho, -, hs, hu⟩ := hdraws
      have ht : n.HasTarget (.output id) := ⟨o.type, congrArg (Option.map Output.type) ho⟩
      unfold depthIn
      rw [if_pos ht]
      split
      · rename_i htarget
        exact depth_lt hn (n := { n with order }) hs hu htarget id.output
      · exact Nat.zero_lt_succ _
  have hbound : n.depthIn order t < n.pathBound := by
    unfold depthIn
    split
    · rename_i ht
      exact depth_lt_pathBound hn (t := t) ht
    · exact Nat.zero_lt_succ _
  exact Agrees.endsWithin fun depth hdepth => agrees_providedWithin hlower (c := n.pathBound)
    (by omega) hbound

/-- The bound on paths is enough for going on from a target that is there, if pipelines lead to
outputs that are there. -/
theorem endsWithin_visit_pathBound (h : n.sort = .ok order) (hlinks : n.LinksFound)
    (input : InputId) (ht : n.HasTarget t) (typing : InputTyping) :
    EndsWithin (fun depth => n.visit n.referrerTable (n.addReferrer input) depth t typing)
      n.pathBound := by
  have hn := forward_of_sort h
  have hlower : ∀ t u, n.HasTarget t → n.FlowsOn t u →
      n.HasTarget u ∧ ({ n with order } : Network).height u < ({ n with order } : Network).height t := by
    intro t u ht hflows
    obtain ⟨x, s, k, hs, hbinding, hk, rfl⟩ := hflows.exists_slot
    obtain ⟨d, hd, hslot⟩ := slot?_eq_some.1 hs
    have hlt := (hlinks _ d hd).feeds _ _ s hslot k hk
    have ho : n.output? ⟨x.declaration, k⟩ = some d.outputs[k] :=
      output?_eq_some.2 ⟨d, hd, List.getElem?_eq_getElem hlt⟩
    exact ⟨⟨_, congrArg (Option.map Output.type) ho⟩,
      height_lt hn (n := { n with order }) hs hbinding ht rfl ho⟩
  have hbound : ({ n with order } : Network).height t < n.pathBound := height_lt_pathBound _ t
  exact Agrees.endsWithin fun depth hdepth => agrees_visit (n.agrees_addReferrer input) hlower ht
    (Nat.lt_of_lt_of_le hbound hdepth) hbound

end Network

/-! ## Freezing -/

namespace Declaration

variable {types : Hierarchy} {type : ClassType} {d d' : Declaration}

/-- An attribute frozen by a type: its links are cut, the outputs it fed record the type and lose
their pipelines, and these are frozen in turn, as a recursion that is cut off at a depth. -/
def freezeWithin (types : Hierarchy) (type : ClassType) :
    Nat → Nat × Nat → Declaration → Except Fault Declaration
  | 0, _, _ => .error (.breach .endlessPipeline)
  | depth + 1, (param, attr), d => do
    let s ← require .outOfRange (d.slot? param attr)
    if s.frozen.any fun t => types.assignable type t then return d
    match types.merge type s.type with
    | .error e =>
      reject (.pipelineConflict (d.slotName param attr) (types.describe s.type)
        (types.describe type) e) d.location
    | .ok merged =>
      s.feeds.foldlM
        (fun d output => do
          let o ← require .outOfRange d.outputs[output]?
          o.fedBy.foldlM (fun d x => freezeWithin types type depth x d)
            (d.recordResult types output type))
        (d.freezeSlot param attr merged)

/-- The number of outputs that pipelines lead into. -/
def openOutputs (d : Declaration) : Nat :=
  d.outputs.countP Output.isPipeline

theorem openOutputs_recordResult {k : Nat} {o : Output} (ho : d.outputs[k]? = some o) :
    (d.recordResult types k type).openOutputs =
      d.openOutputs - if o.isPipeline = true then 1 else 0 := by
  obtain ⟨hk, rfl⟩ := List.getElem?_eq_some_iff.1 ho
  unfold openOutputs recordResult modifyOutput
  rw [List.modify_eq_set_getElem?, ho]
  show List.countP _ (d.outputs.set k _) = _
  rw [List.countP_set hk]
  rfl

/-- Before freezing goes on from an output, there is one less that pipelines lead into. -/
theorem openOutputs_recordResult_lt (types : Hierarchy) (type : ClassType) {k : Nat} {o : Output}
    (ho : d.outputs[k]? = some o) (hfed : o.fedBy ≠ []) :
    (d.recordResult types k type).openOutputs < d.openOutputs := by
  have hpipeline : o.isPipeline = true := by simp [Output.isPipeline, hfed]
  have hpos : 0 < d.openOutputs := List.countP_pos_iff.2 ⟨o, List.mem_of_getElem? ho, hpipeline⟩
  rw [openOutputs_recordResult ho, if_pos hpipeline]
  omega

theorem openOutputs_recordResult_le {k : Nat} {o : Output} (ho : d.outputs[k]? = some o) :
    (d.recordResult types k type).openOutputs ≤ d.openOutputs := by
  rw [openOutputs_recordResult ho]
  exact Nat.sub_le ..

theorem openOutputs_freeze_le {tasks : List FreezeTask}
    (h : d.freeze types type tasks = .ok d') : d'.openOutputs ≤ d.openOutputs :=
  freeze_invariant (fun _ e => e.openOutputs ≤ d.openOutputs)
    (fun _ _ _ _ _ _ _ _ _ he => he)
    (fun _ _ _ _ _ _ _ _ _ he => he)
    (fun _ _ _ _ ho he => Nat.le_trans (openOutputs_recordResult_le ho) he) (Nat.le_refl _) h

/-! ### Tasks one after the other -/

theorem freeze_nil (d : Declaration) : d.freeze types type [] = .ok d := by
  unfold freeze
  rfl

theorem freeze_slot (d : Declaration) (p a : Nat) (rest : List FreezeTask) :
    d.freeze types type (.slot p a :: rest) = (do
      let s ← require .outOfRange (d.slot? p a)
      if s.frozen.any fun t => types.assignable type t then d.freeze types type rest
      else
        match types.merge type s.type with
        | .error e =>
          reject (.pipelineConflict (d.slotName p a) (types.describe s.type)
            (types.describe type) e) d.location
        | .ok merged =>
          (d.freezeSlot p a merged).freeze types type (s.feeds.map .output ++ rest)) := by
  rw [freeze]
  split
  · rename_i hs
    rw [hs]
    rfl
  · rename_i s hs
    rw [hs]
    rfl

theorem freeze_output (d : Declaration) (k : Nat) (rest : List FreezeTask) :
    d.freeze types type (.output k :: rest) = (do
      let o ← require .outOfRange d.outputs[k]?
      (d.recordResult types k type).freeze types type
        (o.fedBy.map (fun x => .slot x.1 x.2) ++ rest)) := by
  rw [freeze]
  split
  · rename_i ho
    rw [ho]
    rfl
  · rename_i o ho
    rw [ho]
    rfl

/-- Tasks may be done one after the other. -/
theorem freeze_append (before after : List FreezeTask) (d : Declaration) :
    d.freeze types type (before ++ after) =
      d.freeze types type before >>= fun d => d.freeze types type after := by
  fun_induction freeze types type before d with
  | case1 d => rfl
  | case2 d p a rest hs =>
    rw [List.cons_append, freeze_slot, hs]
    rfl
  | case3 d p a rest s hs hfrozen ih =>
    rw [List.cons_append, freeze_slot, hs, ← ih]
    exact if_pos hfrozen
  | case4 d p a rest s hs hfrozen e hmerge =>
    rw [List.cons_append, freeze_slot, hs]
    refine (if_neg hfrozen).trans ?_
    rw [hmerge]
    rfl
  | case5 d p a rest s hs hfrozen merged hmerge ih =>
    rw [List.cons_append, freeze_slot, hs, ← ih]
    refine (if_neg hfrozen).trans ?_
    rw [hmerge, List.append_assoc]
  | case6 d k rest ho =>
    rw [List.cons_append, freeze_output, ho]
    rfl
  | case7 d k rest o ho ih =>
    simp only [List.map_attach_eq_pmap, List.pmap_eq_map] at ih ⊢
    rw [List.cons_append, freeze_output, ho, ← ih, List.append_assoc]
    rfl

/-- Tasks of one kind are done one after the other. -/
theorem freeze_map (task : α → FreezeTask) :
    ∀ (l : List α) (d : Declaration), d.freeze types type (l.map task) =
      l.foldlM (fun d x => d.freeze types type [task x]) d
  | [], d => freeze_nil d
  | x :: l, d => by
    rw [List.map_cons, List.foldlM_cons, ← List.singleton_append, freeze_append]
    exact congrArg _ (funext fun d => freeze_map task l d)

/-- Freezing at an output, by a recursion `f` that freezes at an attribute wherever fewer than
`depth` outputs are open. -/
theorem agrees_freeze_output {f : Nat × Nat → Declaration → Except Fault Declaration} {depth : Nat}
    (hf : ∀ x d, d.openOutputs < depth → Agrees (f x d) (d.freeze types type [.slot x.1 x.2]))
    (hd : d.openOutputs ≤ depth) (k : Nat) :
    Agrees (do
        let o ← require .outOfRange d.outputs[k]?
        o.fedBy.foldlM (fun d x => f x d) (d.recordResult types k type))
      (d.freeze types type [.output k]) := by
  rw [freeze_output]
  refine (Agrees.require _).bind fun o ho => ?_
  rw [List.append_nil, freeze_map]
  -- Where there is something to go on with, an output was open and is so no longer.
  by_cases hnil : o.fedBy = []
  · rw [hnil]
    exact .ok _
  · have hlt := openOutputs_recordResult_lt types type (require_eq_ok.1 ho) hnil
    refine Agrees.foldlM (fun d => d.openOutputs < depth) (by omega) fun x _ e he => ?_
    have hagrees := hf x e he
    exact ⟨hagrees, fun e' he' => Nat.lt_of_le_of_lt
      (openOutputs_freeze_le (hagrees.1.symm.trans he')) he⟩

/-- Freezing at an attribute is the recursion from it, as far as the bound exceeds the number of
outputs that pipelines lead into. -/
theorem agrees_freezeWithin : ∀ {depth : Nat} {x : Nat × Nat} {d : Declaration},
    d.openOutputs < depth →
      Agrees (freezeWithin types type depth x d) (d.freeze types type [.slot x.1 x.2])
  | 0, _, _, h => absurd h (Nat.not_lt_zero _)
  | depth + 1, (p, a), d, h => by
    rw [freeze_slot]
    unfold freezeWithin
    refine (Agrees.require _).bind fun s _ => ?_
    split
    · rw [freeze_nil]
      exact .ok d
    · split
      · exact .reject _ _
      · rename_i merged _
        rw [List.append_nil, freeze_map]
        refine Agrees.foldlM (fun d => d.openOutputs ≤ depth)
          (Nat.le_of_lt_succ h) fun k _ d hd => ?_
        have hagrees := agrees_freeze_output (fun x d => agrees_freezeWithin (x := x)) hd k
        exact ⟨hagrees, fun d' hd' => Nat.le_trans
          (openOutputs_freeze_le (hagrees.1.symm.trans hd')) hd⟩

theorem endsWithin_freezeWithin (d : Declaration) (x : Nat × Nat) :
    EndsWithin (fun depth => freezeWithin types type depth x d) (d.openOutputs + 1) :=
  Agrees.endsWithin fun _ hdepth => agrees_freezeWithin (Nat.lt_of_succ_le hdepth)

end Declaration

/-! ## All recursions -/

/-- In every network that has an execution order, going on along pipelines leads to later stages and
going back to earlier ones, and both end from every target, within a depth that depends on the
network alone. Freezing ends in every declaration, as it goes on from an output only when one less
is open. -/
theorem type_recursions_end :
    (∀ (n : Network) (order : List Nat), n.sort = .ok order →
      (∀ t u, n.FlowsOn t u → Network.stage order t < Network.stage order u) ∧
      (∀ t u, n.DrawsOn t u → Network.stage order u < Network.stage order t) ∧
      (∀ input t typing, EndsWithin
        (fun depth => n.visit n.referrerTable (n.addReferrer input) depth t typing)
        (n.declarations.length + 1)) ∧
      (∀ t, EndsWithin (fun depth => n.providedWithin depth t) (n.declarations.length + 1)) ∧
      (∀ t, EndsWithin (fun depth => n.providedWithin depth t) n.pathBound) ∧
      (n.LinksFound → ∀ input t typing, n.HasTarget t → EndsWithin
        (fun depth => n.visit n.referrerTable (n.addReferrer input) depth t typing)
        n.pathBound)) ∧
    ∀ (d : Declaration) (types : Hierarchy) (type : ClassType) (x : Nat × Nat),
      EndsWithin (fun depth => Declaration.freezeWithin types type depth x d)
        (d.openOutputs + 1) ∧
      Declaration.freezeWithin types type (d.openOutputs + 1) x d =
        d.freeze types type [.slot x.1 x.2] ∧
      ∀ (k : Nat) (o : Output), d.outputs[k]? = some o → o.fedBy ≠ [] →
        (d.recordResult types k type).openOutputs < d.openOutputs := by
  refine ⟨fun n order h => ⟨fun t u hflows => hflows.stage_lt h, fun t u hdraws => hdraws.stage_lt h,
    Network.endsWithin_visit h, Network.endsWithin_providedWithin h,
    Network.endsWithin_pathBound h, fun hlinks input t typing ht =>
      Network.endsWithin_visit_pathBound h hlinks input ht typing⟩, fun d types type x => ?_⟩
  refine ⟨d.endsWithin_freezeWithin x, ?_, fun k o =>
    Declaration.openOutputs_recordResult_lt types type⟩
  exact (Declaration.agrees_freezeWithin (Nat.lt_succ_self _)).1

/-- A declaration with two pipelines, both into both of its outputs, so that each is linked to the
other in a circle. -/
def crossing (name : String) (left right : Target) : Declaration where
  name
  specification := ⟨"Cross", false,
    ⟨[⟨"in", .any, [⟨"left", ClassType.object, none, [0, 1], none⟩,
        ⟨"right", ClassType.object, none, [0, 1], none⟩], false, none⟩],
      [⟨"first", ClassType.object, none⟩, ⟨"second", ClassType.object, none⟩]⟩⟩
  location := .unknown
  doc := none
  parameters := [⟨"in", 0,
    [⟨"left", none, .reference left, ClassType.object, none, [0, 1]⟩,
      ⟨"right", none, .reference right, ClassType.object, none, [0, 1]⟩]⟩]
  outputs := [⟨"first", s!"@{name}.first", ClassType.object, none, [(0, 0), (0, 1)], none⟩,
    ⟨"second", s!"@{name}.second", ClassType.object, none, [(0, 0), (0, 1)], none⟩]

/-- Two of them, the first of which refers to the second. -/
def crossings : Network where
  name := "b"
  location := .unknown
  doc := none
  types := .root
  declarations := [crossing "late" (.output ⟨1, 0⟩) (.output ⟨1, 1⟩),
    crossing "early" (.input ⟨0, 0⟩) (.input ⟨0, 0⟩)]
  order := [0, 1]
  params := [⟨"p", .any, [⟨"x", "@p.x", ClassType.object, [], none⟩], none⟩]
  outputs := [⟨"out", "@late.first", some (.output ⟨0, 0⟩), none, none⟩]

/-- The input reaches the output of the block in four ways, none of them longer than three steps, and
freezing in a circle ends as well. -/
theorem type_recursions_end_crossings :
    crossings.sort = .ok [1, 0] ∧
    EndsWithin (fun depth => crossings.visit crossings.referrerTable
      (crossings.addReferrer ⟨0, 0⟩) depth (.input ⟨0, 0⟩) ⟨ClassType.object, []⟩) 3 ∧
    EndsWithin (fun depth => crossings.providedWithin depth (.output ⟨0, 0⟩)) 3 ∧
    EndsWithin (fun depth => Declaration.freezeWithin crossings.types ClassType.object depth (0, 0)
      (crossing "early" (.input ⟨0, 0⟩) (.input ⟨0, 0⟩))) 3 := by
  have hrun : crossings.sort.toOption = some [1, 0] := by decide +kernel
  have hsort := toOption_eq_some.1 hrun
  obtain ⟨-, -, hon, hback, -⟩ := type_recursions_end.1 crossings [1, 0] hsort
  have hfreeze := (type_recursions_end.2 (crossing "early" (.input ⟨0, 0⟩) (.input ⟨0, 0⟩))
    crossings.types ClassType.object (0, 0)).1
  exact ⟨hsort, hon ⟨0, 0⟩ (.input ⟨0, 0⟩) ⟨ClassType.object, []⟩, hback (.output ⟨0, 0⟩), hfreeze⟩

end Blockwork
