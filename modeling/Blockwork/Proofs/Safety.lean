import Blockwork.Proofs.InferenceOrder
import Blockwork.Proofs.OccurrenceCounts

/-!
# No breaches

A run is safe if it gives a result or rejects the input, and never ends in a breach. All stages that
complete a linked network are safe (`WellLinked.safe_complete`): positions are in range, no
multiplicity is divided by zero, and no path over open pipelines is longer than its bound.
-/

namespace Blockwork

variable {α β σ : Type}

/-- The run does not end in a breach. -/
def Safe (x : Except Fault α) : Prop :=
  ∀ b, x ≠ .error (.breach b)

namespace Safe

theorem ok (a : α) : Safe (.ok a) :=
  fun _ h => nomatch h

theorem reject (c : Cause) (location : Location) :
    Safe (Blockwork.reject c location : Except Fault α) :=
  fun _ h => nomatch h

/-- A safe run only fails by rejecting its input. -/
theorem exists_rejected {x : Except Fault α} (hx : Safe x) {f : Fault} (h : x = .error f) :
    ∃ d, f = .rejected d := by
  cases f with
  | rejected d => exact ⟨d, rfl⟩
  | breach b => exact absurd h (hx b)

theorem of_exists {x : Except Fault α} (h : ∃ a, x = .ok a) : Safe x := by
  obtain ⟨a, rfl⟩ := h
  exact ok a

theorem require {b : Breach} {o : Option α} (h : ∃ a, o = some a) :
    Safe (Blockwork.require b o) := by
  obtain ⟨a, rfl⟩ := h
  exact ok a

theorem bind {x : Except Fault α} {f : α → Except Fault β} (hx : Safe x)
    (hf : ∀ a, x = .ok a → Safe (f a)) : Safe (x >>= f) := by
  cases x with
  | error e => exact fun b h => hx b (congrArg Except.error (Except.error.inj h))
  | ok a => exact hf a rfl

theorem map {x : Except Fault α} (hx : Safe x) (f : α → β) : Safe (x.map f) := by
  cases x with
  | error e => exact fun b h => hx b (congrArg Except.error (Except.error.inj h))
  | ok a => exact ok (f a)

/-- What is there can be required. -/
theorem require_bind {b : Breach} {o : Option α} {f : α → Except Fault β}
    (h : ∃ a, o = some a) (hf : ∀ a, o = some a → Safe (f a)) :
    Safe (Blockwork.require b o >>= f) :=
  (require h).bind fun a ha => hf a (require_eq_ok.1 ha)

/-- A run is safe if its steps are, from what the steps before leave behind. -/
theorem foldlM {step : σ → α → Except Fault σ} (P : List α → σ → Prop)
    (hstep : ∀ a l s, P (a :: l) s → Safe (step s a) ∧ ∀ s', step s a = .ok s' → P l s') :
    ∀ {l : List α} {s : σ}, P l s → Safe (l.foldlM step s)
  | [], s, _ => ok s
  | a :: l, s, hs => by
    rw [List.foldlM_cons]
    obtain ⟨hsafe, hnext⟩ := hstep a l s hs
    exact hsafe.bind fun s' hs' => foldlM P hstep (hnext s' hs')

theorem mapM {f : α → Except Fault β} : ∀ {l : List α}, (∀ a ∈ l, Safe (f a)) → Safe (l.mapM f)
  | [], _ => ok []
  | a :: l, h => by
    rw [List.mapM_cons]
    exact (h a List.mem_cons_self).bind fun b _ =>
      (mapM fun x hx => h x (List.mem_cons_of_mem a hx)).bind fun bs _ => ok (b :: bs)

end Safe

/-! ## Linking -/

namespace ParamDraft

variable {h : Hierarchy} {declaration param : String} {p : ParamDraft} {location : Location}

theorem safe_checkGiven {formal : FormalParameter} {seen : List String} {as : List AttrDraft} :
    Safe (checkGiven declaration param formal location seen as) := by
  induction as generalizing seen with
  | nil => exact .ok _
  | cons a as ih =>
    unfold checkGiven
    split
    · exact .reject _ _
    · split
      · exact .reject _ _
      · exact ih

theorem safe_linkSlot {f : FormalAttribute} : Safe (p.linkSlot h declaration location f) := by
  unfold linkSlot
  simp only
  split
  · exact .ok _
  · split
    · exact .ok _
    · exact .reject _ _
  · split
    · exact .ok _
    · exact .reject _ _

theorem safe_link {index : Nat} {formal : FormalParameter} :
    Safe (p.link h declaration index formal location) :=
  safe_checkGiven.bind fun _ _ => (Safe.mapM fun _ _ => safe_linkSlot).bind fun _ _ => .ok _

end ParamDraft

/-- Parameters are found where their names stand in the interface. -/
theorem DeclarationDraft.safe_linkParam {h : Hierarchy} {d : DeclarationDraft} {s : Specification}
    {location : Location} {p : ParamDraft} : Safe (d.linkParam h s location p) := by
  unfold linkParam
  split
  · exact .reject _ _
  · rename_i index hindex
    have hlt : index < s.interface.parameters.length :=
      (List.findIdx?_eq_some_iff_getElem.1 hindex).1
    rw [List.getElem?_eq_getElem hlt]
    exact ParamDraft.safe_link

theorem DeclarationDraft.safe_link {h : Hierarchy} {d : DeclarationDraft} {s : Specification}
    {location : Location} : Safe (d.link h s location) :=
  (Safe.mapM fun _ _ => safe_linkParam).bind fun _ _ => .ok _

namespace Network

variable {n m c f : Network}

/-! ## Star references and references -/

theorem safe_expandParameter {d : Declaration} {q : Parameter} : Safe (n.expandParameter d q) := by
  unfold expandParameter
  split
  · exact .ok _
  · split
    · refine Safe.bind ?_ fun _ _ => .ok _
      unfold starReferences
      split
      · exact .reject _ _
      · split
        · exact .reject _ _
        · exact .ok _
    · exact .reject _ _

theorem safe_expandStars (n : Network) : Safe n.expandStars := by
  refine (Safe.mapM fun d _ => ?_).bind fun _ _ => .ok _
  unfold expandDeclaration
  split
  · exact .ok _
  · exact (Safe.mapM fun _ _ => safe_expandParameter).bind fun _ _ => .ok _

theorem safe_bindSlot {index : String → Option Target} {d : Declaration} {p a : Nat} {s : Slot} :
    Safe (n.bindSlot index d p a s) := by
  unfold bindSlot
  split
  · refine Safe.bind ?_ fun _ _ => .ok _
    unfold bindText
    split
    · split
      · exact .ok _
      · exact .reject _ _
    · split
      · exact .ok _
      · exact .reject _ _
  · exact .ok _

theorem safe_bindDeclaration {index : String → Option Target} {d : Declaration} :
    Safe (n.bindDeclaration index d) :=
  (Safe.mapM fun _ _ => (Safe.mapM fun _ _ => safe_bindSlot).bind fun _ _ => .ok _).bind
    fun _ _ => .ok _

theorem safe_resolveReferences (horder : ∀ i ∈ n.order, i ∈ n.positions) :
    Safe n.resolveReferences := by
  refine Safe.bind (Safe.foldlM
    (fun rest (c : Network) => c.declarations.length = n.declarations.length ∧
      ∀ i ∈ rest, i ∈ n.positions)
    (fun i rest c ⟨hlength, hrest⟩ => ?_) ⟨rfl, horder⟩) fun _ _ => ?_
  · obtain ⟨d, hd⟩ : ∃ d, c.declaration? i = some d :=
      exists_declaration?_of_mem_positions
        (mem_positions.2 (hlength ▸ mem_positions.1 (hrest i List.mem_cons_self)))
    refine ⟨Safe.require_bind ⟨d, hd⟩ fun _ _ => safe_bindDeclaration.bind fun _ _ => .ok _,
      fun c' hstep => ?_⟩
    unfold bindAt at hstep
    obtain ⟨_, -, hstep⟩ := bind_eq_ok.1 hstep
    obtain ⟨d', -, hstep⟩ := bind_eq_ok.1 hstep
    obtain rfl := pure_eq_ok.1 hstep
    exact ⟨(List.length_modify ..).trans hlength, fun j hj => hrest j (List.mem_cons_of_mem i hj)⟩
  · refine (Safe.mapM fun b _ => ?_).bind fun _ _ => .ok _
    unfold bindOutput
    split
    · exact .ok _
    · exact .reject _ _

theorem safe_sort (n : Network) : Safe n.sort := by
  rw [sort_eq]
  split
  · exact .reject _ _
  · exact .ok _

end Network

/-! ## Freezing -/

namespace Declaration

variable {types : Hierarchy} {type : ClassType} {d d' : Declaration}

theorem length_outputs_of_bare (h : d'.bare = d.bare) : d'.outputs.length = d.outputs.length := by
  simpa [bare] using congrArg (fun e : Declaration => e.outputs.length) h

/-- The links of attributes and outputs lead to outputs and attributes that are there. -/
structure LinksFound (d : Declaration) : Prop where
  feeds : ∀ p a (s : Slot), d.slot? p a = some s → ∀ k ∈ s.feeds, k < d.outputs.length
  fedBy : ∀ (k : Nat) (o : Output), d.outputs[k]? = some o →
    ∀ x ∈ o.fedBy, ∃ s, d.slot? x.1 x.2 = some s

/-- The attribute or output of the task is there. -/
def HasTask (d : Declaration) : FreezeTask → Prop
  | .slot p a => ∃ s, d.slot? p a = some s
  | .output k => k < d.outputs.length

theorem HasTask.of_bare {task : FreezeTask} (ht : d.HasTask task) (h : d'.bare = d.bare) :
    d'.HasTask task := by
  cases task with
  | slot p a =>
    obtain ⟨s, hs⟩ := ht
    obtain ⟨s', hs', -⟩ := exists_slot?_of_bare h.symm hs
    exact ⟨s', hs'⟩
  | output k =>
    show k < d'.outputs.length
    rw [length_outputs_of_bare h]
    exact ht

theorem LinksFound.freezeSlot (hd : d.LinksFound) (p a : Nat) (merged : ClassType) :
    (d.freezeSlot p a merged).LinksFound where
  feeds p' a' s' hs' k hk := by
    unfold Declaration.freezeSlot at hs'
    rw [slot?_modifySlot] at hs'
    split at hs'
    · obtain ⟨s, -, rfl⟩ := Option.map_eq_some_iff.1 hs'
      simp at hk
    · exact hd.feeds p' a' s' hs' k hk
  fedBy k o ho x hx := by
    have htask : d.HasTask (.slot x.1 x.2) := hd.fedBy k o ho x hx
    exact htask.of_bare (bare_freezeSlot d p a merged)

theorem LinksFound.recordResult (hd : d.LinksFound) (i : Nat) :
    (d.recordResult types i type).LinksFound where
  feeds p a s hs k hk := by
    have htask : d.HasTask (.output k) := hd.feeds p a s hs k hk
    exact htask.of_bare (bare_recordResult types d i type)
  fedBy k o' ho' x hx := by
    unfold Declaration.recordResult at ho'
    rw [outputs_modifyOutput] at ho'
    split at ho'
    · obtain ⟨o, -, rfl⟩ := Option.map_eq_some_iff.1 ho'
      simp at hx
    · exact hd.fedBy k o' ho' x hx

/-- Freezing only comes upon attributes and outputs that are there. -/
theorem safe_freeze {tasks : List FreezeTask} (hd : d.LinksFound)
    (htasks : ∀ task ∈ tasks, d.HasTask task) : Safe (d.freeze types type tasks) := by
  fun_induction freeze types type tasks d with
  | case1 d => exact .ok d
  | case2 d p a rest hnone =>
    obtain ⟨s, hs⟩ := htasks _ List.mem_cons_self
    exact absurd (hs.symm.trans hnone) (by simp)
  | case3 d p a rest s hs hfrozen ih =>
    exact ih hd fun task h => htasks task (List.mem_cons_of_mem _ h)
  | case4 => exact .reject _ _
  | case5 d p a rest s hs hfrozen merged hmerged ih =>
    refine ih (hd.freezeSlot p a merged) fun task htask => ?_
    refine HasTask.of_bare (d := d) ?_ (bare_freezeSlot d p a merged)
    rcases List.mem_append.1 htask with htask | htask
    · obtain ⟨k, hk, rfl⟩ := List.mem_map.1 htask
      exact hd.feeds p a s hs k hk
    · exact htasks task (List.mem_cons_of_mem _ htask)
  | case6 d k rest hnone =>
    have hlt : k < d.outputs.length := htasks _ List.mem_cons_self
    simp [hlt] at hnone
  | case7 d k rest o ho ih =>
    simp only [List.map_attach_eq_pmap, List.pmap_eq_map] at ih
    refine ih (hd.recordResult k) fun task htask => ?_
    refine HasTask.of_bare (d := d) ?_ (bare_recordResult types d k type)
    rcases List.mem_append.1 htask with htask | htask
    · obtain ⟨x, hx, rfl⟩ := List.mem_map.1 htask
      exact hd.fedBy k o ho x hx
    · exact htasks task (List.mem_cons_of_mem _ htask)

theorem LinksFound.freeze {tasks : List FreezeTask} (hd : d.LinksFound)
    (h : d.freeze types type tasks = .ok d') : d'.LinksFound :=
  freeze_invariant (fun _ e => e.LinksFound) (fun _ _ _ _ _ _ _ _ _ he => he)
    (fun p a _ _ _ merged _ _ _ he => he.freezeSlot p a merged)
    (fun k _ _ _ _ he => he.recordResult k) hd h

/-- The links of a fresh declaration lead to what is there. -/
theorem Fresh.linksFound {h : Hierarchy} (hd : d.Fresh h) (hout : d.HasOutputs) : d.LinksFound where
  feeds p a s hs k hk := by
    obtain ⟨o, ho⟩ := hd.exists_output hout hs hk
    exact (List.getElem?_eq_some_iff.1 ho).1
  fedBy k o ho x hx := by
    obtain ⟨s, hs, -⟩ := ((hd.outputs k o ho).fedBy x.1 x.2).1 hx
    exact ⟨s, hs⟩

end Declaration

namespace Network

variable {n m c f r : Network}

/-- The links of all declarations lead to what is there. -/
def LinksFound (n : Network) : Prop :=
  ∀ i d, n.declaration? i = some d → d.LinksFound

theorem WellResolved.linksFound (hr : r.WellResolved) : r.LinksFound := fun i d hd =>
  (hr.fresh i d hd).linksFound (hr.hasOutputs i d hd)

theorem LinksFound.freezeAt {id : SlotId} (hn : n.LinksFound) (h : n.freezeAt id = .ok m) :
    m.LinksFound := by
  obtain ⟨s, -, ⟨-, rfl⟩ | ⟨-, rfl⟩ | ⟨-, type, d, d', -, hd, hfreeze, rfl⟩⟩ := freezeAt_eq_ok h
  · exact hn
  · exact hn
  · intro j e he
    rw [declaration?_modifyDeclaration] at he
    split at he
    · obtain ⟨_, -, rfl⟩ := Option.map_eq_some_iff.1 he
      exact (hn _ d hd).freeze hfreeze
    · exact hn j e he

theorem safe_freezeAt {id : SlotId} {s : Slot} (hn : n.LinksFound) (hs : n.slot? id = some s)
    (hbound : s.Bound n) : Safe (n.freezeAt id) := by
  obtain ⟨d, hd, hslot⟩ := slot?_eq_some.1 hs
  refine Safe.require_bind ⟨s, hs⟩ fun s' hs' => ?_
  obtain rfl := Option.some.inj (hs.symm.trans hs')
  split
  · exact .ok _
  · refine Safe.bind ?_ fun type _ => ?_
    · unfold freezingType?
      split
      · exact .ok _
      · rename_i id hid
        rcases hbound with ⟨v, hv⟩ | ⟨t, ht, type, htype⟩
        · simp [hv] at hid
        · obtain rfl := Binding.reference.inj (ht.symm.trans hid)
          obtain ⟨o, ho, -⟩ := Option.map_eq_some_iff.1 htype
          exact Safe.require_bind ⟨o, ho⟩ fun _ _ => .ok _
      · exact .ok _
    · cases type with
      | none => exact .ok _
      | some type =>
        refine Safe.require_bind ⟨d, hd⟩ fun d' hd' => ?_
        obtain rfl := Option.some.inj (hd.symm.trans hd')
        refine (Declaration.safe_freeze (hn _ d hd) fun task htask => ?_).bind fun _ _ => .ok _
        obtain rfl := List.mem_singleton.1 htask
        exact ⟨s, hslot⟩

theorem WellResolved.safe_freezePipelines (hr : r.WellResolved) (hforward : r.Forward) :
    Safe r.freezePipelines := by
  refine Safe.foldlM (fun rest (c : Network) => c.bare = r.bare ∧ c.LinksFound ∧
    ∀ id ∈ rest, ∃ s, r.slot? id = some s) (fun id rest c ⟨hbare, hlinks, hrest⟩ => ?_)
    ⟨rfl, hr.linksFound, fun id hid => hforward.mem_slotIds.1 hid⟩
  obtain ⟨s₀, hs₀⟩ := hrest id List.mem_cons_self
  obtain ⟨s, hs, -⟩ := exists_slot?_of_bare hbare.symm hs₀
  refine ⟨safe_freezeAt hlinks hs (bound_of_bare hbare hr.bound hs), fun c' hstep => ?_⟩
  exact ⟨(bare_freezeAt hstep).trans hbare, hlinks.freezeAt hstep,
    fun id' h => hrest id' (List.mem_cons_of_mem id h)⟩

theorem WellResolved.linksFound_frozen (hr : r.WellResolved) (h : r.freezePipelines = .ok f) :
    f.LinksFound :=
  foldlM_invariant (fun _ (c : Network) => c.LinksFound) (fun _ _ _ _ hc hstep => hc.freezeAt hstep)
    hr.linksFound h

/-! ## Inference -/

theorem safe_inferMultiplicities (hn : n.Resolved)
    (hany : ∀ p ∈ n.params, p.multiplicity = .any) (hcounted : n.Counted) :
    Safe n.inferMultiplicities := by
  have hnarrows := narrows_inferMultiplicities hn hany hcounted
  generalize n.inferMultiplicities = r at hnarrows
  cases hnarrows with
  | ok => exact .ok _
  | rejected => exact fun _ h => nomatch h

/-- Going through what a target flows to does not run in a circle. -/
theorem safe_visit {σ : Type} {step : σ → Referrer → Except Fault σ} (hn : n.Prepared)
    (hlinks : n.LinksFound)
    (hstep : ∀ s t, ∀ r ∈ n.referrers t, Safe (step s r)) :
    ∀ {bound : Nat} {t : Target} {s : σ}, n.height t < bound →
      Safe (n.visit n.referrerTable step bound t s)
  | 0, _, _, h => absurd h (Nat.not_lt_zero _)
  | bound + 1, t, s, h => by
    unfold visit
    rw [referrersFrom_referrerTable]
    refine Safe.foldlM (fun rest _ => ∀ r ∈ rest, r ∈ n.referrers t) (fun r rest s hrest => ?_)
      fun _ hr => hr
    have hr := hrest r List.mem_cons_self
    refine ⟨(hstep s t r hr).bind fun s _ => ?_, fun _ _ r' hr' =>
      hrest r' (List.mem_cons_of_mem r hr')⟩
    refine Safe.foldlM (fun rest _ => ∀ u ∈ rest, u ∈ n.fedOutputs r) (fun u rest s hrest => ?_)
      fun _ hu => hu
    refine ⟨safe_visit hn hlinks hstep ?_, fun _ _ u' hu' => hrest u' (List.mem_cons_of_mem u hu')⟩
    have hu := hrest u List.mem_cons_self
    rw [fedOutputs_eq] at hu
    obtain ⟨x, hx, rfl⟩ := List.mem_map.1 hu
    obtain ⟨rfl, s, hs, hk⟩ := mem_pipelines.1 hx
    obtain ⟨s', hs', ht⟩ := (slot_mem_referrers hn.forward).1 hr
    obtain rfl := Option.some.inj (hs.symm.trans hs')
    obtain ⟨d, hd, hslot⟩ := slot?_eq_some.1 hs
    have hlt := (hlinks _ d hd).feeds _ _ s hslot x.2 hk
    have ho : n.output? ⟨x.1.declaration, x.2⟩ = some d.outputs[x.2] :=
      output?_eq_some.2 ⟨d, hd, List.getElem?_eq_getElem hlt⟩
    exact Nat.lt_of_lt_of_le (height_lt hn.forward hs ht (hn.hasTarget _ s t hs ht) rfl ho)
      (Nat.le_of_lt_succ h)

theorem safe_inferInputs (hn : n.Prepared) (hlinks : n.LinksFound) : Safe n.inferInputs := by
  refine Safe.mapM fun input _ => Safe.bind (Safe.bind
    (safe_visit hn hlinks (fun t target r hr => ?_) (height_lt_pathBound ..))
      fun _ _ => .ok _) fun _ _ => .ok _
  cases r with
  | blockOutput => exact .ok _
  | slot id =>
    obtain ⟨s, hs, -⟩ := (slot_mem_referrers hn.forward).1 hr
    refine Safe.require_bind ⟨s, hs⟩ fun s _ => ?_
    split
    · exact .ok _
    · exact .reject _ _

/-! ## The check of types -/

theorem safe_checkTypes (hn : n.Prepared) : Safe n.checkTypes := by
  refine Safe.foldlM (fun rest (c : Network) => c.bare = n.bare ∧
    ∀ id ∈ rest, ∃ s, n.slot? id = some s) (fun id rest c ⟨hbare, hrest⟩ => ?_)
    ⟨rfl, fun id hid => hn.forward.mem_slotIds.1 hid⟩
  obtain ⟨s₀, hs₀⟩ := hrest id List.mem_cons_self
  obtain ⟨s, hs, hsbare⟩ := exists_slot?_of_bare hbare.symm hs₀
  have hbinding : s₀.binding = s.binding := (congrArg Slot.binding hsbare :)
  refine ⟨Safe.require_bind ⟨s, hs⟩ fun s' hs' => ?_, fun c' hstep =>
    ⟨(bare_checkAt hstep).trans hbare, fun id' h => hrest id' (List.mem_cons_of_mem id h)⟩⟩
  obtain rfl := Option.some.inj (hs.symm.trans hs')
  split
  · rename_i t ht
    have htarget := (hn.hasTarget id s₀ t hs₀ (hbinding.trans ht)).of_bare hbare
    refine Safe.require_bind htarget fun _ _ => ?_
    split
    · exact .ok _
    · exact .reject _ _
  · exact .ok _

/-! ## All stages -/

/-- Completing a linked network never ends in a breach. -/
theorem WellLinked.safe_complete (hn : n.WellLinked) (hout : n.HasOutputs)
    (hany : ∀ p ∈ n.params, p.multiplicity = .any) (hfit : n.CopiesFit) : Safe n.complete := by
  refine n.safe_expandStars.bind fun e hexpand => ?_
  obtain ⟨-, horder, hpositions⟩ := hn.given.expandStars hexpand
  refine (safe_resolveReferences fun i hi => ?_).bind fun r hresolve => ?_
  · rwa [hpositions, ← hn.order, ← horder]
  have hr := hn.wellResolved hout hany hexpand hresolve
  refine r.safe_sort.bind fun order hsort => ?_
  have hsorted := hr.setOrder order
  have hforward := forward_of_sort hsort
  refine (hsorted.safe_freezePipelines hforward).bind fun f hfreeze => ?_
  have hf := hsorted.prepared hforward hfreeze
  have hwired : f.OutputsWired := hsorted.outputsWired_frozen hfreeze
  have hlinks := hsorted.linksFound_frozen hfreeze
  have hresolved : r.ParametersFit := (hfit.expandStars hexpand).resolveReferences hresolve
  have hcounted := (ParametersFit.of_bare (n := r.setOrder order) hresolved
    (bare_freezePipelines hfreeze)).counted
  refine (safe_inferMultiplicities (hf.resolved hwired)
    (hsorted.multiplicities_frozen hfreeze) hcounted).bind fun ms hms => ?_
  have hin : ∀ id, (f.setMultiplicities ms).input? id = none ↔ f.input? id = none := fun id => by
    rw [input?_setMultiplicities (length_inferMultiplicities hms)]
  have hprepared : (f.setMultiplicities ms).Prepared := hf.congr rfl rfl rfl hin
  refine (safe_inferInputs hprepared hlinks).bind fun ts hts => ?_
  have htyped := hprepared.inputsTyped hts
  have hwired' : ((f.setMultiplicities ms).setInputs ts).OutputsWired :=
    (hwired.congr (m := f.setMultiplicities ms) rfl rfl hin).setInputs ts
  refine (Safe.of_exists (htyped.toPrepared.exists_inferOutputTypes hwired')).bind fun os hos => ?_
  exact safe_checkTypes (htyped.typed hos).toPrepared

end Network

end Blockwork
