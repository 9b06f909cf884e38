import Blockwork.Proofs.Compilation
import Blockwork.Proofs.Pipelines
import Blockwork.Proofs.TypeOrder

/-!
# What freezing does

Freezing changes one declaration after the other and keeps its wiring.
-/

namespace Blockwork

namespace Declaration

variable {types : Hierarchy} {type : ClassType} {d d' : Declaration}

theorem bare_freezeSlot (d : Declaration) (p a : Nat) (type : ClassType) :
    (d.freezeSlot p a type).bare = d.bare :=
  bare_modifySlot fun _ => rfl

theorem bare_recordResult (types : Hierarchy) (d : Declaration) (o : Nat) (type : ClassType) :
    (d.recordResult types o type).bare = d.bare :=
  bare_modifyOutput fun _ => rfl

/-- What holds of a declaration and the tasks still to be done is kept by freezing if each of
its three steps keeps it: passing by an attribute frozen already, freezing an attribute, and
recording the type on an output. -/
theorem freeze_invariant (P : List FreezeTask → Declaration → Prop)
    (skip : ∀ p a rest d s t, d.slot? p a = some s → s.frozen = some t →
      types.assignable type t = true → P (.slot p a :: rest) d → P rest d)
    (slot : ∀ p a rest d s merged, d.slot? p a = some s →
      (∀ t, s.frozen = some t → ¬types.assignable type t = true) →
        types.merge type s.type = .ok merged → P (.slot p a :: rest) d →
          P (s.feeds.map .output ++ rest) (d.freezeSlot p a merged))
    (output : ∀ o rest d out, d.outputs[o]? = some out → P (.output o :: rest) d →
      P (out.fedBy.map (fun x => .slot x.1 x.2) ++ rest) (d.recordResult types o type))
    {tasks : List FreezeTask} (hP : P tasks d) (h : d.freeze types type tasks = .ok d') :
    P [] d' := by
  fun_induction freeze types type tasks d with
  | case1 d => exact Except.ok.inj h ▸ hP
  | case2 => simp at h
  | case3 d p a rest s hs hfrozen ih =>
    obtain ⟨t, ht, hassign⟩ := (Option.any_eq_true _ _).1 hfrozen
    exact ih (skip p a rest d s t hs ht hassign hP) h
  | case4 => simp [reject] at h
  | case5 d p a rest s hs hfrozen merged hmerged ih =>
    refine ih (slot p a rest d s merged hs (fun t ht hassign => hfrozen ?_) hmerged hP) h
    exact (Option.any_eq_true _ _).2 ⟨t, ht, hassign⟩
  | case6 => simp at h
  | case7 d o rest out ho ih =>
    simp only [List.map_attach_eq_pmap, List.pmap_eq_map] at ih
    exact ih (output o rest d out ho hP) h

theorem bare_freeze {tasks : List FreezeTask} (h : d.freeze types type tasks = .ok d') :
    d'.bare = d.bare :=
  freeze_invariant (fun _ e => e.bare = d.bare)
    (fun _ _ _ _ _ _ _ _ _ he => he)
    (fun _ _ _ _ _ _ _ _ _ he => (bare_freezeSlot _ _ _ _).trans he)
    (fun _ _ _ _ _ he => (bare_recordResult _ _ _ _).trans he) rfl h

/-! ## Freezing one group -/

/-- The outputs an attribute is a pipeline into. -/
def feedsAt (d : Declaration) (x : Nat × Nat) : List Nat :=
  ((d.slot? x.1 x.2).map Slot.feeds).getD []

theorem feedsAt_eq {p a : Nat} {s : Slot} (hs : d.slot? p a = some s) :
    d.feedsAt (p, a) = s.feeds := by
  simp [feedsAt, hs]

theorem mem_feedsAt {p a k : Nat} :
    k ∈ d.feedsAt (p, a) ↔ ∃ s, d.slot? p a = some s ∧ k ∈ s.feeds := by
  unfold feedsAt
  cases d.slot? p a <;> simp

/-- The links of the declaration are the same from both ends, what is frozen or has a result has
none, and the declared types are formed. -/
structure Linked (types : Hierarchy) (d : Declaration) : Prop where
  fedBy : ∀ (k : Nat) (o : Output), d.outputs[k]? = some o →
    ∀ p a, (p, a) ∈ o.fedBy ↔ k ∈ d.feedsAt (p, a)
  frozen : ∀ p a s, d.slot? p a = some s → s.feeds ≠ [] → s.frozen = none
  result : ∀ (k : Nat) (o : Output), d.outputs[k]? = some o → o.fedBy ≠ [] → o.result = none
  formed : ∀ p a s, d.slot? p a = some s → types.Formed s.declared

/-- The attribute frozen by a type. -/
def SlotFrozen (types : Hierarchy) (type : ClassType) (s s' : Slot) : Prop :=
  ∃ merged, types.merge type s.declared = .ok merged ∧
    s' = { s with frozen := some merged, feeds := [] }

/-- The output of a frozen attribute: it records the type, or one that is no different. -/
def OutputFrozen (types : Hierarchy) (type : ClassType) (o o' : Output) : Prop :=
  ∃ r, types.Formed r ∧ types.assignable type r = true ∧ types.assignable r type = true ∧
    o' = { o with result := some r, fedBy := [] }

/-- How far freezing has come. The attributes in `slots` and the outputs in `outputs` are frozen,
all others are as they were in `d`. What is frozen is connected to the start, and what it is
linked to is frozen or among the tasks. -/
structure FreezeState (types : Hierarchy) (type : ClassType) (d : Declaration)
    (start : Nat × Nat) (slots : Nat × Nat → Prop) (outputs : Nat → Prop)
    (tasks : List FreezeTask) (d' : Declaration) : Prop where
  slot : ∀ p a s', d'.slot? p a = some s' → ∃ s, d.slot? p a = some s ∧
    (slots (p, a) ∧ SlotFrozen types type s s' ∨ ¬slots (p, a) ∧ s' = s)
  output : ∀ (k : Nat) (o' : Output), d'.outputs[k]? = some o' →
    ∃ o, d.outputs[k]? = some o ∧
      (outputs k ∧ OutputFrozen types type o o' ∨ ¬outputs k ∧ o' = o)
  connected : ∀ x, slots x → Connected d.feedsAt start x
  fed : ∀ k, outputs k → ∃ x, slots x ∧ k ∈ d.feedsAt x
  slotTask : ∀ p a, .slot p a ∈ tasks → Connected d.feedsAt start (p, a)
  outputTask : ∀ k, .output k ∈ tasks → ∃ x, slots x ∧ k ∈ d.feedsAt x
  startCovered : slots start ∨ .slot start.1 start.2 ∈ tasks
  slotsCovered : ∀ x, slots x → ∀ k ∈ d.feedsAt x, outputs k ∨ .output k ∈ tasks
  outputsCovered : ∀ k, outputs k → ∀ x, k ∈ d.feedsAt x → slots x ∨ .slot x.1 x.2 ∈ tasks

/-- What is frozen when no tasks are left: everything connected to the start. -/
theorem FreezeState.slots_iff {start : Nat × Nat} {slots : Nat × Nat → Prop}
    {outputs : Nat → Prop} (h : FreezeState types type d start slots outputs [] d')
    (x : Nat × Nat) : slots x ↔ Connected d.feedsAt start x := by
  refine ⟨h.connected x, fun hx => ?_⟩
  induction hx with
  | refl => simpa using h.startCovered
  | tail _ hstep ih =>
    obtain ⟨k, hk, hk'⟩ := hstep
    have hout : outputs k := by simpa using h.slotsCovered _ ih k hk
    simpa using h.outputsCovered k hout _ hk'

theorem FreezeState.outputs_iff {start : Nat × Nat} {slots : Nat × Nat → Prop}
    {outputs : Nat → Prop} (h : FreezeState types type d start slots outputs [] d')
    (k : Nat) : outputs k ↔ ∃ x, Connected d.feedsAt start x ∧ k ∈ d.feedsAt x := by
  refine ⟨fun hk => ?_, fun ⟨x, hx, hk⟩ => ?_⟩
  · obtain ⟨x, hx, hk⟩ := h.fed k hk
    exact ⟨x, h.connected x hx, hk⟩
  · simpa using h.slotsCovered x ((h.slots_iff x).2 hx) k hk

namespace FreezeState

variable {start : Nat × Nat} {slots : Nat × Nat → Prop} {outputs : Nat → Prop}
  {rest : List FreezeTask} {e : Declaration} {p a k : Nat}

/-- An attribute that is reached was not frozen before. -/
theorem frozen_eq_none (hd : d.Linked types) (hstart : d.feedsAt start ≠ []) {s : Slot}
    (hconnected : Connected d.feedsAt start (p, a)) (hs : d.slot? p a = some s) :
    s.frozen = none := by
  have hfeeds := hconnected.feeds_ne_nil hstart
  rw [feedsAt_eq hs] at hfeeds
  exact hd.frozen p a s hs hfeeds

/-- Once an attribute is frozen, its task is not needed to cover it. -/
theorem covered_of_cons (slots' : Nat × Nat → Prop) (hsub : ∀ x, slots x → slots' x)
    (hslot : slots' (p, a)) {x : Nat × Nat}
    (hx : slots x ∨ .slot x.1 x.2 ∈ FreezeTask.slot p a :: rest) :
    slots' x ∨ .slot x.1 x.2 ∈ rest := by
  rcases hx with hx | hx
  · exact Or.inl (hsub x hx)
  · rcases List.mem_cons.1 hx with heq | hx
    · obtain ⟨rfl, rfl⟩ := FreezeTask.slot.inj heq
      exact Or.inl hslot
    · exact Or.inr hx

/-- Passing by an attribute that is frozen. -/
theorem skip (hd : d.Linked types) (hstart : d.feedsAt start ≠ [])
    (h : FreezeState types type d start slots outputs (.slot p a :: rest) e) {s : Slot}
    {t : ClassType} (hs : e.slot? p a = some s) (ht : s.frozen = some t) :
    FreezeState types type d start slots outputs rest e := by
  have hslot : slots (p, a) := by
    obtain ⟨s₀, hs₀, ⟨hslot, -⟩ | ⟨-, rfl⟩⟩ := h.slot p a s hs
    · exact hslot
    · rw [frozen_eq_none hd hstart (h.slotTask p a List.mem_cons_self) hs₀] at ht
      cases ht
  exact ⟨h.slot, h.output, h.connected, h.fed,
    fun p' a' hmem => h.slotTask p' a' (List.mem_cons_of_mem _ hmem),
    fun k hmem => h.outputTask k (List.mem_cons_of_mem _ hmem),
    covered_of_cons slots (fun _ hx => hx) hslot h.startCovered,
    fun x hx k hk => by simpa using h.slotsCovered x hx k hk,
    fun k hk x hx => covered_of_cons slots (fun _ hx => hx) hslot (h.outputsCovered k hk x hx)⟩

/-- The attributes frozen after one more of them is. -/
theorem exists_slot?_of_freezeSlot
    (h : FreezeState types type d start slots outputs (.slot p a :: rest) e) {s : Slot}
    {merged : ClassType} (hs : e.slot? p a = some s) (hold : d.slot? p a = some s)
    (hmerged : types.merge type s.declared = .ok merged) (p' a' : Nat) (s' : Slot)
    (hs' : (e.freezeSlot p a merged).slot? p' a' = some s') :
    ∃ s₀, d.slot? p' a' = some s₀ ∧
      ((slots (p', a') ∨ (p', a') = (p, a)) ∧ SlotFrozen types type s₀ s' ∨
        ¬(slots (p', a') ∨ (p', a') = (p, a)) ∧ s' = s₀) := by
  unfold Declaration.freezeSlot at hs'
  rw [slot?_modifySlot] at hs'
  split at hs'
  · rename_i hpa
    obtain ⟨rfl, rfl⟩ := hpa
    rw [hs] at hs'
    exact ⟨s, hold, Or.inl ⟨Or.inr rfl, merged, hmerged, (Option.some.inj hs').symm⟩⟩
  · rename_i hpa
    obtain ⟨s₀, hs₀, hcase⟩ := h.slot p' a' s' hs'
    refine ⟨s₀, hs₀, hcase.imp (fun hc => ⟨Or.inl hc.1, hc.2⟩) fun hc => ⟨?_, hc.2⟩⟩
    rintro (hslot | heq)
    · exact hc.1 hslot
    · obtain ⟨rfl, rfl⟩ := Prod.mk.inj heq
      exact hpa ⟨rfl, rfl⟩

/-- Freezing an attribute that is not frozen to a type as narrow already. -/
theorem freezeSlot (hw : types.WellFormed) (htype : types.Formed type) (hd : d.Linked types)
    (hstart : d.feedsAt start ≠ [])
    (h : FreezeState types type d start slots outputs (.slot p a :: rest) e) {s : Slot}
    {merged : ClassType} (hs : e.slot? p a = some s)
    (hfrozen : ∀ t, s.frozen = some t → ¬types.assignable type t = true)
    (hmerged : types.merge type s.type = .ok merged) :
    FreezeState types type d start (fun x => slots x ∨ x = (p, a)) outputs
      (s.feeds.map .output ++ rest) (e.freezeSlot p a merged) := by
  have hconnected := h.slotTask p a List.mem_cons_self
  -- Had it been frozen before, then to a type below this one.
  obtain ⟨hnew, hold⟩ : ¬slots (p, a) ∧ d.slot? p a = some s := by
    obtain ⟨s₀, hs₀, ⟨-, merged', hmerged', rfl⟩ | ⟨hnew, rfl⟩⟩ := h.slot p a s hs
    · have hassign := (hw.assignable_merge htype (hd.formed p a s₀ hs₀) hmerged').1
      exact absurd hassign (hfrozen merged' rfl)
    · exact ⟨hnew, hs₀⟩
  have htype_eq : s.type = s.declared := by
    unfold Slot.type
    rw [frozen_eq_none hd hstart hconnected hold]
    rfl
  rw [htype_eq] at hmerged
  have hcovered : ∀ x, (slots x ∨ .slot x.1 x.2 ∈ FreezeTask.slot p a :: rest) →
      (slots x ∨ x = (p, a)) ∨ .slot x.1 x.2 ∈ s.feeds.map .output ++ rest := fun x hx =>
    (covered_of_cons (fun x => slots x ∨ x = (p, a)) (fun _ => Or.inl) (Or.inr rfl)
      hx).imp_right (List.mem_append_right _)
  refine ⟨h.exists_slot?_of_freezeSlot hs hold hmerged, h.output, fun x hx => ?_,
    fun k hk => ?_, fun p' a' hmem => ?_, fun k hmem => ?_, ?_, fun x hx k hk => ?_,
    fun k hk x hx => ?_⟩
  · rcases hx with hx | rfl
    · exact h.connected x hx
    · exact hconnected
  · obtain ⟨x, hx, hk⟩ := h.fed k hk
    exact ⟨x, Or.inl hx, hk⟩
  · have hmem : FreezeTask.slot p' a' ∈ rest := by simpa using hmem
    exact h.slotTask p' a' (List.mem_cons_of_mem _ hmem)
  · rcases List.mem_append.1 hmem with hmem | hmem
    · refine ⟨(p, a), Or.inr rfl, ?_⟩
      rw [feedsAt_eq hold]
      simpa using hmem
    · obtain ⟨x, hx, hk⟩ := h.outputTask k (List.mem_cons_of_mem _ hmem)
      exact ⟨x, Or.inl hx, hk⟩
  · exact hcovered start h.startCovered
  · rcases hx with hx | rfl
    · exact (h.slotsCovered x hx k hk).imp_right fun hmem => by
        simpa using Or.inr hmem
    · rw [feedsAt_eq hold] at hk
      exact Or.inr (List.mem_append_left _ (List.mem_map_of_mem hk))
  · exact hcovered x (h.outputsCovered k hk x hx)

/-- Recording the type on an output freezes it. Done twice it makes no difference. -/
theorem outputFrozen_widen (hw : types.WellFormed) (htype : types.Formed type) {o₀ o : Output}
    (ho : OutputFrozen types type o₀ o ∨ o = o₀ ∧ o.result = none) :
    OutputFrozen types type o₀
      { o with result := some (types.widen o.result type), fedBy := [] } := by
  obtain ⟨r, hr, htr, hrt, rfl⟩ | ⟨rfl, hresult⟩ := ho
  · have hformed : ∀ t, some r = some t → types.Formed t := fun t ht => Option.some.inj ht ▸ hr
    refine ⟨_, hw.formed_widen hformed htype, ?_, (hw.widen_assignable hformed htype).2, rfl⟩
    exact hw.assignable_widen htype.base (fun t ht => Option.some.inj ht ▸ htr)
      (hw.assignable_refl htype)
  · have hself := hw.assignable_refl htype
    exact ⟨type, htype, hself, hself, by rw [hresult]; rfl⟩

theorem recordResult (hw : types.WellFormed) (htype : types.Formed type) (hd : d.Linked types)
    (h : FreezeState types type d start slots outputs (.output k :: rest) e) {o : Output}
    (ho : e.outputs[k]? = some o) :
    FreezeState types type d start slots (fun i => outputs i ∨ i = k)
      (o.fedBy.map (fun x => .slot x.1 x.2) ++ rest) (e.recordResult types k type) := by
  obtain ⟨x, hx, hk⟩ := h.outputTask k List.mem_cons_self
  obtain ⟨o₀, ho₀, hcase⟩ := h.output k o ho
  have hfrozen := outputFrozen_widen hw htype <| hcase.imp And.right fun ⟨_, heq⟩ =>
    ⟨heq, heq ▸ hd.result k o₀ ho₀ (List.ne_nil_of_mem ((hd.fedBy k o₀ ho₀ x.1 x.2).2 hk))⟩
  have hfedBy : ∀ p a, (p, a) ∈ o.fedBy → k ∈ d.feedsAt (p, a) := by
    intro p a hpa
    obtain ⟨-, r, -, -, -, rfl⟩ | ⟨-, rfl⟩ := hcase
    · simp at hpa
    · exact (hd.fedBy k o ho₀ p a).1 hpa
  refine ⟨h.slot, fun i o' ho' => ?_, h.connected, fun i hi => ?_, fun p a hmem => ?_,
    fun i hmem => ?_, ?_, fun y hy i hi => ?_, fun i hi y hy => ?_⟩
  · unfold Declaration.recordResult at ho'
    rw [outputs_modifyOutput] at ho'
    split at ho'
    · rename_i hik
      subst hik
      rw [ho] at ho'
      exact ⟨o₀, ho₀, Or.inl ⟨Or.inr rfl, Option.some.inj ho' ▸ hfrozen⟩⟩
    · rename_i hik
      obtain ⟨o₁, ho₁, hcase⟩ := h.output i o' ho'
      exact ⟨o₁, ho₁, hcase.imp (fun hc => ⟨Or.inl hc.1, hc.2⟩) fun hc =>
        ⟨fun hi => hi.elim hc.1 fun heq => hik heq.symm, hc.2⟩⟩
  · rcases hi with hi | rfl
    · exact h.fed i hi
    · exact ⟨x, hx, hk⟩
  · rcases List.mem_append.1 hmem with hmem | hmem
    · obtain ⟨y, hy, heq⟩ := List.mem_map.1 hmem
      obtain ⟨rfl, rfl⟩ := FreezeTask.slot.inj heq
      exact (h.connected x hx).trans (.of_mem hk (hfedBy y.1 y.2 hy))
    · exact h.slotTask p a (List.mem_cons_of_mem _ hmem)
  · have hmem : FreezeTask.output i ∈ rest := by simpa using hmem
    exact h.outputTask i (List.mem_cons_of_mem _ hmem)
  · exact h.startCovered.imp_right fun hmem => List.mem_append_right _ (by simpa using hmem)
  · rcases h.slotsCovered y hy i hi with hi | hi
    · exact Or.inl (Or.inl hi)
    · rcases List.mem_cons.1 hi with heq | hi
      · exact Or.inl (Or.inr (FreezeTask.output.inj heq))
      · exact Or.inr (List.mem_append_right _ hi)
  · have hold : outputs i →
        slots y ∨ .slot y.1 y.2 ∈ o.fedBy.map (fun x => .slot x.1 x.2) ++ rest :=
      fun hi => (h.outputsCovered i hi y hy).imp_right fun hmem =>
        List.mem_append_right _ (by simpa using hmem)
    rcases hi with hi | rfl
    · exact hold hi
    · obtain ⟨hi, -⟩ | ⟨-, rfl⟩ := hcase
      · exact hold hi
      · exact Or.inr (List.mem_append_left _
          (List.mem_map_of_mem (f := fun x => FreezeTask.slot x.1 x.2)
            ((hd.fedBy i o ho₀ y.1 y.2).2 hy)))

end FreezeState

/-- Freezing at a pipeline freezes what is connected to it and nothing else. -/
theorem freeze_group (hw : types.WellFormed) (htype : types.Formed type) (hd : d.Linked types)
    {p a : Nat} (hstart : d.feedsAt (p, a) ≠ [])
    (h : d.freeze types type [.slot p a] = .ok d') :
    FreezeState types type d (p, a) (Connected d.feedsAt (p, a))
      (fun k => ∃ x, Connected d.feedsAt (p, a) x ∧ k ∈ d.feedsAt x) [] d' := by
  obtain ⟨slots, outputs, hend⟩ := freeze_invariant
    (fun tasks e => ∃ slots outputs, FreezeState types type d (p, a) slots outputs tasks e)
    (fun p a rest e s t hs ht _ ⟨slots, outputs, he⟩ =>
      ⟨slots, outputs, he.skip hd hstart hs ht⟩)
    (fun p a rest e s merged hs hfrozen hmerged ⟨slots, outputs, he⟩ =>
      ⟨_, outputs, he.freezeSlot hw htype hd hstart hs hfrozen hmerged⟩)
    (fun k rest e o ho ⟨slots, outputs, he⟩ => ⟨slots, _, he.recordResult hw htype hd ho⟩)
    ⟨fun _ => False, fun _ => False,
      ⟨fun _ _ s hs => ⟨s, hs, Or.inr ⟨id, rfl⟩⟩, fun _ o ho => ⟨o, ho, Or.inr ⟨id, rfl⟩⟩,
        fun _ hx => hx.elim, fun _ hk => hk.elim, fun p' a' hmem => by
          obtain ⟨rfl, rfl⟩ := FreezeTask.slot.inj (List.mem_singleton.1 hmem)
          exact Relation.ReflTransGen.refl,
        fun _ hmem => by simp at hmem, Or.inr List.mem_cons_self, fun _ hx => hx.elim,
        fun _ hk => hk.elim⟩⟩ h
  obtain rfl : slots = _ := funext fun x => propext (hend.slots_iff x)
  obtain rfl : outputs = _ := funext fun k => propext (hend.outputs_iff k)
  exact hend

/-! ## Freezing all groups -/

/-- What freezing makes of a declaration when the attributes in `done` are gone through. What a
type has reached is frozen by it, all else is as it was. -/
structure Frozen (types : Hierarchy) (known : Nat × Nat → Option ClassType)
    (done : List (Nat × Nat)) (d d' : Declaration) : Prop where
  bare : d'.bare = d.bare
  slot : ∀ p a s', d'.slot? p a = some s' → ∃ s, d.slot? p a = some s ∧
    ((∃ t, Freezing d.feedsAt known done (p, a) t ∧ SlotFrozen types t s s') ∨
      (∀ t, ¬Freezing d.feedsAt known done (p, a) t) ∧ s' = s)
  output : ∀ (k : Nat) (o' : Output), d'.outputs[k]? = some o' →
    ∃ o, d.outputs[k]? = some o ∧
      ((∃ x t, k ∈ d.feedsAt x ∧ Freezing d.feedsAt known done x t ∧
          OutputFrozen types t o o') ∨
        (∀ x t, k ∈ d.feedsAt x → ¬Freezing d.feedsAt known done x t) ∧ o' = o)

theorem frozen_nil (types : Hierarchy) (known : Nat × Nat → Option ClassType)
    (d : Declaration) : d.Frozen types known [] d := by
  have hnone : ∀ x t, ¬Freezing d.feedsAt known [] x t := by
    rintro x t ⟨-, before, y, after, hnil, -⟩
    simp at hnil
  exact ⟨rfl, fun p a s hs => ⟨s, hs, Or.inr ⟨hnone (p, a), rfl⟩⟩,
    fun k o ho => ⟨o, ho, Or.inr ⟨fun x t _ => hnone x t, rfl⟩⟩⟩

namespace Frozen

variable {known : Nat × Nat → Option ClassType} {done : List (Nat × Nat)} {e e' : Declaration}
  {x : Nat × Nat}

/-- A frozen attribute feeds nothing any more. -/
theorem feedsAt_of_freezing (h : d.Frozen types known done e) {t : ClassType}
    (hx : Freezing d.feedsAt known done x t) : e.feedsAt x = [] := by
  unfold feedsAt
  cases hs' : e.slot? x.1 x.2 with
  | none => rfl
  | some s' =>
    obtain ⟨s, -, ⟨_, -, _, -, rfl⟩ | ⟨hnone, -⟩⟩ := h.slot x.1 x.2 s' hs'
    · rfl
    · exact absurd hx (hnone t)

/-- Any other one feeds what it fed. -/
theorem feedsAt_of_not_freezing (h : d.Frozen types known done e)
    (hx : ∀ t, ¬Freezing d.feedsAt known done x t) : e.feedsAt x = d.feedsAt x := by
  unfold feedsAt
  cases hs' : e.slot? x.1 x.2 with
  | none => rw [(slot?_eq_none_of_bare h.bare).1 hs']
  | some s' =>
    obtain ⟨s, hs, ⟨t, ht, -⟩ | ⟨-, rfl⟩⟩ := h.slot x.1 x.2 s' hs'
    · exact absurd ht (hx t)
    · rw [hs]

theorem not_freezing_of_feedsAt (h : d.Frozen types known done e) (hx : e.feedsAt x ≠ []) :
    ∀ t, ¬Freezing d.feedsAt known done x t :=
  fun _ ht => hx (h.feedsAt_of_freezing ht)

/-- An attribute that is still a pipeline in the end is as it was and holds nothing of known
type. -/
theorem unfrozen (h : d.Frozen types known (d.slots.map Prod.fst) e) {p a : Nat} {s : Slot}
    (hs : e.slot? p a = some s) (hfeeds : s.feeds ≠ []) :
    d.slot? p a = some s ∧ known (p, a) = none := by
  have hopen : e.feedsAt (p, a) ≠ [] := feedsAt_eq hs ▸ hfeeds
  have hnone := h.not_freezing_of_feedsAt hopen
  have hpipeline : d.feedsAt (p, a) ≠ [] := h.feedsAt_of_not_freezing hnone ▸ hopen
  obtain ⟨s₀, hs₀, ⟨t, ht, -⟩ | ⟨-, rfl⟩⟩ := h.slot p a s hs
  · exact absurd ht (hnone t)
  refine ⟨hs₀, ?_⟩
  by_contra hknown
  obtain ⟨t, ht⟩ := Freezing.exists_of_mem hpipeline (mem_slots_fst.2 ⟨s, hs₀⟩)
    Relation.ReflTransGen.refl hknown
  exact hnone t ht

theorem mem_feedsAt_iff (h : d.Frozen types known done e) {k : Nat} :
    k ∈ e.feedsAt x ↔ k ∈ d.feedsAt x ∧ ∀ t, ¬Freezing d.feedsAt known done x t := by
  by_cases hx : ∃ t, Freezing d.feedsAt known done x t
  · obtain ⟨t, ht⟩ := hx
    simp only [h.feedsAt_of_freezing ht, List.not_mem_nil, false_iff, not_and]
    exact fun _ hnone => hnone t ht
  · have hx : ∀ t, ¬Freezing d.feedsAt known done x t := fun t ht => hx ⟨t, ht⟩
    rw [h.feedsAt_of_not_freezing hx]
    exact ⟨fun hk => ⟨hk, hx⟩, And.left⟩

/-- An output that is not frozen has all its pipelines, one that is has none. -/
theorem linked (hd : d.Linked types) (h : d.Frozen types known done e) : e.Linked types := by
  refine ⟨fun k o' ho' p a => ?_, fun p a s' hs' hfeeds => ?_, fun k o' ho' hfedBy => ?_,
    fun p a s' hs' => ?_⟩
  · rw [h.mem_feedsAt_iff]
    obtain ⟨o, ho, ⟨x, t, hk, hx, _, -, -, -, rfl⟩ | ⟨hnone, rfl⟩⟩ := h.output k o' ho'
    · simp only [List.not_mem_nil, false_iff, not_and]
      exact fun hk' hpa => hpa t (hx.of_connected (.of_mem hk hk'))
    · rw [hd.fedBy k o' ho p a]
      exact ⟨fun hk => ⟨hk, fun t => hnone (p, a) t hk⟩, And.left⟩
  · obtain ⟨s, hs, ⟨t, -, _, -, rfl⟩ | ⟨-, rfl⟩⟩ := h.slot p a s' hs'
    · simp at hfeeds
    · exact hd.frozen p a s' hs hfeeds
  · obtain ⟨o, ho, ⟨x, t, -, -, _, -, -, -, rfl⟩ | ⟨-, rfl⟩⟩ := h.output k o' ho'
    · simp at hfedBy
    · exact hd.result k o' ho hfedBy
  · obtain ⟨s, hs, ⟨t, -, _, -, rfl⟩ | ⟨-, rfl⟩⟩ := h.slot p a s' hs'
    · exact hd.formed p a s hs
    · exact hd.formed p a s' hs

/-- An attribute that is frozen already, feeds nothing or has no known type changes nothing. -/
theorem pass (h : d.Frozen types known done e) {y : Nat × Nat}
    (hy : e.feedsAt y = [] ∨ known y = none) : d.Frozen types known (done ++ [y]) e := by
  have hsame : ∀ x t, Freezing d.feedsAt known (done ++ [y]) x t ↔
      Freezing d.feedsAt known done x t := by
    intro x t
    rw [Freezing.concat_iff]
    refine or_iff_left ?_
    rintro ⟨hnone, hx, hyx, hknown⟩
    rcases hy with hy | hy
    · have hynone : ∀ t, ¬Freezing d.feedsAt known done y t := fun t ht =>
        hnone t (ht.of_connected hyx)
      rw [h.feedsAt_of_not_freezing hynone] at hy
      exact hyx.symm.feeds_ne_nil hx hy
    · rw [hy] at hknown
      cases hknown
  refine ⟨h.bare, fun p a s' hs' => ?_, fun k o' ho' => ?_⟩
  · simp only [hsame]
    exact h.slot p a s' hs'
  · simp only [hsame]
    exact h.output k o' ho'

/-- A pipeline of known type freezes all that are connected to it. -/
theorem freeze (hw : types.WellFormed) (hd : d.Linked types) (h : d.Frozen types known done e)
    {p a : Nat} (hfeeds : e.feedsAt (p, a) ≠ []) (hknown : known (p, a) = some type)
    (htype : types.Formed type) (hfreeze : e.freeze types type [.slot p a] = .ok e') :
    d.Frozen types known (done ++ [(p, a)]) e' := by
  have hgroup := freeze_group hw htype (h.linked hd) hfeeds hfreeze
  have hnone := h.not_freezing_of_feedsAt hfeeds
  have hdfeeds : d.feedsAt (p, a) ≠ [] := h.feedsAt_of_not_freezing hnone ▸ hfeeds
  have hopen : ∀ x, Connected d.feedsAt (p, a) x →
      ∀ t, ¬Freezing d.feedsAt known done x t := fun x hx t ht =>
    hnone t (ht.of_connected hx.symm)
  -- The links of the group are still all there.
  have hconnected : ∀ x, Connected e.feedsAt (p, a) x ↔ Connected d.feedsAt (p, a) x := fun x =>
    ⟨fun hx => hx.mono fun z k hk => (h.mem_feedsAt_iff.1 hk).1,
      fun hx => hx.congr fun z hz => h.feedsAt_of_not_freezing (hopen z hz)⟩
  have hreached : ∀ x t, Freezing d.feedsAt known (done ++ [(p, a)]) x t ↔
      Freezing d.feedsAt known done x t ∨ Connected d.feedsAt (p, a) x ∧ t = type := by
    intro x t
    rw [Freezing.concat_iff]
    refine or_congr_right ⟨fun ⟨_, _, hx, ht⟩ => ⟨hx, ?_⟩, fun ⟨hx, ht⟩ => ?_⟩
    · exact Option.some.inj (ht.symm.trans hknown)
    · exact ⟨hopen x hx, hx.feeds_ne_nil hdfeeds, hx, ht ▸ hknown⟩
  refine ⟨(bare_freeze hfreeze).trans h.bare, fun p' a' s'' hs'' => ?_, fun k o'' ho'' => ?_⟩
  · obtain ⟨s', hs', hcase⟩ := hgroup.slot p' a' s'' hs''
    obtain ⟨s, hs, hold⟩ := h.slot p' a' s' hs'
    refine ⟨s, hs, ?_⟩
    simp only [hreached, hconnected] at hcase ⊢
    rcases hcase with ⟨hx, hfrozen⟩ | ⟨hx, rfl⟩
    · rcases hold with ⟨t, ht, -⟩ | ⟨-, rfl⟩
      · exact absurd ht (hopen _ hx t)
      · exact Or.inl ⟨type, Or.inr ⟨hx, rfl⟩, hfrozen⟩
    · refine hold.imp (fun ⟨t, ht, hfrozen⟩ => ⟨t, Or.inl ht, hfrozen⟩) fun ⟨hnot, heq⟩ =>
        ⟨fun t ht => ?_, heq⟩
      exact ht.elim (hnot t) fun ht => hx ht.1
  · obtain ⟨o', ho', hcase⟩ := hgroup.output k o'' ho''
    obtain ⟨o, ho, hold⟩ := h.output k o' ho'
    refine ⟨o, ho, ?_⟩
    simp only [hreached, hconnected] at hcase ⊢
    rcases hcase with ⟨⟨x, hx, hk⟩, hfrozen⟩ | ⟨hx, rfl⟩
    · have hk := (h.mem_feedsAt_iff.1 hk).1
      rcases hold with ⟨z, t, hk', ht, -⟩ | ⟨-, rfl⟩
      · exact absurd (ht.of_connected (.of_mem hk' hk)) (hopen x hx t)
      · exact Or.inl ⟨x, type, hk, Or.inr ⟨hx, rfl⟩, hfrozen⟩
    · refine hold.imp (fun ⟨z, t, hk, ht, hfrozen⟩ => ⟨z, t, hk, Or.inl ht, hfrozen⟩)
        fun ⟨hnot, heq⟩ => ⟨fun z t hk ht => ?_, heq⟩
      rcases ht with ht | ⟨hz, rfl⟩
      · exact hnot z t hk ht
      · exact hx ⟨z, hz, h.mem_feedsAt_iff.2 ⟨hk, hopen z hz⟩⟩

end Frozen

end Declaration

namespace Network

variable {n m c : Network}

/-- Freezing at an attribute changes its declaration if a type reaches it. -/
theorem freezeAt_eq_ok {id : SlotId} (h : n.freezeAt id = .ok m) : ∃ s, n.slot? id = some s ∧
    ((s.feeds = [] ∧ m = n) ∨ (n.freezingType? s = .ok none ∧ m = n) ∨
      s.feeds ≠ [] ∧ ∃ type d d', n.freezingType? s = .ok (some type) ∧
        n.declaration? id.declaration = some d ∧
          d.freeze n.types type [.slot id.param id.attr] = .ok d' ∧
            m = n.modifyDeclaration id.declaration fun _ => d') := by
  unfold freezeAt at h
  obtain ⟨s, hs, h⟩ := bind_eq_ok.1 h
  refine ⟨s, require_eq_ok.1 hs, ?_⟩
  split at h
  · rename_i hfeeds
    exact Or.inl ⟨List.isEmpty_iff.1 hfeeds, (pure_eq_ok.1 h).symm⟩
  · rename_i hfeeds
    obtain ⟨type, htype, h⟩ := bind_eq_ok.1 h
    cases type with
    | none => exact Or.inr (Or.inl ⟨htype, (pure_eq_ok.1 h).symm⟩)
    | some type =>
      obtain ⟨d, hd, h⟩ := bind_eq_ok.1 h
      obtain ⟨d', hfreeze, h⟩ := bind_eq_ok.1 h
      exact Or.inr (Or.inr ⟨fun h => hfeeds (List.isEmpty_iff.2 h), type, d, d', htype,
        require_eq_ok.1 hd, hfreeze, (pure_eq_ok.1 h).symm⟩)

theorem bare_freezeAt {id : SlotId} (h : n.freezeAt id = .ok m) : m.bare = n.bare := by
  obtain ⟨s, -, ⟨-, rfl⟩ | ⟨-, rfl⟩ | ⟨-, type, d, d', -, hd, hfreeze, rfl⟩⟩ := freezeAt_eq_ok h
  · rfl
  · rfl
  · refine bare_modifyDeclaration fun e he => ?_
    obtain rfl := Option.some.inj (hd.symm.trans he)
    exact Declaration.bare_freeze hfreeze

/-- Freezing keeps the wiring. -/
theorem bare_freezePipelines (h : n.freezePipelines = .ok m) : m.bare = n.bare :=
  foldlM_invariant (fun _ (c : Network) => c.bare = n.bare)
    (fun _ _ _ _ hc hok => (bare_freezeAt hok).trans hc) rfl h

end Network

end Blockwork
