import Blockwork.Proofs.Compilation

/-!
# What the check of types makes sure of

Checking records types on outputs while it goes, and so changes what later attributes are
checked against. Still every attribute accepts what its target provides when all is done:
the outputs an attribute can refer to belong to declarations executed before, and only checks
at a declaration itself record types on its outputs.

`Checked` says what checking makes of one declaration, and `checkTypes_checked` that it is so
for all of them in the checked network.
-/

namespace Blockwork

namespace Declaration

/-- The declaration with one more type recorded on outputs. -/
def recordAll (h : Hierarchy) (type : ClassType) (outputs : List Nat) (d : Declaration) :
    Declaration :=
  outputs.foldl
    (fun d o => d.modifyOutput o fun out => { out with result := some (h.widen out.result type) })
    d

variable {h : Hierarchy} {type : ClassType} {d d' : Declaration}

theorem parameters_recordAll (outputs : List Nat) :
    (d.recordAll h type outputs).parameters = d.parameters := by
  unfold recordAll
  induction outputs generalizing d with
  | nil => rfl
  | cons o outputs ih => rw [List.foldl_cons, ih, parameters_modifyOutput]

theorem bare_recordAll (outputs : List Nat) : (d.recordAll h type outputs).bare = d.bare := by
  unfold recordAll
  induction outputs generalizing d with
  | nil => rfl
  | cons o outputs ih =>
    rw [List.foldl_cons, ih]
    exact bare_modifyOutput fun _ => rfl

/-- What holds of the result of an output and is kept when the type is recorded, holds after
recording. Only the outputs in the list are touched. -/
theorem exists_output_of_recordAll {outputs : List Nat} {o : Nat} {out' : Output}
    (hout : (d.recordAll h type outputs).outputs[o]? = some out') :
    ∃ out, d.outputs[o]? = some out ∧ out' = { out with result := out'.result } ∧
      ∀ P : Option ClassType → Prop, P out.result →
        (o ∈ outputs → ∀ r, P r → P (some (h.widen r type))) → P out'.result := by
  unfold recordAll at hout
  induction outputs generalizing d with
  | nil => exact ⟨out', hout, rfl, fun _ h _ => h⟩
  | cons k outputs ih =>
    obtain ⟨mid, hmid, heq, hP⟩ := ih hout
    rw [outputs_modifyOutput] at hmid
    split at hmid
    · rename_i hk
      obtain ⟨out, hout, rfl⟩ := Option.map_eq_some_iff.1 hmid
      refine ⟨out, hout, heq, fun P h₀ hstep => hP P ?_ fun ho => ?_⟩
      · exact hstep (hk ▸ List.mem_cons_self) _ h₀
      · exact hstep (List.mem_cons_of_mem k ho)
    · exact ⟨mid, hmid, heq, fun P h₀ hstep => hP P h₀ fun ho =>
        hstep (List.mem_cons_of_mem k ho)⟩

/-- What checking makes of a declaration while the attributes in `left` are still to come and
targets provide the types they have in `c`. The attributes stay as they are, and what outputs
record are types that attributes feeding them accept. -/
structure Checked (c : Network) (left : List (Nat × Nat)) (d d' : Declaration) : Prop where
  bare : d'.bare = d.bare
  parameters : d'.parameters = d.parameters
  accepts : ∀ p a s t, d.slot? p a = some s → (p, a) ∉ left → s.binding = .reference t →
    ∃ provided, c.targetType? t = some provided ∧ c.types.assignable s.type provided = true
  outputs : ∀ o out', d'.outputs[o]? = some out' →
    ∃ out, d.outputs[o]? = some out ∧ out' = { out with result := out'.result } ∧
      ∀ P : Option ClassType → Prop, P out.result →
        (∀ p a s provided r, d.slot? p a = some s → o ∈ s.feeds →
          c.types.assignable s.type provided = true → P r →
            P (some (c.types.widen r provided))) → P out'.result

theorem checked_self (c : Network) (d : Declaration) :
    d.Checked c (d.slots.map Prod.fst) d where
  bare := rfl
  parameters := rfl
  accepts _ _ s _ hs hl := absurd (mem_slots_fst.2 ⟨s, hs⟩) hl
  outputs _ out' ho := ⟨out', ho, rfl, fun _ h _ => h⟩

/-- An output that nothing feeds stays as it is. -/
theorem Checked.output_eq {c : Network} {left : List (Nat × Nat)} (h : d.Checked c left d')
    {o : Nat} {out' : Output} (hout : d'.outputs[o]? = some out')
    (hnone : ∀ p a s, d.slot? p a = some s → o ∉ s.feeds) : d.outputs[o]? = some out' := by
  obtain ⟨out, hout, heq, hP⟩ := h.outputs o out' hout
  have hresult : out'.result = out.result :=
    hP (· = out.result) rfl fun p a s _ _ hs ho => absurd ho (hnone p a s hs)
  rw [hout, heq, hresult]

/-- What checking makes of a declaration depends on what its targets provide only. -/
theorem Checked.of_targetType? {c c' : Network} {left : List (Nat × Nat)}
    (h : d.Checked c left d') (htypes : c'.types = c.types)
    (hsame : ∀ p a s t, d.slot? p a = some s → s.binding = .reference t →
      c'.targetType? t = c.targetType? t) : d.Checked c' left d' where
  bare := h.bare
  parameters := h.parameters
  accepts p a s t hs hl ht := by
    rw [htypes, hsame p a s t hs ht]
    exact h.accepts p a s t hs hl ht
  outputs := by
    rw [htypes]
    exact h.outputs

end Declaration

namespace Network

variable {n m c : Network}

theorem recordProvided_eq (n : Network) (i : Nat) (type : ClassType) (outputs : List Nat) :
    n.recordProvided i type outputs =
      n.modifyDeclaration i (Declaration.recordAll n.types type outputs) := by
  unfold recordProvided
  induction outputs generalizing n with
  | nil =>
    show n = { n with declarations := n.declarations.modify i id }
    rw [List.modify_id]
  | cons o outputs ih =>
    rw [List.foldl_cons, ih, modifyDeclaration_modifyDeclaration]
    rfl

/-- A checked attribute that refers to something accepts what its target provides, and its
outputs record it. -/
theorem checkAt_eq_ok {id : SlotId} (h : n.checkAt id = .ok m) : ∃ s, n.slot? id = some s ∧
    ((∃ t provided, s.binding = .reference t ∧ n.targetType? t = some provided ∧
      n.types.assignable s.type provided = true ∧
        m = n.modifyDeclaration id.declaration
          (Declaration.recordAll n.types provided s.feeds)) ∨
      (∀ t, s.binding ≠ .reference t) ∧ m = n) := by
  unfold checkAt at h
  obtain ⟨s, hs, h⟩ := bind_eq_ok.1 h
  refine ⟨s, require_eq_ok.1 hs, ?_⟩
  split at h
  · rename_i t ht
    obtain ⟨provided, hp, h⟩ := bind_eq_ok.1 h
    split at h
    · rename_i hassign
      rw [pure_eq_ok, recordProvided_eq] at h
      exact Or.inl ⟨t, provided, ht, require_eq_ok.1 hp, hassign, h.symm⟩
    · simp [reject] at h
  · rename_i hne
    exact Or.inr ⟨hne, (pure_eq_ok.1 h).symm⟩

theorem bare_checkAt {id : SlotId} (h : n.checkAt id = .ok m) : m.bare = n.bare := by
  obtain ⟨s, -, ⟨t, provided, -, -, -, rfl⟩ | ⟨-, rfl⟩⟩ := checkAt_eq_ok h
  · exact bare_modifyDeclaration fun _ _ => Declaration.bare_recordAll _
  · rfl

/-- What a declaration refers to lies in declarations it depends on. -/
theorem targetType?_modifyDeclaration_of_not_dependsOn {i j : Nat} {d : Declaration}
    (hd : c.declaration? i = some d) (hij : ¬c.dependsOn i j = true) {p a : Nat} {s : Slot}
    {t : Target} (hs : d.slot? p a = some s) (ht : s.binding = .reference t)
    (f : Declaration → Declaration) :
    (c.modifyDeclaration j f).targetType? t = c.targetType? t := by
  refine targetType?_modifyDeclaration (fun id hid => ?_) f
  exact ne_of_not_dependsOn hd hij hs (hid ▸ ht)

/-- A check at one attribute, which refers to something in another declaration. -/
theorem checked_checkAt {i p a : Nat} {d e : Declaration} {left : List (Nat × Nat)}
    (hd : c.declaration? i = some d) (hself : ¬c.dependsOn i i = true)
    (he : d.Checked c ((p, a) :: left) e)
    (h : (c.modifyDeclaration i fun _ => e).checkAt ⟨i, p, a⟩ = .ok m) :
    ∃ e', m = (c.modifyDeclaration i fun _ => e') ∧ d.Checked c left e' := by
  obtain ⟨s, hs, hcase⟩ := checkAt_eq_ok h
  rw [slot?_replace hd, Declaration.slot?_congr he.parameters] at hs
  have hleft : ∀ {p' a' : Nat} {s' : Slot}, d.slot? p' a' = some s' → (p', a') ∉ left →
      s' = s ∨ (p', a') ∉ (p, a) :: left := fun {p' a' s'} hs' hl => by
    by_cases hpa : (p', a') = (p, a)
    · obtain ⟨rfl, rfl⟩ := Prod.mk.inj hpa
      exact Or.inl (Option.some.inj (hs'.symm.trans hs))
    · exact Or.inr (by simp [hpa, hl])
  rcases hcase with ⟨t, provided, ht, hp, hassign, rfl⟩ | ⟨hne, rfl⟩
  · rw [targetType?_modifyDeclaration_of_not_dependsOn hd hself hs ht] at hp
    refine ⟨e.recordAll c.types provided s.feeds, ?_, ?_, ?_,
      fun p' a' s' t' hs' hl ht' => ?_, fun o out' ho => ?_⟩
    · rw [modifyDeclaration_modifyDeclaration]
      rfl
    · rw [Declaration.bare_recordAll, he.bare]
    · rw [Declaration.parameters_recordAll, he.parameters]
    · rcases hleft hs' hl with rfl | hl
      · obtain rfl := Binding.reference.inj (ht.symm.trans ht')
        exact ⟨provided, hp, hassign⟩
      · exact he.accepts p' a' s' t' hs' hl ht'
    · obtain ⟨mid, hmid, hmideq, hP⟩ := Declaration.exists_output_of_recordAll ho
      obtain ⟨out, hout, houteq, hP'⟩ := he.outputs o mid hmid
      refine ⟨out, hout, ?_, fun P h₀ hstep => ?_⟩
      · rw [hmideq, houteq]
      · exact hP P (hP' P h₀ hstep) fun ho r hr => hstep p a s provided r hs ho hassign hr
  · refine ⟨e, rfl, he.bare, he.parameters, fun p' a' s' t' hs' hl ht' => ?_, he.outputs⟩
    rcases hleft hs' hl with rfl | hl
    · exact absurd ht' (hne t')
    · exact he.accepts p' a' s' t' hs' hl ht'

/-- Checking a forward network keeps its wiring, and every declaration is checked against what
its targets provide in the end. -/
theorem checkTypes_checked (hn : n.Forward) (h : n.checkTypes = .ok m) :
    m.bare = n.bare ∧ ∀ i ∈ n.order, ∀ d, n.declaration? i = some d →
      ∃ d', m.declaration? i = some d' ∧ d.Checked m [] d' := by
  unfold checkTypes at h
  rw [foldlM_slotIds] at h
  obtain ⟨hbare, -, hR⟩ := stage_invariant (I := fun _ => True)
    (R := fun c i => ∀ d, n.declaration? i = some d →
      ∃ d', c.declaration? i = some d' ∧ d.Checked c [] d') hn trivial
    (fun c i c' hbare hsame hi _ hok => by
      obtain ⟨d, hd⟩ := exists_declaration?_of_mem_positions (hn.perm.mem_iff.1 hi)
      have hc : c.declaration? i = some d := hsame.trans hd
      have hself : ¬c.dependsOn i i = true := by
        rw [dependsOn_congr hbare]
        exact (hn.executable.not_dependsOn fun _ => hn.perm.mem_iff.1).2 i hi
      rw [← slotIdsAt_congr hsame] at hok
      obtain ⟨e, rfl, he⟩ := slotIdsAt_invariant (fun l e => d.Checked c l e) hc
        (d.checked_self c) (fun x l e m he hok => checked_checkAt hc hself he hok) hok
      refine ⟨fun _ => e, fun d' hd' => ?_, rfl, trivial, fun d' hd' => ?_⟩
      · obtain rfl := Option.some.inj (hc.symm.trans hd')
        exact he.bare
      · obtain rfl := Option.some.inj (hd.symm.trans hd')
        refine ⟨e, declaration?_replace hc, he.of_targetType? rfl fun p a s t hs ht =>
          targetType?_modifyDeclaration_of_not_dependsOn hc hself hs ht _⟩)
    (fun c i j f hbare hf hji hij hR d hd => by
      obtain ⟨d', hd', hchecked⟩ := hR d hd
      have hdep : ¬c.dependsOn i j = true := by
        rw [dependsOn_congr hbare]
        exact hij
      refine ⟨d', ?_, hchecked.of_targetType? rfl fun p a s t hs ht => ?_⟩
      · rw [declaration?_modifyDeclaration_of_ne _ hji, hd']
      · rw [← Declaration.slot?_congr hchecked.parameters] at hs
        exact targetType?_modifyDeclaration_of_not_dependsOn hd' hdep hs ht f)
    h
  exact ⟨hbare, hR⟩

end Network

end Blockwork
