import Blockwork.Proofs.Checking

/-!
# Stages in any order

Freezing and checking go through the declarations in the order of execution, and there may be many
such orders. A step at an attribute changes its declaration only, in a way that depends on what the
declaration holds and on what it refers to (`ActsAt`). All this comes before it in any forward
order, so a run of such steps leaves the same declarations whatever the order is
(`foldlM_any_order`). The runs agree even if they start in networks that tell inputs apart in more
than their types.
-/

namespace Blockwork

namespace Network

variable {n n' m c c' : Network} {i j : Nat} {d e : Declaration}

/-! ## What a declaration sees -/

/-- What the declaration refers to is the same in two networks: the outputs, and the types of the
inputs. -/
structure SeenAlike (c c' : Network) (d : Declaration) : Prop where
  types : c'.types = c.types
  inputs : ∀ id, c'.targetType? (.input id) = c.targetType? (.input id)
  outputs : ∀ p a s id, d.slot? p a = some s → s.binding = .reference (.output id) →
    c'.output? id = c.output? id

namespace SeenAlike

theorem refl (c : Network) (d : Declaration) : SeenAlike c c d :=
  ⟨rfl, fun _ => rfl, fun _ _ _ _ _ _ => rfl⟩

theorem targetType? (h : SeenAlike c c' d) {p a : Nat} {s : Slot} {t : Target}
    (hs : d.slot? p a = some s) (ht : s.binding = .reference t) :
    c'.targetType? t = c.targetType? t := by
  cases t with
  | input id => exact h.inputs id
  | output id => exact congrArg (Option.map Output.type) (h.outputs p a s id hs ht)

/-- What a slot is frozen by depends on what its declaration sees. -/
theorem freezingType? (h : SeenAlike c c' d) {p a : Nat} {s : Slot} (hs : d.slot? p a = some s) :
    c'.freezingType? s = c.freezingType? s := by
  unfold Network.freezingType?
  rw [h.types]
  split
  · rfl
  · rw [h.outputs p a s _ hs ‹_›]
  · rfl

theorem output?_replace (hd : c.declaration? i = some d) (hd' : c'.declaration? i = some d)
    {id : OutputId} (hid : i ≠ id.declaration → c'.output? id = c.output? id) :
    (c'.modifyDeclaration i fun _ => e).output? id =
      (c.modifyDeclaration i fun _ => e).output? id := by
  by_cases hi : i = id.declaration
  · unfold output?
    rw [← hi, declaration?_replace hd, declaration?_replace hd']
  · rw [output?_modifyDeclaration_of_ne hi, output?_modifyDeclaration_of_ne hi]
    exact hid hi

/-- A declaration may be replaced in both networks. -/
theorem replace (h : SeenAlike c c' d) (hd : c.declaration? i = some d)
    (hd' : c'.declaration? i = some d) (he : e.bare = d.bare) :
    SeenAlike (c.modifyDeclaration i fun _ => e) (c'.modifyDeclaration i fun _ => e) e where
  types := h.types
  inputs := h.inputs
  outputs p a s id hs ht := by
    obtain ⟨s', hs', hbare⟩ := Declaration.exists_slot?_of_bare he hs
    exact output?_replace hd hd' fun _ =>
      h.outputs p a s' id hs' ((congrArg Slot.binding hbare).symm.trans ht)

end SeenAlike

/-! ## Steps at a declaration -/

/-- The run changes one declaration, in a way that depends on what this sees. -/
def ActsAt (run : Network → Except Fault Network) (i : Nat) : Prop :=
  ∀ ⦃c c' d m⦄, c.declaration? i = some d → c'.declaration? i = some d → SeenAlike c c' d →
    run c = .ok m → ∃ e, e.bare = d.bare ∧ (m = c.modifyDeclaration i fun _ => e) ∧
      run c' = .ok (c'.modifyDeclaration i fun _ => e)

/-- Steps at one declaration after the other act there as a whole. -/
theorem ActsAt.foldlM {κ : Type} {step : Network → κ → Except Fault Network} :
    ∀ {l : List κ}, (∀ x ∈ l, ActsAt (step · x) i) → ActsAt (fun c => l.foldlM step c) i
  | [], _ => fun c c' d m hd hd' _ h => by
    obtain rfl := pure_eq_ok.1 h
    refine ⟨d, rfl, (modifyDeclaration_self hd).symm, ?_⟩
    rw [modifyDeclaration_self hd']
    rfl
  | x :: l, hstep => fun c c' d m hd hd' halike h => by
    simp only [List.foldlM_cons] at h ⊢
    obtain ⟨c₁, hfirst, h⟩ := bind_eq_ok.1 h
    obtain ⟨e₁, he₁, rfl, hfirst'⟩ := hstep x List.mem_cons_self hd hd' halike hfirst
    obtain ⟨e, he, rfl, hrest'⟩ :=
      ActsAt.foldlM (fun y hy => hstep y (List.mem_cons_of_mem x hy)) (declaration?_replace hd)
        (declaration?_replace hd') (halike.replace hd hd' he₁) h
    refine ⟨e, he.trans he₁, modifyDeclaration_modifyDeclaration .., ?_⟩
    rw [modifyDeclaration_modifyDeclaration] at hrest'
    exact bind_eq_ok.2 ⟨_, hfirst', hrest'⟩

/-- Changing the declaration that is found at the position replaces it. -/
theorem modifyDeclaration_eq_replace (hd : c.declaration? i = some d)
    (f : Declaration → Declaration) :
    c.modifyDeclaration i f = c.modifyDeclaration i fun _ => f d := by
  unfold modifyDeclaration
  unfold declaration? at hd
  refine congrArg (fun ds => { c with declarations := ds }) (List.ext_getElem? fun j => ?_)
  rw [List.getElem?_modify, List.getElem?_modify]
  split
  · rename_i hj
    rw [← hj, hd]
    rfl
  · rfl

theorem actsAt_freezeAt (id : SlotId) : ActsAt (freezeAt · id) id.declaration := by
  intro c c' d m hd hd' halike h
  obtain ⟨s, hs, hcase⟩ := freezeAt_eq_ok h
  rw [slot?_of_declaration? hd] at hs
  have hs' : c'.slot? id = some s := (slot?_of_declaration? hd').trans hs
  unfold freezeAt
  simp only
  rcases hcase with ⟨hfeeds, rfl⟩ | ⟨hnone, rfl⟩ | ⟨hfeeds, type, d₀, e, htype, hd₀, hfreeze, rfl⟩
  · refine ⟨d, rfl, (modifyDeclaration_self hd).symm, ?_⟩
    rw [modifyDeclaration_self hd']
    exact bind_eq_ok.2 ⟨s, require_eq_ok.2 hs', if_pos (List.isEmpty_iff.2 hfeeds)⟩
  · refine ⟨d, rfl, (modifyDeclaration_self hd).symm, ?_⟩
    rw [modifyDeclaration_self hd']
    refine bind_eq_ok.2 ⟨s, require_eq_ok.2 hs', ?_⟩
    rw [halike.freezingType? hs, hnone]
    exact ite_self _
  · obtain rfl := Option.some.inj (hd.symm.trans hd₀)
    refine ⟨e, Declaration.bare_freeze hfreeze, rfl, ?_⟩
    rw [← halike.types] at hfreeze
    refine bind_eq_ok.2 ⟨s, require_eq_ok.2 hs', (if_neg (mt List.isEmpty_iff.1 hfeeds)).trans ?_⟩
    refine bind_eq_ok.2 ⟨some type, (halike.freezingType? hs).trans htype, ?_⟩
    exact bind_eq_ok.2 ⟨d, require_eq_ok.2 hd', bind_eq_ok.2 ⟨e, hfreeze, rfl⟩⟩

theorem actsAt_checkAt (id : SlotId) : ActsAt (checkAt · id) id.declaration := by
  intro c c' d m hd hd' halike h
  obtain ⟨s, hs, hcase⟩ := checkAt_eq_ok h
  rw [slot?_of_declaration? hd] at hs
  have hs' : c'.slot? id = some s := (slot?_of_declaration? hd').trans hs
  rcases hcase with ⟨t, provided, ht, hp, hassign, rfl⟩ | ⟨hne, rfl⟩
  · rw [← halike.targetType? hs ht] at hp
    rw [← halike.types] at hassign
    refine ⟨d.recordAll c'.types provided s.feeds, Declaration.bare_recordAll _, ?_, ?_⟩
    · rw [modifyDeclaration_eq_replace hd, halike.types]
    · refine (checkAt_of_assignable hs' ht hp hassign).trans ?_
      rw [recordProvided_eq, modifyDeclaration_eq_replace hd']
  · refine ⟨d, rfl, (modifyDeclaration_self hd).symm, ?_⟩
    rw [modifyDeclaration_self hd']
    exact checkAt_of_not_reference hs' hne

/-! ## Runs over all declarations -/

/-- After a run, the step at a declaration makes of its first version what it is. -/
theorem solved_of_foldlM {step : Network → Nat → Except Fault Network}
    (hstep : ∀ i, ActsAt (step · i) i) (hn : n.Forward) (h : n.order.foldlM step n = .ok m) :
    m.bare = n.bare ∧ ∀ i d, n.declaration? i = some d →
      step (m.modifyDeclaration i fun _ => d) i = .ok m := by
  obtain ⟨hbare, -, hsolved⟩ := stage_invariant (I := fun _ => True)
    (R := fun c i => ∀ d, n.declaration? i = some d →
      step (c.modifyDeclaration i fun _ => d) i = .ok c) hn trivial
    (fun c i c' _ hsame hi _ hok => by
      obtain ⟨d, hd⟩ := exists_declaration?_of_mem_positions (hn.perm.mem_iff.1 hi)
      have hc : c.declaration? i = some d := hsame.trans hd
      obtain ⟨e, he, rfl, -⟩ := hstep i hc hc (.refl c d) hok
      refine ⟨fun _ => e, fun d' hd' => ?_, rfl, trivial, fun d' hd' => ?_⟩
      · rw [he, Option.some.inj (hc.symm.trans hd')]
      · obtain rfl := Option.some.inj (hd.symm.trans hd')
        rw [modifyDeclaration_modifyDeclaration, modifyDeclaration_self hc]
        exact hok)
    (fun c i j f hbare _ hji hij hsolved d hd => by
      obtain ⟨d₀, hd₀, -⟩ := exists_declaration?_of_bare hbare.symm hd
      have hd₀' : (c.modifyDeclaration j f).declaration? i = some d₀ :=
        (declaration?_modifyDeclaration_of_ne _ hji f).trans hd₀
      have halike : SeenAlike (c.modifyDeclaration i fun _ => d)
          ((c.modifyDeclaration j f).modifyDeclaration i fun _ => d) d :=
        ⟨rfl, fun _ => rfl, fun p a s id hs ht =>
          SeenAlike.output?_replace hd₀ hd₀' fun _ =>
            output?_modifyDeclaration_of_ne (ne_of_not_dependsOn hd hij hs ht) f⟩
      obtain ⟨e, -, hc, hstep'⟩ := hstep i (declaration?_replace hd₀)
        (declaration?_replace hd₀') halike (hsolved d hd)
      rw [modifyDeclaration_modifyDeclaration] at hc hstep'
      have he : (c.modifyDeclaration j f).declaration? i = some e := by
        rw [declaration?_modifyDeclaration_of_ne _ hji f, hc, declaration?_replace hd₀]
      exact hstep'.trans (congrArg _ (modifyDeclaration_self he)))
    h
  exact ⟨hbare, fun i d hd => hsolved i (hn.mem_order hd) d hd⟩

/-- A network in which the declarations in `done` are as in `m`, and all others as in `n`. -/
structure Follows (n m : Network) (done : List Nat) (c : Network) : Prop where
  types : c.types = n.types
  inputs : ∀ id, c.targetType? (.input id) = n.targetType? (.input id)
  made : ∀ j ∈ done, c.declaration? j = m.declaration? j
  left : ∀ j, j ∉ done → c.declaration? j = n.declaration? j

namespace Follows

variable {done : List Nat}

/-- What depends on `done` only sees what it does in `m`. -/
theorem seenAlike (h : Follows n m done c) (hbare : m.bare = n.bare)
    (hd : n.declaration? i = some d) (hnew : i ∉ done)
    (hready : ∀ j ∈ n.dependencies i, j ∈ done) :
    SeenAlike (m.modifyDeclaration i fun _ => d) c d where
  types := h.types.trans (congrArg Network.types hbare.symm :)
  inputs id := by
    have hparams : n.params = m.params := (congrArg Network.params hbare.symm :)
    refine (h.inputs id).trans ?_
    unfold targetType?
    rw [input?_congr hparams]
    rfl
  outputs p a s id hs ht := by
    have hdep : n.dependsOn i id.declaration = true :=
      dependsOn_iff.2 ⟨d, hd, Declaration.mem_referredTo.2 ⟨p, a, s, id.output, hs, ht⟩⟩
    have hdone : id.declaration ∈ n.positions → id.declaration ∈ done := fun hid =>
      hready _ (mem_dependencies.2 ⟨hid, hdep⟩)
    have hne : i ≠ id.declaration := fun heq => hnew <| by
      rw [heq]
      exact hdone (heq ▸ mem_positions.2 (List.getElem?_eq_some_iff.1 hd).1)
    have hdeclaration : c.declaration? id.declaration = m.declaration? id.declaration := by
      by_cases hmem : id.declaration ∈ done
      · exact h.made _ hmem
      · have hnone : n.declaration? id.declaration = none :=
          List.getElem?_eq_none (Nat.le_of_not_lt fun hlt => hmem (hdone (mem_positions.2 hlt)))
        rw [h.left _ hmem, hnone, (declaration?_eq_none_of_bare hbare).2 hnone]
    rw [output?_modifyDeclaration_of_ne hne]
    unfold output?
    rw [hdeclaration]

/-- The next declaration becomes what it is in `m`. -/
theorem replace (h : Follows n m done c) (hc : c.declaration? i = some d)
    (he : m.declaration? i = some e) :
    Follows n m (i :: done) (c.modifyDeclaration i fun _ => e) where
  types := h.types
  inputs := h.inputs
  made j hj := by
    by_cases hji : i = j
    · rw [← hji, declaration?_replace hc, he]
    · rw [declaration?_modifyDeclaration_of_ne _ hji]
      exact h.made j ((List.mem_cons.1 hj).resolve_left (Ne.symm hji))
  left j hj := by
    rw [List.mem_cons, not_or] at hj
    rw [declaration?_modifyDeclaration_of_ne _ (Ne.symm hj.1)]
    exact h.left j hj.2

end Follows

/-- A run over the declarations leaves the same ones in any forward order. -/
theorem foldlM_any_order {step : Network → Nat → Except Fault Network}
    (hstep : ∀ i, ActsAt (step · i) i) (hn : n.Forward) (hn' : n'.Forward)
    (htypes : n'.types = n.types) (hdecls : n'.declarations = n.declarations)
    (hinputs : ∀ id, n'.targetType? (.input id) = n.targetType? (.input id))
    (h : n.order.foldlM step n = .ok m) :
    ∃ m', n'.order.foldlM step n' = .ok m' ∧ m'.declarations = m.declarations := by
  obtain ⟨hbare, hsolved⟩ := solved_of_foldlM hstep hn h
  have hexec : n.Executable [] n'.order :=
    hn'.executable.of_declarations (congrArg (List.map Declaration.bare) hdecls.symm)
  have hpositions : ∀ j, j ∈ n'.order ↔ j ∈ n.positions := fun j => by
    rw [hn'.perm.mem_iff, positions, positions, hdecls]
  -- Each declaration finds what it depends on as the other run has left it.
  obtain ⟨m', hm', done, -, hall, hfollows⟩ := exists_of_foldlM_steps
    (fun rest (c : Network) => ∃ done, n.Executable done rest ∧
      (∀ j, j ∈ n.positions ↔ j ∈ done ∨ j ∈ rest) ∧ Follows n m done c)
    (fun i rest c hdone => by
      obtain ⟨done, ⟨hnew, hready, hexec⟩, hall, hfollows⟩ := hdone
      obtain ⟨d, hd⟩ := exists_declaration?_of_mem_positions
        ((hall i).2 (Or.inr List.mem_cons_self))
      obtain ⟨d', hd', -⟩ := exists_declaration?_of_bare hbare.symm hd
      have hc : c.declaration? i = some d := (hfollows.left i hnew).trans hd
      obtain ⟨e, -, hm, hok⟩ := hstep i (declaration?_replace hd') hc
        (hfollows.seenAlike hbare hd hnew hready) (hsolved i d hd)
      rw [modifyDeclaration_modifyDeclaration] at hm
      have he : m.declaration? i = some e := by
        rw [hm, declaration?_replace hd']
      refine ⟨_, hok, i :: done, hexec, fun j => ?_, hfollows.replace hc he⟩
      rw [hall, List.mem_cons, List.mem_cons]
      tauto)
    (l := n'.order) (s := n')
    ⟨[], hexec, fun j => by simp [hpositions], htypes, hinputs, by simp,
      fun j _ => congrFun (declaration?_congr hdecls) j⟩
  refine ⟨m', hm', List.ext_getElem? fun j => ?_⟩
  by_cases hj : j ∈ n.positions
  · exact hfollows.made j (((hall j).1 hj).resolve_right List.not_mem_nil)
  · have hnone : n.declaration? j = none :=
      List.getElem?_eq_none (Nat.le_of_not_lt fun hlt => hj (mem_positions.2 hlt))
    have hdone : j ∉ done := fun hmem => hj ((hall j).2 (Or.inl hmem))
    exact ((hfollows.left j hdone).trans hnone).trans
      ((declaration?_eq_none_of_bare hbare).2 hnone).symm

/-- The declarations that a run over the attributes leaves are the same in any forward order. -/
theorem foldlM_slotIds_any_order {step : Network → SlotId → Except Fault Network}
    (hstep : ∀ id, ActsAt (step · id) id.declaration) (hn : n.Forward) (hn' : n'.Forward)
    (htypes : n'.types = n.types) (hdecls : n'.declarations = n.declarations)
    (hinputs : ∀ id, n'.targetType? (.input id) = n.targetType? (.input id)) :
    (n'.slotIds.foldlM step n').toOption.map declarations =
      (n.slotIds.foldlM step n).toOption.map declarations := by
  have hsteps : ∀ i, ActsAt (fun c => (n.slotIdsAt i).foldlM step c) i := fun i =>
    ActsAt.foldlM fun id hid => (mem_slotIdsAt.1 hid).1 ▸ hstep id
  have hids : n'.slotIdsAt = n.slotIdsAt :=
    funext fun i => slotIdsAt_congr (congrFun (declaration?_congr hdecls) i)
  rw [foldlM_slotIds, foldlM_slotIds, hids]
  refine Option.ext fun ds => ?_
  simp only [Option.map_eq_some_iff, toOption_eq_some]
  constructor
  · rintro ⟨m, hm, rfl⟩
    exact foldlM_any_order hsteps hn' hn htypes.symm hdecls.symm (fun id => (hinputs id).symm) hm
  · rintro ⟨m, hm, rfl⟩
    exact foldlM_any_order hsteps hn hn' htypes hdecls hinputs hm

end Network

end Blockwork
