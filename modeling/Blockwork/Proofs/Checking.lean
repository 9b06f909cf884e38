import Blockwork.Proofs.Inference
import Blockwork.Proofs.TypeCheck

/-!
# How far the check of types gets

Checking goes forward through the attributes and records on each output the types that its
pipelines carry. While it goes, an output with pipelines has the join of what the pipelines already
gone through are supplied with (`CheckedTo`), and since what an attribute refers to comes before it,
it is checked against the type that its target provides. So a reference to an open target passes the
check in a network with inferred types (`exists_checkAt`), and in the end every target has the type
it provides (`provides_checkTypes`).
-/

namespace Blockwork

namespace Declaration

variable {h : Hierarchy} {type : ClassType}

/-- Recording a type on outputs named once each. -/
theorem outputs_recordAll {outputs : List Nat} (hnodup : outputs.Nodup) (d : Declaration)
    (o : Nat) : (d.recordAll h type outputs).outputs[o]? =
      if o ∈ outputs then
        d.outputs[o]?.map fun out => { out with result := some (h.widen out.result type) }
      else d.outputs[o]? := by
  unfold recordAll
  induction outputs generalizing d with
  | nil => rfl
  | cons k outputs ih =>
    obtain ⟨hk, hnodup⟩ := List.nodup_cons.1 hnodup
    rw [List.foldl_cons, ih hnodup, outputs_modifyOutput]
    by_cases hko : k = o
    · subst hko
      simp [hk]
    · simp [hko, Ne.symm hko]

end Declaration

namespace Network

variable {n m c c' : Network} {id : SlotId} {before after : List SlotId} {s : Slot} {t : Target}

/-! ## One attribute -/

theorem slot?_recordAll (n : Network) (i : Nat) (type : ClassType) (outputs : List Nat) :
    (n.modifyDeclaration i (Declaration.recordAll n.types type outputs)).slot? = n.slot? := by
  funext id
  unfold slot?
  rw [declaration?_modifyDeclaration]
  split
  · cases n.declaration? id.declaration with
    | none => rfl
    | some d => exact Declaration.slot?_congr (Declaration.parameters_recordAll outputs) _ _
  · rfl

theorem output?_recordAll (n : Network) (i : Nat) (type : ClassType) {outputs : List Nat}
    (hnodup : outputs.Nodup) (id : OutputId) :
    (n.modifyDeclaration i (Declaration.recordAll n.types type outputs)).output? id =
      if i = id.declaration ∧ id.output ∈ outputs then
        (n.output? id).map fun o => { o with result := some (n.types.widen o.result type) }
      else n.output? id := by
  unfold output?
  rw [declaration?_modifyDeclaration]
  by_cases hi : i = id.declaration
  · cases n.declaration? id.declaration with
    | none => simp [hi]
    | some d => simp [hi, Declaration.outputs_recordAll hnodup]
  · simp [hi]

theorem checkAt_of_assignable (hs : n.slot? id = some s) (ht : s.binding = .reference t)
    {type : ClassType} (hp : n.targetType? t = some type)
    (hassign : n.types.assignable s.type type = true) :
    n.checkAt id = .ok (n.recordProvided id.declaration type s.feeds) := by
  unfold checkAt
  refine bind_eq_ok.2 ⟨s, require_eq_ok.2 hs, ?_⟩
  simp only [ht]
  exact bind_eq_ok.2 ⟨type, require_eq_ok.2 hp, if_pos hassign⟩

theorem checkAt_of_not_reference (hs : n.slot? id = some s) (hne : ∀ t, s.binding ≠ .reference t) :
    n.checkAt id = .ok n := by
  unfold checkAt
  refine bind_eq_ok.2 ⟨s, require_eq_ok.2 hs, ?_⟩
  split
  · exact absurd ‹_› (hne _)
  · rfl

/-! ## The attributes gone through -/

/-- One of these attributes is a pipeline into the output. -/
def FeedsAmong (n : Network) (before : List SlotId) (id : OutputId) (x : SlotId) : Prop :=
  x ∈ before ∧ n.Feeds x id

theorem feedsAmong_concat {oid : OutputId} (h : n.Feeds id oid) (x : SlotId) :
    n.FeedsAmong (before ++ [id]) oid x ↔ n.FeedsAmong before oid x ∨ x = id := by
  unfold FeedsAmong
  rw [List.mem_append, List.mem_singleton, or_and_right,
    and_iff_left_of_imp (b := n.Feeds x oid) (a := x = id) fun hx => hx ▸ h]

theorem feedsAmong_concat_of_not_feeds {oid : OutputId} (h : ¬n.Feeds id oid) (x : SlotId) :
    n.FeedsAmong (before ++ [id]) oid x ↔ n.FeedsAmong before oid x := by
  unfold FeedsAmong
  rw [List.mem_append, List.mem_singleton, or_and_right, or_iff_left]
  rintro ⟨rfl, hx⟩
  exact h hx

/-- What checking the attributes in `before` makes of a network. Outputs with pipelines have the
join of what is supplied over the pipelines among these attributes. -/
structure CheckedTo (n : Network) (before : List SlotId) (c : Network) : Prop where
  types : c.types = n.types
  slots : c.slot? = n.slot?
  inputs : c.input? = n.input?
  outputs : ∀ id o, n.output? id = some o → ∃ result, c.output? id = some { o with result } ∧
    (o.fedBy = [] → result = o.result) ∧
    (o.fedBy ≠ [] → n.types.JoinOver (n.FeedsAmong before id) n.SuppliesSlot result)

theorem Prepared.checkedTo_nil (hn : n.Prepared) : n.CheckedTo [] n where
  types := rfl
  slots := rfl
  inputs := rfl
  outputs id o ho := by
    obtain ⟨d, hd, ho'⟩ := output?_eq_some.1 ho
    refine ⟨o.result, ho, fun _ => rfl, fun hfed => ?_⟩
    rw [(hn.linked _ d hd).result id.output o ho' hfed]
    exact Hierarchy.joinOver_none.2 fun x hx => List.not_mem_nil hx.1

namespace CheckedTo

/-- A target whose pipelines are all gone through has the type it provides. -/
theorem provides (h : n.CheckedTo before c) (hn : n.Prepared) (hi : n.InputsReduced)
    (ht : n.HasTarget t) (hfed : ∀ id, t = .output id → ∀ x, n.Feeds x id → x ∈ before) :
    ∃ type, c.targetType? t = some type ∧ n.Provides t type := by
  obtain ⟨type, htype⟩ := ht
  cases t with
  | input id =>
    obtain ⟨i, hinput, rfl⟩ := Option.map_eq_some_iff.1 htype
    refine ⟨i.type, ?_, hi.provides hn.types hinput⟩
    show (c.input? id).map BlockInput.type = _
    rw [h.inputs, hinput]
    rfl
  | output id =>
    obtain ⟨o, ho, -⟩ := Option.map_eq_some_iff.1 htype
    obtain ⟨result, hc, hfixed, hjoin⟩ := h.outputs id o ho
    refine ⟨_, congrArg (Option.map Output.type) hc, ?_⟩
    by_cases hnil : o.fedBy = []
    · obtain rfl := hfixed hnil
      exact .fixed ho hnil
    · obtain ⟨x, hx⟩ := (hn.fedBy_ne_nil ho).1 hnil
      obtain ⟨r, rfl, hr⟩ := (hjoin hnil).exists_isJoin ⟨hfed id rfl x hx, hx⟩
      refine .flowing ⟨o, ho, hnil⟩ (hr.congr fun u => ?_)
      rw [supplies_output]
      exact exists_congr fun x => and_congr_left' (and_iff_right_of_imp (hfed id rfl x)).symm

/-- An attribute that is no pipeline changes nothing. -/
theorem skip (h : n.CheckedTo before c) (hnone : ∀ oid, ¬n.Feeds id oid) :
    n.CheckedTo (before ++ [id]) c where
  types := h.types
  slots := h.slots
  inputs := h.inputs
  outputs oid o ho := by
    obtain ⟨result, hc, hfixed, hjoin⟩ := h.outputs oid o ho
    exact ⟨result, hc, hfixed, fun hfed =>
      (hjoin hfed).congr (feedsAmong_concat_of_not_feeds (hnone oid))⟩

/-- An attribute records what its target provides on the outputs it is a pipeline into. -/
theorem record (h : n.CheckedTo before c) (hn : n.Prepared) (hs : n.slot? id = some s)
    (ht : s.binding = .reference t) {type : ClassType} (hprovides : n.Provides t type) :
    n.CheckedTo (before ++ [id])
      (c.modifyDeclaration id.declaration (Declaration.recordAll c.types type s.feeds)) where
  types := h.types
  slots := (slot?_recordAll ..).trans h.slots
  inputs := h.inputs
  outputs oid o ho := by
    have hnodup : s.feeds.Nodup := (hn.ordered id s hs).imp fun hlt => Nat.ne_of_lt hlt
    have hiff : n.Feeds id oid ↔ id.declaration = oid.declaration ∧ oid.output ∈ s.feeds := by
      simp [Feeds, hs]
    obtain ⟨result, hc, hfixed, hjoin⟩ := h.outputs oid o ho
    rw [output?_recordAll _ _ _ hnodup, hc]
    by_cases hfeeds : n.Feeds id oid
    · rw [if_pos (hiff.1 hfeeds)]
      have hfed := (hn.fedBy_ne_nil ho).2 ⟨id, hfeeds⟩
      obtain ⟨s', t', hs', ht', hopen⟩ := hn.isOpen_of_feeds hfeeds
      obtain rfl := Option.some.inj (hs.symm.trans hs')
      obtain rfl := Binding.reference.inj (ht.symm.trans ht')
      refine ⟨_, rfl, fun hnil => absurd hnil hfed, fun _ => ?_⟩
      rw [h.types]
      exact (hjoin hfed).widen hn.types (isJoin_slot hs ht (hprovides.isJoin hopen))
        (feedsAmong_concat hfeeds)
    · rw [if_neg (mt hiff.2 hfeeds)]
      exact ⟨result, rfl, hfixed, fun hfed =>
        (hjoin hfed).congr (feedsAmong_concat_of_not_feeds hfeeds)⟩

/-- Checking one more attribute. -/
theorem checkAt (h : n.CheckedTo before c) (hn : n.Prepared)
    (hprovides : ∀ s t, n.slot? id = some s → s.binding = .reference t →
      ∃ type, c.targetType? t = some type ∧ n.Provides t type)
    (hok : c.checkAt id = .ok c') : n.CheckedTo (before ++ [id]) c' := by
  obtain ⟨s, hs, hcase⟩ := checkAt_eq_ok hok
  rw [h.slots] at hs
  rcases hcase with ⟨t, provided, ht, hp, -, rfl⟩ | ⟨hne, rfl⟩
  · obtain ⟨type, htype, hprovides⟩ := hprovides s t hs ht
    obtain rfl := Option.some.inj (htype.symm.trans hp)
    exact h.record hn hs ht hprovides
  · refine h.skip fun oid hfeeds => ?_
    obtain ⟨s', t, hs', ht, -⟩ := hn.isOpen_of_feeds hfeeds
    obtain rfl := Option.some.inj (hs.symm.trans hs')
    exact hne t ht

end CheckedTo

/-! ## All attributes -/

/-- What an attribute refers to comes before it. -/
theorem Forward.mem_before (hn : n.Forward) (hids : n.slotIds = before ++ id :: after)
    (hs : n.slot? id = some s) {oid : OutputId} (ht : s.binding = .reference (.output oid))
    {x : SlotId} (hx : n.Feeds x oid) : x ∈ before := by
  obtain ⟨hdecl, s', hs', -⟩ := hx
  obtain ⟨d, hd, hslot⟩ := slot?_eq_some.1 hs
  have hdep : n.dependsOn id.declaration x.declaration = true := by
    by_contra hnot
    exact ne_of_not_dependsOn hd hnot hslot ht hdecl
  have hmem : x ∈ n.slotIds := hn.mem_slotIds.2 ⟨s', hs'⟩
  have hpair := hn.pairwise_slotIds
  rw [hids] at hmem hpair
  rcases List.mem_append.1 hmem with hmem | hmem
  · exact hmem
  · rcases List.mem_cons.1 hmem with rfl | hmem
    · exact absurd hdep
        ((hn.executable.not_dependsOn fun _ => hn.perm.mem_iff.1).2 _ (hn.mem_order hd))
    · exact absurd hdep ((List.pairwise_cons.1 (List.pairwise_append.1 hpair).2.1).1 x hmem)

/-- An attribute is checked against what its target provides. -/
theorem exists_provides (hn : n.Prepared) (hi : n.InputsReduced)
    (hids : n.slotIds = before ++ id :: after) (hc : n.CheckedTo before c)
    (hs : n.slot? id = some s) (ht : s.binding = .reference t) :
    ∃ type, c.targetType? t = some type ∧ n.Provides t type :=
  hc.provides hn hi (hn.hasTarget id s t hs ht) fun _ hid _ hx =>
    hn.forward.mem_before hids hs (hid ▸ ht) hx

theorem checkedTo_foldlM (hn : n.Prepared) (hi : n.InputsReduced)
    (hids : n.slotIds = before ++ after) (h : before.foldlM checkAt n = .ok c) :
    n.CheckedTo before c :=
  foldlM_invariant_done n.CheckedTo
    (fun done id rest c c' hdone hc hok => by
      have hsplit : n.slotIds = done ++ id :: (rest ++ after) := by
        rw [hids, hdone, List.append_assoc, List.cons_append]
      exact hc.checkAt hn (fun s t hs ht => exists_provides hn hi hsplit hc hs ht) hok)
    hn.checkedTo_nil h

/-- In a network with inferred types an attribute that refers to an open target passes the check if
it is reached. -/
theorem exists_checkAt (hn : n.InputsTyped) (hids : n.slotIds = before ++ id :: after)
    (hc : before.foldlM checkAt n = .ok c) (hs : n.slot? id = some s)
    (ht : s.binding = .reference t) (hopen : n.IsOpen t) : ∃ c', c.checkAt id = .ok c' := by
  have hchecked := checkedTo_foldlM hn.toPrepared hn.reduced hids hc
  obtain ⟨type, htype, hprovides⟩ :=
    exists_provides hn.toPrepared hn.reduced hids hchecked hs ht
  -- Each input that flows here was given a type that the attribute accepts.
  have haccepts : c.types.assignable s.type type = true := by
    rw [hchecked.types]
    refine (hprovides.isJoin hopen).least s.type (hn.slots id s hs) fun u hu => ?_
    obtain ⟨input, i, hinput, hcarries, rfl⟩ := hu
    exact (hn.inputs input i hinput).held s.type ⟨id, s, t, hs, ht, hcarries, rfl⟩
  exact ⟨_, checkAt_of_assignable (hchecked.slots ▸ hs) ht htype haccepts⟩

/-- A check of types that fails has failed at an attribute that refers to an output without
pipelines. -/
theorem exists_of_checkTypes_error (hn : n.InputsTyped) {fault : Fault}
    (h : n.checkTypes = .error fault) : ∃ before id after c s oid o,
      n.slotIds = before ++ id :: after ∧ before.foldlM checkAt n = .ok c ∧
        c.checkAt id = .error fault ∧ n.slot? id = some s ∧
          s.binding = .reference (.output oid) ∧ n.output? oid = some o ∧ o.fedBy = [] := by
  obtain ⟨before, id, after, c, hids, hc, herror⟩ := exists_error_step_of_foldlM h
  have hmem : id ∈ n.slotIds := by
    rw [hids]
    exact List.mem_append_right _ List.mem_cons_self
  obtain ⟨s, hs⟩ := hn.forward.mem_slotIds.1 hmem
  have hslots := (checkedTo_foldlM hn.toPrepared hn.reduced hids hc).slots
  by_cases hreference : ∃ t, s.binding = .reference t
  · obtain ⟨t, ht⟩ := hreference
    have hclosed : ¬n.IsOpen t := fun hopen => by
      obtain ⟨c', hok⟩ := exists_checkAt hn hids hc hs ht hopen
      simp [hok] at herror
    cases t with
    | input => exact absurd trivial hclosed
    | output oid =>
      obtain ⟨type, htype⟩ := hn.hasTarget id s _ hs ht
      obtain ⟨o, ho, -⟩ := Option.map_eq_some_iff.1 htype
      refine ⟨before, id, after, c, s, oid, o, hids, hc, herror, hs, ht, ho, ?_⟩
      by_contra hfed
      exact hclosed ⟨o, ho, hfed⟩
  · have hok := checkAt_of_not_reference (hslots ▸ hs) fun t ht => hreference ⟨t, ht⟩
    simp [hok] at herror

/-- In the end every target has the type it provides. -/
theorem provides_checkTypes (hn : n.Prepared) (hi : n.InputsReduced) (h : n.checkTypes = .ok m)
    (ht : n.HasTarget t) : ∃ type, m.targetType? t = some type ∧ n.Provides t type := by
  have hchecked := checkedTo_foldlM hn hi (List.append_nil _).symm h
  exact hchecked.provides hn hi ht fun _ _ x ⟨_, s, hs, _⟩ => hn.forward.mem_slotIds.2 ⟨s, hs⟩

end Network

end Blockwork
