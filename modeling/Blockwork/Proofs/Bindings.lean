import Blockwork.Network.Dependency
import Blockwork.Network.Link
import Blockwork.Network.Reference
import Blockwork.Network.Star
import Blockwork.Proofs.Run
import Blockwork.Proofs.Wiring

/-!
# What attributes hold

Linking leaves every attribute with a text that is still to be resolved or with a literal. Once the
texts of all declarations are resolved, every attribute holds a literal or refers to something that
is there (`Network.Given.resolveReferences`).
-/

namespace Blockwork

/-- The attribute holds a text still to be resolved, or a literal. -/
def Slot.Given (s : Slot) : Prop :=
  s.binding = .unbound ∧ s.raw ≠ none ∨ ∃ v, s.binding = .literal v

/-- All attributes hold a text or a literal. -/
def Declaration.Given (d : Declaration) : Prop :=
  ∀ q ∈ d.parameters, ∀ s ∈ q.slots, s.Given

/-- All attributes of all declarations hold a text or a literal. -/
def Network.Given (n : Network) : Prop :=
  ∀ d ∈ n.declarations, d.Given

/-- There is something to refer to. -/
def Network.HasTarget (n : Network) (t : Target) : Prop :=
  ∃ type, n.targetType? t = some type

/-- The attribute holds a literal or refers to something that is there. -/
def Slot.Bound (n : Network) (s : Slot) : Prop :=
  (∃ v, s.binding = .literal v) ∨ ∃ t, s.binding = .reference t ∧ n.HasTarget t

/-- All attributes hold literals or refer to something that is there. -/
def Declaration.Bound (n : Network) (d : Declaration) : Prop :=
  ∀ q ∈ d.parameters, ∀ s ∈ q.slots, s.Bound n

/-! ## Linking -/

theorem ParamDraft.given_linkSlot {h : Hierarchy} {declaration : String} {p : ParamDraft}
    {location : Location} {f : FormalAttribute} {s : Slot}
    (hok : p.linkSlot h declaration location f = .ok s) : s.Given := by
  unfold linkSlot at hok
  simp only at hok
  split at hok
  · obtain rfl := Except.ok.inj hok
    exact Or.inl ⟨rfl, by simp⟩
  · split at hok
    · obtain rfl := Except.ok.inj hok
      exact Or.inr ⟨_, rfl⟩
    · simp [reject] at hok
  · split at hok
    · obtain rfl := Except.ok.inj hok
      exact Or.inr ⟨_, rfl⟩
    · simp [reject] at hok

/-- Linking gives every attribute a text or a literal. -/
theorem DeclarationDraft.given_link {h : Hierarchy} {d : DeclarationDraft} {s : Specification}
    {location : Location} {decl : Declaration} (hok : d.link h s location = .ok decl) :
    decl.Given := by
  unfold link at hok
  obtain ⟨parameters, hparams, hok⟩ := bind_eq_ok.1 hok
  obtain rfl := pure_eq_ok.1 hok
  intro q hq
  obtain ⟨p, -, hp⟩ := mem_of_mapM_eq_ok hparams hq
  unfold linkParam at hp
  split at hp
  · simp [reject] at hp
  · split at hp
    · simp at hp
    · unfold ParamDraft.link at hp
      obtain ⟨_, -, hp⟩ := bind_eq_ok.1 hp
      obtain ⟨slots, hslots, hp⟩ := bind_eq_ok.1 hp
      obtain rfl := pure_eq_ok.1 hp
      intro s hs
      obtain ⟨f, -, hlink⟩ := mem_of_mapM_eq_ok hslots hs
      exact ParamDraft.given_linkSlot hlink

/-! ## Expanding star references -/

theorem Slot.Given.substitute {s : Slot} (hs : s.Given) (star reference : String) :
    (s.substitute star reference).Given := by
  unfold Slot.substitute
  split
  · exact hs.imp_left fun hs => ⟨hs.1, by simp⟩
  · exact hs

namespace Network

variable {n m : Network}

theorem given_expandDeclaration {d d' : Declaration} (hd : d.Given)
    (hok : n.expandDeclaration d = .ok d') : d'.Given := by
  unfold expandDeclaration at hok
  split at hok
  · exact Except.ok.inj hok ▸ hd
  · obtain ⟨qss, hqss, hok⟩ := bind_eq_ok.1 hok
    obtain rfl := pure_eq_ok.1 hok
    intro q hq
    obtain ⟨qs, hqs, hq⟩ := List.mem_flatten.1 hq
    obtain ⟨q₀, hq₀, hexpand⟩ := mem_of_mapM_eq_ok hqss hqs
    unfold expandParameter at hexpand
    split at hexpand
    · obtain rfl := Except.ok.inj hexpand
      exact List.mem_singleton.1 hq ▸ hd q₀ hq₀
    · split at hexpand
      · obtain ⟨references, -, hexpand⟩ := bind_eq_ok.1 hexpand
        obtain rfl := pure_eq_ok.1 hexpand
        obtain ⟨reference, -, rfl⟩ := List.mem_map.1 hq
        intro s hs
        obtain ⟨t, ht, rfl⟩ := List.mem_map.1 hs
        exact (hd q₀ hq₀ t ht).substitute _ reference
      · simp [reject] at hexpand

/-- Expanding star references changes declarations only, and leaves them given. -/
theorem Given.expandStars (hn : n.Given) (hok : n.expandStars = .ok m) :
    m.Given ∧ m.order = n.order ∧ m.positions = n.positions := by
  unfold Network.expandStars at hok
  obtain ⟨declarations, hds, hok⟩ := bind_eq_ok.1 hok
  obtain rfl := pure_eq_ok.1 hok
  have hlength := congrArg List.length (mapM_eq_ok.1 hds)
  rw [List.length_map, List.length_map] at hlength
  refine ⟨fun d hd => ?_, rfl, congrArg List.range hlength.symm⟩
  obtain ⟨d₀, hd₀, hexpand⟩ := mem_of_mapM_eq_ok hds hd
  exact given_expandDeclaration (hn d₀ hd₀) hexpand

/-! ## Resolving texts -/

theorem hasTarget_of_resolve? {reference : String} {t : Target}
    (ht : n.resolve? reference = some t) : n.HasTarget t := by
  unfold resolve? at ht
  have hname : n.targetName? t = some reference := by simpa using List.find?_some ht
  unfold targetName? at hname
  unfold HasTarget targetType?
  split at hname <;> obtain ⟨x, hx, -⟩ := Option.map_eq_some_iff.1 hname
  · exact ⟨x.type, by rw [hx]; rfl⟩
  · exact ⟨x.type, by rw [hx]; rfl⟩

theorem hasTarget_congr {t : Target} (hout : ∀ id, m.output? id = none ↔ n.output? id = none)
    (hin : ∀ id, m.input? id = none ↔ n.input? id = none) : m.HasTarget t ↔ n.HasTarget t := by
  have hsome : ∀ (c : Network), c.HasTarget t ↔ ¬c.targetType? t = none := fun c =>
    Option.ne_none_iff_exists'.symm
  rw [hsome m, hsome n]
  cases t with
  | output id => simp only [targetType?, Option.map_eq_none_iff, hout]
  | input id => simp only [targetType?, Option.map_eq_none_iff, hin]

/-- What resolving makes of an attribute. -/
def ResolvesSlot (n : Network) (s s' : Slot) : Prop :=
  ∃ d i j, n.bindSlot n.resolve? d i j s = .ok s'

/-- What resolving makes of a parameter. -/
structure ResolvesParameter (n : Network) (q q' : Parameter) : Prop where
  name : q'.name = q.name
  formal : q'.formal = q.formal
  slots : List.Forall₂ n.ResolvesSlot q.slots q'.slots

/-- Resolving keeps all of an attribute but what it holds, and makes it refer to nothing but what is
there. -/
theorem ResolvesSlot.kept {s s' : Slot} (h : n.ResolvesSlot s s') : ∃ binding,
    s' = { s with binding } ∧
      ∀ t, binding = .reference t → s.binding = .reference t ∨ n.HasTarget t := by
  obtain ⟨d, i, j, h⟩ := h
  unfold bindSlot at h
  split at h
  · obtain ⟨binding, hbind, h⟩ := bind_eq_ok.1 h
    refine ⟨binding, (pure_eq_ok.1 h).symm, fun t ht => .inr ?_⟩
    subst ht
    unfold bindText at hbind
    split at hbind
    · split at hbind
      · rename_i t' ht'
        exact Binding.reference.inj (Except.ok.inj hbind) ▸ hasTarget_of_resolve? ht'
      · simp [reject] at hbind
    · split at hbind
      · cases hbind
      · simp [reject] at hbind
  · exact ⟨s.binding, (Except.ok.inj h).symm, fun _ => .inl⟩

theorem forall₂_bindDeclaration {d d' : Declaration}
    (h : n.bindDeclaration n.resolve? d = .ok d') :
    List.Forall₂ n.ResolvesParameter d.parameters d'.parameters := by
  unfold bindDeclaration at h
  obtain ⟨parameters, hparams, h⟩ := bind_eq_ok.1 h
  obtain rfl := pure_eq_ok.1 h
  refine forall₂_of_zipIdx ((forall₂_of_mapM_eq_ok hparams).imp fun x q' hbind => ?_)
  obtain ⟨slots, hslots, hbind⟩ := bind_eq_ok.1 hbind
  obtain rfl := pure_eq_ok.1 hbind
  exact ⟨rfl, rfl, forall₂_of_zipIdx ((forall₂_of_mapM_eq_ok hslots).imp fun y s' hs' =>
    ⟨d, x.2, y.2, hs'⟩)⟩

/-- An attribute is resolved to a literal or to a reference to something that is there. -/
theorem bound_bindSlot {d : Declaration} {p a : Nat} {s s' : Slot} (hs : s.Given ∨ s.Bound n)
    (hok : n.bindSlot n.resolve? d p a s = .ok s') : s'.Bound n := by
  unfold bindSlot at hok
  split at hok
  · obtain ⟨binding, hbind, hok⟩ := bind_eq_ok.1 hok
    obtain rfl := pure_eq_ok.1 hok
    unfold bindText at hbind
    split at hbind
    · split at hbind
      · rename_i t ht
        obtain rfl := Except.ok.inj hbind
        exact Or.inr ⟨t, rfl, hasTarget_of_resolve? ht⟩
      · simp [reject] at hbind
    · split at hbind
      · obtain rfl := Except.ok.inj hbind
        exact Or.inl ⟨_, rfl⟩
      · simp [reject] at hbind
  · rename_i hnot
    obtain rfl := Except.ok.inj hok
    rcases hs with (⟨hunbound, hraw⟩ | hliteral) | hbound
    · obtain ⟨raw, hraw⟩ := Option.ne_none_iff_exists'.1 hraw
      exact (hnot raw hunbound hraw).elim
    · exact Or.inl hliteral
    · exact hbound

theorem bound_bindDeclaration {d d' : Declaration} (hd : d.Given ∨ d.Bound n)
    (hok : n.bindDeclaration n.resolve? d = .ok d') : d'.Bound n ∧ d'.outputs = d.outputs := by
  unfold bindDeclaration at hok
  obtain ⟨parameters, hparams, hok⟩ := bind_eq_ok.1 hok
  obtain rfl := pure_eq_ok.1 hok
  refine ⟨fun q' hq' s' hs' => ?_, rfl⟩
  obtain ⟨⟨q, i⟩, hq, hbind⟩ := mem_of_mapM_eq_ok hparams hq'
  obtain ⟨slots, hslots, hbind⟩ := bind_eq_ok.1 hbind
  obtain rfl := pure_eq_ok.1 hbind
  obtain ⟨⟨s, j⟩, hs, hbind⟩ := mem_of_mapM_eq_ok hslots hs'
  have hmem := List.fst_mem_of_mem_zipIdx hs
  have hqmem := List.fst_mem_of_mem_zipIdx hq
  exact bound_bindSlot (hd.imp (fun hd => hd q hqmem s hmem) fun hd => hd q hqmem s hmem) hbind

/-- After resolving the texts of all declarations, every attribute holds a literal or refers to
something that is there. -/
theorem Given.resolveReferences (hn : n.Given) (horder : n.order = n.positions)
    (hok : n.resolveReferences = .ok m) {id : SlotId} {s : Slot} (hs : m.slot? id = some s) :
    s.Bound m := by
  unfold Network.resolveReferences at hok
  obtain ⟨c, hc, hok⟩ := bind_eq_ok.1 hok
  obtain ⟨outputs, -, hok⟩ := bind_eq_ok.1 hok
  obtain rfl := pure_eq_ok.1 hok
  -- Declarations still to come are as they were, all others are resolved.
  obtain ⟨hparams, hout, hbound⟩ := foldlM_invariant
    (fun rest (c : Network) => c.params = n.params ∧ (∀ id, c.output? id = n.output? id) ∧
      ∀ i d, c.declaration? i = some d → (i ∈ rest ∧ d.Given) ∨ d.Bound n)
    (fun i rest c c' ⟨hparams, hout, hc⟩ hstep => by
      unfold bindAt at hstep
      obtain ⟨d, hd, hstep⟩ := bind_eq_ok.1 hstep
      obtain ⟨d', hbind, hstep⟩ := bind_eq_ok.1 hstep
      obtain rfl := pure_eq_ok.1 hstep
      have hd := require_eq_ok.1 hd
      obtain ⟨hbound, houtputs⟩ := bound_bindDeclaration ((hc i d hd).imp_left And.right) hbind
      refine ⟨hparams, fun id => ?_, fun j e he => ?_⟩
      · rw [← hout id]
        unfold output?
        rw [declaration?_modifyDeclaration]
        split
        · rename_i hid
          rw [← hid, hd]
          simp [houtputs]
        · rfl
      · rw [declaration?_modifyDeclaration] at he
        split at he
        · obtain ⟨_, -, rfl⟩ := Option.map_eq_some_iff.1 he
          exact Or.inr hbound
        · rename_i hij
          exact (hc j e he).imp_left fun ⟨hj, hgiven⟩ =>
            ⟨(List.mem_cons.1 hj).resolve_left (Ne.symm hij), hgiven⟩)
    ⟨rfl, fun _ => rfl, fun i d hd => Or.inl
      ⟨horder ▸ List.mem_range.2 (List.getElem?_eq_some_iff.1 hd).1,
        hn d (List.mem_of_getElem? hd)⟩⟩ hc
  obtain ⟨d, hd, hs⟩ := slot?_eq_some.1 hs
  obtain ⟨q, hq, hs⟩ := Declaration.slot?_eq_some.1 hs
  have hsbound : s.Bound n := by
    rcases hbound id.declaration d hd with ⟨hnil, -⟩ | hbound
    · simp at hnil
    · exact hbound q (List.mem_of_getElem? hq) s (List.mem_of_getElem? hs)
  refine hsbound.imp_right fun ⟨t, ht, htarget⟩ => ⟨t, ht, ?_⟩
  refine (hasTarget_congr (fun id => ?_) fun id => ?_).2 htarget
  · exact iff_of_eq (congrArg (· = none) (hout id))
  · unfold input?
    rw [show ({ c with outputs } : Network).params = n.params from hparams]

end Network

end Blockwork
