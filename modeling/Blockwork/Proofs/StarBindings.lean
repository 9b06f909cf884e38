import Blockwork.Proofs.QualifiedNames
import Blockwork.Proofs.Splitting

/-!
# What star references bind

Expanding star references replaces a parameter by copies whose texts name the outputs, and resolving
looks these names up as it does any other. So a copy is bound to the output it was made for if
nothing else has the name of the output (`BlockDraft.stars_bound`). An input that has it comes
first.
-/

namespace Blockwork

/-! ## The text of a star reference -/

/-- A star text has something, perhaps nothing, between its first and its last character. -/
theorem toList_of_isStarText {s : String} (h : isStarText s = true) :
    s.toList = '@' :: ((s.toList.drop 1).dropLast ++ ['*']) := by
  unfold isStarText at h
  rw [Bool.and_eq_true, beq_iff_eq, beq_iff_eq] at h
  obtain ⟨hhead, hlast⟩ := h
  generalize s.toList = l at hhead hlast
  cases l with
  | nil => cases hhead
  | cons c l =>
    obtain rfl : c = '@' := Option.some.inj hhead
    cases l with
    | nil => cases hlast
    | cons c l =>
      rw [List.getLast?_cons_cons] at hlast
      exact congrArg (List.cons '@') (List.dropLast_append_getLast? '*' hlast).symm

theorem starParts?_eq_some {star name : String} {start : List Char} (hstar : isStarText star = true)
    (h : starParts? star = some (name, start)) :
    star = "@" ++ dotted name (String.ofList start) ++ "*" ∧ '.' ∉ name.toList ∧ '.' ∉ start := by
  unfold starParts? at h
  split at h
  · rename_i cs start' hsplit
    obtain ⟨rfl, rfl⟩ := Prod.mk.inj (Option.some.inj h)
    obtain ⟨hbody, hname, hstart⟩ := splitAt_eq_pair hsplit
    refine ⟨String.toList_inj.1 ?_, by rwa [String.toList_ofList], hstart⟩
    rw [toList_of_isStarText hstar, hbody]
    simp [toList_dotted]
  · cases h

/-! ## Expanding -/

/-- The outputs whose names start in a certain way, with their positions, in order. -/
def Declaration.startingWith (d : Declaration) (start : String) : List (Output × Nat) :=
  d.outputs.zipIdx.filter fun x => start.toList.isPrefixOf x.1.name.toList

theorem Declaration.referencesTo_eq (d : Declaration) (start : String) :
    d.referencesTo start.toList = (d.startingWith start).map fun x => x.1.referenceName := by
  have houtputs : d.outputs = d.outputs.zipIdx.map Prod.fst := (List.zipIdx_map_fst 0 _).symm
  unfold referencesTo startingWith
  conv_lhs => rw [houtputs, List.filter_map, List.map_map]
  rfl

/-- The copy has the name, the formal parameter and the attributes of the parameter, with all their
texts but star references. -/
structure Parameter.CopiedTo (q copy : Parameter) : Prop where
  name : copy.name = q.name
  formal : copy.formal = q.formal
  slots : List.Forall₂ (fun s s' : Slot => s'.name = s.name ∧ s'.declared = s.declared ∧
    (s.isStar = false → s'.raw = s.raw)) q.slots copy.slots

theorem Parameter.mem_stars {q : Parameter} {star : String} :
    star ∈ q.stars ↔ ∃ s ∈ q.slots, s.raw = some star ∧ isStarText star = true := by
  unfold stars
  simp only [List.mem_filterMap, List.mem_filter, Slot.isStar]
  refine exists_congr fun s => ⟨?_, ?_⟩
  · rintro ⟨⟨hs, hstar⟩, hraw⟩
    exact ⟨hs, hraw, by simpa [hraw] using hstar⟩
  · rintro ⟨hs, hraw, hstar⟩
    exact ⟨⟨hs, by simpa [hraw] using hstar⟩, hraw⟩

theorem Slot.exists_of_isStar {s : Slot} (h : s.isStar = true) :
    ∃ star, s.raw = some star ∧ isStarText star = true :=
  (Option.any_eq_true _ _).1 h

namespace Network

variable {n e g : Network} {d d' : Declaration} {q : Parameter} {qs : List Parameter}

theorem declarationNamed?_eq_some {name : String} {t : Declaration}
    (h : n.declarationNamed? name = some t) : t ∈ n.declarations ∧ t.name = name := by
  unfold declarationNamed? at h
  exact ⟨List.mem_reverse.1 (List.mem_of_find?_eq_some h), by simpa using List.find?_some h⟩

theorem expandParameter_of_nil (h : q.stars = []) : n.expandParameter d q = .ok [q] := by
  unfold expandParameter
  rw [h]

/-- A parameter without star references stays, and one with a star reference is replaced by a copy
for each output that matches. -/
theorem expandParameter_eq_ok (h : n.expandParameter d q = .ok qs) :
    q.stars = [] ∧ qs = [q] ∨ ∃ star name start t,
      (∀ s ∈ q.slots, s.isStar = true → s.raw = some star) ∧ isStarText star = true ∧
        starParts? star = some (name, start) ∧ n.declarationNamed? name = some t ∧
          qs = (t.referencesTo start).map (q.substitute star) := by
  unfold expandParameter at h
  split at h
  · rename_i hnil
    exact .inl ⟨hnil, (Except.ok.inj h).symm⟩
  · rename_i star stars hstars
    split at h
    · rename_i hall
      obtain ⟨references, hreferences, h⟩ := bind_eq_ok.1 h
      obtain rfl := pure_eq_ok.1 h
      unfold starReferences at hreferences
      split at hreferences
      · simp [reject] at hreferences
      · rename_i name start hparts
        split at hreferences
        · simp [reject] at hreferences
        · rename_i t ht
          obtain rfl := Except.ok.inj hreferences
          obtain ⟨s, -, -, hstar⟩ := Parameter.mem_stars.1 (hstars ▸ List.mem_cons_self)
          refine .inr ⟨star, name, start, t, fun s hs hisStar => ?_, hstar, hparts, ht, rfl⟩
          obtain ⟨star', hraw, hstar'⟩ := s.exists_of_isStar hisStar
          have hmem : star' ∈ star :: stars := hstars ▸ Parameter.mem_stars.2 ⟨s, hs, hraw, hstar'⟩
          rcases List.mem_cons.1 hmem with rfl | hmem
          · exact hraw
          · rw [hraw, beq_iff_eq.1 (List.all_eq_true.1 hall star' hmem)]
    · simp [reject] at h

/-- Expanding replaces each parameter by its copies, and the outputs keep their names. -/
theorem expandDeclaration_eq_ok (h : n.expandDeclaration d = .ok d') :
    d'.outputs.map Output.referenceName = d.outputs.map Output.referenceName ∧
      ∃ groups, d'.parameters = groups.flatten ∧
        List.Forall₂ (fun q qs => n.expandParameter d q = .ok qs) d.parameters groups := by
  unfold expandDeclaration at h
  split at h
  · rename_i hall
    obtain rfl := Except.ok.inj h
    refine ⟨rfl, d.parameters.map fun q => [q], ?_, ?_⟩
    · rw [← List.flatMap_def, List.flatMap_singleton']
    · exact List.forall₂_map_right_iff.2 (List.forall₂_same.2 fun q hq =>
        expandParameter_of_nil (List.isEmpty_iff.1 (List.all_eq_true.1 hall q hq)))
  · obtain ⟨groups, hgroups, h⟩ := bind_eq_ok.1 h
    obtain rfl := pure_eq_ok.1 h
    exact ⟨Declaration.map_indexPipelines (fun _ _ => rfl) _, groups, rfl,
      forall₂_of_mapM_eq_ok hgroups⟩

theorem expandStars_eq_ok (h : n.expandStars = .ok e) : e.order = n.order ∧
    List.Forall₂ (fun d d' => n.expandDeclaration d = .ok d') n.declarations e.declarations := by
  unfold expandStars at h
  obtain ⟨declarations, hds, h⟩ := bind_eq_ok.1 h
  obtain rfl := pure_eq_ok.1 h
  exact ⟨rfl, forall₂_of_mapM_eq_ok hds⟩

/-- What expanding leaves of an output is referred to as the output. -/
theorem output?_expandStars (h : n.expandStars = .ok e) {id : OutputId} {o : Output}
    (ho : n.output? id = some o) :
    ∃ o', e.output? id = some o' ∧ o'.referenceName = o.referenceName := by
  obtain ⟨d, hd, ho⟩ := output?_eq_some.1 ho
  obtain ⟨d', hd', hexpand⟩ := exists_getElem?_of_forall₂ (expandStars_eq_ok h).2 hd
  have hname := congrArg (fun l => l[id.output]?) (expandDeclaration_eq_ok hexpand).1
  simp only [List.getElem?_map, ho, Option.map_some] at hname
  obtain ⟨o', ho', hname⟩ := Option.map_eq_some_iff.1 hname
  exact ⟨o', output?_eq_some.2 ⟨d', hd', ho'⟩, hname⟩

/-! ## Resolving -/

/-- Each declaration is resolved once. -/
theorem declaration?_resolveReferences (horder : e.order = e.positions)
    (h : e.resolveReferences = .ok g) {i : Nat} (hd : e.declaration? i = some d) :
    ∃ d', g.declaration? i = some d' ∧ e.bindDeclaration e.resolve? d = .ok d' := by
  unfold resolveReferences at h
  obtain ⟨c, hc, h⟩ := bind_eq_ok.1 h
  obtain ⟨outputs, -, h⟩ := bind_eq_ok.1 h
  obtain rfl := pure_eq_ok.1 h
  have hnodup : e.order.Nodup := horder ▸ List.nodup_range
  -- Declarations that were gone through are resolved, all others are as they were.
  have hinv := foldlM_invariant_done (fun done (c : Network) =>
    (i ∉ done → c.declaration? i = some d) ∧
      (i ∈ done → ∃ d', c.declaration? i = some d' ∧ e.bindDeclaration e.resolve? d = .ok d'))
    (fun done j rest c c' hsplit ⟨hleft, hdone⟩ hstep => by
      obtain ⟨dj, hdj, hstep⟩ := bind_eq_ok.1 hstep
      obtain ⟨dj', hbind, hstep⟩ := bind_eq_ok.1 hstep
      obtain rfl := pure_eq_ok.1 hstep
      have hdj := require_eq_ok.1 hdj
      by_cases hij : j = i
      · subst hij
        have hnew : j ∉ done := fun hmem => by
          rw [hsplit] at hnodup
          exact (List.nodup_append.1 hnodup).2.2 j hmem j List.mem_cons_self rfl
        obtain rfl := Option.some.inj (hdj.symm.trans (hleft hnew))
        exact ⟨fun h => absurd (List.mem_append_right _ (List.mem_singleton_self j)) h,
          fun _ => ⟨dj', declaration?_replace hdj, hbind⟩⟩
      · rw [declaration?_modifyDeclaration_of_ne _ hij]
        exact ⟨fun h => hleft fun hmem => h (List.mem_append_left _ hmem), fun h =>
          hdone ((List.mem_append.1 h).resolve_right fun h => hij (List.mem_singleton.1 h).symm)⟩)
    ⟨fun _ => hd, fun h => nomatch h⟩ hc
  exact hinv.2 (horder ▸ List.mem_range.2 (List.getElem?_eq_some_iff.1 hd).1)

/-- A reference still to be resolved is bound to what its name refers to. -/
theorem ResolvesSlot.exists_target {s s' : Slot} {reference : String} (h : n.ResolvesSlot s s')
    (hunbound : s.binding = .unbound) (hraw : s.raw = some reference)
    (href : RawValue.isReferenceText reference = true) :
    ∃ t, s'.binding = .reference t ∧ n.resolve? reference = some t := by
  obtain ⟨d, i, j, h⟩ := h
  unfold bindSlot at h
  rw [hunbound, hraw] at h
  obtain ⟨binding, hbind, h⟩ := bind_eq_ok.1 h
  obtain rfl := pure_eq_ok.1 h
  unfold bindText at hbind
  rw [if_pos href] at hbind
  split at hbind
  · rename_i t ht
    exact ⟨t, (Except.ok.inj hbind).symm, ht⟩
  · simp [reject] at hbind

end Network

/-! ## Copies -/

theorem isReferenceText_referenceName (declaration output : String) :
    RawValue.isReferenceText (referenceName declaration output) = true := by
  simp [RawValue.isReferenceText, referenceName_eq]

namespace Parameter

variable {q copy copy' : Parameter}

/-- Only the star reference is replaced in a copy. -/
theorem copiedTo_substitute {star : String} (hstar : isStarText star = true) (reference : String) :
    q.CopiedTo (q.substitute star reference) where
  name := rfl
  formal := rfl
  slots := by
    refine List.forall₂_map_right_iff.2 (List.forall₂_same.2 fun s _ => ?_)
    unfold Slot.substitute
    split
    · rename_i hraw
      exact ⟨rfl, rfl, fun h => by simp [Slot.isStar, hraw, hstar] at h⟩
    · exact ⟨rfl, rfl, fun _ => rfl⟩

theorem CopiedTo.refl (q : Parameter) : q.CopiedTo q :=
  ⟨rfl, rfl, List.forall₂_same.2 fun _ _ => ⟨rfl, rfl, fun _ => rfl⟩⟩

/-- What resolving makes of a copy is a copy. -/
theorem CopiedTo.resolve {n : Network} (h : q.CopiedTo copy) (h' : n.ResolvesParameter copy copy') :
    q.CopiedTo copy' where
  name := h'.name.trans h.name
  formal := h'.formal.trans h.formal
  slots := forall₂_trans (fun _ _ _ hs hu => by
    obtain ⟨_, rfl, -⟩ := hu.kept
    exact hs) h.slots h'.slots

end Parameter

/-! ## Linked texts -/

/-- Texts are still to be resolved. -/
def Network.Unresolved (n : Network) : Prop :=
  ∀ d ∈ n.declarations, ∀ q ∈ d.parameters, ∀ s ∈ q.slots, s.raw ≠ none → s.binding = .unbound

theorem ParamDraft.unbound_linkSlot {h : Hierarchy} {declaration : String} {p : ParamDraft}
    {location : Location} {f : FormalAttribute} {s : Slot}
    (hok : p.linkSlot h declaration location f = .ok s) : s.raw ≠ none → s.binding = .unbound := by
  unfold linkSlot at hok
  simp only at hok
  split at hok
  · obtain rfl := Except.ok.inj hok
    exact fun _ => rfl
  · split at hok
    · obtain rfl := Except.ok.inj hok
      exact fun h => absurd rfl h
    · simp [reject] at hok
  · split at hok
    · obtain rfl := Except.ok.inj hok
      exact fun h => absurd rfl h
    · simp [reject] at hok

theorem DeclarationDraft.unresolved_link {h : Hierarchy} {d : DeclarationDraft} {x : Specification}
    {location : Location} {decl : Declaration} (hok : d.link h x location = .ok decl) :
    ∀ q ∈ decl.parameters, ∀ s ∈ q.slots, s.raw ≠ none → s.binding = .unbound := by
  unfold link at hok
  obtain ⟨parameters, hparams, hok⟩ := bind_eq_ok.1 hok
  obtain rfl := pure_eq_ok.1 hok
  intro q hq s hs
  obtain ⟨p, -, hp⟩ := mem_of_mapM_eq_ok hparams hq
  unfold linkParam at hp
  split at hp
  · simp [reject] at hp
  · split at hp
    · simp at hp
    · unfold ParamDraft.link at hp
      obtain ⟨_, -, hp⟩ := bind_eq_ok.1 hp
      obtain ⟨slots, hslots, hp⟩ := bind_eq_ok.1 hp
      obtain rfl := pure_eq_ok.1 hp
      obtain ⟨f, -, hlink⟩ := mem_of_mapM_eq_ok hslots hs
      exact ParamDraft.unbound_linkSlot hlink

theorem BlockDraft.ensures_unresolved {σ : Type} (r : Resolver σ) (b : BlockDraft) :
    Ensures (fun _ => True) (b.link r) fun n => n.order = n.positions ∧ n.Unresolved := by
  refine (Ensures.mapM (fun d => ?_) b.declarations).bind fun ds hds => .pure ⟨rfl, hds⟩
  exact Ensures.trivial.bind fun _ _ => .lift fun _ hok => DeclarationDraft.unresolved_link hok

/-! ## Bindings -/

/-- What a name is bound to: an attribute of an input if one has the name, and otherwise the output
if no other one has it. -/
structure Network.Binds (n : Network) (reference : String) (id : OutputId) (t : Target) : Prop where
  input : ¬n.Unshadowed reference →
    ∃ id i, t = .input id ∧ n.input? id = some i ∧ i.referenceName = reference
  output : n.Unshadowed reference → (∀ id' o, n.output? id' = some o →
    o.referenceName = reference → id' = id) → t = .output id

namespace Network

variable {n e g : Network} {d d' : Declaration} {q : Parameter} {qs copies : List Parameter}

theorem binds_of_resolve? {reference : String} {id : OutputId} {o : Output} {t : Target}
    (ho : n.output? id = some o) (hname : o.referenceName = reference)
    (ht : n.resolve? reference = some t) : n.Binds reference id t where
  input h := by
    simp only [Unshadowed, not_forall, not_not] at h
    obtain ⟨id', i, hi, hname⟩ := h
    obtain ⟨id'', i', hresolve, hi', hname'⟩ := exists_input_of_resolve? hi hname
    exact ⟨id'', i', Option.some.inj (ht.symm.trans hresolve), hi', hname'⟩
  output hnone honly := by
    obtain ⟨id', o', hresolve, ho', hname'⟩ := exists_output_of_resolve? hnone ho hname
    rw [← honly id' o' ho' hname']
    exact Option.some.inj (ht.symm.trans hresolve)

theorem Binds.congr {reference : String} {id : OutputId} {t : Target} (h : e.Binds reference id t)
    (hin : g.input? = e.input?) (hout : g.output? = e.output?) : g.Binds reference id t := by
  constructor
  · unfold Unshadowed
    rw [hin]
    exact h.input
  · unfold Unshadowed
    rw [hin, hout]
    exact h.output

theorem exists_groups {α β : Type} {R : α → β → Prop} :
    ∀ {groups : List (List α)} {l : List β}, List.Forall₂ R groups.flatten l →
      ∃ groups', l = groups'.flatten ∧ List.Forall₂ (List.Forall₂ R) groups groups'
  | [], _, .nil => ⟨[], rfl, .nil⟩
  | group :: groups, l, h => by
    rw [List.flatten_cons] at h
    have htake := List.forall₂_take group.length h
    have hdrop := List.forall₂_drop group.length h
    rw [List.take_left] at htake
    rw [List.drop_left] at hdrop
    obtain ⟨groups', hl, hgroups⟩ := exists_groups hdrop
    exact ⟨l.take group.length :: groups',
      by rw [List.flatten_cons, ← hl, List.take_append_drop], .cons htake hgroups⟩

/-- The texts and what they are bound to in the copies of a parameter for the outputs that a star
reference matches. -/
theorem exists_star_copies (hqualified : ∀ t ∈ n.declarations, t.Qualified)
    (hunresolved : ∀ s ∈ q.slots, s.raw ≠ none → s.binding = .unbound)
    (he : n.expandStars = .ok e) (hexpand : n.expandParameter d q = .ok qs)
    (hresolve : List.Forall₂ e.ResolvesParameter qs copies) {a : Nat} {s : Slot}
    (hs : q.slots[a]? = some s) (hstar : s.isStar = true) :
    ∃ name start k t, s.raw = some ("@" ++ dotted name start ++ "*") ∧
      '.' ∉ name.toList ∧ '.' ∉ start.toList ∧ n.declaration? k = some t ∧ t.name = name ∧
        List.Forall₂ (fun x copy => q.CopiedTo copy ∧ ∃ slot target,
          copy.slots[a]? = some slot ∧ slot.binding = .reference target ∧
            e.Binds (referenceName name x.1.name) ⟨k, x.2⟩ target) (t.startingWith start) copies := by
  have hmem := List.mem_of_getElem? hs
  rcases expandParameter_eq_ok hexpand with ⟨hnil, -⟩ |
    ⟨star, name, start, t, hraw, htext, hparts, ht, rfl⟩
  · obtain ⟨star, hraw, htext⟩ := s.exists_of_isStar hstar
    have hmem := Parameter.mem_stars.2 ⟨s, hmem, hraw, htext⟩
    rw [hnil] at hmem
    cases hmem
  · obtain ⟨hmem', rfl⟩ := declarationNamed?_eq_some ht
    obtain ⟨k, hk⟩ := List.getElem?_of_mem hmem'
    obtain ⟨rfl, hname, hstart⟩ := starParts?_eq_some htext hparts
    have hs₀ := hraw s hmem hstar
    refine ⟨t.name, String.ofList start, k, t, hs₀, hname, by rwa [String.toList_ofList], hk, rfl, ?_⟩
    have hreferences := t.referencesTo_eq (String.ofList start)
    rw [String.toList_ofList] at hreferences
    rw [hreferences, List.map_map] at hresolve
    -- One copy for each output that matches, with the name of the output as its text.
    refine List.Forall₂.imp (fun x copy hx => ?_) ((List.forall₂_and_left ..).2
      ⟨fun x hx => hx, List.forall₂_map_left_iff.1 hresolve⟩)
    obtain ⟨hx, hcopy⟩ := hx
    have ho : t.outputs[x.2]? = some x.1 :=
      List.mem_zipIdx_iff_getElem?.1 (List.mem_filter.1 hx).1
    have href := hqualified t hmem' x.1 (List.mem_of_getElem? ho)
    refine ⟨(Parameter.copiedTo_substitute htext _).resolve hcopy, ?_⟩
    have hslot : (q.substitute ("@" ++ dotted t.name (String.ofList start) ++ "*")
        x.1.referenceName).slots[a]? =
        some { s with raw := some x.1.referenceName } := by
      unfold Parameter.substitute Slot.substitute
      rw [List.getElem?_map, hs, Option.map_some, if_pos hs₀]
    obtain ⟨slot, hslot', hresolved⟩ := exists_getElem?_of_forall₂ hcopy.slots hslot
    obtain ⟨target, hbinding, htarget⟩ := hresolved.exists_target
      (hunresolved s hmem (by simp [hs₀])) rfl (href ▸ isReferenceText_referenceName _ _)
    have hout : n.output? ⟨k, x.2⟩ = some x.1 := output?_eq_some.2 ⟨t, hk, ho⟩
    obtain ⟨o', ho', hname'⟩ := output?_expandStars he hout
    exact ⟨slot, target, hslot', hbinding,
      href ▸ binds_of_resolve? ho' hname' htarget⟩

end Network

namespace BlockDraft

variable {σ : Type} {r : Resolver σ} {b : BlockDraft} {a : Assembly} {s : σ} {n e g : Network}

/-- In an accepted block, a parameter with a star reference is replaced by one copy for each output
of the declaration of the name whose own name starts as it says, in order. In the copy for an output
the star reference is bound to an attribute of an input that has the name of the output, if there is
one, and to the output itself if nothing else has this name. Parameters without star references
stay. -/
theorem stars_bound (ha : Assembly.ofDraft b = .ok a)
    (hlink : ((a.draft.link r).run.run s).1 = .ok n) (he : n.expandStars = .ok e)
    (hg : e.resolveReferences = .ok g) {i : Nat} {d : Declaration}
    (hd : n.declaration? i = some d) :
    ∃ d' groups, g.declaration? i = some d' ∧ d'.parameters = groups.flatten ∧
      List.Forall₂ (fun q copies =>
        (q.stars = [] → ∃ copy, copies = [copy] ∧ q.CopiedTo copy) ∧
        ∀ (k : Nat) (slot : Slot), q.slots[k]? = some slot → slot.isStar = true → ∃ name start j t,
          slot.raw = some ("@" ++ dotted name start ++ "*") ∧
          '.' ∉ name.toList ∧ '.' ∉ start.toList ∧
          n.declaration? j = some t ∧ t.name = name ∧
          (∀ j' t', n.declaration? j' = some t' → t'.name = name → j' = j) ∧
          List.Forall₂ (fun x copy => q.CopiedTo copy ∧ ∃ (slot' : Slot) (target : Target),
            copy.slots[k]? = some slot' ∧ slot'.binding = .reference target ∧
              g.Binds (referenceName name x.1.name) ⟨j, x.2⟩ target)
            (t.startingWith start) copies)
        d.parameters groups := by
  obtain ⟨rfl, hb⟩ := Assembly.ofDraft_eq_ok ha
  obtain ⟨hnames, hqualified⟩ := (b.ensures_qualified r s trivial).2 n hlink
  obtain ⟨horder, hunresolved⟩ := (b.ensures_unresolved r s trivial).2 n hlink
  obtain ⟨horder', hexpand⟩ := Network.expandStars_eq_ok he
  obtain ⟨d₁, hd₁, hd₁expand⟩ := exists_getElem?_of_forall₂ hexpand hd
  obtain ⟨-, qss, hflatten, hqss⟩ := Network.expandDeclaration_eq_ok hd₁expand
  have hpositions : e.order = e.positions := by
    rw [horder', horder]
    exact congrArg List.range hexpand.length_eq
  obtain ⟨d', hd', hbind⟩ := Network.declaration?_resolveReferences hpositions hg hd₁
  obtain ⟨groups, hgroups, hresolve⟩ :=
    Network.exists_groups (hflatten ▸ Network.forall₂_bindDeclaration hbind)
  obtain ⟨hparams, hout⟩ := Network.targets_resolveReferences hg
  refine ⟨d', groups, hd', hgroups, ?_⟩
  refine forall₂_trans (R := fun q qs => (q ∈ d.parameters) ∧
    n.expandParameter d q = .ok qs) (fun q qs copies ⟨hq, hqs⟩ hcopies => ⟨fun hnil => ?_, ?_⟩)
    ((List.forall₂_and_left ..).2 ⟨fun _ h => h, hqss⟩) hresolve
  · obtain rfl := Except.ok.inj ((Network.expandParameter_of_nil hnil).symm.trans hqs)
    obtain _ | ⟨hcopy, ⟨⟩⟩ := hcopies
    exact ⟨_, rfl, (Parameter.CopiedTo.refl q).resolve hcopy⟩
  · intro k slot hslot hstar
    obtain ⟨name, start, j, t, hraw, hname, hstart, hj, htname, hcopies⟩ :=
      Network.exists_star_copies hqualified
        (hunresolved d (List.mem_of_getElem? hd) q hq) he hqs hcopies hslot hstar
    refine ⟨name, start, j, t, hraw, hname, hstart, hj, htname, fun j' t' hj' ht' => ?_,
      hcopies.imp fun x copy ⟨hcopied, slot', target, hslot', hbinding, hbinds⟩ =>
        ⟨hcopied, slot', target, hslot', hbinding,
          hbinds.congr (Network.input?_congr hparams) hout⟩⟩
    exact index_eq_of_nodup (hnames ▸ hb.declarations) hj' hj (ht'.trans htname.symm)

end BlockDraft

/-! ### A star that is shadowed

A source whose only output is named by a star. An input of the same name comes before it. -/

/-- A component with an output and one that takes integers. -/
def starCatalog : Catalog :=
  let source := ComponentDraft.new "Source" "out" "Integer"
  let sink := (ComponentDraft.new "Sink" "out" "Object").addParam
    ((ComponentParamDraft.new "in" 0 none).attr "value" "Integer")
  ((Library.collect Catalog.register [source, sink]).run Catalog.standard).2

/-- A block in which a sink takes all outputs of a source. -/
def starUse : BlockDraft :=
  ((BlockDraft.new "b").addDeclaration (.new "d" (.component "Source"))).addDeclaration
    ((DeclarationDraft.new "c" (.component "Sink")).param "in" [("value", "@d.o*")])

/-- The block with an input that has the name of the output. -/
def shadowedStar : BlockDraft :=
  starUse.param "d" ["out"]

/-- A block linked with the components. -/
def linkStar (b : BlockDraft) : Except Fault Network :=
  ((b.link starCatalog.resolver).run.run ()).1

/-- The copy that is made for the output is bound to the input. -/
theorem BlockDraft.star_shadowed : ∃ n e g s o slot,
    Assembly.ofDraft shadowedStar = .ok ⟨shadowedStar, .growing⟩ ∧
      ((shadowedStar.link starCatalog.resolver).run.run ()).1 = .ok n ∧
        n.slot? ⟨1, 1, 0⟩ = some s ∧ s.raw = some "@d.o*" ∧ n.output? ⟨0, 0⟩ = some o ∧
          n.declarationName 0 = "d" ∧ o.name = "out" ∧ n.expandStars = .ok e ∧
            e.resolveReferences = .ok g ∧ g.slot? ⟨1, 1, 0⟩ = some slot ∧
              slot.binding = .reference (.input ⟨0, 0⟩) := by
  have hrun : (linkStar shadowedStar).toOption.any (fun n => n.expandStars.toOption.any fun e =>
      e.resolveReferences.toOption.any fun g => (n.slot? ⟨1, 1, 0⟩).any fun s =>
        (n.output? ⟨0, 0⟩).any fun o => (g.slot? ⟨1, 1, 0⟩).any fun slot =>
          s.raw == some "@d.o*" && (n.declarationName 0 == "d" && (o.name == "out" &&
            slot.binding == .reference (.input ⟨0, 0⟩)))) = true := by
    decide +kernel
  obtain ⟨n, hn, hrun⟩ := (Option.any_eq_true _ _).1 hrun
  obtain ⟨e, he, hrun⟩ := (Option.any_eq_true _ _).1 hrun
  obtain ⟨g, hg, hrun⟩ := (Option.any_eq_true _ _).1 hrun
  obtain ⟨s, hs, hrun⟩ := (Option.any_eq_true _ _).1 hrun
  obtain ⟨o, ho, hrun⟩ := (Option.any_eq_true _ _).1 hrun
  obtain ⟨slot, hslot, hrun⟩ := (Option.any_eq_true _ _).1 hrun
  simp only [Bool.and_eq_true, beq_iff_eq] at hrun
  obtain ⟨hraw, hd, hname, hbinding⟩ := hrun
  exact ⟨n, e, g, s, o, slot, rfl, toOption_eq_some.1 hn, hs, hraw, ho, hd, hname,
    toOption_eq_some.1 he, toOption_eq_some.1 hg, hslot, hbinding⟩

/-- Without the input the star is bound to the output. -/
theorem BlockDraft.stars_bound_use : ∃ n e g d copy slot,
    Assembly.ofDraft starUse = .ok ⟨starUse, .growing⟩ ∧
      ((starUse.link starCatalog.resolver).run.run ()).1 = .ok n ∧ n.expandStars = .ok e ∧
        e.resolveReferences = .ok g ∧ g.declaration? 1 = some d ∧ copy ∈ d.parameters ∧
          slot ∈ copy.slots ∧ slot.binding = .reference (.output ⟨0, 0⟩) := by
  have hrun : (linkStar starUse).toOption.any (fun n => n.expandStars.toOption.any fun e =>
      e.resolveReferences.toOption.any fun g => (n.declaration? 0).any fun t =>
        (n.declaration? 1).any fun d => d.parameters[1]?.any fun q => q.slots[0]?.any fun s =>
          t.name == "d" && ((t.startingWith "o").map (fun x => (x.1.name, x.2)) == [("out", 0)] &&
            (s.raw == some ("@" ++ dotted "d" "o" ++ "*") && (s.isStar && (g.params.isEmpty &&
              g.outputIds.all fun id => id == ⟨0, 0⟩ ||
                (g.output? id).all fun o => o.referenceName != referenceName "d" "out"))))) =
      true := by
    decide +kernel
  obtain ⟨n, hn, hrun⟩ := (Option.any_eq_true _ _).1 hrun
  obtain ⟨e, he, hrun⟩ := (Option.any_eq_true _ _).1 hrun
  obtain ⟨g, hg, hrun⟩ := (Option.any_eq_true _ _).1 hrun
  obtain ⟨t, ht, hrun⟩ := (Option.any_eq_true _ _).1 hrun
  obtain ⟨d, hd, hrun⟩ := (Option.any_eq_true _ _).1 hrun
  obtain ⟨q, hq, hrun⟩ := (Option.any_eq_true _ _).1 hrun
  obtain ⟨s, hs, hrun⟩ := (Option.any_eq_true _ _).1 hrun
  simp only [Bool.and_eq_true, beq_iff_eq, List.isEmpty_iff, List.all_eq_true] at hrun
  obtain ⟨htname, hstarting, hraw, hstar, hparams, honly⟩ := hrun
  have hlink : ((starUse.link starCatalog.resolver).run.run ()).1 = .ok n := toOption_eq_some.1 hn
  have hexpand : n.expandStars = .ok e := toOption_eq_some.1 he
  have hresolve : e.resolveReferences = .ok g := toOption_eq_some.1 hg
  have haccepted : Assembly.ofDraft starUse = .ok ⟨starUse, .growing⟩ := rfl
  obtain ⟨d', groups, hd', hgroups, hcopies⟩ :=
    BlockDraft.stars_bound haccepted hlink hexpand hresolve hd
  obtain ⟨copies, hmem, -, hbound⟩ := exists_getElem?_of_forall₂ hcopies hq
  obtain ⟨name, start, j, t', hraw', hname, hstart, hj, ht', honce, hcopies⟩ := hbound 0 s hs hstar
  -- The text can be read in one way only.
  have hdotted : dotted name start = dotted "d" "o" := by
    have h := Option.some.inj (hraw'.symm.trans hraw)
    rwa [String.append_left_inj, String.append_right_inj] at h
  obtain rfl : name = "d" := by
    by_contra hne
    rcases (dotted_eq_dotted_iff hne).1 hdotted with ⟨m, hm, -⟩ | ⟨m, hm, -⟩
    · exact absurd (congrArg (fun s : String => '.' ∈ s.toList) hm) (by simp [toList_dotted])
    · exact hname (by simp [hm, toList_dotted])
  obtain rfl := dotted_right_inj.1 hdotted
  obtain rfl : 0 = j := honce 0 t ht htname
  obtain rfl := Option.some.inj (ht.symm.trans hj)
  rcases hstarts : t.startingWith "o" with _ | ⟨x, rest⟩ <;> rw [hstarts] at hstarting hcopies
  · cases hstarting
  · obtain ⟨hx, -⟩ := List.cons.inj hstarting
    obtain ⟨hxname, hxposition⟩ := Prod.mk.inj hx
    obtain _ | @⟨_, copy, _, copies', ⟨-, slot, target, hslot, hbinding, hbinds⟩, -⟩ := hcopies
    rw [hxname, hxposition] at hbinds
    have htarget : target = .output ⟨0, 0⟩ := hbinds.output
      (fun id i hi => by simp [Network.input?, hparams] at hi) fun id o ho hname => by
        simpa [ho, hname] using honly id (Network.mem_outputIds ho)
    refine ⟨n, e, g, d', copy, slot, haccepted, hlink, hexpand, hresolve, hd', ?_,
      List.mem_of_getElem? hslot, htarget ▸ hbinding⟩
    rw [hgroups]
    exact List.mem_flatten.2 ⟨_, List.mem_of_getElem? hmem, List.mem_cons_self⟩

end Blockwork
