import Blockwork.Component
import Blockwork.Proofs.Methods
import Blockwork.Proofs.TypeWalks

/-!
# Hierarchies that are made

A hierarchy grows by definitions at its end, each of which mentions types that are there
(`Hierarchy.Fits`). So it stays well formed, and the walks from a type that is there go on as
before: they never meet the new definitions (`WellFormed.lineage_of_grown`,
`WellFormed.implied_of_grown`).

Every hierarchy that can be made is well formed (`Made.wellFormed`), whether it has the built-in
types or not, and can tell the type of a literal that was read for a class
(`Made.knowsLiterals`).
-/

namespace Blockwork

open Relation

namespace Hierarchy

variable {h h' : Hierarchy} {id c i : TypeId} {d : TypeDef}

/-! ## Growing -/

section Growing

variable (hp : h.defs <+: h'.defs)
include hp

theorem getElem?_of_grown (hid : id < h.defs.length) : h'.defs[id]? = h.defs[id]? := by
  obtain ⟨ds, hds⟩ := hp
  rw [← hds, List.getElem?_append_left hid]

theorem name_of_grown (hid : id < h.defs.length) : h'.name id = h.name id := by
  unfold name
  rw [getElem?_of_grown hp hid]

theorem form?_of_grown (hid : id < h.defs.length) : h'.form? id = h.form? id := by
  unfold form?
  rw [getElem?_of_grown hp hid]

theorem isInterface_of_grown (hid : id < h.defs.length) :
    h'.isInterface id = h.isInterface id := by
  unfold isInterface
  rw [form?_of_grown hp hid]

theorem isFinal_of_grown (hid : id < h.defs.length) : h'.isFinal id = h.isFinal id := by
  unfold isFinal
  rw [form?_of_grown hp hid]

theorem parent?_of_grown (hid : id < h.defs.length) : h'.parent? id = h.parent? id := by
  unfold parent?
  rw [form?_of_grown hp hid]

theorem mentions_of_grown (hid : id < h.defs.length) : h'.mentions id = h.mentions id := by
  unfold mentions interfaces
  rw [parent?_of_grown hp hid, form?_of_grown hp hid]

theorem lookup_of_grown {name : String} (hl : h.lookup name = some id) :
    h'.lookup name = some id := by
  obtain ⟨ds, hds⟩ := hp
  unfold lookup at hl ⊢
  rw [← hds, List.findIdx?_append, hl]
  rfl

/-- The walk to the superclasses stays among the definitions that were there. -/
theorem WellFormed.lineage_of_grown (hw : h.WellFormed) (hid : id < h.defs.length) :
    h'.lineage id = h.lineage id := by
  have hsteps : ∀ (steps : Nat) (id : TypeId), id < h.defs.length →
      h'.lineageWithin steps id = h.lineageWithin steps id := by
    intro steps
    induction steps with
    | zero => exact fun _ _ => rfl
    | succ steps ih =>
      intro id hid
      unfold lineageWithin
      rw [parent?_of_grown hp hid]
      cases hparent : h.parent? id with
      | none => rfl
      | some c => exact congrArg (id :: ·) (ih c ((hw.parent_lt hparent).trans hid))
  exact hsteps id id hid

/-- What a type leads to is there already. -/
theorem WellFormed.reaches_of_grown (hw : h.WellFormed) (hid : id < h.defs.length) :
    ReflTransGen h'.Mentions id i ↔ ReflTransGen h.Mentions id i := by
  have hmentions : ∀ {c e}, c < h.defs.length → (h'.Mentions c e ↔ h.Mentions c e) := fun hc => by
    unfold Mentions
    rw [mentions_of_grown hp hc]
  constructor
  · intro hr
    induction hr with
    | refl => exact .refl
    | tail _ he ih => exact ih.tail ((hmentions ((hw.le_of_reaches ih).trans_lt hid)).1 he)
  · intro hr
    induction hr with
    | refl => exact .refl
    | tail hr he ih => exact ih.tail ((hmentions ((hw.le_of_reaches hr).trans_lt hid)).2 he)

/-- The walk to the interfaces, which has more steps now, finds the same ones. -/
theorem WellFormed.implied_of_grown (hw : h.WellFormed) (hw' : h'.WellFormed)
    (hid : id < h.defs.length) : h'.implied id = h.implied id := by
  refine List.Pairwise.eq_of_mem_iff (pairwise_implied ..) (pairwise_implied ..) fun i => ?_
  rw [hw'.mem_implied, hw.mem_implied, hw.reaches_of_grown hp hid]
  refine and_congr_left fun hr => ?_
  rw [isInterface_of_grown hp ((hw.le_of_reaches hr).trans_lt hid)]

end Growing

/-! ## One more definition -/

theorem prefix_extend (h : Hierarchy) (d : TypeDef) : h.defs <+: (h.extend d).defs :=
  List.prefix_append _ _

theorem form?_extend (h : Hierarchy) (d : TypeDef) (id : TypeId) :
    (h.extend d).form? id = if id = h.defs.length then some d.form else h.form? id := by
  unfold form? extend
  split
  · subst id
    simp
  · rename_i hne
    rcases Nat.lt_or_gt_of_ne hne with hlt | hgt
    · rw [List.getElem?_append_left hlt]
    · rw [List.getElem?_eq_none (by simpa using Nat.succ_le_of_lt hgt),
        List.getElem?_eq_none (Nat.le_of_lt hgt)]

/-- What the new definition mentions is there. A new class has a superclass. -/
structure Fits (h : Hierarchy) (f : TypeForm) : Prop where
  parent : ∀ c, f.parent? = some c → c < h.defs.length ∧ h.isInterface c = false
  interfaces : ∀ i ∈ f.interfaces, h.isInterface i = true
  has_parent : f.isInterface = false → ∃ c, f.parent? = some c

theorem fits_ofClass (hid : id < h.defs.length) (hclass : h.isInterface id = false)
    {ids : List TypeId} (hids : ∀ i ∈ ids, h.isInterface i = true) (isFinal : Bool)
    (literal : Option LiteralKind) : h.Fits (.ofClass (some id) ids isFinal literal) :=
  ⟨fun _ hc => Option.some.inj hc ▸ ⟨hid, hclass⟩, hids, fun _ => ⟨id, rfl⟩⟩

theorem fits_ofInterface {ids : List TypeId} (hids : ∀ i ∈ ids, h.isInterface i = true) :
    h.Fits (.ofInterface ids) :=
  ⟨fun _ hc => (nomatch hc), hids, fun hi => (nomatch hi)⟩

/-- A hierarchy stays well formed with one more definition. -/
theorem WellFormed.extend (hw : h.WellFormed) (hd : h.Fits d.form) : (h.extend d).WellFormed := by
  have hold : ∀ {c}, c < h.defs.length → (h.extend d).isInterface c = h.isInterface c := fun hc =>
    isInterface_of_grown (h.prefix_extend d) hc
  refine ⟨⟨?_, ?_⟩, fun id c hc => ?_, fun id i hi => ?_, fun id hlt hclass hne => ?_⟩
  · exact hw.object_class.1.trans_le (h.prefix_extend d).length_le
  · rw [hold hw.object_class.1]
    exact hw.object_class.2
  · unfold parent? at hc
    rw [form?_extend] at hc
    split at hc
    · rename_i hid
      obtain ⟨hlt, hclass⟩ := hd.parent c hc
      exact ⟨hid ▸ hlt, hold hlt ▸ hclass⟩
    · obtain ⟨hlt, hclass⟩ := hw.parent id c hc
      exact ⟨hlt, hold (hlt.trans (mentions_iff.2 (.inl hc)).lt_length) ▸ hclass⟩
  · unfold Hierarchy.interfaces at hi
    rw [form?_extend] at hi
    split at hi
    · rename_i hid
      have hi := hd.interfaces i hi
      exact ⟨hid ▸ lt_of_isInterface hi, hold (lt_of_isInterface hi) ▸ hi⟩
    · obtain ⟨hlt, hi⟩ := hw.interfaces id i hi
      exact ⟨hlt, hold (lt_of_isInterface hi) ▸ hi⟩
  · unfold isInterface at hclass
    unfold parent?
    rw [form?_extend] at hclass ⊢
    split
    · rename_i hid
      rw [if_pos hid] at hclass
      exact hd.has_parent hclass
    · rename_i hid
      rw [if_neg hid] at hclass
      have hlt : id < h.defs.length + 1 := by simpa [Hierarchy.extend] using hlt
      exact hw.has_parent id (Nat.lt_of_le_of_ne (Nat.le_of_lt_succ hlt) hid) hclass hne

/-! ## The built-in types -/

theorem wellFormed_root : root.WellFormed where
  object_class := ⟨by decide, rfl⟩
  parent id c hc := by
    cases id <;> exact nomatch hc
  interfaces id i hi := by
    cases id <;> exact nomatch hi
  has_parent id hlt _ hne := absurd (Nat.lt_one_iff.1 hlt) hne

theorem wellFormed_standard : standard.WellFormed := by
  have hinterface : ∀ {h : Hierarchy} {ids : List TypeId} (name : String), h.WellFormed →
      (∀ i ∈ ids, h.isInterface i = true) → (h.extend ⟨name, .ofInterface ids⟩).WellFormed :=
    fun _ hw hids => hw.extend (fits_ofInterface hids)
  have hclass : ∀ {h : Hierarchy} {id : TypeId} {ids : List TypeId} {isFinal : Bool}
      {literal : Option LiteralKind} (name : String), h.WellFormed → id < h.defs.length →
      h.isInterface id = false → (∀ i ∈ ids, h.isInterface i = true) →
      (h.extend ⟨name, .ofClass (some id) ids isFinal literal⟩).WellFormed :=
    fun _ hw hid hclass hids => hw.extend (fits_ofClass hid hclass hids _ _)
  refine hclass _ (hclass _ (hclass _ (hclass _ (hclass _ (hclass _ (hinterface _ (hinterface _
    (hinterface _ (hinterface _ (hinterface _ wellFormed_root ?_) ?_) ?_) ?_) ?_)
    ?_ ?_ ?_) ?_ ?_ ?_) ?_ ?_ ?_) ?_ ?_ ?_) ?_ ?_ ?_) ?_ ?_ ?_
  all_goals decide

/-! ## Types of drafts -/

theorem lookup_lt {name : String} (hl : h.lookup name = some id) : id < h.defs.length := by
  unfold lookup at hl
  exact (List.findIdx?_eq_some_iff_getElem.1 hl).1

theorem classNamed_eq_ok {name : String} (hok : h.classNamed name = .ok id) :
    id < h.defs.length ∧ h.isInterface id = false := by
  unfold classNamed at hok
  split at hok
  · simp at hok
  · rename_i hl
    split at hok
    · simp at hok
    · rename_i hclass
      obtain rfl := Except.ok.inj hok
      exact ⟨lookup_lt hl, eq_false_of_ne_true hclass⟩

theorem interfaceNamed_eq_ok {name : String} (hok : h.interfaceNamed name = .ok id) :
    h.isInterface id = true := by
  unfold interfaceNamed at hok
  split at hok
  · simp at hok
  · split at hok
    · rename_i hi
      exact Except.ok.inj hok ▸ hi
    · simp at hok

theorem isInterface_of_mapM {names : List String} {ids : List TypeId}
    (hok : names.mapM h.interfaceNamed = .ok ids) : ∀ i ∈ ids, h.isInterface i = true := by
  intro i hi
  obtain ⟨name, -, hname⟩ := mem_of_mapM_eq_ok hok hi
  exact interfaceNamed_eq_ok hname

/-- A call that adds a class, as a run that leaves nothing behind when it fails. -/
theorem result_addClass (name : String) (parent : Option String) (interfaces : List String)
    (isFinal : Bool) : (addClass name parent interfaces isFinal).result h = (do
      if (h.lookup name).isSome then .error (.duplicate name)
      let id ← (parent.map h.classNamed).getD (.ok objectId)
      let ids ← interfaces.mapM h.interfaceNamed
      return h.extend ⟨name, .ofClass (some id) ids isFinal none⟩) := by
  unfold addClass
  rw [Method.result_get_bind, Method.result_ite]
  split
  · rfl
  · cases parent <;> simp only [pure_bind, Method.result_lift_bind] <;> rfl

theorem result_addInterface (name : String) (extended : List String) :
    (addInterface name extended).result h = (do
      if (h.lookup name).isSome then .error (.duplicate name)
      let ids ← extended.mapM h.interfaceNamed
      return h.extend ⟨name, .ofInterface ids⟩) := by
  unfold addInterface
  rw [Method.result_get_bind, Method.result_ite]
  split
  · rfl
  · simp only [Method.result_lift_bind]
    rfl

/-- A class is added under a new name, below a class. -/
theorem addClass_eq_ok (hw : h.WellFormed) {name : String} {parent : Option String}
    {interfaces : List String} {isFinal : Bool}
    (hok : (addClass name parent interfaces isFinal).result h = .ok h') :
    h.lookup name = none ∧ ∃ id ids, h.Fits (.ofClass (some id) ids isFinal none) ∧
      h' = h.extend ⟨name, .ofClass (some id) ids isFinal none⟩ := by
  rw [result_addClass] at hok
  obtain ⟨hl, hok⟩ := ite_error_bind_eq_ok.1 hok
  obtain ⟨id, hid, hok⟩ := bind_eq_ok.1 hok
  obtain ⟨ids, hids, hok⟩ := bind_eq_ok.1 hok
  have hclass : id < h.defs.length ∧ h.isInterface id = false := by
    cases parent with
    | none => exact Except.ok.inj hid ▸ hw.object_class
    | some parent => exact classNamed_eq_ok hid
  exact ⟨Option.not_isSome_iff_eq_none.1 hl, id, ids,
    fits_ofClass hclass.1 hclass.2 (isInterface_of_mapM hids) _ _, (pure_eq_ok.1 hok).symm⟩

/-- An interface is added under a new name. -/
theorem addInterface_eq_ok {name : String} {extended : List String}
    (hok : (addInterface name extended).result h = .ok h') :
    h.lookup name = none ∧ ∃ ids, h.Fits (.ofInterface ids) ∧
      h' = h.extend ⟨name, .ofInterface ids⟩ := by
  rw [result_addInterface] at hok
  obtain ⟨hl, hok⟩ := ite_error_bind_eq_ok.1 hok
  obtain ⟨ids, hids, hok⟩ := bind_eq_ok.1 hok
  exact ⟨Option.not_isSome_iff_eq_none.1 hl, ids, fits_ofInterface (isInterface_of_mapM hids),
    (pure_eq_ok.1 hok).symm⟩

/-- The type of a draft is one more definition, under a new name and without literals of its own. It
mentions types that are there. -/
theorem exists_extend_of_addDraft (hw : h.WellFormed) {t : TypeDraft}
    (hok : (addDraft t).result h = .ok h') : ∃ d, h' = h.extend d ∧ h.lookup d.name = none ∧
      h.Fits d.form ∧ d.form.literalKind? = none := by
  unfold addDraft at hok
  rw [Method.result_adapt, mapError_eq_ok] at hok
  cases t with
  | ofClass name parent interfaces isFinal =>
    obtain ⟨hnew, id, ids, hfits, rfl⟩ := addClass_eq_ok hw hok
    exact ⟨_, rfl, hnew, hfits, rfl⟩
  | ofInterface name extended =>
    obtain ⟨hnew, ids, hfits, rfl⟩ := addInterface_eq_ok hok
    exact ⟨_, rfl, hnew, hfits, rfl⟩

/-- All checks come before the definition is added. -/
theorem guarded_addClass (name : String) (parent : Option String) (interfaces : List String)
    (isFinal : Bool) : (addClass name parent interfaces isFinal).Guarded h := by
  refine .get_bind (.ite (fun _ => .throw_bind _ _) fun _ => ?_)
  cases parent <;> exact .lift_bind fun _ _ => .lift_bind fun _ _ => .modifyGet _

theorem guarded_addInterface (name : String) (extended : List String) :
    (addInterface name extended).Guarded h :=
  .get_bind (.ite (fun _ => .throw_bind _ _) fun _ => .lift_bind fun _ _ => .modifyGet _)

/-- A type that is not added leaves the hierarchy as it was. -/
theorem guarded_addDraft (t : TypeDraft) : (addDraft t).Guarded h := by
  cases t with
  | ofClass => exact (guarded_addClass _ _ _ _).adapt _
  | ofInterface => exact (guarded_addInterface _ _).adapt _

/-- A hierarchy stays well formed with the type of a draft. -/
theorem WellFormed.addDraft (hw : h.WellFormed) {t : TypeDraft}
    (hok : (addDraft t).result h = .ok h') : h'.WellFormed := by
  obtain ⟨d, rfl, -, hfits, -⟩ := exists_extend_of_addDraft hw hok
  exact hw.extend hfits

/-- The hierarchies that can be made: classes and interfaces are added one by one to `Object`
or to the built-in types. -/
inductive Made : Hierarchy → Prop
  | root : Made root
  | standard : Made standard
  | addDraft {h h' : Hierarchy} {t : TypeDraft} (hm : Made h)
    (hok : (addDraft t).result h = .ok h') : Made h'

theorem Made.wellFormed (hm : h.Made) : h.WellFormed := by
  induction hm with
  | root => exact wellFormed_root
  | standard => exact wellFormed_standard
  | addDraft _ hok ih => exact ih.addDraft hok

theorem Made.ofDrafts {ts : List TypeDraft} (hok : ofDrafts ts = .ok h) : h.Made := by
  unfold Hierarchy.ofDrafts at hok
  rw [Method.result_mapM] at hok
  exact foldlM_invariant (fun _ => Made) (fun _ _ _ _ hm => hm.addDraft) .standard hok

theorem Made.isFinal_objectId (hm : h.Made) : h.isFinal objectId = false := by
  induction hm with
  | root => rfl
  | standard => rfl
  | addDraft hm hok ih =>
    obtain ⟨d, rfl, -⟩ := exists_extend_of_addDraft hm.wellFormed hok
    rw [isFinal_of_grown (prefix_extend ..) hm.wellFormed.object_class.1, ih]

/-! ## Types of literals -/

/-- A class for which literals of a kind are read is above the class of these literals, unless
it is `Object`. Without the built-in types there may be no class of these literals. -/
def KnowsLiterals (h : Hierarchy) : Prop :=
  ∀ id kind, h.literalKind? id = some kind → id = objectId ∨
    ∃ c, h.lookup (literalTypeName kind) = some c ∧ h.isInterface c = false ∧ id ∈ h.lineage c

theorem literalKind?_lt {kind : LiteralKind} (hkind : h.literalKind? id = some kind) :
    id < h.defs.length := by
  obtain ⟨f, hf, -⟩ := Option.bind_eq_some_iff.1 hkind
  exact lt_of_form? hf

/-- A definition without literals of its own adds none. -/
theorem KnowsLiterals.extend (hw : h.WellFormed) (hk : h.KnowsLiterals)
    (hd : d.form.literalKind? = none) : (h.extend d).KnowsLiterals := by
  intro id kind hkind
  have hp := h.prefix_extend d
  have hold : h.literalKind? id = some kind := by
    unfold literalKind? at hkind ⊢
    rw [form?_extend] at hkind
    split at hkind
    · exact nomatch hd.symm.trans hkind
    · exact hkind
  refine (hk id kind hold).imp_right fun ⟨c, hl, hclass, hmem⟩ => ?_
  have hlt := lookup_lt hl
  refine ⟨c, lookup_of_grown hp hl, ?_, ?_⟩
  · rw [isInterface_of_grown hp hlt, hclass]
  · rw [hw.lineage_of_grown hp hlt]
    exact hmem

theorem knowsLiterals_root : root.KnowsLiterals := fun _ _ hkind =>
  Or.inl (Nat.lt_one_iff.1 (literalKind?_lt hkind))

theorem knowsLiterals_standard : standard.KnowsLiterals := by
  have hall : ∀ id < standard.defs.length, (standard.literalKind? id).all fun kind =>
      (standard.lookup (literalTypeName kind)).any fun c =>
        standard.isInterface c == false && (standard.lineage c).contains id := by
    decide +kernel
  intro id kind hkind
  have hany := hall id (literalKind?_lt hkind)
  rw [hkind, Option.all_some, Option.any_eq_true] at hany
  obtain ⟨c, hl, hc⟩ := hany
  rw [Bool.and_eq_true, beq_iff_eq, List.contains_iff_mem] at hc
  exact Or.inr ⟨c, hl, hc⟩

theorem KnowsLiterals.addDraft (hw : h.WellFormed) (hk : h.KnowsLiterals) {t : TypeDraft}
    (hok : (addDraft t).result h = .ok h') : h'.KnowsLiterals := by
  obtain ⟨d, rfl, -, -, hd⟩ := exists_extend_of_addDraft hw hok
  exact hk.extend hw hd

theorem Made.knowsLiterals (hm : h.Made) : h.KnowsLiterals := by
  induction hm with
  | root => exact knowsLiterals_root
  | standard => exact knowsLiterals_standard
  | addDraft hm hok ih => exact ih.addDraft hm.wellFormed hok

end Hierarchy

end Blockwork
