import Blockwork.Proofs.Ascending
import Blockwork.Types.ClassType
import Mathlib.Algebra.BigOperators.Group.Finset.Basic
import Mathlib.Algebra.GroupWithZero.Nat
import Mathlib.Algebra.Order.BigOperators.Group.Finset
import Mathlib.Data.List.Infix
import Mathlib.Logic.Relation

/-!
# Walks over types

In a well-formed hierarchy each definition mentions earlier ones, classes as superclasses and
interfaces as interfaces (`Hierarchy.WellFormed`). So the bounds on the two walks are large enough.
The superclasses of a class are those of its superclass after the class itself
(`WellFormed.lineage_eq`), and a type implements just the interfaces that its mentions lead to
(`WellFormed.mem_implied`).
-/

namespace Blockwork

open Relation

namespace Hierarchy

variable {h : Hierarchy} {id c i : TypeId}

/-! ## Definitions -/

theorem form?_eq_none (hid : h.defs.length ≤ id) : h.form? id = none := by
  unfold form?
  rw [List.getElem?_eq_none hid]
  rfl

theorem mentions_eq_nil (hid : h.defs.length ≤ id) : h.mentions id = [] := by
  unfold mentions parent? interfaces
  rw [form?_eq_none hid]
  rfl

theorem lt_of_form? {f : TypeForm} (hf : h.form? id = some f) : id < h.defs.length := by
  by_contra hge
  rw [form?_eq_none (Nat.le_of_not_lt hge)] at hf
  cases hf

theorem lt_of_isInterface (hi : h.isInterface i = true) : i < h.defs.length := by
  obtain ⟨f, hf, -⟩ := (Option.any_eq_true _ _).1 hi
  exact lt_of_form? hf

/-- An interface has no superclass. -/
theorem parent?_of_isInterface (hi : h.isInterface i = true) : h.parent? i = none := by
  obtain ⟨f, hf, hform⟩ := (Option.any_eq_true _ _).1 hi
  unfold parent?
  rw [hf]
  cases f with
  | ofClass => cases hform
  | ofInterface => rfl

/-- The type mentions the other one. -/
def Mentions (h : Hierarchy) (id c : TypeId) : Prop :=
  c ∈ h.mentions id

theorem mentions_iff : h.Mentions id c ↔ h.parent? id = some c ∨ c ∈ h.interfaces id := by
  unfold Mentions mentions
  rw [List.mem_append, Option.mem_toList]

theorem Mentions.lt_length (hc : h.Mentions id c) : id < h.defs.length := by
  by_contra hge
  unfold Mentions at hc
  rw [mentions_eq_nil (Nat.le_of_not_lt hge)] at hc
  exact List.not_mem_nil hc

/-- Definitions mention earlier classes as superclasses and earlier interfaces as interfaces, and
all classes but `Object` have a superclass. -/
structure WellFormed (h : Hierarchy) : Prop where
  object_class : objectId < h.defs.length ∧ h.isInterface objectId = false
  parent : ∀ id c, h.parent? id = some c → c < id ∧ h.isInterface c = false
  interfaces : ∀ id, ∀ i ∈ h.interfaces id, i < id ∧ h.isInterface i = true
  has_parent : ∀ id < h.defs.length, h.isInterface id = false → id ≠ objectId →
    ∃ c, h.parent? id = some c

/-- The mentions of an interface are interfaces as well. -/
theorem WellFormed.isInterface_of_mentions (hw : h.WellFormed) (hid : h.isInterface id = true)
    (hc : h.Mentions id c) : h.isInterface c = true := by
  refine (hw.interfaces id c ((mentions_iff.1 hc).resolve_left fun hp => ?_)).2
  rw [parent?_of_isInterface hid] at hp
  cases hp

/-! ## Superclasses -/

/-- A class is the first in its lineage. -/
theorem exists_lineage_eq (h : Hierarchy) (id : TypeId) :
    ∃ superclasses, h.lineage id = id :: superclasses := by
  cases id with
  | zero => exact ⟨[], rfl⟩
  | succ id => exact ⟨_, rfl⟩

theorem mem_lineage_self (h : Hierarchy) (id : TypeId) : id ∈ h.lineage id := by
  obtain ⟨superclasses, hl⟩ := h.exists_lineage_eq id
  rw [hl]
  exact List.mem_cons_self

/-- A type without a superclass is alone in its lineage. -/
theorem lineage_of_parent?_eq_none (hp : h.parent? id = none) : h.lineage id = [id] := by
  cases id with
  | zero => rfl
  | succ id =>
    show (id + 1) :: (h.parent? (id + 1)).elim [] (h.lineageWithin id) = _
    rw [hp]
    rfl

/-- A class that is not there is alone in its lineage. -/
theorem lineage_of_not_lt (hid : ¬id < h.defs.length) : h.lineage id = [id] := by
  refine lineage_of_parent?_eq_none ?_
  unfold parent?
  rw [form?_eq_none (Nat.le_of_not_lt hid)]
  rfl

/-- An interface has no superclasses. -/
theorem lineage_of_isInterface (hi : h.isInterface i = true) : h.lineage i = [i] :=
  lineage_of_parent?_eq_none (parent?_of_isInterface hi)

namespace WellFormed

theorem parent_lt (hw : h.WellFormed) (hp : h.parent? id = some c) : c < id :=
  (hw.parent id c hp).1

theorem lt_of_mentions (hw : h.WellFormed) (hc : h.Mentions id c) : c < id := by
  rcases mentions_iff.1 hc with hp | hi
  · exact hw.parent_lt hp
  · exact (hw.interfaces id c hi).1

/-- More steps than there are definitions before the class make no difference. -/
theorem lineageWithin_eq (hw : h.WellFormed) :
    ∀ {steps id : Nat}, id ≤ steps → h.lineageWithin steps id = h.lineage id
  | 0, id, hle => by rw [Nat.le_zero.1 hle]; rfl
  | steps + 1, id, hle => by
    show id :: (h.parent? id).elim [] (h.lineageWithin steps) = _
    cases hp : h.parent? id with
    | none => rw [lineage_of_parent?_eq_none hp]; rfl
    | some c =>
      have hlt := hw.parent_lt hp
      cases id with
      | zero => exact absurd hlt (Nat.not_lt_zero c)
      | succ id =>
        show _ = (id + 1) :: (h.parent? (id + 1)).elim [] (h.lineageWithin id)
        have hc := Nat.le_of_lt_succ hlt
        rw [hp, Option.elim_some, Option.elim_some, hw.lineageWithin_eq hc,
          hw.lineageWithin_eq (hc.trans (Nat.le_of_succ_le_succ hle))]

/-- The superclasses of a class are its own superclass and those of that one. -/
theorem lineage_eq (hw : h.WellFormed) (hp : h.parent? id = some c) :
    h.lineage id = id :: h.lineage c := by
  have hlt := hw.parent_lt hp
  rw [← hw.lineageWithin_eq (Nat.le_succ id)]
  show id :: (h.parent? id).elim [] (h.lineageWithin id) = _
  rw [hp, Option.elim_some, hw.lineageWithin_eq hlt.le]

/-- Going up from a class, either it has no superclass or what holds of its superclass is given. -/
theorem parent_induction (hw : h.WellFormed) {P : TypeId → Prop}
    (top : ∀ id, h.parent? id = none → P id)
    (step : ∀ id c, h.parent? id = some c → P c → P id) (id : TypeId) : P id := by
  induction id using Nat.strong_induction_on with
  | _ id ih =>
    cases hp : h.parent? id with
    | none => exact top id hp
    | some c => exact step id c hp (ih c (hw.parent_lt hp))

theorem le_of_mem_lineage (hw : h.WellFormed) (hc : c ∈ h.lineage id) : c ≤ id := by
  induction id using hw.parent_induction with
  | top id hp =>
    rw [lineage_of_parent?_eq_none hp, List.mem_singleton] at hc
    exact hc.le
  | step id d hp ih =>
    rw [hw.lineage_eq hp, List.mem_cons] at hc
    rcases hc with rfl | hc
    · exact le_rfl
    · exact (ih hc).trans (hw.parent_lt hp).le

theorem lineage_sorted (hw : h.WellFormed) (id : TypeId) : (h.lineage id).Pairwise (· > ·) := by
  induction id using hw.parent_induction with
  | top id hp =>
    rw [lineage_of_parent?_eq_none hp]
    exact List.pairwise_singleton _ _
  | step id d hp ih =>
    rw [hw.lineage_eq hp]
    exact List.pairwise_cons.2
      ⟨fun c hc => (hw.le_of_mem_lineage hc).trans_lt (hw.parent_lt hp), ih⟩

theorem nodup_lineage (hw : h.WellFormed) (id : TypeId) : (h.lineage id).Nodup :=
  (hw.lineage_sorted id).imp Nat.ne_of_gt

/-- The superclasses of a superclass come last. -/
theorem lineage_suffix (hw : h.WellFormed) (id : TypeId) :
    ∀ c ∈ h.lineage id, h.lineage c <:+ h.lineage id := by
  induction id using hw.parent_induction with
  | top id hp =>
    intro c hc
    rw [lineage_of_parent?_eq_none hp, List.mem_singleton] at hc
    rw [hc]
  | step id d hp ih =>
    intro c hc
    rw [hw.lineage_eq hp, List.mem_cons] at hc
    rcases hc with rfl | hc
    · exact List.suffix_refl _
    · rw [hw.lineage_eq hp]
      exact (ih c hc).trans (List.suffix_cons id _)

/-- Superclasses are classes. -/
theorem isInterface_of_mem_lineage (hw : h.WellFormed) (hclass : h.isInterface id = false)
    (hc : c ∈ h.lineage id) : h.isInterface c = false := by
  induction id using hw.parent_induction with
  | top id hp =>
    rw [lineage_of_parent?_eq_none hp, List.mem_singleton] at hc
    exact hc ▸ hclass
  | step id d hp ih =>
    rw [hw.lineage_eq hp, List.mem_cons] at hc
    rcases hc with rfl | hc
    · exact hclass
    · exact ih (hw.parent id d hp).2 hc

/-- Every class is below `Object`. -/
theorem object_mem (hw : h.WellFormed) (id : TypeId) :
    id < h.defs.length → h.isInterface id = false → objectId ∈ h.lineage id := by
  induction id using hw.parent_induction with
  | top id hp =>
    intro hlt hclass
    by_cases hid : id = objectId
    · exact hid ▸ h.mem_lineage_self id
    · obtain ⟨c, hc⟩ := hw.has_parent id hlt hclass hid
      exact nomatch hp.symm.trans hc
  | step id d hp ih =>
    intro hlt hclass
    rw [hw.lineage_eq hp]
    exact List.mem_cons_of_mem _ (ih ((hw.parent_lt hp).trans hlt) (hw.parent id d hp).2)

/-- Superclasses are reached by mentions. -/
theorem reaches_of_mem_lineage (hw : h.WellFormed) (hc : c ∈ h.lineage id) :
    ReflTransGen h.Mentions id c := by
  induction id using hw.parent_induction with
  | top id hp =>
    rw [lineage_of_parent?_eq_none hp, List.mem_singleton] at hc
    exact hc ▸ .refl
  | step id d hp ih =>
    rw [hw.lineage_eq hp, List.mem_cons] at hc
    rcases hc with rfl | hc
    · exact .refl
    · exact .head (mentions_iff.2 (.inl hp)) (ih hc)

theorem le_of_reaches (hw : h.WellFormed) (hr : ReflTransGen h.Mentions id c) : c ≤ id := by
  induction hr with
  | refl => exact le_rfl
  | tail _ hc ih => exact (hw.lt_of_mentions hc).le.trans ih

end WellFormed

/-! ## Steps to the interfaces -/

/-- The types that a class and its superclasses mention, counted. An interface has its own place in
the count. -/
def classMentions (h : Hierarchy) (id : TypeId) : Nat :=
  if h.isInterface id then 0 else ((h.lineage id).map fun c => (h.mentions c).length).sum

/-- The types that are mentioned by interfaces not yet found, counted. -/
def missingMentions (h : Hierarchy) (found : List TypeId) : Nat :=
  ∑ i ∈ (Finset.range h.defs.length).filter fun i => h.isInterface i = true ∧ i ∉ found,
    (h.mentions i).length

/-- The number of steps until nothing is pending, if no interface is found twice: one for each
pending type, and one for each mention in what is still to be met. -/
def stepsLeft (h : Hierarchy) (pending found : List TypeId) : Nat :=
  pending.length + (pending.map h.classMentions).sum + h.missingMentions found

theorem classMentions_of_isInterface (hi : h.isInterface i = true) : h.classMentions i = 0 :=
  if_pos hi

namespace WellFormed

theorem sum_classMentions_interfaces (hw : h.WellFormed) (id : TypeId) :
    ((h.interfaces id).map h.classMentions).sum = 0 := by
  refine List.sum_eq_zero fun n hn => ?_
  obtain ⟨i, hi, rfl⟩ := List.mem_map.1 hn
  exact classMentions_of_isInterface (hw.interfaces id i hi).2

/-- What a class leads to are its own mentions and what its superclass leads to. -/
theorem classMentions_eq (hw : h.WellFormed) (hclass : h.isInterface id = false) :
    h.classMentions id = (h.mentions id).length + ((h.mentions id).map h.classMentions).sum := by
  have hown : ((h.mentions id).map h.classMentions).sum =
      ((h.parent? id).toList.map h.classMentions).sum := by
    unfold mentions
    rw [List.map_append, List.sum_append, hw.sum_classMentions_interfaces, Nat.add_zero]
  rw [hown]
  unfold classMentions
  rw [hclass, if_neg Bool.false_ne_true]
  cases hp : h.parent? id with
  | none =>
    rw [lineage_of_parent?_eq_none hp]
    rfl
  | some c =>
    rw [hw.lineage_eq hp, List.map_cons, List.sum_cons]
    simp [(hw.parent id c hp).2]

theorem sum_classMentions_of_isInterface (hw : h.WellFormed) (hi : h.isInterface i = true) :
    ((h.mentions i).map h.classMentions).sum = 0 := by
  unfold mentions
  rw [parent?_of_isInterface hi]
  exact hw.sum_classMentions_interfaces i

end WellFormed

/-- An interface that is found is no longer missing. -/
theorem missingMentions_eq {found : List TypeId} (hi : h.isInterface i = true) (hnew : i ∉ found) :
    h.missingMentions found =
      (h.mentions i).length + h.missingMentions (insertAscending i found) := by
  have hmem : i ∈ (Finset.range h.defs.length).filter
      fun j => h.isInterface j = true ∧ j ∉ found := by
    simp [hi, hnew, lt_of_isInterface hi]
  unfold missingMentions
  rw [← Finset.add_sum_erase _ _ hmem]
  congr 2
  ext j
  simp only [Finset.mem_erase, Finset.mem_filter, mem_insertAscending]
  tauto

/-- One step is made for a class, -/
theorem WellFormed.stepsLeft_class (hw : h.WellFormed) (hclass : h.isInterface id = false)
    (pending found : List TypeId) : h.stepsLeft (id :: pending) found =
      h.stepsLeft ((h.mentions id).reverse ++ pending) found + 1 := by
  simp only [stepsLeft, List.length_cons, List.map_cons, List.sum_cons, List.length_append,
    List.length_reverse, List.map_append, List.map_reverse, List.sum_append, List.sum_reverse,
    hw.classMentions_eq hclass]
  omega

/-- for an interface that was not yet found, -/
theorem WellFormed.stepsLeft_new (hw : h.WellFormed) (hi : h.isInterface i = true)
    {found : List TypeId} (hnew : i ∉ found) (pending : List TypeId) :
    h.stepsLeft (i :: pending) found =
      h.stepsLeft ((h.mentions i).reverse ++ pending) (insertAscending i found) + 1 := by
  simp only [stepsLeft, List.length_cons, List.map_cons, List.sum_cons, List.length_append,
    List.length_reverse, List.map_append, List.map_reverse, List.sum_append, List.sum_reverse,
    classMentions_of_isInterface hi, hw.sum_classMentions_of_isInterface hi,
    missingMentions_eq hi hnew]
  omega

/-- and for one that was. -/
theorem stepsLeft_found (hi : h.isInterface i = true) (pending found : List TypeId) :
    h.stepsLeft (i :: pending) found = h.stepsLeft pending found + 1 := by
  simp only [stepsLeft, List.length_cons, List.map_cons, List.sum_cons,
    classMentions_of_isInterface hi]
  omega

/-- A class leads to mentions of classes. -/
theorem WellFormed.classMentions_le (hw : h.WellFormed) (id : TypeId) : h.classMentions id ≤
    ∑ c ∈ (Finset.range h.defs.length).filter fun c => ¬h.isInterface c = true,
      (h.mentions c).length := by
  unfold classMentions
  split
  · exact Nat.zero_le _
  rename_i hclass
  rw [← List.sum_toFinset _ (hw.nodup_lineage id)]
  by_cases hid : id < h.defs.length
  · refine Finset.sum_le_sum_of_subset fun c hc => ?_
    have hc := List.mem_toFinset.1 hc
    have hlt := (hw.le_of_mem_lineage hc).trans_lt hid
    have hbelow := hw.isInterface_of_mem_lineage (eq_false_of_ne_true hclass) hc
    simp [hlt, hbelow]
  · -- A type that is not there mentions nothing.
    rw [lineage_of_not_lt hid]
    simp [mentions_eq_nil (Nat.le_of_not_lt hid)]

/-- From one type, no mention is counted twice. -/
theorem WellFormed.stepsLeft_le (hw : h.WellFormed) (id : TypeId) :
    h.stepsLeft [id] [] ≤ h.mentionCount + 1 := by
  have hcount : h.mentionCount = ∑ c ∈ Finset.range h.defs.length, (h.mentions c).length :=
    List.length_flatMap
  have hmissing : h.missingMentions [] =
      ∑ i ∈ (Finset.range h.defs.length).filter fun i => h.isInterface i = true,
        (h.mentions i).length := by
    simp [missingMentions]
  have hclass := hw.classMentions_le id
  rw [← Finset.sum_filter_add_sum_filter_not _ (fun i => h.isInterface i = true), ← hmissing]
    at hcount
  simp only [stepsLeft, List.length_singleton, List.map_singleton, List.sum_singleton]
  omega

/-! ## Implemented interfaces -/

/-- The interface was found, or a pending type leads to it. -/
def Met (h : Hierarchy) (pending found : List TypeId) (i : TypeId) : Prop :=
  i ∈ found ∨ h.isInterface i = true ∧ ∃ id ∈ pending, ReflTransGen h.Mentions id i

/-- Interfaces were found, and what they mention was found as well or is pending. -/
def Followed (h : Hierarchy) (pending found : List TypeId) : Prop :=
  ∀ j ∈ found, h.isInterface j = true ∧ ∀ c, h.Mentions j c → c ∈ found ∨ c ∈ pending

/-- A type leads to itself and to what its mentions lead to. -/
theorem reaches_iff : ReflTransGen h.Mentions id i ↔
    i = id ∨ ∃ c ∈ h.mentions id, ReflTransGen h.Mentions c i := by
  rw [ReflTransGen.cases_head_iff, eq_comm]
  rfl

section Met

variable {pending found : List TypeId}

/-- A class is no interface, but leads to those its mentions lead to. -/
theorem met_class (hclass : h.isInterface id = false) :
    h.Met (id :: pending) found i ↔ h.Met ((h.mentions id).reverse ++ pending) found i := by
  refine or_congr_right (and_congr_right fun hi => ?_)
  have hne : i ≠ id := by
    rintro rfl
    exact nomatch hclass.symm.trans hi
  have hreaches : ReflTransGen h.Mentions id i ↔ i = id ∨ _ := reaches_iff
  simp only [List.mem_cons, List.mem_append, List.mem_reverse, or_and_right, exists_or,
    exists_eq_left, hreaches, hne, false_or]

/-- An interface that is found leads to itself and to those its mentions lead to. -/
theorem met_new (hid : h.isInterface id = true) : h.Met (id :: pending) found i ↔
    h.Met ((h.mentions id).reverse ++ pending) (insertAscending id found) i := by
  by_cases hne : i = id
  · rw [hne]
    exact iff_of_true (.inr ⟨hid, id, List.mem_cons_self, .refl⟩)
      (.inl (mem_insertAscending.2 (.inl rfl)))
  · have hreaches : ReflTransGen h.Mentions id i ↔ i = id ∨ _ := reaches_iff
    simp only [Met, List.mem_cons, List.mem_append, List.mem_reverse, or_and_right, exists_or,
      exists_eq_left, mem_insertAscending, hreaches, hne, false_or]

/-- An interface that was found before leads to those found before and to those pending types lead
to. -/
theorem met_of_reaches (hfollowed : h.Followed pending found) (hid : id ∈ found)
    (hi : h.isInterface i = true) (hr : ReflTransGen h.Mentions id i) : h.Met pending found i := by
  induction hr using ReflTransGen.head_induction_on with
  | refl => exact .inl hid
  | @head j c hc hr ih =>
    rcases (hfollowed j hid).2 c hc with hfound | hpending
    · exact ih hfound
    · exact .inr ⟨hi, c, hpending, hr⟩

theorem met_found (hfollowed : h.Followed pending found) (hid : id ∈ found) :
    h.Met (id :: pending) found i ↔ h.Met pending found i := by
  constructor
  · rintro (hi | ⟨hi, c, hc, hr⟩)
    · exact .inl hi
    · rcases List.mem_cons.1 hc with rfl | hc
      · exact met_of_reaches hfollowed hid hi hr
      · exact .inr ⟨hi, c, hc, hr⟩
  · rintro (hi | ⟨hi, c, hc, hr⟩)
    · exact .inl hi
    · exact .inr ⟨hi, c, List.mem_cons_of_mem id hc, hr⟩

namespace Followed

/-- No interface waits for a class to be followed. -/
theorem of_class (hw : h.WellFormed) (hf : h.Followed (id :: pending) found)
    (hclass : h.isInterface id = false) : h.Followed ((h.mentions id).reverse ++ pending) found := by
  refine fun j hj => ⟨(hf j hj).1, fun c hc => ?_⟩
  rcases (hf j hj).2 c hc with hfound | hpending
  · exact .inl hfound
  · have hc' := hw.isInterface_of_mentions (hf j hj).1 hc
    rcases List.mem_cons.1 hpending with rfl | hpending
    · exact nomatch hclass.symm.trans hc'
    · exact .inr (List.mem_append_right _ hpending)

theorem of_found (hf : h.Followed (id :: pending) found) (hid : id ∈ found) :
    h.Followed pending found := by
  refine fun j hj => ⟨(hf j hj).1, fun c hc => ?_⟩
  rcases (hf j hj).2 c hc with hfound | hpending
  · exact .inl hfound
  · rcases List.mem_cons.1 hpending with rfl | hpending
    · exact .inl hid
    · exact .inr hpending

theorem of_new (hf : h.Followed (id :: pending) found) (hid : h.isInterface id = true) :
    h.Followed ((h.mentions id).reverse ++ pending) (insertAscending id found) := by
  intro j hj
  rcases mem_insertAscending.1 hj with rfl | hj
  · exact ⟨hid, fun c hc => .inr (List.mem_append_left _ (List.mem_reverse.2 hc))⟩
  · refine ⟨(hf j hj).1, fun c hc => ?_⟩
    rcases (hf j hj).2 c hc with hfound | hpending
    · exact .inl (mem_insertAscending.2 (.inr hfound))
    · rcases List.mem_cons.1 hpending with rfl | hpending
      · exact .inl (mem_insertAscending.2 (.inl rfl))
      · exact .inr (List.mem_append_right _ hpending)

end Followed

end Met

/-- The interfaces that are met are found, if there are steps enough and nothing was left out
before. -/
theorem WellFormed.mem_interfacesWithin (hw : h.WellFormed) :
    ∀ {steps : Nat} {pending found : List TypeId}, h.stepsLeft pending found ≤ steps →
      h.Followed pending found → (i ∈ h.interfacesWithin steps pending found ↔ h.Met pending found i)
  | 0, pending, found, hsteps, _ => by
    have hnil : pending = [] := by
      unfold stepsLeft at hsteps
      exact List.eq_nil_of_length_eq_zero (by omega)
    simp [interfacesWithin, Met, hnil]
  | steps + 1, [], found, _, _ => by simp [interfacesWithin, Met]
  | steps + 1, id :: pending, found, hsteps, hfollowed => by
    unfold interfacesWithin
    cases hid : h.isInterface id with
    | false =>
      rw [hw.stepsLeft_class hid] at hsteps
      rw [met_class hid]
      exact hw.mem_interfacesWithin (Nat.le_of_succ_le_succ hsteps) (hfollowed.of_class hw hid)
    | true =>
      by_cases hmem : id ∈ found
      · rw [stepsLeft_found hid] at hsteps
        rw [met_found (hfollowed.of_found hmem) hmem]
        simp only [Bool.not_true, Bool.false_eq_true, if_false, List.contains_iff_mem, hmem, if_true]
        exact hw.mem_interfacesWithin (Nat.le_of_succ_le_succ hsteps) (hfollowed.of_found hmem)
      · rw [hw.stepsLeft_new hid hmem] at hsteps
        rw [met_new hid]
        simp only [Bool.not_true, Bool.false_eq_true, if_false, List.contains_iff_mem, hmem]
        exact hw.mem_interfacesWithin (Nat.le_of_succ_le_succ hsteps) (hfollowed.of_new hid)

namespace WellFormed

/-- A type implements the interfaces that its mentions lead to, and an interface itself. -/
theorem mem_implied (hw : h.WellFormed) :
    i ∈ h.implied id ↔ h.isInterface i = true ∧ ReflTransGen h.Mentions id i := by
  refine (hw.mem_interfacesWithin (hw.stepsLeft_le id) fun _ hj => nomatch hj).trans ?_
  simp [Met]

theorem isInterface_of_implied (hw : h.WellFormed) (id : TypeId) :
    ∀ i ∈ h.implied id, h.isInterface i = true :=
  fun _ hi => (hw.mem_implied.1 hi).1

theorem implied_le (hw : h.WellFormed) (id : TypeId) : ∀ i ∈ h.implied id, i ≤ id :=
  fun _ hi => hw.le_of_reaches (hw.mem_implied.1 hi).2

theorem implied_self (hw : h.WellFormed) (i : TypeId) (hi : h.isInterface i = true) :
    i ∈ h.implied i :=
  hw.mem_implied.2 ⟨hi, .refl⟩

/-- What a superclass implements is implemented. -/
theorem implied_lineage (hw : h.WellFormed) (id : TypeId) :
    ∀ c ∈ h.lineage id, ∀ i ∈ h.implied c, i ∈ h.implied id := fun _ hc _ hi =>
  have hi := hw.mem_implied.1 hi
  hw.mem_implied.2 ⟨hi.1, (hw.reaches_of_mem_lineage hc).trans hi.2⟩

/-- What an implemented interface extends is implemented. -/
theorem implied_trans (hw : h.WellFormed) (id : TypeId) :
    ∀ j ∈ h.implied id, ∀ i ∈ h.implied j, i ∈ h.implied id := fun _ hj _ hi =>
  have hi := hw.mem_implied.1 hi
  hw.mem_implied.2 ⟨hi.1, (hw.mem_implied.1 hj).2.trans hi.2⟩

end WellFormed

/-- The interfaces are found in order. -/
theorem pairwise_interfacesWithin :
    ∀ {steps : Nat} {pending found : List TypeId}, found.Pairwise (· < ·) →
      (h.interfacesWithin steps pending found).Pairwise (· < ·)
  | 0, _, _, hfound => hfound
  | _ + 1, [], _, hfound => hfound
  | steps + 1, id :: pending, found, hfound => by
    unfold interfacesWithin
    split
    · exact pairwise_interfacesWithin hfound
    · split
      · exact pairwise_interfacesWithin hfound
      · exact pairwise_interfacesWithin (pairwise_insertAscending hfound)

theorem pairwise_implied (h : Hierarchy) (id : TypeId) : (h.implied id).Pairwise (· < ·) :=
  pairwise_interfacesWithin .nil

end Hierarchy

end Blockwork
