import Blockwork.Proofs.TypeOrder
import Mathlib.Data.List.Sort

/-!
# Reduced types

A class type is reduced if its interfaces are in order and none of them is implied by the class or
by another one. Merging and intersecting give reduced types, and reduced types with the same values
are equal (`Reduced.antisymm`). So a type that is the narrowest one to hold some types is determined
by them, however it was found (`IsJoin.unique`).
-/

namespace Blockwork

namespace Hierarchy

variable {h : Hierarchy} {a b c t : ClassType}

/-- The interfaces are in order, and none is implied by the class or by another one. -/
structure Reduced (h : Hierarchy) (t : ClassType) : Prop extends h.Formed t where
  ordered : t.interfaces.Pairwise (· < ·)
  base_free : ∀ i ∈ t.interfaces, i ∉ h.implied t.base
  others_free : ∀ i ∈ t.interfaces, ∀ j ∈ t.interfaces, j ≠ i → i ∉ h.implied j

/-- Reducing interfaces gives a reduced type. -/
theorem reduced_reduce {base : TypeId} {ids : List TypeId} (hbase : objectId ∈ h.lineage base)
    (hids : ∀ i ∈ ids, h.isInterface i = true) (hordered : ids.Pairwise (· < ·)) :
    h.Reduced ⟨base, h.reduce base ids⟩ := by
  have hmem := fun j (hj : j ∈ h.reduce base ids) => mem_reduce.1 hj
  exact
    { base := hbase
      interfaces := fun i hi => hids i (hmem i hi).1
      ordered := hordered.filter _
      base_free := fun i hi => (hmem i hi).2.1
      others_free := fun i hi j hj => (hmem i hi).2.2 j (hmem j hj).1 }

theorem reduced_object (h : Hierarchy) : h.Reduced ClassType.object :=
  { h.formed_object with
    ordered := List.Pairwise.nil
    base_free := fun _ hi => nomatch hi
    others_free := fun _ hi => nomatch hi }

theorem reduced_merge (ha : h.Formed a) (hb : h.Formed b) (hok : h.merge a b = .ok t) :
    h.Reduced t := by
  obtain ⟨ht, -⟩ := merge_eq_ok hok
  rw [ht]
  exact reduced_reduce (formed_merge ha hb hok).base (ha.interfaces_or hb) (pairwise_ascending _)

theorem reduced_intersect (hw : h.WellFormed) (ha : h.Formed a) (hb : h.Formed b) :
    h.Reduced (h.intersect a b) :=
  reduced_reduce (hw.formed_intersect ha.base hb.base).base hw.isInterface_of_mem_common
    ((pairwise_ascending _).filter _)

namespace Reduced

/-- An interface that is implied by the interfaces of a type with the same class, which imply one
another in turn, is one of them. -/
theorem mem_interfaces (hw : h.WellFormed) (ha : h.Reduced a) (hb : h.Reduced b)
    (hbase : a.base = b.base) (hab : ∀ i ∈ a.interfaces, i ∈ h.closure b)
    (hba : ∀ i ∈ b.interfaces, i ∈ h.closure a) : ∀ i ∈ a.interfaces, i ∈ b.interfaces := by
  intro i hi
  rcases mem_closure.1 (hab i hi) with himplied | ⟨j, hj, hij⟩
  · exact absurd (hbase ▸ himplied) (ha.base_free i hi)
  rcases mem_closure.1 (hba j hj) with himplied | ⟨k, hk, hjk⟩
  · exact absurd (hbase ▸ himplied) (hb.base_free j hj)
  -- The interface `k` implies `i`, so it is `i`, and `i` and `j` imply each other.
  have hki : k = i := by
    by_contra hne
    exact ha.others_free i hi k hk hne (hw.implied_trans k j hjk i hij)
  have hji : j = i :=
    Nat.le_antisymm (hki ▸ hw.implied_le k j hjk) (hw.implied_le j i hij)
  exact hji ▸ hj

/-- Reduced types that accept each other are equal. -/
theorem antisymm (hw : h.WellFormed) (ha : h.Reduced a) (hb : h.Reduced b)
    (hab : h.assignable a b = true) (hba : h.assignable b a = true) : a = b := by
  rw [assignable_iff] at hab hba
  have hbase : a.base = b.base :=
    Nat.le_antisymm (hw.le_of_mem_lineage hab.1) (hw.le_of_mem_lineage hba.1)
  have hmem : ∀ i, i ∈ a.interfaces ↔ i ∈ b.interfaces := fun i =>
    ⟨mem_interfaces hw ha hb hbase hab.2 hba.2 i,
      mem_interfaces hw hb ha hbase.symm hba.2 hab.2 i⟩
  have hinterfaces : a.interfaces = b.interfaces :=
    List.Pairwise.eq_of_mem_iff ha.ordered hb.ordered hmem
  cases a
  cases b
  simp only [ClassType.mk.injEq]
  exact ⟨hbase, hinterfaces⟩

end Reduced

/-! ## Joins -/

/-- The reduced type is the narrowest one that holds the types with a property. -/
structure IsJoin (h : Hierarchy) (S : ClassType → Prop) (t : ClassType) : Prop where
  reduced : h.Reduced t
  holds : ∀ u, S u → h.assignable t u = true
  least : ∀ c, h.Formed c → (∀ u, S u → h.assignable c u = true) → h.assignable c t = true

namespace IsJoin

variable {S S' : ClassType → Prop}

theorem unique (hw : h.WellFormed) (ha : h.IsJoin S a) (hb : h.IsJoin S b) : a = b :=
  ha.reduced.antisymm hw hb.reduced (hb.least a ha.reduced.toFormed ha.holds)
    (ha.least b hb.reduced.toFormed hb.holds)

theorem congr (ha : h.IsJoin S a) (hS : ∀ u, S' u ↔ S u) : h.IsJoin S' a :=
  ⟨ha.reduced, fun u hu => ha.holds u ((hS u).1 hu),
    fun c hc hcS => ha.least c hc fun u hu => hcS u ((hS u).2 hu)⟩

/-- A type is the join of itself. -/
theorem self (hw : h.WellFormed) (ha : h.Reduced a) : h.IsJoin (· = a) a :=
  ⟨ha, fun _ hu => hu.symm ▸ hw.assignable_refl ha.toFormed, fun _ _ hc => hc a rfl⟩

theorem intersect (hw : h.WellFormed) (ha : h.IsJoin S a) (hb : h.IsJoin S' b) :
    h.IsJoin (fun u => S u ∨ S' u) (h.intersect a b) := by
  have hab := hw.intersect_assignable ha.reduced.base hb.reduced.base
  refine ⟨reduced_intersect hw ha.reduced.toFormed hb.reduced.toFormed, fun u hu => ?_,
    fun c hc hcS => ?_⟩
  · rcases hu with hu | hu
    · exact hw.assignable_trans hab.1 (ha.holds u hu)
    · exact hw.assignable_trans hab.2 (hb.holds u hu)
  · exact hw.assignable_intersect ha.reduced.base hb.reduced.base
      (ha.least c hc fun u hu => hcS u (Or.inl hu)) (hb.least c hc fun u hu => hcS u (Or.inr hu))

/-- Intersecting with types one after the other gives the join of all of them. -/
theorem foldl_intersect (hw : h.WellFormed) :
    ∀ {ts : List ClassType} {S : ClassType → Prop} {a : ClassType}, h.IsJoin S a →
      (∀ t ∈ ts, h.Reduced t) → h.IsJoin (fun u => S u ∨ u ∈ ts) (ts.foldl h.intersect a)
  | [], _, _, ha, _ => ha.congr fun u => by simp
  | t :: ts, S, a, ha, hts => by
    have hstep := ha.intersect hw (.self hw (hts t List.mem_cons_self))
    refine (foldl_intersect hw hstep fun u hu => hts u (List.mem_cons_of_mem t hu)).congr ?_
    simp [or_assoc]

end IsJoin

/-- The result of widening by what some elements stand for: their join, or nothing if there is no
such element. -/
def JoinOver {α : Type} (h : Hierarchy) (seen : α → Prop) (S : α → ClassType → Prop) :
    Option ClassType → Prop
  | none => ∀ x, ¬seen x
  | some t => h.IsJoin (fun u => ∃ x, seen x ∧ S x u) t

@[simp] theorem joinOver_none {α : Type} {seen : α → Prop} {S : α → ClassType → Prop} :
    h.JoinOver seen S none ↔ ∀ x, ¬seen x :=
  Iff.rfl

namespace JoinOver

variable {α : Type} {seen seen' : α → Prop} {S : α → ClassType → Prop} {result : Option ClassType}

theorem congr (hr : h.JoinOver seen S result) (hseen : ∀ x, seen' x ↔ seen x) :
    h.JoinOver seen' S result := by
  cases result with
  | none => exact fun x hx => hr x ((hseen x).1 hx)
  | some t => exact IsJoin.congr hr fun u => by simp only [hseen]

/-- Widening by the join of what one more element stands for. -/
theorem widen (hw : h.WellFormed) (hr : h.JoinOver seen S result) {x : α} (ht : h.IsJoin (S x) t)
    (hseen : ∀ y, seen' y ↔ seen y ∨ y = x) : h.JoinOver seen' S (some (h.widen result t)) := by
  cases result with
  | none =>
    refine ht.congr fun u => ?_
    simp [hseen, show ∀ y, ¬seen y from hr]
  | some r =>
    refine (IsJoin.intersect hw hr ht).congr fun u => ?_
    simp only [hseen, or_and_right, exists_or, exists_eq_left]

/-- If there are elements, the result is their join. -/
theorem exists_isJoin (hr : h.JoinOver seen S result) {x : α} (hx : seen x) :
    ∃ t, result = some t ∧ h.IsJoin (fun u => ∃ x, seen x ∧ S x u) t := by
  cases result with
  | none => exact absurd hx (hr x)
  | some t => exact ⟨t, rfl, hr⟩

end JoinOver

/-! ## Meets -/

/-- The reduced type is the widest one that all types with a property hold. -/
structure IsMeet (h : Hierarchy) (S : ClassType → Prop) (t : ClassType) : Prop where
  reduced : h.Reduced t
  held : ∀ u, S u → h.assignable u t = true
  greatest : ∀ c, h.Formed c → (∀ u, S u → h.assignable u c = true) → h.assignable t c = true

namespace IsMeet

variable {S S' : ClassType → Prop}

theorem congr (ha : h.IsMeet S a) (hS : ∀ u, S' u ↔ S u) : h.IsMeet S' a :=
  ⟨ha.reduced, fun u hu => ha.held u ((hS u).1 hu),
    fun c hc hcS => ha.greatest c hc fun u hu => hcS u ((hS u).2 hu)⟩

theorem unique (hw : h.WellFormed) (ha : h.IsMeet S a) (hb : h.IsMeet S b) : a = b :=
  ha.reduced.antisymm hw hb.reduced (ha.greatest b hb.reduced.toFormed hb.held)
    (hb.greatest a ha.reduced.toFormed ha.held)

/-- If nothing is asked for, the meet holds all values. -/
theorem object_iff (hw : h.WellFormed) (hS : ∀ u, ¬S u) : h.IsMeet S a ↔ a = ClassType.object := by
  constructor
  · intro ha
    exact ha.reduced.antisymm hw (reduced_object h)
      (ha.greatest _ h.formed_object fun u hu => absurd hu (hS u))
      ha.reduced.assignable_object
  · rintro rfl
    exact ⟨reduced_object h, fun u hu => absurd hu (hS u), fun c hc _ => hc.assignable_object⟩

/-- Merging adds a type. -/
theorem merge (hw : h.WellFormed) (ha : h.IsMeet S a) (hb : h.Formed b)
    (hok : h.merge a b = .ok t) : h.IsMeet (fun u => S u ∨ u = b) t := by
  have hat := hw.assignable_merge ha.reduced.toFormed hb hok
  refine ⟨reduced_merge ha.reduced.toFormed hb hok, fun u hu => ?_, fun c hc hcS => ?_⟩
  · rcases hu with hu | rfl
    · exact hw.assignable_trans (ha.held u hu) hat.1
    · exact hat.2
  · exact merge_assignable hok
      (ha.greatest c hc fun u hu => hcS u (Or.inl hu)) (hcS b (Or.inr rfl))

end IsMeet

end Hierarchy

end Blockwork
