import Blockwork.Proofs.FormedTypes
import Blockwork.Proofs.ReducedTypes

/-!
# Obtained types

Class types are obtained from a hierarchy by reading an expression, as the types of literals, by
merging and by intersecting, and they are kept when the hierarchy grows (`Hierarchy.Obtained`). All
of them are reduced (`Obtained.reduced`), so there is only one least type above two of them, and
intersecting finds it, in whatever order and however often the types are taken
(`Obtained.intersect_least`). Two of them that accept each other are the same
(`Obtained.assignable_orders`).
-/

namespace Blockwork

namespace Hierarchy

variable {h h' : Hierarchy} {a b t : ClassType}

/-! ## Growing hierarchies -/

/-- A type stays reduced when the hierarchy grows, as it mentions no type that is new. -/
theorem Reduced.of_grown (hw : h.WellFormed) (hw' : h'.WellFormed) (hp : h.defs <+: h'.defs)
    (ht : h.Reduced t) : h'.Reduced t := by
  obtain ⟨hbase, hinterfaces⟩ := hw.lt_of_formed ht.toFormed
  exact
    { base := by
        rw [hw.lineage_of_grown hp hbase]
        exact ht.base
      interfaces := fun i hi => by
        rw [isInterface_of_grown hp (hinterfaces i hi)]
        exact ht.interfaces i hi
      ordered := ht.ordered
      base_free := fun i hi => by
        rw [hw.implied_of_grown hp hw' hbase]
        exact ht.base_free i hi
      others_free := fun i hi j hj => by
        rw [hw.implied_of_grown hp hw' (hinterfaces j hj)]
        exact ht.others_free i hi j hj }

/-- Types stay reduced when the type of a draft is added. -/
theorem Reduced.addDraft (hw : h.WellFormed) (ht : h.Reduced t) {d : TypeDraft}
    (hok : (addDraft d).result h = .ok h') : h'.Reduced t := by
  have hw' := hw.addDraft hok
  obtain ⟨d, rfl, -⟩ := exists_extend_of_addDraft hw hok
  exact ht.of_grown hw hw' (prefix_extend ..)

/-! ## Types by name -/

namespace WellFormed

theorem reduced_single (hw : h.WellFormed) {name : String} {id : TypeId}
    (hl : h.lookup name = some id) : h.Reduced (h.single id) := by
  refine { hw.formed_single hl with ordered := ?_, base_free := ?_, others_free := ?_ } <;>
    unfold single <;> split <;> rename_i hid
  · exact List.pairwise_singleton _ _
  · exact List.Pairwise.nil
  · -- `Object` implements nothing: what it implied would be an interface before it.
    intro i hi himplied
    obtain rfl := List.mem_singleton.1 hi
    have hzero : i = objectId := Nat.le_zero.1 (hw.implied_le objectId i himplied)
    rw [hzero, hw.object_class.2] at hid
    cases hid
  · exact fun i hi => nomatch hi
  · intro i hi j hj hne
    exact absurd ((List.mem_singleton.1 hj).trans (List.mem_singleton.1 hi).symm) hne
  · exact fun i hi => nomatch hi

theorem reduced_parse (hw : h.WellFormed) {s : String} (hok : h.parse s = .ok t) :
    h.Reduced t := by
  unfold parse at hok
  refine foldlM_invariant (fun _ => h.Reduced) (fun name _ t t' ht hstep => ?_)
    (reduced_object h) hok
  obtain ⟨next, hnext, hmerge⟩ := bind_eq_ok.1 hstep
  unfold typeNamed at hnext
  split at hnext
  · simp at hnext
  · rename_i id hl
    rw [← Except.ok.inj hnext] at hmerge
    exact reduced_merge ht.toFormed (hw.formed_single hl) hmerge

theorem reduced_literalType (hw : h.WellFormed) (v : Literal) : h.Reduced (h.literalType v) := by
  unfold literalType
  split
  · exact hw.reduced_single ‹_›
  · exact reduced_object h

end WellFormed

/-! ## Obtained types -/

/-- The class types that can be obtained from a hierarchy. Those obtained before a class or an
interface was added are among them. -/
inductive Obtained : Hierarchy → ClassType → Prop
  | object (h : Hierarchy) : Obtained h ClassType.object
  | parse {h : Hierarchy} {s : String} {t : ClassType} (hok : h.parse s = .ok t) : Obtained h t
  | literalType (h : Hierarchy) (v : Literal) : Obtained h (h.literalType v)
  | merge {h : Hierarchy} {a b t : ClassType} (ha : Obtained h a) (hb : Obtained h b)
    (hok : h.merge a b = .ok t) : Obtained h t
  | intersect {h : Hierarchy} {a b : ClassType} (ha : Obtained h a) (hb : Obtained h b) :
    Obtained h (h.intersect a b)
  | addDraft {h h' : Hierarchy} {d : TypeDraft} {t : ClassType} (hm : h.Made) (ht : Obtained h t)
    (hok : (addDraft d).result h = .ok h') : Obtained h' t

namespace Obtained

/-- All types that can be obtained are reduced. -/
theorem reduced (ht : h.Obtained t) (hm : h.Made) : h.Reduced t := by
  induction ht with
  | object h => exact reduced_object h
  | parse hok => exact hm.wellFormed.reduced_parse hok
  | literalType h v => exact hm.wellFormed.reduced_literalType v
  | merge _ _ hok iha ihb => exact reduced_merge (iha hm).toFormed (ihb hm).toFormed hok
  | intersect _ _ iha ihb =>
    exact reduced_intersect hm.wellFormed (iha hm).toFormed (ihb hm).toFormed
  | addDraft hm' _ hok ih => exact (ih hm').addDraft hm'.wellFormed hok

/-- The intersection of two types is the join of the two. -/
theorem isJoin (hm : h.Made) (ha : h.Obtained a) (hb : h.Obtained b) :
    h.IsJoin (fun u => u = a ∨ u = b) (h.intersect a b) :=
  .intersect hm.wellFormed (.self hm.wellFormed (ha.reduced hm))
    (.self hm.wellFormed (hb.reduced hm))

/-- Intersecting gives the least type above both, so it is commutative, associative and
idempotent. -/
theorem intersect_least (hm : h.Made) (ha : h.Obtained a) (hb : h.Obtained b) :
    h.assignable (h.intersect a b) a = true ∧ h.assignable (h.intersect a b) b = true ∧
      (∀ u, h.assignable u a = true → h.assignable u b = true →
        h.assignable u (h.intersect a b) = true) ∧
      h.intersect a b = h.intersect b a ∧ h.intersect a a = a ∧
      ∀ c, h.Obtained c → h.intersect (h.intersect a b) c = h.intersect a (h.intersect b c) := by
  have hw := hm.wellFormed
  have hjoin := isJoin hm ha hb
  refine ⟨hjoin.holds a (Or.inl rfl), hjoin.holds b (Or.inr rfl), fun u => ?_, ?_, ?_,
    fun c hc => ?_⟩
  · exact hw.assignable_intersect (ha.reduced hm).base (hb.reduced hm).base
  · exact hjoin.unique hw ((isJoin hm hb ha).congr fun u => or_comm)
  · exact (isJoin hm ha ha).unique hw ((IsJoin.self hw (ha.reduced hm)).congr fun u => or_self_iff)
  · have hself := IsJoin.self hw (hc.reduced hm)
    have hright := (IsJoin.self hw (ha.reduced hm)).intersect hw (isJoin hm hb hc)
    exact (hjoin.intersect hw hself).unique hw (hright.congr fun u => or_assoc)

end Obtained

/-! ### A diamond

Two classes that implement the same two interfaces in different ways. -/

/-- The interfaces `Shape`, `Round` and `Flat`, both of which extend it, and `Disc`, which extends
both, a class that implements the last and one that implements the two. -/
def diamondDrafts : List TypeDraft := [
  .ofInterface "Shape" [], .ofInterface "Round" ["Shape"], .ofInterface "Flat" ["Shape"],
  .ofInterface "Disc" ["Flat", "Round"], .ofClass "Coin" none ["Disc"] true,
  .ofClass "Plate" none ["Flat", "Round", "Comparable"] false]

/-- The least type above both classes asks for the two interfaces, not for the one they extend. -/
theorem Obtained.intersect_least_diamond : ∃ h a b, ofDrafts diamondDrafts = .ok h ∧
    h.parse "Coin" = .ok a ∧ h.parse "Plate" = .ok b ∧
      h.describe (h.intersect a b) = "Round & Flat" ∧ h.intersect a b = h.intersect b a ∧
        h.assignable (h.intersect a b) a = true ∧ h.assignable (h.intersect a b) b = true := by
  have hrun : (ofDrafts diamondDrafts).toOption.any (fun h => (h.parse "Coin").toOption.any fun a =>
      (h.parse "Plate").toOption.any fun b =>
        h.describe (h.intersect a b) == "Round & Flat") = true := by
    decide +kernel
  obtain ⟨h, hh, hrun⟩ := toOption_any.1 hrun
  obtain ⟨a, ha, hrun⟩ := toOption_any.1 hrun
  obtain ⟨b, hb, hrun⟩ := toOption_any.1 hrun
  obtain ⟨hleft, hright, -, hcomm, -⟩ :=
    Obtained.intersect_least (.ofDrafts hh) (.parse ha) (.parse hb)
  exact ⟨h, a, b, hh, ha, hb, eq_of_beq hrun, hcomm, hleft, hright⟩

/-! ## The order of obtained types -/

/-- All types that can be obtained are reduced, and accepting is a partial order on them. -/
theorem Obtained.assignable_orders (hm : h.Made) : (∀ t, h.Obtained t → h.Reduced t) ∧
    (∀ t, h.Obtained t → h.assignable t t = true) ∧
      (∀ a b c, h.Obtained a → h.Obtained b → h.Obtained c → h.assignable a b = true →
        h.assignable b c = true → h.assignable a c = true) ∧
        ∀ a b, h.Obtained a → h.Obtained b → h.assignable a b = true → h.assignable b a = true →
          a = b := by
  have hw := hm.wellFormed
  refine ⟨fun t ht => ht.reduced hm, fun t ht => ?_, fun a b c _ _ _ => ?_, fun a b ha hb => ?_⟩
  · exact hw.assignable_refl (ht.reduced hm).toFormed
  · exact hw.assignable_trans
  · exact (ha.reduced hm).antisymm hw (hb.reduced hm)

/-- What is common to the two classes is the type of an expression that accepts the same values, and
is above what one of them is. -/
theorem Obtained.assignable_orders_diamond : ∃ h a b c d, ofDrafts diamondDrafts = .ok h ∧
    h.parse "Coin" = .ok a ∧ h.parse "Plate" = .ok b ∧ h.parse "Flat & Shape & Round" = .ok c ∧
      h.parse "Shape" = .ok d ∧ h.assignable d c = true ∧ h.assignable c a = true ∧
        h.assignable d a = true ∧ h.intersect a b = c := by
  have hrun : (ofDrafts diamondDrafts).toOption.any (fun h => (h.parse "Coin").toOption.any fun a =>
      (h.parse "Plate").toOption.any fun b => (h.parse "Flat & Shape & Round").toOption.any fun c =>
        (h.parse "Shape").toOption.any fun d => h.assignable d c && h.assignable c a &&
          h.assignable (h.intersect a b) c && h.assignable c (h.intersect a b)) = true := by
    decide +kernel
  obtain ⟨h, hh, hrun⟩ := toOption_any.1 hrun
  obtain ⟨a, ha, hrun⟩ := toOption_any.1 hrun
  obtain ⟨b, hb, hrun⟩ := toOption_any.1 hrun
  obtain ⟨c, hc, hrun⟩ := toOption_any.1 hrun
  obtain ⟨d, hd, hrun⟩ := toOption_any.1 hrun
  simp only [Bool.and_eq_true] at hrun
  obtain ⟨⟨⟨hdc, hca⟩, habc⟩, hcab⟩ := hrun
  obtain ⟨-, -, htrans, hantisymm⟩ := Obtained.assignable_orders (.ofDrafts hh)
  exact ⟨h, a, b, c, d, hh, ha, hb, hc, hd, hdc, hca,
    htrans d c a (.parse hd) (.parse hc) (.parse ha) hdc hca,
    hantisymm _ c (.intersect (.parse ha) (.parse hb)) (.parse hc) habc hcab⟩

end Hierarchy

end Blockwork
