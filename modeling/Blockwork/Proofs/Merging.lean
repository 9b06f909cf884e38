import Blockwork.Proofs.ObtainedTypes

/-!
# Merging

Two types merge if one of their classes is below the other and may have the interfaces of both: a
final class has none but those it implements (`Admits`, `merge_eq_ok_iff`). What comes out is the
greatest type below both, whichever stands first (`Obtained.merge_greatest`).

`mergeAll` merges types from left to right, as reading a type expression does. The result is the
greatest type below all of them (`Merged.of_mergeAll`), so it is the same in every order
(`mergeAll_unique`). Whether there is one may depend on the order: types that have some type below
them fail to merge exactly if the first few of them ask a final class for more than it implements
(`mergeAll_fails_iff`).
-/

namespace Blockwork

namespace Hierarchy

variable {h : Hierarchy} {a b m t : ClassType} {f : TypeId} {ids : List TypeId}

/-- The class may have the interfaces: a final class has none but those it implements. -/
def Admits (h : Hierarchy) (f : TypeId) (ids : List TypeId) : Prop :=
  h.isFinal f = true → ∀ i ∈ ids, i ∈ h.implied f

/-! ## Two types -/

/-- A class alone implies what it implements. -/
theorem mem_closure_of_bare (ht : t.interfaces = []) {i : TypeId} :
    i ∈ h.closure t ↔ i ∈ h.implied t.base := by
  rw [mem_closure, ht]
  simp

theorem admits_ascending : h.Admits f (ascending ids) ↔ h.Admits f ids := by
  simp [Admits]

namespace WellFormed

/-- Nothing is left of the interfaces exactly if the class implements them all. -/
theorem reduce_eq_nil_iff (hw : h.WellFormed) (hids : ∀ i ∈ ids, h.isInterface i = true) :
    h.reduce f ids = [] ↔ ∀ i ∈ ids, i ∈ h.implied f := by
  constructor
  · intro hnil i hi
    have hmem : i ∈ h.closure ⟨f, h.reduce f ids⟩ := hw.mem_closure_reduce_of_mem hids hi
    exact (mem_closure_of_bare hnil).1 hmem
  · intro himplied
    refine List.eq_nil_iff_forall_not_mem.2 fun i hi => ?_
    obtain ⟨hmem, hfree, -⟩ := mem_reduce.1 hi
    exact hfree (himplied i hmem)

theorem eq_of_mem_lineage (hw : h.WellFormed) {x y : TypeId} (hxy : x ∈ h.lineage y)
    (hyx : y ∈ h.lineage x) : x = y :=
  Nat.le_antisymm (hw.le_of_mem_lineage hxy) (hw.le_of_mem_lineage hyx)

theorem mergedBase?_eq_some (hw : h.WellFormed) {x y : TypeId} : h.mergedBase? x y = some f ↔
    f = x ∧ y ∈ h.lineage x ∨ f = y ∧ x ∈ h.lineage y := by
  simp only [mergedBase?, isSubclass, List.contains_iff_mem]
  by_cases hy : y ∈ h.lineage x
  · rw [if_pos hy, Option.some_inj]
    constructor
    · rintro rfl
      exact Or.inl ⟨rfl, hy⟩
    · rintro (⟨rfl, -⟩ | ⟨rfl, hx⟩)
      · rfl
      · exact hw.eq_of_mem_lineage hx hy
  · rw [if_neg hy]
    by_cases hx : x ∈ h.lineage y
    · simp [hx, hy, eq_comm]
    · simp [hx, hy]

theorem mergedBase?_comm (hw : h.WellFormed) (x y : TypeId) :
    h.mergedBase? x y = h.mergedBase? y x :=
  Option.ext fun f => by
    rw [hw.mergedBase?_eq_some, hw.mergedBase?_eq_some]
    exact or_comm

/-- Both classes are superclasses of the merged one. -/
theorem mem_lineage_of_mergedBase? (hw : h.WellFormed) {x y : TypeId}
    (hf : h.mergedBase? x y = some f) : x ∈ h.lineage f ∧ y ∈ h.lineage f := by
  rcases hw.mergedBase?_eq_some.1 hf with ⟨rfl, hy⟩ | ⟨rfl, hx⟩
  · exact ⟨h.mem_lineage_self f, hy⟩
  · exact ⟨hx, h.mem_lineage_self f⟩

/-- Two superclasses of a class have a merged one. -/
theorem exists_mergedBase? (hw : h.WellFormed) {x y z : TypeId} (hx : x ∈ h.lineage z)
    (hy : y ∈ h.lineage z) : ∃ f, h.mergedBase? x y = some f := by
  rcases hw.mem_lineage_or hx hy with hxy | hyx
  · exact ⟨y, hw.mergedBase?_eq_some.2 (Or.inr ⟨rfl, hxy⟩)⟩
  · exact ⟨x, hw.mergedBase?_eq_some.2 (Or.inl ⟨rfl, hyx⟩)⟩

/-- When two types merge, and into what. -/
theorem merge_eq_ok_iff (hw : h.WellFormed) (ha : h.Formed a) (hb : h.Formed b) :
    h.merge a b = .ok m ↔ h.mergedBase? a.base b.base = some m.base ∧
      m.interfaces = h.reduce m.base (ascending (a.interfaces ++ b.interfaces)) ∧
        h.Admits m.base (a.interfaces ++ b.interfaces) := by
  unfold merge
  cases hbase : h.mergedBase? a.base b.base with
  | none => simp
  | some f =>
    have hadmits :
        (h.isFinal f && !(h.reduce f (ascending (a.interfaces ++ b.interfaces))).isEmpty) = true ↔
          ¬h.Admits f (a.interfaces ++ b.interfaces) := by
      rw [Bool.and_eq_true, Bool.not_eq_true', List.isEmpty_eq_false_iff, ne_eq,
        hw.reduce_eq_nil_iff (ha.interfaces_or hb), ← admits_ascending]
      exact Classical.not_imp.symm
    dsimp only
    rw [Option.some_inj]
    by_cases hf : h.Admits f (a.interfaces ++ b.interfaces)
    · rw [if_neg (mt hadmits.1 (not_not_intro hf)), Except.ok.injEq]
      constructor
      · rintro rfl
        exact ⟨rfl, rfl, hf⟩
      · rintro ⟨rfl, hinterfaces, -⟩
        rw [← hinterfaces]
    · rw [if_pos (hadmits.2 hf)]
      constructor
      · intro herror
        cases herror
      · rintro ⟨rfl, -, hm⟩
        exact absurd hm hf

/-- A merged class that two types fail to merge into is asked for too much. -/
theorem not_admits_of_error (hw : h.WellFormed) (ha : h.Formed a) (hb : h.Formed b)
    (hf : h.mergedBase? a.base b.base = some f) {e : TypeError} (herror : h.merge a b = .error e) :
    ¬h.Admits f (a.interfaces ++ b.interfaces) := by
  intro hadmits
  have hok := (hw.merge_eq_ok_iff (m := ⟨f, h.reduce f (ascending (a.interfaces ++ b.interfaces))⟩)
    ha hb).2 ⟨hf, rfl, hadmits⟩
  rw [herror] at hok
  cases hok

/-- A merged type of a final class asks for nothing else. -/
theorem bare_of_merge (hw : h.WellFormed) (ha : h.Formed a) (hb : h.Formed b)
    (hok : h.merge a b = .ok m) (hfinal : h.isFinal m.base = true) : m.interfaces = [] := by
  obtain ⟨-, hinterfaces, hadmits⟩ := (hw.merge_eq_ok_iff ha hb).1 hok
  rw [hinterfaces]
  exact (hw.reduce_eq_nil_iff (ha.interfaces_or hb)).2 (admits_ascending.2 hadmits hfinal)

theorem merge_comm (hw : h.WellFormed) (ha : h.Formed a) (hb : h.Formed b) :
    h.merge a b = .ok m ↔ h.merge b a = .ok m := by
  have hswap : ∀ i, i ∈ a.interfaces ++ b.interfaces ↔ i ∈ b.interfaces ++ a.interfaces := fun i =>
    List.perm_append_comm.mem_iff
  rw [hw.merge_eq_ok_iff ha hb, hw.merge_eq_ok_iff hb ha, hw.mergedBase?_comm b.base,
    ascending_congr hswap]
  simp only [Admits, hswap]

end WellFormed

/-- The type may be merged into: it is reduced and asks a final class for nothing else. -/
structure Denotable (h : Hierarchy) (t : ClassType) : Prop extends h.Reduced t where
  bare : h.isFinal t.base = true → t.interfaces = []

/-- A class alone asks for nothing. -/
theorem denotable_bare (hf : objectId ∈ h.lineage f) : h.Denotable ⟨f, []⟩ where
  base := hf
  interfaces _ hi := nomatch hi
  ordered := List.Pairwise.nil
  base_free _ hi := nomatch hi
  others_free _ hi := nomatch hi
  bare _ := rfl

theorem WellFormed.denotable_merge (hw : h.WellFormed) (ha : h.Formed a) (hb : h.Formed b)
    (hok : h.merge a b = .ok m) : h.Denotable m :=
  { reduced_merge ha hb hok with bare := hw.bare_of_merge ha hb hok }

/-- The class may have all interfaces that the types above ask for. -/
theorem Denotable.admits (ht : h.Denotable t) {us : List ClassType}
    (hus : ∀ u ∈ us, h.assignable u t = true) :
    h.Admits t.base (us.flatMap ClassType.interfaces) := by
  intro hfinal i hi
  obtain ⟨u, hu, hi⟩ := List.mem_flatMap.1 hi
  exact (mem_closure_of_bare (ht.bare hfinal)).1 ((assignable_iff.1 (hus u hu)).2 i hi)

/-- Merging gives the greatest type below both, in either order or in none. -/
theorem Obtained.merge_greatest (hm : h.Made) (ha : h.Obtained a) (hb : h.Obtained b) :
    (∀ m, h.merge a b = .ok m ↔ h.merge b a = .ok m) ∧
      ∀ m, h.merge a b = .ok m →
        h.assignable a m = true ∧ h.assignable b m = true ∧
          (∀ t, h.assignable a t = true → h.assignable b t = true → h.assignable m t = true) ∧
            (h.isFinal m.base = true → m.interfaces = []) := by
  have hw := hm.wellFormed
  have hfa := (ha.reduced hm).toFormed
  have hfb := (hb.reduced hm).toFormed
  refine ⟨fun m => hw.merge_comm hfa hfb, fun m hok => ?_⟩
  obtain ⟨hleft, hright⟩ := hw.assignable_merge hfa hfb hok
  exact ⟨hleft, hright, fun t => merge_assignable hok, hw.bare_of_merge hfa hfb hok⟩

/-- What is asked for by two expressions is met by the class `Plate`, so by the merged type. -/
theorem Obtained.merge_greatest_diamond : ∃ h a b m t, ofDrafts diamondDrafts = .ok h ∧
    h.parse "Shape & Comparable" = .ok a ∧ h.parse "Round" = .ok b ∧ h.merge a b = .ok m ∧
      h.describe m = "Comparable & Round" ∧ h.parse "Plate" = .ok t ∧ h.merge b a = .ok m ∧
        h.assignable m t = true := by
  have hrun : (ofDrafts diamondDrafts).toOption.any (fun h =>
      (h.parse "Shape & Comparable").toOption.any fun a => (h.parse "Round").toOption.any fun b =>
        (h.merge a b).toOption.any fun m => (h.parse "Plate").toOption.any fun t =>
          h.describe m == "Comparable & Round" && h.assignable a t && h.assignable b t) = true := by
    decide +kernel
  obtain ⟨h, hh, hrun⟩ := toOption_any.1 hrun
  obtain ⟨a, ha, hrun⟩ := toOption_any.1 hrun
  obtain ⟨b, hb, hrun⟩ := toOption_any.1 hrun
  obtain ⟨m, hm, hrun⟩ := toOption_any.1 hrun
  obtain ⟨t, ht, hrun⟩ := toOption_any.1 hrun
  rw [Bool.and_eq_true, Bool.and_eq_true, beq_iff_eq] at hrun
  obtain ⟨⟨hdescribe, hat⟩, hbt⟩ := hrun
  obtain ⟨hcomm, hgreatest⟩ := Obtained.merge_greatest (.ofDrafts hh) (.parse ha) (.parse hb)
  exact ⟨h, a, b, m, t, hh, ha, hb, hm, hdescribe, ht, (hcomm m).1 hm,
    (hgreatest m hm).2.2.1 t hat hbt⟩

/-! ## Several types -/

/-- The types merged from left to right, from `Object` on. -/
def mergeAll (h : Hierarchy) (ts : List ClassType) : Except TypeError ClassType :=
  ts.foldlM h.merge ClassType.object

theorem denotable_object (h : Hierarchy) : h.Denotable ClassType.object :=
  denotable_bare (h.mem_lineage_self _)

namespace Denotable

/-- Merging may start from `Object`, which asks for nothing. -/
theorem merge_object (hw : h.WellFormed) (ht : h.Denotable t) :
    h.merge ClassType.object t = .ok t := by
  have hobject := h.formed_object
  have hself := hw.assignable_refl ht.toFormed
  cases hrun : h.merge ClassType.object t with
  | error e =>
    exfalso
    have hbase : h.mergedBase? objectId t.base = some t.base :=
      hw.mergedBase?_eq_some.2 (Or.inr ⟨rfl, ht.base⟩)
    have hheld : ∀ u ∈ [t], h.assignable u t = true := fun u hu => List.mem_singleton.1 hu ▸ hself
    have hadmits := ht.admits hheld
    rw [List.flatMap_singleton] at hadmits
    exact hw.not_admits_of_error hobject ht.toFormed hbase hrun hadmits
  | ok m =>
    have hmt := merge_assignable hrun ht.toFormed.assignable_object hself
    have htm := (hw.assignable_merge hobject ht.toFormed hrun).2
    have hm := hw.denotable_merge hobject ht.toFormed hrun
    rw [hm.toReduced.antisymm hw ht.toReduced hmt htm]

theorem mergeAll_cons (hw : h.WellFormed) (ht : h.Denotable t) (ts : List ClassType) :
    h.mergeAll (t :: ts) = ts.foldlM h.merge t := by
  unfold mergeAll
  rw [List.foldlM_cons, ht.merge_object hw]
  rfl

end Denotable

/-- The class is that of one of the types and is below those of all of them. -/
structure Narrowest (h : Hierarchy) (ts : List ClassType) (f : TypeId) : Prop where
  mem : ∃ t ∈ ts, t.base = f
  below : ∀ t ∈ ts, t.base ∈ h.lineage f

/-- What the types are merged into. -/
structure Merged (h : Hierarchy) (ts : List ClassType) (m : ClassType) : Prop where
  isMeet : h.IsMeet (· ∈ ts) m
  base : m.base = objectId ∨ ∃ t ∈ ts, t.base = m.base
  interfaces : ∀ i ∈ m.interfaces, ∃ t ∈ ts, i ∈ t.interfaces
  denotable : h.Denotable m

namespace Merged

variable {ts : List ClassType}

theorem object (hw : h.WellFormed) : h.Merged [] ClassType.object where
  isMeet := (IsMeet.object_iff hw fun _ hu => nomatch hu).2 rfl
  base := Or.inl rfl
  interfaces _ hi := nomatch hi
  denotable := h.denotable_object

theorem concat (hw : h.WellFormed) (hm : h.Merged ts m) (ha : h.Formed a)
    (hok : h.merge m a = .ok t) : h.Merged (ts ++ [a]) t where
  isMeet := (hm.isMeet.merge hw ha hok).congr fun u => by simp
  base := by
    rcases (merge_eq_ok hok).2 with ⟨hbase, -⟩ | ⟨hbase, -⟩ <;> rw [hbase]
    · exact hm.base.imp_right fun ⟨u, hu, hub⟩ => ⟨u, List.mem_append_left _ hu, hub⟩
    · exact Or.inr ⟨a, by simp, rfl⟩
  interfaces i hi := by
    rw [(merge_eq_ok hok).1] at hi
    rcases mem_interfaces_or.1 (mem_reduce.1 hi).1 with hi | hi
    · obtain ⟨u, hu, hiu⟩ := hm.interfaces i hi
      exact ⟨u, List.mem_append_left _ hu, hiu⟩
    · exact ⟨a, by simp, hi⟩
  denotable := hw.denotable_merge hm.isMeet.reduced.toFormed ha hok

theorem of_mergeAll (hw : h.WellFormed) (hts : ∀ t ∈ ts, h.Formed t)
    (hok : h.mergeAll ts = .ok m) : h.Merged ts m := by
  refine foldlM_invariant_done h.Merged (fun done a rest s s' hsplit hs hstep => ?_) (object hw) hok
  exact hs.concat hw (hts a (hsplit ▸ by simp)) hstep

theorem base_eq (hw : h.WellFormed) (hts : ∀ t ∈ ts, h.Formed t) (hm : h.Merged ts m)
    (hf : h.Narrowest ts f) : m.base = f := by
  obtain ⟨t, ht, rfl⟩ := hf.mem
  refine hw.eq_of_mem_lineage ?_ (assignable_iff.1 (hm.isMeet.held t ht)).1
  rcases hm.base with hobject | ⟨u, hu, hub⟩
  · rw [hobject]
    exact (hts t ht).base
  · exact hub ▸ hf.below u hu

/-- The narrowest class may have all the interfaces that are asked for. -/
theorem admits (hw : h.WellFormed) (hts : ∀ t ∈ ts, h.Formed t) (hm : h.Merged ts m)
    (hf : h.Narrowest ts f) : h.Admits f (ts.flatMap ClassType.interfaces) := by
  obtain rfl := hm.base_eq hw hts hf
  exact hm.denotable.admits hm.isMeet.held

/-- With one more type, the merged class is still the narrowest one. -/
theorem narrowest_concat (hw : h.WellFormed) (hm : h.Merged ts m) (ha : h.Formed a)
    (hf : h.mergedBase? m.base a.base = some f) : h.Narrowest (ts ++ [a]) f := by
  obtain ⟨hmf, haf⟩ := hw.mem_lineage_of_mergedBase? hf
  refine ⟨?_, fun u hu => ?_⟩
  · rcases hw.mergedBase?_eq_some.1 hf with ⟨rfl, ham⟩ | ⟨rfl, -⟩
    · rcases hm.base with hobject | ⟨u, hu, hub⟩
      · -- Only `Object` is above `Object`.
        rw [hobject] at ham ⊢
        exact ⟨a, by simp, hw.eq_of_mem_lineage ham ha.base⟩
      · exact ⟨u, List.mem_append_left _ hu, hub⟩
    · exact ⟨a, by simp, rfl⟩
  · rcases List.mem_append.1 hu with hu | hu
    · exact hw.mem_lineage_trans (assignable_iff.1 (hm.isMeet.held u hu)).1 hmf
    · exact List.mem_singleton.1 hu ▸ haf

/-- A type above a common one with all before it fails to merge with them only if the narrowest
class is asked for too much. -/
theorem narrowest_of_error (hw : h.WellFormed) (hm : h.Merged ts m) (ha : h.Formed a)
    (hc : h.Formed t) (htc : ∀ u ∈ ts, h.assignable u t = true) (hac : h.assignable a t = true)
    {e : TypeError} (herror : h.merge m a = .error e) : ∃ f, h.Narrowest (ts ++ [a]) f ∧
      ¬h.Admits f ((ts ++ [a]).flatMap ClassType.interfaces) := by
  have hfm := hm.isMeet.reduced.toFormed
  have hmc := assignable_iff.1 (hm.isMeet.greatest t hc htc)
  obtain ⟨f, hbase⟩ := hw.exists_mergedBase? hmc.1 (assignable_iff.1 hac).1
  have hf := hm.narrowest_concat hw ha hbase
  refine ⟨f, hf, fun hadmits => hw.not_admits_of_error hfm ha hbase herror fun hfinal i hi => ?_⟩
  refine hadmits hfinal i (List.mem_flatMap.2 ?_)
  rcases List.mem_append.1 hi with hi | hi
  · obtain ⟨u, hu, hiu⟩ := hm.interfaces i hi
    exact ⟨u, List.mem_append_left _ hu, hiu⟩
  · exact ⟨a, by simp, hi⟩

end Merged

/-- The order of the types does not change what they are merged into. -/
theorem mergeAll_unique (hw : h.WellFormed) {ts ts' : List ClassType}
    (hts : ∀ t ∈ ts, h.Formed t) (hmem : ∀ t, t ∈ ts' ↔ t ∈ ts) (ha : h.mergeAll ts = .ok a)
    (hb : h.mergeAll ts' = .ok b) : b = a := by
  have hts' : ∀ t ∈ ts', h.Formed t := fun t ht => hts t ((hmem t).1 ht)
  exact ((Merged.of_mergeAll hw hts' hb).isMeet.congr fun t => (hmem t).symm).unique hw
    (Merged.of_mergeAll hw hts ha).isMeet

/-- Types that are all above some type fail to merge exactly if the first few of them have a final
class for the narrowest and ask for more than it implements. -/
theorem mergeAll_fails_iff (hw : h.WellFormed) {ts : List ClassType} (hts : ∀ t ∈ ts, h.Formed t)
    (hc : h.Formed t) (htc : ∀ u ∈ ts, h.assignable u t = true) :
    (∃ e, h.mergeAll ts = .error e) ↔ ∃ before f, before <+: ts ∧ h.Narrowest before f ∧
      ¬h.Admits f (before.flatMap ClassType.interfaces) := by
  constructor
  · rintro ⟨e, herror⟩
    obtain ⟨before, a, after, s, rfl, hs, hstep⟩ := exists_error_step_of_foldlM herror
    have hbefore : ∀ u ∈ before, u ∈ before ++ a :: after := fun u hu => List.mem_append_left _ hu
    have ha : a ∈ before ++ a :: after := by simp
    have hmerged := Merged.of_mergeAll hw (fun u hu => hts u (hbefore u hu)) hs
    obtain ⟨f, hf, hadmits⟩ := hmerged.narrowest_of_error hw (hts a ha) hc
      (fun u hu => htc u (hbefore u hu)) (htc a ha) hstep
    exact ⟨before ++ [a], f, ⟨after, by simp⟩, hf, hadmits⟩
  · rintro ⟨before, f, ⟨after, rfl⟩, hf, hadmits⟩
    cases hrun : h.mergeAll (before ++ after) with
    | error e => exact ⟨e, rfl⟩
    | ok m =>
      unfold mergeAll at hrun
      rw [List.foldlM_append] at hrun
      obtain ⟨s, hs, -⟩ := bind_eq_ok.1 hrun
      have hbefore : ∀ u ∈ before, h.Formed u := fun u hu => hts u (List.mem_append_left _ hu)
      exact absurd ((Merged.of_mergeAll hw hbefore hs).admits hw hbefore hf) hadmits

end Hierarchy

end Blockwork
