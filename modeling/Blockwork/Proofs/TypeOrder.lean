import Blockwork.Proofs.Hierarchy

/-!
# The order of class types

In a well-formed hierarchy `assignable` orders the class types. `merge` gives the greatest type
below two of them and `intersect` the least type above two.

A class type is `Formed` if its class is below `Object` and its interfaces are interfaces. All
types that occur in a compilation are formed.
-/

namespace Blockwork

namespace Hierarchy

variable {h : Hierarchy} {a b c t : ClassType}

/-- The type asks for a class and for interfaces that are there. -/
structure Formed (h : Hierarchy) (t : ClassType) : Prop where
  base : objectId ∈ h.lineage t.base
  interfaces : ∀ i ∈ t.interfaces, h.isInterface i = true

theorem assignable_iff : h.assignable a b = true ↔
    a.base ∈ h.lineage b.base ∧ ∀ i ∈ a.interfaces, i ∈ h.closure b := by
  simp [assignable, isSubclass]

theorem formed_object (h : Hierarchy) : h.Formed ClassType.object :=
  ⟨h.mem_lineage_self objectId, fun i hi => by simp [ClassType.object] at hi⟩

theorem Formed.assignable_object (ht : h.Formed t) : h.assignable ClassType.object t = true :=
  assignable_iff.2 ⟨ht.base, fun i hi => by simp [ClassType.object] at hi⟩

/-- The interfaces that one of two types asks for. -/
theorem mem_interfaces_or {i : TypeId} :
    i ∈ ascending (a.interfaces ++ b.interfaces) ↔ i ∈ a.interfaces ∨ i ∈ b.interfaces :=
  mem_ascending.trans List.mem_append

theorem Formed.interfaces_or (ha : h.Formed a) (hb : h.Formed b) :
    ∀ i ∈ ascending (a.interfaces ++ b.interfaces), h.isInterface i = true := fun i hi =>
  (mem_interfaces_or.1 hi).elim (ha.interfaces i) (hb.interfaces i)

theorem mem_closure {i : TypeId} : i ∈ h.closure t ↔
    i ∈ h.implied t.base ∨ ∃ j ∈ t.interfaces, i ∈ h.implied j := by
  unfold closure
  simp

theorem mem_reduce {base : TypeId} {ids : List TypeId} {j : TypeId} :
    j ∈ h.reduce base ids ↔
      j ∈ ids ∧ j ∉ h.implied base ∧ ∀ k ∈ ids, k ≠ j → j ∉ h.implied k := by
  unfold reduce
  simp only [List.mem_filter, Bool.and_eq_true, Bool.not_eq_true', List.any_eq_false, bne_iff_ne,
    List.contains_eq_mem, decide_eq_true_eq, decide_eq_false_iff_not, not_and]

/-- The merged class is one of the two, and below both. -/
theorem merge_eq_ok (hok : h.merge a b = .ok t) :
    t = ⟨t.base, h.reduce t.base (ascending (a.interfaces ++ b.interfaces))⟩ ∧
      (t.base = a.base ∧ b.base ∈ h.lineage a.base ∨
        t.base = b.base ∧ a.base ∈ h.lineage b.base) := by
  unfold merge at hok
  split at hok
  · simp at hok
  · rename_i base hbase
    simp only at hok
    split at hok
    · simp at hok
    · obtain rfl := Except.ok.inj hok
      refine ⟨rfl, ?_⟩
      simp only [mergedBase?, isSubclass, List.contains_iff_mem] at hbase
      split at hbase
      · exact Or.inl ⟨(Option.some.inj hbase).symm, ‹_›⟩
      · split at hbase
        · exact Or.inr ⟨(Option.some.inj hbase).symm, ‹_›⟩
        · simp at hbase

/-- The merged type accepts what both accept. -/
theorem merge_assignable (hok : h.merge a b = .ok t)
    (hac : h.assignable a c = true) (hbc : h.assignable b c = true) :
    h.assignable t c = true := by
  obtain ⟨ht, hbase⟩ := merge_eq_ok hok
  rw [assignable_iff] at hac hbc
  refine assignable_iff.2 ⟨?_, fun i hi => ?_⟩
  · rcases hbase with ⟨hbase, -⟩ | ⟨hbase, -⟩ <;> rw [hbase]
    · exact hac.1
    · exact hbc.1
  · rw [ht] at hi
    exact (mem_interfaces_or.1 (mem_reduce.1 hi).1).elim (hac.2 i) (hbc.2 i)

theorem formed_merge (ha : h.Formed a) (hb : h.Formed b) (hok : h.merge a b = .ok t) :
    h.Formed t := by
  obtain ⟨ht, hbase⟩ := merge_eq_ok hok
  refine ⟨?_, fun i hi => ?_⟩
  · rcases hbase with ⟨hbase, -⟩ | ⟨hbase, -⟩ <;> rw [hbase]
    · exact ha.base
    · exact hb.base
  · rw [ht] at hi
    exact ha.interfaces_or hb i (mem_reduce.1 hi).1

theorem mem_closure_of_mem_intersect {i : TypeId}
    (hi : i ∈ (h.intersect a b).interfaces) : i ∈ h.closure a ∧ i ∈ h.closure b := by
  have hmem := (mem_reduce.1 hi).1
  rw [List.mem_filter, List.contains_iff_mem] at hmem
  exact hmem

namespace WellFormed

theorem mem_lineage_trans (hw : h.WellFormed) {x y z : TypeId} (hxy : x ∈ h.lineage y)
    (hyz : y ∈ h.lineage z) :
    x ∈ h.lineage z :=
  (hw.lineage_suffix z y hyz).subset hxy

/-- Of two superclasses of a class one is a superclass of the other. -/
theorem mem_lineage_or (hw : h.WellFormed) {x y z : TypeId} (hx : x ∈ h.lineage z)
    (hy : y ∈ h.lineage z) :
    x ∈ h.lineage y ∨ y ∈ h.lineage x := by
  rcases List.suffix_or_suffix_of_suffix (hw.lineage_suffix z x hx) (hw.lineage_suffix z y hy)
    with hsuffix | hsuffix
  · exact Or.inl (hsuffix.subset (h.mem_lineage_self x))
  · exact Or.inr (hsuffix.subset (h.mem_lineage_self y))

theorem isInterface_of_mem_closure (hw : h.WellFormed) {i : TypeId} (hi : i ∈ h.closure t) :
    h.isInterface i = true := by
  rcases mem_closure.1 hi with hi | ⟨j, -, hi⟩ <;>
    exact hw.isInterface_of_implied _ i hi

/-- What is implied by what a type implies, it implies itself. -/
theorem mem_closure_of_implied (hw : h.WellFormed) {i j : TypeId} (hj : j ∈ h.closure t)
    (hi : i ∈ h.implied j) :
    i ∈ h.closure t := by
  rw [mem_closure] at hj ⊢
  rcases hj with hj | ⟨k, hk, hj⟩
  · exact Or.inl (hw.implied_trans _ j hj i hi)
  · exact Or.inr ⟨k, hk, hw.implied_trans k j hj i hi⟩

theorem mem_closure_of_mem (hw : h.WellFormed) (ht : h.Formed t) {i : TypeId}
    (hi : i ∈ t.interfaces) :
    i ∈ h.closure t :=
  mem_closure.2 (Or.inr ⟨i, hi, hw.implied_self i (ht.interfaces i hi)⟩)

/-! ## The order -/

theorem assignable_refl (hw : h.WellFormed) (ht : h.Formed t) : h.assignable t t = true :=
  assignable_iff.2 ⟨h.mem_lineage_self t.base, fun _ hi => hw.mem_closure_of_mem ht hi⟩

/-- A type below another implies all that the other implies. -/
theorem closure_subset (hw : h.WellFormed) (hab : h.assignable a b = true) {i : TypeId}
    (hi : i ∈ h.closure a) :
    i ∈ h.closure b := by
  obtain ⟨hbase, hinterfaces⟩ := assignable_iff.1 hab
  rcases mem_closure.1 hi with hi | ⟨j, hj, hi⟩
  · exact mem_closure.2 (Or.inl (hw.implied_lineage b.base a.base hbase i hi))
  · exact hw.mem_closure_of_implied (hinterfaces j hj) hi

theorem assignable_trans (hw : h.WellFormed) (hab : h.assignable a b = true)
    (hbc : h.assignable b c = true) :
    h.assignable a c = true := by
  obtain ⟨hbase, hinterfaces⟩ := assignable_iff.1 hab
  exact assignable_iff.2 ⟨hw.mem_lineage_trans hbase (assignable_iff.1 hbc).1,
    fun i hi => hw.closure_subset hbc (hinterfaces i hi)⟩

/-! ## Reduced interfaces -/

/-- What is left out when interfaces are reduced is implied by what is kept: an interface is
left out for the class, or for a later interface, so this comes to an end. -/
theorem mem_closure_reduce_of_mem (hw : h.WellFormed) {base : TypeId} {ids : List TypeId}
    (hids : ∀ i ∈ ids, h.isInterface i = true) {j : TypeId} (hj : j ∈ ids) :
    j ∈ h.closure ⟨base, h.reduce base ids⟩ := by
  by_cases hbase : j ∈ h.implied base
  · exact mem_closure.2 (Or.inl hbase)
  by_cases hother : ∃ k ∈ ids, k ≠ j ∧ j ∈ h.implied k
  · obtain ⟨k, hk, hkj, hjk⟩ := hother
    have hlt : j < k := Nat.lt_of_le_of_ne (hw.implied_le k j hjk) (Ne.symm hkj)
    have hklt : k < h.defs.length := lt_of_isInterface (hids k hk)
    exact hw.mem_closure_of_implied (mem_closure_reduce_of_mem hw hids hk) hjk
  · refine mem_closure.2 (Or.inr ⟨j, ?_, hw.implied_self j (hids j hj)⟩)
    exact mem_reduce.2 ⟨hj, hbase, fun k hk hkj hjk => hother ⟨k, hk, hkj, hjk⟩⟩
termination_by h.defs.length - j
decreasing_by exact Nat.sub_lt_sub_left (hlt.trans hklt) hlt

/-! ## Merging -/

/-- A merged type is below both types. -/
theorem assignable_merge (hw : h.WellFormed) (ha : h.Formed a) (hb : h.Formed b)
    (hok : h.merge a b = .ok t) :
    h.assignable a t = true ∧ h.assignable b t = true := by
  obtain ⟨ht, hbase⟩ := merge_eq_ok hok
  have hclosure : ∀ i, i ∈ a.interfaces ∨ i ∈ b.interfaces → i ∈ h.closure t := fun i hi => by
    rw [ht]
    exact hw.mem_closure_reduce_of_mem (ha.interfaces_or hb) (mem_interfaces_or.2 hi)
  have hlineage : a.base ∈ h.lineage t.base ∧ b.base ∈ h.lineage t.base := by
    rcases hbase with ⟨hbase, hmem⟩ | ⟨hbase, hmem⟩ <;> rw [hbase]
    · exact ⟨h.mem_lineage_self _, hmem⟩
    · exact ⟨hmem, h.mem_lineage_self _⟩
  exact ⟨assignable_iff.2 ⟨hlineage.1, fun i hi => hclosure i (.inl hi)⟩,
    assignable_iff.2 ⟨hlineage.2, fun i hi => hclosure i (.inr hi)⟩⟩

/-! ## Intersecting -/

/-- The common class of an intersection: the first superclass of the one type that is a
superclass of the other. -/
theorem commonBase_spec (hw : h.WellFormed) {x y : TypeId} (hx : objectId ∈ h.lineage x)
    (hy : objectId ∈ h.lineage y) :
    h.commonBase x y ∈ h.lineage x ∧ h.commonBase x y ∈ h.lineage y ∧
      ∀ z ∈ h.lineage x, z ∈ h.lineage y → z ∈ h.lineage (h.commonBase x y) := by
  cases hfind : (h.lineage x).find? fun c => h.isSubclass y c with
  | none =>
    have := List.find?_eq_none.1 hfind objectId hx
    simp [isSubclass, hy] at this
  | some c =>
    have hc : h.commonBase x y = c := by
      unfold commonBase
      rw [hfind]
      rfl
    obtain ⟨hcy, pre, post, hl, hpre⟩ := List.find?_eq_some_iff_append.1 hfind
    have hcx : c ∈ h.lineage x := List.mem_of_find?_eq_some hfind
    rw [hc]
    refine ⟨hcx, List.contains_iff_mem.1 hcy, fun z hzx hzy => ?_⟩
    rcases hw.mem_lineage_or hzx hcx with hz | hz
    · exact hz
    · -- Then `z` comes first, as superclasses are smaller, and would have been found.
      have hle : c ≤ z := hw.le_of_mem_lineage hz
      have hsorted := hw.lineage_sorted x
      rw [hl] at hzx hsorted
      rcases List.mem_append.1 hzx with hzpre | hzpost
      · have := hpre z hzpre
        simp [isSubclass, hzy] at this
      · rcases List.mem_cons.1 hzpost with rfl | hzpost
        · exact h.mem_lineage_self z
        · have hlt : z < c :=
            List.rel_of_pairwise_cons (List.pairwise_append.1 hsorted).2.1 hzpost
          exact absurd hlt (Nat.not_lt.2 hle)

/-- The interfaces an intersection asks for, before they are reduced. -/
theorem isInterface_of_mem_common (hw : h.WellFormed) :
    ∀ i ∈ (h.closure a).filter (fun i => (h.closure b).contains i), h.isInterface i = true :=
  fun _ hi => hw.isInterface_of_mem_closure (List.mem_filter.1 hi).1

/-- Both types are below their intersection. -/
theorem intersect_assignable (hw : h.WellFormed) (ha : objectId ∈ h.lineage a.base)
    (hb : objectId ∈ h.lineage b.base) :
    h.assignable (h.intersect a b) a = true ∧ h.assignable (h.intersect a b) b = true := by
  obtain ⟨hca, hcb, -⟩ := hw.commonBase_spec ha hb
  exact ⟨assignable_iff.2 ⟨hca, fun i hi => (mem_closure_of_mem_intersect hi).1⟩,
    assignable_iff.2 ⟨hcb, fun i hi => (mem_closure_of_mem_intersect hi).2⟩⟩

/-- The intersection is below every type that both are below. -/
theorem assignable_intersect (hw : h.WellFormed) (ha : objectId ∈ h.lineage a.base)
    (hb : objectId ∈ h.lineage b.base) (hca : h.assignable c a = true)
    (hcb : h.assignable c b = true) : h.assignable c (h.intersect a b) = true := by
  obtain ⟨-, -, hleast⟩ := hw.commonBase_spec ha hb
  rw [assignable_iff] at hca hcb
  refine assignable_iff.2 ⟨hleast c.base hca.1 hcb.1, fun i hi => ?_⟩
  refine hw.mem_closure_reduce_of_mem hw.isInterface_of_mem_common ?_
  refine List.mem_filter.2 ⟨hca.2 i hi, ?_⟩
  exact List.contains_iff_mem.2 (hcb.2 i hi)

theorem formed_intersect (hw : h.WellFormed) (ha : objectId ∈ h.lineage a.base)
    (hb : objectId ∈ h.lineage b.base) : h.Formed (h.intersect a b) := by
  obtain ⟨-, -, hleast⟩ := hw.commonBase_spec ha hb
  exact ⟨hleast objectId ha hb, fun i hi =>
    hw.isInterface_of_mem_closure (mem_closure_of_mem_intersect hi).1⟩

/-! ## Widening -/

theorem formed_widen (hw : h.WellFormed) {current : Option ClassType}
    (hcurrent : ∀ r, current = some r → h.Formed r) (ht : h.Formed t) :
    h.Formed (h.widen current t) := by
  cases current with
  | none => exact ht
  | some r => exact hw.formed_intersect (hcurrent r rfl).base ht.base

/-- A widened type holds the types seen so far and the new one. -/
theorem widen_assignable (hw : h.WellFormed) {current : Option ClassType}
    (hcurrent : ∀ r, current = some r → h.Formed r) (ht : h.Formed t) :
    (∀ r, current = some r → h.assignable (h.widen current t) r = true) ∧
      h.assignable (h.widen current t) t = true := by
  cases current with
  | none => exact ⟨fun _ hr => (nomatch hr), hw.assignable_refl ht⟩
  | some r =>
    obtain ⟨hleft, hright⟩ := hw.intersect_assignable (hcurrent r rfl).base ht.base
    exact ⟨fun _ hr => Option.some.inj hr ▸ hleft, hright⟩

/-- It is below every type of classes that holds them. -/
theorem assignable_widen (hw : h.WellFormed) {current : Option ClassType}
    (hc : objectId ∈ h.lineage c.base) (hcurrent : ∀ r, current = some r → h.assignable c r = true)
    (hct : h.assignable c t = true) : h.assignable c (h.widen current t) = true := by
  cases current with
  | none => exact hct
  | some r =>
    have hcr := hcurrent r rfl
    exact hw.assignable_intersect (hw.mem_lineage_trans hc (assignable_iff.1 hcr).1)
      (hw.mem_lineage_trans hc (assignable_iff.1 hct).1) hcr hct

/-! ## Types by name -/

theorem formed_single (hw : h.WellFormed) {name : String} {id : TypeId}
    (hl : h.lookup name = some id) : h.Formed (h.single id) := by
  unfold single
  by_cases hi : h.isInterface id = true
  · rw [if_pos hi]
    exact ⟨h.mem_lineage_self objectId, fun i hmem => List.mem_singleton.1 hmem ▸ hi⟩
  · rw [if_neg hi]
    exact ⟨hw.object_mem id (lookup_lt hl) (eq_false_of_ne_true hi),
      fun i hmem => by simp at hmem⟩

theorem formed_parse (hw : h.WellFormed) {s : String} (hok : h.parse s = .ok t) :
    h.Formed t := by
  unfold parse at hok
  refine foldlM_invariant (fun _ => h.Formed) (fun name _ t t' ht hstep => ?_)
    h.formed_object hok
  obtain ⟨next, hnext, hmerge⟩ := bind_eq_ok.1 hstep
  unfold typeNamed at hnext
  split at hnext
  · simp at hnext
  · rename_i id hl
    rw [← Except.ok.inj hnext] at hmerge
    exact formed_merge ht (hw.formed_single hl) hmerge

theorem formed_literalType (hw : h.WellFormed) (v : Literal) : h.Formed (h.literalType v) := by
  unfold literalType
  split
  · exact hw.formed_single ‹_›
  · exact h.formed_object

end WellFormed

/-! ## Literals of a type -/

theorem kind_readTrimmed? {kind : LiteralKind} {cs : List Char} {v : Literal}
    (hv : kind.readTrimmed? cs = some v) : v.kind = kind := by
  cases kind with
  | boolean =>
    simp only [LiteralKind.readTrimmed?] at hv
    split at hv
    · exact Option.some.inj hv ▸ rfl
    · split at hv
      · exact Option.some.inj hv ▸ rfl
      · simp at hv
  | integer | long | double =>
    obtain ⟨_, -, rfl⟩ := Option.map_eq_some_iff.1 hv
    rfl
  | text => exact Option.some.inj hv ▸ rfl

theorem kind_read {kind : LiteralKind} {s : String} {v : Literal} (hv : kind.read s = .ok v) :
    v.kind = kind := by
  unfold LiteralKind.read at hv
  split at hv
  · exact Except.ok.inj hv ▸ rfl
  · split at hv
    · rename_i hread
      exact Except.ok.inj hv ▸ kind_readTrimmed? hread
    · simp at hv

/-- A literal read for a type has this type. -/
theorem KnowsLiterals.assignable_of_readLiteral (hw : h.WellFormed) (hk : h.KnowsLiterals)
    {s : String} {v : Literal} (hv : h.readLiteral s t = .ok v) :
    h.assignable t (h.literalType v) = true := by
  unfold readLiteral at hv
  split at hv
  · simp at hv
  rename_i hinterfaces
  split at hv
  · simp at hv
  rename_i kind hkind
  have hnil : t.interfaces = [] := by
    simpa [ClassType.hasInterfaces] using hinterfaces
  have hmem : t.base ∈ h.lineage (h.literalType v).base := by
    rcases hk t.base kind hkind with hobject | ⟨c, hl, hclass, hmem⟩
    · exact hobject ▸ (hw.formed_literalType v).base
    · have htype : h.literalType v = ⟨c, []⟩ := by
        unfold literalType
        rw [kind_read hv, hl]
        simp [single, hclass]
      rwa [htype]
  exact assignable_iff.2 ⟨hmem, fun i hi => by simp [hnil] at hi⟩

/-- A literal given for a type is turned into one that has it. -/
theorem KnowsLiterals.assignable_of_coerce? (hw : h.WellFormed) (hk : h.KnowsLiterals)
    {v w : Literal} (hv : h.coerce? v t = some w) :
    h.assignable t (h.literalType w) = true := by
  unfold coerce? at hv
  split at hv
  · rename_i hassign
    exact Option.some.inj hv ▸ hassign
  · split at hv
    · simp at hv
    · exact hk.assignable_of_readLiteral hw (toOption_eq_some.1 hv)

end Hierarchy

end Blockwork
