import Blockwork.Proofs.TypeExpressions

/-!
# Requirements that can be met

Types that are merged are requirements, met by the types below all of them. Merging refuses two
requirements if their classes are unrelated, and then no type meets both, or if a final class is
asked for an interface it does not implement. A class may be added below a final one, though, and
implement what is asked for. Such a class is the only way for requirements that can be met to be
refused, and for the order in which they are merged to matter (`satisfiable_refused_iff`). Without
a class whose parent is final, neither happens (`unmet_of_error`).
-/

namespace Blockwork

namespace Hierarchy

variable {h : Hierarchy} {a b m t : ClassType} {c f : TypeId}

/-- The class is below a final one. -/
structure ExtendsFinal (h : Hierarchy) (c f : TypeId) : Prop where
  final : h.isFinal f = true
  below : f ∈ h.lineage c
  proper : c ≠ f

theorem final_of_not_admits {ids : List TypeId} (hadmits : ¬h.Admits f ids) :
    h.isFinal f = true :=
  (Classical.not_imp.1 hadmits).1

/-- A class that is asked for too much is above the class of a type that meets the requirements, but
is not this class. -/
theorem Denotable.extendsFinal (ht : h.Denotable t) {us : List ClassType}
    (hus : ∀ u ∈ us, h.assignable u t = true) (hf : h.Narrowest us f)
    (hadmits : ¬h.Admits f (us.flatMap ClassType.interfaces)) : h.ExtendsFinal t.base f where
  final := final_of_not_admits hadmits
  below := by
    obtain ⟨u, hu, rfl⟩ := hf.mem
    exact (assignable_iff.1 (hus u hu)).1
  proper := by
    rintro rfl
    exact hadmits (ht.admits hus)

/-- On the way from a class up to a final one there is a class whose parent is the final one. -/
theorem ExtendsFinal.exists_child (hw : h.WellFormed) (hc : h.ExtendsFinal c f) :
    ∃ child ∈ h.lineage c, h.parent? child = some f := by
  obtain ⟨-, hbelow, hproper⟩ := hc
  induction c using hw.parent_induction with
  | top c hp =>
    rw [lineage_of_parent?_eq_none hp, List.mem_singleton] at hbelow
    exact absurd hbelow.symm hproper
  | step c parent hp ih =>
    rw [hw.lineage_eq hp] at hbelow ⊢
    by_cases hparent : parent = f
    · exact ⟨c, List.mem_cons_self, hparent ▸ hp⟩
    · have hbelow := (List.mem_cons.1 hbelow).resolve_left hproper.symm
      obtain ⟨child, hchild, hchildparent⟩ := ih hbelow hparent
      exact ⟨child, List.mem_cons_of_mem c hchild, hchildparent⟩

/-! ## Two requirements -/

theorem narrowest_pair (hw : h.WellFormed) :
    h.Narrowest [a, b] f ↔ h.mergedBase? a.base b.base = some f := by
  constructor
  · rintro ⟨⟨u, hu, rfl⟩, hbelow⟩
    rw [hw.mergedBase?_eq_some]
    obtain ⟨ha, hb⟩ := List.forall_mem_cons.1 hbelow
    rcases List.mem_cons.1 hu with rfl | hu
    · exact Or.inl ⟨rfl, hb b (List.mem_singleton_self b)⟩
    · rw [List.mem_singleton.1 hu] at ha ⊢
      exact Or.inr ⟨rfl, ha⟩
  · intro hf
    obtain ⟨ha, hb⟩ := hw.mem_lineage_of_mergedBase? hf
    refine ⟨?_, by simp [ha, hb]⟩
    rcases hw.mergedBase?_eq_some.1 hf with ⟨rfl, -⟩ | ⟨rfl, -⟩
    · exact ⟨a, by simp, rfl⟩
    · exact ⟨b, by simp, rfl⟩

namespace Parsed

theorem formed (hm : h.Made) (ht : h.Parsed t) : h.Formed t :=
  ((parsed_iff hm).1 ht).1.toFormed

/-- The class of a type that is written can be written alone. -/
theorem base (hm : h.Made) (ht : h.Parsed t) : h.Parsed ⟨t.base, []⟩ := by
  obtain ⟨hdenotable, hnames⟩ := (parsed_iff hm).1 ht
  refine (parsed_iff hm).2 ⟨denotable_bare hdenotable.base, fun id hid => hnames id ?_⟩
  exact List.mem_cons.2 (Or.inl (List.mem_singleton.1 hid))

/-- A class can be written with the interfaces that types ask for, if it may have them. -/
theorem reduce (hm : h.Made) (hc : h.Parsed ⟨c, []⟩) (ha : h.Parsed a) (hb : h.Parsed b)
    (hadmits : h.Admits c (a.interfaces ++ b.interfaces)) :
    h.Parsed ⟨c, h.reduce c (ascending (a.interfaces ++ b.interfaces))⟩ := by
  have hids := (ha.formed hm).interfaces_or (hb.formed hm)
  refine (parsed_iff hm).2 ⟨?_, fun id hid => ?_⟩
  · have hreduced := reduced_reduce (hc.formed hm).base hids (pairwise_ascending _)
    refine { hreduced with bare := fun hfinal => ?_ }
    exact (hm.wellFormed.reduce_eq_nil_iff hids).2 (admits_ascending.2 hadmits hfinal)
  · rcases List.mem_cons.1 hid with rfl | hid
    · exact ((parsed_iff hm).1 hc).2 _ List.mem_cons_self
    · rcases mem_interfaces_or.1 (mem_reduce.1 hid).1 with hid | hid
      · exact ((parsed_iff hm).1 ha).2 id (List.mem_cons_of_mem _ hid)
      · exact ((parsed_iff hm).1 hb).2 id (List.mem_cons_of_mem _ hid)

end Parsed

/-- A class that may have the interfaces of two requirements gives a type that meets both. -/
theorem WellFormed.assignable_reduce (hw : h.WellFormed) (ha : h.Formed a) (hb : h.Formed b)
    (hac : a.base ∈ h.lineage c) (hbc : b.base ∈ h.lineage c) :
    h.assignable a ⟨c, h.reduce c (ascending (a.interfaces ++ b.interfaces))⟩ = true ∧
      h.assignable b ⟨c, h.reduce c (ascending (a.interfaces ++ b.interfaces))⟩ = true := by
  have hids := ha.interfaces_or hb
  exact ⟨assignable_iff.2 ⟨hac, fun i hi =>
      hw.mem_closure_reduce_of_mem hids (mem_interfaces_or.2 (.inl hi))⟩,
    assignable_iff.2 ⟨hbc, fun i hi =>
      hw.mem_closure_reduce_of_mem hids (mem_interfaces_or.2 (.inr hi))⟩⟩

/-- Two requirements that are refused can be met exactly if a class below the narrower one, a final
one, may have what is asked for. -/
theorem met_iff_of_error (hm : h.Made) (ha : h.Parsed a) (hb : h.Parsed b) {e : TypeError}
    (herror : h.merge a b = .error e) :
    (∃ t, h.Parsed t ∧ h.assignable a t = true ∧ h.assignable b t = true) ↔
      ∃ f c, h.Narrowest [a, b] f ∧ h.ExtendsFinal c f ∧ h.Parsed ⟨c, []⟩ ∧
        h.Admits c (a.interfaces ++ b.interfaces) := by
  have hw := hm.wellFormed
  have hfa := ha.formed hm
  have hfb := hb.formed hm
  have hpair : [a, b].flatMap ClassType.interfaces = a.interfaces ++ b.interfaces := by simp
  constructor
  · rintro ⟨t, ht, hat, hbt⟩
    have hdenotable := ((parsed_iff hm).1 ht).1
    have hheld : ∀ u ∈ [a, b], h.assignable u t = true := by simp [hat, hbt]
    obtain ⟨f, hf⟩ := hw.exists_mergedBase? (assignable_iff.1 hat).1 (assignable_iff.1 hbt).1
    have hnarrowest := (narrowest_pair hw).2 hf
    have hadmits := hw.not_admits_of_error hfa hfb hf herror
    rw [← hpair] at hadmits ⊢
    exact ⟨f, t.base, hnarrowest, hdenotable.extendsFinal hheld hnarrowest hadmits, ht.base hm,
      hdenotable.admits hheld⟩
  · rintro ⟨f, c, hf, hc, hparsed, hadmits⟩
    have hbelow : ∀ u ∈ [a, b], u.base ∈ h.lineage c := fun u hu =>
      hw.mem_lineage_trans (hf.below u hu) hc.below
    obtain ⟨hat, hbt⟩ := hw.assignable_reduce hfa hfb (hbelow a (by simp)) (hbelow b (by simp))
    exact ⟨_, hparsed.reduce hm ha hb hadmits, hat, hbt⟩

/-! ## Orders of requirements -/

/-- An order of requirements that another order merges fails exactly if its first few have a final
class for the narrowest and ask for more than it implements. The class of the merged type is then
below it. -/
theorem order_fails_iff (hw : h.WellFormed) {ts ts' : List ClassType} (hperm : ts'.Perm ts)
    (hts : ∀ t ∈ ts, h.Formed t) (hok : h.mergeAll ts = .ok m) :
    (∃ e, h.mergeAll ts' = .error e) ↔ ∃ before f, before <+: ts' ∧ h.Narrowest before f ∧
      h.ExtendsFinal m.base f ∧ ¬h.Admits f (before.flatMap ClassType.interfaces) := by
  have hmerged := Merged.of_mergeAll hw hts hok
  have hheld : ∀ u ∈ ts', h.assignable u m = true := fun u hu =>
    hmerged.isMeet.held u (hperm.mem_iff.1 hu)
  have hts' : ∀ u ∈ ts', h.Formed u := fun u hu => hts u (hperm.mem_iff.1 hu)
  rw [mergeAll_fails_iff hw hts' hmerged.denotable.toFormed hheld]
  constructor
  · rintro ⟨before, f, hbefore, hf, hadmits⟩
    have hextends := hmerged.denotable.extendsFinal
      (fun u hu => hheld u (hbefore.subset hu)) hf hadmits
    exact ⟨before, f, hbefore, hf, hextends, hadmits⟩
  · rintro ⟨before, f, hbefore, hf, -, hadmits⟩
    exact ⟨before, f, hbefore, hf, hadmits⟩

/-- If no class has a final parent, requirements are refused only if no type meets them, and orders
of requirements do not differ. -/
theorem unmet_of_error (hm : h.Made)
    (hparents : ∀ child f, h.parent? child = some f → h.isFinal f = false) :
    (∀ a b e, h.Parsed a → h.Parsed b → h.merge a b = .error e →
      ¬∃ t, h.Parsed t ∧ h.assignable a t = true ∧ h.assignable b t = true) ∧
    ∀ ts ts' m, ts'.Perm ts → (∀ t ∈ ts, h.Parsed t) → h.mergeAll ts = .ok m →
      h.mergeAll ts' = .ok m := by
  have hnone : ∀ c f, ¬h.ExtendsFinal c f := by
    intro c f hc
    obtain ⟨child, -, hchild⟩ := hc.exists_child hm.wellFormed
    exact absurd hc.final (ne_true_of_eq_false (hparents child f hchild))
  refine ⟨fun a b e ha hb herror hmet => ?_, fun ts ts' m hperm hts hok => ?_⟩
  · obtain ⟨f, c, -, hc, -⟩ := (met_iff_of_error hm ha hb herror).1 hmet
    exact hnone c f hc
  · have hformed : ∀ t ∈ ts, h.Formed t := fun t ht => (hts t ht).formed hm
    cases hrun : h.mergeAll ts' with
    | error e =>
      obtain ⟨-, f, -, -, hc, -⟩ :=
        (order_fails_iff hm.wellFormed hperm hformed hok).1 ⟨e, hrun⟩
      exact absurd hc (hnone _ f)
    | ok m' =>
      rw [mergeAll_unique hm.wellFormed hformed (fun _ => hperm.mem_iff) hok hrun]

/-! ## Requirements that are refused although they can be met -/

/-- The final class `Reading`, and `Sample` below it, which implements `Dated`. -/
def sampleDrafts : List TypeDraft := [
  .ofClass "Reading" none [] true, .ofInterface "Dated" [],
  .ofClass "Sample" (some "Reading") ["Dated"] false]

/-- Samples are readings and dated, but the two do not merge. With `Sample` between them they do,
with `Sample` after them they do not. -/
theorem exists_sample : ∃ h a b t, ofDrafts sampleDrafts = .ok h ∧ h.parse "Reading" = .ok a ∧
    h.parse "Dated" = .ok b ∧ h.parse "Sample" = .ok t ∧ h.assignable a t = true ∧
      h.assignable b t = true ∧ (∃ e, h.merge a b = .error e) ∧ (∀ u ∈ [a, t, b], h.Parsed u) ∧
        h.mergeAll [a, t, b] = .ok t ∧ ∃ e, h.mergeAll [a, b, t] = .error e := by
  have hrun : (ofDrafts sampleDrafts).toOption.any (fun h =>
      (h.parse "Reading").toOption.any fun a => (h.parse "Dated").toOption.any fun b =>
        (h.parse "Sample").toOption.any fun t => h.assignable a t && h.assignable b t &&
          (h.merge a b).toOption.isNone && (h.mergeAll [a, t, b]).toOption == some t &&
            (h.mergeAll [a, b, t]).toOption.isNone) = true := by
    decide +kernel
  obtain ⟨h, hh, hrun⟩ := toOption_any.1 hrun
  obtain ⟨a, ha, hrun⟩ := toOption_any.1 hrun
  obtain ⟨b, hb, hrun⟩ := toOption_any.1 hrun
  obtain ⟨t, ht, hrun⟩ := toOption_any.1 hrun
  simp only [Bool.and_eq_true, beq_iff_eq] at hrun
  obtain ⟨⟨⟨⟨hat, hbt⟩, hmerge⟩, hsome⟩, hnone⟩ := hrun
  have hparsed : ∀ u ∈ [a, t, b], h.Parsed u := by
    simp only [List.forall_mem_cons]
    exact ⟨⟨_, ha⟩, ⟨_, ht⟩, ⟨_, hb⟩, fun _ hu => nomatch hu⟩
  exact ⟨h, a, b, t, hh, ha, hb, ht, hat, hbt, exists_error_of_isNone hmerge, hparsed,
    toOption_eq_some.1 hsome, exists_error_of_isNone hnone⟩

/-- When requirements that can be met are refused. Two are, exactly if a class that may have what
they ask for is below the narrower of theirs, a final one. Several are in one order but not in
another, exactly if the first few have a final class for the narrowest that the merged one is below
and ask it for too much. All orders that succeed give one type. -/
theorem satisfiable_refused_iff (hm : h.Made) :
    (∀ a b e, h.Parsed a → h.Parsed b → h.merge a b = .error e →
      ((∃ t, h.Parsed t ∧ h.assignable a t = true ∧ h.assignable b t = true) ↔
        ∃ f c, h.Narrowest [a, b] f ∧ h.ExtendsFinal c f ∧ h.Parsed ⟨c, []⟩ ∧
          h.Admits c (a.interfaces ++ b.interfaces))) ∧
      ∀ ts ts' m, ts'.Perm ts → (∀ t ∈ ts, h.Parsed t) → h.mergeAll ts = .ok m →
        ((∃ e, h.mergeAll ts' = .error e) ↔ ∃ before f, before <+: ts' ∧ h.Narrowest before f ∧
          h.ExtendsFinal m.base f ∧ ¬h.Admits f (before.flatMap ClassType.interfaces)) ∧
          ∀ m', h.mergeAll ts' = .ok m' → m' = m := by
  refine ⟨fun a b e ha hb herror => met_iff_of_error hm ha hb herror,
    fun ts ts' m hperm hts hok => ?_⟩
  have hformed : ∀ t ∈ ts, h.Formed t := fun t ht => (hts t ht).formed hm
  exact ⟨order_fails_iff hm.wellFormed hperm hformed hok, fun m' =>
    mergeAll_unique hm.wellFormed hformed (fun _ => hperm.mem_iff) hok⟩

/-- `Sample` is below the final class `Reading`, so the first two of the three ask for too much. -/
theorem satisfiable_refused_iff_sample : ∃ h a b t, ofDrafts sampleDrafts = .ok h ∧
    h.parse "Reading" = .ok a ∧ h.parse "Dated" = .ok b ∧ h.parse "Sample" = .ok t ∧
      (∃ f c, h.Narrowest [a, b] f ∧ h.ExtendsFinal c f ∧ h.Parsed ⟨c, []⟩ ∧
        h.Admits c (a.interfaces ++ b.interfaces)) ∧
      ∃ before f, before <+: [a, b, t] ∧ h.Narrowest before f ∧ h.ExtendsFinal t.base f ∧
        ¬h.Admits f (before.flatMap ClassType.interfaces) := by
  obtain ⟨h, a, b, t, hh, ha, hb, ht, hat, hbt, ⟨e, herror⟩, hparsed, hsome, hnone⟩ := exists_sample
  obtain ⟨hpair, horder⟩ := satisfiable_refused_iff (.ofDrafts hh)
  have hperm : [a, b, t].Perm [a, t, b] := (List.Perm.swap t b []).cons a
  exact ⟨h, a, b, t, hh, ha, hb, ht,
    (hpair a b e ⟨_, ha⟩ ⟨_, hb⟩ herror).1 ⟨t, ⟨_, ht⟩, hat, hbt⟩,
    (horder _ _ t hperm hparsed hsome).1.1 hnone⟩

/-- Requirements that can be met are refused, and one order of requirements fails although another
one succeeds. -/
theorem satisfiable_refused : ∃ h, ofDrafts sampleDrafts = .ok h ∧
    (¬∀ a b e, h.Parsed a → h.Parsed b → h.merge a b = .error e →
      ¬∃ t, h.Parsed t ∧ h.assignable a t = true ∧ h.assignable b t = true) ∧
    ¬∀ ts ts' m, ts'.Perm ts → (∀ t ∈ ts, h.Parsed t) → h.mergeAll ts = .ok m →
      ¬∃ e, h.mergeAll ts' = .error e := by
  obtain ⟨h, a, b, t, hh, ha, hb, ht, hat, hbt, ⟨e, herror⟩, hparsed, hsome, hnone⟩ := exists_sample
  have hperm : [a, b, t].Perm [a, t, b] := (List.Perm.swap t b []).cons a
  refine ⟨h, hh, fun hpair => ?_, fun horder => ?_⟩
  · exact hpair a b e ⟨_, ha⟩ ⟨_, hb⟩ herror ⟨t, ⟨_, ht⟩, hat, hbt⟩
  · exact horder _ _ t hperm hparsed hsome hnone

end Hierarchy

end Blockwork
