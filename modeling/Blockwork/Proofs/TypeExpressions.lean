import Blockwork.Proofs.Merging
import Blockwork.Proofs.Splitting
import Blockwork.Proofs.TypeNames

/-!
# Type expressions

An expression is read as the names in it and denotes the merged type of all of them (`parse_eq_ok`).
The types that expressions denote are the reduced ones that ask no final class for interfaces and
whose names can stand in an expression (`parsed_iff`): their descriptions denote them. So every
type that is read, merged or the type of a literal is read back from its description
(`Composed.read_back`).
-/

namespace Blockwork

/-! ## Names in an expression -/

/-- The name can stand in an expression: it holds no `&` and has no blank at either end. -/
structure PlainName (s : String) : Prop where
  unjoined : '&' ∉ s.toList
  leading : s.toList.head?.any Text.isBlank = false
  trailing : s.toList.getLast?.any Text.isBlank = false

instance (s : String) : Decidable (PlainName s) :=
  decidable_of_iff ('&' ∉ s.toList ∧ s.toList.head?.any Text.isBlank = false ∧
      s.toList.getLast?.any Text.isBlank = false)
    ⟨fun ⟨h₁, h₂, h₃⟩ => ⟨h₁, h₂, h₃⟩, fun h => ⟨h.unjoined, h.leading, h.trailing⟩⟩

/-! ## Parts of a type -/

namespace ClassType

/-- The class and the interfaces. -/
def parts (t : ClassType) : List TypeId :=
  t.base :: t.interfaces

/-- What a description names: all parts, but `Object` only if there are no others. -/
def described (t : ClassType) : List TypeId :=
  if t.base = Hierarchy.objectId ∧ t.interfaces ≠ [] then t.interfaces else t.parts

theorem described_subset (t : ClassType) : t.described ⊆ t.parts := by
  unfold described
  split
  · exact List.subset_cons_self _ _
  · exact List.Subset.refl _

theorem described_ne_nil (t : ClassType) : t.described ≠ [] := by
  unfold described
  split
  · rename_i hobject
    exact hobject.2
  · exact List.cons_ne_nil _ _

end ClassType

namespace Hierarchy

theorem trimChars_plain {n : String} (hn : PlainName n) :
    String.ofList (Text.trimChars n.toList) = n := by
  rw [Text.trimChars_eq_self hn.leading hn.trailing, String.ofList_toList]

theorem expressionNames_plain {n : String} (hn : PlainName n) : expressionNames n = [n] := by
  unfold expressionNames
  rw [splitAt_of_not_mem hn.unjoined, List.map_singleton, trimChars_plain hn]

/-- A blank before an expression is not seen. -/
theorem map_trimChars_cons {c : Char} (hblank : Text.isBlank c = true) (hc : c ≠ '&')
    (l : List Char) : (splitAt '&' (c :: l)).map Text.trimChars =
      (splitAt '&' l).map Text.trimChars := by
  obtain ⟨x, rest, hl, hcl⟩ := splitAt_cons_of_ne hc l
  rw [hl, hcl, List.map_cons, List.map_cons, Text.trimChars_cons hblank]

theorem expressionNames_join {n : String} (hn : PlainName n) (s : String) :
    expressionNames (n ++ " & " ++ s) = n :: expressionNames s := by
  have htoList : (n ++ " & " ++ s).toList = (n.toList ++ [' ']) ++ '&' :: ' ' :: s.toList := by
    simp
  have hspace : '&' ∉ n.toList ++ [' '] := by
    simpa using hn.unjoined
  unfold expressionNames
  rw [htoList, splitAt_append hspace, List.map_cons, Text.trimChars_concat rfl, trimChars_plain hn,
    ← Function.comp_def String.ofList, ← List.map_map, ← List.map_map,
    map_trimChars_cons rfl (by decide)]

/-- Joined names are taken apart again. -/
theorem expressionNames_intercalate : ∀ {ns : List String}, ns ≠ [] → (∀ n ∈ ns, PlainName n) →
    expressionNames (" & ".intercalate ns) = ns
  | [], hne, _ => absurd rfl hne
  | [n], _, hns => by
    rw [String.intercalate_singleton, expressionNames_plain (hns n List.mem_cons_self)]
  | n :: n' :: ns, _, hns => by
    obtain ⟨hn, hns⟩ := List.forall_mem_cons.1 hns
    rw [String.intercalate_cons_cons, expressionNames_join hn,
      expressionNames_intercalate (List.cons_ne_nil _ _) hns]

theorem plainName_of_mem {n s : String} (hn : n ∈ expressionNames s) : PlainName n := by
  obtain ⟨x, hx, rfl⟩ := List.mem_map.1 hn
  exact
    { unjoined := by
        rw [String.toList_ofList]
        exact fun hmem => not_mem_of_mem_splitAt hx (Text.mem_of_mem_trimChars hmem)
      leading := by
        rw [String.toList_ofList]
        exact Text.head?_trimChars x
      trailing := by
        rw [String.toList_ofList]
        exact Text.getLast?_trimChars x }

/-! ## Reading an expression -/

variable {h h' : Hierarchy} {t : ClassType} {s : String}

theorem typeNamed_eq_ok {name : String} :
    h.typeNamed name = .ok t ↔ ∃ id, h.lookup name = some id ∧ h.single id = t := by
  unfold typeNamed
  cases h.lookup name with
  | none => simp
  | some id => simp

/-- An expression denotes the merged type of what it names. -/
theorem parse_eq_ok : h.parse s = .ok t ↔
    ∃ ts, (expressionNames s).mapM h.typeNamed = .ok ts ∧ h.mergeAll ts = .ok t :=
  foldlM_bind_eq_ok

/-! ## Describing a type -/

/-- A class is described by its name alone, and so is an interface. -/
theorem single_class {id : TypeId} (hid : h.isInterface id = false) : h.single id = ⟨id, []⟩ := by
  unfold single
  rw [hid]
  rfl

theorem single_interface {id : TypeId} (hid : h.isInterface id = true) :
    h.single id = ⟨objectId, [id]⟩ := by
  unfold single
  rw [if_pos hid]

theorem describe_eq (h : Hierarchy) (t : ClassType) :
    h.describe t = " & ".intercalate (t.described.map h.name) := by
  unfold describe ClassType.described ClassType.parts
  cases hinterfaces : t.interfaces with
  | nil => simp
  | cons i is =>
    by_cases hbase : t.base = objectId
    · simp [hbase]
    · simp [hbase]

theorem Made.isInterface_base (hm : h.Made) (ht : h.Formed t) : h.isInterface t.base = false := by
  by_contra hinterface
  -- An interface is its own only superclass, and `Object` is none.
  have hbase := ht.base
  rw [lineage_of_isInterface (eq_true_of_ne_false hinterface), List.mem_singleton] at hbase
  exact hinterface (hbase ▸ hm.wellFormed.object_class.2)

theorem mem_parts_lt (hw : h.WellFormed) (ht : h.Formed t) {id : TypeId} (hid : id ∈ t.parts) :
    id < h.defs.length := by
  rcases List.mem_cons.1 hid with rfl | hid
  · exact (hw.lt_of_formed ht).1
  · exact (hw.lt_of_formed ht).2 id hid

theorem formed_parts (hm : h.Made) (ht : h.Formed t) :
    ∀ u ∈ t.parts.map h.single, h.Formed u := by
  intro u hu
  obtain ⟨id, hid, rfl⟩ := List.mem_map.1 hu
  exact hm.wellFormed.formed_single (hm.lookup_name (mem_parts_lt hm.wellFormed ht hid))

namespace Reduced

/-- A type is the greatest one below its class and its interfaces. -/
theorem isMeet_parts (hm : h.Made) (ht : h.Reduced t) :
    h.IsMeet (· ∈ t.parts.map h.single) t := by
  have hw := hm.wellFormed
  have hclass := single_class (hm.isInterface_base ht.toFormed)
  have hinterface : ∀ i ∈ t.interfaces, h.single i = ⟨objectId, [i]⟩ := fun i hi =>
    single_interface (ht.interfaces i hi)
  refine ⟨ht, fun u hu => ?_, fun c _ hc => assignable_iff.2 ⟨?_, fun i hi => ?_⟩⟩
  · obtain ⟨id, hid, rfl⟩ := List.mem_map.1 hu
    rcases List.mem_cons.1 hid with rfl | hid
    · rw [hclass]
      exact assignable_iff.2 ⟨h.mem_lineage_self _, fun _ hi => nomatch hi⟩
    · rw [hinterface id hid]
      refine assignable_iff.2 ⟨ht.base, fun i hi => ?_⟩
      rw [List.mem_singleton.1 hi]
      exact hw.mem_closure_of_mem ht.toFormed hid
  · have hbase := hc _ (List.mem_map_of_mem List.mem_cons_self)
    rw [hclass] at hbase
    exact (assignable_iff.1 hbase).1
  · have hmem := hc _ (List.mem_map_of_mem (List.mem_cons_of_mem _ hi))
    rw [hinterface i hi] at hmem
    exact (assignable_iff.1 hmem).2 i (List.mem_singleton_self i)

end Reduced

namespace Denotable

/-- The class and the interfaces are merged into the type. -/
theorem mergeAll_parts (hm : h.Made) (ht : h.Denotable t) :
    h.mergeAll (t.parts.map h.single) = .ok t := by
  have hw := hm.wellFormed
  have hmeet := ht.isMeet_parts hm
  have hformed := formed_parts hm ht.toFormed
  cases hrun : h.mergeAll (t.parts.map h.single) with
  | ok m => rw [(Merged.of_mergeAll hw hformed hrun).isMeet.unique hw hmeet]
  | error e =>
    exfalso
    obtain ⟨before, f, hbefore, hf, hadmits⟩ :=
      (mergeAll_fails_iff hw hformed ht.toFormed hmeet.held).1 ⟨e, hrun⟩
    obtain ⟨u, hu, rfl⟩ := hf.mem
    -- The class comes first, so it is the narrowest one, and the type asks for nothing else.
    have hfirst : h.single t.base ∈ before := by
      rcases List.prefix_cons_iff.1 hbefore with rfl | ⟨rest, rfl, -⟩
      · cases hu
      · exact List.mem_cons_self
    have hheld : ∀ v ∈ before, h.assignable v t = true := fun v hv =>
      hmeet.held v (hbefore.subset hv)
    have hbase : u.base = t.base := by
      refine hw.eq_of_mem_lineage (assignable_iff.1 (hheld u hu)).1 ?_
      have hbelow := hf.below _ hfirst
      rwa [single_class (hm.isInterface_base ht.toFormed)] at hbelow
    rw [hbase] at hadmits
    exact hadmits (ht.admits hheld)

theorem mergeAll_described (hm : h.Made) (ht : h.Denotable t) :
    h.mergeAll (t.described.map h.single) = .ok t := by
  have hparts := ht.mergeAll_parts hm
  unfold ClassType.described
  split
  · rename_i hobject
    -- Merging starts from `Object`, so it does not matter that it is left out.
    unfold ClassType.parts at hparts
    rw [hobject.1, List.map_cons, single_class hm.wellFormed.object_class.2] at hparts
    exact (h.denotable_object.mergeAll_cons hm.wellFormed _).symm.trans hparts
  · exact hparts

/-- A type whose names can stand in an expression is read back from its description. -/
theorem parse_describe (hm : h.Made) (ht : h.Denotable t)
    (hnames : ∀ id ∈ t.parts, PlainName (h.name id)) : h.parse (h.describe t) = .ok t := by
  have hplain : ∀ n ∈ t.described.map h.name, PlainName n := by
    intro n hn
    obtain ⟨id, hid, rfl⟩ := List.mem_map.1 hn
    exact hnames id (t.described_subset hid)
  have hnamed : (t.described.map h.name).mapM h.typeNamed = .ok (t.described.map h.single) := by
    refine mapM_eq_ok.2 ?_
    rw [List.map_map, List.map_map]
    refine List.map_congr_left fun id hid => ?_
    have hlt := mem_parts_lt hm.wellFormed ht.toFormed (t.described_subset hid)
    exact typeNamed_eq_ok.2 ⟨id, hm.lookup_name hlt, rfl⟩
  refine parse_eq_ok.2 ⟨_, ?_, ht.mergeAll_described hm⟩
  rw [describe_eq, expressionNames_intercalate (by simp [t.described_ne_nil]) hplain, hnamed]

end Denotable

/-! ## Types that are written -/

/-- The type is denoted by an expression. -/
def Parsed (h : Hierarchy) (t : ClassType) : Prop :=
  ∃ s, h.parse s = .ok t

theorem plainName_object (hm : h.Made) : PlainName (h.name objectId) := by
  rw [hm.name_objectId]
  decide

/-- The types that expressions denote. -/
theorem parsed_iff (hm : h.Made) :
    h.Parsed t ↔ h.Denotable t ∧ ∀ id ∈ t.parts, PlainName (h.name id) := by
  constructor
  · rintro ⟨s, hok⟩
    obtain ⟨ts, hts, hmerge⟩ := parse_eq_ok.1 hok
    have hnamed : ∀ u ∈ ts, ∃ id, PlainName (h.name id) ∧ id < h.defs.length ∧ h.single id = u := by
      intro u hu
      obtain ⟨n, hn, hu⟩ := mem_of_mapM_eq_ok hts hu
      obtain ⟨id, hl, hu⟩ := typeNamed_eq_ok.1 hu
      exact ⟨id, name_of_lookup hl ▸ plainName_of_mem hn, lookup_lt hl, hu⟩
    have hformed : ∀ u ∈ ts, h.Formed u := by
      intro u hu
      obtain ⟨id, -, hlt, rfl⟩ := hnamed u hu
      exact hm.wellFormed.formed_single (hm.lookup_name hlt)
    have hmerged := Merged.of_mergeAll hm.wellFormed hformed hmerge
    refine ⟨hmerged.denotable, fun id hid => ?_⟩
    -- A part of the type is a part of one of the named types, so `Object` or what was named.
    have hpart : id = objectId ∨ ∃ u ∈ ts, id ∈ u.parts := by
      rcases List.mem_cons.1 hid with rfl | hid
      · exact hmerged.base.imp_right fun ⟨u, hu, hub⟩ => ⟨u, hu, hub ▸ List.mem_cons_self⟩
      · obtain ⟨u, hu, hi⟩ := hmerged.interfaces id hid
        exact Or.inr ⟨u, hu, List.mem_cons_of_mem _ hi⟩
    rcases hpart with rfl | ⟨u, hu, hid⟩
    · exact plainName_object hm
    · obtain ⟨id', hplain, -, rfl⟩ := hnamed u hu
      cases hinterface : h.isInterface id' with
      | false =>
        rw [single_class hinterface] at hid
        obtain rfl := List.mem_singleton.1 hid
        exact hplain
      | true =>
        rw [single_interface hinterface] at hid
        rcases List.mem_cons.1 hid with rfl | hid
        · exact plainName_object hm
        · exact List.mem_singleton.1 hid ▸ hplain
  · rintro ⟨ht, hnames⟩
    exact ⟨_, ht.parse_describe hm hnames⟩

/-! ## Types that are read back -/

theorem Denotable.addDraft (hm : h.Made) (ht : h.Denotable t) {d : TypeDraft}
    (hok : (addDraft d).result h = .ok h') : h'.Denotable t := by
  have hreduced := ht.toReduced.addDraft hm.wellFormed hok
  obtain ⟨d', rfl, -⟩ := exists_extend_of_addDraft hm.wellFormed hok
  have hlt := (hm.wellFormed.lt_of_formed ht.toFormed).1
  exact
    { hreduced with
      bare := fun hfinal => ht.bare (isFinal_of_grown (h.prefix_extend d') hlt ▸ hfinal) }

theorem denotable_literalType (hm : h.Made) (v : Literal) : h.Denotable (h.literalType v) := by
  refine { hm.wellFormed.reduced_literalType v with bare := fun hfinal => ?_ }
  unfold literalType at hfinal ⊢
  split at hfinal
  · rename_i id _
    cases hid : h.isInterface id with
    | false => rw [single_class hid]
    | true =>
      rw [single_interface hid, hm.isFinal_objectId] at hfinal
      cases hfinal
  · rfl

/-- The class types that are read, that come out of merging or that literals have, those from before
a class or an interface was added among them. -/
inductive Composed : Hierarchy → ClassType → Prop
  | parse {h : Hierarchy} {s : String} {t : ClassType} (hok : h.parse s = .ok t) : Composed h t
  | merge {h : Hierarchy} {a b t : ClassType} (ha : h.Obtained a) (hb : h.Obtained b)
    (hok : h.merge a b = .ok t) : Composed h t
  | literalType (h : Hierarchy) (v : Literal) : Composed h (h.literalType v)
  | addDraft {h h' : Hierarchy} {d : TypeDraft} {t : ClassType} (hm : h.Made) (ht : Composed h t)
    (hok : (addDraft d).result h = .ok h') : Composed h' t

namespace Composed

theorem denotable (ht : h.Composed t) (hm : h.Made) : h.Denotable t := by
  induction ht with
  | parse hok => exact ((parsed_iff hm).1 ⟨_, hok⟩).1
  | merge ha hb hok =>
    exact hm.wellFormed.denotable_merge (ha.reduced hm).toFormed (hb.reduced hm).toFormed hok
  | literalType h v => exact denotable_literalType hm v
  | addDraft hm' _ hok ih => exact (ih hm').addDraft hm' hok

/-- If all names can stand in an expression, every type that is read, merged or the type of a
literal is read back from its description. -/
theorem read_back (hm : h.Made) (hnames : ∀ d ∈ h.defs, PlainName d.name)
    (ht : h.Composed t) : h.parse (h.describe t) = .ok t := by
  have hdenotable := ht.denotable hm
  refine hdenotable.parse_describe hm fun id hid => ?_
  have hlt := mem_parts_lt hm.wellFormed hdenotable.toFormed hid
  unfold name
  rw [List.getElem?_eq_getElem hlt]
  exact hnames _ (List.getElem_mem hlt)

/-- A merged type with a class and two interfaces, of which one extends others that are left out. -/
theorem read_back_diamond : ∃ h a b t, ofDrafts diamondDrafts = .ok h ∧
    (∀ d ∈ h.defs, PlainName d.name) ∧ h.parse "Shape & Disc" = .ok a ∧
      h.parse " Plate&Iterable " = .ok b ∧ h.merge a b = .ok t ∧
        h.describe t = "Plate & Iterable & Disc" ∧ h.parse (h.describe t) = .ok t := by
  have hrun : (ofDrafts diamondDrafts).toOption.any (fun h =>
      decide (∀ d ∈ h.defs, PlainName d.name) && (h.parse "Shape & Disc").toOption.any fun a =>
        (h.parse " Plate&Iterable ").toOption.any fun b => (h.merge a b).toOption.any fun t =>
          h.describe t == "Plate & Iterable & Disc") = true := by
    decide +kernel
  obtain ⟨h, hh, hrun⟩ := toOption_any.1 hrun
  rw [Bool.and_eq_true, decide_eq_true_eq] at hrun
  obtain ⟨hnames, hrun⟩ := hrun
  obtain ⟨a, ha, hrun⟩ := toOption_any.1 hrun
  obtain ⟨b, hb, hrun⟩ := toOption_any.1 hrun
  obtain ⟨t, ht, hrun⟩ := toOption_any.1 hrun
  exact ⟨h, a, b, t, hh, hnames, ha, hb, ht, eq_of_beq hrun,
    Composed.read_back (.ofDrafts hh) hnames (.merge (.parse ha) (.parse hb) ht)⟩

end Composed

end Hierarchy

end Blockwork
