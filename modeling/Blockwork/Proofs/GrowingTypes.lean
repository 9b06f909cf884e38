import Blockwork.Proofs.ObtainedTypes
import Blockwork.Proofs.TypeExpressions

/-!
# Growing hierarchies

A hierarchy grows by definitions at its end (`Made.attemptAll`), and a definition mentions
earlier ones only. So what is asked about types that are already there is answered as before: the
walks to their superclasses and interfaces meet none of the new definitions, and what is computed
from these, up to the reading of whole expressions, is the same too (`attemptAll_conserves`).
-/

namespace Blockwork

theorem any_congr_of_mem {α : Type} {p q : α → Bool} {l : List α} (h : ∀ a ∈ l, p a = q a) :
    l.any p = l.any q := by
  rw [Bool.eq_iff_iff, List.any_eq_true, List.any_eq_true]
  exact exists_congr fun a => and_congr_right fun ha => by rw [h a ha]

/-- The type mentions definitions of the hierarchy only. -/
def ClassType.Within (h : Hierarchy) (t : ClassType) : Prop :=
  ∀ id ∈ t.parts, id < h.defs.length

namespace ClassType.Within

variable {h : Hierarchy} {t : ClassType}

theorem base (ht : t.Within h) : t.base < h.defs.length :=
  ht t.base List.mem_cons_self

theorem interfaces (ht : t.Within h) (i : TypeId) (hi : i ∈ t.interfaces) : i < h.defs.length :=
  ht i (List.mem_cons_of_mem t.base hi)

end ClassType.Within

namespace Hierarchy

variable {h h' : Hierarchy} {a b t : ClassType} {id : TypeId} {ids : List TypeId}

theorem Formed.within (ht : h.Formed t) (hw : h.WellFormed) : t.Within h := by
  obtain ⟨hbase, hinterfaces⟩ := hw.lt_of_formed ht
  exact List.forall_mem_cons.2 ⟨hbase, hinterfaces⟩

theorem Obtained.within (ht : h.Obtained t) (hm : h.Made) : t.Within h :=
  (ht.reduced hm).toFormed.within hm.wellFormed

/-! ## Types -/

namespace WellFormed

variable (hw : h.WellFormed) (hw' : h'.WellFormed) (hp : h.defs <+: h'.defs)
include hw hw' hp

theorem closure_of_grown (ht : t.Within h) : h'.closure t = h.closure t := by
  have himplied : (t.base :: t.interfaces).map h'.implied = (t.base :: t.interfaces).map h.implied :=
    List.map_congr_left fun id hid => hw.implied_of_grown hp hw' (ht id hid)
  unfold closure
  rw [List.flatMap_def, List.flatMap_def, himplied]

theorem reduce_of_grown (hid : id < h.defs.length) (hids : ∀ i ∈ ids, i < h.defs.length) :
    h'.reduce id ids = h.reduce id ids := by
  have hothers : ∀ i, (ids.any fun j => j != i && (h'.implied j).contains i) =
      ids.any fun j => j != i && (h.implied j).contains i := fun i =>
    any_congr_of_mem fun j hj => by rw [hw.implied_of_grown hp hw' (hids j hj)]
  unfold reduce
  simp only [hw.implied_of_grown hp hw' hid, hothers]

end WellFormed

section Types

variable (hp : h.defs <+: h'.defs)
include hp

theorem describe_of_grown (ht : t.Within h) : h'.describe t = h.describe t := by
  have hnames : t.described.map h'.name = t.described.map h.name :=
    List.map_congr_left fun id hid => name_of_grown hp (ht id (t.described_subset hid))
  rw [describe_eq, describe_eq, hnames]

theorem single_of_grown (hid : id < h.defs.length) : h'.single id = h.single id := by
  unfold single
  rw [isInterface_of_grown hp hid]

theorem typeNamed_of_grown {name : String} (hok : h.typeNamed name = .ok t) :
    h'.typeNamed name = .ok t := by
  obtain ⟨id, hl, rfl⟩ := typeNamed_eq_ok.1 hok
  exact typeNamed_eq_ok.2 ⟨id, lookup_of_grown hp hl, single_of_grown hp (lookup_lt hl)⟩

end Types

namespace WellFormed

variable (hw : h.WellFormed)
include hw

/-- What a type implies mentions no new definition. -/
theorem lt_of_mem_closure (ht : t.Within h) {i : TypeId} (hi : i ∈ h.closure t) :
    i < h.defs.length := by
  rcases mem_closure.1 hi with hi | ⟨j, hj, hi⟩
  · exact (hw.implied_le _ i hi).trans_lt ht.base
  · exact (hw.implied_le j i hi).trans_lt (ht.interfaces j hj)

/-- The nearest common superclass is not new either. -/
theorem commonBase_lt {c : TypeId} (hc : c < h.defs.length) (d : TypeId) :
    h.commonBase c d < h.defs.length := by
  unfold commonBase
  cases hfind : (h.lineage c).find? fun e => h.isSubclass d e with
  | none => exact hw.object_class.1
  | some e =>
    exact Nat.lt_of_le_of_lt (hw.le_of_mem_lineage (List.mem_of_find?_eq_some hfind)) hc

variable (hw' : h'.WellFormed) (hp : h.defs <+: h'.defs)
include hp

omit hw' in
theorem isSubclass_of_grown (hid : id < h.defs.length) (c : TypeId) :
    h'.isSubclass id c = h.isSubclass id c := by
  unfold isSubclass
  rw [hw.lineage_of_grown hp hid]

include hw'

theorem assignable_of_grown (hb : b.Within h) : h'.assignable a b = h.assignable a b := by
  unfold assignable
  rw [hw.isSubclass_of_grown hp hb.base, hw.closure_of_grown hw' hp hb]

theorem merge_of_grown (ha : a.Within h) (hb : b.Within h) : h'.merge a b = h.merge a b := by
  have hbase : h'.mergedBase? a.base b.base = h.mergedBase? a.base b.base := by
    unfold mergedBase?
    rw [hw.isSubclass_of_grown hp ha.base, hw.isSubclass_of_grown hp hb.base]
  unfold merge
  rw [hbase, describe_of_grown hp ha, describe_of_grown hp hb]
  cases hmerged : h.mergedBase? a.base b.base with
  | none => rfl
  | some base =>
    have hlt : base < h.defs.length := by
      obtain ⟨rfl, -⟩ | ⟨rfl, -⟩ := hw.mergedBase?_eq_some.1 hmerged
      · exact ha.base
      · exact hb.base
    have hinterfaces : ∀ i ∈ ascending (a.interfaces ++ b.interfaces), i < h.defs.length :=
      fun i hi => (List.mem_append.1 (mem_ascending.1 hi)).elim (ha.interfaces i) (hb.interfaces i)
    simp only [hw.reduce_of_grown hw' hp hlt hinterfaces, isFinal_of_grown hp hlt]

theorem intersect_of_grown (ha : a.Within h) (hb : b.Within h) :
    h'.intersect a b = h.intersect a b := by
  have hbase : h'.commonBase a.base b.base = h.commonBase a.base b.base := by
    unfold commonBase
    simp only [hw.lineage_of_grown hp ha.base, hw.isSubclass_of_grown hp hb.base]
  have hcommon : ∀ i ∈ (h.closure a).filter fun i => (h.closure b).contains i,
      i < h.defs.length := fun i hi => hw.lt_of_mem_closure ha (List.mem_filter.1 hi).1
  unfold intersect
  simp only [hw.closure_of_grown hw' hp ha, hw.closure_of_grown hw' hp hb, hbase,
    hw.reduce_of_grown hw' hp (hw.commonBase_lt ha.base b.base) hcommon]

/-- An expression denotes what it did: the names in it are still those of the same types, and
each of the types they are merged into is there already. -/
theorem parse_of_grown {s : String} (hok : h.parse s = .ok t) : h'.parse s = .ok t := by
  -- Up to each name, the grown hierarchy has merged the names into the same type.
  refine (foldlM_invariant_done (fun done t => h.Formed t ∧ done.foldlM
    (fun t name => do h'.merge t (← h'.typeNamed name)) ClassType.object = .ok t)
    (fun done name _ t t' _ ht hstep => ?_) ⟨h.formed_object, rfl⟩ hok).2
  obtain ⟨hformed, hrun⟩ := ht
  obtain ⟨next, hnext, hmerge⟩ := bind_eq_ok.1 hstep
  obtain ⟨id, hl, rfl⟩ := typeNamed_eq_ok.1 hnext
  have hsingle := hw.formed_single hl
  refine ⟨formed_merge hformed hsingle hmerge, ?_⟩
  have hlast : (do h'.merge t (← h'.typeNamed name)) = .ok t' := by
    refine bind_eq_ok.2 ⟨_, typeNamed_of_grown hp hnext, ?_⟩
    rw [hw.merge_of_grown hw' hp (hformed.within hw) (hsingle.within hw), hmerge]
  rw [List.foldlM_append]
  exact bind_eq_ok.2 ⟨t, hrun, bind_eq_ok.2 ⟨t', hlast, rfl⟩⟩

end WellFormed

/-! ## Calls that may fail -/

/-- The hierarchy after a call that adds the type of a draft, whatever comes of it. -/
def attempt (h : Hierarchy) (d : TypeDraft) : Hierarchy :=
  (addDraft d).after h

/-- The hierarchy after calls that add the types of drafts one by one. -/
def attemptAll (h : Hierarchy) (ds : List TypeDraft) : Hierarchy :=
  ds.foldl attempt h

/-- A call that fails changes nothing. -/
theorem attempt_of_error {d : TypeDraft} {e : Diagnostic}
    (herror : (addDraft d).answer h = .error e) : h.attempt d = h :=
  guarded_addDraft d e herror

namespace Made

/-- One call leaves the definitions where they are. -/
theorem attempt (hm : h.Made) (d : TypeDraft) :
    (h.attempt d).Made ∧ h.defs <+: (h.attempt d).defs := by
  cases hadd : (Hierarchy.addDraft d).answer h with
  | error e =>
    rw [attempt_of_error hadd]
    exact ⟨hm, List.prefix_refl _⟩
  | ok id =>
    have hok : (Hierarchy.addDraft d).result h = .ok (h.attempt d) :=
      Method.result_eq_ok.2 ⟨⟨id, hadd⟩, rfl⟩
    refine ⟨hm.addDraft hok, ?_⟩
    obtain ⟨new, hnew, -⟩ := exists_extend_of_addDraft hm.wellFormed hok
    exact hnew ▸ h.prefix_extend new

/-- Calls leave the definitions where they are, however many there are. -/
theorem attemptAll (hm : h.Made) (ds : List TypeDraft) :
    (h.attemptAll ds).Made ∧ h.defs <+: (h.attemptAll ds).defs := by
  induction ds generalizing h with
  | nil => exact ⟨hm, List.prefix_refl _⟩
  | cons d ds ih =>
    obtain ⟨hnext, hp⟩ := hm.attempt d
    obtain ⟨hall, hall'⟩ := ih hnext
    exact ⟨hall, hp.trans hall'⟩

end Made

theorem attemptAll_append (h : Hierarchy) (ds ds' : List TypeDraft) :
    h.attemptAll (ds ++ ds') = (h.attemptAll ds).attemptAll ds' :=
  List.foldl_append

/-- A call that fails may as well not be made. -/
theorem attemptAll_of_error {before after : List TypeDraft} {d : TypeDraft} {e : Diagnostic}
    (herror : (addDraft d).answer (h.attemptAll before) = .error e) :
    h.attemptAll (before ++ d :: after) = h.attemptAll (before ++ after) := by
  have hcall : (h.attemptAll before).attemptAll (d :: after) =
      ((h.attemptAll before).attempt d).attemptAll after := rfl
  rw [attemptAll_append, attemptAll_append, hcall, attempt_of_error herror]

/-- A type is the only one of its name. -/
theorem Made.eq_of_name_eq (hm : h.Made) {c d : TypeId} (hc : c < h.defs.length)
    (hd : d < h.defs.length) (heq : h.name c = h.name d) : c = d := by
  have hlookup := hm.lookup_name hc
  rw [heq, hm.lookup_name hd] at hlookup
  exact (Option.some.inj hlookup).symm

/-- Adding classes and interfaces, by calls some of which may fail, changes no answer about types
that are there already, all obtained ones among them, and no expression that could be read. A call
that fails changes nothing at all, a name goes on to denote the same type, and no two types ever
have one name. -/
theorem attemptAll_conserves (hm : h.Made) (ds : List TypeDraft) :
    (∀ t, h.Obtained t → t.Within h) ∧
    (∀ a b, a.Within h → b.Within h →
      (h.attemptAll ds).assignable a b = h.assignable a b ∧
        (h.attemptAll ds).merge a b = h.merge a b ∧
          (h.attemptAll ds).intersect a b = h.intersect a b ∧
            (h.attemptAll ds).describe a = h.describe a) ∧
      (∀ s t, h.parse s = .ok t → (h.attemptAll ds).parse s = .ok t) ∧
        (∀ before d after e, ds = before ++ d :: after →
          (addDraft d).answer (h.attemptAll before) = .error e →
            h.attemptAll ds = h.attemptAll (before ++ after)) ∧
          (∀ name id, h.lookup name = some id → (h.attemptAll ds).lookup name = some id) ∧
            ∀ c < (h.attemptAll ds).defs.length, ∀ d < (h.attemptAll ds).defs.length,
              (h.attemptAll ds).name c = (h.attemptAll ds).name d → c = d := by
  have hw := hm.wellFormed
  obtain ⟨hgrown, hp⟩ := hm.attemptAll ds
  have hw' := hgrown.wellFormed
  refine ⟨fun t ht => ht.within hm, fun a b ha hb => ⟨?_, ?_, ?_, ?_⟩, fun s t => ?_,
    fun before d after e hds herror => ?_, fun name id => ?_, fun c hc d hd => ?_⟩
  · exact hw.assignable_of_grown hw' hp hb
  · exact hw.merge_of_grown hw' hp ha hb
  · exact hw.intersect_of_grown hw' hp ha hb
  · exact describe_of_grown hp ha
  · exact hw.parse_of_grown hw' hp
  · rw [hds]
    exact attemptAll_of_error herror
  · exact lookup_of_grown hp
  · exact hgrown.eq_of_name_eq hc hd

/-- Calls made after those of the diamond: a name that is taken, a class below `Plate`, a
superclass that is not there and an interface that extends two of the diamond. -/
def laterDrafts : List TypeDraft := [
  .ofInterface "Disc" [], .ofClass "Lid" (some "Plate") ["Disc"] false,
  .ofClass "Ring" (some "Torus") [] false, .ofInterface "Wheel" ["Disc", "Iterable"]]

/-- Two of the calls succeed, and what the two classes of the diamond have in common is described
as before. The first call may be left out. -/
theorem attemptAll_conserves_diamond : ∃ h a b, ofDrafts diamondDrafts = .ok h ∧
    h.parse "Coin" = .ok a ∧ h.parse "Plate" = .ok b ∧
      (h.attemptAll laterDrafts).defs.length = h.defs.length + 2 ∧
        h.attemptAll laterDrafts = h.attemptAll laterDrafts.tail ∧
          (h.attemptAll laterDrafts).parse "Coin" = .ok a ∧
            (h.attemptAll laterDrafts).intersect a b = h.intersect a b ∧
              (h.attemptAll laterDrafts).describe (h.intersect a b) = "Round & Flat" := by
  have hrun : (ofDrafts diamondDrafts).toOption.any (fun h => (h.parse "Coin").toOption.any fun a =>
      (h.parse "Plate").toOption.any fun b =>
        (h.attemptAll laterDrafts).defs.length == h.defs.length + 2 &&
          ((addDraft (.ofInterface "Disc" [])).answer h).toOption.isNone &&
            h.describe (h.intersect a b) == "Round & Flat") = true := by
    decide +kernel
  obtain ⟨h, hh, hrun⟩ := toOption_any.1 hrun
  obtain ⟨a, ha, hrun⟩ := toOption_any.1 hrun
  obtain ⟨b, hb, hrun⟩ := toOption_any.1 hrun
  simp only [Bool.and_eq_true, beq_iff_eq] at hrun
  obtain ⟨⟨hlength, hfails⟩, hdescribe⟩ := hrun
  have hm : h.Made := .ofDrafts hh
  obtain ⟨hwithin, hsame, hparse, hleft, -⟩ := attemptAll_conserves hm laterDrafts
  obtain ⟨e, he⟩ := exists_error_of_isNone hfails
  have hca : h.Obtained a := .parse ha
  have hcb : h.Obtained b := .parse hb
  obtain ⟨-, -, hintersect, -⟩ := hsame a b (hwithin a hca) (hwithin b hcb)
  obtain ⟨-, -, -, hdescribes⟩ := hsame (h.intersect a b) a (hwithin _ (hca.intersect hcb))
    (hwithin a hca)
  exact ⟨h, a, b, hh, ha, hb, hlength, hleft [] _ _ e rfl he, hparse _ a ha, hintersect,
    hdescribes.trans hdescribe⟩

end Hierarchy

end Blockwork
