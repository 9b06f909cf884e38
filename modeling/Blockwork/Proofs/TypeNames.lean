import Blockwork.Proofs.Hierarchy
import Mathlib.Data.List.Nodup

/-!
# Names of types

No two types of a hierarchy have one name (`Made.nodup_names`), so a type is found by its name
(`Made.lookup_name`) and what is found has the name that was asked for (`name_of_lookup`).
-/

namespace Blockwork

/-- Names that differ are found where they stand. -/
theorem findIdx?_of_nodup {names : List String} (h : names.Nodup) {i : Nat} {s : String}
    (hs : names[i]? = some s) : names.findIdx? (· == s) = some i := by
  obtain ⟨hi, rfl⟩ := List.getElem?_eq_some_iff.1 hs
  refine List.findIdx?_eq_some_iff_getElem.2 ⟨hi, beq_self_eq_true _, fun j hj heq => ?_⟩
  exact hj.ne ((h.getElem_inj_iff).1 (beq_iff_eq.1 heq))

namespace Hierarchy

variable {h : Hierarchy} {id : TypeId}

theorem lookup_eq (h : Hierarchy) (name : String) :
    h.lookup name = (h.defs.map TypeDef.name).findIdx? (· == name) := by
  rw [List.findIdx?_map]
  rfl

theorem name_of_lookup {name : String} (hl : h.lookup name = some id) : h.name id = name := by
  rw [lookup_eq] at hl
  obtain ⟨hid, hname, -⟩ := List.findIdx?_eq_some_iff_getElem.1 hl
  rw [List.length_map] at hid
  rw [List.getElem_map, beq_iff_eq] at hname
  unfold Hierarchy.name
  rw [List.getElem?_eq_getElem hid]
  exact hname

namespace Made

/-- No two types have one name. -/
theorem nodup_names (hm : h.Made) : (h.defs.map TypeDef.name).Nodup := by
  induction hm with
  | root => decide
  | standard => decide
  | addDraft hm hok ih =>
    obtain ⟨d, rfl, hnew, -⟩ := exists_extend_of_addDraft hm.wellFormed hok
    rw [lookup_eq, List.findIdx?_eq_none_iff] at hnew
    unfold extend
    rw [List.map_append, List.map_singleton, ← List.concat_eq_append, List.nodup_concat]
    exact ⟨fun hmem => by simpa using hnew d.name hmem, ih⟩

/-- A type is found by its name. -/
theorem lookup_name (hm : h.Made) (hid : id < h.defs.length) :
    h.lookup (h.name id) = some id := by
  rw [lookup_eq]
  refine findIdx?_of_nodup hm.nodup_names ?_
  unfold name
  rw [List.getElem?_map, List.getElem?_eq_getElem hid]
  rfl

theorem name_objectId (hm : h.Made) : h.name objectId = "Object" := by
  induction hm with
  | root => rfl
  | standard => rfl
  | addDraft hm hok ih =>
    obtain ⟨d, rfl, -⟩ := exists_extend_of_addDraft hm.wellFormed hok
    rw [name_of_grown (prefix_extend ..) hm.wellFormed.object_class.1, ih]

end Made

end Hierarchy

end Blockwork
