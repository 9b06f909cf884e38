import Blockwork.Ascending
import Mathlib.Data.List.Sort

/-!
# Sets as ascending lists

The ascending list of some numbers has just these members (`mem_ascending`), and it is strictly
ascending (`pairwise_ascending`). So it is determined by its members (`ascending_congr`), and a
list that is strictly ascending is that of its own members (`ascending_of_pairwise`).
-/

namespace Blockwork

variable {l l' : List Nat} {a i : Nat}

@[simp] theorem mem_insertAscending : i ∈ insertAscending a l ↔ i = a ∨ i ∈ l := by
  induction l with
  | nil => simp [insertAscending]
  | cons b l ih =>
    unfold insertAscending
    split
    · simp
    · split
      · rw [List.mem_cons, ih, List.mem_cons]
        tauto
      · obtain rfl : a = b := by omega
        simp

theorem pairwise_insertAscending (hl : l.Pairwise (· < ·)) :
    (insertAscending a l).Pairwise (· < ·) := by
  induction l with
  | nil => exact List.pairwise_singleton _ _
  | cons b l ih =>
    obtain ⟨hb, hrest⟩ := List.pairwise_cons.1 hl
    unfold insertAscending
    split
    · rename_i hab
      exact List.pairwise_cons.2 ⟨List.forall_mem_cons.2 ⟨hab, fun c hc => hab.trans (hb c hc)⟩, hl⟩
    · split
      · rename_i hba
        refine List.pairwise_cons.2 ⟨fun c hc => ?_, ih hrest⟩
        rcases mem_insertAscending.1 hc with rfl | hc
        · exact hba
        · exact hb c hc
      · exact hl

@[simp] theorem mem_ascending : i ∈ ascending l ↔ i ∈ l := by
  induction l with
  | nil => simp [ascending]
  | cons a l ih =>
    rw [List.mem_cons, ← ih]
    exact mem_insertAscending

theorem pairwise_ascending (l : List Nat) : (ascending l).Pairwise (· < ·) := by
  induction l with
  | nil => exact List.Pairwise.nil
  | cons a l ih => exact pairwise_insertAscending ih

theorem nodup_ascending (l : List Nat) : (ascending l).Nodup :=
  (pairwise_ascending l).imp Nat.ne_of_lt

/-- An ascending list is that of its members. -/
theorem ascending_of_pairwise (hl : l.Pairwise (· < ·)) : ascending l = l :=
  List.Pairwise.eq_of_mem_iff (pairwise_ascending l) hl fun _ => mem_ascending

/-- The ascending list of some numbers depends on which numbers they are only. -/
theorem ascending_congr (h : ∀ i, i ∈ l ↔ i ∈ l') : ascending l = ascending l' :=
  List.Pairwise.eq_of_mem_iff (pairwise_ascending l) (pairwise_ascending l') fun i => by
    rw [mem_ascending, mem_ascending, h]

@[simp] theorem ascending_eq_nil : ascending l = [] ↔ l = [] := by
  simp only [List.eq_nil_iff_forall_not_mem, mem_ascending]

end Blockwork
