import Mathlib.Data.List.Cycle
import Mathlib.Logic.Relation

/-!
# Circles

A list is a circle of a relation (`IsCircle`) if its members are different, each is related to the
next one and the last one to the first. A path that comes back to one of its members holds a circle,
the part of it from there on (`IsCircle.of_path`).
-/

namespace Blockwork

open Relation

variable {α β : Type} {R : α → α → Prop} {S : β → β → Prop}

/-! ## A list cut at a member -/

section Cut

variable [BEq α] [LawfulBEq α] {a : α} {before after : List α}

theorem bne_of_not_mem (h : a ∉ before) : ∀ b ∈ before, (b != a) = true := fun _ hb =>
  bne_iff_ne.2 fun heq => h (heq ▸ hb)

theorem takeWhile_bne_split (h : a ∉ before) :
    (before ++ a :: after).takeWhile (· != a) = before := by
  rw [List.takeWhile_append_of_pos (bne_of_not_mem h), List.takeWhile_cons_of_neg (by simp),
    List.append_nil]

theorem dropWhile_bne_split (h : a ∉ before) :
    (before ++ a :: after).dropWhile (· != a) = a :: after := by
  rw [List.dropWhile_append_of_pos (bne_of_not_mem h), List.dropWhile_cons_of_neg (by simp)]

theorem mem_dropWhile_bne {path : List α} (h : a ∈ path) : a ∈ path.dropWhile (· != a) := by
  obtain ⟨before, after, rfl, hbefore⟩ := List.eq_append_cons_of_mem h
  rw [dropWhile_bne_split hbefore]
  exact List.mem_cons_self

end Cut

/-! ## Circles -/

/-- Different members, each related to the next one and the last one to the first. -/
structure IsCircle (R : α → α → Prop) (l : List α) : Prop where
  ne_nil : l ≠ []
  nodup : l.Nodup
  chain : (l : Cycle α).Chain R

namespace IsCircle

/-- From each member one comes to all of them, and back to it. -/
theorem transGen {l : List α} (h : IsCircle R l) {a b : α} (ha : a ∈ l) (hb : b ∈ l) :
    TransGen R a b :=
  Cycle.chain_iff_pairwise.1 (h.chain.imp fun _ _ => TransGen.single) a ha b hb

theorem mono {S : α → α → Prop} (hRS : ∀ a b, R a b → S a b) {l : List α} (h : IsCircle R l) :
    IsCircle S l :=
  ⟨h.ne_nil, h.nodup, h.chain.imp hRS⟩

theorem map_on {l : List α} (h : IsCircle R l) {f : α → β}
    (hf : ∀ a ∈ l, ∀ b ∈ l, R a b → S (f a) (f b)) (hnodup : (l.map f).Nodup) :
    IsCircle S (l.map f) where
  ne_nil := by simpa using h.ne_nil
  nodup := hnodup
  chain := by
    obtain ⟨a, after, rfl⟩ := List.exists_cons_of_ne_nil h.ne_nil
    have hpath := (Cycle.chain_coe_cons R a after).1 h.chain
    refine (Cycle.chain_coe_cons S (f a) (after.map f)).2 ?_
    have hmem : ∀ b ∈ a :: (after ++ [a]), b ∈ a :: after := by simp [or_comm]
    rw [← List.map_singleton, ← List.map_append, ← List.map_cons, List.isChain_map]
    exact hpath.imp_of_mem_imp fun b c hb hc => hf b (hmem b hb) c (hmem c hc)

/-- A path that comes back to one of its members, from there on. -/
theorem of_path [BEq α] [LawfulBEq α] {path : List α} {a : α} (hpath : (path ++ [a]).IsChain R)
    (hnodup : path.Nodup) (ha : a ∈ path) : IsCircle R (path.dropWhile (· != a)) := by
  obtain ⟨before, after, rfl, hbefore⟩ := List.eq_append_cons_of_mem ha
  rw [dropWhile_bne_split hbefore]
  rw [List.append_assoc] at hpath
  exact ⟨List.cons_ne_nil a after, (List.nodup_append.1 hnodup).2.1,
    (Cycle.chain_coe_cons R a after).2 hpath.right_of_append⟩

end IsCircle

end Blockwork
