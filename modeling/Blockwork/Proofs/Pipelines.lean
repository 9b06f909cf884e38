import Blockwork.Network.Freeze
import Blockwork.Proofs.Wiring
import Mathlib.Logic.Relation

/-!
# Connected pipelines

Attributes of a declaration are connected if pipelines lead from one to the other through common
outputs. `Freezing` says which type reaches an attribute when the attributes are gone through in
an order: that of the first attribute connected to it which holds something of known type.

Both are stated for any assignment of outputs and of known types to the attributes.
-/

namespace Blockwork

/-- The attributes are pipelines into common outputs, directly or through others. -/
def Connected (feeds : Nat × Nat → List Nat) : Nat × Nat → Nat × Nat → Prop :=
  Relation.ReflTransGen fun x y => ∃ k ∈ feeds x, k ∈ feeds y

/-- A type reaches a pipeline from the first attribute connected to it, among those in the list,
that has a known type. -/
def Freezing (feeds : Nat × Nat → List Nat) (known : Nat × Nat → Option ClassType)
    (order : List (Nat × Nat)) (x : Nat × Nat) (type : ClassType) : Prop :=
  feeds x ≠ [] ∧ ∃ before y after, order = before ++ y :: after ∧ Connected feeds y x ∧
    known y = some type ∧ ∀ z ∈ before, Connected feeds z x → known z = none

variable {feeds feeds' : Nat × Nat → List Nat} {known : Nat × Nat → Option ClassType}
  {order : List (Nat × Nat)} {x y z : Nat × Nat} {type : ClassType}

namespace Connected

theorem symm (hxy : Connected feeds x y) : Connected feeds y x := by
  induction hxy with
  | refl => exact Relation.ReflTransGen.refl
  | tail _ hstep ih =>
    obtain ⟨k, hk, hk'⟩ := hstep
    exact Relation.ReflTransGen.head ⟨k, hk', hk⟩ ih

theorem trans (hxy : Connected feeds x y) (hyz : Connected feeds y z) : Connected feeds x z :=
  Relation.ReflTransGen.trans hxy hyz

/-- Attributes that feed a common output are connected. -/
theorem of_mem {k : Nat} (hx : k ∈ feeds x) (hy : k ∈ feeds y) : Connected feeds x y :=
  Relation.ReflTransGen.single ⟨k, hx, hy⟩

/-- What is connected to a pipeline is a pipeline. -/
theorem feeds_ne_nil (hxy : Connected feeds x y) (hx : feeds x ≠ []) : feeds y ≠ [] := by
  induction hxy with
  | refl => exact hx
  | tail _ hstep _ =>
    obtain ⟨k, -, hk⟩ := hstep
    exact List.ne_nil_of_mem hk

/-- Whether attributes are connected depends on the links of those connected to them. -/
theorem congr (hfeeds : ∀ z, Connected feeds x z → feeds' z = feeds z)
    (hxy : Connected feeds x y) : Connected feeds' x y := by
  induction hxy with
  | refl => exact Relation.ReflTransGen.refl
  | tail hxz hstep ih =>
    obtain ⟨k, hk, hk'⟩ := hstep
    have hy := Relation.ReflTransGen.tail hxz ⟨k, hk, hk'⟩
    exact ih.tail ⟨k, hfeeds _ hxz ▸ hk, hfeeds _ hy ▸ hk'⟩

theorem mono (hfeeds : ∀ z, ∀ k ∈ feeds z, k ∈ feeds' z) (hxy : Connected feeds x y) :
    Connected feeds' x y := by
  induction hxy with
  | refl => exact Relation.ReflTransGen.refl
  | tail _ hstep ih =>
    obtain ⟨k, hk, hk'⟩ := hstep
    exact ih.tail ⟨k, hfeeds _ k hk, hfeeds _ k hk'⟩

end Connected

namespace Freezing

/-- A type that reaches an attribute reaches all that are connected to it. -/
theorem of_connected (hx : Freezing feeds known order x type) (hxy : Connected feeds x y) :
    Freezing feeds known order y type := by
  obtain ⟨hfeeds, before, z, after, horder, hzx, hz, hbefore⟩ := hx
  exact ⟨hxy.feeds_ne_nil hfeeds, before, z, after, horder, hzx.trans hxy, hz,
    fun w hw hwy => hbefore w hw (hwy.trans hxy.symm)⟩

/-- At most one type reaches an attribute. -/
theorem unique {type' : ClassType} (h : Freezing feeds known order x type)
    (h' : Freezing feeds known order x type') : type = type' := by
  obtain ⟨-, before, y, after, horder, hyx, hy, hbefore⟩ := h
  obtain ⟨-, before', y', after', horder', hyx', hy', hbefore'⟩ := h'
  rw [horder] at horder'
  rcases List.append_eq_append_iff.1 horder' with ⟨l, hl, hl'⟩ | ⟨l, hl, hl'⟩
  · cases l with
    | nil =>
      obtain ⟨rfl, -⟩ := List.cons.inj hl'
      exact Option.some.inj (hy.symm.trans hy')
    | cons w l =>
      obtain ⟨rfl, -⟩ := List.cons.inj hl'
      rw [hbefore' y (hl ▸ by simp) hyx] at hy
      simp at hy
  · cases l with
    | nil =>
      obtain ⟨rfl, -⟩ := List.cons.inj hl'
      exact Option.some.inj (hy.symm.trans hy')
    | cons w l =>
      obtain ⟨rfl, -⟩ := List.cons.inj hl'
      rw [hbefore y' (hl ▸ by simp) hyx'] at hy'
      simp at hy'

/-- If something connected to a pipeline has a known type, some type reaches the pipeline. -/
theorem exists_of_mem (hx : feeds x ≠ []) (hy : y ∈ order) (hyx : Connected feeds y x)
    (hknown : known y ≠ none) : ∃ type, Freezing feeds known order x type := by
  induction order with
  | nil => simp at hy
  | cons w ws ih =>
    by_cases hw : Connected feeds w x ∧ known w ≠ none
    · obtain ⟨type, htype⟩ := Option.ne_none_iff_exists'.1 hw.2
      exact ⟨type, hx, [], w, ws, rfl, hw.1, htype, by simp⟩
    · have hne : y ≠ w := fun h => hw ⟨h ▸ hyx, h ▸ hknown⟩
      obtain ⟨type, -, before, z, after, rfl, hzx, hz, hbefore⟩ :=
        ih ((List.mem_cons.1 hy).resolve_left hne)
      refine ⟨type, hx, w :: before, z, after, rfl, hzx, hz, fun v hv hvx => ?_⟩
      rcases List.mem_cons.1 hv with rfl | hv
      · by_contra hnone
        exact hw ⟨hvx, hnone⟩
      · exact hbefore v hv hvx

/-- With one more attribute in the list, its type reaches those to which none came before. -/
theorem concat_iff : Freezing feeds known (order ++ [y]) x type ↔
    Freezing feeds known order x type ∨ (∀ type', ¬Freezing feeds known order x type') ∧
      feeds x ≠ [] ∧ Connected feeds y x ∧ known y = some type := by
  constructor
  · rintro ⟨hx, before, z, after, horder, hzx, hz, hbefore⟩
    rcases List.eq_nil_or_concat after with rfl | ⟨after, w, rfl⟩
    · obtain ⟨rfl, hyz⟩ := List.append_inj' horder rfl
      obtain rfl := List.singleton_inj.1 hyz
      refine Or.inr ⟨?_, hx, hzx, hz⟩
      rintro type' ⟨-, before', z', after', rfl, hzx', hz', -⟩
      rw [hbefore z' (by simp) hzx'] at hz'
      simp at hz'
    · have horder' : order ++ [y] = (before ++ z :: after) ++ [w] := by simpa using horder
      obtain ⟨rfl, -⟩ := List.append_inj' horder' rfl
      exact Or.inl ⟨hx, before, z, after, rfl, hzx, hz, hbefore⟩
  · rintro (⟨hx, before, z, after, rfl, hzx, hz, hbefore⟩ | ⟨hnone, hx, hyx, hy⟩)
    · exact ⟨hx, before, z, after ++ [y], by simp, hzx, hz, hbefore⟩
    · refine ⟨hx, order, y, [], rfl, hyx, hy, fun z hz hzx => ?_⟩
      by_contra hknown
      obtain ⟨type', htype'⟩ := exists_of_mem hx hz hzx hknown
      exact hnone type' htype'

end Freezing

end Blockwork
